import Lineage.Merging
import Lineage.Proofs.Ordered.Gather
import Lineage.Proofs.TypeTable.View
import Mathlib.Data.List.Induction

/-!
# The order of merging

What is folded into what is settled before the first merge: the definitions of a display name
form a group, and each later one of a group is folded into the first. `plan` lists these
folds, and a run goes through the list (`run_eq_runTo`). So a fact about runs is an
invariant over the part of the plan that is done (`plan_induction`).

The plan never folds a class twice (`nodup_duplicates`) and never folds into a class that is
folded itself (`not_mem_duplicates_of_head`). Of each class, the classes folded into it stand
in table order (`foldedInto_plan`).

All of this comes from the groups. A definition is in the group of its display name and in no other,
and ids are distinct, so no id is in two groups (`name_eq_of_mem_groups`). Hence a list of all
groups in a row has each definition once, its heads are kept, and its tails are folded.

A class of a group consists of parts: itself, and the classes folded into it so far (`parts`). The
plan is gone through from the front, so the lemmas about parts are about a list of folds and one
fold more at its end.
-/

namespace Lineage.Merging

variable {t : TypeTable}

/-! ## Groups -/

/-- The definitions with a display name, in table order. -/
def group (t : TypeTable) (name : Text) : List ClassRecord :=
  t.realClasses.filter fun c => c.display = name

/-- The display names in the order of their first definitions. -/
def displayNames (t : TypeTable) : List Text := (byDisplayName t).keys

/-- Definitions are gathered under their display names. -/
theorem byDisplayName_eq_gather (t : TypeTable) :
    byDisplayName t = .gather (t.realClasses.map fun c => (c.display, c.id)) := by
  rw [byDisplayName, OrderedMap.gather, List.foldl_map]
  rfl

/-- A group has the definitions of one display name. -/
theorem mem_group_iff {name : Text} {c : ClassRecord} :
    c ∈ group t name ↔ c ∈ t.realClasses ∧ c.display = name := by
  rw [group, List.mem_filter, decide_eq_true_iff]

theorem mem_displayNames_of_mem {name : Text} {c : ClassRecord} (h : c ∈ group t name) :
    name ∈ displayNames t := by
  obtain ⟨hc, rfl⟩ := mem_group_iff.1 h
  rw [displayNames, byDisplayName_eq_gather, OrderedMap.mem_keys_gather, List.map_map]
  exact List.mem_map_of_mem hc

/-- The groups stand in the order in which their names were first met. -/
theorem values_byDisplayName (t : TypeTable) :
    (byDisplayName t).values = (displayNames t).map fun n => (group t n).map ClassRecord.id := by
  rw [displayNames, byDisplayName_eq_gather, OrderedMap.values_gather]
  refine List.map_congr_left fun n _ => ?_
  rw [List.filter_map, List.map_map]
  rfl

/-- A definition is in its group once. -/
theorem nodup_ids_group (t : TypeTable) (name : Text) :
    ((group t name).map ClassRecord.id).Nodup :=
  t.nodup_realIds.sublist (List.filter_sublist.map _)

/-- A definition is known by its id. -/
theorem eq_of_id_eq {c e : ClassRecord} (hc : c ∈ t.realClasses) (he : e ∈ t.realClasses)
    (h : c.id = e.id) : c = e :=
  List.inj_on_of_nodup_map t.nodup_realIds hc he h

/-- Groups of different names share no class. -/
theorem name_eq_of_mem_groups {m n : Text} {id : TypeId}
    (hm : id ∈ (group t m).map ClassRecord.id) (hn : id ∈ (group t n).map ClassRecord.id) :
    m = n := by
  obtain ⟨c, hc, hcid⟩ := List.mem_map.1 hm
  obtain ⟨e, he, heid⟩ := List.mem_map.1 hn
  obtain ⟨hct, hcm⟩ := mem_group_iff.1 hc
  obtain ⟨het, hen⟩ := mem_group_iff.1 he
  rw [← hcm, ← hen, eq_of_id_eq hct het (hcid.trans heid.symm)]

/-! ## The plan -/

/-- The folds of one group, each a kept class with a duplicate. -/
def foldsOf : List TypeId → List (TypeId × TypeId)
  | [] => []
  | kept :: duplicates => duplicates.map fun d => (kept, d)

/-- All folds in the order in which they are made. -/
def plan (t : TypeTable) : List (TypeId × TypeId) :=
  (displayNames t).flatMap fun n => foldsOf ((group t n).map ClassRecord.id)

/-- The classes that are to be folded into others. -/
def duplicates (t : TypeTable) : List TypeId := (plan t).map Prod.snd

/-- The classes that a list of folds folds into a class. -/
def foldedInto (folds : List (TypeId × TypeId)) (kept : TypeId) : List TypeId :=
  (folds.filter fun p => p.1 = kept).map Prod.snd

/-- All but the first of a group are folded. -/
theorem map_snd_foldsOf (ids : List TypeId) : (foldsOf ids).map Prod.snd = ids.tail := by
  cases ids with
  | nil => rfl
  | cons kept duplicates => simp [foldsOf, Function.comp_def]

/-- They are folded into the first. -/
theorem mem_foldsOf_iff {ids : List TypeId} {k d : TypeId} :
    (k, d) ∈ foldsOf ids ↔ ids.head? = some k ∧ d ∈ ids.tail := by
  cases ids with
  | nil => simp [foldsOf]
  | cons kept duplicates => simp [foldsOf, and_comm]

/-- What a fold of the plan is: two definitions of one display name, the first of them and
a later one. -/
theorem mem_plan_iff {k d : TypeId} :
    (k, d) ∈ plan t ↔ ∃ c cs, group t c.display = c :: cs ∧ c.id = k ∧
      d ∈ cs.map ClassRecord.id := by
  simp only [plan, List.mem_flatMap, mem_foldsOf_iff]
  refine ⟨?_, ?_⟩
  · intro hx
    obtain ⟨n, _, hk, hd⟩ := hx
    cases hg : group t n with
    | nil => rw [hg] at hk; simp at hk
    | cons c cs =>
      rw [hg] at hk hd
      have hc : c ∈ group t n := by rw [hg]; exact List.mem_cons_self
      obtain ⟨_, rfl⟩ := mem_group_iff.1 hc
      exact ⟨c, cs, hg, by simpa using hk, hd⟩
  · intro hx
    obtain ⟨c, cs, hg, rfl, hd⟩ := hx
    have hc : c ∈ group t c.display := by rw [hg]; exact List.mem_cons_self
    exact ⟨c.display, mem_displayNames_of_mem hc, by rw [hg]; rfl, by rw [hg]; exact hd⟩

theorem mem_plan_of_eq_append {pre post : List (TypeId × TypeId)} {k d : TypeId}
    (hp : plan t = pre ++ (k, d) :: post) : (k, d) ∈ plan t := by
  rw [hp]
  exact List.mem_append_right pre List.mem_cons_self

/-- A duplicate is a definition behind the first of its group. -/
theorem mem_duplicates_iff {d : TypeId} :
    d ∈ duplicates t ↔ ∃ c cs, group t c.display = c :: cs ∧ d ∈ cs.map ClassRecord.id := by
  rw [duplicates, List.mem_map]
  refine ⟨?_, ?_⟩
  · intro hx
    obtain ⟨⟨k, d⟩, h, rfl⟩ := hx
    obtain ⟨c, cs, hg, _, hd⟩ := mem_plan_iff.1 h
    exact ⟨c, cs, hg, hd⟩
  · intro hx
    obtain ⟨c, cs, hg, hd⟩ := hx
    exact ⟨(c.id, d), mem_plan_iff.2 ⟨c, cs, hg, rfl, hd⟩, rfl⟩

theorem mem_duplicates_of_group {name : Text} {c : ClassRecord} {cs : List ClassRecord}
    {d : TypeId} (hg : group t name = c :: cs) (hd : d ∈ cs.map ClassRecord.id) :
    d ∈ duplicates t := by
  have hc : c ∈ group t name := by rw [hg]; exact List.mem_cons_self
  obtain ⟨_, rfl⟩ := mem_group_iff.1 hc
  exact mem_duplicates_iff.2 ⟨c, cs, hg, hd⟩

/-- No class is folded twice. -/
theorem nodup_duplicates (t : TypeTable) : (duplicates t).Nodup := by
  have tails : duplicates t =
      (displayNames t).flatMap fun n => ((group t n).map ClassRecord.id).tail := by
    simp only [duplicates, plan, List.map_flatMap, map_snd_foldsOf]
  rw [tails, List.nodup_flatMap]
  refine ⟨fun n _ => (nodup_ids_group t n).tail, ?_⟩
  refine (byDisplayName t).nodup_keys.imp fun {m n} hne => ?_
  intro id hm hn
  exact hne (name_eq_of_mem_groups (List.mem_of_mem_tail hm) (List.mem_of_mem_tail hn))

/-- The first definition of a group is not folded into anything. -/
theorem not_mem_duplicates_of_head {name : Text} {c : ClassRecord} {cs : List ClassRecord}
    (hg : group t name = c :: cs) : c.id ∉ duplicates t := by
  intro hd
  obtain ⟨e, es, he, hce⟩ := mem_duplicates_iff.1 hd
  have hc : c.id ∈ (group t name).map ClassRecord.id := by rw [hg]; exact List.mem_cons_self
  have hc' : c.id ∈ (group t e.display).map ClassRecord.id := by
    rw [he]; exact List.mem_cons_of_mem _ hce
  obtain rfl := name_eq_of_mem_groups hc hc'
  obtain ⟨rfl, rfl⟩ := List.cons.inj (hg.symm.trans he)
  have := nodup_ids_group t c.display
  rw [hg, List.map_cons, List.nodup_cons] at this
  exact this.1 hce

/-- What something is folded into is not folded itself. -/
theorem kept_not_mem_duplicates {k d : TypeId} (h : (k, d) ∈ plan t) : k ∉ duplicates t := by
  obtain ⟨c, cs, hg, rfl, _⟩ := mem_plan_iff.1 h
  exact not_mem_duplicates_of_head hg

theorem mem_realIds_of_mem_group {name : Text} {id : TypeId}
    (h : id ∈ (group t name).map ClassRecord.id) : id ∈ t.realIds :=
  (List.filter_sublist.map ClassRecord.id).mem h

/-- Only definitions are folded, and only into definitions. -/
theorem mem_realIds_of_mem_plan {k d : TypeId} (h : (k, d) ∈ plan t) :
    k ∈ t.realIds ∧ d ∈ t.realIds := by
  obtain ⟨c, cs, hg, rfl, hd⟩ := mem_plan_iff.1 h
  have ids : (group t c.display).map ClassRecord.id = c.id :: cs.map ClassRecord.id := by
    rw [hg, List.map_cons]
  refine ⟨mem_realIds_of_mem_group (ids ▸ List.mem_cons_self), ?_⟩
  exact mem_realIds_of_mem_group (ids ▸ List.mem_cons_of_mem _ hd)

/-- Every definition is the first of its group or a duplicate. -/
theorem head_or_mem_duplicates {c : ClassRecord} (hc : c ∈ t.realClasses) :
    (∃ cs, group t c.display = c :: cs) ∨ c.id ∈ duplicates t := by
  have hm : c ∈ group t c.display := mem_group_iff.2 ⟨hc, rfl⟩
  cases hg : group t c.display with
  | nil => rw [hg] at hm; cases hm
  | cons e es =>
    rw [hg] at hm
    have he : e ∈ group t c.display := by rw [hg]; exact List.mem_cons_self
    rcases List.mem_cons.1 hm with rfl | hm
    · exact .inl ⟨es, rfl⟩
    · rw [← (mem_group_iff.1 he).2] at hg
      exact .inr (mem_duplicates_iff.2 ⟨e, es, hg, List.mem_map_of_mem hm⟩)

/-! ## A run as folds in a row -/

/-- One fold of the plan. -/
def foldPair (s : State) (p : TypeId × TypeId) : State := fold p.1 s p.2

/-- The state after a list of folds. -/
def runTo (t : TypeTable) (r : Resolution) (folds : List (TypeId × TypeId)) : State :=
  folds.foldl foldPair ⟨t, r, .empty⟩

/-- A group is merged by one fold for each duplicate. -/
theorem foldGroup_eq_foldl (s : State) (ids : List TypeId) :
    foldGroup s ids = (foldsOf ids).foldl foldPair s := by
  cases ids with
  | nil => rfl
  | cons kept duplicates =>
    rw [foldsOf, List.foldl_map]
    rfl

/-- A run makes the folds of the plan. -/
theorem run_eq_runTo (t : TypeTable) (r : Resolution) : run t r = runTo t r (plan t) := by
  have groups : ∀ (ns : List Text) (s : State),
      (ns.map fun n => (group t n).map ClassRecord.id).foldl foldGroup s =
        (ns.flatMap fun n => foldsOf ((group t n).map ClassRecord.id)).foldl foldPair s := by
    intro ns
    induction ns with
    | nil => exact fun _ => rfl
    | cons n ns ih =>
      intro s
      rw [List.map_cons, List.foldl_cons, List.flatMap_cons, List.foldl_append,
        ← foldGroup_eq_foldl, ih]
  rw [run, values_byDisplayName, groups]
  rfl

/-- One fold more. -/
theorem runTo_concat (t : TypeTable) (r : Resolution) (pre : List (TypeId × TypeId))
    (k d : TypeId) : runTo t r (pre ++ [(k, d)]) = fold k (runTo t r pre) d := by
  rw [runTo, List.foldl_append]
  rfl

/-- What holds of no folds and goes on from each part of the plan to the next fold holds of
every part of the plan. -/
theorem plan_induction {P : List (TypeId × TypeId) → Prop} (start : P [])
    (step : ∀ pre k d post, plan t = pre ++ (k, d) :: post → P pre → P (pre ++ [(k, d)])) :
    ∀ pre, pre <+: plan t → P pre := by
  intro pre
  induction pre using List.reverseRecOn with
  | nil => exact fun _ => start
  | append_singleton pre p ih =>
    intro hpre
    obtain ⟨post, hp⟩ := hpre
    rw [List.append_assoc, List.singleton_append] at hp
    exact step pre p.1 p.2 post hp.symm (ih ⟨p :: post, hp⟩)

/-! ## Who is folded into a class -/

theorem foldedInto_append (pre post : List (TypeId × TypeId)) (k : TypeId) :
    foldedInto (pre ++ post) k = foldedInto pre k ++ foldedInto post k := by
  rw [foldedInto, List.filter_append, List.map_append]
  rfl

/-- A class is among those folded into another if the plan has the fold. -/
theorem mem_foldedInto_iff {folds : List (TypeId × TypeId)} {k d : TypeId} :
    d ∈ foldedInto folds k ↔ (k, d) ∈ folds := by
  simp [foldedInto]

/-- Into a class that is no first of its group nothing is folded. -/
theorem foldedInto_eq_nil {folds : List (TypeId × TypeId)} {k : TypeId}
    (h : ∀ d, (k, d) ∉ folds) : foldedInto folds k = [] := by
  rw [List.eq_nil_iff_forall_not_mem]
  exact fun d hd => h d (mem_foldedInto_iff.1 hd)

/-- One more fold gives its kept class one more class, and no other class any. -/
theorem foldedInto_concat (folds : List (TypeId × TypeId)) (k d c : TypeId) :
    foldedInto (folds ++ [(k, d)]) c = foldedInto folds c ++ if k = c then [d] else [] := by
  rw [foldedInto_append]
  by_cases h : k = c <;> simp [foldedInto, h]

/-- A class with the classes that a list of folds folds into it. -/
def parts (folds : List (TypeId × TypeId)) (k : TypeId) : List TypeId := k :: foldedInto folds k

theorem parts_eq_singleton {folds : List (TypeId × TypeId)} {k : TypeId}
    (h : ∀ d, (k, d) ∉ folds) : parts folds k = [k] := by
  rw [parts, foldedInto_eq_nil h]

theorem parts_append (pre post : List (TypeId × TypeId)) (k : TypeId) :
    parts (pre ++ post) k = parts pre k ++ foldedInto post k := by
  rw [parts, foldedInto_append, parts, List.cons_append]

/-- One more fold gives its kept class one more part. -/
theorem parts_concat_kept (folds : List (TypeId × TypeId)) (k d : TypeId) :
    parts (folds ++ [(k, d)]) k = parts folds k ++ [d] := by
  rw [parts, foldedInto_concat, if_pos rfl, parts, List.cons_append]

theorem parts_concat_of_ne (folds : List (TypeId × TypeId)) {k c : TypeId} (d : TypeId)
    (h : k ≠ c) : parts (folds ++ [(k, d)]) c = parts folds c := by
  rw [parts, foldedInto_concat, if_neg h, List.append_nil, parts]

/-- The plan folds the rest of a group into its first class, in table order. -/
theorem foldedInto_plan {name : Text} {c : ClassRecord} {cs : List ClassRecord}
    (hg : group t name = c :: cs) : foldedInto (plan t) c.id = cs.map ClassRecord.id := by
  have hcn : c ∈ group t name := by rw [hg]; exact List.mem_cons_self
  have own : foldedInto (foldsOf ((group t name).map ClassRecord.id)) c.id =
      cs.map ClassRecord.id := by
    rw [hg]
    simp only [List.map_cons, foldsOf, foldedInto]
    rw [List.filter_eq_self.2 (by simp), List.map_map]
    exact List.map_id _
  have other : ∀ n, n ≠ name → foldedInto (foldsOf ((group t n).map ClassRecord.id)) c.id = [] := by
    intro n hn
    refine foldedInto_eq_nil fun d hd => hn ?_
    have hk := (mem_foldsOf_iff.1 hd).1
    exact name_eq_of_mem_groups (List.mem_of_mem_head? hk) (List.mem_map_of_mem hcn)
  -- Only one name of the list contributes, and it is there once.
  have walk : ∀ ns : List Text, ns.Nodup →
      foldedInto (ns.flatMap fun n => foldsOf ((group t n).map ClassRecord.id)) c.id =
        if name ∈ ns then cs.map ClassRecord.id else [] := by
    intro ns
    induction ns with
    | nil => exact fun _ => rfl
    | cons n ns ih =>
      intro hnd
      obtain ⟨hn, hns⟩ := List.nodup_cons.1 hnd
      rw [List.flatMap_cons, foldedInto_append, ih hns]
      by_cases h : n = name
      · subst h
        rw [own, if_neg hn, if_pos List.mem_cons_self, List.append_nil]
      · rw [other n h, List.nil_append]
        simp [Ne.symm h]
  rw [plan, walk (displayNames t) (byDisplayName t).nodup_keys,
    if_pos (mem_displayNames_of_mem hcn)]

end Lineage.Merging
