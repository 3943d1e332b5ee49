import Lineage.Proofs.Merging.Removal
import Lineage.Proofs.Merging.Survivors

/-!
# What becomes of members

The members of a duplicate are to live on in the kept class. They travel from list to list, and
the lists they travel between may be shared, adopted, extended or dropped on the way. What
holds all along is `Gathered`: if a class of the table names a list that was in the table at the
start, then the list covers the members of the class and of all that was folded into it.

So members can only get lost where the kept class names no such list. The first number that is
named in a group is the one that the kept class ends up with. When there is no field list with
that number, since the dump had nothing of interest in it, the members of the others have
nowhere to go.

Main result: `keeps_members_iff`.
-/

namespace Lineage

/-! ## Covering -/

/-- Some member of a list is the same as each of the others. -/
def FieldList.Covers (members others : List Member) : Prop :=
  ∀ e ∈ others, ∃ m ∈ members, m.sameAs e = true

namespace FieldList

instance (members others : List Member) : Decidable (Covers members others) :=
  inferInstanceAs (Decidable (∀ e ∈ others, ∃ m ∈ members, m.sameAs e = true))

theorem covers_nil (members : List Member) : Covers members [] :=
  fun _ he => absurd he List.not_mem_nil

theorem Covers.nil_left {others : List Member} (h : Covers [] others) : others = [] := by
  rw [List.eq_nil_iff_forall_not_mem]
  intro e he
  obtain ⟨m, hm, _⟩ := h e he
  exact List.not_mem_nil hm

theorem covers_of_isPrefix {members others : List Member} (h : others <+: members) :
    Covers members others :=
  fun e he => ⟨e, h.subset he, beq_self_eq_true _⟩

theorem Covers.mono {members more others : List Member} (h : Covers members others)
    (hp : members <+: more) : Covers more others := by
  intro e he
  obtain ⟨m, hm, hme⟩ := h e he
  exact ⟨m, hp.subset hm, hme⟩

/-- Merging loses nothing of what is merged in. -/
theorem covers_merge (members others : List Member) : Covers (merge members others) others := by
  induction others generalizing members with
  | nil => exact covers_nil _
  | cons o others ih =>
    intro e he
    rcases List.mem_cons.1 he with rfl | he
    · rw [merge, List.foldl_cons]
      split
      next hany =>
        obtain ⟨m, hm, hme⟩ := List.any_eq_true.1 hany
        exact ⟨m, (prefix_merge members others).subset hm, hme⟩
      next =>
        have hlast : e ∈ members ++ [e] := List.mem_append_right _ List.mem_cons_self
        exact ⟨e, (prefix_merge _ others).subset hlast, beq_self_eq_true _⟩
    · rw [merge, List.foldl_cons]
      exact ih _ e he

end FieldList

namespace TypeTable

variable {t u : TypeTable} {id list : TypeId}

/-- The members of a field list. -/
def listMembers (t : TypeTable) (list : TypeId) : List Member :=
  match t.fieldList? list with
  | some l => l.members
  | none => []

/-- The members of the class with an id. -/
def membersAt (t : TypeTable) (id : TypeId) : List Member :=
  match t.listOf? id with
  | some list => t.listMembers list
  | none => []

theorem membersAt_of_classRecord? {c : ClassRecord} (h : t.classRecord? id = some c) :
    t.membersAt id = t.membersOf c := by
  rw [membersAt, listOf?, h, membersOf, fieldListOf?, Option.bind_some]
  cases c.fieldList <;> rfl

theorem listMembers_of_fieldList? {l : FieldList} (h : t.fieldList? list = some l) :
    t.listMembers list = l.members := by
  rw [listMembers, h]

theorem listMembers_eq_nil (h : t.fieldList? list = none) : t.listMembers list = [] := by
  rw [listMembers, h]

/-- A list that is left has the members that it had at the front. -/
theorem Remains.prefix_listMembers (h : Remains t u) (hid : list ∈ u.ids) :
    t.listMembers list <+: u.listMembers list := by
  cases hl : t.fieldList? list with
  | none =>
    rw [listMembers_eq_nil hl]
    exact List.nil_prefix
  | some l =>
    obtain ⟨l', hl', hfront⟩ := h.fieldList?_of_mem hl hid
    rw [listMembers_of_fieldList? hl, listMembers_of_fieldList? hl']
    exact hfront

theorem Remains.fieldList?_eq_none (h : Remains t u) (hl : t.fieldList? id = none) :
    u.fieldList? id = none := by
  cases hu : u.fieldList? id with
  | none => rfl
  | some l =>
    obtain ⟨a, ha, hg⟩ := h.exists_get? (fieldList?_eq_some_iff.1 hu)
    cases hg with
    | fieldList l' members _ =>
      rw [fieldList?_eq_some_iff.2 ha] at hl
      cases hl

end TypeTable

namespace Merging

open FieldList (Covers)

variable {t : TypeTable} {r : Resolution} {s : State} {pre post : List (TypeId × TypeId)}
  {k d list : TypeId} {removed : ClassRecord}

/-! ## Where members are -/

/-- A class of the table that names a list which was there at the start has in it its own
members and those of the classes folded into it. -/
def Gathered (t : TypeTable) (s : State) : Prop :=
  ∀ id list, s.table.listOf? id = some list → (t.fieldList? list).isSome = true →
    ∀ e ∈ parts s.report.folds id, Covers (s.table.listMembers list) (t.membersAt e)

theorem gathered_start (t : TypeTable) (r : Resolution) : Gathered t ⟨t, r, .empty⟩ := by
  intro id list hlist _ e he
  rw [parts_eq_singleton (by simp), List.mem_singleton] at he
  subst he
  rw [TypeTable.membersAt, hlist]
  exact FieldList.covers_of_isPrefix List.prefix_rfl

/-- A list of the start that a class names is in the table. -/
theorem Tracked.mem_ids_of_names (h : Tracked t s) (hrec : Recorded pre s) (hpre : pre <+: plan t)
    (hl : (t.fieldList? list).isSome = true) (hn : s.table.Names list) : list ∈ s.table.ids := by
  obtain ⟨l, hl⟩ := Option.isSome_iff_exists.1 hl
  have hids : list ∈ t.ids := TypeTable.mem_ids_iff.2 ⟨_, TypeTable.fieldList?_eq_some_iff.1 hl⟩
  rcases h.named list hids hn with hin | hm
  · exact hin
  · -- Only classes are folded.
    rw [← MergeReport.map_snd_folds] at hm
    obtain ⟨p, hp, rfl⟩ := List.mem_map.1 hm
    obtain ⟨c, hc, _⟩ := TypeTable.mem_realIds_iff.1
      (mem_realIds_of_mem_plan (hrec.mem_plan hpre hp)).2
    rw [TypeTable.fieldList?_eq_none_of_classRecord? hc] at hl
    cases hl

theorem Tracked.exists_fieldList?_of_mem (h : Tracked t s) (hl : (t.fieldList? list).isSome = true)
    (hids : list ∈ s.table.ids) : ∃ l, s.table.fieldList? list = some l ∧
      t.listMembers list <+: l.members := by
  obtain ⟨l, hl⟩ := Option.isSome_iff_exists.1 hl
  obtain ⟨l', hl', hfront⟩ := h.remains.fieldList?_of_mem hl hids
  rw [TypeTable.listMembers_of_fieldList? hl]
  exact ⟨l', hl', hfront⟩

/-! ## One more fold -/

/-- Where both classes have a list, the list of the kept class covers that of the duplicate after
the members have moved. -/
theorem covers_giveMembers {source target : TypeId} {given old : FieldList}
    (hsource : removed.fieldList = some source) (htarget : t.listOf? k = some target)
    (hne : target ≠ source) (hgiven : t.fieldList? source = some given)
    (hold : t.fieldList? target = some old) :
    Covers ((giveMembers t k removed).1.listMembers target) given.members := by
  have merged : (giveMembers t k removed).1 = t.mergeMembers target given.members := by
    unfold giveMembers
    rw [← TypeTable.listOf?, hsource, htarget]
    dsimp only
    rw [if_neg hne, hgiven, hold]
  have hid : old.id = target := TypeTable.id_of_get? (TypeTable.fieldList?_eq_some_iff.1 hold)
  have after : (t.mergeMembers target given.members).fieldList? target =
      some { old with members := FieldList.merge old.members given.members } := by
    rw [TypeTable.fieldList?_mergeMembers, hold, Option.map_some, if_pos hid]
  rw [merged, TypeTable.listMembers_of_fieldList? after]
  exact FieldList.covers_merge _ _

/-- What the duplicate had is in the list that the kept class names afterwards. -/
theorem covers_duplicate (hp : plan t = pre ++ (k, d) :: post) (hrec : Recorded pre s)
    (htr : Tracked t s) (hremoved : s.table.classRecord? d = some removed)
    (hlist : (s.table.listOf? k).or (t.listOf? d) = some list)
    (hl : (t.fieldList? list).isSome = true) (hids : list ∈ (fold k s d).table.ids) :
    Covers ((fold k s d).table.listMembers list) (t.membersAt d) := by
  have hpre : pre <+: plan t := ⟨_, hp.symm⟩
  have hsource := htr.list_removed (hrec.fresh hp) hremoved
  have htr' := tracked_fold hp hrec htr hremoved
  cases hd : t.listOf? d with
  | none =>
    rw [TypeTable.membersAt, hd]
    exact FieldList.covers_nil _
  | some source =>
    have given : t.membersAt d = t.listMembers source := by rw [TypeTable.membersAt, hd]
    rw [given]
    by_cases hne : list = source
    · subst hne
      exact FieldList.covers_of_isPrefix (htr'.remains.prefix_listMembers hids)
    · cases hs : t.fieldList? source with
      | none =>
        rw [TypeTable.listMembers_eq_nil hs]
        exact FieldList.covers_nil _
      | some l =>
        -- Both lists were there at the start, and so both are in the table now.
        have htarget : s.table.listOf? k = some list := by
          rcases Option.or_eq_some_iff.1 hlist with hk | ⟨_, hds⟩
          · exact hk
          · exact absurd (Option.some.inj (hds.symm.trans hd)) hne
        have names : s.table.Names source :=
          ⟨d, by rw [TypeTable.listOf?, hremoved, Option.bind_some, hsource, hd]⟩
        have hsome : (t.fieldList? source).isSome = true := by rw [hs]; rfl
        obtain ⟨g, hg, hfront⟩ := htr.exists_fieldList?_of_mem hsome
          (htr.mem_ids_of_names hrec hpre hsome names)
        obtain ⟨old, hold, _⟩ := htr.exists_fieldList?_of_mem hl
          (htr.mem_ids_of_names hrec hpre hl ⟨k, htarget⟩)
        have moved := covers_giveMembers (hsource.trans hd) htarget hne hg hold
        have rest : TypeTable.Remains (giveMembers s.table k removed).1 (fold k s d).table := by
          rw [table_fold_eq hremoved]
          exact (TypeTable.remains_erase _ _).trans (remains_dropOrphan _ _)
        intro e he
        obtain ⟨m, hm, hme⟩ := moved e (hfront.subset he)
        exact ⟨m, (rest.prefix_listMembers hids).subset hm, hme⟩

/-- A fold that is made loses none of the members. -/
theorem gathered_fold (hp : plan t = pre ++ (k, d) :: post) (hrec : Recorded pre s)
    (htr : Tracked t s) (h : Gathered t s) (hremoved : s.table.classRecord? d = some removed) :
    Gathered t (fold k s d) := by
  have hf : Fresh s.report k d := hrec.fresh hp
  have hk : k ∈ t.realIds := (mem_realIds_of_mem_plan (mem_plan_of_eq_append hp)).1
  have htr' := tracked_fold hp hrec htr hremoved
  intro id list hlist hl e he
  have hids : list ∈ (fold k s d).table.ids :=
    htr'.mem_ids_of_names (recorded_fold hp hrec) ⟨post, by rw [hp, List.append_assoc]; rfl⟩ hl
      ⟨id, hlist⟩
  have grown := (remains_fold k s d).prefix_listMembers hids
  have hid := TypeTable.mem_ids_of_listOf? hlist
  obtain ⟨hids', hne, _⟩ := (mem_ids_fold_iff hremoved).1 hid
  rw [listOf?_fold hremoved hid, listOf?_withoutDuplicate
    (fun e => htr.isSome_kept hk (e ▸ hids'))
    (by rw [TypeTable.id_of_classRecord? hremoved]; exact hne)] at hlist
  rw [folds_fold hremoved hf.duplicate] at he
  by_cases hik : id = k
  · subst hik
    rw [if_pos rfl, htr.list_removed hf hremoved] at hlist
    rw [parts_concat_kept, List.mem_append, List.mem_singleton] at he
    rcases he with he | rfl
    · rcases Option.or_eq_some_iff.1 hlist with hown | ⟨hnone, _⟩
      · exact (h id list hown hl e he).mono grown
      · -- No part of the kept class names a list so far.
        rw [htr.lists id hids', listAmong?, List.findSome?_eq_none_iff] at hnone
        rw [TypeTable.membersAt, hnone e he]
        exact FieldList.covers_nil _
    · exact covers_duplicate hp hrec htr hremoved hlist hl hids
  · rw [if_neg hik] at hlist
    rw [parts_concat_of_ne _ _ (Ne.symm hik)] at he
    exact (h id list hlist hl e he).mono grown

theorem gathered_run (t : TypeTable) (r : Resolution) : Gathered t (run t r) := by
  refine (run_induction (P := fun s => Tracked t s ∧ Gathered t s)
    ⟨tracked_start t r, gathered_start t r⟩ ?_).2
  intro pre k d post s removed hp hrec hc hs
  exact ⟨tracked_fold hp hrec hs.1 hc, gathered_fold hp hrec hs.1 hs.2 hc⟩

/-! ## The members of a group -/

/-- The members that the classes of a group had are among those that the first of them, `c`, has
after merging. -/
def KeepsMembers (t : TypeTable) (s : State) (c : ClassRecord) (cs : List ClassRecord) : Prop :=
  ∀ e ∈ c :: cs, Covers (s.table.membersAt c.id) (t.membersOf e)

instance (t : TypeTable) (s : State) (c : ClassRecord) (cs : List ClassRecord) :
    Decidable (KeepsMembers t s c cs) :=
  inferInstanceAs (Decidable (∀ e ∈ c :: cs, Covers (s.table.membersAt c.id) (t.membersOf e)))

section Group

variable {name : Text} {c e : ClassRecord} {cs : List ClassRecord}

theorem classRecord?_of_mem_group (he : e ∈ group t name) : t.classRecord? e.id = some e :=
  (TypeTable.mem_realClasses_iff.1 (mem_group_iff.1 he).1).1

/-- A class of a group is folded into the first class of the group. -/
theorem mem_parts_of_merged (hg : group t name = c :: cs) (hrec : Recorded (plan t) s)
    (he : e ∈ cs) (hm : e.id ∈ s.report.merged.keys) : e.id ∈ parts s.report.folds c.id := by
  obtain ⟨k, hk⟩ := OrderedMap.mem_keys_iff.1 hm
  have hfold := MergeReport.mem_folds_iff.2 hk
  obtain ⟨c', cs', hg', rfl, he'⟩ := mem_plan_iff.1 (hrec.mem_plan (List.prefix_refl _) hfold)
  have here : e.id ∈ (group t name).map ClassRecord.id := by
    rw [hg]
    exact List.mem_cons_of_mem _ (List.mem_map_of_mem he)
  have there : e.id ∈ (group t c'.display).map ClassRecord.id := by
    rw [hg']
    exact List.mem_cons_of_mem _ he'
  obtain rfl := name_eq_of_mem_groups here there
  obtain ⟨rfl, rfl⟩ := List.cons.inj (hg.symm.trans hg')
  exact List.mem_cons_of_mem _ (mem_foldedInto_iff.2 hfold)

/-- The first list that is named in a group. -/
theorem listAmong?_plan (hg : group t name = c :: cs) :
    listAmong? t (plan t) c.id = (c :: cs).findSome? ClassRecord.fieldList := by
  have lists : ∀ e ∈ c :: cs, t.listOf? e.id = e.fieldList := by
    intro e he
    rw [TypeTable.listOf?, classRecord?_of_mem_group (hg ▸ he)]
    rfl
  rw [listAmong?, parts, foldedInto_plan hg, ← List.map_cons, List.findSome?_map]
  generalize c :: cs = es at lists
  induction es with
  | nil => rfl
  | cons e es ih =>
    rw [List.findSome?_cons, List.findSome?_cons, Function.comp_apply,
      lists e List.mem_cons_self, ih fun e he => lists e (List.mem_cons_of_mem _ he)]

/-- The members of a class that is in the table after merging. -/
theorem membersAt_run {list : TypeId} (hc : c.id ∈ (run t r).table.ids)
    (hlist : listAmong? t (run t r).report.folds c.id = some list) :
    (run t r).table.membersAt c.id = (run t r).table.listMembers list := by
  rw [TypeTable.membersAt, (tracked_run t r).lists c.id hc, hlist]

theorem keepsMembers_of_forall_eq_nil (h : ∀ e ∈ c :: cs, t.membersOf e = []) :
    KeepsMembers t s c cs := by
  intro e he
  rw [h e he]
  exact FieldList.covers_nil _

/-- What has members afterwards names a list that was there at the start. -/
theorem exists_list_of_keepsMembers (h : KeepsMembers t (run t r) c cs)
    (hsome : ¬ ∀ e ∈ c :: cs, t.membersOf e = []) :
    c.id ∈ (run t r).table.ids ∧ ∃ list,
      listAmong? t (run t r).report.folds c.id = some list ∧
      (t.fieldList? list).isSome = true := by
  have htr := tracked_run t r
  have has : (run t r).table.membersAt c.id ≠ [] := by
    intro hnone
    refine hsome fun e he => ?_
    have hcov := h e he
    rw [hnone] at hcov
    exact hcov.nil_left
  cases hlist : (run t r).table.listOf? c.id with
  | none =>
    rw [TypeTable.membersAt, hlist] at has
    exact absurd rfl has
  | some list =>
    have hc := TypeTable.mem_ids_of_listOf? hlist
    refine ⟨hc, list, (htr.lists c.id hc).symm.trans hlist, ?_⟩
    cases hl : t.fieldList? list with
    | some l => rfl
    | none =>
      rw [TypeTable.membersAt, hlist] at has
      exact absurd (TypeTable.listMembers_eq_nil (htr.remains.fieldList?_eq_none hl)) has

theorem keepsMembers_of_exists_list {list : TypeId} (hg : group t name = c :: cs)
    (hc : c.id ∈ (run t r).table.ids)
    (hlist : listAmong? t (run t r).report.folds c.id = some list)
    (hl : (t.fieldList? list).isSome = true)
    (hrest : ∀ e ∈ cs, e.id ∉ (run t r).report.merged.keys →
      Covers ((run t r).table.membersAt c.id) (t.membersOf e)) :
    KeepsMembers t (run t r) c cs := by
  have part : ∀ e ∈ c :: cs, e.id ∈ parts (run t r).report.folds c.id →
      Covers ((run t r).table.membersAt c.id) (t.membersOf e) := by
    intro e he hpart
    rw [membersAt_run hc hlist,
      ← TypeTable.membersAt_of_classRecord? (classRecord?_of_mem_group (hg ▸ he))]
    exact gathered_run t r c.id list (((tracked_run t r).lists c.id hc).trans hlist) hl e.id hpart
  intro e he
  rcases List.mem_cons.1 he with rfl | hcs
  · exact part e he List.mem_cons_self
  · by_cases hm : e.id ∈ (run t r).report.merged.keys
    · exact part e he (mem_parts_of_merged hg (recorded_run t r) hcs hm)
    · exact hrest e hcs hm

/-- Merging keeps the members of a group in its first class exactly if there are none, or
the first class is still there, the first list that is named by it or by a class folded into it
was in the table, and the members of what could not be folded are among its own anyway. In a
well-wired table that comes down to the first list that is named in the group. -/
theorem keeps_members_iff (r : Resolution) (hg : group t name = c :: cs) :
    (KeepsMembers t (run t r) c cs ↔
      (∀ e ∈ c :: cs, t.membersOf e = []) ∨
      (c.id ∈ (run t r).table.ids ∧
        (∃ list, listAmong? t (run t r).report.folds c.id = some list ∧
          (t.fieldList? list).isSome = true) ∧
        ∀ e ∈ cs, e.id ∉ (run t r).report.merged.keys →
          Covers ((run t r).table.membersAt c.id) (t.membersOf e))) ∧
    (WellWired t → (KeepsMembers t (run t r) c cs ↔
      (∀ e ∈ c :: cs, t.membersOf e = []) ∨
      ∃ list, (c :: cs).findSome? ClassRecord.fieldList = some list ∧
        (t.fieldList? list).isSome = true)) := by
  refine ⟨⟨fun h => ?_, fun h => ?_⟩, fun hw => ?_⟩
  · by_cases hempty : ∀ e ∈ c :: cs, t.membersOf e = []
    · exact .inl hempty
    · obtain ⟨hc, list, hlist, hl⟩ := exists_list_of_keepsMembers h hempty
      exact .inr ⟨hc, ⟨list, hlist, hl⟩, fun e he _ => h e (List.mem_cons_of_mem _ he)⟩
  · rcases h with hempty | ⟨hc, ⟨list, hlist, hl⟩, hrest⟩
    · exact keepsMembers_of_forall_eq_nil hempty
    · exact keepsMembers_of_exists_list hg hc hlist hl hrest
  · have hs : Intact t (run t r) := (wellWired_iff_intact t r).1 hw
    have hfolds : (run t r).report.folds = plan t := by
      rw [run_eq_runTo] at hs ⊢
      exact folds_eq_of_intact (List.prefix_refl _) hs
    have hfirst : c.id ∉ duplicates t := not_mem_duplicates_of_head hg
    have hc : c.id ∈ (run t r).table.ids := by
      have hreal : c.id ∈ t.realIds :=
        mem_realIds_of_mem_group (by rw [hg]; exact List.mem_cons_self)
      have hm : c.id ∉ (run t r).report.merged.keys := by
        rw [← MergeReport.map_snd_folds, hfolds]
        exact hfirst
      obtain ⟨c', hc', _⟩ :=
        TypeTable.mem_realIds_iff.1 (hs.mem_realIds (tracked_run t r) hreal hm)
      exact TypeTable.mem_ids_of_classRecord? hc'
    have hall : ∀ e ∈ cs, e.id ∈ (run t r).report.merged.keys := by
      intro e he
      rw [← MergeReport.map_snd_folds, hfolds]
      exact mem_duplicates_of_group hg (List.mem_map_of_mem he)
    refine ⟨?_, ?_⟩
    · intro h
      by_cases hempty : ∀ e ∈ c :: cs, t.membersOf e = []
      · exact .inl hempty
      · obtain ⟨_, list, hlist, hl⟩ := exists_list_of_keepsMembers h hempty
        rw [hfolds, listAmong?_plan hg] at hlist
        exact .inr ⟨list, hlist, hl⟩
    · intro h
      rcases h with hempty | ⟨list, hlist, hl⟩
      · exact keepsMembers_of_forall_eq_nil hempty
      · rw [← listAmong?_plan hg, ← hfolds] at hlist
        exact keepsMembers_of_exists_list hg hc hlist hl fun e he hm => absurd (hall e he) hm

end Group

/-- The members of the second `A` of two units live on in the first, which adopts their list. -/
theorem keeps_members_twoUnits :
    ∃ c cs, group twoUnits "A".toList = c :: cs ∧ WellWired twoUnits ∧
      KeepsMembers twoUnits (run twoUnits twoUnitsResolution) c cs := by
  have wired : WellWired twoUnits := wellWired_of_fieldLists (by decide)
  have hg : group twoUnits "A".toList =
      [⟨⟨0x1000⟩, "A".toList, ".?AVA@@".toList, none, false⟩,
        ⟨⟨0x1002⟩, "A".toList, ".?AVA@@".toList, some ⟨0x1003⟩, false⟩] := by
    decide
  refine ⟨_, _, hg, wired, ?_⟩
  refine ((keeps_members_iff twoUnitsResolution hg).2 wired).2 (.inr ?_)
  exact ⟨⟨0x1003⟩, by decide, by decide⟩

/-! ## A group that loses its members -/

/-- A dump whose first `A` has a field list without a base class or a method. Such a list is not
kept. -/
def emptyListDump : Dump := ⟨[
  "*** TYPES",
  "",
  "0x1000 : LF_CLASS",
  " field list type 0x1001, ",
  " class name = A, unique name = .?AVA@@, UDT(0x1000)",
  "",
  "0x1001 : LF_FIELDLIST",
  " list[0] = LF_MEMBER, public, type = T_INT4(0074), offset = 0, member name = 'n'",
  "",
  "0x1002 : LF_FIELDLIST",
  " list[0] = LF_ONEMETHOD, public, VANILLA, index = 0x1004, name = 'Run'",
  "",
  "0x1003 : LF_CLASS",
  " field list type 0x1002, ",
  " class name = A, unique name = .?AVA@@x, UDT(0x1003)"].map String.toList⟩

/-- Its table. -/
def emptyList : TypeTable where
  records := [
    .classType ⟨⟨0x1000⟩, "A".toList, ".?AVA@@".toList, some ⟨0x1001⟩, false⟩,
    .fieldList ⟨⟨0x1002⟩, [.method "Run".toList ⟨0x1004⟩ false]⟩,
    .classType ⟨⟨0x1003⟩, "A".toList, ".?AVA@@x".toList, some ⟨0x1002⟩, false⟩]
  nodup := by decide

/-- What its table resolves to. -/
def emptyListResolution : Resolution where
  names := .ofList [(".?AVA@@".toList, ⟨0x1000⟩), (".?AVA@@x".toList, ⟨0x1003⟩)]
  references := ∅
  bases := .ofList [(⟨0x1000⟩, ∅), (⟨0x1003⟩, ∅)]
  procedures := ∅

/-- The method `Run` of the second `A` is lost. -/
theorem not_keepsMembers_emptyList :
    TypeTable.ofDump emptyListDump = .ok emptyList ∧
    Resolution.ofTable emptyList [] = .ok emptyListResolution ∧
    ∃ c cs, group emptyList "A".toList = c :: cs ∧
      ¬ KeepsMembers emptyList (run emptyList emptyListResolution) c cs := by
  refine ⟨by decide +kernel, rfl, ⟨⟨0x1000⟩, "A".toList, ".?AVA@@".toList, some ⟨0x1001⟩, false⟩,
    [⟨⟨0x1003⟩, "A".toList, ".?AVA@@x".toList, some ⟨0x1002⟩, false⟩], by decide, ?_⟩
  decide

end Merging
end Lineage
