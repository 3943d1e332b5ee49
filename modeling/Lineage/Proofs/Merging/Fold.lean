import Lineage.Proofs.Merging.Plan

/-!
# One fold and its record

A fold either finds its duplicate in the table, and then does all of its three steps, or it
does nothing (`fold_of_none`). The report lists the folds that were made, in order. They
are part of the plan (`Recorded`), so of each folded class the report knows one survivor, and
no survivor is folded itself.

The report is the only memory of a run. Which classes live on in which others is read off it, as the
survivor of an id or as the list of folds, and the two say the same (`survivor_eq_iff`). So whatever
is known of a state in the middle of a run can be said of its report, without looking back at the
states before it.

A fact about the states of a run is an invariant of the folds that are made: `runTo_induction`. The
step of that induction is given what it can use, namely the place of the fold in the plan, the
record of the folds before it, and the class that is about to go. Folds that do nothing are dealt
with there and not in each invariant.
-/

namespace Lineage

namespace MergeReport

/-- The folds that were made, in order: each kept class with a duplicate. -/
def folds (m : MergeReport) : List (TypeId × TypeId) := m.merged.entries.map Prod.swap

/-- The class that a class lives on in: the one that it was folded into, else itself. -/
def survivor (m : MergeReport) (id : TypeId) : TypeId := (m.merged.get? id).getD id

@[simp] theorem keys_merged_empty : empty.merged.keys = [] := rfl

@[simp] theorem folds_empty : empty.folds = [] := rfl

@[simp] theorem survivor_empty : empty.survivor = id := rfl

variable {m : MergeReport} {id k d : TypeId}

/-- The folds are listed by their duplicates, in the order in which they were made. -/
theorem map_snd_folds (m : MergeReport) : m.folds.map Prod.snd = m.merged.keys := by
  rw [folds, List.map_map]
  rfl

/-- The report has a fold if it names the survivor of its duplicate. -/
theorem mem_folds_iff : (k, d) ∈ m.folds ↔ m.merged.get? d = some k := by
  rw [OrderedMap.get?_eq_some_iff, folds, List.mem_map]
  refine ⟨fun h => ?_, fun h => ⟨(d, k), h, rfl⟩⟩
  obtain ⟨⟨a, b⟩, hab, he⟩ := h
  cases he
  exact hab

/-- A class that was not folded survives itself. -/
theorem survivor_of_not_mem (h : id ∉ m.merged.keys) : m.survivor id = id := by
  rw [survivor, OrderedMap.get?_eq_none_iff.2 h]
  rfl

/-- A class that is folded is another class's part, any other class stands for itself. -/
theorem survivor_eq_iff : m.survivor id = k ↔
    (k, id) ∈ m.folds ∨ (id ∉ m.merged.keys ∧ id = k) := by
  cases h : m.merged.get? id with
  | none =>
    have hid := OrderedMap.get?_eq_none_iff.1 h
    rw [survivor_of_not_mem hid, mem_folds_iff, h]
    simp [hid]
  | some j =>
    have hid : id ∈ m.merged.keys := OrderedMap.mem_keys_iff.2 ⟨j, h⟩
    rw [survivor, mem_folds_iff, h]
    simp [hid]

end MergeReport

namespace Merging

variable {t : TypeTable} {r : Resolution} {s : State} {k d : TypeId}

/-! ## One fold -/

/-- A fold whose duplicate is no longer in the table does nothing. -/
theorem fold_of_none (h : s.table.classRecord? d = none) : fold k s d = s := by
  unfold fold
  rw [h]

/-- A fold gives the members away, takes the duplicate out, and then drops its list if nothing names
it. -/
theorem table_fold {removed : ClassRecord} (h : s.table.classRecord? d = some removed) :
    (fold k s d).table =
      (dropOrphan ((giveMembers s.table k removed).1.erase d) removed).1 := by
  unfold fold
  rw [h]

/-- A fold renames the duplicate in the resolution. -/
theorem resolution_fold {removed : ClassRecord} (h : s.table.classRecord? d = some removed) :
    (fold k s d).resolution = rename k d s.resolution := by
  unfold fold
  rw [h]

/-- A fold is recorded under its duplicate. -/
theorem merged_fold {removed : ClassRecord} (h : s.table.classRecord? d = some removed) :
    (fold k s d).report.merged = s.report.merged.insert d k := by
  unfold fold
  rw [h]

/-- The report of a fold has the duplicate besides those that it had. -/
theorem mem_merged_fold_iff {removed : ClassRecord} (h : s.table.classRecord? d = some removed)
    {id : TypeId} :
    id ∈ (fold k s d).report.merged.keys ↔ id ∈ s.report.merged.keys ∨ id = d := by
  rw [merged_fold h, OrderedMap.keys_insert]
  split
  next hd =>
    refine ⟨.inl, fun hid => ?_⟩
    rcases hid with hid | rfl
    · exact hid
    · exact hd
  next => simp

/-- A fold that is made is recorded last. -/
theorem folds_fold {removed : ClassRecord} (h : s.table.classRecord? d = some removed)
    (hd : d ∉ s.report.merged.keys) :
    (fold k s d).report.folds = s.report.folds ++ [(k, d)] := by
  rw [MergeReport.folds, merged_fold h, OrderedMap.entries_insert_of_not_mem hd, List.map_append]
  rfl

/-! ## The record of a run -/

/-- The folds that were made are, in order, folds of the plan. -/
def Recorded (pre : List (TypeId × TypeId)) (s : State) : Prop := s.report.folds.Sublist pre

/-- A fold of the plan has not been made before its turn. -/
theorem Recorded.not_mem_merged {pre post : List (TypeId × TypeId)} (h : Recorded pre s)
    (hp : plan t = pre ++ (k, d) :: post) : d ∉ s.report.merged.keys := by
  intro hd
  rw [← MergeReport.map_snd_folds] at hd
  have hpre : d ∈ pre.map Prod.snd := (h.map Prod.snd).mem hd
  have hnd := nodup_duplicates t
  rw [duplicates, hp, List.map_append, List.nodup_append] at hnd
  exact hnd.2.2 d hpre d List.mem_cons_self rfl

/-- A fold of the plan keeps the record one of the part of the plan that is done. -/
theorem recorded_fold {pre post : List (TypeId × TypeId)} (hp : plan t = pre ++ (k, d) :: post)
    (h : Recorded pre s) : Recorded (pre ++ [(k, d)]) (fold k s d) := by
  cases hc : s.table.classRecord? d with
  | none =>
    rw [fold_of_none hc]
    exact List.Sublist.trans h (List.sublist_append_left _ _)
  | some removed =>
    unfold Recorded
    rw [folds_fold hc (h.not_mem_merged hp)]
    exact List.Sublist.append_right h _

/-- The record is one of the plan at any moment of a run. -/
theorem recorded_runTo (t : TypeTable) (r : Resolution) (pre : List (TypeId × TypeId))
    (hpre : pre <+: plan t) : Recorded pre (runTo t r pre) := by
  refine plan_induction (P := fun pre => Recorded pre (runTo t r pre)) (List.nil_sublist _) ?_
    pre hpre
  intro pre k d post hp h
  rw [runTo_concat]
  exact recorded_fold hp h

/-- The record is one of the plan at the end. -/
theorem recorded_run (t : TypeTable) (r : Resolution) : Recorded (plan t) (run t r) := by
  rw [run_eq_runTo]
  exact recorded_runTo t r (plan t) (List.prefix_refl _)

/-- What holds at the start and is kept by every fold that is made holds all through a run. -/
theorem runTo_induction {P : State → Prop} (start : P ⟨t, r, .empty⟩)
    (step : ∀ pre k d post s removed, plan t = pre ++ (k, d) :: post → Recorded pre s →
      s.table.classRecord? d = some removed → P s → P (fold k s d)) :
    ∀ pre, pre <+: plan t → P (runTo t r pre) := by
  refine plan_induction start fun pre k d post hp h => ?_
  rw [runTo_concat]
  cases hc : (runTo t r pre).table.classRecord? d with
  | none =>
    rw [fold_of_none hc]
    exact h
  | some removed => exact step pre k d post _ removed hp (recorded_runTo t r pre ⟨_, hp.symm⟩) hc h

/-- The same for the state at the end of a run. -/
theorem run_induction {P : State → Prop} (start : P ⟨t, r, .empty⟩)
    (step : ∀ pre k d post s removed, plan t = pre ++ (k, d) :: post → Recorded pre s →
      s.table.classRecord? d = some removed → P s → P (fold k s d)) : P (run t r) := by
  rw [run_eq_runTo]
  exact runTo_induction start step (plan t) (List.prefix_refl _)

/-- No survivor is folded. -/
theorem Recorded.kept_not_mem_merged {pre : List (TypeId × TypeId)} (h : Recorded pre s)
    (hpre : pre <+: plan t) (hk : (k, d) ∈ s.report.folds) : k ∉ s.report.merged.keys := by
  intro hm
  rw [← MergeReport.map_snd_folds] at hm
  have hd : k ∈ duplicates t := ((h.trans hpre.sublist).map Prod.snd).mem hm
  exact kept_not_mem_duplicates ((h.trans hpre.sublist).mem hk) hd

/-- A class is folded into the first class of its group only if the plan says so. -/
theorem Recorded.mem_plan {pre : List (TypeId × TypeId)} (h : Recorded pre s)
    (hpre : pre <+: plan t) (hk : (k, d) ∈ s.report.folds) : (k, d) ∈ plan t :=
  (h.trans hpre.sublist).mem hk

end Merging
end Lineage
