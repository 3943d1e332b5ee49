import Lineage.Merging
import Lineage.Proofs.Relabel.Resolution

/-!
# Merging under new ids

Which definitions are merged is decided by their display names and the order of the table. What a
merge does to the table and to the resolution is decided by which ids are equal. The one thing that
is sorted, the positions of procedures, has no ids in it. So a merge under new ids is the old merge,
relabelled: the same classes go into the same classes, and as many members and lists with them.

Every part of a merge has one equation with the new ids outside on the right, as the operations on
maps and sets have. A merge of one duplicate is put together from them in the order in which it
works: members, the duplicate's own list, the resolution, the report.

A run goes through groups of definitions, and through the duplicates of each. Both loops are folds,
so the equation of one merge is carried to a group and from a group to the run by the same lemma
(`foldl_map_of_hom`).

Main result: `Merging.run_relabel`.
-/

namespace Lineage

variable (ρ : Relabelling)

/-- A merge report under new ids. The counts stay. -/
def MergeReport.relabel (r : MergeReport) : MergeReport :=
  { r with merged := r.merged.relabel ρ ρ }

namespace Merging

/-- A state of a merge under new ids. -/
def State.relabel (s : State) : State where
  table := s.table.relabel ρ
  resolution := s.resolution.relabel ρ
  report := s.report.relabel ρ

/-! ## Members -/

variable (t : TypeTable)

/-- The kept class gets the members of the removed one, or its list if it had none, and as many
members are counted. -/
theorem giveMembers_relabel (kept : TypeId) (removed : ClassRecord) :
    giveMembers (t.relabel ρ) (ρ kept) (removed.relabel ρ) =
      ((giveMembers t kept removed).1.relabel ρ, (giveMembers t kept removed).2) := by
  have own : ((t.relabel ρ).classRecord? (ρ kept)).bind ClassRecord.fieldList =
      ((t.classRecord? kept).bind ClassRecord.fieldList).map ρ := by
    rw [TypeTable.classRecord?_relabel]
    cases t.classRecord? kept <;> rfl
  simp only [giveMembers, own, ClassRecord.relabel]
  cases removed.fieldList with
  | none => rfl
  | some source =>
    cases (t.classRecord? kept).bind ClassRecord.fieldList with
    | none => simp
    | some target =>
      simp only [Option.map_some, ρ.injective.eq_iff, TypeTable.fieldList?_relabel]
      split
      next => rfl
      next =>
        cases t.fieldList? source with
        | none => rfl
        | some given =>
          cases t.fieldList? target with
          | none => rfl
          | some old => simp [FieldList.relabel]

/-- A list is dropped if no class of the table names it any more, which is the same question under
either labels. -/
theorem dropOrphan_relabel (removed : ClassRecord) :
    dropOrphan (t.relabel ρ) (removed.relabel ρ) =
      ((dropOrphan t removed).1.relabel ρ, (dropOrphan t removed).2) := by
  simp only [dropOrphan, ClassRecord.relabel]
  cases removed.fieldList with
  | none => rfl
  | some list =>
    have named : ((t.relabel ρ).classes.any fun c => c.fieldList = some (ρ list)) =
        t.classes.any fun c => c.fieldList = some list := by
      rw [TypeTable.classes_relabel, List.any_map]
      refine congrArg (List.any t.classes) (funext fun c => decide_eq_decide.2 ?_)
      rw [← Option.map_some]
      exact (Option.map_injective ρ.injective).eq_iff
    simp only [Option.map_some, named, TypeTable.get?_relabel, Option.isSome_map,
      TypeTable.erase_relabel]
    split
    next => rfl
    next => split <;> rfl

/-! ## The resolution -/

/-- Renaming asks whether an id is that of the duplicate. -/
@[simp] theorem renamed_relabel (kept duplicate id : TypeId) :
    renamed (ρ kept) (ρ duplicate) (ρ id) = ρ (renamed kept duplicate id) := by
  simp only [renamed, ρ.injective.eq_iff]
  split <;> rfl

/-- The kept class gets the base classes of the duplicate behind its own. -/
theorem giveBases_relabel (kept duplicate : TypeId)
    (bases : OrderedMap TypeId (OrderedSet TypeId)) :
    giveBases (ρ kept) (ρ duplicate) (bases.relabel ρ (OrderedSet.relabel ρ)) =
      (giveBases kept duplicate bases).relabel ρ (OrderedSet.relabel ρ) := by
  simp only [giveBases, OrderedMap.get?_relabel]
  cases bases.get? duplicate with
  | none => rfl
  | some given =>
    rw [Option.map_some]
    dsimp only
    rw [OrderedMap.erase_relabel]
    refine OrderedMap.upsert_relabel ρ (OrderedSet.relabel ρ) _ (fun own => ?_) kept
    cases own with
    | none => exact OrderedSet.insertMany_relabel ρ ∅ given.elements
    | some own => exact OrderedSet.insertMany_relabel ρ own given.elements

/-- A base class that was the duplicate becomes the kept class, and a class is not made its own
base. -/
theorem renameBases_relabel (kept duplicate id : TypeId) (bases : OrderedSet TypeId) :
    renameBases (ρ kept) (ρ duplicate) (ρ id) (bases.relabel ρ) =
      (renameBases kept duplicate id bases).relabel ρ := by
  simp only [renameBases, OrderedSet.mem_relabel]
  split
  next =>
    rw [← OrderedSet.ofList_relabel]
    refine congrArg OrderedSet.ofList ?_
    simp only [OrderedSet.elements_relabel, List.map_map, List.filter_map, Function.comp_def,
      renamed_relabel, ne_eq, ρ.injective.eq_iff]
  next => rfl

theorem mergeBases_relabel (kept duplicate : TypeId)
    (bases : OrderedMap TypeId (OrderedSet TypeId)) :
    mergeBases (ρ kept) (ρ duplicate) (bases.relabel ρ (OrderedSet.relabel ρ)) =
      (mergeBases kept duplicate bases).relabel ρ (OrderedSet.relabel ρ) := by
  rw [mergeBases, mergeBases, giveBases_relabel]
  refine OrderedMap.map_relabel ρ (OrderedSet.relabel ρ) _ fun id own => ?_
  simp only [renameBases_relabel, ρ.injective.eq_iff]
  split
  next => exact OrderedSet.erase_relabel ρ _ kept
  next => rfl

/-- Positions are put in order by their size. They are no labels, so the order is the old one. -/
theorem mergeProcedures_relabel (kept duplicate : TypeId) (owned : OrderedMap TypeId (List Nat)) :
    mergeProcedures (ρ kept) (ρ duplicate) (owned.relabel ρ id) =
      (mergeProcedures kept duplicate owned).relabel ρ id := by
  simp only [mergeProcedures, OrderedMap.get?_relabel, Option.map_id, id_eq]
  cases owned.get? duplicate with
  | none => rfl
  | some given =>
    dsimp only
    rw [OrderedMap.erase_relabel]
    refine OrderedMap.upsert_relabel ρ id _ (fun own => ?_) kept
    cases own <;> rfl

/-- The whole of what a merge does to a resolution. -/
theorem rename_relabel (kept duplicate : TypeId) (r : Resolution) :
    rename (ρ kept) (ρ duplicate) (r.relabel ρ) = (rename kept duplicate r).relabel ρ := by
  have names : (r.names.relabel (.refl _) ρ).map (fun _ id => renamed (ρ kept) (ρ duplicate) id) =
      (r.names.map fun _ id => renamed kept duplicate id).relabel (.refl _) ρ :=
    OrderedMap.map_relabel _ ρ r.names fun _ => renamed_relabel ρ kept duplicate
  have references :
      (r.references.relabel ρ ρ).map (fun _ id => renamed (ρ kept) (ρ duplicate) id) =
        (r.references.map fun _ id => renamed kept duplicate id).relabel ρ ρ :=
    OrderedMap.map_relabel ρ ρ r.references fun _ => renamed_relabel ρ kept duplicate
  simp only [rename, Resolution.relabel, names, references, mergeBases_relabel,
    mergeProcedures_relabel]

/-! ## The run -/

/-- One merge. It is left out in both runs if the duplicate is no class any more. -/
theorem fold_relabel (kept : TypeId) (s : State) (duplicate : TypeId) :
    fold (ρ kept) (s.relabel ρ) (ρ duplicate) = (fold kept s duplicate).relabel ρ := by
  simp only [fold, State.relabel, TypeTable.classRecord?_relabel]
  cases s.table.classRecord? duplicate with
  | none => rfl
  | some removed =>
    simp only [Option.map_some, giveMembers_relabel, TypeTable.erase_relabel, dropOrphan_relabel,
      rename_relabel, MergeReport.relabel, OrderedMap.insert_relabel]

/-- The definitions of one display name are merged into the first of them. -/
theorem foldGroup_relabel (s : State) (group : List TypeId) :
    foldGroup (s.relabel ρ) (group.map ρ) = (foldGroup s group).relabel ρ := by
  cases group with
  | nil => rfl
  | cons kept duplicates => exact foldl_map_of_hom (fold_relabel ρ kept) duplicates rfl

/-- Display names are keys that stay; what is gathered under them is relabelled. -/
theorem byDisplayName_relabel :
    byDisplayName (t.relabel ρ) = (byDisplayName t).relabel (.refl _) (List.map ρ) := by
  rw [byDisplayName, byDisplayName, TypeTable.realClasses_relabel]
  refine foldl_map_of_hom (fun groups c => ?_) t.realClasses rfl
  refine OrderedMap.upsert_relabel (.refl _) (List.map ρ) groups (fun ids => ?_) c.display
  cases ids <;> simp [ClassRecord.relabel]

/-- A merge under new ids is the old merge, relabelled. -/
theorem run_relabel (r : Resolution) :
    run (t.relabel ρ) (r.relabel ρ) = (run t r).relabel ρ := by
  rw [run, run, byDisplayName_relabel, OrderedMap.values_relabel]
  exact foldl_map_of_hom (foldGroup_relabel ρ) _ rfl

end Merging
end Lineage
