import Lineage.Hierarchy
import Lineage.Proofs.Assembly.Checks
import Lineage.Proofs.Merging.Removal
import Lineage.Proofs.Merging.Survivors

/-!
# What merging deletes

`DeletesOnlyDuplicates` is the contract of merging towards the table. What goes is a later
definition of a group or a field list that no class names any more, and whatever stays keeps
its place. The stages that follow rely on it: the hierarchy counts the classes that are
assembled, and no base class is missing from them.

Most of that can only break in one way. If a record other than a field list is lost, then either
it is no duplicate, or it is one whose fold never came, and then the resolution knows a
class that the table does not have. So the contract holds exactly if the run leaves the table
intact, and that is a matter of wiring.

Main result: `deletes_only_duplicates_iff`.
-/

namespace Lineage.Merging

open TypeTable (Remains)

variable {t : TypeTable} {r : Resolution} {ps : List Procedure} {s : State} {id : TypeId}

/-- Merging deletes nothing but what it is meant to delete. -/
structure DeletesOnlyDuplicates (t : TypeTable) (ps : List Procedure) (s : State) : Prop where
  /-- A record that is gone was a definition behind the first of its group, or a field list that
  no class names any more. -/
  removed : ∀ rec ∈ t.records, rec.id ∉ s.table.ids →
    (∃ name c cs, group t name = c :: cs ∧ rec.id ∈ cs.map ClassRecord.id) ∨
    ((∃ l, rec = .fieldList l) ∧ ¬ s.table.Names rec.id)
  /-- The others are there in their old order. -/
  others : Remains t s.table
  /-- The hierarchy has as many classes as are assembled. -/
  total : (Hierarchy.stats s.resolution.bases).total = s.table.realClasses.length ∧
    ∀ index classes, Assembly.assemble s.table s.resolution ps index = .ok classes →
      (Hierarchy.stats s.resolution.bases).total = classes.length
  /-- No base class is missing from the result. -/
  closed : ∀ index name base,
    Assembly.assemble s.table s.resolution ps index ≠ .error (.danglingBase name base)

/-! ## Survivors -/

/-- A definition lives on in a definition that is not folded. -/
theorem survivor_mem (h : Recorded (plan t) s) (hid : id ∈ t.realIds) :
    s.report.survivor id ∈ t.realIds ∧ s.report.survivor id ∉ s.report.merged.keys := by
  rcases MergeReport.survivor_eq_iff.1 rfl with hfold | ⟨hid', heq⟩
  · exact ⟨(mem_realIds_of_mem_plan (h.mem_plan (List.prefix_refl _) hfold)).1,
      h.kept_not_mem_merged (List.prefix_refl _) hfold⟩
  · rw [← heq]
    exact ⟨hid, hid'⟩

theorem mem_duplicates_of_merged (h : Recorded (plan t) s) (hid : id ∈ s.report.merged.keys) :
    id ∈ duplicates t := by
  rw [← MergeReport.map_snd_folds] at hid
  exact (List.Sublist.map Prod.snd h).mem hid

/-- The base classes that are left are definitions that are not folded. -/
theorem mem_realIds_of_mem_basesOf_run (h : Resolution.ofTable t ps = .ok r) {c b : TypeId}
    (hc : c ∈ (run t r).resolution.bases.keys) (hb : b ∈ (run t r).resolution.basesOf c) :
    b ∈ t.realIds ∧ b ∉ (run t r).report.merged.keys := by
  have hr : Renamed r (run t r) := renamed_run h
  by_cases hbc : b = c
  · subst hbc
    exact (hr.mem_keys_iff h).1 hc
  · have hpart := (hr.bases c hc).mem_iff.1 (List.mem_filter.2 ⟨hb, by simpa using hbc⟩)
    obtain ⟨e, he, rfl⟩ := List.mem_map.1 (List.mem_filter.1 hpart).1
    obtain ⟨a, _, hea⟩ := List.mem_flatMap.1 he
    exact survivor_mem (recorded_run t r) (Resolution.mem_realIds_of_mem_basesOf h hea)

/-! ## Intact tables -/

/-- The definitions in the table are those classes of the resolution that are left. -/
theorem realIds_run (h : Resolution.ofTable t ps = .ok r) :
    (run t r).table.realIds =
      (run t r).resolution.bases.keys.filter fun id => id ∈ (run t r).table.ids := by
  have ht := tracked_run t r
  rw [(renamed_run h).keys, Resolution.keys_bases h, ht.remains.realIds_eq, List.filter_filter]
  refine List.filter_congr fun id _ => ?_
  by_cases hid : id ∈ (run t r).table.ids
  · have hm : id ∉ (run t r).report.merged.keys := fun hm => ht.gone id hm hid
    simp [hid, hm]
  · simp [hid]

theorem total_eq_length_keys (g : BaseGraph) : (Hierarchy.stats g).total = g.keys.length :=
  g.length_keys.symm

theorem length_realIds (t : TypeTable) : t.realIds.length = t.realClasses.length :=
  List.length_map _

/-- In an intact table no class is lost to the stages that follow. -/
theorem Intact.realIds_eq_keys (h : Resolution.ofTable t ps = .ok r) (hs : Intact t (run t r)) :
    (run t r).table.realIds = (run t r).resolution.bases.keys := by
  rw [realIds_run h, List.filter_eq_self]
  intro id hid
  obtain ⟨hid, hm⟩ := ((renamed_run h).mem_keys_iff h).1 hid
  have hreal := hs.mem_realIds (tracked_run t r) hid hm
  obtain ⟨c, hc, _⟩ := TypeTable.mem_realIds_iff.1 hreal
  exact decide_eq_true (TypeTable.mem_ids_of_classRecord? hc)

theorem Intact.deletesOnlyDuplicates (h : Resolution.ofTable t ps = .ok r)
    (hs : Intact t (run t r)) : DeletesOnlyDuplicates t ps (run t r) := by
  have ht := tracked_run t r
  have hrec := recorded_run t r
  have keys := hs.realIds_eq_keys h
  have total : (Hierarchy.stats (run t r).resolution.bases).total =
      (run t r).table.realClasses.length := by
    rw [total_eq_length_keys, ← keys, length_realIds]
  refine ⟨fun rec hmem hgone => ?_, ht.remains, ⟨total, fun index classes hok => ?_⟩,
    fun index name base herr => ?_⟩
  · have hget : t.get? rec.id = some rec := TypeTable.get?_eq_some_iff.2 ⟨hmem, rfl⟩
    have hids : rec.id ∈ t.ids := TypeTable.mem_ids_iff.2 ⟨rec, hget⟩
    by_cases hm : rec.id ∈ (run t r).report.merged.keys
    · obtain ⟨c, cs, hg, hd⟩ := mem_duplicates_iff.1 (mem_duplicates_of_merged hrec hm)
      exact .inl ⟨c.display, c, cs, hg, hd⟩
    · right
      cases hl : t.fieldList? rec.id with
      | none =>
        rcases hs rec.id hids hl with hin | hin
        · exact absurd hin hgone
        · exact absurd hin hm
      | some l =>
        refine ⟨⟨l, ?_⟩, fun hn => ?_⟩
        · exact Option.some.inj (hget.symm.trans (TypeTable.fieldList?_eq_some_iff.1 hl))
        · rcases ht.named rec.id hids hn with hin | hin
          · exact hgone hin
          · exact hm hin
  · rw [total, Assembly.length_of_assemble hok]
  · obtain ⟨c, hc, b, hb, hmissing⟩ := Assembly.exists_of_assemble_eq_danglingBase herr
    rw [keys] at hc
    obtain ⟨hreal, hm⟩ := mem_realIds_of_mem_basesOf_run h hc hb
    exact hmissing (hs.mem_realIds ht hreal hm)

/-- Deleting a record that is no field list breaks the contract. -/
theorem DeletesOnlyDuplicates.intact (h : Resolution.ofTable t ps = .ok r)
    (hd : DeletesOnlyDuplicates t ps (run t r)) : Intact t (run t r) := by
  have keys : (run t r).table.realIds = (run t r).resolution.bases.keys := by
    have sub : (run t r).table.realIds.Sublist (run t r).resolution.bases.keys := by
      rw [realIds_run h]
      exact List.filter_sublist
    refine sub.eq_of_length ?_
    rw [length_realIds, ← hd.total.1, total_eq_length_keys]
  intro id hid hl
  by_contra hlost
  rw [not_or] at hlost
  obtain ⟨rec, hget⟩ := TypeTable.mem_ids_iff.1 hid
  obtain ⟨hmem, rfl⟩ := TypeTable.get?_eq_some_iff.1 hget
  rcases hd.removed rec hmem hlost.1 with ⟨name, c, cs, hg, hdup⟩ | ⟨⟨l, rfl⟩, _⟩
  · -- A duplicate that was never folded is still known to the resolution.
    have hgroup : rec.id ∈ (group t name).map ClassRecord.id := by
      rw [hg]
      exact List.mem_cons_of_mem _ hdup
    have hreal : rec.id ∈ t.realIds := mem_realIds_of_mem_group hgroup
    have hkey : rec.id ∈ (run t r).resolution.bases.keys :=
      ((renamed_run h).mem_keys_iff h).2 ⟨hreal, hlost.2⟩
    rw [← keys] at hkey
    obtain ⟨c', hc', _⟩ := TypeTable.mem_realIds_iff.1 hkey
    exact hlost.1 (TypeTable.mem_ids_of_classRecord? hc')
  · rw [TypeTable.fieldList?_eq_some_iff.2 hget] at hl
    cases hl

/-- Merging deletes only duplicates and orphaned field lists exactly if the table is well wired. -/
theorem deletes_only_duplicates_iff (h : Resolution.ofTable t ps = .ok r) :
    DeletesOnlyDuplicates t ps (run t r) ↔ WellWired t := by
  rw [wellWired_iff_intact t r]
  exact ⟨fun hd => hd.intact h, fun hs => hs.deletesOnlyDuplicates h⟩

/-- The table of two units is well wired: its duplicates name no record but a field list. -/
theorem deletes_only_duplicates_twoUnits :
    Resolution.ofTable twoUnits [] = .ok { twoUnitsResolution with procedures := ∅ } ∧
    WellWired twoUnits ∧
    DeletesOnlyDuplicates twoUnits []
      (run twoUnits { twoUnitsResolution with procedures := ∅ }) := by
  have h : Resolution.ofTable twoUnits [] = .ok { twoUnitsResolution with procedures := ∅ } := rfl
  have wired : WellWired twoUnits := wellWired_of_fieldLists (by decide)
  exact ⟨h, wired, (deletes_only_duplicates_iff h).2 wired⟩

/-! ## A table that is not well wired -/

/-- A dump whose second `A` gives the number of the class `B` for its field list. -/
def miswiredDump : Dump := ⟨[
  "*** TYPES",
  "",
  "0x1000 : LF_CLASS",
  " field list type 0x1001, ",
  " class name = A, unique name = .?AVA@@, UDT(0x1000)",
  "",
  "0x1001 : LF_FIELDLIST",
  " list[0] = LF_ONEMETHOD, public, VANILLA, index = 0x1004, name = 'Run'",
  "",
  "0x1002 : LF_CLASS",
  " field list type 0x1003, ",
  " class name = A, unique name = .?AVA@@x, UDT(0x1002)",
  "",
  "0x1003 : LF_CLASS",
  " field list type 0x0000, ",
  " class name = B, unique name = .?AVB@@, UDT(0x1003)",
  "",
  "0x1005 : LF_FIELDLIST",
  " list[0] = LF_BCLASS, public, type = 0x1003, offset = 0",
  "",
  "0x1006 : LF_CLASS",
  " field list type 0x1005, ",
  " class name = C, unique name = .?AVC@@, UDT(0x1006)"].map String.toList⟩

/-- Its table. -/
def miswired : TypeTable where
  records := [
    .classType ⟨⟨0x1000⟩, "A".toList, ".?AVA@@".toList, some ⟨0x1001⟩, false⟩,
    .fieldList ⟨⟨0x1001⟩, [.method "Run".toList ⟨0x1004⟩ false]⟩,
    .classType ⟨⟨0x1002⟩, "A".toList, ".?AVA@@x".toList, some ⟨0x1003⟩, false⟩,
    .classType ⟨⟨0x1003⟩, "B".toList, ".?AVB@@".toList, none, false⟩,
    .fieldList ⟨⟨0x1005⟩, [.base ⟨0x1003⟩]⟩,
    .classType ⟨⟨0x1006⟩, "C".toList, ".?AVC@@".toList, some ⟨0x1005⟩, false⟩]
  nodup := by decide

/-- What its table resolves to. -/
def miswiredResolution : Resolution where
  names := .ofList [(".?AVA@@".toList, ⟨0x1000⟩), (".?AVA@@x".toList, ⟨0x1002⟩),
    (".?AVB@@".toList, ⟨0x1003⟩), (".?AVC@@".toList, ⟨0x1006⟩)]
  references := ∅
  bases := .ofList [(⟨0x1000⟩, ∅), (⟨0x1002⟩, ∅), (⟨0x1003⟩, ∅), (⟨0x1006⟩, .ofList [⟨0x1003⟩])]
  procedures := ∅

/-- The class `B` goes with the second `A`, and `C` is left without its base class. -/
theorem not_deletesOnlyDuplicates_miswired :
    TypeTable.ofDump miswiredDump = .ok miswired ∧
    Resolution.ofTable miswired [] = .ok miswiredResolution ∧
    ¬ DeletesOnlyDuplicates miswired [] (run miswired miswiredResolution) := by
  refine ⟨by decide +kernel, rfl, fun h => ?_⟩
  exact h.closed none "C".toList ⟨0x1003⟩ rfl

end Lineage.Merging
