import Lineage.Proofs.Ordered.FirstOccurrences
import Lineage.Proofs.TypeTable.View
import Mathlib.Data.List.Forall2

/-!
# Tables that shrink while their records grow

Merging does two things to a type table: it removes records, and it adds to some of those that
stay. `Remains t u` says that nothing else has happened between `t` and `u`. The records
of `u` are, in order, those of `t` whose ids are left, and each may only have `Grown`: a class may
name another field list than before, and a field list may have more members at its end.

`remains_mapRecords` and `remains_erase` are the two ways to shrink or grow, and
`Remains.trans` puts them in a row. So each step of a merge is one of the relation, and a run of
merges is as well.

What is known of the table at the end is read off the relation, and it is of two sorts. Looking
back, a record at the end has grown from one at the start that had its id. Looking forward, a record
whose id is left is there, and has what it had. Definitions are not lost sight of: those at the end
are those at the start whose ids are left, in the same order (`Remains.realIds_eq`).
-/

namespace Lineage

/-- What may become of a record that stays. -/
inductive TypeRecord.Grown : TypeRecord → TypeRecord → Prop
  | classType (c : ClassRecord) (list : Option TypeId) :
    Grown (.classType c) (.classType { c with fieldList := list })
  | fieldList (l : FieldList) (members : List Member) (h : l.members <+: members) :
    Grown (.fieldList l) (.fieldList { l with members := members })
  | memberFunction (f : MemberFunction) : Grown (.memberFunction f) (.memberFunction f)

namespace TypeRecord.Grown

variable {a b c : TypeRecord}

/-- A record that is left alone has grown by nothing. -/
theorem refl (a : TypeRecord) : Grown a a := by
  cases a with
  | classType c => exact .classType c c.fieldList
  | fieldList l => exact .fieldList l l.members List.prefix_rfl
  | memberFunction f => exact .memberFunction f

/-- A record may grow more than once. -/
theorem trans (h : Grown a b) (h' : Grown b c) : Grown a c := by
  cases h with
  | classType r list =>
    cases h' with
    | classType _ list' => exact .classType r list'
  | fieldList l members hl =>
    cases h' with
    | fieldList _ members' hl' => exact .fieldList l members' (hl.trans hl')
  | memberFunction f => exact h'

/-- A record that grows keeps its id. -/
theorem id_eq (h : Grown a b) : b.id = a.id := by
  cases h <;> rfl

end TypeRecord.Grown

namespace TypeTable

open TypeRecord (Grown)

variable {t u v : TypeTable} {id : TypeId}

/-- The second table is what is left of the first. -/
def Remains (t u : TypeTable) : Prop :=
  List.Forall₂ Grown (t.records.filter fun r => r.id ∈ u.ids) u.records

/-! ## Records in parallel -/

/-- Records that grow side by side keep their ids, in order. -/
theorem map_id_eq_of_forall₂ {as bs : List TypeRecord} (h : List.Forall₂ Grown as bs) :
    bs.map TypeRecord.id = as.map TypeRecord.id := by
  induction h with
  | nil => rfl
  | cons hab _ ih => rw [List.map_cons, List.map_cons, hab.id_eq, ih]

/-- A record of the second list has grown from one of the first. -/
theorem exists_grown_of_mem {as bs : List TypeRecord} (h : List.Forall₂ Grown as bs)
    {b : TypeRecord} (hb : b ∈ bs) : ∃ a ∈ as, Grown a b := by
  induction h with
  | nil => cases hb
  | cons hab _ ih =>
    rcases List.mem_cons.1 hb with rfl | hb
    · exact ⟨_, List.mem_cons_self, hab⟩
    · obtain ⟨a, ha, hg⟩ := ih hb
      exact ⟨a, List.mem_cons_of_mem _ ha, hg⟩

theorem forall₂_grown_trans {as bs cs : List TypeRecord} (h : List.Forall₂ Grown as bs)
    (h' : List.Forall₂ Grown bs cs) : List.Forall₂ Grown as cs := by
  induction h generalizing cs with
  | nil => exact h'
  | cons hab _ ih =>
    cases h' with
    | cons hbc h' => exact .cons (hab.trans hbc) (ih h')

/-- The definitions among records that have grown. -/
theorem realIds_eq_of_forall₂ {as bs : List TypeRecord} (h : List.Forall₂ Grown as bs) :
    (((bs.filterMap TypeRecord.classType?).filter fun c => !c.isForward).map ClassRecord.id) =
      ((as.filterMap TypeRecord.classType?).filter fun c => !c.isForward).map ClassRecord.id := by
  induction h with
  | nil => rfl
  | cons hab _ ih =>
    cases hab with
    | classType c list =>
      show (List.filter _ (_ :: _)).map _ = (List.filter _ (_ :: _)).map _
      rw [List.filter_cons, List.filter_cons]
      cases c.isForward with
      | true => exact ih
      | false => exact congrArg (c.id :: ·) ih
    | fieldList l members _ => exact ih
    | memberFunction f => exact ih

/-! ## What is left -/

/-- Nothing has happened yet. -/
theorem Remains.refl (t : TypeTable) : Remains t t := by
  have all : (t.records.filter fun r => r.id ∈ t.ids) = t.records :=
    List.filter_eq_self.2 fun r hr => decide_eq_true (List.mem_map_of_mem hr)
  rw [Remains, all]
  exact List.forall₂_same.2 fun r _ => Grown.refl r

/-- The ids that are left stand in the order in which they stood before. -/
theorem Remains.ids_eq (h : Remains t u) : u.ids = t.ids.filter fun id => id ∈ u.ids := by
  have mapped : u.ids = (t.records.filter fun r => r.id ∈ u.ids).map TypeRecord.id :=
    map_id_eq_of_forall₂ h
  rw [show t.ids = t.records.map TypeRecord.id from rfl, List.filter_map]
  exact mapped

/-- No id is new. -/
theorem Remains.mem_ids (h : Remains t u) (hid : id ∈ u.ids) : id ∈ t.ids := by
  rw [h.ids_eq] at hid
  exact (List.mem_filter.1 hid).1

/-- What is left of what was left. The records that go in the second step are gone in both. -/
theorem Remains.trans (h : Remains t u) (h' : Remains u v) : Remains t v := by
  have first : List.Forall₂ Grown
      ((t.records.filter fun r => r.id ∈ u.ids).filter fun r => r.id ∈ v.ids)
      (u.records.filter fun r => r.id ∈ v.ids) := by
    refine List.rel_filter ?_ h
    intro a b hab
    show decide (a.id ∈ v.ids) = true ↔ decide (b.id ∈ v.ids) = true
    rw [hab.id_eq]
  have same : ((t.records.filter fun r => r.id ∈ u.ids).filter fun r => r.id ∈ v.ids) =
      t.records.filter fun r => r.id ∈ v.ids := by
    rw [List.filter_filter]
    refine List.filter_congr fun r _ => ?_
    by_cases hv : r.id ∈ v.ids
    · simp [hv, h'.mem_ids hv]
    · simp [hv]
  rw [same] at first
  exact forall₂_grown_trans first h'

/-- The record that a record has grown from. -/
theorem Remains.exists_get? (h : Remains t u) {r : TypeRecord} (hr : u.get? id = some r) :
    ∃ a, t.get? id = some a ∧ Grown a r := by
  obtain ⟨hmem, hid⟩ := get?_eq_some_iff.1 hr
  obtain ⟨a, ha, hg⟩ := exists_grown_of_mem h hmem
  exact ⟨a, get?_eq_some_iff.2 ⟨(List.mem_filter.1 ha).1, hg.id_eq ▸ hid⟩, hg⟩

/-- What a record that is left has grown to. -/
theorem Remains.get?_of_mem (h : Remains t u) {a : TypeRecord} (ha : t.get? id = some a)
    (hid : id ∈ u.ids) : ∃ r, u.get? id = some r ∧ Grown a r := by
  obtain ⟨r, hr⟩ := mem_ids_iff.1 hid
  obtain ⟨a', ha', hg⟩ := h.exists_get? hr
  obtain rfl := Option.some.inj (ha.symm.trans ha')
  exact ⟨r, hr, hg⟩

/-- A class that is left may name another list. Everything else about it is as it was. -/
theorem Remains.exists_classRecord? (h : Remains t u) {c : ClassRecord}
    (hc : u.classRecord? id = some c) : ∃ c', t.classRecord? id = some c' ∧
      c = { c' with fieldList := c.fieldList } := by
  obtain ⟨a, ha, hg⟩ := h.exists_get? (classRecord?_eq_some_iff.1 hc)
  cases hg with
  | classType c' list => exact ⟨c', classRecord?_eq_some_iff.2 ha, rfl⟩

/-- A class whose id is left is left. -/
theorem Remains.classRecord?_of_mem (h : Remains t u) {c : ClassRecord}
    (hc : t.classRecord? id = some c) (hid : id ∈ u.ids) :
    ∃ list, u.classRecord? id = some { c with fieldList := list } := by
  obtain ⟨r, hr, hg⟩ := h.get?_of_mem (classRecord?_eq_some_iff.1 hc) hid
  cases hg with
  | classType _ list => exact ⟨list, classRecord?_eq_some_iff.2 hr⟩

/-- A field list whose id is left has its members, and maybe more behind them. -/
theorem Remains.fieldList?_of_mem (h : Remains t u) {l : FieldList}
    (hl : t.fieldList? id = some l) (hid : id ∈ u.ids) :
    ∃ l', u.fieldList? id = some l' ∧ l.members <+: l'.members := by
  obtain ⟨r, hr, hg⟩ := h.get?_of_mem (fieldList?_eq_some_iff.1 hl) hid
  cases hg with
  | fieldList _ members hm => exact ⟨_, fieldList?_eq_some_iff.2 hr, hm⟩

/-- The definitions that are left. -/
theorem Remains.realIds_eq (h : Remains t u) :
    u.realIds = t.realIds.filter fun id => id ∈ u.ids := by
  have sub : u.realIds.Sublist t.realIds := by
    rw [realIds, realClasses, classes, realIds_eq_of_forall₂ h]
    exact ((List.filter_sublist.filterMap _).filter _).map _
  refine eq_filter_of_sublist sub t.nodup_realIds fun id hid => ?_
  rw [decide_eq_true_iff, mem_realIds_iff]
  refine ⟨?_, ?_⟩
  · intro hc
    obtain ⟨c, hc, _⟩ := hc
    exact mem_ids_iff.2 ⟨_, classRecord?_eq_some_iff.1 hc⟩
  · intro hu
    obtain ⟨c, hc, hf⟩ := mem_realIds_iff.1 hid
    obtain ⟨list, hc'⟩ := h.classRecord?_of_mem hc hu
    exact ⟨_, hc', hf⟩

/-! ## Shrinking and growing -/

/-- If every record may only grow, the table loses none. -/
theorem remains_mapRecords (f : TypeRecord → TypeRecord) (hf : ∀ r, (f r).id = r.id)
    (hg : ∀ r, Grown r (f r)) : Remains t (t.mapRecords f hf) := by
  have all : (t.records.filter fun r => r.id ∈ (t.mapRecords f hf).ids) = t.records := by
    rw [ids_mapRecords]
    exact List.filter_eq_self.2 fun r hr => decide_eq_true (List.mem_map_of_mem hr)
  rw [Remains, all]
  exact List.forall₂_map_right_iff.2 (List.forall₂_same.2 fun r _ => hg r)

/-- Erasing loses one record, and the others do not grow. -/
theorem remains_erase (t : TypeTable) (id : TypeId) : Remains t (t.erase id) := by
  have left : (t.records.filter fun r => r.id ∈ (t.erase id).ids) = (t.erase id).records := by
    rw [records_erase]
    refine List.filter_congr fun r hr => ?_
    have hid : r.id ∈ t.ids := List.mem_map_of_mem hr
    simp [ids_erase, hid]
  rw [Remains, left]
  exact List.forall₂_same.2 fun r _ => Grown.refl r

/-- To adopt a list is to name another. -/
theorem grown_adoptInto (id list : TypeId) (r : TypeRecord) : Grown r (adoptInto id list r) := by
  cases r with
  | classType c =>
    by_cases h : c.id = id
    · rw [adoptInto, if_pos h]
      exact .classType c (some list)
    · rw [adoptInto, if_neg h]
      exact .refl _
  | fieldList l => exact .refl _
  | memberFunction f => exact .refl _

/-- Merged members come behind the old ones. -/
theorem grown_mergeInto (id : TypeId) (members : List Member) (r : TypeRecord) :
    Grown r (mergeInto id members r) := by
  cases r with
  | classType c => exact .refl _
  | fieldList l =>
    by_cases h : l.id = id
    · rw [mergeInto, if_pos h]
      exact .fieldList l _ (FieldList.prefix_merge _ _)
    · rw [mergeInto, if_neg h]
      exact .refl _
  | memberFunction f => exact .refl _

theorem remains_adopt (t : TypeTable) (id list : TypeId) : Remains t (t.adopt id list) :=
  remains_mapRecords _ (id_adoptInto id list) (grown_adoptInto id list)

theorem remains_mergeMembers (t : TypeTable) (id : TypeId) (members : List Member) :
    Remains t (t.mergeMembers id members) :=
  remains_mapRecords _ (id_mergeInto id members) (grown_mergeInto id members)

end TypeTable
end Lineage
