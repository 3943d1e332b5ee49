import Lineage.TypeTable
import Mathlib.Data.List.Nodup

/-!
# The type table as a view

What a type table is can be seen through two things: the list of its `ids`, in order, and `get?`,
which finds the record of an id. Every change to a table has one lemma for either half, and every
typed question (a class, a field list, a member function) is one about `get?`. Modules that reason
about tables use these and do not open the list of records.

A record is of one kind, so there is at most one typed question that an id answers. The answer has
the id that was asked for, which is what makes a class of the table the same thing as an id at which
a class can be asked for (`mem_classes_iff`).

The classes of a table are the class records that can be asked for, in the order of the table, and
no two of them have one id. Definitions are the classes that are no forward references
(`mem_realIds_iff`).

A class names a field list by its id, and the table need not have a list there: there may be none,
or a record of another kind. What merging does depends on which classes name which ids, and so the
named id is kept apart from the list (`listOf?`, `Names`). It changes in two ways only, when the
class goes and when the class takes over another list.
-/

namespace Lineage

namespace TypeRecord

/-- Of what kind a record is can be read off its constructor. -/
theorem classType?_eq_some_iff {r : TypeRecord} {c : ClassRecord} :
    r.classType? = some c ↔ r = .classType c := by
  cases r <;> simp [classType?]

theorem fieldList?_eq_some_iff {r : TypeRecord} {l : FieldList} :
    r.fieldList? = some l ↔ r = .fieldList l := by
  cases r <;> simp [fieldList?]

theorem memberFunction?_eq_some_iff {r : TypeRecord} {f : MemberFunction} :
    r.memberFunction? = some f ↔ r = .memberFunction f := by
  cases r <;> simp [memberFunction?]

end TypeRecord

namespace TypeTable

variable {t : TypeTable} {id : TypeId}

/-- The ids of a table in order. -/
def ids (t : TypeTable) : List TypeId := t.records.map TypeRecord.id

/-- A table has one record at most for an id. -/
theorem nodup_ids (t : TypeTable) : t.ids.Nodup := t.nodup

/-! ## Asking -/

/-- What is found at an id is the record with this id. There is one such record only, so it does not
matter that the search stops at the first. -/
theorem get?_eq_some_iff {r : TypeRecord} : t.get? id = some r ↔ r ∈ t.records ∧ r.id = id := by
  refine ⟨?_, ?_⟩
  · intro h
    exact ⟨List.mem_of_find?_eq_some h, by simpa using List.find?_some h⟩
  · intro hx
    obtain ⟨hr, rfl⟩ := hx
    cases h : t.get? r.id with
    | none =>
      rw [get?_eq_none_iff] at h
      exact absurd (List.mem_map_of_mem hr) h
    | some r' =>
      have hr' := List.mem_of_find?_eq_some h
      have hid : r'.id = r.id := by simpa using List.find?_some h
      rw [List.inj_on_of_nodup_map t.nodup hr' hr hid]

theorem id_of_get? {r : TypeRecord} (h : t.get? id = some r) : r.id = id :=
  (get?_eq_some_iff.1 h).2

/-- The ids of a table are those at which a record can be found. -/
theorem mem_ids_iff : id ∈ t.ids ↔ ∃ r, t.get? id = some r := by
  rw [← Option.ne_none_iff_exists', ne_eq, get?_eq_none_iff, Decidable.not_not]
  exact Iff.rfl

/-- To ask for a class is to ask for a record that is one. -/
theorem classRecord?_eq_some_iff {c : ClassRecord} :
    t.classRecord? id = some c ↔ t.get? id = some (.classType c) := by
  simp only [classRecord?, Option.bind_eq_some_iff, TypeRecord.classType?_eq_some_iff]
  refine ⟨?_, ?_⟩
  · intro hx
    obtain ⟨r, hr, rfl⟩ := hx
    exact hr
  · exact fun h => ⟨_, h, rfl⟩

/-- To ask for a field list is to ask for a record that is one. -/
theorem fieldList?_eq_some_iff {l : FieldList} :
    t.fieldList? id = some l ↔ t.get? id = some (.fieldList l) := by
  simp only [fieldList?, Option.bind_eq_some_iff, TypeRecord.fieldList?_eq_some_iff]
  refine ⟨?_, ?_⟩
  · intro hx
    obtain ⟨r, hr, rfl⟩ := hx
    exact hr
  · exact fun h => ⟨_, h, rfl⟩

/-- To ask for a member function is to ask for a record that is one. -/
theorem memberFunction?_eq_some_iff {f : MemberFunction} :
    t.memberFunction? id = some f ↔ t.get? id = some (.memberFunction f) := by
  simp only [memberFunction?, Option.bind_eq_some_iff, TypeRecord.memberFunction?_eq_some_iff]
  refine ⟨?_, ?_⟩
  · intro hx
    obtain ⟨r, hr, rfl⟩ := hx
    exact hr
  · exact fun h => ⟨_, h, rfl⟩

/-- The class that is found has the id that was asked for. -/
theorem id_of_classRecord? {c : ClassRecord} (h : t.classRecord? id = some c) : c.id = id :=
  id_of_get? (classRecord?_eq_some_iff.1 h)

theorem mem_ids_of_classRecord? {c : ClassRecord} (h : t.classRecord? id = some c) : id ∈ t.ids :=
  mem_ids_iff.2 ⟨_, classRecord?_eq_some_iff.1 h⟩

/-- A record is of one kind only. -/
theorem fieldList?_eq_none_of_classRecord? {c : ClassRecord} (h : t.classRecord? id = some c) :
    t.fieldList? id = none := by
  rw [fieldList?, classRecord?_eq_some_iff.1 h]
  rfl

/-! ## The classes -/

/-- The classes that are listed are those that can be asked for. -/
theorem mem_classes_iff {c : ClassRecord} : c ∈ t.classes ↔ t.classRecord? c.id = some c := by
  simp only [classes, List.mem_filterMap, TypeRecord.classType?_eq_some_iff,
    classRecord?_eq_some_iff, get?_eq_some_iff]
  refine ⟨?_, ?_⟩
  · intro hx
    obtain ⟨r, hr, rfl⟩ := hx
    exact ⟨hr, rfl⟩
  · exact fun h => ⟨_, h.1, rfl⟩

/-- A definition is a class that is no forward reference. -/
theorem mem_realClasses_iff {c : ClassRecord} :
    c ∈ t.realClasses ↔ t.classRecord? c.id = some c ∧ c.isForward = false := by
  rw [realClasses, List.mem_filter, mem_classes_iff]
  simp

/-- The ids of the classes stand in the order of the table. -/
theorem ids_classes_sublist (t : TypeTable) : (t.classes.map ClassRecord.id).Sublist t.ids := by
  unfold classes ids
  generalize t.records = rs
  induction rs with
  | nil => exact List.Sublist.slnil
  | cons r rs ih =>
    cases r with
    | classType c =>
      show (c.id :: (rs.filterMap TypeRecord.classType?).map ClassRecord.id).Sublist _
      exact ih.cons_cons c.id
    | fieldList l =>
      exact ih.cons l.id
    | memberFunction f =>
      exact ih.cons f.id

/-- No two classes have one id. -/
theorem nodup_ids_classes (t : TypeTable) : (t.classes.map ClassRecord.id).Nodup :=
  t.nodup_ids.sublist t.ids_classes_sublist

/-- The ids of the definitions in order. -/
def realIds (t : TypeTable) : List TypeId := t.realClasses.map ClassRecord.id

theorem nodup_realIds (t : TypeTable) : t.realIds.Nodup :=
  t.nodup_ids_classes.sublist (List.filter_sublist.map _)

/-- The ids of definitions, without the list of records. -/
theorem mem_realIds_iff :
    id ∈ t.realIds ↔ ∃ c, t.classRecord? id = some c ∧ c.isForward = false := by
  rw [realIds, List.mem_map]
  refine ⟨?_, ?_⟩
  · intro hx
    obtain ⟨c, hc, rfl⟩ := hx
    exact ⟨c, mem_realClasses_iff.1 hc⟩
  · intro hx
    obtain ⟨c, hc, hf⟩ := hx
    have hid := id_of_classRecord? hc
    exact ⟨c, mem_realClasses_iff.2 ⟨by rw [hid]; exact hc, hf⟩, hid⟩

/-- The definition that is found is one of those that are listed. -/
theorem mem_realIds_of_realClass? {c : ClassRecord} (h : t.realClass? id = some c) :
    c.id ∈ t.realIds := by
  obtain ⟨hc, hf⟩ := Option.filter_eq_some_iff.1 h
  rw [id_of_classRecord? hc]
  exact mem_realIds_iff.2 ⟨c, hc, by simpa using hf⟩

/-! ## Changes -/

/-- The other records stay in their order. -/
theorem ids_erase (t : TypeTable) (id : TypeId) : (t.erase id).ids = t.ids.filter (· ≠ id) := by
  simp [ids, List.filter_map, Function.comp_def]

/-- After a record is erased, its id has none, and the other ids have what they had. -/
theorem get?_erase (t : TypeTable) (id j : TypeId) :
    (t.erase id).get? j = if j = id then none else t.get? j := by
  ext r
  split
  next h =>
    simp only [get?_eq_some_iff, records_erase, List.mem_filter, h, reduceCtorEq, iff_false]
    intro hx
    obtain ⟨⟨_, hne⟩, hid⟩ := hx
    exact absurd hid (by simpa using hne)
  next h =>
    simp only [get?_eq_some_iff, records_erase, List.mem_filter]
    refine ⟨?_, ?_⟩
    · intro hx
      obtain ⟨⟨hr, _⟩, hid⟩ := hx
      exact ⟨hr, hid⟩
    · intro hx
      obtain ⟨hr, hid⟩ := hx
      exact ⟨⟨hr, by simpa [hid] using h⟩, hid⟩

/-- A change that leaves the ids of records alone leaves the list of ids alone. -/
theorem ids_mapRecords (f : TypeRecord → TypeRecord) (hf : ∀ r, (f r).id = r.id) :
    (t.mapRecords f hf).ids = t.ids := by
  simp [ids, mapRecords, Function.comp_def, hf]

/-- A record that is found after a change is the changed one of its id. -/
theorem get?_mapRecords (f : TypeRecord → TypeRecord) (hf : ∀ r, (f r).id = r.id) (j : TypeId) :
    (t.mapRecords f hf).get? j = (t.get? j).map f := by
  rw [get?, mapRecords, List.find?_map, get?]
  simp only [Function.comp_def, hf]

theorem ids_adopt (t : TypeTable) (id list : TypeId) : (t.adopt id list).ids = t.ids :=
  ids_mapRecords _ (id_adoptInto id list)

theorem ids_mergeMembers (t : TypeTable) (id : TypeId) (members : List Member) :
    (t.mergeMembers id members).ids = t.ids :=
  ids_mapRecords _ (id_mergeInto id members)

theorem classRecord?_erase (t : TypeTable) (id j : TypeId) :
    (t.erase id).classRecord? j = if j = id then none else t.classRecord? j := by
  rw [classRecord?, get?_erase]
  split <;> rfl

/-- Adopting a list changes one field of one class. -/
theorem classRecord?_adopt (t : TypeTable) (id list j : TypeId) :
    (t.adopt id list).classRecord? j = (t.classRecord? j).map fun c =>
      if c.id = id then { c with fieldList := some list } else c := by
  rw [classRecord?, adopt, get?_mapRecords, classRecord?]
  cases t.get? j with
  | none => rfl
  | some r => cases r <;> rfl

/-- Merging members changes no class. -/
theorem classRecord?_mergeMembers (t : TypeTable) (id : TypeId) (members : List Member)
    (j : TypeId) : (t.mergeMembers id members).classRecord? j = t.classRecord? j := by
  rw [classRecord?, mergeMembers, get?_mapRecords, classRecord?]
  cases t.get? j with
  | none => rfl
  | some r => cases r <;> rfl

/-- Adopting a list changes no list. -/
theorem fieldList?_adopt (t : TypeTable) (id list j : TypeId) :
    (t.adopt id list).fieldList? j = t.fieldList? j := by
  rw [fieldList?, adopt, get?_mapRecords, fieldList?]
  cases t.get? j with
  | none => rfl
  | some r => cases r <;> rfl

/-- Merging members changes one list. -/
theorem fieldList?_mergeMembers (t : TypeTable) (id : TypeId) (members : List Member)
    (j : TypeId) : (t.mergeMembers id members).fieldList? j = (t.fieldList? j).map fun l =>
      if l.id = id then { l with members := FieldList.merge l.members members } else l := by
  rw [fieldList?, mergeMembers, get?_mapRecords, fieldList?]
  cases t.get? j with
  | none => rfl
  | some r => cases r <;> rfl

/-! ## The field lists that classes name -/

/-- The id of the field list that a class names. The table need not have the list. -/
def listOf? (t : TypeTable) (id : TypeId) : Option TypeId :=
  (t.classRecord? id).bind ClassRecord.fieldList

/-- Some class names a field list. -/
def Names (t : TypeTable) (list : TypeId) : Prop := ∃ id, t.listOf? id = some list

/-- The test that merging makes before it drops a list: whether a class of the table still names it.
-/
theorem any_classes_iff {list : TypeId} :
    (t.classes.any fun c => c.fieldList = some list) = true ↔ t.Names list := by
  simp only [List.any_eq_true, decide_eq_true_eq, Names, listOf?, Option.bind_eq_some_iff]
  refine ⟨?_, ?_⟩
  · intro h
    obtain ⟨c, hc, hl⟩ := h
    exact ⟨c.id, c, mem_classes_iff.1 hc, hl⟩
  · intro h
    obtain ⟨id, c, hc, hl⟩ := h
    refine ⟨c, mem_classes_iff.2 ?_, hl⟩
    rw [id_of_classRecord? hc]
    exact hc

/-- Only a class of the table names a list. -/
theorem mem_ids_of_listOf? {list : TypeId} (h : t.listOf? id = some list) : id ∈ t.ids := by
  obtain ⟨c, hc, _⟩ := Option.bind_eq_some_iff.1 h
  exact mem_ids_of_classRecord? hc

/-- A class that goes names nothing any more. -/
theorem listOf?_erase (t : TypeTable) (id j : TypeId) :
    (t.erase id).listOf? j = if j = id then none else t.listOf? j := by
  rw [listOf?, classRecord?_erase]
  split <;> rfl

/-- A class that adopts a list names it from then on. An id without a class adopts nothing. -/
theorem listOf?_adopt (t : TypeTable) (id list j : TypeId) :
    (t.adopt id list).listOf? j =
      if j = id ∧ (t.classRecord? id).isSome then some list else t.listOf? j := by
  rw [listOf?, classRecord?_adopt]
  cases h : t.classRecord? j with
  | none =>
    by_cases hj : j = id
    · subst hj
      simp [h, listOf?]
    · simp [h, hj, listOf?]
  | some c =>
    have hid := id_of_classRecord? h
    by_cases hj : j = id
    · subst hj
      simp [h, hid]
    · simp [h, hid, hj, listOf?]

/-- No class names another list when members are merged. -/
theorem listOf?_mergeMembers (t : TypeTable) (id : TypeId) (members : List Member) (j : TypeId) :
    (t.mergeMembers id members).listOf? j = t.listOf? j := by
  rw [listOf?, classRecord?_mergeMembers]
  rfl

end TypeTable
end Lineage
