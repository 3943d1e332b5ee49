import Lineage.Dump.Scanner
import Lineage.Record.Reader

/-!
# The type table

All type records of a dump, in dump order. No two records share an id: a dump
that numbers two records alike is damaged, and `insert` refuses the second.

The readers of the table ask for a record by id and kind (`realClass?`,
`fieldList?`, `memberFunction?`) or walk over its classes in order.
-/

namespace Lineage

/-- Type records in dump order, each with an id of its own. -/
structure TypeTable where
  records : List TypeRecord
  nodup : (records.map TypeRecord.id).Nodup
deriving DecidableEq

namespace TypeTable

@[ext] theorem ext {t u : TypeTable} (h : t.records = u.records) : t = u := by
  cases t; cases u; cases h; rfl

/-- The table without records. -/
def empty : TypeTable := ⟨[], List.nodup_nil⟩

instance : EmptyCollection TypeTable := ⟨empty⟩

instance : Inhabited TypeTable := ⟨empty⟩

/-- The number of records. -/
def size (t : TypeTable) : Nat := t.records.length

/-! ## Asking for records -/

/-- The record with an id. -/
def get? (t : TypeTable) (id : TypeId) : Option TypeRecord := t.records.find? fun r => r.id = id

/-- The class record with an id, be it a definition or a forward reference. -/
def classRecord? (t : TypeTable) (id : TypeId) : Option ClassRecord :=
  (t.get? id).bind TypeRecord.classType?

/-- The class definition with an id. -/
def realClass? (t : TypeTable) (id : TypeId) : Option ClassRecord :=
  (t.classRecord? id).filter fun c => !c.isForward

/-- The field list with an id. -/
def fieldList? (t : TypeTable) (id : TypeId) : Option FieldList :=
  (t.get? id).bind TypeRecord.fieldList?

/-- The member function with an id. -/
def memberFunction? (t : TypeTable) (id : TypeId) : Option MemberFunction :=
  (t.get? id).bind TypeRecord.memberFunction?

/-- The field list that a class names, if the table has it. -/
def fieldListOf? (t : TypeTable) (c : ClassRecord) : Option FieldList :=
  c.fieldList.bind t.fieldList?

/-- The members of a class; a class without a field list has none. -/
def membersOf (t : TypeTable) (c : ClassRecord) : List Member :=
  match t.fieldListOf? c with
  | some list => list.members
  | none => []

/-- All class records in order. -/
def classes (t : TypeTable) : List ClassRecord := t.records.filterMap TypeRecord.classType?

/-- The class definitions in order. -/
def realClasses (t : TypeTable) : List ClassRecord := t.classes.filter fun c => !c.isForward

/-- The forward references in order. -/
def forwardRefs (t : TypeTable) : List ClassRecord := t.classes.filter fun c => c.isForward

/-! ## Building and changing -/

/-- The fault of a second record with the id of an earlier one. -/
def redefined (old new : TypeRecord) (lineNumber : Nat) : Fault :=
  .expecting "unique type id".toList lineNumber
    (new.id.text ++ " redefined (".toList ++ old.kind.name ++ " then ".toList
      ++ new.kind.name ++ ")".toList)

theorem get?_eq_none_iff {t : TypeTable} {id : TypeId} :
    t.get? id = none ↔ id ∉ t.records.map TypeRecord.id := by
  simp [get?, List.find?_eq_none]

/-- Adds a record, found at a line, at the end. -/
def insert (t : TypeTable) (r : TypeRecord) (lineNumber : Nat) : Except Fault TypeTable :=
  match h : t.get? r.id with
  | some old => .error (redefined old r lineNumber)
  | none => .ok
    { records := t.records ++ [r]
      nodup := by
        rw [List.map_append, List.nodup_append]
        refine ⟨t.nodup, by simp, fun a ha b hb hab => get?_eq_none_iff.1 h ?_⟩
        obtain rfl : b = r.id := by simpa using hb
        exact hab ▸ ha }

/-- Removes the record with an id; the others keep their order. -/
def erase (t : TypeTable) (id : TypeId) : TypeTable where
  records := t.records.filter fun r => r.id ≠ id
  nodup := t.nodup.sublist (List.filter_sublist.map _)

/-- Changes records in place without renumbering them. -/
def mapRecords (t : TypeTable) (f : TypeRecord → TypeRecord) (hf : ∀ r, (f r).id = r.id) :
    TypeTable where
  records := t.records.map f
  nodup := by simpa [List.map_map, Function.comp_def, hf] using t.nodup

/-- A record with its field list set, if it is the class with an id. -/
def adoptInto (id list : TypeId) : TypeRecord → TypeRecord
  | .classType c => .classType (if c.id = id then { c with fieldList := some list } else c)
  | r => r

theorem id_adoptInto (id list : TypeId) (r : TypeRecord) : (adoptInto id list r).id = r.id := by
  cases r with
  | classType c => simp only [adoptInto, TypeRecord.id]; split <;> rfl
  | _ => rfl

/-- Lets a class name a field list. -/
def adopt (t : TypeTable) (id list : TypeId) : TypeTable :=
  t.mapRecords (adoptInto id list) (id_adoptInto id list)

/-- A record with members merged in, if it is the field list with an id. -/
def mergeInto (id : TypeId) (members : List Member) : TypeRecord → TypeRecord
  | .fieldList l =>
    .fieldList (if l.id = id then { l with members := FieldList.merge l.members members } else l)
  | r => r

theorem id_mergeInto (id : TypeId) (members : List Member) (r : TypeRecord) :
    (mergeInto id members r).id = r.id := by
  cases r with
  | fieldList l => simp only [mergeInto, TypeRecord.id]; split <;> rfl
  | _ => rfl

/-- Merges members into a field list. -/
def mergeMembers (t : TypeTable) (id : TypeId) (members : List Member) : TypeTable :=
  t.mapRecords (mergeInto id members) (id_mergeInto id members)

/-! ## Reading the table -/

/-- Reads records up to the end of the section and adds them to a table. -/
def readFrom {σ : Type} [LineSource σ] (t : TypeTable) (s : σ) : Except Fault TypeTable :=
  match _hh : LineSource.nextRecord s with
  | (none, _) => .ok t
  | (some header, u) =>
    match _hr : (Record.read header).run u with
    | (.error e, _) => .error e
    | (.ok none, u') => readFrom t u'
    | (.ok (some r), u') =>
      match t.insert r (LineSource.line u) with
      | .error e => .error e
      | .ok t => readFrom t u'
termination_by LineSource.left s
decreasing_by
  all_goals
    have read := (Record.forward_read header u).left_le
    rw [_hr] at read
    exact Nat.lt_of_le_of_lt read (LineSource.left_nextRecord_lt _hh)

/-- The records of the `*** TYPES` section. -/
def ofDump (d : Dump) : Except Fault TypeTable := do
  readFrom empty (← d.seek .types)

/-! ## Laws of the changes -/

@[simp] theorem records_erase (t : TypeTable) (id : TypeId) :
    (t.erase id).records = t.records.filter fun r => r.id ≠ id := rfl

theorem records_insert {t u : TypeTable} {r : TypeRecord} {n : Nat} (h : t.insert r n = .ok u) :
    u.records = t.records ++ [r] := by
  unfold insert at h
  split at h
  · simp at h
  · obtain rfl := Except.ok.inj h
    rfl

theorem insert_eq_ok_iff {t : TypeTable} {r : TypeRecord} {n : Nat} :
    (∃ u, t.insert r n = .ok u) ↔ r.id ∉ t.records.map TypeRecord.id := by
  rw [← get?_eq_none_iff]
  unfold insert
  split
  next h => simp [h]
  next h => simp [h]

end TypeTable
end Lineage
