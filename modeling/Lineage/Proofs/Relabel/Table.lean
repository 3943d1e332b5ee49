import Lineage.Proofs.Relabel.Containers
import Lineage.Symbol.Basic
import Lineage.TypeTable

/-!
# Type tables under new ids

The ids of a dump are labels: they say which record is meant and nothing else. A relabelling gives
every id another one and keeps different ids apart. It goes through a table record by record: a
record gets a new id, and so does every id that it mentions, be it of a base class, a field list, an
owner or the type of a method.

Whatever is asked of the table with a new id has the old answer, relabelled. There are three sorts
of such questions, and they are dealt with in this order: what one record says, which record has an
id, and which records of a kind there are. The order of the records is the same, as positions are
not labels.

Merging changes a table in three ways: a record is erased, a class takes over a field list, and
members are added to a list. Each change may be made before the relabelling or after it
(`TypeTable.erase_relabel`, `TypeTable.adopt_relabel`, `TypeTable.mergeMembers_relabel`).

Members are compared by their names and the ids they mention. Ids that differ before differ after,
and that is all that the comparison sees of them (`Member.sameAs_relabel`).
-/

namespace Lineage

/-- New ids for the old, different ones for different ones. -/
abbrev Relabelling := TypeId ↪ TypeId

variable (ρ : Relabelling)

/-! ## Records -/

/-- A class record under new ids. -/
def ClassRecord.relabel (c : ClassRecord) : ClassRecord :=
  { c with id := ρ c.id, fieldList := c.fieldList.map ρ }

/-- A member under new ids. -/
def Member.relabel : Member → Member
  | base id => base (ρ id)
  | method name id isStatic => method name (ρ id) isStatic

/-- A field list under new ids. -/
def FieldList.relabel (l : FieldList) : FieldList where
  id := ρ l.id
  members := l.members.map (Member.relabel ρ)

/-- A member function under new ids. -/
def MemberFunction.relabel (f : MemberFunction) : MemberFunction where
  id := ρ f.id
  owner := ρ f.owner
  this := f.this.map ρ

/-- A type record under new ids. -/
def TypeRecord.relabel : TypeRecord → TypeRecord
  | classType c => classType (c.relabel ρ)
  | fieldList l => fieldList (l.relabel ρ)
  | memberFunction f => memberFunction (f.relabel ρ)

/-- A procedure under new ids. -/
def Procedure.relabel (p : Procedure) : Procedure := { p with type := p.type.map ρ }

namespace Member

/-- Members are compared by their names and the ids they mention, and ids that differ still do. -/
@[simp] theorem sameAs_relabel (a b : Member) :
    (a.relabel ρ).sameAs (b.relabel ρ) = a.sameAs b := by
  rw [Bool.eq_iff_iff, sameAs, sameAs, beq_iff_eq, beq_iff_eq]
  cases a <;> cases b <;> simp [relabel, identity]

/-- A base class is one still, and so is a method. -/
@[simp] theorem base?_relabel (m : Member) : (m.relabel ρ).base? = m.base?.map ρ := by
  cases m <;> rfl

/-- The name of a method stays, and so does whether it is static. -/
@[simp] theorem instanceMethod?_relabel (m : Member) :
    (m.relabel ρ).instanceMethod? = m.instanceMethod?.map fun e => (e.1, ρ e.2) := by
  cases m with
  | base id => rfl
  | method name id isStatic => cases isStatic <;> rfl

end Member

namespace FieldList

/-- The base classes of a list of members, in its order. -/
@[simp] theorem bases_relabel (members : List Member) :
    bases (members.map (Member.relabel ρ)) = (bases members).map ρ := by
  simp [bases, List.filterMap_map, List.map_filterMap]

/-- The members that one list adds to another are those that it added before. -/
@[simp] theorem merge_relabel (members others : List Member) :
    merge (members.map (Member.relabel ρ)) (others.map (Member.relabel ρ)) =
      (merge members others).map (Member.relabel ρ) := by
  refine foldl_map_of_hom (fun members m => ?_) others rfl
  simp only [List.any_map, Function.comp_def, Member.sameAs_relabel]
  split
  next => rfl
  next => rw [List.map_append, List.map_singleton]

end FieldList

namespace TypeRecord

/-- A record is found at its new id. -/
@[simp] theorem id_relabel (r : TypeRecord) : (r.relabel ρ).id = ρ r.id := by
  cases r <;> rfl

/-- A record of a class stays one, and no other becomes one. -/
@[simp] theorem classType?_relabel (r : TypeRecord) :
    (r.relabel ρ).classType? = r.classType?.map (ClassRecord.relabel ρ) := by
  cases r <;> rfl

/-- A field list stays one, and no other record becomes one. -/
@[simp] theorem fieldList?_relabel (r : TypeRecord) :
    (r.relabel ρ).fieldList? = r.fieldList?.map (FieldList.relabel ρ) := by
  cases r <;> rfl

/-- A member function stays one, and no other record becomes one. -/
@[simp] theorem memberFunction?_relabel (r : TypeRecord) :
    (r.relabel ρ).memberFunction? = r.memberFunction?.map (MemberFunction.relabel ρ) := by
  cases r <;> rfl

end TypeRecord

/-! ## Tables -/

namespace TypeTable

/-- A table under new ids. -/
def relabel (t : TypeTable) : TypeTable where
  records := t.records.map (TypeRecord.relabel ρ)
  nodup := by
    have nodup := t.nodup.map ρ.injective
    simpa [List.map_map, Function.comp_def] using nodup

variable (t : TypeTable)

@[simp] theorem records_relabel : (t.relabel ρ).records = t.records.map (TypeRecord.relabel ρ) :=
  rfl

/-- The record of a new id is that of the old one. Only records of the table are compared, so an id
that no record has is not found under its new name either. -/
@[simp] theorem get?_relabel (id : TypeId) :
    (t.relabel ρ).get? (ρ id) = (t.get? id).map (TypeRecord.relabel ρ) := by
  simp only [get?, records_relabel, List.find?_map, Function.comp_def,
    TypeRecord.id_relabel, EmbeddingLike.apply_eq_iff_eq]

@[simp] theorem classRecord?_relabel (id : TypeId) :
    (t.relabel ρ).classRecord? (ρ id) = (t.classRecord? id).map (ClassRecord.relabel ρ) := by
  rw [classRecord?, classRecord?, get?_relabel]
  cases t.get? id with
  | none => rfl
  | some r => exact TypeRecord.classType?_relabel ρ r

/-- Whether a class is a forward reference is not a matter of ids. -/
@[simp] theorem realClass?_relabel (id : TypeId) :
    (t.relabel ρ).realClass? (ρ id) = (t.realClass? id).map (ClassRecord.relabel ρ) := by
  rw [realClass?, realClass?, classRecord?_relabel, Option.filter_map]
  rfl

@[simp] theorem fieldList?_relabel (id : TypeId) :
    (t.relabel ρ).fieldList? (ρ id) = (t.fieldList? id).map (FieldList.relabel ρ) := by
  rw [fieldList?, fieldList?, get?_relabel]
  cases t.get? id with
  | none => rfl
  | some r => exact TypeRecord.fieldList?_relabel ρ r

@[simp] theorem memberFunction?_relabel (id : TypeId) :
    (t.relabel ρ).memberFunction? (ρ id) =
      (t.memberFunction? id).map (MemberFunction.relabel ρ) := by
  rw [memberFunction?, memberFunction?, get?_relabel]
  cases t.get? id with
  | none => rfl
  | some r => exact TypeRecord.memberFunction?_relabel ρ r

/-- The members of a class are found through the id of its list, which is a new one on both sides.
-/
@[simp] theorem membersOf_relabel (c : ClassRecord) :
    (t.relabel ρ).membersOf (c.relabel ρ) = (t.membersOf c).map (Member.relabel ρ) := by
  have lists : (t.relabel ρ).fieldListOf? (c.relabel ρ) =
      (t.fieldListOf? c).map (FieldList.relabel ρ) := by
    rw [fieldListOf?, fieldListOf?, ClassRecord.relabel]
    cases c.fieldList with
    | none => rfl
    | some list => exact fieldList?_relabel ρ t list
  rw [membersOf, membersOf, lists]
  cases t.fieldListOf? c <;> rfl

/-- The classes stand in the order in which they stood before. -/
@[simp] theorem classes_relabel :
    (t.relabel ρ).classes = t.classes.map (ClassRecord.relabel ρ) := by
  simp [classes, List.filterMap_map, List.map_filterMap]

@[simp] theorem realClasses_relabel :
    (t.relabel ρ).realClasses = t.realClasses.map (ClassRecord.relabel ρ) := by
  rw [realClasses, realClasses, classes_relabel, List.filter_map]
  rfl

/-- The forward references stand in the order in which they stood before. -/
@[simp] theorem forwardRefs_relabel :
    (t.relabel ρ).forwardRefs = t.forwardRefs.map (ClassRecord.relabel ρ) := by
  rw [forwardRefs, forwardRefs, classes_relabel, List.filter_map]
  rfl

/-! ## Changes -/

/-- Erasing a new id erases one record and no other. -/
@[simp] theorem erase_relabel (id : TypeId) :
    (t.relabel ρ).erase (ρ id) = (t.erase id).relabel ρ := by
  apply ext
  simp [List.filter_map, Function.comp_def]

/-- A change of the records may be made before the relabelling or after it. -/
theorem mapRecords_relabel {f g : TypeRecord → TypeRecord} (hf : ∀ r, (f r).id = r.id)
    (hg : ∀ r, (g r).id = r.id) (h : ∀ r, g (r.relabel ρ) = (f r).relabel ρ) :
    (t.relabel ρ).mapRecords g hg = (t.mapRecords f hf).relabel ρ := by
  apply ext
  simp [mapRecords, List.map_map, Function.comp_def, h]

/-- The class that takes over the list is the one with the new id. -/
@[simp] theorem adopt_relabel (id list : TypeId) :
    (t.relabel ρ).adopt (ρ id) (ρ list) = (t.adopt id list).relabel ρ := by
  refine mapRecords_relabel ρ t _ _ fun r => ?_
  cases r with
  | classType c =>
    simp only [adoptInto, TypeRecord.relabel, ClassRecord.relabel, ρ.injective.eq_iff]
    split <;> rfl
  | fieldList l => rfl
  | memberFunction f => rfl

/-- The list that gets the members is the one with the new id. -/
@[simp] theorem mergeMembers_relabel (id : TypeId) (members : List Member) :
    (t.relabel ρ).mergeMembers (ρ id) (members.map (Member.relabel ρ)) =
      (t.mergeMembers id members).relabel ρ := by
  refine mapRecords_relabel ρ t _ _ fun r => ?_
  cases r with
  | classType c => rfl
  | fieldList l =>
    simp only [mergeInto, TypeRecord.relabel, FieldList.relabel, ρ.injective.eq_iff,
      FieldList.merge_relabel]
    split <;> rfl
  | memberFunction f => rfl

end TypeTable
end Lineage
