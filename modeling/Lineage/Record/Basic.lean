import Lineage.Record.Kind
import Lineage.TypeId

/-!
# Type records

Three kinds of records matter for the lineage of classes. A *class record* names
a class, as its definition or as a mere forward reference to one. A *field list*
holds the members of a class that are base classes or methods. A *member function*
is the type of a method and says which class it belongs to.
-/

namespace Lineage

/-- A class or structure. A forward reference declares the class without its members. -/
structure ClassRecord where
  id : TypeId
  /-- The name as the source spells it. -/
  display : Text
  /-- The name that is unique in the program. -/
  mangled : Text
  fieldList : Option TypeId
  isForward : Bool
deriving DecidableEq

/-- A member of a field list. -/
inductive Member where
  | base (id : TypeId)
  | method (name : Text) (id : TypeId) (isStatic : Bool)
deriving DecidableEq

namespace Member

/-- What a member is identified by when two lists are merged: a base class by its
type, a method by its name and type. Whether it is static does not matter. -/
def identity : Member → Option Text × TypeId
  | base id => (none, id)
  | method name id _ => (some name, id)

/-- Whether two members are the same one for the purpose of merging. -/
def sameAs (a b : Member) : Bool := a.identity == b.identity

/-- The class that a base member names. -/
def base? : Member → Option TypeId
  | base id => some id
  | method .. => none

/-- The name and type of a method that has an object. -/
def instanceMethod? : Member → Option (Text × TypeId)
  | method name id false => some (name, id)
  | _ => none

end Member

/-- The base classes and methods of a class, in dump order. -/
structure FieldList where
  id : TypeId
  members : List Member
deriving DecidableEq

namespace FieldList

/-- The base classes of a list of members. -/
def bases (members : List Member) : List TypeId := members.filterMap Member.base?

/-- Adds those members that are in the list neither before nor by then. -/
def merge (members others : List Member) : List Member :=
  others.foldl (fun ms m => if ms.any fun k => k.sameAs m then ms else ms ++ [m]) members

/-- Adds a member to a list that is counted as it grows, unless it is in the list. -/
def addNew (grown : List Member × Nat) (m : Member) : List Member × Nat :=
  if grown.1.any fun k => k.sameAs m then grown else (grown.1 ++ [m], grown.2 + 1)

/-- Merging with a count: the merged list, and how many members were added to it. -/
def union (members others : List Member) : List Member × Nat := others.foldl addNew (members, 0)

theorem merge_append (members others more : List Member) :
    merge members (others ++ more) = merge (merge members others) more := by
  simp [merge]

/-- Merging keeps what was there at the front. -/
theorem prefix_merge (members others : List Member) :
    members <+: merge members others := by
  induction others generalizing members with
  | nil => exact List.prefix_rfl
  | cons m others ih =>
    rw [merge, List.foldl_cons]
    refine List.IsPrefix.trans ?_ (ih _)
    split
    · exact List.prefix_rfl
    · exact List.prefix_append ..

end FieldList

/-- The type of a method. -/
structure MemberFunction where
  id : TypeId
  owner : TypeId
  this : Option TypeId
deriving DecidableEq

/-- A method without an object to be called on is static. -/
def MemberFunction.isStatic (f : MemberFunction) : Bool := f.this.isNone

/-- A record of the type table. -/
inductive TypeRecord where
  | classType (c : ClassRecord)
  | fieldList (l : FieldList)
  | memberFunction (f : MemberFunction)
deriving DecidableEq

namespace TypeRecord

/-- The number of a record. -/
def id : TypeRecord → TypeId
  | classType c => c.id
  | fieldList l => l.id
  | memberFunction f => f.id

/-- The kind of a record. -/
def kind : TypeRecord → RecordKind
  | classType _ => .classType
  | fieldList _ => .fieldList
  | memberFunction _ => .memberFunction

/-- The class record this is, if it is one. -/
def classType? : TypeRecord → Option ClassRecord
  | classType c => some c
  | _ => none

/-- The field list this is, if it is one. -/
def fieldList? : TypeRecord → Option FieldList
  | fieldList l => some l
  | _ => none

/-- The member function this is, if it is one. -/
def memberFunction? : TypeRecord → Option MemberFunction
  | memberFunction f => some f
  | _ => none

end TypeRecord
end Lineage
