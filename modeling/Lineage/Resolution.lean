import Lineage.Ordered.Map
import Lineage.Ordered.Set
import Lineage.Symbol.Basic
import Lineage.TypeTable

/-!
# Resolution

Records refer to each other by id, and often to a mere declaration of a class.
Resolution binds each forward reference to the definition that has its mangled name,
and then says of every defined class which defined classes it derives from and which
procedures are its methods.

Several definitions may have one mangled name, since a class is compiled into every unit
that uses it. The first in dump order stands for all of them here; the
rest are folded into it later. A forward reference without a definition is a fault, and
so is a base class that is no class. A procedure whose type names no class is
just a free function.
-/

namespace Lineage

/-- What the ids of a type table refer to. Procedures are meant by their position. -/
structure Resolution where
  /-- The definition that each mangled name stands for. -/
  names : OrderedMap Text TypeId
  /-- The definition of each forward reference. -/
  references : OrderedMap TypeId TypeId
  /-- The definitions that each definition derives from. -/
  bases : OrderedMap TypeId (OrderedSet TypeId)
  /-- The procedures that belong to each definition. -/
  procedures : OrderedMap TypeId (List Nat)
deriving DecidableEq

namespace Resolution

/-- The resolution of an empty table. -/
def empty : Resolution := ⟨∅, ∅, ∅, ∅⟩

/-- The base classes of a class. -/
def basesOf (r : Resolution) (id : TypeId) : OrderedSet TypeId := (r.bases.get? id).getD ∅

/-- The procedures of a class. -/
def proceduresOf (r : Resolution) (id : TypeId) : List Nat := (r.procedures.get? id).getD []

/-! ## The four passes -/

/-- Mangled names with the first definition that has each. -/
def nameTable (t : TypeTable) : OrderedMap Text TypeId :=
  t.realClasses.foldl (fun names c => names.insertIfNew c.mangled c.id) ∅

/-- Binds one forward reference. -/
def bindReference (names : OrderedMap Text TypeId) (refs : OrderedMap TypeId TypeId)
    (c : ClassRecord) : Except Fault (OrderedMap TypeId TypeId) :=
  match names.get? c.mangled with
  | some target => .ok (refs.insert c.id target)
  | none => .error (.unresolvedForward c.id c.mangled)

/-- The definition of every forward reference. -/
def bindReferences (t : TypeTable) (names : OrderedMap Text TypeId) :
    Except Fault (OrderedMap TypeId TypeId) :=
  t.forwardRefs.foldlM (bindReference names) ∅

/-- The definition that an id means, through a forward reference or directly. -/
def classOf? (t : TypeTable) (refs : OrderedMap TypeId TypeId) (id : TypeId) : Option TypeId :=
  refs.get? id <|> (t.realClass? id).map ClassRecord.id

/-- Adds the definition that a base class means. -/
def addBase (t : TypeTable) (refs : OrderedMap TypeId TypeId) (c : ClassRecord)
    (bases : OrderedSet TypeId) (base : TypeId) : Except Fault (OrderedSet TypeId) :=
  match classOf? t refs base with
  | some target => .ok (bases.insert target)
  | none => .error (.unresolvedBase c.display base)

/-- The definitions that a class derives from. -/
def baseSet (t : TypeTable) (refs : OrderedMap TypeId TypeId) (c : ClassRecord) :
    Except Fault (OrderedSet TypeId) :=
  (FieldList.bases (t.membersOf c)).foldlM (addBase t refs c) ∅

/-- Adds a class with its base classes. -/
def addBaseSet (t : TypeTable) (refs : OrderedMap TypeId TypeId)
    (bases : OrderedMap TypeId (OrderedSet TypeId)) (c : ClassRecord) :
    Except Fault (OrderedMap TypeId (OrderedSet TypeId)) := do
  return bases.insert c.id (← baseSet t refs c)

/-- The base classes of every definition. -/
def baseClasses (t : TypeTable) (refs : OrderedMap TypeId TypeId) :
    Except Fault (OrderedMap TypeId (OrderedSet TypeId)) :=
  t.realClasses.foldlM (addBaseSet t refs) ∅

/-- The definition that a procedure is a method of. -/
def ownerOf? (t : TypeTable) (refs : OrderedMap TypeId TypeId) (p : Procedure) :
    Option TypeId := do
  let function ← t.memberFunction? (← p.type)
  classOf? t refs function.owner

/-- Attaches a procedure to the class it belongs to, if it belongs to one. -/
def attach (t : TypeTable) (refs : OrderedMap TypeId TypeId)
    (owned : OrderedMap TypeId (List Nat)) (p : Procedure × Nat) : OrderedMap TypeId (List Nat) :=
  match ownerOf? t refs p.1 with
  | some id => owned.upsert id fun positions => positions.getD [] ++ [p.2]
  | none => owned

/-- The procedures of every class that has any. -/
def correlate (t : TypeTable) (refs : OrderedMap TypeId TypeId) (procedures : List Procedure) :
    OrderedMap TypeId (List Nat) :=
  procedures.zipIdx.foldl (attach t refs) ∅

/-- The resolution of a type table and the procedures of the program. -/
def ofTable (t : TypeTable) (procedures : List Procedure) : Except Fault Resolution := do
  let names := nameTable t
  let references ← bindReferences t names
  let bases ← baseClasses t references
  return { names, references, bases, procedures := correlate t references procedures }

end Resolution
end Lineage
