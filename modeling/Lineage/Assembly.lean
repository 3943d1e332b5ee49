import Lineage.QualifiedName
import Lineage.Resolution
import Lineage.Symbol.PublicIndex

/-!
# Assembling the classes

Every class that is left after merging becomes one class of the result: its record,
its base classes, and its methods with what is known of their addresses. Static methods
are left out.

The address of a method is that of the first procedure of its class with the method's type
and, as its last component, the method's name. Failing that, a public symbol may
tell, but it says nothing of types: it counts only if the class declares the name once
and the symbols have the name in that scope once.

A result has to be closed and its names distinct. Each base class has to be one of the
assembled classes, and no two of them may share a mangled name.
-/

namespace Lineage

/-- What kind of symbol gave an address. -/
inductive AddressSource where
  | procedure
  | publicSymbol
deriving DecidableEq

/-- An address with the kind of symbol it comes from. -/
structure Placement where
  address : Address
  source : AddressSource
deriving DecidableEq

/-- A method of an assembled class. -/
structure Method where
  name : Text
  type : TypeId
  kind : MethodKind
  placement : Option Placement
deriving DecidableEq

/-- A class of the result. -/
structure AssembledClass where
  record : ClassRecord
  bases : OrderedSet TypeId
  methods : List Method
deriving DecidableEq

namespace Assembly

/-! ## Addresses -/

/-- The address of the first procedure of a class with a name and type. -/
def procedureAddress? (r : Resolution) (procedures : List Procedure) (owner : TypeId) (name : Text)
    (type : TypeId) : Option Address :=
  let owned := (r.proceduresOf owner).filterMap fun position => procedures[position]?
  (owned.find? fun p => p.type = some type && QualifiedName.lastComponent p.name == name).map
    Procedure.address

/-- The address of the only public symbol of a class with a name. -/
def publicAddress? (index : Option Symbol.PublicIndex) (c : ClassRecord) (name : Text) :
    Option Address := do
  (← index).uniqueAddress? (← Mangled.classScope? c.mangled) name

/-- Where a method is. `declared` are all methods of its class that are assembled. -/
def placement? (r : Resolution) (procedures : List Procedure)
    (index : Option Symbol.PublicIndex) (c : ClassRecord) (declared : List (Text × TypeId))
    (name : Text) (type : TypeId) : Option Placement :=
  match procedureAddress? r procedures c.id name type with
  | some address => some ⟨address, .procedure⟩
  | none =>
    -- A public symbol says nothing of types, so overloads leave the method without one.
    if (declared.filter fun m => m.1 == name).length = 1 then
      (publicAddress? index c name).map fun address => ⟨address, .publicSymbol⟩
    else none

/-! ## Classes -/

/-- The methods of a class that have an object, with their types. -/
def declaredMethods (t : TypeTable) (c : ClassRecord) : List (Text × TypeId) :=
  (t.membersOf c).filterMap Member.instanceMethod?

/-- One class of the result. -/
def assembleClass (t : TypeTable) (r : Resolution) (procedures : List Procedure)
    (index : Option Symbol.PublicIndex) (c : ClassRecord) : AssembledClass :=
  let declared := declaredMethods t c
  { record := c
    bases := r.basesOf c.id
    methods := declared.map fun (name, type) =>
      { name, type
        kind := QualifiedName.methodKind c.display name
        placement := placement? r procedures index c declared name type } }

/-! ## Checks on the result -/

/-- The base class of a class that is not among the known ones. -/
def danglingBase? (known : List TypeId) (c : AssembledClass) : Option TypeId :=
  c.bases.elements.find? fun base => base ∉ known

/-- Refuses a result in which a base class is missing. -/
def checkClosed (classes : List AssembledClass) : Except Fault Unit :=
  let known := classes.map fun c => c.record.id
  match classes.findSome? fun c => (danglingBase? known c).map fun base => (c, base) with
  | some (c, base) => .error (.danglingBase c.record.display base)
  | none => .ok ()

/-- Refuses a result in which a class has the mangled name of one in `earlier`,
where the class that had a name last stands first. -/
def checkNamesAfter (earlier : List ClassRecord) : List AssembledClass → Except Fault Unit
  | [] => .ok ()
  | c :: classes =>
    match earlier.find? fun d => d.mangled == c.record.mangled with
    | some d => .error (.sharedName c.record.mangled d.id c.record.id)
    | none => checkNamesAfter (c.record :: earlier) classes

/-- Refuses a result in which two classes share a mangled name. -/
def checkNames (classes : List AssembledClass) : Except Fault Unit := checkNamesAfter [] classes

/-- All classes of the result. -/
def assemble (t : TypeTable) (r : Resolution) (procedures : List Procedure)
    (index : Option Symbol.PublicIndex) : Except Fault (List AssembledClass) := do
  let classes := t.realClasses.map (assembleClass t r procedures index)
  checkClosed classes
  checkNames classes
  return classes

/-! ## Figures -/

/-- How many classes and methods there are, and where the addresses come from. -/
structure Stats where
  classes : Nat
  methods : Nat
  fromProcedures : Nat
  fromPublics : Nat
deriving DecidableEq

/-- The number of methods with an address from one kind of symbol. -/
def countFrom (source : AddressSource) (methods : List Method) : Nat :=
  methods.countP fun m => m.placement.any fun p => p.source == source

/-- The figures of a result. -/
def stats (classes : List AssembledClass) : Stats :=
  let methods := classes.flatMap AssembledClass.methods
  { classes := classes.length
    methods := methods.length
    fromProcedures := countFrom .procedure methods
    fromPublics := countFrom .publicSymbol methods }

/-- The number of methods without an address. -/
def Stats.unaddressed (s : Stats) : Nat := s.methods - s.fromProcedures - s.fromPublics

end Assembly

/-- The methods of a class that have an address. -/
def AssembledClass.placedMethods (c : AssembledClass) : List Method :=
  c.methods.filter fun m => m.placement.isSome

end Lineage
