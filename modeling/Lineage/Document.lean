import Lineage.Assembly

/-!
# The document

The result of a recovery is a document: for each class, by its mangled name, the name it is
written with, the mangled names of its base classes, and its methods by address.
Everything stands in the order of the dump.

Methods without an address are not in it. Of several methods at one address, such as
those a linker has folded together, the first is.
-/

namespace Lineage

/-- A method in the document. -/
structure MethodEntry where
  name : Text
  kind : MethodKind
deriving DecidableEq

/-- A class in the document. The keys of its methods are addresses. -/
structure ClassEntry where
  demangled : Text
  bases : List Text
  methods : OrderedMap Text MethodEntry
deriving DecidableEq

/-- The classes by mangled name. -/
abbrev Document := OrderedMap Text ClassEntry

namespace Document

/-- Adds a method at its address, unless it has none or another one is there. -/
def addMethod (methods : OrderedMap Text MethodEntry) (m : Method) : OrderedMap Text MethodEntry :=
  match m.placement with
  | some placement => methods.insertIfNew placement.address.text ⟨m.name, m.kind⟩
  | none => methods

/-- The mangled name of the class with an id. -/
def mangledName? (classes : List AssembledClass) (id : TypeId) : Option Text :=
  (classes.find? fun c => c.record.id = id).map fun c => c.record.mangled

/-- The entry of a class among all classes. -/
def entry (classes : List AssembledClass) (c : AssembledClass) : ClassEntry where
  demangled := c.record.display
  bases := c.bases.elements.filterMap (mangledName? classes)
  methods := c.methods.foldl addMethod ∅

/-- The document of a result. -/
def ofClasses (classes : List AssembledClass) : Document :=
  classes.foldl (fun document c => document.insert c.record.mangled (entry classes c)) ∅

end Document
end Lineage
