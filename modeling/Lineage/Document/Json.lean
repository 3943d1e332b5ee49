import Lineage.Document
import Lineage.Json.Writer

/-!
# The document as JSON

A document is one JSON object with the mangled names as keys; each class is an object with
its name, its base classes and, once more as an object, its methods by address.

Reading is more liberal than writing, by the rules for structures: a class or a method may
also be an array of its fields, and a class may have further fields. Where the keys are
data, that is for classes and for addresses, a repeated key keeps its first place and has its
last value.
-/

namespace Lineage

open Json (Value)

/-! ## Writing -/

/-- A method as an object with its name and kind. -/
def MethodEntry.toJson (m : MethodEntry) : Value :=
  .object [
    (some "name".toList, .ofText m.name),
    (some "kind".toList, .ofText m.kind.name)]

/-- A class as an object with its name, its base classes and its methods by address. -/
def ClassEntry.toJson (c : ClassEntry) : Value :=
  .object [
    (some "demangled_name".toList, .ofText c.demangled),
    (some "base_classes".toList, .array (c.bases.map .ofText)),
    (some "methods".toList, .object (c.methods.entries.map fun (key, m) => (some key, m.toJson)))]

namespace Document

/-- A document as an object with its classes by mangled name. -/
def toJson (d : Document) : Value :=
  .object (d.entries.map fun (key, c) => (some key, c.toJson))

/-- The document as text, on one line or spread out. -/
def text (isPretty : Bool) (d : Document) : Text :=
  d.toJson.text (if isPretty then .pretty else .compact)

end Document

/-! ## Reading -/

/-- The kind of a method by its name. -/
def MethodKind.ofName? (name : Text) : Option MethodKind :=
  [.constructor, .destructor, .method].find? fun kind => kind.name == name

/-- A kind is written as its name, or as an object with the name as its only key and nothing
as its value. -/
def MethodKind.ofJson? : Value → Option MethodKind
  | .string text => text.bind ofName?
  | .object [(key, .null)] => key.bind ofName?
  | _ => none

/-- The method that a value describes. Name and kind must both be there. -/
def MethodEntry.ofJson? (v : Value) : Option MethodEntry := do
  match ← v.fields? ["name".toList, "kind".toList] with
  | [some name, some kind] => return { name := ← name.text?, kind := ← MethodKind.ofJson? kind }
  | _ => none

/-- The entries of an object as a map. -/
def mapOfJson? {α : Type} (item? : Value → Option α) (v : Value) :
    Option (OrderedMap Text α) := do
  let entries ← (← v.entries?).mapM fun (key, v) => (item? v).map fun a => (key, a)
  return .ofList entries

/-- The class that a value describes. All three fields must be there. -/
def ClassEntry.ofJson? (v : Value) : Option ClassEntry := do
  match ← v.fields? ["demangled_name".toList, "base_classes".toList, "methods".toList] with
  | [some demangled, some bases, some methods] =>
    return {
      demangled := ← demangled.text?
      bases := ← (← bases.items?).mapM Value.text?
      methods := ← mapOfJson? MethodEntry.ofJson? methods }
  | _ => none

namespace Document

/-- The document that a value describes. -/
def ofJson? (v : Value) : Option Document := mapOfJson? ClassEntry.ofJson? v

/-- The document that a text spells. -/
def read? (s : Text) : Option Document := (Value.read? s).bind ofJson?

end Document
end Lineage
