import Lineage.Ordered.Map
import Lineage.Symbol.Basic
import Lineage.Symbol.Mangled

/-!
# Public symbols by scope and name

An index groups the addresses of public symbols by the scope and the name that their mangled
names spell. Overloads of a method share both, so a group may hold several addresses; only
a group of one says where a method is.
-/

namespace Lineage.Symbol

/-- The addresses of public symbols by scope and then by name. -/
structure PublicIndex where
  scopes : OrderedMap Text (OrderedMap Text (List Address))

namespace PublicIndex

/-- The index of no symbols. -/
def empty : PublicIndex := ⟨∅⟩

/-- Adds the address of a member. -/
def add (index : PublicIndex) (member : Mangled.ScopedMember) (address : Address) : PublicIndex :=
  ⟨index.scopes.upsert member.scope fun names =>
    (names.getD ∅).upsert member.name fun addresses => addresses.getD [] ++ [address]⟩

/-- Adds a symbol, unless its name spells no member of a class. -/
def addSymbol (index : PublicIndex) (s : PublicSymbol) : PublicIndex :=
  match Mangled.member? s.mangled with
  | some member => index.add member s.address
  | none => index

/-- The index of a list of symbols. -/
def ofList (publics : List PublicSymbol) : PublicIndex := publics.foldl addSymbol empty

/-- All addresses of a name in a scope, in the order of the symbols. -/
def addresses (index : PublicIndex) (scope name : Text) : List Address :=
  (((index.scopes.get? scope).getD ∅).get? name).getD []

/-- The address of a name in a scope, if it has exactly one. -/
def uniqueAddress? (index : PublicIndex) (scope name : Text) : Option Address :=
  match index.addresses scope name with
  | [address] => some address
  | _ => none

/-- The number of scopes. -/
def scopeCount (index : PublicIndex) : Nat := index.scopes.size

/-- Whether the index holds no symbol. -/
def isEmpty (index : PublicIndex) : Bool := index.scopes.isEmpty

/-- Adding an address adds it to its own group and to no other. -/
theorem addresses_add (index : PublicIndex) (member : Mangled.ScopedMember) (address : Address)
    (scope name : Text) :
    (index.add member address).addresses scope name =
      index.addresses scope name ++
        if scope = member.scope ∧ name = member.name then [address] else [] := by
  simp only [addresses, add, OrderedMap.get?_upsert]
  by_cases hs : scope = member.scope
  · subst hs
    simp only [if_true, Option.getD_some, OrderedMap.get?_upsert]
    by_cases hn : name = member.name <;> simp [hn]
  · simp [hs]

end PublicIndex
end Lineage.Symbol
