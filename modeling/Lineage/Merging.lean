import Lineage.Resolution

/-!
# Merging repeated definitions

A class that several units use is defined once in each of them, and a dump lists
all those definitions. Definitions with one display name are taken for the same class: the
first in dump order is kept, and each later one, the *duplicate*, is folded into it. That
is three steps.

* The members of the duplicate go to the kept class. If the kept class has no field
  list it adopts the other one; if both have one, what is new is merged into the kept list.
* The duplicate leaves the table, and so does its field list unless a class still
  names it.
* Whatever was resolved to the duplicate is resolved to the kept class.

The last step is one renaming of ids, `renamed`, applied all over the resolution. A
class may come to derive from itself by it; such an edge says nothing and is dropped.
-/

namespace Lineage

/-- What a merge has done: each removed class with the one it was folded into, and
how many members were added and field lists removed on the way. -/
structure MergeReport where
  merged : OrderedMap TypeId TypeId
  membersAdded : Nat
  listsRemoved : Nat
deriving DecidableEq

namespace MergeReport

/-- The report of a merge that found no duplicates. -/
def empty : MergeReport := ⟨∅, 0, 0⟩

/-- Whether there were no duplicates. -/
def isEmpty (r : MergeReport) : Bool := r.merged.isEmpty

/-- The report in words. -/
def text (r : MergeReport) : Text :=
  Text.decimal r.merged.size ++ " duplicates merged, ".toList
    ++ Text.decimal r.membersAdded ++ " field-list entries added, ".toList
    ++ Text.decimal r.listsRemoved ++ " field lists removed".toList

end MergeReport

namespace Merging

/-- A type table on its way, with its resolution and the report so far. -/
structure State where
  table : TypeTable
  resolution : Resolution
  report : MergeReport
deriving DecidableEq

/-! ## Members -/

/-- Gives the members of a removed class to the kept one. The number is that of the
members that were new. -/
def giveMembers (t : TypeTable) (kept : TypeId) (removed : ClassRecord) : TypeTable × Nat :=
  match removed.fieldList, (t.classRecord? kept).bind ClassRecord.fieldList with
  | none, _ => (t, 0)
  | some source, none => (t.adopt kept source, 0)
  | some source, some target =>
    -- Two definitions that name one list share its members already.
    if target = source then (t, 0)
    else
      match t.fieldList? source, t.fieldList? target with
      | some given, some old =>
        (t.mergeMembers target given.members,
          (FieldList.merge old.members given.members).length - old.members.length)
      -- A list without members of interest is not in the table.
      | _, _ => (t, 0)

/-- Removes the field list of a removed class unless a class still names it. The number
is that of the records removed. -/
def dropOrphan (t : TypeTable) (removed : ClassRecord) : TypeTable × Nat :=
  match removed.fieldList with
  | none => (t, 0)
  | some list =>
    if t.classes.any fun c => c.fieldList = some list then (t, 0)
    else if (t.get? list).isSome then (t.erase list, 1)
    else (t, 0)

/-! ## The resolution -/

/-- What an id is called once the duplicate goes by the name of the kept class. -/
def renamed (kept duplicate id : TypeId) : TypeId := if id = duplicate then kept else id

/-- Gives the base classes of the duplicate to the kept class. -/
def giveBases (kept duplicate : TypeId) (bases : OrderedMap TypeId (OrderedSet TypeId)) :
    OrderedMap TypeId (OrderedSet TypeId) :=
  match bases.get? duplicate with
  | some given =>
    (bases.erase duplicate).upsert kept fun own => (own.getD ∅).insertMany given.elements
  | none => bases

/-- The base classes of a class after the renaming, in order of declaration. A class
that had the duplicate among them loses itself. -/
def renameBases (kept duplicate id : TypeId) (bases : OrderedSet TypeId) : OrderedSet TypeId :=
  if duplicate ∈ bases then
    .ofList ((bases.elements.map (renamed kept duplicate)).filter fun base => base ≠ id)
  else bases

/-- All base classes after the renaming. The kept class does not derive from itself. -/
def mergeBases (kept duplicate : TypeId) (bases : OrderedMap TypeId (OrderedSet TypeId)) :
    OrderedMap TypeId (OrderedSet TypeId) :=
  (giveBases kept duplicate bases).map fun id bases =>
    let bases := renameBases kept duplicate id bases
    if id = kept then bases.erase kept else bases

/-- The positions of two lists in ascending order, those of the second only where they
are new. -/
def mergePositions (own given : List Nat) : List Nat :=
  (given.foldl (fun ps p => if p ∈ ps then ps else ps ++ [p]) own).mergeSort (· ≤ ·)

/-- All procedures after the renaming. -/
def mergeProcedures (kept duplicate : TypeId) (owned : OrderedMap TypeId (List Nat)) :
    OrderedMap TypeId (List Nat) :=
  match owned.get? duplicate with
  | some given =>
    (owned.erase duplicate).upsert kept fun own => mergePositions (own.getD []) given
  | none => owned

/-- The resolution with the duplicate folded into the kept class. -/
def rename (kept duplicate : TypeId) (r : Resolution) : Resolution where
  names := r.names.map fun _ id => renamed kept duplicate id
  references := r.references.map fun _ id => renamed kept duplicate id
  bases := mergeBases kept duplicate r.bases
  procedures := mergeProcedures kept duplicate r.procedures

/-! ## All duplicates -/

/-- Folds one duplicate into the class that is kept. -/
def fold (kept : TypeId) (s : State) (duplicate : TypeId) : State :=
  match s.table.classRecord? duplicate with
  | none => s
  | some removed =>
    -- The members move before the duplicate goes, since its list may go with it.
    let (table, added) := giveMembers s.table kept removed
    let (table, dropped) := dropOrphan (table.erase duplicate) removed
    { table
      resolution := rename kept duplicate s.resolution
      report :=
        { merged := s.report.merged.insert duplicate kept
          membersAdded := s.report.membersAdded + added
          listsRemoved := s.report.listsRemoved + dropped } }

/-- The definitions of each display name, in table order. -/
def byDisplayName (t : TypeTable) : OrderedMap Text (List TypeId) :=
  t.realClasses.foldl
    (fun groups c => groups.upsert c.display fun ids => ids.getD [] ++ [c.id]) ∅

/-- Folds all definitions of a group into the first. -/
def foldGroup (s : State) : List TypeId → State
  | [] => s
  | kept :: duplicates => duplicates.foldl (fold kept) s

/-- Merges all repeated definitions. -/
def run (table : TypeTable) (resolution : Resolution) : State :=
  (byDisplayName table).values.foldl foldGroup ⟨table, resolution, .empty⟩

end Merging
end Lineage
