import Lineage.Dump.Basic
import Lineage.Files
import Lineage.Record.Kind
import Lineage.TypeId

/-!
# Faults

Everything that can stop a recovery, by cause. A fault belongs to the stage of
the work that can raise it, and its wording is one function of the cause, so
no other definition handles error text.

A fault of the grammar shows the line it was found on without the white space
around it; `Fault.expecting` is the way to build one.
-/

namespace Lineage

/-- The stages of a recovery, in the order in which they run. -/
inductive Stage where
  | scan
  | parse
  | resolve
  | dedup
  | assemble
deriving DecidableEq

/-- The name of a stage. -/
def Stage.name : Stage → Text
  | scan => "scan".toList
  | parse => "parse".toList
  | resolve => "resolve".toList
  | dedup => "dedup".toList
  | assemble => "assemble".toList

/-- Why a recovery stopped. -/
inductive Fault where
  /-- The dump could not be read at all. -/
  | unreadable (path : Text) (problem : FileProblem)
  /-- A section that is needed is not in the dump. -/
  | sectionMissing (part : Dump.Section)
  /-- A line does not hold what its record needs there. -/
  | unexpected (marker : Text) (lineNumber : Nat) (line : Text)
  /-- A record ends before it is complete. -/
  | truncated (kind : RecordKind) (lineNumber : Nat)
  /-- A declared class is defined nowhere. -/
  | unresolvedForward (id : TypeId) (mangled : Text)
  /-- A base class of a class is no class. -/
  | unresolvedBase (className : Text) (base : TypeId)
  /-- A base class of a class did not make it into the result. -/
  | danglingBase (className : Text) (base : TypeId)
  /-- Two classes of the result go by one mangled name. -/
  | sharedName (mangled : Text) (first second : TypeId)
deriving DecidableEq

namespace Fault

/-- The fault of a line that does not hold what was expected there. -/
def expecting (marker : Text) (lineNumber : Nat) (line : Text) : Fault :=
  .unexpected marker lineNumber line.trim

/-- The stage that raises a fault. -/
def stage : Fault → Stage
  | unreadable .. | sectionMissing .. => .scan
  | unexpected .. | truncated .. => .parse
  | unresolvedForward .. | unresolvedBase .. => .resolve
  | danglingBase .. | sharedName .. => .assemble

/-- The fault in words. -/
def message : Fault → Text
  | unreadable path problem =>
    "cannot read ".toList ++ path ++ ": ".toList ++ problem.message
  | sectionMissing part =>
    "section banner `".toList ++ part.banner ++ "` not found".toList
  | unexpected marker lineNumber line =>
    "expected `".toList ++ marker ++ "` at line ".toList ++ Text.decimal lineNumber
      ++ ": ".toList ++ line
  | truncated kind lineNumber =>
    kind.name ++ " record truncated at line ".toList ++ Text.decimal lineNumber
  | unresolvedForward id mangled =>
    "forward reference ".toList ++ id.text ++ " to `".toList ++ mangled
      ++ "` has no definition".toList
  | unresolvedBase className base =>
    "class `".toList ++ className ++ "` names base class ".toList ++ base.text
      ++ " which is not a resolvable class".toList
  | danglingBase className base =>
    "class `".toList ++ className ++ "` references base ".toList ++ base.text
      ++ " missing from the result".toList
  | sharedName mangled first second =>
    "classes ".toList ++ first.text ++ " and ".toList ++ second.text
      ++ " share the mangled name `".toList ++ mangled ++ "`".toList

end Fault
end Lineage
