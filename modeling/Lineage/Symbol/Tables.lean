import Lineage.Dump.Scanner
import Lineage.Image.HeaderReader
import Lineage.Journal
import Lineage.Symbol.Line

/-!
# The symbols of a dump

Procedures are listed in the symbols of the modules and once more among the
globals, so both sections are read, in this order, and the repeat of a procedure
at its address is dropped. Public symbols have a section of their own, and each of its
lines counts. All of these sections may be missing.
-/

namespace Lineage.Symbol

/-- Adds a procedure unless one of that name stands at its address already. -/
def addProcedure (ps : List Procedure) (p : Procedure) : List Procedure :=
  if ps.any fun q => q.address = p.address && q.name == p.name then ps else ps ++ [p]

/-- Adds the procedures in the lines of a section, `n` lines of the dump having been read. -/
def readProcedures (layout : Image.Layout) (ps : List Procedure) (n : Nat) :
    List Text → Except Fault (List Procedure)
  | [] => .ok ps
  | line :: rest =>
    if RecordKind.ofLine line = .procedure then
      match readProcedure line (n + 1) layout with
      | .ok p => readProcedures layout (addProcedure ps p) (n + 1) rest
      | .error e => .error e
    else readProcedures layout ps (n + 1) rest

/-- The sections that list procedures. -/
def procedureSections : List Dump.Section := [.symbols, .globals]

/-- Adds the procedures of a section, which may be missing. -/
def readProcedureSection (d : Dump) (layout : Image.Layout) (ps : List Procedure)
    (s : Dump.Section) : Except Fault (List Procedure) :=
  match d.seek s with
  | .ok start => readProcedures layout ps start.pos (LineSource.rest start)
  -- The only fault of a search is that the section is not there.
  | .error _ => .ok ps

/-- The procedures of a dump. -/
def proceduresOf (d : Dump) (layout : Image.Layout) : Except Fault (List Procedure) :=
  procedureSections.foldlM (readProcedureSection d layout) []

/-- The public symbols in the lines of a section after those in `done`, which
stand in reverse. -/
def readPublics (layout : Image.Layout) (done : List PublicSymbol) (n : Nat) :
    List Text → Except Fault (List PublicSymbol)
  | [] => .ok done.reverse
  | line :: rest =>
    if line.mentions publicTag then
      match readPublic line (n + 1) layout with
      | .ok p => readPublics layout (p :: done) (n + 1) rest
      | .error e => .error e
    else readPublics layout done (n + 1) rest

/-- The public symbols of a dump. -/
def publicsOf (d : Dump) (layout : Image.Layout) : Except Fault (List PublicSymbol) :=
  match d.seek .publics with
  | .ok start => readPublics layout [] start.pos (LineSource.rest start)
  | .error _ => .ok []

/-- Everything of a dump that carries addresses. -/
structure Tables where
  layout : Image.Layout
  procedures : List Procedure
  publics : List PublicSymbol

namespace Tables

/-- The symbols of a program of which nothing is known. -/
def empty (imageBase : UInt64) : Tables := ⟨.unknown imageBase, [], []⟩

/-- Whether a dump could list procedures at all. -/
def haveProcedures (d : Dump) : Bool := procedureSections.any d.hasSection

/-- The symbols of a dump. Public symbols are read only where they are asked for. -/
def ofDump (d : Dump) (imageBase : UInt64) (usePublics : Bool) : Reported Tables := do
  let layout ← .ofExcept (Image.Layout.ofDump d imageBase)
  .warnIf (!haveProcedures d) .noSymbolSections
  let procedures ← .ofExcept (proceduresOf d layout)
  let publics ← .ofExcept (if usePublics then publicsOf d layout else .ok [])
  return { layout, procedures, publics }

end Tables
end Lineage.Symbol
