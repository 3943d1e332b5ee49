import Lineage.Document
import Lineage.Hierarchy
import Lineage.Merging
import Lineage.Settings
import Lineage.Symbol.Tables

/-!
# Recovering the classes of a program

A recovery runs in five stages. *Scan* makes sure that the dump has type records at all;
*parse* reads the type table and the symbols; *resolve* binds references; *dedup* merges
repeated definitions; *assemble* puts the classes together and checks them. A fault in a
stage ends the run there.

`recover` runs the middle three and leaves everything known about the program;
`run` does all five and leaves the document with the figures about it.
-/

namespace Lineage

/-- What a recovery can be told. -/
structure Options where
  imageBase : UInt64
  usePublics : Bool

/-- The options that settings give. -/
def Settings.options (s : Settings) : Options := ⟨s.imageBase, s.usePublics⟩

/-- Everything known about a program before its classes are assembled. -/
structure Recovery where
  table : TypeTable
  resolution : Resolution
  symbols : Symbol.Tables
  /-- The public symbols, if there are any to be used. -/
  publics : Option Symbol.PublicIndex
  merges : MergeReport

/-- The result of a run. -/
structure Report where
  document : Document
  assembly : Assembly.Stats
  hierarchy : Hierarchy.Stats
  merges : MergeReport

namespace Recovery

/-- The classes of the program. -/
def assemble (r : Recovery) : Except Fault (List AssembledClass) :=
  Assembly.assemble r.table r.resolution r.symbols.procedures r.publics

/-! ## The stages -/

/-- Makes sure that there are types to read. -/
def scan (d : Dump) : Reported Unit := do
  .ofExcept (if d.hasSection .types then .ok () else .error (.sectionMissing .types))
  .note (.finished .scan (Text.decimal d.lines.length ++ " lines".toList))

/-- Reads the type table and the symbols. -/
def parse (options : Options) (d : Dump) : Reported (TypeTable × Symbol.Tables) := do
  .note (.started .parse)
  let table ← .ofExcept (TypeTable.ofDump d)
  let symbols ← Symbol.Tables.ofDump d options.imageBase options.usePublics
  .note (.finished .parse (
    Text.decimal table.size ++ " type records, ".toList
      ++ Text.decimal symbols.procedures.length ++ " procedures, ".toList
      ++ Text.decimal symbols.publics.length ++ " publics".toList))
  return (table, symbols)

/-- Binds what the records refer to. -/
def resolve (table : TypeTable) (procedures : List Procedure) : Reported Resolution := do
  .note (.started .resolve)
  let r ← .ofExcept (Resolution.ofTable table procedures)
  .note (.finished .resolve (
    Text.decimal r.references.size ++ " forward references, ".toList
      ++ Text.decimal r.procedures.size ++ " classes with procedures".toList))
  return r

/-- Merges repeated definitions. -/
def dedup (table : TypeTable) (resolution : Resolution) : Reported Merging.State := do
  .note (.started .dedup)
  let s := Merging.run table resolution
  .note (.finished .dedup (Text.decimal s.report.merged.size ++ " duplicates merged".toList))
  return s

/-- The index of public symbols, where they are used and there are any. -/
def publicIndex? (options : Options) (symbols : Symbol.Tables) : Option Symbol.PublicIndex :=
  if options.usePublics && !symbols.publics.isEmpty then some (.ofList symbols.publics) else none

/-- Finds out everything about the program, short of assembling its classes. -/
def recover (options : Options) (d : Dump) : Reported Recovery := do
  let (table, symbols) ← parse options d
  let resolution ← resolve table symbols.procedures
  let merged ← dedup table resolution
  return {
    table := merged.table
    resolution := merged.resolution
    symbols
    publics := publicIndex? options symbols
    merges := merged.report }

/-- Assembles the classes and puts the report together. -/
def conclude (r : Recovery) : Reported Report := do
  .note (.started .assemble)
  let classes ← .ofExcept r.assemble
  let assembly := Assembly.stats classes
  .note (.finished .assemble (
    Text.decimal assembly.classes ++ " classes, ".toList
      ++ Text.decimal (assembly.methods - assembly.unaddressed) ++ " of ".toList
      ++ Text.decimal assembly.methods ++ " methods placed".toList))
  -- The figures come last: a cycle is worth a warning only where there is a result.
  let hierarchy ← Hierarchy.report r.resolution.bases
  return { document := .ofClasses classes, assembly, hierarchy, merges := r.merges }

/-! ## Runs -/

/-- Recovers the classes of a dump, the scan having been announced. -/
def runStages (options : Options) (d : Dump) : Reported Report := do
  scan d
  conclude (← recover options d)

/-- Recovers the classes of a dump. -/
def run (options : Options) (d : Dump) : Reported Report := do
  .note (.started .scan)
  runStages options d

/-- Recovers the classes of a dump in a file. -/
def runFile (options : Options) (read : FileReader) (path : Text) : Reported Report := do
  .note (.started .scan)
  let d ← .ofExcept <|
    match read path with
    | .ok bytes => .ok (Dump.ofBytes bytes)
    | .error problem => .error (.unreadable path problem)
  runStages options d

end Recovery
end Lineage
