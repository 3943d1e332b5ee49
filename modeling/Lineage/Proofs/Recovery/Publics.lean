import Lineage.Proofs.Assembly.Fallback
import Lineage.Proofs.Symbol.Shift

/-!
# Runs with and without public symbols

Public symbols are read after the procedures and asked by assembly only. So a run that succeeds
with them succeeds without them, too: it reads the same types and procedures, binds and merges them
alike, and assembles the same classes without the addresses that public symbols give
(`Recovery.reportOf_of_usePublics`).

The two documents have the same classes, with the same names and base classes. The one with public
symbols has every address that the other has, and the same method there, unless it is overtaken: an
earlier method of the class that no procedure places has that very address from a public symbol, as
happens where a linker has folded the code of the two. The document keeps the first of them.

Main result: `Recovery.run_of_usePublics`.
-/

namespace Lineage

/-- The same symbols without the public ones. -/
def Symbol.Tables.withoutPublics (s : Tables) : Tables := { s with publics := [] }

theorem Symbol.tablesOf_withoutPublics {d : Dump} {b : UInt64} {s : Tables}
    (h : tablesOf d b true = .ok s) : tablesOf d b false = .ok s.withoutPublics := by
  obtain ⟨layout, hlayout, h⟩ := bind_eq_ok_iff.1 h
  obtain ⟨procedures, hprocedures, h⟩ := bind_eq_ok_iff.1 h
  obtain ⟨publics, _, h⟩ := bind_eq_ok_iff.1 h
  obtain rfl := Except.ok.inj h
  rw [tablesOf, hlayout]
  show (proceduresOf d layout >>= _) = _
  rw [hprocedures]
  rfl

/-- The second document has all that the first has: the same classes in the same order, with the
same names and base classes, and every method under its address. -/
structure Document.Extends (x y : Document) : Prop where
  keys : y.keys = x.keys
  entries : ∀ name e f, x.get? name = some e → y.get? name = some f →
    f.demangled = e.demangled ∧ f.bases = e.bases ∧
      ∀ key m, e.methods.get? key = some m → f.methods.get? key = some m

/-- The documents of a run without public symbols, `x`, and with them, `y`, from which `rec` was
recovered. -/
structure Report.Widened (rec : Recovery) (x y : Report) : Prop where
  keys : y.document.keys = x.document.keys
  classes : x.document.keys = rec.table.realClasses.map ClassRecord.mangled
  entries : ∀ c ∈ rec.table.realClasses, ∃ e f, x.document.get? c.mangled = some e ∧
    y.document.get? c.mangled = some f ∧ e.Widened (rec.assembled c) f
  hierarchy : y.hierarchy = x.hierarchy
  merges : y.merges = x.merges

namespace Recovery

variable {b : UInt64} {d : Dump} {rec : Recovery} {classes : List AssembledClass}

/-- The same recovery without public symbols. -/
def withoutPublics (r : Recovery) : Recovery :=
  { r with symbols := r.symbols.withoutPublics, publics := none }

theorem recoveryOf_withoutPublics (h : recoveryOf ⟨b, true⟩ d = .ok rec) :
    recoveryOf ⟨b, false⟩ d = .ok rec.withoutPublics := by
  obtain ⟨table, htable, h⟩ := bind_eq_ok_iff.1 h
  obtain ⟨symbols, hsymbols, h⟩ := bind_eq_ok_iff.1 h
  obtain ⟨resolution, hresolution, h⟩ := bind_eq_ok_iff.1 h
  obtain rfl := Except.ok.inj h
  refine bind_eq_ok_iff.2 ⟨table, htable, ?_⟩
  refine bind_eq_ok_iff.2 ⟨_, Symbol.tablesOf_withoutPublics hsymbols, ?_⟩
  exact bind_eq_ok_iff.2 ⟨resolution, hresolution, rfl⟩

theorem assemble_withoutPublics (h : rec.assemble = .ok classes) :
    rec.withoutPublics.assemble = .ok (classes.map AssembledClass.fromProcedures) :=
  Assembly.assemble_none h

/-- Where a run with public symbols succeeds, the run without them assembles the same classes with
the addresses that procedures give. -/
theorem reportOf_of_usePublics {y : Report} (h : reportOf ⟨b, true⟩ d = .ok y) :
    ∃ rec classes, recoveryOf ⟨b, true⟩ d = .ok rec ∧ rec.assemble = .ok classes ∧
      y = reportOn rec classes ∧ reportOf ⟨b, false⟩ d =
        .ok (reportOn rec.withoutPublics (classes.map AssembledClass.fromProcedures)) := by
  obtain ⟨_, htypes, h⟩ := bind_eq_ok_iff.1 h
  obtain ⟨rec, hrec, h⟩ := bind_eq_ok_iff.1 h
  obtain ⟨classes, hclasses, h⟩ := bind_eq_ok_iff.1 h
  obtain rfl := Except.ok.inj h
  refine ⟨rec, classes, hrec, hclasses, rfl, bind_eq_ok_iff.2 ⟨(), htypes, ?_⟩⟩
  refine bind_eq_ok_iff.2 ⟨_, recoveryOf_withoutPublics hrec, ?_⟩
  exact bind_eq_ok_iff.2 ⟨_, assemble_withoutPublics hclasses, rfl⟩

/-- The classes of a document are the definitions, in order. -/
theorem keys_ofClasses (h : rec.assemble = .ok classes) :
    (Document.ofClasses classes).keys = rec.table.realClasses.map ClassRecord.mangled := by
  rw [OrderedMap.keys, Document.entries_ofClasses (nodup_of_assemble h), eq_map_of_assemble h,
    List.map_map, List.map_map]
  rfl

theorem get?_ofClasses (h : rec.assemble = .ok classes) {c : ClassRecord}
    (hc : c ∈ rec.table.realClasses) :
    (Document.ofClasses classes).get? c.mangled =
      some (Document.entry classes (rec.assembled c)) := by
  rw [OrderedMap.get?_eq_some_iff, Document.entries_ofClasses (nodup_of_assemble h)]
  exact List.mem_map_of_mem (assembled_mem_of_assemble h hc)

theorem assembled_withoutPublics (rec : Recovery) (c : ClassRecord) :
    rec.withoutPublics.assembled c = (rec.assembled c).fromProcedures :=
  Assembly.assembleClass_none

theorem widened_reportOn (h : rec.assemble = .ok classes) :
    Report.Widened rec (reportOn rec.withoutPublics (classes.map AssembledClass.fromProcedures))
      (reportOn rec classes) := by
  have without := assemble_withoutPublics h
  have names := keys_ofClasses without
  constructor
  case keys => exact (keys_ofClasses h).trans names.symm
  case classes => exact names
  case entries =>
    intro c hc
    refine ⟨_, _, get?_ofClasses without hc, get?_ofClasses h hc, ?_⟩
    rw [assembled_withoutPublics]
    exact Document.widened_entry classes c
  case hierarchy => rfl
  case merges => rfl

/-- A run that succeeds with public symbols succeeds without them. Both documents have the same
classes, and an entry of the one without public symbols is in the other, too, exactly if it is not
overtaken. -/
theorem run_of_usePublics {j j' : Journal} {y : Report}
    (h : (run ⟨b, true⟩ d).run j = (.ok y, j')) :
    ∃ x rec, (∀ i, ((run ⟨b, false⟩ d).run i).1 = .ok x) ∧
      (∀ i, ((recover ⟨b, true⟩ d).run i).1 = .ok rec) ∧ Report.Widened rec x y := by
  have hy : reportOf ⟨b, true⟩ d = .ok y := by
    rw [← comesTo_run _ d j, h]
  obtain ⟨rec, classes, hrec, hclasses, rfl, hx⟩ := reportOf_of_usePublics hy
  exact ⟨_, rec, fun i => (comesTo_run _ d i).trans hx, fun i => (comesTo_recover _ d i).trans hrec,
    widened_reportOn hclasses⟩

/-- A class with two methods. A procedure puts the second at the address at which a public symbol
puts the first. -/
def foldedDump : Dump := ⟨[
  "*** TYPES",
  "",
  "0x1000 : LF_CLASS",
  " field list type 0x1001, ",
  " class name = A, unique name = .?AVA@@, UDT(0x1000)",
  "",
  "0x1001 : LF_FIELDLIST",
  " list[0] = LF_ONEMETHOD, public, VANILLA, index = 0x1002, name = 'Run'",
  " list[1] = LF_ONEMETHOD, public, VANILLA, index = 0x1003, name = 'Stop'",
  "",
  "0x1003 : LF_MFUNCTION",
  " Class type = 0x1000, This type = 0x1004, ",
  "",
  "*** PUBLICS",
  "S_PUB32: [0001:00001010], Flags: 00000002, ?Run@A@@QAEXXZ",
  "",
  "*** SYMBOLS",
  "S_GPROC32: [0001:00001010], Cb: 0000001A, Type: 0x1003, A::Stop",
  "",
  "*** SECTION HEADERS",
  "SECTION HEADER #1",
  ".text name",
  "2000 virtual size",
  "1000 virtual address"].map String.toList⟩

/-- Both runs on it succeed, and they name different methods at the address. -/
theorem run_foldedDump :
    ∃ x y j j' e f, (run ⟨0x400000, false⟩ foldedDump).run .empty = (.ok x, j) ∧
      (run ⟨0x400000, true⟩ foldedDump).run .empty = (.ok y, j') ∧
      x.document.get? ".?AVA@@".toList = some e ∧ y.document.get? ".?AVA@@".toList = some f ∧
      e.methods.get? "0x402010".toList = some ⟨"Stop".toList, .method⟩ ∧
      f.methods.get? "0x402010".toList = some ⟨"Run".toList, .method⟩ := by
  have found (usePublics : Bool) :
      (match (run ⟨0x400000, usePublics⟩ foldedDump).run .empty with
      | (.ok x, _) =>
        decide ((x.document.get? ".?AVA@@".toList).bind
          (fun e => e.methods.get? "0x402010".toList) =
            some ⟨if usePublics then "Run".toList else "Stop".toList, .method⟩)
      | (.error _, _) => false) = true := by
    cases usePublics with
    | false => decide +kernel
    | true => decide +kernel
  have entry (usePublics : Bool) :
      ∃ x j e, (run ⟨0x400000, usePublics⟩ foldedDump).run .empty = (.ok x, j) ∧
        x.document.get? ".?AVA@@".toList = some e ∧ e.methods.get? "0x402010".toList =
          some ⟨if usePublics then "Run".toList else "Stop".toList, .method⟩ := by
    have h := found usePublics
    split at h
    next x j hrun =>
      obtain ⟨e, he, hmethod⟩ := Option.bind_eq_some_iff.1 (of_decide_eq_true h)
      exact ⟨x, j, e, hrun, he, hmethod⟩
    next => cases h
  obtain ⟨x, j, e, hx, he, hstop⟩ := entry false
  obtain ⟨y, j', f, hy, hf, hrun⟩ := entry true
  exact ⟨x, y, j, j', e, f, hx, hy, he, hf, hstop, hrun⟩

/-- Public symbols take an entry from this class. -/
theorem not_extends_foldedMethods :
    ∃ x y j j', (run ⟨0x400000, false⟩ foldedDump).run .empty = (.ok x, j) ∧
      (run ⟨0x400000, true⟩ foldedDump).run .empty = (.ok y, j') ∧
      ¬ x.document.Extends y.document := by
  obtain ⟨x, y, j, j', e, f, hx, hy, he, hf, hstop, hrun⟩ := run_foldedDump
  refine ⟨x, y, j, j', hx, hy, fun hextends => ?_⟩
  have kept := (hextends.entries _ e f he hf).2.2 _ _ hstop
  rw [hrun] at kept
  cases kept

/-- The two runs are related as any two are. -/
theorem run_of_usePublics_foldedMethods :
    ∃ y j', (run ⟨0x400000, true⟩ foldedDump).run .empty = (.ok y, j') ∧
      ∃ x rec, (∀ i, ((run ⟨0x400000, false⟩ foldedDump).run i).1 = .ok x) ∧
        (∀ i, ((recover ⟨0x400000, true⟩ foldedDump).run i).1 = .ok rec) ∧
        Report.Widened rec x y := by
  obtain ⟨_, y, _, j', _, _, _, hy, _⟩ := run_foldedDump
  exact ⟨y, j', hy, run_of_usePublics hy⟩

end Recovery
end Lineage
