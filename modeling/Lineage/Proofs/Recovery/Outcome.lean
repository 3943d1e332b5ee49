import Lineage.Recovery

/-!
# What a run comes to

What a run reports on its way goes to a journal, which nothing reads back. So a run comes to the
same whatever has been reported before it, and what it comes to can be said without a journal:
`reportOf` is a run without its reports. Each stage hands on what it found, and the first fault ends
it.

`ComesTo` ties work that reports to an outcome that does not. It holds of each of the four things
that such work is made of: doing nothing, doing what reports nothing, writing a note, and going on
with a result (`comesTo_bind`). So it holds of each stage, and of the stages in a row, by following
the program; no stage is looked at twice.

What is proved of runs elsewhere is mostly proved of `reportOf`, where a run is a chain of outcomes
and nothing more, and carried over by `comesTo_run`.

Main result: `Recovery.comesTo_run`.
-/

namespace Lineage

namespace Reported

variable {α β : Type}

/-- The work comes to one and the same, whatever was reported before. -/
def ComesTo (x : Reported α) (outcome : Except Fault α) : Prop := ∀ j, (x.run j).1 = outcome

theorem comesTo_pure (a : α) : ComesTo (pure a) (.ok a) := fun _ => rfl

/-- Work that reports nothing comes to its outcome. -/
theorem comesTo_ofExcept (outcome : Except Fault α) : ComesTo (ofExcept outcome) outcome :=
  fun _ => rfl

/-- A note is written to the journal and changes nothing else. -/
theorem comesTo_note (e : Event) : ComesTo (note e) (.ok ()) := fun _ => rfl

theorem comesTo_warnIf (condition : Bool) (w : Warning) : ComesTo (warnIf condition w) (.ok ()) :=
  fun _ => rfl

/-- Work that goes on is compared with an outcome that goes on. The journal is handed on, and
neither part looks at it. -/
theorem comesTo_bind {x : Reported α} {f : α → Reported β} {outcome : Except Fault α}
    {g : α → Except Fault β} (hx : ComesTo x outcome) (hf : ∀ a, ComesTo (f a) (g a)) :
    ComesTo (x >>= f) (outcome >>= g) := by
  intro j
  have h := hx j
  rw [run_bind]
  generalize x.run j = r at h
  obtain ⟨e | a, i⟩ := r
  · rw [← show Except.error e = outcome from h]
    rfl
  · rw [← show Except.ok a = outcome from h]
    exact hf a i

theorem ComesTo.congr {x : Reported α} {outcome outcome' : Except Fault α}
    (h : ComesTo x outcome) (heq : outcome = outcome') : ComesTo x outcome' :=
  heq ▸ h

end Reported

/-- An outcome that is handed on as it is. -/
theorem bind_ok_self {α : Type} (x : Except Fault α) : (x >>= Except.ok) = x := by
  cases x <;> rfl

/-- The symbols of a dump. -/
def Symbol.tablesOf (d : Dump) (imageBase : UInt64) (usePublics : Bool) : Except Fault Tables :=
  Image.Layout.ofDump d imageBase >>= fun layout =>
    proceduresOf d layout >>= fun procedures =>
      (if usePublics then publicsOf d layout else .ok []) >>= fun publics =>
        .ok { layout, procedures, publics }

open Reported in
/-- Reading the symbols reports how many there are. -/
theorem Symbol.comesTo_tables (d : Dump) (imageBase : UInt64) (usePublics : Bool) :
    ComesTo (Tables.ofDump d imageBase usePublics) (tablesOf d imageBase usePublics) :=
  comesTo_bind (comesTo_ofExcept _) fun _ => comesTo_bind (comesTo_warnIf _ _) fun _ =>
    comesTo_bind (comesTo_ofExcept _) fun _ => comesTo_bind (comesTo_ofExcept _) fun _ =>
      comesTo_pure _

namespace Recovery

open Reported

/-- Everything that merging leaves of a table, its symbols and its resolution. -/
def ofParts (options : Options) (table : TypeTable) (symbols : Symbol.Tables)
    (resolution : Resolution) : Recovery where
  table := (Merging.run table resolution).table
  resolution := (Merging.run table resolution).resolution
  symbols
  publics := publicIndex? options symbols
  merges := (Merging.run table resolution).report

/-- The report on a recovery whose classes were assembled. -/
def reportOn (r : Recovery) (classes : List AssembledClass) : Report where
  document := .ofClasses classes
  assembly := Assembly.stats classes
  hierarchy := Hierarchy.stats r.resolution.bases
  merges := r.merges

/-- Everything about the program of a dump, short of assembling its classes. -/
def recoveryOf (options : Options) (d : Dump) : Except Fault Recovery :=
  TypeTable.ofDump d >>= fun table =>
    Symbol.tablesOf d options.imageBase options.usePublics >>= fun symbols =>
      Resolution.ofTable table symbols.procedures >>= fun resolution =>
        .ok (ofParts options table symbols resolution)

/-- The report on a dump. -/
def reportOf (options : Options) (d : Dump) : Except Fault Report :=
  (if d.hasSection .types then .ok () else .error (.sectionMissing .types)) >>= fun _ =>
    recoveryOf options d >>= fun r =>
      r.assemble >>= fun classes => .ok (reportOn r classes)

/-- The second stage reads the types before the symbols, so a fault of the types comes first. -/
theorem comesTo_parse (options : Options) (d : Dump) :
    ComesTo (parse options d)
      (TypeTable.ofDump d >>= fun table =>
        Symbol.tablesOf d options.imageBase options.usePublics >>= fun symbols =>
          .ok (table, symbols)) :=
  comesTo_bind (comesTo_note _) fun _ => comesTo_bind (comesTo_ofExcept _) fun table =>
    comesTo_bind (Symbol.comesTo_tables d _ _) fun symbols =>
      comesTo_bind (comesTo_note _) fun _ => comesTo_pure (table, symbols)

/-- The third stage reports on the resolution that it makes. -/
theorem comesTo_resolve (t : TypeTable) (ps : List Procedure) :
    ComesTo (resolve t ps) (Resolution.ofTable t ps) :=
  (comesTo_bind (comesTo_note _) fun _ => comesTo_bind (comesTo_ofExcept _) fun r =>
    comesTo_bind (comesTo_note _) fun _ => comesTo_pure r).congr (bind_ok_self _)

/-- Merging cannot fail, whatever it warns of. -/
theorem comesTo_dedup (t : TypeTable) (r : Resolution) :
    ComesTo (dedup t r) (.ok (Merging.run t r)) :=
  comesTo_bind (comesTo_note _) fun _ => comesTo_bind (comesTo_note _) fun _ =>
    comesTo_pure (Merging.run t r)

/-- The stages up to merging, each on what the one before it found. -/
theorem comesTo_recover (options : Options) (d : Dump) :
    ComesTo (recover options d) (recoveryOf options d) := by
  have hstages : ComesTo (recover options d)
      ((TypeTable.ofDump d >>= fun table =>
        Symbol.tablesOf d options.imageBase options.usePublics >>= fun symbols =>
          .ok (table, symbols)) >>= fun parsed =>
        Resolution.ofTable parsed.1 parsed.2.procedures >>= fun resolution =>
          .ok (ofParts options parsed.1 parsed.2 resolution)) := by
    refine comesTo_bind (comesTo_parse options d) fun ⟨table, symbols⟩ => ?_
    refine comesTo_bind (comesTo_resolve table symbols.procedures) fun r => ?_
    exact comesTo_bind (comesTo_dedup table r) fun merged => comesTo_pure _
  intro j
  rw [hstages j]
  unfold recoveryOf
  cases TypeTable.ofDump d with
  | error e => rfl
  | ok table =>
    show (Symbol.tablesOf d _ _ >>= _) >>= _ = Symbol.tablesOf d _ _ >>= _
    cases Symbol.tablesOf d options.imageBase options.usePublics <;> rfl

/-- The last stage checks the classes and makes the document. -/
theorem comesTo_conclude (r : Recovery) :
    ComesTo (conclude r) (r.assemble >>= fun classes => .ok (reportOn r classes)) :=
  comesTo_bind (comesTo_note _) fun _ => comesTo_bind (comesTo_ofExcept _) fun _ =>
    comesTo_bind (comesTo_note _) fun _ =>
      comesTo_bind (comesTo_bind (comesTo_warnIf _ _) fun _ => comesTo_pure _) fun _ =>
        comesTo_pure _

/-- The first stage looks whether there are types at all. -/
theorem comesTo_scan (d : Dump) :
    ComesTo (scan d) (if d.hasSection .types then .ok () else .error (.sectionMissing .types)) :=
  (comesTo_bind (comesTo_ofExcept _) fun _ => comesTo_note _).congr (bind_ok_self _)

/-- All stages in a row. -/
theorem comesTo_runStages (options : Options) (d : Dump) :
    ComesTo (runStages options d) (reportOf options d) :=
  comesTo_bind (comesTo_scan d) fun _ => comesTo_bind (comesTo_recover options d) comesTo_conclude

/-- A run comes to the report on its dump, or to the first fault on the way there. -/
theorem comesTo_run (options : Options) (d : Dump) :
    ComesTo (run options d) (reportOf options d) :=
  fun j => comesTo_bind (comesTo_note (.started .scan))
    (fun _ => comesTo_runStages options d) j

end Recovery
end Lineage
