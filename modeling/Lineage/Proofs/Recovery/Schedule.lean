import Lineage.Proofs.Recovery.Faults
import Lineage.Proofs.Recovery.Stages

/-!
# The stages of a run, and the one that a fault names

A run goes through its stages in a fixed order and reports each when it starts and when it is
finished. The reports of a run are compared with that schedule by their `Mark`s, which leave out the
summaries. `Logs` says what work adds to the marks of a journal, both where it succeeds and where it
stops; each stage has a lemma of this form, and a run is put together from them.

A run that stops has started one stage more than it has finished, and its fault names that stage,
with one exception. Symbols that cannot be placed, because the dump has no section headers, stop the
run while it parses, but their fault is that of a missing section, which names the scan.

The marks of a run that succeeds are the whole schedule, and those of a run that stops are a part of
it from the front. Since no two such parts are equal (`scheduleTo_injective`), the marks tell the
stage. What remains is which fault is which, and that is settled by where faults come from: the
exception is one fault, and it is raised in one place.

Main result: `Recovery.reports_stage_iff`, with `Recovery.not_reportsStage_headerless`.
-/

namespace Lineage

/-! ## Marks -/

/-- An event without its summary. -/
inductive Mark where
  | start (s : Stage)
  | finish (s : Stage)
deriving DecidableEq

/-- What an event reports. -/
def Event.mark : Event → Mark
  | started s => .start s
  | finished s _ => .finish s

/-- What a journal reports of the stages. -/
def Journal.marks (j : Journal) : List Mark := j.events.map Event.mark

/-- The marks of stages that are passed one after the other. -/
def passed (stages : List Stage) : List Mark := stages.flatMap fun s => [.start s, .finish s]

/-- The stages in the order in which they run. -/
def Stage.all : List Stage := [.scan, .parse, .resolve, .dedup, .assemble]

/-- The marks of a run that passes all stages. -/
def schedule : List Mark := passed Stage.all

/-- The marks of a run that stops in a stage. -/
def scheduleTo (s : Stage) : List Mark := passed (Stage.all.takeWhile (· ≠ s)) ++ [.start s]

/-- A run that stops is on schedule up to there. -/
theorem scheduleTo_prefix (s : Stage) : scheduleTo s <+: schedule := by
  cases s <;> decide

/-- The marks tell where a run has stopped. -/
theorem scheduleTo_injective {s s' : Stage} (h : scheduleTo s = scheduleTo s') : s = s' := by
  cases s <;> cases s' <;> first | rfl | exact absurd h (by decide)

/-! ## What work reports -/

namespace Reported

variable {α β : Type} {full rest : List Mark} {stopped stopped' : Fault → List Mark → Prop}

/-- The work adds `full` to the marks where it succeeds. Where it stops with a fault, it has added
marks that `stopped` allows for this fault. -/
structure Logs (x : Reported α) (full : List Mark) (stopped : Fault → List Mark → Prop) :
    Prop where
  ok : ∀ {j j' : Journal} {a : α}, x.run j = (.ok a, j') → j'.marks = j.marks ++ full
  error : ∀ {j j' : Journal} {e : Fault}, x.run j = (.error e, j') →
    ∃ part, j'.marks = j.marks ++ part ∧ stopped e part

theorem logs_pure (a : α) : Logs (pure a) [] stopped where
  ok h := by
    obtain ⟨_, rfl⟩ := Prod.mk.inj h
    exact (List.append_nil _).symm
  error h := by
    cases h

theorem logs_note (e : Event) : Logs (note e) [e.mark] stopped where
  ok h := by
    obtain ⟨_, rfl⟩ := Prod.mk.inj h
    exact List.map_append
  error h := by
    cases h

theorem logs_warnIf (condition : Bool) (w : Warning) : Logs (warnIf condition w) [] stopped where
  ok h := by
    obtain ⟨_, rfl⟩ := Prod.mk.inj h
    cases condition <;> exact (List.append_nil _).symm
  error h := by
    cases h

theorem logs_ofExcept {outcome : Except Fault α} (h : ∀ e, outcome = .error e → stopped e []) :
    Logs (ofExcept outcome) [] stopped where
  ok hrun := by
    obtain ⟨_, rfl⟩ := Prod.mk.inj hrun
    exact (List.append_nil _).symm
  error hrun := by
    obtain ⟨he, rfl⟩ := Prod.mk.inj hrun
    exact ⟨[], (List.append_nil _).symm, h _ he⟩

theorem Logs.mono {x : Reported α} (h : Logs x full stopped)
    (hstopped : ∀ e part, stopped e part → stopped' e part) : Logs x full stopped' where
  ok := h.ok
  error hrun := by
    obtain ⟨part, hpart, he⟩ := h.error hrun
    exact ⟨part, hpart, hstopped _ _ he⟩

/-- Work that goes on reports what came before it, and then what it adds. -/
theorem logs_bind {x : Reported α} {f : α → Reported β} (hx : Logs x full stopped)
    (hf : ∀ a j j', x.run j = (.ok a, j') →
      Logs (f a) rest fun e part => stopped e (full ++ part)) {total : List Mark}
    (htotal : full ++ rest = total) : Logs (x >>= f) total stopped where
  ok {j j' b} h := by
    obtain ⟨a, i, ha, hb⟩ := run_bind_eq_ok_iff.1 h
    rw [(hf a j i ha).ok hb, hx.ok ha, List.append_assoc, htotal]
  error {j j' e} h := by
    rw [run_bind] at h
    rcases hrun : x.run j with ⟨e' | a, i⟩
    · rw [hrun] at h
      obtain ⟨he, rfl⟩ := Prod.mk.inj h
      obtain rfl := Except.error.inj he
      exact hx.error hrun
    · rw [hrun] at h
      obtain ⟨part, hpart, he⟩ := (hf a j i hrun).error h
      exact ⟨full ++ part, by rw [hpart, hx.ok hrun, List.append_assoc], he⟩

end Reported

/-! ## The stages -/

/-- The stage in which a fault is found. It is the one that the fault names, unless the section
headers are missing: that they are needed shows only when a symbol is to be placed. -/
def Fault.foundIn : Fault → Stage
  | sectionMissing .sectionHeaders => .parse
  | e => e.stage

theorem Fault.foundIn_of_stage {e : Fault} {s : Stage} (h : e.stage = s) (hs : s ≠ .scan) :
    e.foundIn = s := by
  unfold foundIn
  split
  · exact absurd h.symm hs
  · exact h

/-- A fault names the stage in which it is found, with one exception. -/
theorem Fault.stage_eq_foundIn_iff {e : Fault} :
    e.stage = e.foundIn ↔ e ≠ .sectionMissing .sectionHeaders := by
  unfold foundIn
  split
  next => exact ⟨fun h => (by cases h), fun h => absurd rfl h⟩
  next h => exact ⟨fun _ => h, fun _ => rfl⟩

theorem Symbol.foundIn_of_tablesOf {d : Dump} {imageBase : UInt64} {usePublics : Bool} {e : Fault}
    (h : tablesOf d imageBase usePublics = .error e) : e.foundIn = .parse := by
  cases hheaders : d.hasSection .sectionHeaders with
  | true =>
    exact Fault.foundIn_of_stage (faultsIn_tablesOf hheaders imageBase usePublics e h) (by decide)
  | false =>
    have hfirst := tablesOf_unknown hheaders imageBase usePublics
    rw [h] at hfirst
    unfold FirstDecides at hfirst
    split at hfirst
    · cases hfirst
    · obtain ⟨e', he, hplace⟩ := hfirst
      obtain rfl := Except.error.inj he
      unfold Unplaced at hplace
      split at hplace
      · rw [hplace]
        rfl
      · exact Fault.foundIn_of_stage hplace (by decide)

namespace Recovery

open Reported

variable {options : Options} {d : Dump}

/-- Reading symbols is no stage of its own, so it reports none. -/
theorem logs_tables (d : Dump) (imageBase : UInt64) (usePublics : Bool) :
    Logs (Symbol.Tables.ofDump d imageBase usePublics) []
      fun e part => part = [] ∧ e.foundIn = .parse := by
  have silent : Logs (Symbol.Tables.ofDump d imageBase usePublics) [] fun _ part => part = [] := by
    refine logs_bind (logs_ofExcept ?_) (fun layout _ _ _ => ?_) rfl
    · exact fun _ _ => rfl
    refine logs_bind (logs_warnIf _ _) (fun _ _ _ _ => ?_) rfl
    refine logs_bind (logs_ofExcept ?_) (fun procedures _ _ _ => ?_) rfl
    · exact fun _ _ => rfl
    refine logs_bind (logs_ofExcept ?_) (fun publics _ _ _ => logs_pure _) rfl
    exact fun _ _ => rfl
  refine ⟨silent.ok, fun {j j' e} hrun => ?_⟩
  obtain ⟨part, hpart, rfl⟩ := silent.error hrun
  have hout := Symbol.comesTo_tables d imageBase usePublics j
  rw [hrun] at hout
  exact ⟨[], hpart, rfl, Symbol.foundIn_of_tablesOf hout.symm⟩

/-- The scan is announced before it starts, so what it reports is only its end. -/
theorem logs_scan (d : Dump) :
    Logs (scan d) [.finish .scan] fun e part => part = [] ∧ e.foundIn = .scan := by
  refine logs_bind (logs_ofExcept ?_) (fun _ _ _ _ => logs_note _) rfl
  intro e he
  refine ⟨rfl, ?_⟩
  split at he
  · cases he
  · obtain rfl := Except.error.inj he
    rfl

theorem logs_parse (htypes : d.hasSection .types = true) :
    Logs (parse options d) (passed [.parse])
      fun e part => part = [.start .parse] ∧ e.foundIn = .parse := by
  refine logs_bind (logs_note _) (fun _ _ _ _ => ?_) rfl
  refine logs_bind (logs_ofExcept ?_) (fun table _ _ _ => ?_) rfl
  · intro e he
    refine ⟨rfl, ?_⟩
    exact Fault.foundIn_of_stage (TypeTable.faultsIn_ofDump htypes e he) (by decide)
  refine logs_bind ((logs_tables d _ _).mono ?_) (fun symbols _ _ _ => ?_) rfl
  · rintro e _ ⟨rfl, he⟩
    exact ⟨rfl, he⟩
  exact logs_bind (logs_note _) (fun _ _ _ _ => logs_pure _) rfl

theorem logs_resolve (t : TypeTable) (ps : List Procedure) :
    Logs (resolve t ps) (passed [.resolve])
      fun e part => part = [.start .resolve] ∧ e.foundIn = .resolve := by
  refine logs_bind (logs_note _) (fun _ _ _ _ => ?_) rfl
  refine logs_bind (logs_ofExcept ?_) (fun r _ _ _ => ?_) rfl
  · intro e he
    refine ⟨rfl, ?_⟩
    exact Fault.foundIn_of_stage (Resolution.faultsIn_ofTable t ps e he) (by decide)
  exact logs_bind (logs_note _) (fun _ _ _ _ => logs_pure r) rfl

/-- Merging never stops. -/
theorem logs_dedup (t : TypeTable) (r : Resolution) :
    Logs (dedup t r) (passed [.dedup]) fun _ _ => False :=
  logs_bind (logs_note _)
    (fun _ _ _ _ => logs_bind (logs_note _) (fun _ _ _ _ => logs_pure _) rfl) rfl

/-- The figures of the hierarchy are found after the last stage. -/
theorem logs_figures (g : BaseGraph) {stopped : Fault → List Mark → Prop} :
    Logs (Hierarchy.report g) [] stopped :=
  logs_bind (logs_warnIf _ _) (fun _ _ _ _ => logs_pure _) rfl

theorem logs_conclude (r : Recovery) :
    Logs (conclude r) (passed [.assemble])
      fun e part => part = [.start .assemble] ∧ e.foundIn = .assemble := by
  refine logs_bind (logs_note _) (fun _ _ _ _ => ?_) rfl
  refine logs_bind (logs_ofExcept ?_) (fun classes _ _ _ => ?_) rfl
  · intro e he
    refine ⟨rfl, ?_⟩
    exact Fault.foundIn_of_stage (Assembly.faultsIn_assemble _ _ _ _ e he) (by decide)
  refine logs_bind (logs_note _) (fun _ _ _ _ => ?_) rfl
  exact logs_bind (logs_figures r.resolution.bases) (fun _ _ _ _ => logs_pure _) rfl

theorem logs_recover (htypes : d.hasSection .types = true) :
    Logs (recover options d) (passed [.parse, .resolve, .dedup]) fun e part =>
      passed [.scan] ++ part = scheduleTo e.foundIn := by
  refine logs_bind ((logs_parse htypes).mono ?_) (fun parsed _ _ _ => ?_) rfl
  · rintro e _ ⟨rfl, he⟩
    rw [he]
    rfl
  refine logs_bind ((logs_resolve parsed.1 parsed.2.procedures).mono ?_) (fun r _ _ _ => ?_) rfl
  · rintro e _ ⟨rfl, he⟩
    rw [he]
    rfl
  refine logs_bind ((logs_dedup parsed.1 r).mono ?_) (fun _ _ _ _ => logs_pure _) rfl
  exact fun e part h => h.elim

/-- A run is on schedule: to its end where it succeeds, and otherwise to the start of the stage in
which its fault is found. -/
theorem logs_run (options : Options) (d : Dump) :
    Logs (run options d) schedule fun e part => part = scheduleTo e.foundIn := by
  refine logs_bind (logs_note _) (fun _ _ _ _ => ?_) rfl
  refine logs_bind ((logs_scan d).mono ?_) (fun _ j j' hscan => ?_) rfl
  · rintro e _ ⟨rfl, he⟩
    rw [he]
    rfl
  have htypes : d.hasSection .types = true := by
    have hout := comesTo_scan d j
    rw [hscan] at hout
    by_contra hmissing
    rw [if_neg hmissing] at hout
    cases hout
  refine logs_bind ((logs_recover htypes).mono fun e part h => h) (fun r _ _ _ => ?_) rfl
  refine (logs_conclude r).mono ?_
  rintro e _ ⟨rfl, he⟩
  rw [he]
  rfl

/-! ## The exception -/

/-- The types can be read, the first symbol line of the dump gives a place, and there are no section
headers to work it out from. -/
def LacksHeaders (options : Options) (d : Dump) : Prop :=
  d.hasSection .sectionHeaders = false ∧ (∃ t, TypeTable.ofDump d = .ok t) ∧
    Symbol.asksForPlace d options.usePublics = true

theorem hasSection_of_ofDump {t : TypeTable} (h : TypeTable.ofDump d = .ok t) :
    d.hasSection .types = true := by
  by_contra hmissing
  rw [← Dump.body?_isSome, Option.not_isSome_iff_eq_none] at hmissing
  rw [TypeTable.ofDump_eq, Dump.enter_of_body?_eq_none hmissing] at h
  cases h

/-- Without headers, reading the symbols fails for want of them exactly if the first symbol line
gives a place. -/
theorem tablesOf_eq_error_iff {imageBase : UInt64} {usePublics : Bool} :
    Symbol.tablesOf d imageBase usePublics = .error (.sectionMissing .sectionHeaders) ↔
      d.hasSection .sectionHeaders = false ∧ Symbol.asksForPlace d usePublics = true := by
  cases hheaders : d.hasSection .sectionHeaders with
  | true =>
    refine ⟨fun h => ?_, fun h => absurd h.1 (by decide)⟩
    have hstage := Symbol.faultsIn_tablesOf hheaders imageBase usePublics _ h
    cases hstage
  | false =>
    have hfirst := Symbol.tablesOf_unknown hheaders imageBase usePublics
    unfold Symbol.asksForPlace
    cases hplaces : Symbol.placesOf d usePublics with
    | nil =>
      rw [hplaces] at hfirst
      rw [show Symbol.tablesOf d imageBase usePublics = .ok _ from hfirst]
      refine ⟨fun h => ?_, fun h => ?_⟩
      · cases h
      · cases h.2
    | cons place? places =>
      rw [hplaces] at hfirst
      obtain ⟨e, he, hplace⟩ := hfirst
      rw [he, Except.error.injEq, List.head?_cons, Option.any_some]
      unfold Symbol.Unplaced at hplace
      split at hplace
      next hreadable => exact ⟨fun _ => ⟨rfl, hreadable⟩, fun _ => hplace⟩
      next hreadable =>
        refine ⟨fun h => ?_, fun h => absurd h.2 hreadable⟩
        rw [h] at hplace
        cases hplace

/-- A run fails for want of section headers exactly if it needs them. -/
theorem reportOf_eq_error_iff :
    reportOf options d = .error (.sectionMissing .sectionHeaders) ↔ LacksHeaders options d := by
  have never : ∀ {α : Type} {s : Stage} {x : Except Fault α}, s ≠ .scan → FaultsIn s x →
      x ≠ .error (.sectionMissing .sectionHeaders) :=
    fun hs hx h => hs (hx _ h).symm
  refine ⟨fun h => ?_, fun h => ?_⟩
  · rcases bind_eq_error_iff.1 h with h | ⟨_, htypes, h⟩
    · split at h <;> cases h
    · have htypes : d.hasSection .types = true := by
        by_contra hmissing
        rw [if_neg hmissing] at htypes
        cases htypes
      rcases bind_eq_error_iff.1 h with h | ⟨r, _, h⟩
      · rcases bind_eq_error_iff.1 h with h | ⟨t, ht, h⟩
        · exact absurd h (never (by decide) (TypeTable.faultsIn_ofDump htypes))
        · rcases bind_eq_error_iff.1 h with h | ⟨symbols, _, h⟩
          · obtain ⟨hheaders, hplace⟩ := tablesOf_eq_error_iff.1 h
            exact ⟨hheaders, ⟨t, ht⟩, hplace⟩
          · rcases bind_eq_error_iff.1 h with h | ⟨_, _, h⟩
            · exact absurd h (never (by decide) (Resolution.faultsIn_ofTable _ _))
            · cases h
      · rcases bind_eq_error_iff.1 h with h | ⟨_, _, h⟩
        · exact absurd h (never (by decide) (Assembly.faultsIn_assemble _ _ _ _))
        · cases h
  · obtain ⟨hheaders, ⟨t, ht⟩, hplace⟩ := h
    unfold reportOf recoveryOf
    rw [if_pos (hasSection_of_ofDump ht), ht]
    show ((Symbol.tablesOf d _ _ >>= _) >>= _ : Except Fault Report) = _
    rw [tablesOf_eq_error_iff.2 ⟨hheaders, hplace⟩]
    rfl

/-! ## What a run reports of its stages -/

/-- A run on a dump reports its stages, and its fault names the one that has failed.

* The reports follow the schedule.
* They go to the end of the schedule where the run succeeds.
* Where it fails, they end in a stage that was started and not finished, and the fault names this
  stage. -/
structure ReportsStage (options : Options) (d : Dump) : Prop where
  onSchedule : ((run options d).run .empty).2.marks <+: schedule
  complete : ∀ report, ((run options d).run .empty).1 = .ok report →
    ((run options d).run .empty).2.marks = schedule
  failed : ∀ e, ((run options d).run .empty).1 = .error e →
    ∃ s, ((run options d).run .empty).2.marks = scheduleTo s ∧ e.stage = s

/-- Where section headers are wanting, the fault does not name the stage that has failed. -/
theorem LacksHeaders.not_reportsStage (h : LacksHeaders options d) :
    ¬ ReportsStage options d := by
  intro hreports
  have hout := (comesTo_run options d .empty).trans (reportOf_eq_error_iff.2 h)
  obtain ⟨s, hs, hstage⟩ := hreports.failed _ hout
  rcases hrun : (run options d).run .empty with ⟨outcome, j⟩
  rw [hrun] at hout hs
  obtain rfl : outcome = _ := hout
  obtain ⟨part, hmarks, rfl⟩ := (logs_run options d).error hrun
  have hparse : s = .parse := scheduleTo_injective (hs.symm.trans hmarks)
  rw [hparse] at hstage
  cases hstage

/-- A run reports its stages, and its fault names the one that has failed, exactly if it is not for
want of section headers that it fails. -/
theorem reports_stage_iff : ReportsStage options d ↔ ¬ LacksHeaders options d := by
  refine ⟨fun hreports h => h.not_reportsStage hreports, fun hfound => ?_⟩
  have hlogs := logs_run options d
  have hout := comesTo_run options d .empty
  rw [← reportOf_eq_error_iff, ← hout] at hfound
  rcases hrun : (run options d).run .empty with ⟨e | report, j⟩
  · obtain ⟨part, hmarks, rfl⟩ := hlogs.error hrun
    have hmarks : j.marks = scheduleTo e.foundIn := hmarks
    refine ⟨?_, fun r hr => ?_, fun e' he => ?_⟩
    · rw [hrun, hmarks]
      exact scheduleTo_prefix _
    · rw [hrun] at hr
      cases hr
    · rw [hrun] at hfound he ⊢
      obtain rfl := Except.error.inj he
      refine ⟨e.foundIn, hmarks, Fault.stage_eq_foundIn_iff.2 fun hmissing => hfound ?_⟩
      rw [hmissing]
  · have hmarks : j.marks = schedule := hlogs.ok hrun
    refine ⟨?_, fun _ _ => ?_, fun e he => ?_⟩
    · rw [hrun]
      exact hmarks ▸ List.prefix_rfl
    · rw [hrun, hmarks]
    · rw [hrun] at he
      cases he

/-- A dump with a procedure and without section headers. -/
def headerlessDump : Dump := ⟨[
  "*** TYPES",
  "",
  "*** SYMBOLS",
  "",
  "S_GPROC32: [0001:00001010], Cb: 0000001A, Type: 0x1001, A::Run"].map String.toList⟩

/-- The run on it stops while it parses, with a fault that names the scan. -/
theorem not_reportsStage_headerless : ¬ ReportsStage ⟨0x400000, true⟩ headerlessDump := by
  have hlacks : LacksHeaders ⟨0x400000, true⟩ headerlessDump :=
    ⟨by decide, ⟨∅, by decide +kernel⟩, by decide +kernel⟩
  exact hlacks.not_reportsStage

end Recovery
end Lineage
