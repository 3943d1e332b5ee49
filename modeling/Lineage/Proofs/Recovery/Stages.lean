import Lineage.Recovery

/-!
# What a recovery that succeeded has done

A stage that succeeds has found what the next one starts from. So a recovery that succeeds has a
table, symbols and a resolution behind it, and what it leaves is the merge of these:
`exists_of_recover`.

A stage is work that also writes to a journal, and a run of several stages hands the journal on.
What two stages in a row come to is therefore said with the journal in between
(`run_bind_eq_ok_iff`). This is all that has to be known of journals here. Each stage has one lemma
that names what it hands on, and these are put together in the order in which the stages come.

The module says nothing of recoveries that fail. Which stage they fail in is the matter of the
faults, and what they come to without a journal that of the outcome.
-/

namespace Lineage

namespace Reported

variable {α β : Type}

/-- Work that goes on succeeds if both parts do, the second from where the first left the journal.
-/
theorem run_bind_eq_ok_iff {x : Reported α} {f : α → Reported β} {j j' : Journal} {b : β} :
    run (x >>= f) j = (.ok b, j') ↔
      ∃ a i, run x j = (.ok a, i) ∧ run (f a) i = (.ok b, j') := by
  rw [run_bind]
  cases hx : run x j with
  | mk outcome i =>
    cases outcome with
    | error e => simp
    | ok a =>
      refine ⟨fun h => ⟨a, i, rfl, h⟩, fun h => ?_⟩
      obtain ⟨a', i', ha, h⟩ := h
      cases ha
      exact h

end Reported

namespace Recovery

open Reported

variable {options : Options} {d : Dump} {j j' : Journal}

/-- The second stage hands on the type table of the dump. -/
theorem ofDump_of_parse {t : TypeTable} {symbols : Symbol.Tables}
    (h : (parse options d).run j = (.ok (t, symbols), j')) : TypeTable.ofDump d = .ok t := by
  simp only [parse, run_bind_eq_ok_iff, run_note, run_ofExcept, run_pure, Prod.mk.injEq] at h
  obtain ⟨_, _, _, t', _, ⟨ht, _⟩, symbols', _, _, _, _, _, hres, _⟩ := h
  obtain ⟨rfl, _⟩ := Prod.mk.inj (Except.ok.inj hres)
  exact ht

/-- The third stage hands on a resolution of the table. -/
theorem ofTable_of_resolve {t : TypeTable} {ps : List Procedure} {r : Resolution}
    (h : (resolve t ps).run j = (.ok r, j')) : Resolution.ofTable t ps = .ok r := by
  simp only [resolve, run_bind_eq_ok_iff, run_note, run_ofExcept, run_pure, Prod.mk.injEq] at h
  obtain ⟨_, _, _, r', _, ⟨hr, _⟩, _, _, _, hres, _⟩ := h
  obtain rfl := Except.ok.inj hres
  exact hr

/-- The fourth stage hands on what merging leaves. -/
theorem run_of_dedup {t : TypeTable} {r : Resolution} {s : Merging.State}
    (h : (dedup t r).run j = (.ok s, j')) : s = Merging.run t r := by
  simp only [dedup, run_bind_eq_ok_iff, run_note, run_pure, Prod.mk.injEq] at h
  obtain ⟨_, _, _, _, _, _, hres, _⟩ := h
  exact (Except.ok.inj hres).symm

/-- A recovery that succeeds has read a table and resolved it, and leaves what merging has made
of the two. -/
theorem exists_of_recover {rec : Recovery} (h : (recover options d).run j = (.ok rec, j')) :
    ∃ t r, TypeTable.ofDump d = .ok t ∧ Resolution.ofTable t rec.symbols.procedures = .ok r ∧
      rec.table = (Merging.run t r).table ∧
      rec.resolution = (Merging.run t r).resolution ∧
      rec.merges = (Merging.run t r).report := by
  simp only [recover, run_bind_eq_ok_iff, run_pure, Prod.mk.injEq] at h
  obtain ⟨⟨t, symbols⟩, _, hparse, r, _, hresolve, s, _, hdedup, hres, _⟩ := h
  obtain rfl := Except.ok.inj hres
  obtain rfl := run_of_dedup hdedup
  exact ⟨t, r, ofDump_of_parse hparse, ofTable_of_resolve hresolve, rfl, rfl, rfl⟩

end Recovery
end Lineage
