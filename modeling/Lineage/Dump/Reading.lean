import Lineage.Dump.LineSource
import Lineage.Fault

/-!
# Readers of lines

A `Reading` takes a source of lines and gives an answer or a fault, together with what the
source has become. The source is part of the outcome also after a fault, because a caller may go on
from there.

Readers are put together from `next?`, `peek?` and `refuse`, and every reader so
built only ever moves forward: `Reading.Forward` and its closure lemmas.
-/

namespace Lineage

/-- A reader of lines. -/
def Reading (σ α : Type) : Type := σ → Except Fault α × σ

namespace Reading

variable {σ α β : Type}

/-- Runs a reader on a source. -/
def run (x : Reading σ α) (s : σ) : Except Fault α × σ := x s

/-- Reads nothing. -/
protected def pure (a : α) : Reading σ α := fun s => (.ok a, s)

/-- Reads on with what was read, unless that was a fault. -/
protected def bind (x : Reading σ α) (f : α → Reading σ β) : Reading σ β := fun s =>
  match x s with
  | (.ok a, t) => f a t
  | (.error e, t) => (.error e, t)

instance : Monad (Reading σ) where
  pure := Reading.pure
  bind := Reading.bind

@[simp] theorem run_pure (a : α) (s : σ) : run (pure a) s = (.ok a, s) := rfl

theorem run_bind (x : Reading σ α) (f : α → Reading σ β) (s : σ) :
    run (x >>= f) s = match run x s with
      | (.ok a, t) => run (f a) t
      | (.error e, t) => (.error e, t) := rfl

variable [LineSource σ]

/-- Stops with a fault that may depend on the number of the last line read. -/
def refuse (fault : Nat → Fault) : Reading σ α := fun s => (.error (fault (LineSource.line s)), s)

/-- Takes over an outcome that was found without reading, at the last line read. -/
def ofExcept (outcome : Nat → Except Fault α) : Reading σ α := fun s =>
  (outcome (LineSource.line s), s)

/-- Takes over an optional value; without one, the line is not what was expected. -/
def expect (value : Option α) (marker line : Text) : Reading σ α := fun s =>
  match value with
  | some a => (.ok a, s)
  | none => (.error (.expecting marker (LineSource.line s) line), s)

/-- The number of the last line read. -/
def lineNumber : Reading σ Nat := fun s => (.ok (LineSource.line s), s)

/-- The next line, left unread. -/
def peek? : Reading σ (Option Text) := fun s => (.ok (LineSource.peek? s), s)

/-- Reads the next line, if there is one. -/
def next? : Reading σ (Option Text) := fun s => (.ok (LineSource.peek? s), LineSource.advance s)

/-! ## Readers move forward -/

/-- The reader only reads on. -/
def Forward (x : Reading σ α) : Prop := ∀ s : σ, LineSource.Reaches s (x.run s).2

theorem forward_pure (a : α) : Forward (pure a : Reading σ α) := .here

theorem forward_bind {x : Reading σ α} {f : α → Reading σ β} (hx : x.Forward)
    (hf : ∀ a, (f a).Forward) : Forward (x >>= f) := by
  intro s
  have h := hx s
  rw [run_bind]
  generalize x.run s = r at h
  obtain ⟨r | a, t⟩ := r
  · exact h
  · exact h.trans (hf a t)

theorem forward_refuse (fault : Nat → Fault) : Forward (refuse fault : Reading σ α) := .here

theorem forward_ofExcept (outcome : Nat → Except Fault α) :
    Forward (ofExcept outcome : Reading σ α) := .here

theorem forward_expect (value : Option α) (marker line : Text) :
    Forward (expect value marker line : Reading σ α) := by
  intro s
  cases value <;> exact .here s

theorem forward_lineNumber : Forward (lineNumber : Reading σ Nat) := .here

theorem forward_peek? : Forward (peek? : Reading σ (Option Text)) := .here

theorem forward_next? : Forward (next? : Reading σ (Option Text)) := LineSource.reaches_advance

end Reading
end Lineage
