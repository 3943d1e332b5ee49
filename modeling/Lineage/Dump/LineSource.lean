import Lineage.Dump.Basic

/-!
# Sources of lines

Whoever reads a dump asks for its lines one after another: what the next line is, to go on
by one, how many lines have been read so far, and where the next record starts. What
readers do with the answers has nothing to do with how they are found, so readers are
written over any `LineSource`.

There are two of them. A `Scanner` is a position in the whole dump and looks for the next
banner each time it is asked. A `Cursor` has the lines that are left of one section and
nothing else.

`LineSource.Reaches` is what every reader keeps, wherever its lines come from: it only reads
on, line by line. A source has finitely many lines left (`LineSource.left`), and with each line
that is read there are fewer, so readers that loop come to an end.
-/

namespace Lineage

/-- Something that lines are read from. -/
class LineSource (σ : Type) where
  /-- The number of the last line read, counted from one over the whole dump. -/
  line : σ → Nat
  /-- The next line, unread. -/
  peek? : σ → Option Text
  /-- What the source is after the next line. -/
  advance : σ → σ
  /-- The first line of the next record, and the source after it. -/
  nextRecord : σ → Option Text × σ
  /-- A bound on the lines that are left. -/
  left : σ → Nat
  advance_of_peek?_none : ∀ {s : σ}, peek? s = none → advance s = s
  left_advance_lt : ∀ {s : σ} {l : Text}, peek? s = some l → left (advance s) < left s
  left_nextRecord_lt : ∀ {s t : σ} {l : Text}, nextRecord s = (some l, t) → left t < left s

namespace LineSource

variable {σ : Type} [LineSource σ]

/-- All lines from the next one on, after those in `done`, which stand in reverse. -/
def restAfter (done : List Text) (s : σ) : List Text :=
  match _h : peek? s with
  | some l => restAfter (l :: done) (advance s)
  | none => done.reverse
termination_by left s
decreasing_by exact left_advance_lt _h

/-- All lines from the next one on. -/
def rest (s : σ) : List Text := restAfter [] s

/-! ## Reading on -/

/-- Some lines further on. -/
inductive Reaches : σ → σ → Prop
  | here (s : σ) : Reaches s s
  | next {s t : σ} (h : Reaches (advance s) t) : Reaches s t

theorem Reaches.trans {s t u : σ} (h : Reaches s t) (h' : Reaches t u) : Reaches s u := by
  induction h with
  | here => exact h'
  | next _ ih => exact .next (ih h')

theorem reaches_advance (s : σ) : Reaches s (advance s) := .next (.here _)

theorem left_advance_le (s : σ) : left (advance s) ≤ left s := by
  cases h : peek? s with
  | none => exact Nat.le_of_eq (congrArg left (advance_of_peek?_none h))
  | some l => exact Nat.le_of_lt (left_advance_lt h)

theorem Reaches.left_le {s t : σ} (h : Reaches s t) : left t ≤ left s := by
  induction h with
  | here => exact Nat.le_refl _
  | next _ ih => exact Nat.le_trans ih (left_advance_le _)

end LineSource
end Lineage
