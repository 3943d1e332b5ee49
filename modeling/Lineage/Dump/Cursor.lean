import Lineage.Dump.LineSource
import Lineage.Fault

/-!
# What is left of a section

A `Cursor` stands in the body of one section: it knows how many lines of the dump
lie before it and which lines of the section are still unread. Banners are no part of
a body, so a cursor has nothing to run out of its section into. What a `Scanner`, which has the
whole dump before it, sees of its section is a cursor.

Records are separated by blank lines. A reader of records may stop in the
middle of one; `nextRecord` finds the next from wherever it stopped.

`Cursor.Before` is the one relation that every step keeps: the later cursor has
read some of the lines that were unread, in order, and counted each of them once.
-/

namespace Lineage

/-- A place in a section. `line` is the number of the last line read, counted
from one over the whole dump, and `rest` is what is left of the section. -/
structure Cursor where
  line : Nat
  rest : List Text

namespace Dump

/-- A cursor before the first line of a dump, in whatever precedes the first banner. -/
def start (d : Dump) : Cursor := ⟨0, untilBanner d.lines⟩

/-- A cursor before the first line of a section. -/
def enter (d : Dump) (s : Section) : Except Fault Cursor :=
  match d.after? s with
  | some rest => .ok ⟨d.lines.length - rest.length, untilBanner rest⟩
  | none => .error (.sectionMissing s)

end Dump

namespace Cursor

/-- The next line, unread. -/
def peek? (c : Cursor) : Option Text := c.rest.head?

/-- Whether nothing of the section is left. -/
def atEnd (c : Cursor) : Bool := c.rest.isEmpty

/-- The cursor after the next line, or the same one at the end. -/
def advance (c : Cursor) : Cursor :=
  match c.rest with
  | [] => c
  | _ :: rest => ⟨c.line + 1, rest⟩

/-- The cursor after all next lines of a kind. -/
def skip (p : Text → Bool) (c : Cursor) : Cursor :=
  ⟨c.line + (c.rest.takeWhile p).length, c.rest.dropWhile p⟩

/-- The first line of the next record, and the cursor after it. The rest of a
record that was begun is skipped, and so are the blank lines after it. -/
def nextRecord (c : Cursor) : Option Text × Cursor :=
  let here := (c.skip fun l => !l.allBlank).skip Text.allBlank
  (here.peek?, here.advance)

/-! ## How cursors move -/

/-- `d` has come from `c` by reading lines, none of them skipped uncounted. -/
def Before (c d : Cursor) : Prop :=
  ∃ read : List Text, c.rest = read ++ d.rest ∧ d.line = c.line + read.length

theorem Before.refl (c : Cursor) : c.Before c := ⟨[], rfl, rfl⟩

theorem Before.trans {c d e : Cursor} (h : c.Before d) (h' : d.Before e) : c.Before e := by
  obtain ⟨r, hr, hl⟩ := h
  obtain ⟨r', hr', hl'⟩ := h'
  exact ⟨r ++ r', by rw [hr, hr', List.append_assoc], by rw [hl', hl, List.length_append]; omega⟩

theorem Before.length_le {c d : Cursor} (h : c.Before d) : d.rest.length ≤ c.rest.length := by
  obtain ⟨r, hr, -⟩ := h
  rw [hr, List.length_append]
  exact Nat.le_add_left ..

theorem before_advance (c : Cursor) : c.Before c.advance := by
  obtain ⟨n, rest⟩ := c
  cases rest with
  | nil => exact .refl _
  | cons l rest => exact ⟨[l], rfl, rfl⟩

theorem before_skip (p : Text → Bool) (c : Cursor) : c.Before (c.skip p) :=
  ⟨c.rest.takeWhile p, (List.takeWhile_append_dropWhile ..).symm, rfl⟩

theorem before_nextRecord (c : Cursor) : c.Before c.nextRecord.2 :=
  ((before_skip _ c).trans (before_skip _ _)).trans (before_advance _)

/-- Finding a record reads at least its first line. -/
theorem nextRecord_length_lt {c d : Cursor} {header : Text} (h : c.nextRecord = (some header, d)) :
    d.rest.length < c.rest.length := by
  simp only [nextRecord, Prod.mk.injEq] at h
  obtain ⟨hp, rfl⟩ := h
  have hb := ((before_skip (fun l => !l.allBlank) c).trans (before_skip Text.allBlank _)).length_le
  generalize (c.skip fun l => !l.allBlank).skip Text.allBlank = here at *
  obtain ⟨n, rest⟩ := here
  cases rest with
  | nil => simp [peek?] at hp
  | cons l rest => exact Nat.lt_of_lt_of_le (Nat.lt_succ_self rest.length) hb

/-- Lines can be read from what is left of a section. -/
@[default_instance]
instance : LineSource Cursor where
  line := line
  peek? := peek?
  advance := advance
  nextRecord := nextRecord
  left c := c.rest.length
  advance_of_peek?_none {c} h := by
    rw [advance, List.head?_eq_none_iff.1 h]
  left_advance_lt {c l} h := by
    obtain ⟨rest, hrest⟩ := List.head?_eq_some_iff.1 h
    rw [advance, hrest]
    exact Nat.lt_succ_self rest.length
  left_nextRecord_lt := nextRecord_length_lt

@[simp] theorem source_line (c : Cursor) : LineSource.line c = c.line := rfl

@[simp] theorem source_peek? (c : Cursor) : LineSource.peek? c = c.peek? := rfl

@[simp] theorem source_advance (c : Cursor) : LineSource.advance c = c.advance := rfl

@[simp] theorem source_nextRecord (c : Cursor) : LineSource.nextRecord c = c.nextRecord := rfl

theorem before_of_reaches {c d : Cursor} (h : LineSource.Reaches c d) : c.Before d := by
  induction h with
  | here => exact .refl _
  | next _ ih => exact (before_advance _).trans ih

end Cursor
end Lineage
