import Lineage.Dump.Cursor

/-!
# Scanning a dump

A `Scanner` is a position in a dump. It is put before the first line of the dump, or behind
the banner of a section, and from there it only goes on.

A section ends before the next banner. A scanner has no note of where that is: each time it
is asked for a line it looks at the line at its position and does not give it out if it is a
banner. Records are separated by blank lines; a reader of records may stop in the middle of
one, and `nextRecord` finds the next from wherever it stopped.
-/

namespace Lineage

/-- A position in a dump, as the number of lines before it. -/
structure Scanner where
  lines : Array Text
  pos : Nat

namespace Scanner

/-- The line at the position, whichever section it belongs to. -/
def line? (s : Scanner) : Option Text := s.lines[s.pos]?

/-- The scanner one line further on. -/
def step (s : Scanner) : Scanner := { s with pos := s.pos + 1 }

/-- The scanner behind the first banner of a section. The search starts at the top, so
sections can be visited in any order. -/
def seek (s : Scanner) (target : Dump.Section) : Except Fault Scanner :=
  match s.lines.findIdx? fun l => target.banner.isPrefixOf l with
  | some i => .ok { s with pos := i + 1 }
  | none => .error (.sectionMissing target)

/-- The next line of the section, unread. -/
def peek? (s : Scanner) : Option Text := s.line?.filter fun l => !Dump.isBanner l

/-- Whether the section is over. -/
def atEnd (s : Scanner) : Bool := s.peek?.isNone

/-- The scanner after the next line of the section, or the same one where the section is over. -/
def advance (s : Scanner) : Scanner := if s.peek?.isSome then s.step else s

/-- What the scanner sees of its section. -/
def view (s : Scanner) : Cursor := ⟨s.pos, Dump.untilBanner (s.lines.toList.drop s.pos)⟩

/-- How many lines of the dump are left. -/
def left (s : Scanner) : Nat := s.lines.size - s.pos

theorem left_step_lt {s : Scanner} {l : Text} (h : s.line? = some l) : s.step.left < s.left :=
  Nat.sub_lt_sub_left (Array.getElem?_eq_some_iff.1 h).1 (Nat.lt_succ_self s.pos)

/-! ## Records -/

/-- Skips blank lines. -/
def skipBlank (s : Scanner) : Scanner :=
  match _h : s.line? with
  | some l => if l.allBlank then s.step.skipBlank else s
  | none => s
termination_by s.left
decreasing_by exact left_step_lt _h

/-- Takes the line at the position, unless it is a banner. -/
def takeFirst (s : Scanner) : Option Text × Scanner :=
  match s.line? with
  | some l => if Dump.isBanner l then (none, s) else (some l, s.step)
  | none => (none, s)

/-- The first line of the next record, and the scanner after it. The rest of a record that was
begun is skipped, and so are the blank lines after it. -/
def nextRecord (s : Scanner) : Option Text × Scanner :=
  match _h : s.line? with
  | some l =>
    if l.allBlank then s.skipBlank.takeFirst
    else if Dump.isBanner l then (none, s)
    else s.step.nextRecord
  | none => (none, s)
termination_by s.left
decreasing_by exact left_step_lt _h

/-! ## A scanner as a source of lines -/

variable {s t : Scanner} {l : Text}

theorem peek?_eq_some_iff : s.peek? = some l ↔ s.line? = some l ∧ Dump.isBanner l = false := by
  rw [peek?, Option.filter_eq_some_iff, Bool.not_eq_true']

theorem advance_of_peek?_none (h : s.peek? = none) : s.advance = s := by
  rw [advance, h]
  rfl

theorem advance_of_peek? (h : s.peek? = some l) : s.advance = s.step := by
  rw [advance, h]
  rfl

theorem left_skipBlank_le (s : Scanner) : s.skipBlank.left ≤ s.left := by
  unfold skipBlank
  split
  next l h =>
    split
    · exact Nat.le_trans (left_skipBlank_le s.step) (Nat.le_of_lt (left_step_lt h))
    · exact Nat.le_refl _
  next => exact Nat.le_refl _
termination_by s.left
decreasing_by exact left_step_lt ‹_›

theorem left_takeFirst_lt (h : s.takeFirst = (some l, t)) : t.left < s.left := by
  unfold takeFirst at h
  split at h
  next l' hl =>
    split at h
    · cases h
    · obtain ⟨-, rfl⟩ := Prod.mk.inj h
      exact left_step_lt hl
  next => cases h

theorem left_nextRecord_lt {s t : Scanner} {l : Text} (h : s.nextRecord = (some l, t)) :
    t.left < s.left := by
  unfold nextRecord at h
  split at h
  next l' hl =>
    split at h
    · exact Nat.lt_of_lt_of_le (left_takeFirst_lt h) (left_skipBlank_le s)
    · split at h
      · cases h
      · exact Nat.lt_trans (left_nextRecord_lt h) (left_step_lt hl)
  next => cases h
termination_by s.left
decreasing_by exact left_step_lt ‹_›

/-- Lines can be read from a position in a dump. -/
instance : LineSource Scanner where
  line := pos
  peek? := peek?
  advance := advance
  nextRecord := nextRecord
  left := left
  advance_of_peek?_none := advance_of_peek?_none
  left_advance_lt h := by
    rw [advance_of_peek? h]
    exact left_step_lt (peek?_eq_some_iff.1 h).1
  left_nextRecord_lt := left_nextRecord_lt

end Scanner

namespace Dump

/-- A scanner before the first line of a dump. -/
def scanner (d : Dump) : Scanner := ⟨d.lines.toArray, 0⟩

/-- A scanner before the first line of a section. -/
def seek (d : Dump) (s : Section) : Except Fault Scanner := d.scanner.seek s

end Dump
end Lineage
