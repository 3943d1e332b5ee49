import Lineage.Text.Blank

/-!
# Lines

A text is cut into lines at every line feed. A carriage return directly before
a line feed goes with it, so both customs of ending a line read the same; one
that ends a last line without a line feed stays. Text that ends in a line feed
has no further empty line after it.

The cut is a fold from the right, which carries whether the text read so far
starts with a line feed: that is all a carriage return has to know.
-/

namespace Lineage.Text

/-- One character put before a text already cut into lines. The flag says
whether that text starts with a line feed. -/
def lineStep (c : Char) : List Text × Bool → List Text × Bool
  | (ls, atBreak) =>
    if c = '\n' then ([] :: ls, true)
    else if c = '\r' && atBreak then (ls, false)
    else
      match ls with
      | [] => ([[c]], false)
      | l :: ls => ((c :: l) :: ls, false)

/-- The lines of a text. -/
def lines (s : Text) : List Text := (s.foldr lineStep ([], false)).1

@[simp] theorem lines_nil : lines [] = [] := rfl

@[simp] theorem lines_newline (s : Text) : lines ('\n' :: s) = [] :: lines s := by
  simp [lines, lineStep]

/-- Text up to a line feed is a line of its own, and the rest is cut up alone. -/
theorem lines_line_newline {l : Text} (hn : '\n' ∉ l) (hr : l.getLast? ≠ some '\r') (s : Text) :
    lines (l ++ '\n' :: s) = l :: lines s := by
  -- Only before an empty rest of the line would a carriage return be dropped.
  have cut : (l ++ '\n' :: s).foldr lineStep ([], false) = (l :: lines s, l.isEmpty) := by
    induction l with
    | nil => simp [lines, lineStep]
    | cons c l ih =>
      have hc : c ≠ '\n' := fun h => hn (h ▸ List.mem_cons_self)
      have hreturn : c = '\r' → l.isEmpty = false := by
        rintro rfl
        cases l with
        | nil => exact absurd rfl hr
        | cons => rfl
      have hl : l.getLast? ≠ some '\r' := by
        cases l with
        | nil => simp
        | cons d l => rwa [List.getLast?_cons_cons] at hr
      rw [List.cons_append, List.foldr_cons, ih (fun h => hn (List.mem_cons_of_mem _ h)) hl]
      by_cases h : c = '\r'
      · simp [lineStep, hc, hreturn h]
      · simp [lineStep, hc, h]
  rw [lines, cut]

/-- A carriage return before the line feed is no part of the line. -/
theorem lines_return_newline (s : Text) : lines ('\r' :: '\n' :: s) = [] :: lines s := by
  simp [lines, lineStep]

end Lineage.Text
