import Lineage.QualifiedName

/-!
# Balanced text

A template argument list is text in which brackets pair up, to any depth, between a pair of its
own. Both readers of qualified names count open brackets as they go. The count comes back to what
it was at the end of balanced text, so inside of a bracket such text is passed over, whatever else
is in it: separators, the word `operator`, further lists.

Balance is an inductive predicate, and the induction over it is what every lemma here is made of.
A character that is no bracket changes no count, a pair of brackets raises it and lowers it again,
and a text behind another one starts from the count that this left. The count is general in each
lemma, since the inner text of a pair is gone through one level deeper.

One level at least has to be open, and a list with its brackets opens one itself. At the outermost
level the readers do look at separators, and what they do there is the matter of the modules that
build on this one.

Main results: `stripFrom_balanced`, `stripFrom_list` and `componentFrom_balanced`.
-/

namespace Lineage.QualifiedName

/-- Text in which brackets pair up. -/
inductive Balanced : Text → Prop
  | nil : Balanced []
  | char {c : Char} {s : Text} (hopen : c ≠ '<') (hclose : c ≠ '>') (hs : Balanced s) :
    Balanced (c :: s)
  | list {s t : Text} (hs : Balanced s) (ht : Balanced t) : Balanced ('<' :: (s ++ '>' :: t))

theorem balanced_of_not_mem {s : Text} (hopen : '<' ∉ s) (hclose : '>' ∉ s) : Balanced s := by
  induction s with
  | nil => exact .nil
  | cons c s ih =>
    rw [List.mem_cons, not_or] at hopen hclose
    exact .char (Ne.symm hopen.1) (Ne.symm hclose.1) (ih hopen.2 hclose.2)

theorem Balanced.append {s t : Text} (hs : Balanced s) (ht : Balanced t) : Balanced (s ++ t) := by
  induction hs with
  | nil => exact ht
  | char hopen hclose _ ih => exact .char hopen hclose ih
  | list hs _ _ ih =>
    rw [List.cons_append, List.append_assoc, List.cons_append]
    exact .list hs ih

/-- Inside of a bracket, balanced text is dropped. -/
theorem stripFrom_balanced {s : Text} (h : Balanced s) (depth : Nat) (rest : Text) :
    stripFrom (depth + 1) (s ++ rest) = stripFrom (depth + 1) rest := by
  induction h generalizing depth rest with
  | nil => rfl
  | char hopen hclose _ ih =>
    rw [List.cons_append, stripFrom.eq_5 _ _ _ hopen hclose, ih]
  | list _ _ ihs iht =>
    -- The list is one bracket deeper than the text around it.
    rw [List.cons_append, List.append_assoc, List.cons_append, stripFrom, ihs, stripFrom, iht]

/-- A template argument list is dropped with its brackets. -/
theorem stripFrom_list {arguments : Text} (h : Balanced arguments) (depth : Nat) (rest : Text) :
    stripFrom depth ('<' :: (arguments ++ '>' :: rest)) = stripFrom depth rest := by
  rw [stripFrom, stripFrom_balanced h, stripFrom]

/-- Inside of a bracket, balanced text ends no component. -/
theorem componentFrom_balanced {s : Text} (h : Balanced s) (depth : Nat) (current rest : Text) :
    componentFrom (depth + 1) current (s ++ rest) = componentFrom (depth + 1) current rest := by
  induction h generalizing depth rest with
  | nil => rfl
  | char hopen hclose _ ih =>
    rw [List.cons_append, componentFrom.eq_5 _ _ _ _ hopen hclose, ih]
    intro s' hdepth
    exact absurd hdepth (Nat.succ_ne_zero depth)
  | list _ _ ihs iht =>
    rw [List.cons_append, List.append_assoc, List.cons_append, componentFrom, ihs, componentFrom,
      Nat.add_sub_cancel, iht]

end Lineage.QualifiedName
