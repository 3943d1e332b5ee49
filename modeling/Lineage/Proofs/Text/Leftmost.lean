import Lineage.Text.Search
import Mathlib.Data.List.Basic

/-!
# The leftmost place

A symbol may stand anywhere on its line, and so may what looks like one: a name can hold the text of
another symbol. Readers go through the line from the left and take the first place at which they
can read something (`firstMatch?`).

What such a search finds is said here without the search. If a reader takes off exactly the texts of
some form, it finds the form where it stands in the line with none further left (`IsLeftmost`,
`firstMatch?_eq_some_iff_isLeftmost`). Where a form stands at all, one stands leftmost
(`exists_isLeftmost`). If no text is of the form in two ways, that place and the form at it are
determined by the line (`IsLeftmost.unique`).

The induction is on the line throughout, since the search is a recursion on it: either there is
something to read in front, or the front character belongs to what is passed over.
-/

namespace Lineage.Text

variable {α β : Type} {read? : Text → Option β} {text : α → Text} {s line before : Text} {x : α}
  {b : β}

theorem firstMatch?_of_some (h : read? s = some b) : firstMatch? read? s = some b := by
  cases s with
  | nil => exact h
  | cons c s => rw [firstMatch?, h]; rfl

theorem firstMatch?_cons_of_none {c : Char} (h : read? (c :: s) = none) :
    firstMatch? read? (c :: s) = firstMatch? read? s := by
  rw [firstMatch?, h]
  rfl

theorem map_firstMatch? {γ : Type} (f : β → γ) (s : Text) :
    (firstMatch? read? s).map f = firstMatch? (fun s => (read? s).map f) s := by
  induction s with
  | nil => rfl
  | cons c s ih =>
    cases here : read? (c :: s) with
    | some b =>
      rw [firstMatch?_of_some here, firstMatch?_of_some (by rw [here, Option.map_some])]
      rfl
    | none =>
      rw [firstMatch?_cons_of_none here, firstMatch?_cons_of_none (by rw [here, Option.map_none]),
        ih]

/-- A search stops at the first place where there is something to read. -/
theorem firstMatch?_eq_some_iff : firstMatch? read? s = some b ↔
    ∃ before rest, s = before ++ rest ∧ read? rest = some b ∧
      ∀ before' rest', s = before' ++ rest' → before'.length < before.length →
        read? rest' = none := by
  constructor
  · intro h
    induction s with
    | nil => exact ⟨[], [], rfl, h, fun _ _ _ hlt => absurd hlt (Nat.not_lt_zero _)⟩
    | cons c s ih =>
      cases here : read? (c :: s) with
      | some d =>
        rw [firstMatch?_of_some here] at h
        exact ⟨[], c :: s, rfl, here.trans h, fun _ _ _ hlt => absurd hlt (Nat.not_lt_zero _)⟩
      | none =>
        rw [firstMatch?_cons_of_none here] at h
        obtain ⟨before, rest, rfl, hrest, hfirst⟩ := ih h
        refine ⟨c :: before, rest, rfl, hrest, fun before' rest' hs hlt => ?_⟩
        cases before' with
        | nil => exact (show c :: (before ++ rest) = rest' from hs) ▸ here
        | cons e before' =>
          exact hfirst before' rest' (List.cons.inj hs).2 (Nat.lt_of_succ_lt_succ hlt)
  · rintro ⟨before, rest, rfl, hrest, hfirst⟩
    induction before with
    | nil => exact firstMatch?_of_some hrest
    | cons c before ih =>
      have here : read? (c :: (before ++ rest)) = none := hfirst [] _ rfl (Nat.succ_pos _)
      rw [List.cons_append, firstMatch?_cons_of_none here]
      refine ih fun before' rest' hs hlt => ?_
      exact hfirst (c :: before') rest' (congrArg (c :: ·) hs) (Nat.succ_lt_succ hlt)

/-- A form stands in a line, and none stands further left. -/
structure IsLeftmost (text : α → Text) (line before : Text) (x : α) : Prop where
  stands : line = before ++ text x
  shortest : ∀ before' y, line = before' ++ text y → before.length ≤ before'.length

/-- A search for what has a form finds it at the leftmost place where the form stands. -/
theorem firstMatch?_eq_some_iff_isLeftmost {value : α → β}
    (h : ∀ s b, read? s = some b ↔ ∃ x, text x = s ∧ value x = b) :
    firstMatch? read? line = some b ↔ ∃ before x, IsLeftmost text line before x ∧ value x = b := by
  rw [firstMatch?_eq_some_iff]
  constructor
  · rintro ⟨before, rest, hline, hread, hfirst⟩
    obtain ⟨x, rfl, hx⟩ := (h rest b).1 hread
    refine ⟨before, x, ⟨hline, fun before' y hy => Nat.le_of_not_lt fun hlt => ?_⟩, hx⟩
    have found := (h (text y) (value y)).2 ⟨y, rfl, rfl⟩
    rw [hfirst before' (text y) hy hlt] at found
    cases found
  · rintro ⟨before, x, ⟨hline, hshortest⟩, hx⟩
    refine ⟨before, text x, hline, (h _ b).2 ⟨x, rfl, hx⟩, fun before' rest' hs hlt => ?_⟩
    cases hread : read? rest' with
    | none => rfl
    | some d =>
      obtain ⟨y, rfl, _⟩ := (h rest' d).1 hread
      exact absurd hlt (Nat.not_lt_of_le (hshortest before' y hs))

/-- Where a form stands in a line, it stands leftmost at some place. -/
theorem exists_isLeftmost (h : line = before ++ text x) :
    ∃ before x, IsLeftmost text line before x := by
  induction hn : before.length using Nat.strongRecOn generalizing before x with
  | _ n ih =>
    by_cases hleft : ∃ before' y, line = before' ++ text y ∧ before'.length < n
    · obtain ⟨before', y, hy, hlt⟩ := hleft
      exact ih _ hlt hy rfl
    · refine ⟨before, x, h, fun before' y hy => Nat.le_of_not_lt fun hlt => ?_⟩
      exact hleft ⟨before', y, hy, hn ▸ hlt⟩

/-- A form of which no text is put together in two ways stands leftmost at one place only. -/
theorem IsLeftmost.unique {before' : Text} {y : α} (htext : Function.Injective text)
    (h : IsLeftmost text line before x) (h' : IsLeftmost text line before' y) :
    before = before' ∧ x = y := by
  have same : before.length = before'.length :=
    Nat.le_antisymm (h.shortest _ _ h'.stands) (h'.shortest _ _ h.stands)
  obtain ⟨rfl, hxy⟩ := List.append_inj (h.stands.symm.trans h'.stands) same
  exact ⟨rfl, htext hxy⟩

end Lineage.Text
