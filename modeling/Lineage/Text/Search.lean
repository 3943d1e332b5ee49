import Lineage.Text.Blank

/-!
# Finding a phrase in a line

Records are recognised by fixed phrases standing somewhere on a line, and a
value is what follows its phrase. `cut?` is the one search all of that rests
on: it splits a text at the *first* place where a phrase stands. `cut?_eq_some`
and `cut?_eq_none_iff` say that it loses nothing and misses nothing.
-/

namespace Lineage.Text

/-- What stands before and after the first occurrence of `phrase`. -/
def cut? (phrase : Text) : Text → Option (Text × Text)
  | [] => if phrase.isEmpty then some ([], []) else none
  | c :: s =>
    match phrase.isPrefixOf? (c :: s) with
    | some rest => some ([], rest)
    | none => (cut? phrase s).map fun (before, rest) => (c :: before, rest)

/-- Whether `phrase` stands anywhere in the text. -/
def mentions (s phrase : Text) : Bool := (cut? phrase s).isSome

/-- What follows the last occurrence of `phrase`. -/
def afterLast? (phrase : Text) : Text → Option Text
  | [] => if phrase.isEmpty then some [] else none
  | c :: s => afterLast? phrase s <|> phrase.isPrefixOf? (c :: s)

/-- The first answer that `read?` gives at any place of the text, left to right.
The empty rest at the end is a place too. -/
def firstMatch? {α : Type} (read? : Text → Option α) : Text → Option α
  | [] => read? []
  | c :: s => read? (c :: s) <|> firstMatch? read? s

/-! ## Laws of the search -/

theorem eq_append_of_isPrefixOf? {phrase s rest : Text}
    (h : phrase.isPrefixOf? s = some rest) : s = phrase ++ rest := by
  induction phrase generalizing s with
  | nil => exact Option.some.inj h
  | cons p phrase ih =>
    cases s with
    | nil => exact nomatch (show none = some rest from h)
    | cons c s =>
      have h : (if p == c then phrase.isPrefixOf? s else none) = some rest := h
      split at h
      next hp => rw [eq_of_beq hp, ih h, List.cons_append]
      next => simp at h

@[simp] theorem isPrefixOf?_append (phrase rest : Text) :
    phrase.isPrefixOf? (phrase ++ rest) = some rest := by
  induction phrase with
  | nil => rfl
  | cons p phrase ih =>
    show (if p == p then phrase.isPrefixOf? (phrase ++ rest) else none) = some rest
    rw [if_pos BEq.rfl, ih]

/-- The two pieces and the phrase between them are the text. -/
theorem cut?_eq_some {phrase s before rest : Text} (h : cut? phrase s = some (before, rest)) :
    s = before ++ phrase ++ rest := by
  induction s generalizing before with
  | nil =>
    simp only [cut?] at h
    split at h
    next hp =>
      obtain ⟨rfl, rfl⟩ : [] = before ∧ [] = rest := by simpa using h
      simpa using hp
    next => simp at h
  | cons c s ih =>
    simp only [cut?] at h
    split at h
    next r hr =>
      obtain ⟨rfl, rfl⟩ : [] = before ∧ r = rest := by simpa using h
      simpa using eq_append_of_isPrefixOf? hr
    next =>
      obtain ⟨⟨b, r⟩, hb, heq⟩ := Option.map_eq_some_iff.1 h
      obtain ⟨rfl, rfl⟩ : c :: b = before ∧ r = rest := by simpa using heq
      rw [ih hb]
      simp

/-- The search fails only where the phrase does not stand in the text at all. -/
theorem cut?_append_ne_none (before phrase rest : Text) :
    cut? phrase (before ++ phrase ++ rest) ≠ none := by
  induction before with
  | nil =>
    cases h : phrase ++ rest with
    | nil => obtain ⟨rfl, rfl⟩ := List.append_eq_nil_iff.1 h; simp [cut?]
    | cons c s =>
      have := isPrefixOf?_append phrase rest
      rw [h] at this
      simp [cut?, h, this]
  | cons c before ih =>
    simp only [List.cons_append, cut?]
    split
    · simp
    · simpa using ih

theorem cut?_eq_none_iff {phrase s : Text} :
    cut? phrase s = none ↔ ¬ ∃ before rest, s = before ++ phrase ++ rest := by
  constructor
  · rintro h ⟨before, rest, rfl⟩
    exact cut?_append_ne_none before phrase rest h
  · intro h
    cases hc : cut? phrase s with
    | none => rfl
    | some p => exact absurd ⟨p.1, p.2, cut?_eq_some hc⟩ h

theorem mentions_iff {s phrase : Text} :
    mentions s phrase = true ↔ ∃ before rest, s = before ++ phrase ++ rest := by
  rw [mentions, Option.isSome_iff_ne_none, ne_eq, cut?_eq_none_iff, Classical.not_not]

end Lineage.Text
