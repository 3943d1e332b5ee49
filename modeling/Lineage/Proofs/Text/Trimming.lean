import Lineage.Proofs.Text.Clear

/-!
# White space at the end of a text

A line may lose the white space at its end. What is read off a line is a part of it, and the
question is which parts reach that far. For each way to take a part there is one lemma: trimming,
taking a token, and searching for a phrase.

A phrase that stands in a text stands before the white space at its end, or loses white space of its
own there (`mentions_trimEnd_or`). So a phrase that ends in a visible character is not lost
(`mentions_trimEnd`), and one that ends in a space may be.

Everything comes from two equations, for a text that is put together from two (`trimStart_append`,
`trimEnd_append`). A text is what trimming leaves of it and a piece of white space
(`exists_trimEnd_append`), so what is asked of a trimmed text is asked of a text with such a piece
behind it, and the equations answer.

Characters come in kinds here as they do for runs. A reader that takes characters up to a blank
cannot see white space at the end, and neither can one that trims what it takes.
-/

namespace Lineage.Text

variable {s t pad phrase : Text} {p q : Char → Bool}

/-- White space is white space in each of its parts. -/
theorem allBlank_append (s t : Text) : (s ++ t).allBlank = (s.allBlank && t.allBlank) :=
  List.all_append

/-! ## Trimming -/

theorem trimStart_of_allBlank (h : s.allBlank = true) : s.trimStart = [] :=
  List.dropWhile_eq_nil_iff.2 (List.all_eq_true.1 h)

/-- Trimming at the front reaches the second part only if the first is nothing but white space. The
other lemmas on this end are read off this one. -/
theorem trimStart_append (s t : Text) :
    (s ++ t).trimStart = if s.allBlank then t.trimStart else s.trimStart ++ t := by
  cases h : s.allBlank with
  | true => exact trimStart_append_of_allBlank h t
  | false =>
    have hne : s.dropWhile isBlank ≠ [] := fun hnil => by
      rw [allBlank, List.all_eq_true.2 (List.dropWhile_eq_nil_iff.1 hnil)] at h
      cases h
    rw [trimStart, List.dropWhile_append, if_neg fun h => hne (List.isEmpty_iff.1 h)]
    rfl

/-- Trimming at the end reaches the first part only if the second is nothing but white space. The
other lemmas on this end are read off this one. -/
theorem trimEnd_append (s t : Text) :
    (s ++ t).trimEnd = if t.allBlank then s.trimEnd else s ++ t.trimEnd := by
  have reversed : allBlank t.reverse = t.allBlank := List.all_reverse
  have turned : (trimStart (t.reverse ++ s.reverse)).reverse = (s ++ t).trimEnd := by
    rw [← List.reverse_append]
    rfl
  rw [← turned, trimStart_append, reversed]
  split
  next => rfl
  next => rw [List.reverse_append, List.reverse_reverse]; rfl

/-- The white space that is trimmed. -/
theorem exists_trimEnd_append (s : Text) : ∃ pad, allBlank pad = true ∧ s = s.trimEnd ++ pad := by
  refine ⟨(s.reverse.takeWhile isBlank).reverse, ?_, ?_⟩
  · rw [allBlank, List.all_reverse]
    exact List.all_eq_true.2 fun c hc => List.mem_takeWhile_imp hc
  · rw [trimEnd, ← List.reverse_append, List.takeWhile_append_dropWhile, List.reverse_reverse]

theorem exists_append_trimStart (s : Text) :
    ∃ pad, allBlank pad = true ∧ s = pad ++ s.trimStart :=
  ⟨s.takeWhile isBlank, List.all_eq_true.2 fun _ hc => List.mem_takeWhile_imp hc,
    List.takeWhile_append_dropWhile.symm⟩

/-- A text is what trimming leaves of it between two pieces of white space. -/
theorem exists_append_trim_append (s : Text) :
    ∃ before after, allBlank before = true ∧ allBlank after = true ∧
      s = before ++ (s.trim ++ after) := by
  obtain ⟨before, hbefore, hstart⟩ := exists_append_trimStart s
  obtain ⟨after, hafter, hend⟩ := exists_trimEnd_append s.trimStart
  refine ⟨before, after, hbefore, hafter, ?_⟩
  rw [trim, ← hend]
  exact hstart

theorem allBlank_trimEnd (s : Text) : s.trimEnd.allBlank = s.allBlank := by
  obtain ⟨pad, hpad, hs⟩ := exists_trimEnd_append s
  conv_rhs => rw [hs, allBlank_append, hpad, Bool.and_true]

theorem allBlank_trimStart (s : Text) : s.trimStart.allBlank = s.allBlank := by
  obtain ⟨pad, hpad, hs⟩ := exists_append_trimStart s
  conv_rhs => rw [hs, allBlank_append, hpad, Bool.true_and]

/-- Trimming leaves something just if there is something visible. -/
theorem allBlank_trim (s : Text) : s.trim.allBlank = s.allBlank := by
  rw [trim, allBlank_trimEnd, allBlank_trimStart]

/-- White space at the end is not seen by trimming. -/
theorem trim_append_of_allBlank (hpad : pad.allBlank = true) (s : Text) :
    (s ++ pad).trim = s.trim := by
  rw [trim, trim, trimStart_append]
  split
  next hs => rw [trimStart_of_allBlank hpad, trimStart_of_allBlank hs]
  next => exact trimEnd_append_of_allBlank hpad _

/-- Trimming at both ends does what trimming at one of them has done before. -/
theorem trim_trimEnd (s : Text) : s.trimEnd.trim = s.trim := by
  obtain ⟨pad, hpad, hs⟩ := exists_trimEnd_append s
  conv_rhs => rw [hs, trim_append_of_allBlank hpad]

/-! ## Tokens -/

/-- What ends before white space ends there, or at the end of the text. -/
theorem takeWhile_append_pad (hp : ∀ c, isBlank c = true → p c = false)
    (hpad : pad.allBlank = true) (s : Text) : (s ++ pad).takeWhile p = s.takeWhile p := by
  have nothing : pad.takeWhile p = [] := by
    cases pad with
    | nil => rfl
    | cons c pad =>
      have blank : isBlank c = true := List.all_eq_true.1 hpad c List.mem_cons_self
      exact List.takeWhile_cons_of_neg (ne_true_of_eq_false (hp c blank))
  rw [List.takeWhile_append, nothing, List.append_nil]
  split
  next hall => exact ((List.takeWhile_prefix p).eq_of_length hall).symm
  next => rfl

/-- A token that ends before white space, behind characters of which white space is one kind. -/
theorem token_append_pad (hq : ∀ c, isBlank c = true → q c = true)
    (hp : ∀ c, isBlank c = true → p c = false) (hpad : pad.allBlank = true) (s : Text) :
    ((s ++ pad).dropWhile q).takeWhile p = (s.dropWhile q).takeWhile p := by
  have nothing : pad.dropWhile q = [] :=
    List.dropWhile_eq_nil_iff.2 fun c hc => hq c (List.all_eq_true.1 hpad c hc)
  rw [List.dropWhile_append, nothing]
  split
  next hs => rw [List.isEmpty_iff.1 hs]
  next => exact takeWhile_append_pad hp hpad _

/-- What ends before a visible character may take white space with it from the end of the text. -/
theorem trim_takeWhile_append_pad (p : Char → Bool) (hpad : pad.allBlank = true) (s : Text) :
    trim ((s ++ pad).takeWhile p) = trim (s.takeWhile p) := by
  rw [List.takeWhile_append]
  split
  next hall =>
    have taken : allBlank (pad.takeWhile p) = true :=
      List.all_eq_true.2 fun c hc =>
        List.all_eq_true.1 hpad c ((List.takeWhile_prefix p).subset hc)
    rw [trim_append_of_allBlank taken, (List.takeWhile_prefix p).eq_of_length hall]
  next => rfl

/-! ## Phrases -/

/-- A phrase that stands in a text stands before the white space at its end, or all but the white
space at the end of the phrase does. -/
theorem mentions_trimEnd_or (hphrase : phrase.allBlank = false) (h : s.mentions phrase = true) :
    s.trimEnd.mentions phrase = true ∨ phrase.trimEnd <:+ s.trimEnd := by
  obtain ⟨before, rest, rfl⟩ := mentions_iff.1 h
  rw [trimEnd_append]
  split
  next =>
    right
    rw [trimEnd_append, if_neg (ne_true_of_eq_false hphrase)]
    exact List.suffix_append before _
  next => exact .inl (mentions_iff.2 ⟨before, rest.trimEnd, rfl⟩)

/-- A phrase that ends in a visible character is not lost. -/
theorem mentions_trimEnd {c : Char} (hc : isBlank c = false) (phrase s : Text) :
    s.trimEnd.mentions (phrase ++ [c]) = s.mentions (phrase ++ [c]) := by
  refine Bool.eq_iff_iff.2 ⟨mentions_mono (trimEnd_isPrefix s).isInfix, fun h => ?_⟩
  have visible : allBlank (phrase ++ [c]) = false :=
    allBlank_eq_false (List.mem_append_right phrase List.mem_cons_self) hc
  rcases mentions_trimEnd_or visible h with hmentions | hends
  · exact hmentions
  · rw [trimEnd_concat_of_not_blank hc] at hends
    exact mentions_iff_isInfix.2 hends.isInfix

end Lineage.Text
