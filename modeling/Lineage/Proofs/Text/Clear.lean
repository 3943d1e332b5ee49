import Lineage.Text.Numeral
import Lineage.Text.Search
import Mathlib.Data.List.DropRight

/-!
# Text that a search passes over

A search takes the first place where a phrase stands. To know what it finds in a line that was put
together from parts, one has to know that nothing before the place that is meant is taken for it:
no part has the phrase in it, and none ends in such a way that the phrase might begin there and go
on into the next part.

`Clear phrase a rest` says that no occurrence of the phrase in `a ++ rest` begins in `a`. It can be
shown part by part (`clear_append`). A fixed part is checked by evaluation (`clear_of_clears`), a
number by its digits (`clear_of_not_mem`). A part that may hold any text but the phrase is clear
if the character after it does not occur within the phrase (`clear_of_break`).

Main results: `cut?_append_of_clear` and `cut?_of_clear`.
-/

namespace Lineage.Text

variable {phrase a b rest : Text} {c : Char}

/-- No occurrence of the phrase in `a ++ rest` begins in `a`. -/
def Clear (phrase : Text) : Text → Text → Prop
  | [], _ => True
  | c :: a, rest => ¬ phrase <+: c :: (a ++ rest) ∧ Clear phrase a rest

/-- Parts are clear together if each is clear with what follows it. -/
theorem clear_append :
    Clear phrase (a ++ b) rest ↔ Clear phrase a (b ++ rest) ∧ Clear phrase b rest := by
  induction a with
  | nil => simp [Clear]
  | cons c a ih => simp only [List.cons_append, Clear, ih, List.append_assoc, and_assoc]

/-! ## Parts that are clear -/

/-- A part without the first character of the phrase is clear. -/
theorem clear_of_not_mem (hphrase : phrase.head? = some c) (h : c ∉ a) :
    Clear phrase a rest := by
  induction a with
  | nil => trivial
  | cons d a ih =>
    refine ⟨fun hprefix => ?_, ih fun hc => h (List.mem_cons_of_mem d hc)⟩
    obtain ⟨p, hp⟩ := List.head?_eq_some_iff.1 hphrase
    rw [hp] at hprefix
    have same : c = d := (List.cons_prefix_cons.1 hprefix).1
    exact h (same ▸ List.mem_cons_self)

/-- Whether no suffix of a text agrees with a phrase as far as both go. -/
def clears (phrase : Text) : Text → Bool
  | [] => true
  | c :: a => !phrase.isPrefixOf (c :: a) && !(c :: a).isPrefixOf phrase && clears phrase a

/-- A text that agrees with the phrase nowhere is clear, whatever follows. -/
theorem clear_of_clears (h : clears phrase a = true) : Clear phrase a rest := by
  induction a with
  | nil => trivial
  | cons c a ih =>
    simp only [clears, Bool.and_eq_true, Bool.not_eq_true', ← Bool.not_eq_true,
      List.isPrefixOf_iff_prefix] at h
    obtain ⟨⟨hlong, hshort⟩, ha⟩ := h
    refine ⟨fun hprefix => ?_, ih ha⟩
    exact (List.prefix_or_prefix_of_prefix hprefix (List.prefix_append (c :: a) rest)).elim
      hlong hshort

theorem mentions_iff_isInfix {s : Text} : s.mentions phrase = true ↔ phrase <:+: s := by
  rw [mentions_iff]
  refine ⟨?_, ?_⟩
  · rintro ⟨before, rest, rfl⟩
    exact List.infix_append before phrase rest
  · rintro ⟨before, rest, rfl⟩
    exact ⟨before, rest, rfl⟩

theorem mentions_eq_false_iff {s : Text} : s.mentions phrase = false ↔ ¬ phrase <:+: s := by
  rw [← Bool.not_eq_true, mentions_iff_isInfix]

/-- What a part mentions, the whole does. -/
theorem mentions_mono {s t : Text} (h : s <:+: t) (hs : s.mentions phrase = true) :
    t.mentions phrase = true :=
  mentions_iff_isInfix.2 ((mentions_iff_isInfix.1 hs).trans h)

/-- A text without the phrase is clear if the character after it does not stand within the phrase.
An occurrence that began in the text would have to go on over that character. -/
theorem clear_of_break (h : a.mentions phrase = false) (hc : c ∉ phrase.tail) :
    Clear phrase a (c :: rest) := by
  rw [mentions_eq_false_iff] at h
  induction a with
  | nil => trivial
  | cons d a ih =>
    refine ⟨fun hprefix => ?_, ih fun ha => h (ha.trans (List.suffix_cons d a).isInfix)⟩
    have hpart : d :: a <+: d :: (a ++ c :: rest) := List.prefix_append (d :: a) (c :: rest)
    rcases List.prefix_or_prefix_of_prefix hprefix hpart with hin | ⟨q, hq⟩
    · exact h hin.isInfix
    · cases q with
      | nil =>
        rw [List.append_nil] at hq
        subst hq
        exact h (List.infix_refl _)
      | cons e q =>
        rw [← hq, List.cons_append, List.cons_prefix_cons, List.prefix_append_right_inj,
          List.cons_prefix_cons] at hprefix
        refine hc ?_
        rw [← hq, ← hprefix.2.1]
        exact List.mem_append_right a List.mem_cons_self

/-! ## What the search finds -/

theorem isPrefixOf?_eq_none {s : Text} (h : ¬ phrase <+: s) : phrase.isPrefixOf? s = none := by
  cases hs : phrase.isPrefixOf? s with
  | none => rfl
  | some rest => exact absurd ⟨rest, (eq_append_of_isPrefixOf? hs).symm⟩ h

/-- The search passes over a clear part. -/
theorem cut?_append_of_clear (h : Clear phrase a rest) :
    cut? phrase (a ++ rest) = (cut? phrase rest).map fun e => (a ++ e.1, e.2) := by
  induction a with
  | nil =>
    rw [List.nil_append]
    cases cut? phrase rest <;> rfl
  | cons c a ih =>
    obtain ⟨hc, ha⟩ := h
    rw [List.cons_append, cut?, isPrefixOf?_eq_none hc, ih ha]
    cases cut? phrase rest <;> rfl

theorem cut?_self_append (h : phrase ≠ []) : cut? phrase (phrase ++ rest) = some ([], rest) := by
  obtain ⟨c, p, rfl⟩ := List.exists_cons_of_ne_nil h
  rw [List.cons_append, cut?, ← List.cons_append, isPrefixOf?_append]

/-- The search finds the phrase behind a clear part. -/
theorem cut?_of_clear (hphrase : phrase ≠ []) (h : Clear phrase a (phrase ++ rest)) :
    cut? phrase (a ++ (phrase ++ rest)) = some (a, rest) := by
  rw [cut?_append_of_clear h, cut?_self_append hphrase, Option.map_some, List.append_nil]

theorem mentions_append_of_clear (h : Clear phrase a rest) :
    (a ++ rest).mentions phrase = rest.mentions phrase := by
  rw [mentions, mentions, cut?_append_of_clear h, Option.isSome_map]

theorem mentions_append_right (a rest : Text) : (a ++ (phrase ++ rest)).mentions phrase = true :=
  mentions_iff_isInfix.2 (List.infix_append' a phrase rest)

theorem mentions_eq_false_of_not_mem {s : Text} (hphrase : c ∈ phrase) (h : c ∉ s) :
    s.mentions phrase = false :=
  mentions_eq_false_iff.2 fun hs => h (hs.subset hphrase)

/-- The first place stays the first one when the text goes on. -/
theorem cut?_append_of_eq_some {s before : Text} (h : cut? phrase s = some (before, rest))
    (t : Text) : cut? phrase (s ++ t) = some (before, rest ++ t) := by
  induction s generalizing before with
  | nil =>
    rw [cut?] at h
    split at h
    next hnil =>
      obtain ⟨rfl, rfl⟩ := Prod.mk.inj (Option.some.inj h)
      obtain rfl := List.isEmpty_iff.1 hnil
      cases t <;> rfl
    next => cases h
  | cons c s ih =>
    rw [cut?] at h
    rw [List.cons_append, cut?]
    split at h
    next r hr =>
      obtain ⟨rfl, rfl⟩ := Prod.mk.inj (Option.some.inj h)
      rw [← List.cons_append, eq_append_of_isPrefixOf? hr, List.append_assoc, isPrefixOf?_append]
    next hr =>
      obtain ⟨⟨b, r⟩, hb, heq⟩ := Option.map_eq_some_iff.1 h
      obtain ⟨rfl, rfl⟩ := Prod.mk.inj heq
      -- The phrase stands further on in the text, so it is not too long to be seen here.
      have not_here : ¬ phrase <+: c :: (s ++ t) := by
        intro hprefix
        have hlong : phrase.length ≤ (c :: s).length := by
          rw [cut?_eq_some hb]
          simp only [List.length_cons, List.length_append]
          omega
        obtain ⟨r', hr'⟩ := List.prefix_of_prefix_length_le hprefix
          (List.prefix_append (c :: s) t) hlong
        rw [← hr', isPrefixOf?_append] at hr
        cases hr
      rw [isPrefixOf?_eq_none not_here, ih hb]
      rfl

/-! ## The last place -/

/-- What stands behind the last occurrence stands at the end of the text. -/
theorem eq_append_of_afterLast? {s : Text} (h : afterLast? phrase s = some rest) :
    ∃ before, s = before ++ (phrase ++ rest) := by
  induction s with
  | nil =>
    rw [afterLast?] at h
    split at h
    next hp =>
      obtain rfl : [] = rest := Option.some.inj h
      exact ⟨[], by rw [List.isEmpty_iff.1 hp]; rfl⟩
    next => cases h
  | cons d s ih =>
    rw [afterLast?] at h
    cases hs : afterLast? phrase s with
    | some r =>
      rw [hs] at h ih
      obtain ⟨before, rfl⟩ := ih h
      exact ⟨d :: before, rfl⟩
    | none =>
      have here : phrase.isPrefixOf? (d :: s) = some rest := by rwa [hs] at h
      have whole := eq_append_of_isPrefixOf? here
      exact ⟨[], whole⟩

/-- An occurrence further on comes later. -/
theorem afterLast?_append_of_eq_some {s : Text} (h : afterLast? phrase s = some rest) (a : Text) :
    afterLast? phrase (a ++ s) = some rest := by
  induction a with
  | nil => exact h
  | cons d a ih =>
    rw [List.cons_append, afterLast?, ih]
    rfl

theorem afterLast?_append_of_clear (h : Clear phrase a rest) :
    afterLast? phrase (a ++ rest) = afterLast? phrase rest := by
  induction a with
  | nil => rfl
  | cons d a ih =>
    obtain ⟨hd, ha⟩ := h
    rw [List.cons_append, afterLast?, ih ha, isPrefixOf?_eq_none hd]
    cases afterLast? phrase rest <;> rfl

theorem afterLast?_eq_none_iff {s : Text} :
    afterLast? phrase s = none ↔ s.mentions phrase = false := by
  rw [mentions_eq_false_iff]
  induction s with
  | nil =>
    rw [afterLast?, List.infix_nil]
    cases phrase <;> simp
  | cons d s ih =>
    rw [afterLast?, List.infix_cons_iff, not_or, ← ih, and_comm]
    cases hs : afterLast? phrase s with
    | some r => exact iff_of_false (fun h => nomatch h) fun h => nomatch h.1
    | none =>
      refine ⟨fun h => ⟨rfl, ?_⟩, fun h => isPrefixOf?_eq_none h.2⟩
      rintro ⟨r, hr⟩
      have found := isPrefixOf?_append phrase r
      rw [hr] at found
      exact nomatch found.symm.trans h

/-- A phrase that stands at the start of two parts stands in the first one, if the second starts
with a character that is not in the phrase. -/
theorem isPrefix_of_break (hc : c ∉ phrase) (h : phrase <+: a ++ c :: rest) : phrase <+: a := by
  rcases List.prefix_or_prefix_of_prefix h (List.prefix_append a (c :: rest)) with hin | ⟨q, hq⟩
  · exact hin
  · cases q with
    | nil =>
      rw [List.append_nil] at hq
      exact hq ▸ List.prefix_rfl
    | cons e q =>
      rw [← hq, List.prefix_append_right_inj, List.cons_prefix_cons] at h
      refine absurd ?_ hc
      rw [← hq, ← h.1]
      exact List.mem_append_right a List.mem_cons_self

/-! ## Numbers and white space -/

theorem not_mem_decimal (n : Nat) (h : c.isDigit = false) : c ∉ decimal n := by
  intro hc
  rw [Nat.isDigit_of_mem_toDigits (by decide) (by decide) hc] at h
  cases h

theorem isBlank_of_mem_decimal {n : Nat} (h : c ∈ decimal n) : isBlank c = false := by
  have digit := Nat.isDigit_of_mem_toDigits (by decide) (by decide) h
  simp only [Char.isDigit, Bool.and_eq_true, decide_eq_true_eq, ge_iff_le,
    UInt32.le_iff_toNat_le] at digit
  have first : 48 ≤ c.toNat := digit.1
  have last : c.toNat ≤ 57 := digit.2
  simp only [isBlank, Bool.or_eq_false_iff, Bool.and_eq_false_iff, decide_eq_false_iff_not,
    beq_eq_false_iff_ne]
  omega

theorem not_mem_of_allBlank (ha : allBlank a = true) (hc : isBlank c = false) : c ∉ a := by
  intro hmem
  rw [List.all_eq_true.1 ha c hmem] at hc
  cases hc

theorem allBlank_eq_false (h : c ∈ a) (hc : isBlank c = false) : allBlank a = false := by
  rw [← Bool.not_eq_true]
  exact fun ha => not_mem_of_allBlank ha hc h

theorem trimEnd_trimEnd (s : Text) : s.trimEnd.trimEnd = s.trimEnd := by
  rw [trimEnd, trimEnd, List.reverse_reverse, List.dropWhile_idempotent]

theorem trimEnd_isPrefix (s : Text) : s.trimEnd <+: s := by
  rw [← List.reverse_suffix, trimEnd, List.reverse_reverse]
  exact List.dropWhile_suffix _

theorem trim_isInfix (s : Text) : s.trim <:+: s :=
  (trimEnd_isPrefix _).isInfix.trans (List.dropWhile_suffix _).isInfix

theorem trimEnd_eq_self_of_trim (h : a.trim = a) : a.trimEnd = a := by
  rw [← h, trim, trimEnd_trimEnd]

/-- White space around text that starts and ends with visible characters is all that is
trimmed. -/
theorem trim_between (ha : allBlank a = true) (hb : allBlank b = true) {s : Text} {d : Char}
    (hstart : s.head? = some c) (hc : isBlank c = false) (hend : s.getLast? = some d)
    (hd : isBlank d = false) : (a ++ (s ++ b)).trim = s := by
  obtain ⟨t, rfl⟩ := List.head?_eq_some_iff.1 hstart
  rw [trim, trimStart_append_of_allBlank ha, List.cons_append, trimStart_cons_of_not_blank hc,
    ← List.cons_append, trimEnd_append_of_allBlank hb]
  obtain ⟨t', ht'⟩ := List.getLast?_eq_some_iff.1 hend
  rw [ht', trimEnd_concat_of_not_blank hd]

theorem trim_after (ha : allBlank a = true) {s : Text} {d : Char} (hstart : s.head? = some c)
    (hc : isBlank c = false) (hend : s.getLast? = some d) (hd : isBlank d = false) :
    (a ++ s).trim = s := by
  have := trim_between (b := []) ha rfl hstart hc hend hd
  rwa [List.append_nil] at this

/-- A phrase that ends in a space stands where the text goes on with one. -/
theorem isInfix_of_isSuffix (h : phrase ++ [c] <:+ a) :
    phrase ++ [c, ' '] <:+: a ++ ' ' :: rest := by
  obtain ⟨front, rfl⟩ := h
  exact ⟨front, rest, by simp⟩

/-- A phrase that ends in a space is still there when white space at the end of a line gives way to
a space. Its last visible character is not in the white space. -/
theorem isInfix_of_wrapped (hc : isBlank c = false) (hb : allBlank b = true)
    (h : phrase ++ [c, ' '] <:+: a ++ b) : phrase ++ [c, ' '] <:+: a ++ ' ' :: rest := by
  induction b using List.reverseRecOn with
  | nil =>
    rw [List.append_nil] at h
    exact h.trans (List.prefix_append _ _).isInfix
  | append_singleton b d ih =>
    rw [allBlank, List.all_append, Bool.and_eq_true] at hb
    rw [← List.append_assoc, List.infix_concat_iff] at h
    rcases h with ⟨front, hfront⟩ | hinfix
    · have split : phrase ++ [c, ' '] = (phrase ++ [c]) ++ [' '] := by simp
      rw [split, ← List.append_assoc] at hfront
      have inner : front ++ (phrase ++ [c]) = a ++ b := List.append_inj_left' hfront rfl
      cases b using List.reverseRecOn with
      | nil => exact isInfix_of_isSuffix ⟨front, by rwa [List.append_nil] at inner⟩
      | append_singleton b e =>
        rw [← List.append_assoc, ← List.append_assoc] at inner
        have he : c = e := List.singleton_inj.1 (List.append_inj_right' inner rfl)
        have blank := List.all_eq_true.1 hb.1 e (by simp)
        rw [← he, hc] at blank
        cases blank
    · exact ih hb.1 hinfix

end Lineage.Text
