import Lineage.Address
import Lineage.Proofs.Text.Run
import Lineage.TypeId

/-!
# Hexadecimal numerals

Addresses, sizes and ids are spelled in hexadecimal digits of either case, with any number of zeros
before them. The program's readers allow a mark and then a plus sign in front, and white space
around it all. `IsHexNumeral` says this without reading. What is read has that form and the value of
its digits, and everything of that form is read, as long as the value fits in the words it is read
for.

The reader goes through the characters once and keeps a number. What it does is therefore stated for
any number to start from, and the induction is on the characters that are left. The mark and the
sign are looked for before that, and are told apart from digits by computation, as they are fixed
texts.

Main results: `hexNumber?_eq_some_iff`, `word?_eq_some_iff` and `TypeId.read?_eq_some_iff`, and of
what the program writes itself `word?_text`.
-/

namespace Lineage

namespace Text

variable {s digits : Text} {c : Char} {m n : Nat}

/-! ## Digits -/

theorem toNat_of_isHexDigit (h : isHexDigit c = true) :
    (48 ≤ c.toNat ∧ c.toNat ≤ 57) ∨ (97 ≤ c.toNat ∧ c.toNat ≤ 102) ∨
      (65 ≤ c.toNat ∧ c.toNat ≤ 70) := by
  unfold isHexDigit hexDigit? at h
  simp only [Bool.and_eq_true, decide_eq_true_eq, Char.le_def, UInt32.le_iff_toNat_le] at h
  split at h
  next hc => exact .inl hc
  next =>
    split at h
    next hc => exact .inr (.inl hc)
    next =>
      split at h
      next hc => exact .inr (.inr hc)
      next => cases h

/-- Digits are visible, so trimming leaves them alone. -/
theorem isBlank_of_isHexDigit (h : isHexDigit c = true) : isBlank c = false := by
  have := toNat_of_isHexDigit h
  simp only [isBlank, Bool.or_eq_false_iff, Bool.and_eq_false_iff, decide_eq_false_iff_not,
    beq_eq_false_iff_ne]
  omega

/-- Hexadecimal digits, at least one. -/
structure IsHexRun (s : Text) : Prop where
  ne_nil : s ≠ []
  isHexDigit : ∀ c ∈ s, isHexDigit c = true

/-- A number with one more digit. -/
def withHexDigit (n : Nat) (c : Char) : Nat := n * 16 + (hexDigit? c).getD 0

/-- The number that digits spell. -/
def hexValue (s : Text) : Nat := s.foldl withHexDigit 0

theorem IsHexRun.not_mem (h : IsHexRun s) (hc : Text.isHexDigit c = false) : c ∉ s := by
  intro hmem
  rw [h.isHexDigit c hmem] at hc
  cases hc

/-- Digits are read from left to right, each of them making the number sixteen times as large and
adding its value. -/
theorem digitsFrom?_eq_some_iff : digitsFrom? hexDigit? 16 m s = some n ↔
    (∀ c ∈ s, isHexDigit c = true) ∧ s.foldl withHexDigit m = n := by
  induction s generalizing m with
  | nil => simp [digitsFrom?]
  | cons c s ih =>
    rw [digitsFrom?, List.forall_mem_cons, List.foldl_cons, withHexDigit, isHexDigit]
    cases hexDigit? c with
    | none => exact iff_of_false (fun h => by cases h) fun h => by cases h.1.1
    | some d => simpa using ih

/-- There has to be a digit. -/
theorem digits?_eq_some_iff : digits? hexDigit? 16 s = some n ↔ IsHexRun s ∧ hexValue s = n := by
  rw [digits?]
  cases s with
  | nil => exact iff_of_false (fun h => by cases h) fun h => h.1.ne_nil rfl
  | cons c s =>
    rw [List.isEmpty_cons, if_neg Bool.false_ne_true, digitsFrom?_eq_some_iff]
    exact and_congr_left' ⟨fun h => ⟨List.cons_ne_nil c s, h⟩, IsHexRun.isHexDigit⟩

/-- What is written is read back, with or without zeros before it. -/
theorem digits?_padded (width n : Nat) :
    digits? hexDigit? 16 (padded width (hex n)) = some n := by
  have some_digit : padded width (hex n) ≠ [] :=
    List.append_ne_nil_of_right_ne_nil _ (by simp [hex])
  rw [digits?, if_neg (mt List.isEmpty_iff.1 some_digit), padded, digitsFrom?_zeros,
    digitsFrom?_hex]

/-! ## Numerals -/

/-- What may mark a number as hexadecimal. -/
def hexMarks : List Text := [[], "0x".toList, "0X".toList]

/-- What may stand between the mark and the digits. -/
def plusSigns : List Text := [[], "+".toList]

/-- The text spells a number in hexadecimal. -/
def IsHexNumeral (s : Text) (n : Nat) : Prop :=
  ∃ mark ∈ hexMarks, ∃ sign ∈ plusSigns, ∃ digits,
    s = mark ++ (sign ++ digits) ∧ IsHexRun digits ∧ hexValue digits = n

/-- One plus sign is allowed in front. -/
theorem hexadecimal?_eq_some_iff : hexadecimal? s = some n ↔
    ∃ sign ∈ plusSigns, ∃ digits, s = sign ++ digits ∧ IsHexRun digits ∧ hexValue digits = n := by
  constructor
  · intro h
    unfold hexadecimal? unsigned? at h
    split at h
    next digits =>
      exact ⟨['+'], List.mem_cons_of_mem _ List.mem_cons_self, digits, rfl,
        digits?_eq_some_iff.1 h⟩
    next => exact ⟨[], List.mem_cons_self, s, rfl, digits?_eq_some_iff.1 h⟩
  · rintro ⟨sign, hsign, digits, rfl, hdigits⟩
    have hread := digits?_eq_some_iff.2 hdigits
    rcases List.mem_cons.1 hsign with rfl | hsign
    · rw [List.nil_append, hexadecimal?, unsigned?]
      · exact hread
      · rintro rest rfl
        exact hdigits.1.not_mem (by decide) List.mem_cons_self
    · obtain rfl := List.mem_singleton.1 hsign
      exact hread

/-- What has no `x` has no mark. -/
theorem dropHexMark_eq_self (hx : 'x' ∉ s) (hX : 'X' ∉ s) : dropHexMark s = s := by
  unfold dropHexMark
  split
  next => exact absurd (List.mem_cons_of_mem _ List.mem_cons_self) hx
  next => exact absurd (List.mem_cons_of_mem _ List.mem_cons_self) hX
  next => rfl

/-- A mark is dropped if there is one. -/
theorem exists_eq_append_dropHexMark (s : Text) : ∃ mark ∈ hexMarks, s = mark ++ dropHexMark s := by
  unfold dropHexMark
  split
  next => exact ⟨"0x".toList, by decide, rfl⟩
  next => exact ⟨"0X".toList, by decide, rfl⟩
  next => exact ⟨[], by decide, rfl⟩

/-- What is read as a number is a numeral with white space around it. -/
theorem hexNumber?_eq_some_iff : hexNumber? s = some n ↔ IsHexNumeral s.trim n := by
  rw [hexNumber?, hexadecimal?_eq_some_iff]
  constructor
  · rintro ⟨sign, hsign, digits, htail, hdigits⟩
    obtain ⟨mark, hmark, hwhole⟩ := exists_eq_append_dropHexMark s.trim
    exact ⟨mark, hmark, sign, hsign, digits, htail ▸ hwhole, hdigits⟩
  · rintro ⟨mark, hmark, sign, hsign, digits, hwhole, hdigits⟩
    refine ⟨sign, hsign, digits, ?_, hdigits⟩
    rw [hwhole]
    have unmarked {x : Char} (hx : isHexDigit x = false) (hsigns : ∀ sign ∈ plusSigns, x ∉ sign) :
        x ∉ sign ++ digits := fun hmem =>
      (List.mem_append.1 hmem).elim (hsigns sign hsign) (hdigits.1.not_mem hx)
    simp only [hexMarks, List.mem_cons, List.not_mem_nil, or_false] at hmark
    rcases hmark with rfl | rfl | rfl
    · exact dropHexMark_eq_self (unmarked (by decide) (by decide))
        (unmarked (by decide) (by decide))
    · rfl
    · rfl

theorem isBlank_of_mem_mark {part : Text} (h : part ∈ hexMarks ++ plusSigns) :
    ∀ c ∈ part, isBlank c = false := by
  have visible : ((hexMarks ++ plusSigns).all fun part => part.all fun c => !isBlank c) = true :=
    rfl
  intro c hc
  have := List.all_eq_true.1 (List.all_eq_true.1 visible part h) c hc
  rwa [Bool.not_eq_true'] at this

/-- A numeral is visible text. -/
theorem IsHexNumeral.isBlank (h : IsHexNumeral s n) : ∀ c ∈ s, isBlank c = false := by
  obtain ⟨mark, hmark, sign, hsign, digits, rfl, hdigits, _⟩ := h
  intro c hc
  rcases List.mem_append.1 hc with hc | hc
  · exact isBlank_of_mem_mark (List.mem_append_left _ hmark) c hc
  rcases List.mem_append.1 hc with hc | hc
  · exact isBlank_of_mem_mark (List.mem_append_right _ hsign) c hc
  · exact isBlank_of_isHexDigit (hdigits.isHexDigit c hc)

/-- What is no digit and in no mark or sign does not stand in a numeral. -/
theorem IsHexNumeral.not_mem (h : IsHexNumeral s n) (hdigit : isHexDigit c = false)
    (hmarks : ∀ mark ∈ hexMarks, c ∉ mark) (hsigns : ∀ sign ∈ plusSigns, c ∉ sign) : c ∉ s := by
  obtain ⟨mark, hmark, sign, hsign, digits, rfl, hdigits, _⟩ := h
  simp only [List.mem_append, not_or]
  exact ⟨hmarks mark hmark, hsigns sign hsign, hdigits.not_mem hdigit⟩

theorem IsHexNumeral.ne_nil (h : IsHexNumeral s n) : s ≠ [] := by
  obtain ⟨mark, _, sign, _, digits, rfl, hdigits, _⟩ := h
  exact List.append_ne_nil_of_right_ne_nil _
    (List.append_ne_nil_of_right_ne_nil _ hdigits.ne_nil)

/-- Digits alone are a numeral. -/
theorem IsHexRun.isHexNumeral (h : IsHexRun s) : IsHexNumeral s (hexValue s) :=
  ⟨[], List.mem_cons_self, [], List.mem_cons_self, s, rfl, h, rfl⟩

/-- So are digits behind the mark. -/
theorem isHexNumeral_of_digits? (h : digits? hexDigit? 16 digits = some n) :
    IsHexNumeral ("0x".toList ++ digits) n :=
  ⟨"0x".toList, by decide, [], by decide, digits, rfl, digits?_eq_some_iff.1 h⟩

end Text

/-! ## Words and ids -/

/-- What is read as a word is a numeral below 2^64 with white space around it. -/
theorem word?_eq_some_iff {token : Text} {v : UInt64} :
    word? token = some v ↔ Text.IsHexNumeral token.trim v.toNat := by
  rw [← Text.hexNumber?_eq_some_iff, word?, Option.bind_eq_some_iff]
  constructor
  · rintro ⟨n, hn, hv⟩
    split at hv
    next hlt =>
      obtain rfl := Option.some.inj hv
      rw [hn, UInt64.toNat_ofNat_of_lt' hlt]
    next => cases hv
  · intro hn
    refine ⟨v.toNat, hn, ?_⟩
    rw [if_pos v.toNat_lt_size, UInt64.ofNat_toNat]

/-- What is read as an id is a numeral below 2^32 with white space around it. -/
theorem TypeId.read?_eq_some_iff {token : Text} {id : TypeId} :
    TypeId.read? token = some id ↔ Text.IsHexNumeral token.trim id.value.toNat := by
  rw [← Text.hexNumber?_eq_some_iff, TypeId.read?, Option.bind_eq_some_iff]
  simp only [ofNat?_eq_some_iff]
  exact ⟨fun ⟨n, hn, hid⟩ => hid ▸ hn, fun hn => ⟨_, hn, rfl⟩⟩

/-! ## Written addresses -/

/-- An address is read back from its text. -/
theorem word?_text (a : Address) : word? a.text = some a.value := by
  have numeral : Text.IsHexNumeral a.text a.value.toNat := by
    have digits := Text.digits?_padded 0 a.value.toNat
    rw [Text.padded, Nat.zero_sub, List.replicate_zero, List.nil_append] at digits
    exact Text.isHexNumeral_of_digits? digits
  rw [word?_eq_some_iff, Text.trim_eq_self_of_visible numeral.isBlank]
  exact numeral

/-- The text of an address can stand for it, since it reads back. -/
theorem Address.text_injective {a b : Address} (h : a.text = b.text) : a = b := by
  have same : some a.value = some b.value := by rw [← word?_text a, h, word?_text]
  exact congrArg Address.mk (Option.some.inj same)

end Lineage
