import Lineage.Proofs.Dump.Values
import Lineage.Proofs.Text.Trimming
import Mathlib.Data.Nat.Digits.Defs

/-!
# Which tokens are numbers

Every id, size and address of a dump is a token that is read as a hexadecimal number, and the
program writes ids and addresses in the same notation. `HexSpelling` is such a token taken apart:
white space, a mark, a plus sign, digits with the numbers they stand for, white space again. All
but the digits may be missing. Its value is the value of the digits to the base sixteen, so zeros
before them count for nothing.

A token is read exactly if it has a spelling and the value fits. What the program writes is one,
whether or not zeros bring it to a width, and so ids and addresses are read back. It follows that
the text of an address can stand for the address, as it does among the keys of a document.

Main result: `reads_exactly_numbers`.
-/

namespace Lineage

namespace Text

variable {token s : Text} {c : Char} {n : Nat} {ds : List (Char × Nat)}

/-! ## Digits and their values -/

/-- The digits with the numbers they stand for. -/
def hexDigits : List (Char × Nat) :=
  "0123456789abcdef".toList.zipIdx ++ "ABCDEF".toList.zipIdx 10

/-- The number that digits stand for together, the most significant digit first. -/
def positional (ds : List (Char × Nat)) : Nat := Nat.ofDigits 16 (ds.map Prod.snd).reverse

/-- The table has digits with their values. -/
theorem hexDigit?_of_mem : ∀ d ∈ hexDigits, hexDigit? d.1 = some d.2 := by decide

/-- The table has all digits. -/
theorem mem_hexDigits (h : hexDigit? c = some n) : (c, n) ∈ hexDigits := by
  -- No character behind `f` is a digit, and those up to there can be tried one by one.
  have tried : ∀ k < 103, ∀ n ∈ hexDigit? (Char.ofNat k), (Char.ofNat k, n) ∈ hexDigits := by
    decide
  have bound : c.toNat < 103 := by
    have ranges : isHexDigit c = true := by rw [isHexDigit, h, Option.isSome_some]
    have := toNat_of_isHexDigit ranges
    omega
  have here := tried c.toNat bound n
  rw [Char.ofNat_toNat] at here
  exact here h

/-- One digit more makes the value sixteen times as large and adds its own. -/
theorem positional_concat (ds : List (Char × Nat)) (d : Char × Nat) :
    positional (ds ++ [d]) = positional ds * 16 + d.2 := by
  rw [positional, List.map_append, List.map_singleton, List.reverse_concat, Nat.ofDigits_cons,
    ← positional]
  omega

/-- Reading digits from left to right gives the number that they stand for. -/
theorem hexValue_map_fst (h : ∀ d ∈ ds, d ∈ hexDigits) :
    hexValue (ds.map Prod.fst) = positional ds := by
  induction ds using List.reverseRecOn with
  | nil => rfl
  | append_singleton ds d ih =>
    have front : hexValue (ds.map Prod.fst) = positional ds :=
      ih fun e he => h e (List.mem_append_left _ he)
    have last : hexDigit? d.1 = some d.2 :=
      hexDigit?_of_mem d (h d (List.mem_append_right _ List.mem_cons_self))
    rw [positional_concat, ← front, List.map_append, hexValue, List.foldl_append]
    show withHexDigit (hexValue (ds.map Prod.fst)) d.1 = _
    rw [withHexDigit, last, Option.getD_some]

theorem isHexRun_map_fst (hne : ds ≠ []) (h : ∀ d ∈ ds, d ∈ hexDigits) :
    IsHexRun (ds.map Prod.fst) := by
  refine ⟨fun hnil => hne (List.map_eq_nil_iff.1 hnil), fun c hc => ?_⟩
  obtain ⟨d, hd, rfl⟩ := List.mem_map.1 hc
  rw [isHexDigit, hexDigit?_of_mem d (h d hd), Option.isSome_some]

/-- Any digits are those of entries of the table. -/
theorem exists_map_fst_eq (h : ∀ c ∈ s, isHexDigit c = true) :
    ∃ ds : List (Char × Nat), (∀ d ∈ ds, d ∈ hexDigits) ∧ ds.map Prod.fst = s := by
  induction s with
  | nil => exact ⟨[], fun d hd => absurd hd List.not_mem_nil, rfl⟩
  | cons c s ih =>
    obtain ⟨hc, hs⟩ := List.forall_mem_cons.1 h
    obtain ⟨n, hn⟩ := Option.isSome_iff_exists.1 hc
    obtain ⟨ds, hds, rfl⟩ := ih hs
    exact ⟨(c, n) :: ds, List.forall_mem_cons.2 ⟨mem_hexDigits hn, hds⟩, rfl⟩

/-! ## Tokens taken apart -/

/-- A token that spells a number, taken apart. -/
structure HexSpelling where
  before : Text
  mark : Text
  sign : Text
  digits : List (Char × Nat)
  after : Text
  before_blank : before.allBlank = true
  mark_mem : mark ∈ hexMarks
  sign_mem : sign ∈ plusSigns
  digits_ne_nil : digits ≠ []
  digits_mem : ∀ d ∈ digits, d ∈ hexDigits
  after_blank : after.allBlank = true

namespace HexSpelling

/-- The visible part of the token. -/
def numeral (x : HexSpelling) : Text := x.mark ++ (x.sign ++ x.digits.map Prod.fst)

/-- The token as a whole. -/
def text (x : HexSpelling) : Text := x.before ++ (x.numeral ++ x.after)

/-- The number that the token spells. -/
def value (x : HexSpelling) : Nat := positional x.digits

/-- A spelling is a numeral of its value, once the white space is off. -/
theorem isHexNumeral (x : HexSpelling) : IsHexNumeral x.numeral x.value :=
  ⟨x.mark, x.mark_mem, x.sign, x.sign_mem, x.digits.map Prod.fst, rfl,
    isHexRun_map_fst x.digits_ne_nil x.digits_mem, hexValue_map_fst x.digits_mem⟩

/-- What trimming takes off a spelling is the white space around it. -/
theorem trim_text (x : HexSpelling) : x.text.trim = x.numeral := by
  rw [text, ← List.append_assoc, trim_append_of_allBlank x.after_blank, trim,
    trimStart_append_of_allBlank x.before_blank]
  exact trim_eq_self_of_visible x.isHexNumeral.isBlank

end HexSpelling

/-- What is a numeral without the white space around it has a spelling. -/
theorem isHexNumeral_trim_iff :
    IsHexNumeral token.trim n ↔ ∃ x : HexSpelling, x.text = token ∧ x.value = n := by
  constructor
  · rintro ⟨mark, hmark, sign, hsign, digits, hnumeral, hrun, rfl⟩
    obtain ⟨before, after, hbefore, hafter, htoken⟩ := exists_append_trim_append token
    obtain ⟨ds, hds, rfl⟩ := exists_map_fst_eq hrun.isHexDigit
    have hne : ds ≠ [] := fun hnil => hrun.ne_nil (hnil ▸ rfl)
    refine ⟨⟨before, mark, sign, ds, after, hbefore, hmark, hsign, hne, hds, hafter⟩, ?_, ?_⟩
    · show before ++ ((mark ++ (sign ++ ds.map Prod.fst)) ++ after) = token
      rw [← hnumeral, ← htoken]
    · exact (hexValue_map_fst hds).symm
  · rintro ⟨x, rfl, rfl⟩
    rw [x.trim_text]
    exact x.isHexNumeral

/-- A reader that takes numerals for words of some width reads a number off a token exactly if the
token spells the number and it fits. -/
theorem map_read_eq_some_iff {α : Type} {read : Text → Option α} {number : α → Nat} {bound : Nat}
    (hread : ∀ {token v}, read token = some v ↔ IsHexNumeral token.trim (number v))
    (hnumber : ∀ {n}, (∃ v, number v = n) ↔ n < bound) :
    (read token).map number = some n ↔
      (∃ x : HexSpelling, x.text = token ∧ x.value = n) ∧ n < bound := by
  rw [← isHexNumeral_trim_iff, ← hnumber, Option.map_eq_some_iff]
  constructor
  · rintro ⟨v, hv, rfl⟩
    exact ⟨hread.1 hv, v, rfl⟩
  · rintro ⟨hn, v, rfl⟩
    exact ⟨v, hread.2 hn, rfl⟩

end Text

/-! ## What is read -/

open Text (HexSpelling)

theorem exists_word_iff {n : Nat} : (∃ v : UInt64, v.toNat = n) ↔ n < 2 ^ 64 := by
  constructor
  · rintro ⟨v, rfl⟩
    exact v.toNat_lt
  · intro h
    exact ⟨UInt64.ofNat n, UInt64.toNat_ofNat_of_lt' h⟩

theorem TypeId.exists_iff {n : Nat} : (∃ id : TypeId, id.value.toNat = n) ↔ n < 2 ^ 32 := by
  constructor
  · rintro ⟨id, rfl⟩
    exact id.value.toNat_lt
  · intro h
    exact ⟨⟨UInt32.ofNat n⟩, UInt32.toNat_ofNat_of_lt' h⟩

/-- Numbers are read exactly, and what is written is read back.

* A token is read as a word exactly if it has a spelling of value below 2^64, and as an id exactly
  if it has one of value below 2^32.
* The text of every id and of every address is read back.
* No two addresses have the same text. -/
theorem reads_exactly_numbers :
    (∀ token n, (word? token).map UInt64.toNat = some n ↔
      (∃ x : HexSpelling, x.text = token ∧ x.value = n) ∧ n < 2 ^ 64) ∧
    (∀ token n, (TypeId.read? token).map (fun id => id.value.toNat) = some n ↔
      (∃ x : HexSpelling, x.text = token ∧ x.value = n) ∧ n < 2 ^ 32) ∧
    (∀ id : TypeId, TypeId.read? id.text = some id) ∧
    (∀ a : Address, word? a.text = some a.value) ∧
    ∀ a b : Address, a.text = b.text ↔ a = b :=
  ⟨fun _ _ => Text.map_read_eq_some_iff word?_eq_some_iff exists_word_iff,
    fun _ _ => Text.map_read_eq_some_iff TypeId.read?_eq_some_iff TypeId.exists_iff,
    fun id => (spells_text id).read?, word?_text,
    fun _ _ => ⟨Address.text_injective, congrArg Address.text⟩⟩

/-- All that may stand around the digits, and zeros before them. -/
example : word? "\t0X+00fA ".toList = some 250 := by decide

end Lineage
