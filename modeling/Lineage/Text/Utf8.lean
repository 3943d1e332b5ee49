import Lineage.Text.Blank

/-!
# Bytes as UTF-8

A file is bytes, and a byte sequence is read as well-formed UTF-8 as far as it
is that. Where it is not, the longest start of a character that could still
have been continued (or a single byte that starts nothing) stands for one
unreadable character. `readable` puts U+FFFD in the place of each, so stray
bytes inside a name never lose a dump; `wellFormed?` refuses the whole text
instead.

The first byte fixes how many bytes follow and which range the second one is
in; the narrow ranges keep out surrogates, overlong forms and numbers above
U+10FFFF. All later bytes range over 0x80 to 0xBF.
-/

namespace Lineage.Text

/-- What the first byte of a character says: its share of the scalar value, the
number of bytes that follow, and the range of the next one. -/
structure LeadByte where
  bits : Nat
  following : Nat
  low : Nat
  high : Nat

/-- Reads a first byte; a continuation byte or one that no character starts with is none. -/
def leadByte? (b : UInt8) : Option LeadByte :=
  let n := b.toNat
  if n < 0x80 then some ⟨n, 0, 0x80, 0xBF⟩
  -- 0xC0 and 0xC1 could only start a longer form of an ASCII character.
  else if n < 0xC2 then none
  else if n < 0xE0 then some ⟨n - 0xC0, 1, 0x80, 0xBF⟩
  else if n == 0xE0 then some ⟨n - 0xE0, 2, 0xA0, 0xBF⟩
  -- Beyond 0xED 0x9F lie the surrogates.
  else if n == 0xED then some ⟨n - 0xE0, 2, 0x80, 0x9F⟩
  else if n < 0xF0 then some ⟨n - 0xE0, 2, 0x80, 0xBF⟩
  else if n == 0xF0 then some ⟨n - 0xF0, 3, 0x90, 0xBF⟩
  else if n < 0xF4 then some ⟨n - 0xF0, 3, 0x80, 0xBF⟩
  -- Beyond 0xF4 0x8F there are no characters.
  else if n == 0xF4 then some ⟨n - 0xF0, 3, 0x80, 0x8F⟩
  else none

/-- Adds `k` continuation bytes to a value, stopping before the first byte out of range. -/
def continueScalar (low high : Nat) : Nat → Nat → List UInt8 → Option Nat × List UInt8
  | 0, n, bs => (some n, bs)
  | _ + 1, _, [] => (none, [])
  | k + 1, n, b :: bs =>
    if low ≤ b.toNat && b.toNat ≤ high then
      continueScalar 0x80 0xBF k (n * 64 + (b.toNat - 0x80)) bs
    else (none, b :: bs)

theorem continueScalar_length_le (low high k n : Nat) (bs : List UInt8) :
    (continueScalar low high k n bs).2.length ≤ bs.length := by
  induction k generalizing low high n bs with
  | zero => exact Nat.le_refl _
  | succ k ih =>
    cases bs with
    | nil => exact Nat.le_refl _
    | cons b bs =>
      simp only [continueScalar]
      split
      · exact Nat.le_succ_of_le (ih ..)
      · exact Nat.le_refl _

/-- The first character of a non-empty byte sequence, none if it is unreadable,
and the bytes after it. -/
def readChar (b : UInt8) (bs : List UInt8) : Option Char × List UInt8 :=
  match leadByte? b with
  | none => (none, bs)
  | some lead =>
    let (scalar?, rest) := continueScalar lead.low lead.high lead.following lead.bits bs
    (scalar?.map Char.ofNat, rest)

theorem readChar_length_le (b : UInt8) (bs : List UInt8) :
    (readChar b bs).2.length ≤ bs.length := by
  unfold readChar
  split
  · exact Nat.le_refl _
  · exact continueScalar_length_le ..

/-- Puts the characters of a byte sequence after those in `done`, which stand in reverse. -/
def readCharsOnto (done : List (Option Char)) : List UInt8 → List (Option Char)
  | [] => done.reverse
  | b :: bs => readCharsOnto ((readChar b bs).1 :: done) (readChar b bs).2
termination_by bs => bs.length
decreasing_by exact Nat.lt_succ_of_le (readChar_length_le b bs)

/-- The characters of a byte sequence, each unreadable piece as none. -/
def readChars (bs : List UInt8) : List (Option Char) := readCharsOnto [] bs

/-- The text of a byte sequence, with U+FFFD for each unreadable piece. -/
def readable (bs : List UInt8) : Text := (readChars bs).map fun c => c.getD '\uFFFD'

/-- The text of a byte sequence that is UTF-8 throughout. -/
def wellFormed? (bs : List UInt8) : Option Text := (readChars bs).mapM id

/-! ## Reading ASCII -/

theorem readCharsOnto_eq (done : List (Option Char)) (bs : List UInt8) :
    readCharsOnto done bs = done.reverse ++ readChars bs := by
  induction h : bs.length using Nat.strongRecOn generalizing done bs with
  | _ n ih =>
    cases bs with
    | nil => simp [readCharsOnto, readChars]
    | cons b bs =>
      have hl : (readChar b bs).2.length < n := by
        subst h; exact Nat.lt_succ_of_le (readChar_length_le b bs)
      have first : readChars (b :: bs) = readCharsOnto [(readChar b bs).1] (readChar b bs).2 := by
        rw [readChars, readCharsOnto]
      rw [readCharsOnto, ih _ hl _ _ rfl, first, ih _ hl _ _ rfl]
      simp

theorem readChars_cons (b : UInt8) (bs : List UInt8) :
    readChars (b :: bs) = (readChar b bs).1 :: readChars (readChar b bs).2 := by
  rw [readChars, readCharsOnto, readCharsOnto_eq]
  rfl

/-- A byte below 0x80 is a character by itself. -/
theorem readChars_ascii {b : UInt8} (h : b.toNat < 0x80) (bs : List UInt8) :
    readChars (b :: bs) = some (Char.ofNat b.toNat) :: readChars bs := by
  simp [readChars_cons, readChar, leadByte?, h, continueScalar]

end Lineage.Text
