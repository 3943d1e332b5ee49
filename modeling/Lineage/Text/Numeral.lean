import Lineage.Text.Blank

/-!
# Numerals

Ids, sizes and addresses are written in hexadecimal, counts and section numbers
in decimal. Reading is `unsigned?`: an optional plus sign and then nothing but
digits, at least one, in either case; a bound on the value is the reader's
business, since any number of leading zeros is allowed. Writing is `hex` and
`decimal`, in lower case and without leading zeros, and `padded` where a format
asks for a least width.
-/

namespace Lineage.Text

/-- The value of a hexadecimal digit of either case. -/
def hexDigit? (c : Char) : Option Nat :=
  if '0' ≤ c && c ≤ '9' then some (c.toNat - '0'.toNat)
  else if 'a' ≤ c && c ≤ 'f' then some (c.toNat - 'a'.toNat + 10)
  else if 'A' ≤ c && c ≤ 'F' then some (c.toNat - 'A'.toNat + 10)
  else none

/-- The value of a decimal digit. -/
def decimalDigit? (c : Char) : Option Nat :=
  if '0' ≤ c && c ≤ '9' then some (c.toNat - '0'.toNat) else none

/-- Whether the character is a hexadecimal digit. -/
def isHexDigit (c : Char) : Bool := (hexDigit? c).isSome

/-- The value of `s` read on after a number of value `n`, most significant digit first. -/
def digitsFrom? (digit? : Char → Option Nat) (base : Nat) : Nat → Text → Option Nat
  | n, [] => some n
  | n, c :: s =>
    match digit? c with
    | some d => digitsFrom? digit? base (n * base + d) s
    | none => none

/-- The value of a non-empty run of digits. -/
def digits? (digit? : Char → Option Nat) (base : Nat) (s : Text) : Option Nat :=
  if s.isEmpty then none else digitsFrom? digit? base 0 s

/-- The value of a run of digits with at most one plus sign before it. -/
def unsigned? (digit? : Char → Option Nat) (base : Nat) : Text → Option Nat
  | '+' :: s => digits? digit? base s
  | s => digits? digit? base s

/-- The value of hexadecimal digits after an optional plus sign. -/
def hexadecimal? (s : Text) : Option Nat := unsigned? hexDigit? 16 s

/-- The value of decimal digits after an optional plus sign. -/
def decimal? (s : Text) : Option Nat := unsigned? decimalDigit? 10 s

/-- The text without the `0x` or `0X` that marks it as hexadecimal. -/
def dropHexMark : Text → Text
  | '0' :: 'x' :: s => s
  | '0' :: 'X' :: s => s
  | s => s

/-- The value of a hexadecimal number as records spell it: white space around
it, the mark and a plus sign are all optional. -/
def hexNumber? (s : Text) : Option Nat := hexadecimal? (dropHexMark (trim s))

/-- A number in lower-case hexadecimal, without leading zeros. -/
def hex (n : Nat) : Text := Nat.toDigits 16 n

/-- A number in decimal. -/
def decimal (n : Nat) : Text := Nat.toDigits 10 n

/-- The text with zeros before it up to a least width. -/
def padded (width : Nat) (s : Text) : Text := List.replicate (width - s.length) '0' ++ s

/-! ## Reading what was written -/

theorem digitsFrom?_append (digit? : Char → Option Nat) (base n : Nat) (s t : Text) :
    digitsFrom? digit? base n (s ++ t) =
      (digitsFrom? digit? base n s).bind fun m => digitsFrom? digit? base m t := by
  induction s generalizing n with
  | nil => rfl
  | cons c s ih =>
    simp only [List.cons_append, digitsFrom?]
    cases digit? c with
    | none => rfl
    | some d => exact ih _

/-- Digits read back as the number they were written for. -/
theorem digitsFrom?_toDigits {digit? : Char → Option Nat} {base : Nat} (hbase : 1 < base)
    (hdigit : ∀ d < base, digit? (Nat.digitChar d) = some d) (n : Nat) :
    digitsFrom? digit? base 0 (Nat.toDigits base n) = some n := by
  induction n using Nat.strongRecOn with
  | _ n ih =>
    by_cases h : n < base
    · rw [Nat.toDigits_of_lt_base h]
      simp [digitsFrom?, hdigit n h]
    · have h' : base ≤ n := Nat.le_of_not_lt h
      rw [Nat.toDigits_of_base_le hbase h', digitsFrom?_append,
        ih (n / base) (Nat.div_lt_self (by omega) hbase)]
      simp only [Option.bind_some, digitsFrom?]
      rw [hdigit _ (Nat.mod_lt _ (by omega))]
      exact congrArg some (Nat.div_add_mod' n base)

theorem hexDigit?_digitChar {d : Nat} (h : d < 16) : hexDigit? (Nat.digitChar d) = some d := by
  revert d; decide

theorem digitsFrom?_hex (n : Nat) : digitsFrom? hexDigit? 16 0 (hex n) = some n :=
  digitsFrom?_toDigits (by decide) (fun _ => hexDigit?_digitChar) n

/-- What is written in decimal is read back. -/
theorem decimal?_decimal (n : Nat) : decimal? (decimal n) = some n := by
  have digits : digits? decimalDigit? 10 (decimal n) = some n := by
    rw [digits?, if_neg (by simp [decimal]), decimal]
    exact digitsFrom?_toDigits (by decide) (by decide) n
  rw [decimal?, unsigned?]
  · exact digits
  · intro s hs
    have plus : '+' ∈ decimal n := hs ▸ List.mem_cons_self
    exact absurd (Nat.isDigit_of_mem_toDigits (by decide) (by decide) plus) (by decide)

/-- Zeros in front change no value. -/
theorem digitsFrom?_zeros (k : Nat) (s : Text) :
    digitsFrom? hexDigit? 16 0 (List.replicate k '0' ++ s) = digitsFrom? hexDigit? 16 0 s := by
  induction k with
  | zero => rfl
  | succ k ih => simpa [List.replicate_succ, digitsFrom?, hexDigit?] using ih

end Lineage.Text
