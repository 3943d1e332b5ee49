import Lineage.Text.Numeral
import Lineage.Text.Search

/-!
# JSON tokens

JSON text is read in two steps. This is the first: characters to tokens. Outside of strings,
white space is blanks, tabs, line feeds and carriage returns only.

A string may spell a character beyond 16 bits as two escapes that belong together. One
half without the other is well-formed JSON, yet no text; such a string is a token without
text, and whoever needs its text refuses it. A number keeps its spelling,
since what it is worth depends on who asks.
-/

namespace Lineage.Json

/-- The smallest pieces of JSON text that mean something. -/
inductive Token where
  | openBrace
  | closeBrace
  | openBracket
  | closeBracket
  | comma
  | colon
  | null
  | bool (b : Bool)
  | number (spelling : Text)
  | string (text : Option Text)
deriving DecidableEq

/-- White space between tokens. -/
def isSpace (c : Char) : Bool := c == ' ' || c == '\t' || c == '\n' || c == '\r'

/-! ## Strings -/

/-- A piece of a string: a character as it stands, or a 16-bit unit from an escape. -/
inductive Piece where
  | char (c : Char)
  | unit (n : Nat)

/-- The first half of a character beyond 16 bits. -/
def isHighHalf (n : Nat) : Bool := 0xD800 ≤ n && n < 0xDC00

/-- The second half of a character beyond 16 bits. -/
def isLowHalf (n : Nat) : Bool := 0xDC00 ≤ n && n < 0xE000

/-- The character that two halves make. -/
def ofHalves (high low : Nat) : Char :=
  Char.ofNat (0x10000 + (high - 0xD800) * 0x400 + (low - 0xDC00))

/-- The text that pieces spell. A half on its own spells none. -/
def ofPieces? : List Piece → Option Text
  | [] => some []
  | .char c :: ps => (ofPieces? ps).map (c :: ·)
  -- A unit that nothing follows is a character only if it is no half of one.
  | [.unit n] => if isHighHalf n || isLowHalf n then none else some [Char.ofNat n]
  | .unit n :: p :: ps =>
    if isHighHalf n then
      match p with
      | .unit m => if isLowHalf m then (ofPieces? ps).map (ofHalves n m :: ·) else none
      | .char _ => none
    else if isLowHalf n then none
    else (ofPieces? (p :: ps)).map (Char.ofNat n :: ·)

/-- The character that a one-letter escape stands for. -/
def shortEscape? : Char → Option Char
  | '"' => some '"'
  | '\\' => some '\\'
  | '/' => some '/'
  | 'b' => some '\x08'
  | 'f' => some '\x0c'
  | 'n' => some '\n'
  | 'r' => some '\r'
  | 't' => some '\t'
  | _ => none

/-- The pieces of a string up to its closing quote, and what follows. Control characters
have to be escaped. -/
def stringBody? : Text → Option (List Piece × Text)
  | [] => none
  | '"' :: s => some ([], s)
  | '\\' :: 'u' :: a :: b :: c :: d :: s =>
    match Text.digits? Text.hexDigit? 16 [a, b, c, d] with
    | some n => (stringBody? s).map fun (ps, s) => (.unit n :: ps, s)
    | none => none
  -- A `u` without four digits is no escape, so it falls through to this case and fails.
  | '\\' :: e :: s =>
    match shortEscape? e with
    | some c => (stringBody? s).map fun (ps, s) => (.char c :: ps, s)
    | none => none
  | c :: s =>
    if c.toNat < 0x20 then none else (stringBody? s).map fun (ps, s) => (.char c :: ps, s)

/-! ## Numbers -/

/-- A non-empty run of digits, and what follows. -/
def digitRun? (s : Text) : Option (Text × Text) :=
  if (s.takeWhile Char.isDigit).isEmpty then none
  else some (s.takeWhile Char.isDigit, s.dropWhile Char.isDigit)

/-- A minus sign, which a number may start with. -/
def isMinus (c : Char) : Bool := c == '-'

/-- A sign of either kind, which an exponent may start with. -/
def isSign (c : Char) : Bool := c == '+' || c == '-'

/-- A sign that may be missing, and what follows. -/
def signed (p : Char → Bool) : Text → Text × Text
  | [] => ([], [])
  | c :: s => if p c then ([c], s) else ([], c :: s)

/-- The integer part of a number. It has no zero before other digits. -/
def integerPart? (s : Text) : Option (Text × Text) :=
  match digitRun? s with
  | some (run, s) => if run.head? = some '0' && run.length ≠ 1 then none else some (run, s)
  | none => none

/-- The fraction of a number, which may be missing. -/
def fractionPart? : Text → Option (Text × Text)
  | '.' :: s => (digitRun? s).map fun (run, s) => ('.' :: run, s)
  | s => some ([], s)

/-- The exponent of a number, which may be missing. -/
def exponentPart? : Text → Option (Text × Text)
  | [] => some ([], [])
  | c :: s =>
    if c == 'e' || c == 'E' then
      (digitRun? (signed isSign s).2).map fun (run, rest) => (c :: (signed isSign s).1 ++ run, rest)
    else some ([], c :: s)

/-- The spelling of a number, and what follows. -/
def number? (s : Text) : Option (Text × Text) := do
  let (whole, rest) ← integerPart? (signed isMinus s).2
  let (fraction, rest) ← fractionPart? rest
  let (exponent, rest) ← exponentPart? rest
  return ((signed isMinus s).1 ++ whole ++ fraction ++ exponent, rest)

/-! ## Tokens -/

/-- A word of JSON at the start of a text, and what follows. -/
def word? (word : String) (t : Token) (s : Text) : Option (Token × Text) :=
  (word.toList.isPrefixOf? s).map fun rest => (t, rest)

/-- The token a text starts with, and what follows. -/
def token? : Text → Option (Token × Text)
  | '{' :: s => some (.openBrace, s)
  | '}' :: s => some (.closeBrace, s)
  | '[' :: s => some (.openBracket, s)
  | ']' :: s => some (.closeBracket, s)
  | ',' :: s => some (.comma, s)
  | ':' :: s => some (.colon, s)
  | '"' :: s => (stringBody? s).map fun (ps, s) => (.string (ofPieces? ps), s)
  | s =>
    word? "null" .null s <|> word? "true" (.bool true) s <|> word? "false" (.bool false) s
      <|> (number? s).map fun (spelling, s) => (.number spelling, s)

/-! ### Every token takes something off the text -/

theorem length_lt_of_stringBody?_eq_some {s rest : Text} {ps : List Piece}
    (h : stringBody? s = some (ps, rest)) : rest.length < s.length := by
  fun_induction stringBody? s generalizing ps rest with
  | case1 => simp at h
  | case2 s =>
    obtain ⟨-, rfl⟩ : [] = ps ∧ s = rest := by simpa using h
    exact Nat.lt_succ_self _
  | case3 a b c d s n hn ih =>
    obtain ⟨⟨qs, r⟩, hq, heq⟩ := Option.map_eq_some_iff.1 h
    obtain ⟨-, rfl⟩ : _ ∧ r = rest := by simpa using heq
    have := ih hq
    simp only [List.length_cons]
    omega
  | case4 => simp at h
  | case5 e s _ c hc ih =>
    obtain ⟨⟨qs, r⟩, hq, heq⟩ := Option.map_eq_some_iff.1 h
    obtain ⟨-, rfl⟩ : _ ∧ r = rest := by simpa using heq
    have := ih hq
    simp only [List.length_cons]
    omega
  | case6 => simp at h
  | case7 => simp at h
  | case8 c s _ _ _ _ ih =>
    obtain ⟨⟨qs, r⟩, hq, heq⟩ := Option.map_eq_some_iff.1 h
    obtain ⟨-, rfl⟩ : _ ∧ r = rest := by simpa using heq
    have := ih hq
    simp only [List.length_cons]
    omega

/-- A run of digits and the rest are the text. -/
theorem eq_append_of_digitRun?_eq_some {s run rest : Text} (h : digitRun? s = some (run, rest)) :
    s = run ++ rest ∧ run ≠ [] := by
  unfold digitRun? at h
  split at h
  · simp at h
  next hne =>
    obtain ⟨rfl, rfl⟩ : s.takeWhile Char.isDigit = run ∧ s.dropWhile Char.isDigit = rest := by
      simpa using h
    exact ⟨(List.takeWhile_append_dropWhile ..).symm, by simpa using hne⟩

/-- A sign and the rest are the text. -/
theorem signed_append (p : Char → Bool) (s : Text) : (signed p s).1 ++ (signed p s).2 = s := by
  cases s with
  | nil => rfl
  | cons c s => cases h : p c <;> simp [signed, h]

theorem eq_append_of_integerPart?_eq_some {s run rest : Text}
    (h : integerPart? s = some (run, rest)) : s = run ++ rest ∧ run ≠ [] := by
  unfold integerPart? at h
  split at h
  next r t hr =>
    split at h
    · simp at h
    · obtain ⟨rfl, rfl⟩ : r = run ∧ t = rest := by simpa using h
      exact eq_append_of_digitRun?_eq_some hr
  · simp at h

theorem eq_append_of_fractionPart?_eq_some {s run rest : Text}
    (h : fractionPart? s = some (run, rest)) : s = run ++ rest := by
  unfold fractionPart? at h
  split at h
  next t =>
    obtain ⟨⟨r, u⟩, hr, heq⟩ := Option.map_eq_some_iff.1 h
    obtain ⟨rfl, rfl⟩ : '.' :: r = run ∧ u = rest := by simpa using heq
    rw [(eq_append_of_digitRun?_eq_some hr).1, List.cons_append]
  next =>
    obtain ⟨rfl, rfl⟩ : [] = run ∧ s = rest := by simpa using h
    rfl

theorem eq_append_of_exponentPart?_eq_some {s run rest : Text}
    (h : exponentPart? s = some (run, rest)) : s = run ++ rest := by
  unfold exponentPart? at h
  split at h
  · obtain ⟨rfl, rfl⟩ : [] = run ∧ [] = rest := by simpa using h
    rfl
  next c t =>
    split at h
    · obtain ⟨⟨r, u⟩, hr, heq⟩ := Option.map_eq_some_iff.1 h
      obtain ⟨rfl, rfl⟩ : c :: (signed isSign t).1 ++ r = run ∧ u = rest := by simpa using heq
      have hs := signed_append isSign t
      rw [(eq_append_of_digitRun?_eq_some hr).1, ← List.append_assoc] at hs
      rw [List.cons_append, List.cons_append, hs]
    · obtain ⟨rfl, rfl⟩ : [] = run ∧ c :: t = rest := by simpa using h
      rfl

/-- The spelling of a number and the rest are the text. -/
theorem eq_append_of_number?_eq_some {s spelling rest : Text}
    (h : number? s = some (spelling, rest)) : s = spelling ++ rest ∧ spelling ≠ [] := by
  simp only [number?, Option.bind_eq_bind, Option.bind_eq_some_iff, Prod.exists] at h
  obtain ⟨whole, s₁, hw, fraction, s₂, hf, exponent, s₃, he, heq⟩ := h
  simp only [Option.pure_def, Option.some.injEq, Prod.mk.injEq] at heq
  obtain ⟨rfl, rfl⟩ := heq
  have hs := signed_append isMinus s
  obtain ⟨hw, hne⟩ := eq_append_of_integerPart?_eq_some hw
  rw [hw, eq_append_of_fractionPart?_eq_some hf, eq_append_of_exponentPart?_eq_some he] at hs
  exact ⟨by simpa using hs.symm, by simp [hne]⟩

theorem length_lt_of_word?_eq_some {word : String} {t u : Token} {s rest : Text}
    (hw : word.toList ≠ []) (h : word? word t s = some (u, rest)) : rest.length < s.length := by
  obtain ⟨r, hr, heq⟩ := Option.map_eq_some_iff.1 h
  obtain ⟨-, rfl⟩ : t = u ∧ r = rest := by simpa using heq
  rw [Text.eq_append_of_isPrefixOf? hr, List.length_append]
  have := List.length_pos_iff.2 hw
  omega

/-- What follows a token is shorter than the text that it starts. -/
theorem length_lt_of_token?_eq_some {s rest : Text} {t : Token} (h : token? s = some (t, rest)) :
    rest.length < s.length := by
  unfold token? at h
  split at h
  case h_7 s =>
    obtain ⟨⟨ps, r⟩, hr, heq⟩ := Option.map_eq_some_iff.1 h
    obtain ⟨-, rfl⟩ : _ ∧ r = rest := by simpa using heq
    exact Nat.lt_succ_of_lt (length_lt_of_stringBody?_eq_some hr)
  case h_8 =>
    simp only [Option.orElse_eq_orElse, Option.orElse_eq_or, Option.or_eq_some_iff] at h
    rcases h with h | ⟨-, h | ⟨-, h | ⟨-, h⟩⟩⟩
    · exact length_lt_of_word?_eq_some (by decide) h
    · exact length_lt_of_word?_eq_some (by decide) h
    · exact length_lt_of_word?_eq_some (by decide) h
    · obtain ⟨⟨spelling, r⟩, hr, heq⟩ := Option.map_eq_some_iff.1 h
      obtain ⟨-, rfl⟩ : _ ∧ r = rest := by simpa using heq
      obtain ⟨happ, hne⟩ := eq_append_of_number?_eq_some hr
      have := List.length_pos_iff.2 hne
      rw [happ, List.length_append]
      omega
  all_goals
    obtain ⟨-, rfl⟩ := by simpa using h
    exact Nat.lt_succ_self _

/-- The tokens of a text. -/
def tokens? (s : Text) : Option (List Token) :=
  match _hs : s.dropWhile isSpace with
  | [] => some []
  | c :: visible =>
    match _ht : token? (c :: visible) with
    | some (t, rest) => (tokens? rest).map (t :: ·)
    | none => none
termination_by s.length
decreasing_by
  have lt := length_lt_of_token?_eq_some _ht
  rw [← _hs] at lt
  exact Nat.lt_of_lt_of_le lt (List.dropWhile_sublist _).length_le

end Lineage.Json
