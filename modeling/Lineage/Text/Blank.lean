/-!
# Text and white space

Everything the program reads is text, and every reader of it is a recursion on
the characters, so a piece of text is the list of its characters. `String` is
left to the outer layers, which hand text in and print it.

White space is Unicode's `White_Space` property: twenty-five characters, among
them the no-break spaces and the line and paragraph separators. It is what
`trim` removes and what stands between the tokens of a record. The information
separators U+001C to U+001F, the zero-width space and the byte order mark are
not in it.
-/

namespace Lineage

/-- A piece of text: its characters in order. -/
abbrev Text := List Char

namespace Text

/-- The characters with the Unicode property `White_Space`. -/
def isBlank (c : Char) : Bool :=
  let n := c.toNat
  (0x09 ≤ n && n ≤ 0x0D) || n == 0x20 || n == 0x85 || n == 0xA0 || n == 0x1680
    || (0x2000 ≤ n && n ≤ 0x200A) || n == 0x2028 || n == 0x2029 || n == 0x202F
    || n == 0x205F || n == 0x3000

/-- Text of nothing but white space; a line of this kind separates records. -/
def allBlank (s : Text) : Bool := s.all isBlank

/-- The text without the white space it starts with. -/
def trimStart (s : Text) : Text := s.dropWhile isBlank

/-- The text without the white space it ends with. -/
def trimEnd (s : Text) : Text := (s.reverse.dropWhile isBlank).reverse

/-- The text without white space at either end. -/
def trim (s : Text) : Text := trimEnd (trimStart s)

/-! ## What trimming does -/

/-- The ASCII white space that `Char.isWhitespace` knows is white space here too. -/
theorem isBlank_of_isWhitespace {c : Char} (h : c.isWhitespace = true) : isBlank c = true := by
  simp only [Char.isWhitespace, Bool.or_eq_true, decide_eq_true_eq] at h
  rcases h with ((rfl | rfl) | rfl) | rfl <;> decide

@[simp] theorem allBlank_nil : allBlank [] = true := rfl

@[simp] theorem trim_nil : trim [] = [] := rfl

theorem trimStart_append_of_allBlank {b : Text} (hb : allBlank b = true) (s : Text) :
    trimStart (b ++ s) = trimStart s := by
  induction b with
  | nil => rfl
  | cons c b ih =>
    simp only [allBlank, List.all_cons, Bool.and_eq_true] at hb
    simp only [trimStart, List.cons_append, List.dropWhile_cons, hb.1, if_true]
    exact ih hb.2

theorem trimEnd_append_of_allBlank {b : Text} (hb : allBlank b = true) (s : Text) :
    trimEnd (s ++ b) = trimEnd s := by
  have hr : allBlank b.reverse = true := by simpa [allBlank] using hb
  have := trimStart_append_of_allBlank hr s.reverse
  simp only [trimStart] at this
  simp only [trimEnd, List.reverse_append, this]

/-- Text that starts and ends with visible characters is its own trimmed form. -/
theorem trimStart_cons_of_not_blank {c : Char} (hc : isBlank c = false) (s : Text) :
    trimStart (c :: s) = c :: s := by
  simp [trimStart, hc]

theorem trimEnd_concat_of_not_blank {c : Char} (hc : isBlank c = false) (s : Text) :
    trimEnd (s ++ [c]) = s ++ [c] := by
  simp [trimEnd, hc]

end Text
end Lineage
