import Lineage.Json.Value

/-!
# Writing JSON

A value is written on one line, or with every item of an array and every entry of an object on
a line of its own. The two differ only in the white space, so there is one writer with a
`Style`.

In strings, quotes, backslashes and control characters are escaped and all else
stands for itself. A string that spells no text is written as half a character, which spells
none either.
-/

namespace Lineage.Json

/-- The white space of written JSON. -/
structure Style where
  /-- What stands before an item at a depth of nesting. -/
  lineBreak : Nat → Text
  /-- What stands after the colon of an entry. -/
  afterColon : Text

/-- Everything on one line, without blanks. -/
def Style.compact : Style := ⟨fun _ => [], []⟩

/-- Every item and entry on its own line, indented by two blanks for each level. -/
def Style.pretty : Style := ⟨fun depth => '\n' :: List.replicate (2 * depth) ' ', [' ']⟩

/-- A character inside a string. -/
def writeChar (c : Char) : Text :=
  match c with
  | '"' => ['\\', '"']
  | '\\' => ['\\', '\\']
  | '\x08' => ['\\', 'b']
  | '\x0c' => ['\\', 'f']
  | '\n' => ['\\', 'n']
  | '\r' => ['\\', 'r']
  | '\t' => ['\\', 't']
  | c => if c.toNat < 0x20 then "\\u".toList ++ Text.padded 4 (Text.hex c.toNat) else [c]

/-- A string between its quotes. -/
def writeString : Option Text → Text
  | some text => '"' :: text.flatMap writeChar ++ ['"']
  | none => "\"\\ud800\"".toList

mutual

/-- A value at a depth of nesting. -/
def write (style : Style) (depth : Nat) : Value → Text
  | .null => "null".toList
  | .bool true => "true".toList
  | .bool false => "false".toList
  | .number spelling => spelling
  | .string text => writeString text
  | .array [] => "[]".toList
  | .array (v :: items) =>
    '[' :: (style.lineBreak (depth + 1) ++ write style (depth + 1) v
      ++ writeItems style (depth + 1) items ++ style.lineBreak depth ++ [']'])
  | .object [] => "\x7b\x7d".toList
  | .object ((key, v) :: entries) =>
    '{' :: (style.lineBreak (depth + 1) ++ writeString key ++ ':' :: style.afterColon
      ++ write style (depth + 1) v ++ writeEntries style (depth + 1) entries
      ++ style.lineBreak depth ++ ['}'])

/-- The items of an array after the first. -/
def writeItems (style : Style) (depth : Nat) : List Value → Text
  | [] => []
  | v :: items =>
    ',' :: (style.lineBreak depth ++ write style depth v ++ writeItems style depth items)

/-- The entries of an object after the first. -/
def writeEntries (style : Style) (depth : Nat) : List (Option Text × Value) → Text
  | [] => []
  | (key, v) :: entries =>
    ',' :: (style.lineBreak depth ++ writeString key ++ ':' :: style.afterColon
      ++ write style depth v ++ writeEntries style depth entries)

end

/-- A value as JSON text. -/
def Value.text (style : Style) (v : Value) : Text := write style 0 v

/-- A text as a JSON string. -/
def Value.ofText (s : Text) : Value := .string (some s)

/-- A natural number as JSON. -/
def Value.ofNat (n : Nat) : Value := .number (Text.decimal n)

end Lineage.Json
