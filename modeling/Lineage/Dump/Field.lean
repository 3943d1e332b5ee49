import Lineage.Fault

/-!
# Values on a line

A record spells its values as phrases followed by text: `class name = `,
`field list type `, `index = `. Each reader here takes such a phrase, the
*introducer*, and returns what stands after its first occurrence: a token up to
the next comma or white space, text up to the next comma, a quoted name up to its closing
quote. None of them looks past the line it is given.
-/

namespace Lineage.Field

/-! ## Commas and quotes -/

/-- A comma, which ends most values. -/
def isComma (c : Char) : Bool := c == ','

/-- A quote of either kind. -/
def isQuote (c : Char) : Bool := c == '\'' || c == '"'

/-- The value without one comma at its end; white space after a comma goes with it. -/
def dropTrailingComma (value : Text) : Text :=
  Text.trimEnd ((",".toList.isSuffixOf? value.trimEnd).getD value)

/-- Whether the line breaks off after a comma, so that its record goes on in the next one. -/
def endsInComma (line : Text) : Bool := ",".toList.isSuffixOf line.trimEnd

/-- The value without a quote at both ends, if it has one at both. -/
def unquote (value : Text) : Text :=
  match value.trim with
  | first :: second :: rest =>
    if isQuote first && ((second :: rest).getLast?.any isQuote) then (second :: rest).dropLast
    else first :: second :: rest
  | short => short

/-! ## Values by their introducer -/

/-- The line after the first occurrence of an introducer. -/
def after? (line introducer : Text) : Option Text := (Text.cut? introducer line).map Prod.snd

/-- The token after an introducer. It ends before a comma or white space. -/
def tokenAfter? (line introducer : Text) : Option Text :=
  (after? line introducer).map fun rest =>
    rest.trimStart.takeWhile fun c => !(isComma c || Text.isBlank c)

/-- The text after an introducer up to the next comma. -/
def textAfter? (line introducer : Text) : Option Text :=
  (after? line introducer).map fun rest =>
    dropTrailingComma (Text.trim (rest.takeWhile fun c => !isComma c))

/-- The text after an introducer up to a terminator, or up to the next comma
where the terminator does not follow. -/
def textUntil? (line introducer terminator : Text) : Option Text :=
  match after? line introducer with
  | none => none
  | some rest =>
    match Text.cut? terminator rest with
    -- Up to a terminator the value may hold commas, as template arguments do.
    | some (value, _) => some value.trim
    | none => textAfter? line introducer

/-- The name after an introducer. A quoted name runs to its closing quote, so the
commas of an operator's name belong to it; a name without quotes ends at a comma. -/
def quotedAfter? (line introducer : Text) : Option Text :=
  match (after? line introducer).map Text.trimStart with
  | none => none
  | some [] => textAfter? line introducer
  | some (quote :: rest) =>
    if isQuote quote then
      -- A quote that is never closed leaves no name.
      if rest.contains quote then some (rest.takeWhile fun c => c != quote) else none
    else textAfter? line introducer

/-! ## Type ids -/

/-- The type id after an introducer. -/
def typeIdAfter (line introducer : Text) (lineNumber : Nat) : Except Fault TypeId :=
  match (tokenAfter? line introducer).bind TypeId.read? with
  | some id => .ok id
  | none => .error (.expecting introducer lineNumber line)

/-- Whether a character ends the id at the start of a record. -/
def endsLeadingId (c : Char) : Bool := Text.isBlank c || c == ':'

/-- The token a record starts with. -/
def leadingToken (line : Text) : Text :=
  (line.dropWhile endsLeadingId).takeWhile fun c => !endsLeadingId c

/-- The type id a record starts with, as in `0x1003 : Length = 38`. -/
def leadingTypeId (line : Text) (lineNumber : Nat) : Except Fault TypeId :=
  match TypeId.read? (leadingToken line) with
  | some id => .ok id
  | none => .error (.expecting "leading type id".toList lineNumber line)

end Lineage.Field
