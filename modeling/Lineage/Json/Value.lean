import Lineage.Json.Token

/-!
# JSON values

The second step of reading JSON: tokens to a value. A value keeps the entries of an object
in order and keeps repeated keys, because what a repeated key means is up to the reader of the
object.

The tokens are read by a machine that takes them one at a time. Its stack holds the
arrays and objects that are open, each with what it holds so far in reverse, and its
state says what may come next. No token is looked at twice, so nothing bounds the depth of
nesting.
-/

namespace Lineage.Json

/-- A JSON value. -/
inductive Value where
  | null
  | bool (b : Bool)
  | number (spelling : Text)
  /-- A string; none if it spells no text. -/
  | string (text : Option Text)
  | array (items : List Value)
  | object (entries : List (Option Text × Value))

/-- An array or object that is open. -/
inductive Frame where
  | array (before : List Value)
  | object (before : List (Option Text × Value)) (key : Option Text)

/-- What may come next. -/
inductive State where
  /-- A value has to come. -/
  | value
  /-- An array has just been opened: its first value or its end. -/
  | arrayStart
  /-- An object has just been opened: its first key or its end. -/
  | objectStart
  /-- A key has to come. -/
  | key (before : List (Option Text × Value))
  /-- The colon after a key has to come. -/
  | colon (before : List (Option Text × Value)) (key : Option Text)
  /-- A value is complete. -/
  | after (v : Value)

/-- Starts a value with a token. -/
def startValue (open_ : List Frame) : Token → Option (State × List Frame)
  | .null => some (.after .null, open_)
  | .bool b => some (.after (.bool b), open_)
  | .number spelling => some (.after (.number spelling), open_)
  | .string text => some (.after (.string text), open_)
  | .openBracket => some (.arrayStart, open_)
  | .openBrace => some (.objectStart, open_)
  | _ => none

/-- Goes on after a complete value. -/
def finishValue (v : Value) : List Frame → Token → Option (State × List Frame)
  | .array before :: open_, .comma => some (.value, .array (v :: before) :: open_)
  | .array before :: open_, .closeBracket =>
    some (.after (.array (v :: before).reverse), open_)
  | .object before key :: open_, .comma => some (.key ((key, v) :: before), open_)
  | .object before key :: open_, .closeBrace =>
    some (.after (.object ((key, v) :: before).reverse), open_)
  | _, _ => none

/-- Takes one token. -/
def step (m : State × List Frame) (t : Token) : Option (State × List Frame) :=
  match m.1, t with
  | .value, t => startValue m.2 t
  | .arrayStart, .closeBracket => some (.after (.array []), m.2)
  | .arrayStart, t => startValue (.array [] :: m.2) t
  | .objectStart, .closeBrace => some (.after (.object []), m.2)
  | .objectStart, .string key => some (.colon [] key, m.2)
  | .key before, .string key => some (.colon before key, m.2)
  | .colon before key, .colon => some (.value, .object before key :: m.2)
  | .after v, t => finishValue v m.2 t
  | _, _ => none

/-- Takes tokens in turn. -/
def steps (m : State × List Frame) (ts : List Token) : Option (State × List Frame) :=
  ts.foldlM step m

/-- The value that tokens spell. -/
def Value.ofTokens? (ts : List Token) : Option Value :=
  match steps (.value, []) ts with
  | some (.after v, []) => some v
  | _ => none

/-- The value that a text spells, with nothing but white space around it. -/
def Value.read? (s : Text) : Option Value := (tokens? s).bind ofTokens?

/-! ## Looking into a value -/

namespace Value

/-- The text of a string. -/
def text? : Value → Option Text
  | string text => text
  | _ => none

/-- The truth value. -/
def bool? : Value → Option Bool
  | bool b => some b
  | _ => none

/-- The natural number of a number that is written without sign, fraction and exponent. -/
def natural? : Value → Option Nat
  | number spelling => Text.digits? Text.decimalDigit? 10 spelling
  | _ => none

/-- The entries of an object, if all of its keys are texts. -/
def entries? : Value → Option (List (Text × Value))
  | object entries => entries.mapM fun e => e.1.map fun key => (key, e.2)
  | _ => none

/-- The items of an array. -/
def items? : Value → Option (List Value)
  | array items => some items
  | _ => none

end Value

/-! ## Structures

A structure with known fields is written as an object, or as an array of the fields in
order. In an object, unknown keys do not matter and a known key must not be
repeated. -/

/-- The values of known fields by their names, none for a field that is missing. -/
def fieldsOfEntries? (names : List Text) (entries : List (Text × Value)) :
    Option (List (Option Value)) :=
  names.mapM fun name =>
    match entries.filter fun e => e.1 == name with
    | [] => some none
    | [e] => some (some e.2)
    | _ => none

/-- The values of known fields by their position, none for those after the last. -/
def fieldsOfItems? (names : List Text) (items : List Value) : Option (List (Option Value)) :=
  if items.length ≤ names.length then
    some (items.map some ++ List.replicate (names.length - items.length) none)
  else none

/-- The values of the fields of a structure. -/
def Value.fields? (names : List Text) : Value → Option (List (Option Value))
  | .array items => fieldsOfItems? names items
  | v => v.entries?.bind (fieldsOfEntries? names)

/-! ## Scalars through the machine -/

theorem ofTokens?_string (text : Option Text) :
    Value.ofTokens? [.string text] = some (.string text) := rfl

theorem steps_append (m : State × List Frame) (ts us : List Token) :
    steps m (ts ++ us) = (steps m ts).bind fun m => steps m us := by
  simp only [steps, List.foldlM_append]
  rfl

end Lineage.Json
