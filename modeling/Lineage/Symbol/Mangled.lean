import Lineage.Text.Blank

/-!
# Mangled names of members

A mangled name spells a member of a class as a question mark, the member's name and
its scope, the innermost class first: `?Bar@Base@ns@@` and then the type, which does not
matter here. The name of a special member is a second question mark and a code,
`??0Base@@` for a constructor.

A *word* of a mangled name is made of ASCII letters and digits, `_` and `$`, and is
ended by `@`. A *scope* is one or more words and one more `@`. Names that refer back or
carry template arguments are outside this grammar and are not read.
-/

namespace Lineage.Mangled

/-- The characters of a word. -/
def isWordChar (c : Char) : Bool := c.isAlphanum || c == '_' || c == '$'

/-- A word at the start of a text, and what follows the `@` that ends it. -/
def word? (s : Text) : Option (Text × Text) :=
  match s.dropWhile isWordChar with
  | '@' :: rest =>
    if (s.takeWhile isWordChar).isEmpty then none else some (s.takeWhile isWordChar, rest)
  | _ => none

/-- A word, its `@` and the rest are the text. -/
theorem eq_append_of_word?_eq_some {s w rest : Text} (h : word? s = some (w, rest)) :
    s = w ++ '@' :: rest := by
  unfold word? at h
  split at h
  next r hd =>
    split at h
    · simp at h
    · obtain ⟨rfl, rfl⟩ : s.takeWhile isWordChar = w ∧ r = rest := by simpa using h
      rw [← hd, List.takeWhile_append_dropWhile]
  · simp at h

theorem length_lt_of_word?_eq_some {s w rest : Text} (h : word? s = some (w, rest)) :
    rest.length < s.length := by
  rw [eq_append_of_word?_eq_some h, List.length_append, List.length_cons]
  omega

/-- The words at the start of a text up to the `@` that closes them, and what follows. -/
def words? (s : Text) : Option (List Text × Text) :=
  match s with
  | '@' :: rest => some ([], rest)
  | s =>
    match _h : word? s with
    | none => none
    | some (w, rest) => (words? rest).map fun (ws, rest) => (w :: ws, rest)
termination_by s.length
decreasing_by exact length_lt_of_word?_eq_some _h

/-- Words as a scope spells them. -/
def spell (ws : List Text) : Text := ws.flatMap (fun w => w ++ ['@']) ++ ['@']

/-- A member of a class as a mangled name gives it. -/
structure ScopedMember where
  /-- The name as the members of the class spell it: `Bar`, `Base`, `~Base`, `operator=`. -/
  name : Text
  /-- The scope as the mangled name spells it: `Base@ns@@`. -/
  scope : Text
deriving DecidableEq

/-- What a code says about a special member. -/
inductive Special where
  | constructor
  | destructor
  | operator (name : Text)

/-- The special member that a code stands for. -/
def special? : Char → Option Special
  | '0' => some .constructor
  | '1' => some .destructor
  | '2' => some (.operator "operator new".toList)
  | '3' => some (.operator "operator delete".toList)
  | '4' => some (.operator "operator=".toList)
  | '5' => some (.operator "operator>>".toList)
  | '6' => some (.operator "operator<<".toList)
  | '7' => some (.operator "operator!".toList)
  | '8' => some (.operator "operator==".toList)
  | '9' => some (.operator "operator!=".toList)
  | 'A' => some (.operator "operator[]".toList)
  | 'C' => some (.operator "operator->".toList)
  | 'D' => some (.operator "operator*".toList)
  | 'E' => some (.operator "operator++".toList)
  | 'F' => some (.operator "operator--".toList)
  | 'G' => some (.operator "operator-".toList)
  | 'H' => some (.operator "operator+".toList)
  | _ => none

/-- The name of a special member in the innermost class of its scope. -/
def Special.nameIn (innermost : Text) : Special → Text
  | .constructor => innermost
  | .destructor => '~' :: innermost
  | .operator name => name

/-- The member that a mangled name spells. -/
def member? : Text → Option ScopedMember
  | '?' :: '?' :: code :: s =>
    match special? code, words? s with
    | some special, some (w :: ws, _) => some ⟨special.nameIn w, spell (w :: ws)⟩
    | _, _ => none
  | '?' :: s =>
    match word? s with
    | none => none
    | some (name, s) =>
      match words? s with
      | some (w :: ws, _) => some ⟨name, spell (w :: ws)⟩
      | _ => none
  | _ => none

/-- The scope that the members of a class have, from the mangled name of the class:
`.?AVBase@ns@@` has the scope `Base@ns@@`. -/
def classScope? (mangled : Text) : Option Text :=
  (".?AV".toList.isPrefixOf? mangled <|> ".?AU".toList.isPrefixOf? mangled).filter fun scope =>
    "@@".toList.isSuffixOf scope

end Lineage.Mangled
