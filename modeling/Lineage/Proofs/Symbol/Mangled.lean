import Lineage.Proofs.Text.Run
import Lineage.Symbol.Mangled
import Mathlib.Tactic.FinCases

/-!
# Which mangled names are read

A mangled name of a member is put together from the name of the member or the code of a special
one, the words of its scope, and a type, which may be any text. `Spelling` is such a name taken
apart. Reading accepts exactly the texts that have a spelling. None has two, since every part but
the last has an end of its own: a word its `@`, a scope the `@` after its last word.

The scope is all that ties a symbol to its class, whose own mangled name spells it, too. So a
symbol is taken for a member of a class exactly if it has the words of the class for its scope.

Both directions go part by part. A part is read off exactly the texts that have it in front
(`word?_eq_some_iff`, `words?_eq_some_iff`), and what is left is handed to the reader of the next
part. Uniqueness costs nothing then: a reader is a function, so two spellings of one text are read
as the same parts (`Scope.append_inj`, `text_injective`).

Main result: `reads_exactly_spellings`.
-/

namespace Lineage.Mangled

variable {s t rest : Text} {w : Text} {ws : List Text}

/-! ## Words -/

/-- A word is made of ASCII letters and digits, `_` and `$`, and there is at least one. -/
structure IsWord (w : Text) : Prop where
  ne_nil : w ≠ []
  isWordChar : ∀ c ∈ w, isWordChar c = true

theorem stops_at (rest : Text) : Text.Stops isWordChar ('@' :: rest) := Text.stops_cons (by decide)

/-- Reading a word takes a word and the `@` behind it off a text. -/
theorem word?_eq_some_iff : word? s = some (w, rest) ↔ IsWord w ∧ s = w ++ '@' :: rest := by
  constructor
  · intro h
    refine ⟨?_, eq_append_of_word?_eq_some h⟩
    unfold word? at h
    split at h
    next =>
      split at h
      next => cases h
      next hne =>
        obtain ⟨rfl, rfl⟩ := Prod.mk.inj (Option.some.inj h)
        refine ⟨fun hnil => hne (List.isEmpty_iff.2 hnil), fun c hc => ?_⟩
        exact List.mem_takeWhile_imp hc
    next => cases h
  · rintro ⟨hw, rfl⟩
    have inside := Text.takeWhile_run hw.isWordChar (stops_at rest)
    have nonempty : w.isEmpty = false := List.isEmpty_eq_false_iff.2 hw.ne_nil
    rw [word?, Text.dropWhile_run hw.isWordChar (stops_at rest)]
    simp only [inside, nonempty, Bool.false_eq_true, if_false]

/-- A word ends at its `@`. -/
theorem word?_append (h : IsWord w) (rest : Text) : word? (w ++ '@' :: rest) = some (w, rest) :=
  word?_eq_some_iff.2 ⟨h, rfl⟩

/-- A text that starts with a word starts with no other character. -/
theorem IsWord.append_ne_cons (h : IsWord w) {c : Char} (hc : Mangled.isWordChar c = false)
    (rest t : Text) : w ++ rest ≠ c :: t := by
  obtain ⟨d, w, rfl⟩ := List.exists_cons_of_ne_nil h.ne_nil
  intro heq
  obtain rfl : d = c := (List.cons.inj heq).1
  rw [h.isWordChar d List.mem_cons_self] at hc
  cases hc

theorem spell_nil : spell [] = ['@'] := rfl

theorem spell_cons (w : Text) (ws : List Text) : spell (w :: ws) = w ++ '@' :: spell ws := by
  simp [spell]

theorem words?_cons (h : IsWord w) (rest : Text) :
    words? (w ++ '@' :: rest) = (words? rest).map fun r => (w :: r.1, r.2) := by
  rw [words?]
  · split
    next hnone =>
      rw [word?_append h] at hnone
      cases hnone
    next v r hr =>
      rw [word?_append h] at hr
      obtain ⟨rfl, rfl⟩ := Prod.mk.inj (Option.some.inj hr)
      rfl
  · exact h.append_ne_cons (by decide : isWordChar '@' = false) _

/-- Reading a scope takes words and the `@` that closes them off a text. -/
theorem words?_eq_some_iff :
    words? s = some (ws, rest) ↔ (∀ w ∈ ws, IsWord w) ∧ s = spell ws ++ rest := by
  constructor
  · intro h
    fun_induction words? s generalizing ws with
    | case1 tail =>
      obtain ⟨rfl, rfl⟩ := Prod.mk.inj (Option.some.inj h)
      exact ⟨fun w hw => absurd hw List.not_mem_nil, rfl⟩
    | case2 => cases h
    | case3 s _ w tail hw ih =>
      obtain ⟨⟨us, r⟩, hus, heq⟩ := Option.map_eq_some_iff.1 h
      obtain ⟨rfl, rfl⟩ := Prod.mk.inj heq
      obtain ⟨hword, rfl⟩ := word?_eq_some_iff.1 hw
      obtain ⟨hwords, rfl⟩ := ih hus
      refine ⟨List.forall_mem_cons.2 ⟨hword, hwords⟩, ?_⟩
      rw [spell_cons, List.append_assoc, List.cons_append]
  · rintro ⟨hwords, rfl⟩
    induction ws with
    | nil => rw [spell_nil, List.singleton_append, words?]
    | cons w ws ih =>
      obtain ⟨hw, hws⟩ := List.forall_mem_cons.1 hwords
      rw [spell_cons, List.append_assoc, List.cons_append, words?_cons hw, ih hws, Option.map_some]

/-- The words of a scope end at an `@` of their own. -/
theorem words?_append (h : ∀ w ∈ ws, IsWord w) (rest : Text) :
    words? (spell ws ++ rest) = some (ws, rest) :=
  words?_eq_some_iff.2 ⟨h, rfl⟩

/-! ## Mangled names taken apart -/

/-- The codes of special members. -/
def codes : Text := "0123456789ACDEFGH".toList

/-- The operators behind the codes after the first two, in their order. -/
def operators : List (Char × Text) :=
  (codes.drop 2).zip (["operator new", "operator delete", "operator=", "operator>>", "operator<<",
    "operator!", "operator==", "operator!=", "operator[]", "operator->", "operator*", "operator++",
    "operator--", "operator-", "operator+"].map String.toList)

/-- What stands for the name of a member. -/
inductive Head where
  | named (name : Text)
  | coded (code : Char)

namespace Head

def IsValid : Head → Prop
  | named name => IsWord name
  | coded code => code ∈ codes

/-- The characters of the head behind the first question mark. -/
def text : Head → Text
  | named name => name ++ ['@']
  | coded code => ['?', code]

/-- The name that the head stands for in a class. Code `0` is that of constructors, `1` that of
destructors. -/
def nameIn (innermost : Text) : Head → Text
  | named name => name
  | coded code =>
    if code = '0' then innermost
    else if code = '1' then '~' :: innermost
    else (operators.lookup code).getD []

end Head

/-- The words of a scope. -/
structure Scope where
  innermost : Text
  outer : List Text
  isWord : ∀ w ∈ innermost :: outer, IsWord w

namespace Scope

def words (scope : Scope) : List Text := scope.innermost :: scope.outer

/-- The words, each ended by `@`, and one more `@`. -/
def text (scope : Scope) : Text := spell scope.words

end Scope

/-- A mangled name of a member, taken apart. -/
structure Spelling where
  head : Head
  scope : Scope
  rest : Text
  isValid : head.IsValid

namespace Spelling

/-- The mangled name as a whole. -/
def text (f : Spelling) : Text := '?' :: (f.head.text ++ (f.scope.text ++ f.rest))

/-- The member that is meant. -/
def member (f : Spelling) : ScopedMember := ⟨f.head.nameIn f.scope.innermost, f.scope.text⟩

end Spelling

/-! ## Codes -/

/-- The codes stand for the members that they are to stand for. -/
theorem special?_of_mem_codes {code : Char} (h : code ∈ codes) :
    ∃ special, special? code = some special ∧
      ∀ w, special.nameIn w = (Head.coded code).nameIn w := by
  have h : code ∈ ['0', '1', '2', '3', '4', '5', '6', '7', '8', '9', 'A', 'C', 'D', 'E', 'F', 'G',
    'H'] := h
  fin_cases h <;> exact ⟨_, rfl, fun _ => rfl⟩

/-- Only the codes of the table are special. -/
theorem mem_codes_of_special? {code : Char} {special : Special}
    (h : special? code = some special) : code ∈ codes := by
  unfold special? at h
  split at h
  case h_18 => cases h
  all_goals decide

/-! ## Reading -/

/-- A scope is read as its words, from the inside out. -/
theorem words?_scope (scope : Scope) (rest : Text) :
    words? (scope.text ++ rest) = some (scope.innermost :: scope.outer, rest) :=
  words?_append scope.isWord rest

/-- A scope is spelled in one way only, whatever follows it. -/
theorem Scope.append_inj {a b : Scope} (h : a.text ++ s = b.text ++ t) : a = b ∧ s = t := by
  have same := words?_scope a s
  rw [h, words?_scope] at same
  obtain ⟨hwords, rfl⟩ := Prod.mk.inj (Option.some.inj same)
  obtain ⟨innermost, outer, _⟩ := a
  obtain ⟨rfl, rfl⟩ := List.cons.inj hwords
  exact ⟨rfl, rfl⟩

/-- No two scopes are spelled alike. -/
theorem Scope.text_injective : Function.Injective Scope.text := by
  intro a b h
  exact (Scope.append_inj (s := []) (t := []) (by rw [h])).1

namespace Spelling

/-- A name that is spelled is read, and the member is the one that was spelled. -/
theorem member?_text (f : Spelling) : member? f.text = some f.member := by
  obtain ⟨head, scope, rest, hvalid⟩ := f
  cases head with
  | named name =>
    have hname : IsWord name := hvalid
    show member? ('?' :: (name ++ ['@'] ++ (scope.text ++ rest))) = _
    rw [List.append_assoc, List.singleton_append]
    rw [member?]
    · rw [word?_append hname]
      dsimp only
      rw [words?_scope]
      rfl
    · exact fun code s => hname.append_ne_cons (by decide : isWordChar '?' = false) _ _
  | coded code =>
    obtain ⟨special, hspecial, hname⟩ := special?_of_mem_codes hvalid
    show member? ('?' :: '?' :: code :: (scope.text ++ rest)) = _
    rw [member?, hspecial, words?_scope]
    dsimp only
    rw [hname]
    rfl

/-- What is read has a spelling. -/
theorem exists_of_member?_eq_some {m : ScopedMember} (h : member? s = some m) :
    ∃ f : Spelling, f.text = s ∧ f.member = m := by
  unfold member? at h
  split at h
  next code tail =>
    split at h
    next special w ws rest hspecial hwords =>
      obtain ⟨hws, rfl⟩ := words?_eq_some_iff.1 hwords
      have hcode := mem_codes_of_special? hspecial
      refine ⟨⟨.coded code, ⟨w, ws, hws⟩, rest, hcode⟩, rfl, ?_⟩
      obtain ⟨special', hspecial', hname⟩ := special?_of_mem_codes hcode
      obtain rfl : special = special' := Option.some.inj (hspecial.symm.trans hspecial')
      rw [← Option.some.inj h, hname]
      rfl
    next => cases h
  next tail _ =>
    split at h
    next => cases h
    next name scope hname =>
      obtain ⟨hvalid, rfl⟩ := word?_eq_some_iff.1 hname
      split at h
      next w ws rest hwords =>
        obtain ⟨hws, rfl⟩ := words?_eq_some_iff.1 hwords
        refine ⟨⟨.named name, ⟨w, ws, hws⟩, rest, hvalid⟩, ?_, Option.some.inj h⟩
        show '?' :: (name ++ ['@'] ++ (spell (w :: ws) ++ rest)) = _
        rw [List.append_assoc, List.singleton_append]
      next => cases h
  next => cases h

/-- A mangled name can be taken apart in one way only. -/
theorem text_injective : Function.Injective Spelling.text := by
  intro f g h
  obtain ⟨head, scope, rest, hvalid⟩ := f
  obtain ⟨head', scope', rest', hvalid'⟩ := g
  have h : head.text ++ (scope.text ++ rest) = head'.text ++ (scope'.text ++ rest') :=
    (List.cons.inj h).2
  cases head with
  | named name =>
    have hname : IsWord name := hvalid
    rw [Head.text, List.append_assoc, List.singleton_append] at h
    cases head' with
    | named name' =>
      rw [Head.text, List.append_assoc, List.singleton_append] at h
      have hname' : IsWord name' := hvalid'
      have same := word?_append hname (scope.text ++ rest)
      rw [h, word?_append hname'] at same
      obtain ⟨rfl, htail⟩ := Prod.mk.inj (Option.some.inj same)
      obtain ⟨rfl, rfl⟩ := Scope.append_inj htail
      rfl
    | coded code =>
      exact absurd h (hname.append_ne_cons (by decide : isWordChar '?' = false) _ _)
  | coded code =>
    cases head' with
    | named name =>
      have hname : IsWord name := hvalid'
      rw [Head.text, Head.text, List.append_assoc, List.singleton_append] at h
      exact absurd h.symm (hname.append_ne_cons (by decide : isWordChar '?' = false) _ _)
    | coded code' =>
      obtain ⟨rfl, htail⟩ := List.cons.inj (List.cons.inj h).2
      obtain ⟨rfl, rfl⟩ := Scope.append_inj htail
      rfl

end Spelling

/-! ## Classes -/

/-- What a class name has to end in, every scope ends in. -/
theorem suffix_scope (scope : Scope) : "@@".toList.isSuffixOf scope.text = true := by
  have ends (w : Text) (ws : List Text) : ['@', '@'] <:+ spell (w :: ws) := by
    induction ws generalizing w with
    | nil => exact ⟨w, by rw [spell_cons, spell_nil]⟩
    | cons v ws ih =>
      rw [spell_cons]
      exact (ih v).trans ((List.suffix_cons _ _).trans (List.suffix_append w _))
  exact List.isSuffixOf_iff_suffix.2 (ends scope.innermost scope.outer)

/-- The mangled name of a class, or of one that is declared as a structure, gives its scope. -/
theorem classScope?_text (scope : Scope) :
    classScope? (".?AV".toList ++ scope.text) = some scope.text ∧
      classScope? (".?AU".toList ++ scope.text) = some scope.text := by
  have kept : (some scope.text).filter (fun s => "@@".toList.isSuffixOf s) = some scope.text :=
    Option.filter_eq_some_iff.2 ⟨rfl, suffix_scope scope⟩
  exact ⟨kept, kept⟩

/-- Reading accepts exactly the texts that are put together as the mangled name of a member. Each
of them is so in one way only, and the member is the one that its parts say. A symbol has the scope
that is read from the mangled name of a class exactly if it spells the words of the class. -/
theorem reads_exactly_spellings :
    (∀ s m, member? s = some m ↔ ∃ f : Spelling, f.text = s ∧ f.member = m) ∧
    Function.Injective Spelling.text ∧
    ∀ scope : Scope, classScope? (".?AV".toList ++ scope.text) = some scope.text ∧
      classScope? (".?AU".toList ++ scope.text) = some scope.text ∧
      ∀ f : Spelling, (member? f.text).map ScopedMember.scope = some scope.text ↔
        f.scope = scope := by
  refine ⟨fun s m => ⟨Spelling.exists_of_member?_eq_some, ?_⟩, Spelling.text_injective,
    fun scope => ⟨(classScope?_text scope).1, (classScope?_text scope).2, fun f => ?_⟩⟩
  · rintro ⟨f, rfl, rfl⟩
    exact f.member?_text
  · rw [f.member?_text, Option.map_some, Option.some_inj]
    exact Scope.text_injective.eq_iff

end Lineage.Mangled
