import Lineage.Proofs.QualifiedName.Balanced
import Lineage.Proofs.Text.Clear
import Lineage.Text.Word

/-!
# Qualified names and their components

A qualified name is put together from components (`joined`), each of them an identifier, with or
without a template argument list. Taking such a name apart is to give its last component back, and
of that the identifier.

The scan for separators does so for every name (`componentFrom_joined`). But names of operators go
before it: wherever `::operator` stands in a name, its last occurrence is taken for the start of
the last component. That occurrence need not be an operator. An identifier may start with these
letters, as `operators` does, and an argument list may name the operator of another class. Whether a
name is taken apart as it should be is a matter of these two alone (`Separable`, `Identifiable`).

Main results: `splits_components_iff`, with `not_splits_operators`.
-/

namespace Lineage.QualifiedName

open Text (Clear clear_append clear_of_not_mem clear_of_break)

/-! ## Names and their parts -/

/-- An identifier that is not the word `operator`, with the text between the brackets of its
template argument list, if it has one. -/
structure Component where
  identifier : Text
  arguments : Option Text
  nonempty : identifier ≠ []
  word : ∀ c ∈ identifier, Text.isWordChar c = true
  ne_operator : identifier ≠ operatorWord
  balanced : ∀ a ∈ arguments, Balanced a

/-- What separates components. -/
def separator : Text := "::".toList

/-- What an operator of a class starts with, the separator included. -/
def operatorMark : Text := separator ++ operatorWord

namespace Component

/-- The template argument list of a component. -/
def argumentList (c : Component) : Text :=
  match c.arguments with
  | none => []
  | some a => '<' :: (a ++ ['>'])

/-- A component as it is written. -/
def text (c : Component) : Text := c.identifier ++ c.argumentList

/-- The argument list of the component names an operator of some class. -/
def NamesOperator (c : Component) : Prop := ∃ a ∈ c.arguments, a.mentions operatorMark = true

/-- The identifier starts like the name of an operator. -/
def LooksLikeOperator (c : Component) : Prop := operatorWord <+: c.identifier

instance (c : Component) : Decidable c.NamesOperator :=
  match h : c.arguments with
  | none => isFalse fun ⟨_, ha, _⟩ => by rw [h] at ha; cases ha
  | some a => decidable_of_iff (a.mentions operatorMark = true)
      ⟨fun ha => ⟨a, h, ha⟩, fun ⟨b, hb, hm⟩ => by rw [h] at hb; cases hb; exact hm⟩

instance (c : Component) : Decidable c.LooksLikeOperator :=
  inferInstanceAs (Decidable (_ <+: _))

end Component

/-- A qualified name: the scopes from the outermost one on, and the last component. -/
def joined : List Component → Component → Text
  | [], last => last.text
  | c :: scopes, last => c.text ++ (separator ++ joined scopes last)

/-- The start of the last component is found. Either it starts like an operator, and so does nothing
after it; or nothing in the name looks like an operator of a class. -/
def Separable (scopes : List Component) (last : Component) : Prop :=
  ¬ last.NamesOperator ∧ ((scopes ≠ [] ∧ last.LooksLikeOperator) ∨
    ((∀ c ∈ scopes, ¬ c.NamesOperator) ∧ ∀ c ∈ (scopes ++ [last]).tail, ¬ c.LooksLikeOperator))

/-- The identifier of the last component is found. One that starts like an operator keeps its
argument list, so it must have none. -/
def Identifiable (scopes : List Component) (last : Component) : Prop :=
  Separable scopes last ∧ (last.LooksLikeOperator → last.arguments = none)

variable {scopes : List Component} {last m c : Component} {name rest : Text}

/-! ## The characters of a component -/

theorem isWordChar_bracket : Text.isWordChar '<' = false ∧ Text.isWordChar '>' = false ∧
    Text.isWordChar ':' = false ∧ Text.isWordChar '~' = false := by
  decide +kernel

theorem isWordChar_of_all {s : Text} (h : s.all Char.isAlphanum = true) :
    ∀ c ∈ s, Text.isWordChar c = true :=
  fun c hc => Text.isWordChar_of_isAlphanum (List.all_eq_true.1 h c hc)

namespace Component

/-- What is not a word character does not stand in an identifier. -/
theorem not_mem_identifier (c : Component) {x : Char} (hx : Text.isWordChar x = false) :
    x ∉ c.identifier := by
  intro h
  rw [c.word x h] at hx
  cases hx

theorem exists_identifier_eq (c : Component) :
    ∃ x s, c.identifier = x :: s ∧ Text.isWordChar x = true := by
  obtain ⟨x, s, h⟩ := List.exists_cons_of_ne_nil c.nonempty
  exact ⟨x, s, h, c.word x (h ▸ List.mem_cons_self)⟩

theorem text_of_none (h : c.arguments = none) : c.text = c.identifier := by
  rw [text, argumentList, h, List.append_nil]

theorem text_of_some {a : Text} (h : c.arguments = some a) :
    c.text = c.identifier ++ '<' :: (a ++ ['>']) := by
  rw [text, argumentList, h]

/-- An argument list ends in a bracket. -/
theorem text_eq_concat {a : Text} (h : c.arguments = some a) :
    c.text = (c.identifier ++ '<' :: a) ++ ['>'] := by
  rw [text_of_some h, List.append_assoc, List.cons_append]

/-- A component of word characters has no argument list. -/
theorem arguments_eq_none (h : ∀ x ∈ c.text, Text.isWordChar x = true) : c.arguments = none := by
  cases ha : c.arguments with
  | none => rfl
  | some a =>
    have hclose : '>' ∈ c.text :=
      text_eq_concat ha ▸ List.mem_append_right _ (List.mem_singleton_self _)
    exact absurd (h _ hclose) (by rw [isWordChar_bracket.2.1]; exact Bool.false_ne_true)

/-- The identifier is told from what follows it, so the component starts like an operator
exactly if its identifier does. -/
theorem operatorWord_isPrefix_text_iff (hrest : rest = [] ∨ ∃ s, rest = ':' :: s) :
    operatorWord <+: c.text ++ rest ↔ c.LooksLikeOperator := by
  refine ⟨fun h => ?_, fun h => ?_⟩
  · cases ha : c.arguments with
    | some a =>
      rw [text_of_some ha, List.append_assoc, List.cons_append] at h
      exact Text.isPrefix_of_break (by decide) h
    | none =>
      rw [text_of_none ha] at h
      rcases hrest with rfl | ⟨s, rfl⟩
      · rwa [List.append_nil] at h
      · exact Text.isPrefix_of_break (by decide) h
  · rw [text, List.append_assoc]
    exact h.trans (List.prefix_append _ _)

/-- Where no argument list names an operator, none begins in the component. -/
theorem clear_text (h : ¬ c.NamesOperator) (rest : Text) : Clear operatorMark c.text rest := by
  have identifier_clear (rest : Text) : Clear operatorMark c.identifier rest :=
    clear_of_not_mem rfl (c.not_mem_identifier isWordChar_bracket.2.2.1)
  cases ha : c.arguments with
  | none =>
    rw [text_of_none ha]
    exact identifier_clear rest
  | some a =>
    have quiet : a.mentions operatorMark = false := by
      rw [← Bool.not_eq_true]
      exact fun hm => h ⟨a, ha, hm⟩
    have open_clear : Clear operatorMark ['<'] ((a ++ ['>']) ++ rest) :=
      clear_of_not_mem rfl (by decide)
    have close_clear : Clear operatorMark ['>'] rest := clear_of_not_mem rfl (by decide)
    rw [text_of_some ha, ← List.singleton_append]
    exact clear_append.2 ⟨identifier_clear _, clear_append.2 ⟨open_clear,
      clear_append.2 ⟨clear_of_break quiet (by decide), close_clear⟩⟩⟩

theorem mentions_text_iff : c.text.mentions operatorMark = true ↔ c.NamesOperator := by
  refine ⟨fun h => ?_, ?_⟩
  · by_contra hquiet
    have := Text.mentions_append_of_clear (clear_text hquiet [])
    rw [List.append_nil, h] at this
    exact absurd this (by decide)
  · rintro ⟨a, ha, hm⟩
    refine Text.mentions_mono ?_ hm
    rw [text_of_some ha]
    exact ⟨c.identifier ++ ['<'], ['>'], by simp⟩

end Component

/-! ## Where an operator seems to be named -/

/-- A name starts like its first component. -/
theorem operatorWord_isPrefix_joined_iff {d : Component} {ds : List Component}
    (h : scopes ++ [last] = d :: ds) :
    operatorWord <+: joined scopes last ↔ d.LooksLikeOperator := by
  cases scopes with
  | nil =>
    obtain ⟨rfl, -⟩ := List.cons.inj h
    have := Component.operatorWord_isPrefix_text_iff (c := last) (.inl rfl)
    rwa [List.append_nil] at this
  | cons e scopes =>
    obtain ⟨rfl, -⟩ := List.cons.inj h
    exact Component.operatorWord_isPrefix_text_iff (.inr ⟨_, rfl⟩)

theorem exists_joined_eq (scopes : List Component) (last : Component) :
    ∃ x s, joined scopes last = x :: s ∧ Text.isWordChar x = true := by
  cases scopes with
  | nil =>
    obtain ⟨x, s, hs, hx⟩ := last.exists_identifier_eq
    exact ⟨x, s ++ last.argumentList, by rw [joined, Component.text, hs, List.cons_append], hx⟩
  | cons c scopes =>
    obtain ⟨x, s, hs, hx⟩ := c.exists_identifier_eq
    exact ⟨x, _, by rw [joined, Component.text, hs, List.cons_append, List.cons_append], hx⟩

/-- Behind a separator an operator begins at once, or further on. -/
theorem mentions_separator_joined (scopes : List Component) (last : Component) :
    (separator ++ joined scopes last).mentions operatorMark = false ↔
      ¬ operatorWord <+: joined scopes last ∧
        (joined scopes last).mentions operatorMark = false := by
  obtain ⟨x, s, hs, hx⟩ := exists_joined_eq scopes last
  have no_colon : ':' ≠ x := by
    rintro rfl
    rw [isWordChar_bracket.2.2.1] at hx
    cases hx
  rw [Text.mentions_eq_false_iff, Text.mentions_eq_false_iff, ← not_or]
  refine not_congr ?_
  show operatorMark <:+: ':' :: ':' :: joined scopes last ↔ _
  rw [List.infix_cons_iff, List.infix_cons_iff]
  refine or_congr ?_ (or_iff_right fun h => ?_)
  · show ':' :: ':' :: operatorWord <+: _ ↔ _
    rw [List.cons_prefix_cons, List.cons_prefix_cons]
    simp only [true_and]
  · rw [hs] at h
    exact no_colon (List.cons_prefix_cons.1 (List.cons_prefix_cons.1 h).2).1

/-- No operator of a class seems to be named exactly if no argument list names one and no component
behind a separator starts like one. -/
theorem afterLast?_joined_eq_none_iff (scopes : List Component) (last : Component) :
    Text.afterLast? operatorMark (joined scopes last) = none ↔
      (∀ c ∈ scopes ++ [last], ¬ c.NamesOperator) ∧
        ∀ c ∈ (scopes ++ [last]).tail, ¬ c.LooksLikeOperator := by
  rw [Text.afterLast?_eq_none_iff]
  induction scopes with
  | nil =>
    have := not_congr (Component.mentions_text_iff (c := last))
    rw [Bool.not_eq_true] at this
    simpa [joined] using this
  | cons c scopes ih =>
    obtain ⟨d, ds, hd⟩ : ∃ d ds, scopes ++ [last] = d :: ds :=
      List.exists_cons_of_ne_nil (List.append_ne_nil_of_right_ne_nil _ (List.cons_ne_nil _ _))
    have first := operatorWord_isPrefix_joined_iff hd
    rw [List.cons_append, List.tail_cons, List.forall_mem_cons]
    by_cases hc : c.NamesOperator
    · have found : (joined (c :: scopes) last).mentions operatorMark = true :=
        Text.mentions_mono (List.prefix_append _ _).isInfix (Component.mentions_text_iff.2 hc)
      rw [found]
      exact iff_of_false (fun h => nomatch h) fun h => h.1.1 hc
    · rw [joined, Text.mentions_append_of_clear (Component.clear_text hc _),
        mentions_separator_joined, first, ih, hd, List.tail_cons, List.forall_mem_cons (a := d)
          (l := ds) (p := fun c => ¬ c.LooksLikeOperator)]
      tauto

/-- The last component stands at the end, alone or behind a separator. -/
theorem joined_eq_append (scopes : List Component) (last : Component) :
    ∃ front, joined scopes last = front ++ last.text ∧
      (scopes = [] ∧ front = [] ∨ ∃ outer, front = outer ++ separator) := by
  induction scopes with
  | nil => exact ⟨[], rfl, .inl ⟨rfl, rfl⟩⟩
  | cons c scopes ih =>
    obtain ⟨front, hfront, ⟨-, rfl⟩ | ⟨outer, rfl⟩⟩ := ih
    · exact ⟨c.text ++ separator, by rw [joined, hfront, List.nil_append, List.append_assoc],
        .inr ⟨_, rfl⟩⟩
    · refine ⟨c.text ++ (separator ++ (outer ++ separator)), ?_,
        .inr ⟨c.text ++ (separator ++ outer), ?_⟩⟩
      · simp only [joined, hfront, List.append_assoc]
      · simp only [List.append_assoc]

/-! ## The last component -/

/-- The scan for separators passes over a component. -/
theorem componentFrom_text (c : Component) (current rest : Text) :
    componentFrom 0 current (c.text ++ rest) = componentFrom 0 current rest := by
  have over_identifier : ∀ (s rest : Text), (∀ x ∈ s, Text.isWordChar x = true) →
      componentFrom 0 current (s ++ rest) = componentFrom 0 current rest := by
    intro s rest hs
    induction s with
    | nil => rfl
    | cons x s ih =>
      have word := hs x List.mem_cons_self
      have ne_of {y : Char} (hy : Text.isWordChar y = false) : x ≠ y := by
        rintro rfl
        rw [word] at hy
        cases hy
      obtain ⟨hopen, hclose, hcolon, -⟩ := isWordChar_bracket
      rw [List.cons_append, componentFrom.eq_5 _ _ _ _ (ne_of hopen) (ne_of hclose),
        ih fun y hy => hs y (List.mem_cons_of_mem x hy)]
      intro _ _ hx
      exact absurd hx (ne_of hcolon)
  rw [Component.text, List.append_assoc, over_identifier _ _ c.word]
  cases ha : c.arguments with
  | none => rw [Component.argumentList, ha, List.nil_append]
  | some a =>
    rw [Component.argumentList, ha, List.cons_append, List.append_assoc, componentFrom,
      componentFrom_balanced (c.balanced a ha), List.singleton_append, componentFrom]

/-- The scan for separators finds the last component, whatever the components are. -/
theorem componentFrom_joined (scopes : List Component) (last : Component) :
    componentFrom 0 (joined scopes last) (joined scopes last) = last.text := by
  have alone (c : Component) (current : Text) : componentFrom 0 current c.text = current := by
    have := componentFrom_text c current []
    rwa [List.append_nil, componentFrom] at this
  have general : ∀ current, scopes ≠ [] →
      componentFrom 0 current (joined scopes last) = last.text := by
    induction scopes with
    | nil => exact fun _ h => absurd rfl h
    | cons c scopes ih =>
      intro current _
      rw [joined, componentFrom_text]
      show componentFrom 0 current (':' :: ':' :: joined scopes last) = _
      rw [componentFrom]
      cases scopes with
      | nil => exact alone last _
      | cons d scopes => exact ih _ (List.cons_ne_nil _ _)
  cases scopes with
  | nil => exact alone last last.text
  | cons c scopes => exact general _ (List.cons_ne_nil _ _)

theorem lastComponent_of_none (h : Text.afterLast? operatorMark name = none) :
    lastComponent name = componentFrom 0 name name := by
  have found : Text.afterLast? ("::".toList ++ operatorWord) name = none := h
  rw [lastComponent, found]

theorem lastComponent_of_some (h : Text.afterLast? operatorMark name = some rest) :
    lastComponent name = operatorWord ++ rest := by
  have found : Text.afterLast? ("::".toList ++ operatorWord) name = some rest := h
  rw [lastComponent, found]

/-- A last component that starts like an operator is found as one. -/
theorem afterLast?_joined_of_looksLikeOperator (hscopes : scopes ≠ [])
    (hquiet : ¬ last.NamesOperator) (hlike : last.LooksLikeOperator) :
    ∃ rest, Text.afterLast? operatorMark (joined scopes last) = some rest ∧
      operatorWord ++ rest = last.text := by
  obtain ⟨front, hfront, ⟨hnil, -⟩ | ⟨outer, rfl⟩⟩ := joined_eq_append scopes last
  · exact absurd hnil hscopes
  have starts : operatorWord <+: last.text := hlike.trans (List.prefix_append _ _)
  obtain ⟨rest, hrest⟩ := starts
  have no_later : Text.afterLast? operatorMark last.text = none := by
    rw [Text.afterLast?_eq_none_iff, ← Bool.not_eq_true, Component.mentions_text_iff]
    exact hquiet
  -- The two colons are the last place where the mark can stand.
  have found : Text.afterLast? operatorMark (separator ++ last.text) = some rest := by
    show Text.afterLast? operatorMark (':' :: ':' :: last.text) = _
    have not_here : ¬ operatorMark <+: ':' :: last.text := by
      rw [← hrest]
      exact fun h => absurd (List.cons_prefix_cons.1 (List.cons_prefix_cons.1 h).2).1 (by decide)
    have here : ':' :: ':' :: last.text = operatorMark ++ rest := by
      rw [← hrest]
      rfl
    rw [Text.afterLast?, Text.afterLast?, no_later, Text.isPrefixOf?_eq_none not_here, here,
      Text.isPrefixOf?_append]
    rfl
  refine ⟨rest, ?_, hrest⟩
  rw [hfront, List.append_assoc]
  exact Text.afterLast?_append_of_eq_some found outer

/-- When the last component of a name is found. -/
theorem lastComponent_joined_iff (scopes : List Component) (last : Component) :
    lastComponent (joined scopes last) = last.text ↔ Separable scopes last := by
  refine ⟨fun h => ?_, ?_⟩
  · have quiet : ¬ last.NamesOperator := by
      intro hnames
      -- The mark in the argument list is found, and the component is longer than what follows it.
      obtain ⟨front, hfront, -⟩ := joined_eq_append scopes last
      have hmentions := Component.mentions_text_iff.2 hnames
      cases hfound : Text.afterLast? operatorMark last.text with
      | none => exact absurd hmentions (by rw [Text.afterLast?_eq_none_iff.1 hfound]; decide)
      | some r =>
        obtain ⟨before, hbefore⟩ := Text.eq_append_of_afterLast? hfound
        rw [hfront, lastComponent_of_some (Text.afterLast?_append_of_eq_some hfound front)] at h
        have hlength := congrArg List.length (h.trans hbefore)
        simp only [List.length_append, operatorMark, separator] at hlength
        have : "::".toList.length = 2 := rfl
        omega
    refine ⟨quiet, ?_⟩
    by_cases hlike : scopes ≠ [] ∧ last.LooksLikeOperator
    · exact .inl hlike
    right
    by_cases hscopes : scopes = []
    · subst hscopes
      exact ⟨fun c hc => absurd hc List.not_mem_nil, fun c hc => absurd hc List.not_mem_nil⟩
    have hlast : ¬ last.LooksLikeOperator := fun hl => hlike ⟨hscopes, hl⟩
    have none_found : Text.afterLast? operatorMark (joined scopes last) = none := by
      cases hfound : Text.afterLast? operatorMark (joined scopes last) with
      | none => rfl
      | some r =>
        rw [lastComponent_of_some hfound] at h
        refine absurd ?_ hlast
        rw [← Component.operatorWord_isPrefix_text_iff (.inl rfl), List.append_nil, ← h]
        exact List.prefix_append _ _
    obtain ⟨hnames, htail⟩ := (afterLast?_joined_eq_none_iff scopes last).1 none_found
    exact ⟨fun c hc => hnames c (List.mem_append_left _ hc), htail⟩
  · rintro ⟨hquiet, ⟨hscopes, hlike⟩ | ⟨hnames, htail⟩⟩
    · obtain ⟨rest, hfound, hrest⟩ :=
        afterLast?_joined_of_looksLikeOperator hscopes hquiet hlike
      rw [lastComponent_of_some hfound, hrest]
    · have none_found : Text.afterLast? operatorMark (joined scopes last) = none := by
        refine (afterLast?_joined_eq_none_iff scopes last).2 ⟨fun c hc => ?_, htail⟩
        rcases List.mem_append.1 hc with hc | hc
        · exact hnames c hc
        · exact List.mem_singleton.1 hc ▸ hquiet
      rw [lastComponent_of_none none_found, componentFrom_joined]

/-! ## Its identifier -/

theorem stripTemplateArgs_text (c : Component) : stripTemplateArgs c.text = c.identifier := by
  rw [stripTemplateArgs, Component.text,
    stripFrom_zero_append (c.not_mem_identifier isWordChar_bracket.1)]
  cases ha : c.arguments with
  | none => rw [Component.argumentList, ha, stripFrom, List.append_nil]
  | some a =>
    rw [Component.argumentList, ha, stripFrom_list (c.balanced a ha), stripFrom, List.append_nil]

theorem unqualified_of_isPrefix (h : operatorWord <+: lastComponent name) :
    unqualified name = lastComponent name := by
  rw [unqualified]
  exact if_pos (List.isPrefixOf_iff_prefix.2 h)

theorem unqualified_of_not_isPrefix (h : ¬ operatorWord <+: lastComponent name) :
    unqualified name = stripTemplateArgs (lastComponent name) := by
  rw [unqualified]
  exact if_neg fun hp => h (List.isPrefixOf_iff_prefix.1 hp)

theorem unqualified_of_lastComponent (h : lastComponent name = last.text) :
    unqualified name = if last.LooksLikeOperator then last.text else last.identifier := by
  have starts : operatorWord <+: lastComponent name ↔ last.LooksLikeOperator := by
    have := Component.operatorWord_isPrefix_text_iff (c := last) (.inl rfl)
    rwa [List.append_nil, ← h] at this
  split
  next hlike => rw [unqualified_of_isPrefix (starts.2 hlike), h]
  next hlike =>
    rw [unqualified_of_not_isPrefix fun hp => hlike (starts.1 hp), h, stripTemplateArgs_text]

theorem unqualified_of_identifiable (h : Identifiable scopes last) :
    unqualified (joined scopes last) = last.identifier := by
  rw [unqualified_of_lastComponent ((lastComponent_joined_iff scopes last).2 h.1)]
  split
  next hlike => exact Component.text_of_none (h.2 hlike)
  next => rfl

/-- Two runs of word characters at the end of one text, each behind a colon or nothing, are
the same. -/
theorem eq_of_append_eq_append {front front' s t : Text}
    (h : front ++ s = front' ++ t) (hs : ':' ∉ s) (ht : ':' ∉ t)
    (hfront : front = [] ∨ ∃ outer, front = outer ++ separator)
    (hfront' : ∃ outer, front' = outer ++ separator) : s = t := by
  have last_colon {outer x y : Text} (hx : outer ++ separator = y ++ x) : x = [] ∨ ':' ∈ x := by
    rcases List.eq_nil_or_concat' x with rfl | ⟨z, d, rfl⟩
    · exact .inl rfl
    · right
      have hsplit : outer ++ separator = (outer ++ [':']) ++ [':'] := by
        rw [List.append_assoc]
        rfl
      rw [hsplit, ← List.append_assoc] at hx
      rw [← List.singleton_inj.1 (List.append_inj_right' hx rfl)]
      exact List.mem_append_right z (List.mem_singleton_self _)
  rcases List.append_eq_append_iff.1 h with ⟨x, hx, hst⟩ | ⟨x, hx, hts⟩
  · obtain ⟨outer, rfl⟩ := hfront'
    rcases last_colon hx with rfl | hcolon
    · exact hst
    · exact absurd (hst ▸ List.mem_append_left t hcolon) hs
  · have hx' : x = [] ∨ ':' ∈ x := by
      rcases hfront with rfl | ⟨outer, rfl⟩
      · exact .inl (List.append_eq_nil_iff.1 hx.symm).2
      · exact last_colon hx
    rcases hx' with rfl | hcolon
    · exact hts.symm
    · exact absurd (hts ▸ List.mem_append_left s hcolon) ht

/-- What is found is a word only if it is the identifier. -/
theorem identifiable_of_word
    (h : ∀ x ∈ unqualified (joined scopes last), Text.isWordChar x = true) :
    Identifiable scopes last := by
  have no_colon : ∀ s : Text, (∀ x ∈ s, Text.isWordChar x = true) → ':' ∉ s := by
    intro s hs hcolon
    have := hs _ hcolon
    rw [isWordChar_bracket.2.2.1] at this
    cases this
  have whole : lastComponent (joined scopes last) = last.text := by
    cases hfound : Text.afterLast? operatorMark (joined scopes last) with
    | none => rw [lastComponent_of_none hfound, componentFrom_joined]
    | some r =>
      have starts : operatorWord <+: lastComponent (joined scopes last) := by
        rw [lastComponent_of_some hfound]
        exact List.prefix_append _ _
      rw [unqualified_of_isPrefix starts, lastComponent_of_some hfound] at h
      rw [lastComponent_of_some hfound]
      obtain ⟨before, hbefore⟩ := Text.eq_append_of_afterLast? hfound
      obtain ⟨front, hfront, hscopes⟩ := joined_eq_append scopes last
      have hends : front ++ last.text = (before ++ separator) ++ (operatorWord ++ r) := by
        rw [← hfront, hbefore, operatorMark, List.append_assoc, List.append_assoc]
      -- The name ends as a word does, so its last component has no argument list.
      have hnone : last.arguments = none := by
        cases ha : last.arguments with
        | none => rfl
        | some a =>
          obtain ⟨z, d, hz⟩ : ∃ z d, operatorWord ++ r = z ++ [d] := by
            rcases List.eq_nil_or_concat' (operatorWord ++ r) with hnil | ⟨z, d, hz⟩
            · cases hnil
            · exact ⟨z, d, hz⟩
          rw [Component.text_eq_concat ha, hz, ← List.append_assoc,
            ← List.append_assoc _ z] at hends
          have hclose : '>' = d := List.singleton_inj.1 (List.append_inj_right' hends rfl)
          have hword := h d (hz ▸ List.mem_append_right z (List.mem_singleton_self d))
          rw [← hclose, isWordChar_bracket.2.1] at hword
          cases hword
      rw [Component.text_of_none hnone] at hends ⊢
      refine (eq_of_append_eq_append hends (no_colon _ last.word) (no_colon _ h) ?_
        ⟨before, rfl⟩).symm
      exact hscopes.imp And.right id
  refine ⟨(lastComponent_joined_iff scopes last).1 whole, fun hlike => ?_⟩
  rw [unqualified_of_lastComponent whole, if_pos hlike] at h
  exact Component.arguments_eq_none h

/-- When the identifier of the last component is found. -/
theorem unqualified_joined_iff (scopes : List Component) (last : Component) :
    unqualified (joined scopes last) = last.identifier ↔ Identifiable scopes last :=
  ⟨fun h => identifiable_of_word (h ▸ last.word), unqualified_of_identifiable⟩

/-- Whether the identifier or something else is found, it does not start with a tilde. -/
theorem unqualified_joined_ne_tilde (scopes : List Component) (last : Component) (s : Text) :
    unqualified (joined scopes last) ≠ '~' :: s := by
  intro h
  have not_tilde {t : Text} (ht : t = '~' :: s) {x : Char} {u : Text} (hu : t = x :: u)
      (hx : Text.isWordChar x = true) : False := by
    obtain ⟨rfl, -⟩ := List.cons.inj (ht.symm.trans hu)
    rw [isWordChar_bracket.2.2.2] at hx
    cases hx
  by_cases hp : operatorWord <+: lastComponent (joined scopes last)
  · rw [unqualified_of_isPrefix hp] at h
    rw [h] at hp
    exact absurd (List.cons_prefix_cons.1 hp).1 (by decide)
  · cases hfound : Text.afterLast? operatorMark (joined scopes last) with
    | some r => exact hp (by rw [lastComponent_of_some hfound]; exact List.prefix_append _ _)
    | none =>
      rw [unqualified_of_not_isPrefix hp, lastComponent_of_none hfound, componentFrom_joined,
        stripTemplateArgs_text] at h
      obtain ⟨x, u, hu, hx⟩ := last.exists_identifier_eq
      exact not_tilde h hu hx

/-! ## Kinds of methods -/

theorem identifiable_alone_iff :
    Identifiable [] m ↔ ¬ m.NamesOperator ∧ (m.LooksLikeOperator → m.arguments = none) := by
  refine ⟨fun h => ⟨h.1.1, h.2⟩, fun h => ⟨⟨h.1, .inr ⟨?_, ?_⟩⟩, h.2⟩⟩
  · exact fun c hc => absurd hc List.not_mem_nil
  · exact fun c hc => absurd hc List.not_mem_nil

/-- With a tilde before it, a component is found as a whole. -/
theorem unqualified_tilde_of_quiet (h : ¬ m.NamesOperator) :
    unqualified ('~' :: m.text) = '~' :: m.identifier := by
  have none_found : Text.afterLast? operatorMark ('~' :: m.text) = none := by
    have clear_tilde : Clear operatorMark ['~'] m.text := clear_of_not_mem rfl (by decide)
    rw [← List.singleton_append, Text.afterLast?_append_of_clear clear_tilde]
    rw [Text.afterLast?_eq_none_iff, ← Bool.not_eq_true, Component.mentions_text_iff]
    exact h
  have whole : lastComponent ('~' :: m.text) = '~' :: m.text := by
    have := componentFrom_text m ('~' :: m.text) []
    rw [List.append_nil] at this
    rw [lastComponent_of_none none_found, componentFrom, this, componentFrom]
    all_goals intros; contradiction
  have not_operator : ¬ operatorWord <+: lastComponent ('~' :: m.text) := by
    rw [whole]
    exact fun hp => absurd (List.cons_prefix_cons.1 hp).1 (by decide)
  have stripped := stripTemplateArgs_text m
  rw [unqualified_of_not_isPrefix not_operator, whole]
  rw [stripTemplateArgs] at stripped ⊢
  rw [stripFrom, stripped]
  all_goals intros; contradiction

/-- With an operator in its argument list, the tilde makes no difference. -/
theorem unqualified_tilde_of_namesOperator (h : m.NamesOperator) :
    unqualified ('~' :: m.text) = unqualified m.text := by
  cases hfound : Text.afterLast? operatorMark m.text with
  | none =>
    have := Text.afterLast?_eq_none_iff.1 hfound
    rw [Component.mentions_text_iff.2 h] at this
    cases this
  | some r =>
    have hfound' := Text.afterLast?_append_of_eq_some hfound ['~']
    rw [List.singleton_append] at hfound'
    rw [unqualified, unqualified, lastComponent_of_some hfound, lastComponent_of_some hfound']

theorem methodKind_eq_constructor_iff {owner method : Text} :
    methodKind owner method = .constructor ↔ unqualified method = unqualified owner := by
  rw [methodKind]
  split
  next h => exact iff_of_true rfl h
  next h =>
    refine iff_of_false ?_ h
    split <;> exact fun hk => nomatch hk

theorem methodKind_eq_destructor_iff {owner method : Text} :
    methodKind owner method = .destructor ↔
      unqualified method ≠ unqualified owner ∧ unqualified method = '~' :: unqualified owner := by
  rw [methodKind]
  split
  next h => exact iff_of_false (fun hk => nomatch hk) fun hk => hk.1 h
  next h =>
    split
    next h' => exact iff_of_true rfl ⟨h, h'⟩
    next h' => exact iff_of_false (fun hk => nomatch hk) fun hk => h' hk.2

/-- A component with what is found equal to what is found of a name is the last identifier of that
name, if either is found right. -/
theorem unqualified_eq_iff (h : Identifiable scopes last ∨ Identifiable [] m) :
    unqualified m.text = unqualified (joined scopes last) ↔
      m.identifier = last.identifier ∧ Identifiable scopes last ∧ Identifiable [] m := by
  have alone : unqualified m.text = m.identifier ↔ Identifiable [] m := unqualified_joined_iff [] m
  refine ⟨fun heq => ?_, fun ⟨hid, hlast, hm⟩ => ?_⟩
  · -- The one that is found right is a word, and so the other one is, too.
    have both : Identifiable scopes last ∧ Identifiable [] m := by
      rcases h with hlast | hm
      · have word : ∀ x ∈ unqualified (joined [] m), Text.isWordChar x = true := by
          show ∀ x ∈ unqualified m.text, _
          rw [heq, unqualified_of_identifiable hlast]
          exact last.word
        exact ⟨hlast, identifiable_of_word word⟩
      · refine ⟨identifiable_of_word ?_, hm⟩
        rw [← heq, alone.2 hm]
        exact m.word
    rw [alone.2 both.2, unqualified_of_identifiable both.1] at heq
    exact ⟨heq, both⟩
  · rw [alone.2 hm, unqualified_of_identifiable hlast, hid]

/-- When a method with a tilde goes for the destructor of a class. It never goes for a
constructor. -/
theorem methodKind_tilde_iff (h : Identifiable scopes last ∨ ¬ m.NamesOperator) :
    (methodKind (joined scopes last) ('~' :: m.text) = .destructor ↔
      m.identifier = last.identifier ∧ Identifiable scopes last ∧ ¬ m.NamesOperator) ∧
    methodKind (joined scopes last) ('~' :: m.text) ≠ .constructor := by
  rw [Ne, methodKind_eq_destructor_iff, methodKind_eq_constructor_iff]
  by_cases hm : m.NamesOperator
  · -- What is found of the method is no word, and no tilde stands before it.
    have hlast : Identifiable scopes last := h.resolve_right fun hq => hq hm
    have ne_owner : unqualified m.text ≠ unqualified (joined scopes last) := fun heq =>
      (identifiable_alone_iff.1 ((unqualified_eq_iff (.inl hlast)).1 heq).2.2).1 hm
    rw [unqualified_tilde_of_namesOperator hm]
    exact ⟨iff_of_false (fun hd => unqualified_joined_ne_tilde [] m _ hd.2) fun hd => hd.2.2 hm,
      ne_owner⟩
  · rw [unqualified_tilde_of_quiet hm]
    have ne_owner : '~' :: m.identifier ≠ unqualified (joined scopes last) :=
      (unqualified_joined_ne_tilde scopes last _).symm
    refine ⟨⟨fun hd => ?_, fun ⟨hid, hlast, _⟩ => ⟨ne_owner, ?_⟩⟩, ne_owner⟩
    · have found : m.identifier = unqualified (joined scopes last) := (List.cons.inj hd.2).2
      have hlast : Identifiable scopes last := identifiable_of_word (found ▸ m.word)
      exact ⟨found.trans (unqualified_of_identifiable hlast), hlast, hm⟩
    · rw [unqualified_of_identifiable hlast, hid]

/-- When qualified names are taken apart as they should be, for any scopes and any last component.

* The last component is found exactly if the name is separable, its identifier exactly if the name
  is identifiable.
* A method goes for a constructor exactly if it has the identifier of the class and both identifiers
  are found; this is said of all methods and classes, as long as one of the two is found.
* A method with a tilde goes for a destructor exactly if the method has the identifier of the class,
  which is found, and no operator in its argument list. Otherwise it is a plain method. -/
theorem splits_components_iff (scopes : List Component) (last : Component) :
    (lastComponent (joined scopes last) = last.text ↔ Separable scopes last) ∧
    (unqualified (joined scopes last) = last.identifier ↔ Identifiable scopes last) ∧
    (∀ m : Component, Identifiable scopes last ∨ Identifiable [] m →
      (methodKind (joined scopes last) m.text = .constructor ↔
        m.identifier = last.identifier ∧ Identifiable scopes last ∧ Identifiable [] m)) ∧
    ∀ m : Component, Identifiable scopes last ∨ ¬ m.NamesOperator →
      (methodKind (joined scopes last) ('~' :: m.text) = .destructor ↔
        m.identifier = last.identifier ∧ Identifiable scopes last ∧ ¬ m.NamesOperator) ∧
      (methodKind (joined scopes last) ('~' :: m.text) = .method ↔
        ¬ (m.identifier = last.identifier ∧ Identifiable scopes last ∧ ¬ m.NamesOperator)) := by
  refine ⟨lastComponent_joined_iff scopes last, unqualified_joined_iff scopes last,
    fun m h => methodKind_eq_constructor_iff.trans (unqualified_eq_iff h), fun m h => ?_⟩
  obtain ⟨hdestructor, hconstructor⟩ := methodKind_tilde_iff h
  refine ⟨hdestructor, ?_⟩
  rw [← hdestructor]
  cases hkind : methodKind (joined scopes last) ('~' :: m.text) with
  | constructor => exact absurd hkind hconstructor
  | destructor => exact iff_of_false nofun fun hk => hk rfl
  | method => exact iff_of_true rfl nofun

/-- The last components of `ns::Vec<ns::Pair<int>>` and of its constructor and destructor. -/
theorem splits_components_nested : ∃ (scopes : List Component) (last m : Component),
    joined scopes last = "ns::Vec<ns::Pair<int>>".toList ∧ m.text = "Vec<int>".toList ∧
    lastComponent (joined scopes last) = "Vec<ns::Pair<int>>".toList ∧
    unqualified (joined scopes last) = "Vec".toList ∧
    Identifiable scopes last ∧ ¬ m.NamesOperator ∧
    methodKind (joined scopes last) m.text = .constructor ∧
    methodKind (joined scopes last) ('~' :: m.text) = .destructor := by
  let scope : Component := ⟨"ns".toList, none, by decide, isWordChar_of_all rfl, by decide, nofun⟩
  let last : Component := ⟨"Vec".toList, some "ns::Pair<int>".toList, by decide,
    isWordChar_of_all rfl, by decide, by
      rintro _ ⟨⟩
      have front : Balanced "ns::Pair".toList := balanced_of_not_mem (by decide) (by decide)
      have inner : Balanced "int".toList := balanced_of_not_mem (by decide) (by decide)
      exact front.append (.list inner .nil)⟩
  let m : Component := ⟨"Vec".toList, some "int".toList, by decide, isWordChar_of_all rfl,
    by decide, by
      rintro _ ⟨⟩
      exact balanced_of_not_mem (by decide) (by decide)⟩
  have hlast : Identifiable [scope] last :=
    ⟨⟨by decide +kernel, .inr (by decide +kernel)⟩, by decide +kernel⟩
  have hm : Identifiable [] m := identifiable_alone_iff.2 (by decide +kernel)
  obtain ⟨found, identified, constructor_iff, tilde⟩ := splits_components_iff [scope] last
  exact ⟨[scope], last, m, by decide, by decide, found.2 hlast.1, identified.2 hlast, hlast, hm.1.1,
    (constructor_iff m (.inl hlast)).2 ⟨rfl, hlast, hm⟩,
    (tilde m (.inl hlast)).1.2 ⟨rfl, hlast, hm.1.1⟩⟩

/-- A scope may start with the letters of the word `operator`. Nothing of `ui::operators::Blend` is
found then, and its constructor goes for a plain method. -/
theorem not_splits_operators : ∃ (scopes : List Component) (last : Component),
    joined scopes last = "ui::operators::Blend".toList ∧
    lastComponent (joined scopes last) = "operators::Blend".toList ∧
    lastComponent (joined scopes last) ≠ last.text ∧
    unqualified (joined scopes last) ≠ last.identifier ∧
    methodKind (joined scopes last) last.text = .method := by
  let outer : Component := ⟨"ui".toList, none, by decide, isWordChar_of_all rfl, by decide, nofun⟩
  let inner : Component :=
    ⟨"operators".toList, none, by decide, isWordChar_of_all rfl, by decide, nofun⟩
  let last : Component := ⟨"Blend".toList, none, by decide, isWordChar_of_all rfl, by decide, nofun⟩
  exact ⟨[outer, inner], last, by decide, by decide +kernel, by decide +kernel, by decide +kernel,
    by decide +kernel⟩

end Lineage.QualifiedName
