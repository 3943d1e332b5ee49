import Lineage.Proofs.Record.ReadBack

/-!
# Names of a class on two lines

The dumper breaks long lines after a comma, and so the two names of a class may stand on one line or
on two. Either way the record is the same, and it should be read as the same.

On one line the display name runs up to the introducer of the mangled name. On a line of its own it
runs to the first comma, and that may be one of its own, between the arguments of a template. This
is what is lost by a break (`displayOf?_head`). Where the names stand on the second line of the
record, a break may also part that line from a flag or a field list behind the names; the record is
the same if there is nothing of the kind (`reads_wrapped_iff`).

Reading a class is first reduced to four questions about its lines: which id the header has, which
list and flag the second line, and which two names the line of the names (`toOption_readClass`).
Neither faults nor positions enter into these. Each question is then asked of the line as a whole
and of the two lines it is broken into, and the answers are compared.

Main results: `reads_wrapped_iff`, with `not_reads_wrapped_pair`.
-/

namespace Lineage

open Text (Clear clear_of_break clear_of_clears clear_of_not_mem)

/-! ## Outcomes of readers -/

section Outcomes

variable {α β : Type} {x : Reading Cursor α} {f : α → Reading Cursor β} {c d : Cursor} {a : α}

theorem toOption_eq_some_iff {x : Except Fault α} : x.toOption = some a ↔ x = .ok a := by
  cases x with
  | ok b => exact ⟨fun h => congrArg _ (Option.some.inj h), fun h => congrArg _ (Except.ok.inj h)⟩
  | error e => exact ⟨nofun, nofun⟩

theorem Reading.toOption_ofExcept_bind (outcome : Nat → Except Fault α) (f : α → Reading Cursor β)
    (c : Cursor) : ((ofExcept outcome >>= f).run c).1.toOption =
      (outcome c.line).toOption.bind fun a => ((f a).run c).1.toOption := by
  have found : (ofExcept outcome).run c = (outcome c.line, c) := rfl
  rw [run_bind, found]
  cases outcome c.line <;> rfl

/-- Where it does not matter from where one reads on, the cursor can be left out. -/
theorem Reading.toOption_bind {g : α → Option β}
    (hf : ∀ a d, ((f a).run d).1.toOption = g a) (x : Reading Cursor α) (c : Cursor) :
    ((x >>= f).run c).1.toOption = (x.run c).1.toOption.bind g := by
  rw [run_bind]
  rcases x.run c with ⟨e | a, d⟩
  · rfl
  · exact hf a d

theorem Reading.toOption_expect_bind (value : Option α) (marker line : Text)
    (f : α → Reading Cursor β) (c : Cursor) : ((expect value marker line >>= f).run c).1.toOption =
      value.bind fun a => ((f a).run c).1.toOption := by
  cases value <;> rfl

theorem Field.toOption_typeIdAfter (line introducer : Text) (n : Nat) :
    (typeIdAfter line introducer n).toOption =
      (tokenAfter? line introducer).bind TypeId.read? := by
  unfold typeIdAfter
  split
  next h => exact h.symm
  next h => exact h.symm

theorem Field.toOption_leadingTypeId (line : Text) (n : Nat) :
    (leadingTypeId line n).toOption = TypeId.read? (leadingToken line) := by
  unfold leadingTypeId
  split
  next h => exact h.symm
  next h => exact h.symm

end Outcomes

namespace Record

variable {header line : Text} {pre tail more : List Text} {n : Nat}

/-! ## What a class record is read from -/

/-- The field list in a second line, unless it says that the record is a forward reference. -/
def fieldListOf? (second : Text) : Option (Option TypeId) :=
  if hasFlag second forwardFlag then some none
  else ((Field.tokenAfter? second fieldListIntro).bind TypeId.read?).map fun id =>
    if id.isNull then none else some id

/-- The display name in the line of the names. -/
def displayOf? (line : Text) : Option Text :=
  (Field.textUntil? line classNameIntro ", unique name = ".toList).bind nonempty?

/-- The mangled name in the line of the names, or in the one after it. -/
def mangledOf? (line : Text) (more : List Text) : Option Text :=
  match Field.textAfter? line uniqueNameIntro with
  | some name => nonempty? name
  | none => (more.head?.filter fun l => Text.mentions l uniqueNameIntro).bind fun next =>
      nonempty? ((Field.textAfter? next uniqueNameIntro).getD [])

/-- The class record with this header and second line, whose names are on a line with more lines
after it. -/
def classOf? (header second line : Text) (more : List Text) : Option ClassRecord := do
  let id ← TypeId.read? (Field.leadingToken header)
  let fieldList ← fieldListOf? second
  let display ← displayOf? line
  let mangled ← mangledOf? line more
  return { id, display, mangled, fieldList, isForward := hasFlag second forwardFlag }

/-- A line of a class record before its names. -/
structure BeforeNames (line : Text) : Prop where
  visible : line.allBlank = false
  inside : Dump.isBanner line = false
  nameless : line.mentions classNameIntro = false

theorem seekFrom_names (hpre : ∀ l ∈ pre, BeforeNames l) (hline : line.allBlank = false)
    (hnames : line.mentions classNameIntro = true) (header : Text) (n : Nat)
    (more : List Text) : seekFrom classNameIntro header n (pre ++ line :: more) =
      (.ok line, ⟨n + pre.length + 1, more⟩) := by
  induction pre generalizing n with
  | nil =>
    rw [List.nil_append, seekFrom, hline, hnames]
    rfl
  | cons l pre ih =>
    obtain ⟨hl, hpre⟩ := List.forall_mem_cons.1 hpre
    rw [List.cons_append, seekFrom, hl.visible, hl.nameless, if_neg Bool.false_ne_true,
      if_neg Bool.false_ne_true, ih hpre, List.length_cons, Nat.add_right_comm n 1,
      Nat.add_assoc n]

/-- The line of the names is found from the second line on. -/
theorem run_lineWith_names (hpre : ∀ l ∈ pre, BeforeNames l) (hline : line.allBlank = false)
    (hnames : line.mentions classNameIntro = true) (header : Text) (n : Nat) (more : List Text) :
    ∃ second rest m, pre ++ line :: more = second :: rest ∧ second = pre.head?.getD line ∧
      second.allBlank = false ∧
      (lineWith classNameIntro header second).run ⟨n, rest⟩ = (.ok line, ⟨m, more⟩) := by
  cases pre with
  | nil =>
    refine ⟨line, more, n, rfl, rfl, hline, ?_⟩
    rw [Reading.run, lineWith_cursor, if_pos hnames]
  | cons l pre =>
    obtain ⟨hl, hpre⟩ := List.forall_mem_cons.1 hpre
    refine ⟨l, pre ++ line :: more, n + pre.length + 1, rfl, rfl, hl.visible, ?_⟩
    rw [Reading.run, lineWith_cursor, hl.nameless, if_neg Bool.false_ne_true,
      seekFrom_names hpre hline hnames]

theorem toOption_fieldListId_bind (second : Text) (f : Option TypeId → Reading Cursor ClassRecord)
    (c : Cursor) : ((fieldListId (hasFlag second forwardFlag) second >>= f).run c).1.toOption =
      (fieldListOf? second).bind fun fieldList => ((f fieldList).run c).1.toOption := by
  unfold fieldListId fieldListOf?
  split
  next => rfl
  next =>
    have found : (Reading.ofExcept fun n => Field.typeIdAfter second fieldListIntro n).run c =
        (Field.typeIdAfter second fieldListIntro c.line, c) := rfl
    rw [Reading.run_bind, Reading.run_bind, found, ← Field.toOption_typeIdAfter _ _ c.line]
    cases Field.typeIdAfter second fieldListIntro c.line <;> rfl

theorem toOption_uniqueName (line : Text) (n : Nat) (more : List Text) :
    ((uniqueName line).run ⟨n, more⟩).1.toOption.bind nonempty? = mangledOf? line more := by
  unfold mangledOf?
  cases hname : Field.textAfter? line uniqueNameIntro with
  | some name =>
    rw [run_uniqueName hname]
    rfl
  | none =>
    have peeked : Reading.peek?.run ⟨n, more⟩ = (.ok more.head?, ⟨n, more⟩) := rfl
    rw [uniqueName, hname]
    dsimp only
    rw [Reading.run_bind_ok peeked]
    cases more.head?.filter fun l => Text.mentions l uniqueNameIntro <;> rfl

/-- A class record is read from its header, its second line and the line of its names. -/
theorem toOption_readClass (hpre : ∀ l ∈ pre, BeforeNames l) (hline : line.allBlank = false)
    (hnames : line.mentions classNameIntro = true) (header : Text) (n : Nat) (more : List Text) :
    ((readClass header).run ⟨n, pre ++ line :: more⟩).1.toOption =
      classOf? header (pre.head?.getD line) line more := by
  obtain ⟨second, rest, m, hlines, rfl, hsecond, hrun⟩ :=
    run_lineWith_names hpre hline hnames header (n + 1) more
  generalize pre.head?.getD line = second at *
  rw [readClass, Reading.toOption_ofExcept_bind, Field.toOption_leadingTypeId, hlines, classOf?]
  refine congrArg (Option.bind _) (funext fun id => ?_)
  have next : Reading.next?.run ⟨n, second :: rest⟩ = (.ok (some second), ⟨n + 1, rest⟩) := rfl
  rw [Reading.run_bind_ok next]
  dsimp only
  rw [hsecond, if_neg Bool.false_ne_true, toOption_fieldListId_bind]
  refine congrArg (Option.bind _) (funext fun fieldList => ?_)
  rw [Reading.run_bind_ok hrun, Reading.toOption_expect_bind]
  refine congrArg (Option.bind _) (funext fun display => ?_)
  show _ = (mangledOf? line more).bind _
  rw [← toOption_uniqueName line m, Option.bind_assoc]
  exact Reading.toOption_bind (fun name d => Reading.toOption_expect_bind _ _ _ _ d) _ _

end Record

/-! ## Names on one line and on two -/

open Record

/-- The names of a class record in their line, with what stands before and after them. The line is
told by its introducers, so these stand nowhere before the names. -/
structure NamesLine where
  before : Text
  display : Text
  mangled : Text
  after : Text
  before_banner : Dump.isBanner before = false
  before_class : before.mentions classNameIntro = false
  before_unique : before.mentions uniqueNameIntro = false
  display_nonempty : display ≠ []
  display_trim : display.trim = display
  display_unique : display.mentions uniqueNameIntro = false
  mangled_nonempty : mangled ≠ []
  mangled_trim : mangled.trim = mangled
  mangled_comma : ',' ∉ mangled

namespace NamesLine

/-- The line up to the display name. -/
def stem (l : NamesLine) : Text := l.before ++ (classNameIntro ++ l.display)

/-- The line from the mangled name on. -/
def rest (l : NamesLine) : Text := uniqueNameIntro ++ (l.mangled ++ ',' :: l.after)

/-- Both names on one line. -/
def whole (l : NamesLine) : Text := l.stem ++ ',' :: ' ' :: l.rest

/-- The first of two lines, which breaks off after the comma. -/
def head (l : NamesLine) (pad : Text) : Text := l.stem ++ ',' :: pad

/-- The second of two lines. -/
def next (l : NamesLine) (indent : Text) : Text := indent ++ l.rest

variable {l : NamesLine} {pad indent line : Text}

/-- The comma at a break and the white space after it hold no phrase. -/
theorem mentions_break (hpad : pad.allBlank = true) {phrase : Text} {c : Char} (h : c ∈ phrase)
    (hc : Text.isBlank c = false) (hcomma : c ≠ ',') :
    Text.mentions (',' :: pad) phrase = false := by
  refine Text.mentions_eq_false_of_not_mem h fun hmem => ?_
  exact Text.not_mem_of_allBlank hpad hc (List.mem_of_ne_of_mem hcomma hmem)

/-! ### Both lines are lines of the record -/

/-- What starts with the stem is a line of the record, the first one with names. -/
theorem stem_append (l : NamesLine) (s : Text) : (l.stem ++ s).allBlank = false ∧
    Dump.isBanner (l.stem ++ s) = false ∧ (l.stem ++ s).mentions classNameIntro = true := by
  have split : l.stem ++ s = l.before ++ (classNameIntro ++ (l.display ++ s)) := by
    simp only [stem, List.append_assoc]
  rw [split]
  refine ⟨?_, ?_, Text.mentions_append_right _ _⟩
  · have visible : 'c' ∈ l.before ++ (classNameIntro ++ (l.display ++ s)) :=
      List.mem_append_right _ (List.mem_append_left _ (by decide))
    exact Text.allBlank_eq_false visible (by decide)
  · have before_banner := l.before_banner
    rw [Dump.isBanner, ← Bool.not_eq_true, List.isPrefixOf_iff_prefix] at before_banner ⊢
    exact fun hbanner => before_banner (Text.isPrefix_of_break (c := 'c') (by decide) hbanner)

theorem isBanner_next (hindent : indent.allBlank = true) :
    Dump.isBanner (l.next indent) = false := by
  rw [Dump.isBanner, ← Bool.not_eq_true, List.isPrefixOf_iff_prefix]
  intro hbanner
  have inside : "*** ".toList <+: indent := Text.isPrefix_of_break (c := 'u') (by decide) hbanner
  exact Text.not_mem_of_allBlank hindent (by decide) (inside.subset (show '*' ∈ _ by decide))

/-! ### The display name -/

theorem clear_before (l : NamesLine) (s : Text) :
    Clear classNameIntro l.before (classNameIntro ++ s) :=
  clear_of_break (c := 'c') l.before_class (by decide)

theorem clear_display (l : NamesLine) (s : Text) :
    Clear ", unique name = ".toList l.display (',' :: s) := by
  refine clear_of_break ?_ (by decide)
  rw [Text.mentions_eq_false_iff]
  have inside : uniqueNameIntro <:+: ", unique name = ".toList := ⟨", ".toList, [], by decide⟩
  exact fun h => Text.mentions_eq_false_iff.1 l.display_unique (inside.trans h)

theorem displayOf?_whole (l : NamesLine) : displayOf? l.whole = some l.display := by
  have split : l.whole = l.before ++ (classNameIntro ++ (l.display ++
      (", unique name = ".toList ++ (l.mangled ++ ',' :: l.after)))) := by
    simp only [whole, stem, rest, List.append_assoc]
    rfl
  have clear : Clear ", unique name = ".toList l.display
      (", unique name = ".toList ++ (l.mangled ++ ',' :: l.after)) := l.clear_display _
  have found := Field.textUntil?_of_clear (by decide) (by decide) (l.clear_before _) clear
    l.display_trim
  rw [displayOf?, split, found, Option.bind_some, nonempty?,
    List.isEmpty_eq_false_iff.2 l.display_nonempty]
  rfl

/-- What is read up to a comma has none. -/
theorem not_mem_textAfter? {introducer value : Text}
    (h : Field.textAfter? line introducer = some value) : ',' ∉ value := by
  obtain ⟨rest, _, rfl⟩ := Option.map_eq_some_iff.1 h
  have no_comma : ',' ∉ Text.trim (rest.takeWhile fun c => !Field.isComma c) := by
    intro hmem
    have := List.mem_takeWhile_imp ((Text.trim_isInfix _).subset hmem)
    exact absurd this (by decide)
  generalize Text.trim (rest.takeWhile fun c => !Field.isComma c) = value at *
  have no_suffix : ¬ ",".toList.reverse <+: value.trimEnd.reverse := fun hs =>
    no_comma ((Text.trimEnd_isPrefix value).subset
      (List.mem_reverse.1 (hs.subset List.mem_cons_self)))
  rw [Field.dropTrailingComma, List.isSuffixOf?, Text.isPrefixOf?_eq_none no_suffix,
    Option.map_none, Option.getD_none]
  exact fun hmem => no_comma ((Text.trimEnd_isPrefix value).subset hmem)

/-- The display name is read from a line of its own if it has no comma. -/
theorem displayOf?_head (hpad : pad.allBlank = true) :
    displayOf? (l.head pad) = some l.display ↔ ',' ∉ l.display := by
  have split : l.head pad = l.before ++ (classNameIntro ++ (l.display ++ ',' :: pad)) := by
    simp only [head, stem, List.append_assoc]
  have no_terminator : Text.cut? ", unique name = ".toList (l.display ++ ',' :: pad) = none := by
    have quiet : (l.display ++ ',' :: pad).mentions ", unique name = ".toList = false := by
      rw [Text.mentions_append_of_clear (l.clear_display pad)]
      exact mentions_break (c := 'u') hpad (by decide) (by decide) (by decide)
    rwa [Text.mentions, Option.isSome_eq_false_iff, Option.isNone_iff_eq_none] at quiet
  have until_comma : Field.textUntil? (l.head pad) classNameIntro ", unique name = ".toList =
      Field.textAfter? (l.head pad) classNameIntro := by
    rw [Field.textUntil?, split, Field.after?_of_clear (by decide) (l.clear_before _)]
    dsimp only
    rw [no_terminator]
  rw [displayOf?, until_comma]
  refine ⟨fun h => ?_, fun h => ?_⟩
  · obtain ⟨value, hvalue, hname⟩ := Option.bind_eq_some_iff.1 h
    rw [nonempty?] at hname
    split at hname
    next => cases hname
    next => exact Option.some.inj hname ▸ not_mem_textAfter? hvalue
  · rw [split, Field.textAfter?_of_clear (by decide) (l.clear_before _) h l.display_trim,
      Option.bind_some, nonempty?, List.isEmpty_eq_false_iff.2 l.display_nonempty]
    rfl

/-! ### The mangled name -/

theorem clear_stem (l : NamesLine) (s : Text) : Clear uniqueNameIntro l.stem (',' :: s) := by
  refine Text.clear_append.2 ⟨clear_of_break (c := 'c') l.before_unique (by decide), ?_⟩
  exact Text.clear_append.2 ⟨clear_of_clears (by decide),
    clear_of_break l.display_unique (by decide)⟩

theorem nonempty?_mangled (l : NamesLine) : nonempty? l.mangled = some l.mangled := by
  rw [nonempty?, List.isEmpty_eq_false_iff.2 l.mangled_nonempty]
  rfl

theorem mangledOf?_whole (l : NamesLine) (more : List Text) :
    mangledOf? l.whole more = some l.mangled := by
  have split : l.whole = (l.stem ++ ", ".toList) ++ (uniqueNameIntro ++
      (l.mangled ++ ',' :: l.after)) := by
    simp only [whole, rest, List.append_assoc]
    rfl
  have clear : Clear uniqueNameIntro (l.stem ++ ", ".toList)
      (uniqueNameIntro ++ (l.mangled ++ ',' :: l.after)) :=
    Text.clear_append.2 ⟨l.clear_stem _, clear_of_clears (by decide)⟩
  have found := Field.textAfter?_of_clear (by decide) clear l.mangled_comma l.mangled_trim
  rw [← split] at found
  rw [mangledOf?, found]
  exact l.nonempty?_mangled

theorem mangledOf?_head (hpad : pad.allBlank = true) (hindent : indent.allBlank = true)
    (more : List Text) : mangledOf? (l.head pad) (l.next indent :: more) = some l.mangled := by
  have not_here : Field.textAfter? (l.head pad) uniqueNameIntro = none := by
    have quiet : (l.head pad).mentions uniqueNameIntro = false := by
      rw [head, Text.mentions_append_of_clear (l.clear_stem pad)]
      exact mentions_break (c := 'u') hpad (by decide) (by decide) (by decide)
    rw [Text.mentions, Option.isSome_eq_false_iff, Option.isNone_iff_eq_none] at quiet
    rw [Field.textAfter?, Field.after?, quiet]
    rfl
  have clear : Clear uniqueNameIntro indent (uniqueNameIntro ++ (l.mangled ++ ',' :: l.after)) :=
    clear_of_not_mem (c := 'u') rfl (Text.not_mem_of_allBlank hindent (by decide))
  have found := Field.textAfter?_of_clear (by decide) clear l.mangled_comma l.mangled_trim
  have names : (l.next indent).mentions uniqueNameIntro = true := Text.mentions_append_right _ _
  rw [mangledOf?, not_here]
  dsimp only
  rw [List.head?_cons, Option.filter_some, if_pos names, Option.bind_some, next, rest, found]
  exact l.nonempty?_mangled

/-! ### The flag and the field list -/

/-- A break takes no flag onto a line. -/
theorem hasFlag_whole_of_head (hpad : pad.allBlank = true)
    (h : hasFlag (l.head pad) forwardFlag = true) : hasFlag l.whole forwardFlag = true := by
  have head_eq : l.head pad = (l.stem ++ [',']) ++ pad := by
    rw [head, List.append_assoc]
    rfl
  have whole_eq : l.whole = (l.stem ++ [',']) ++ ' ' :: l.rest := by
    rw [whole, List.append_assoc]
    rfl
  have flag_trimmed : forwardFlag.trimEnd = ", FORWARD REF".toList ++ [','] := by decide
  have flag_eq : forwardFlag = ", FORWARD REF".toList ++ [',', ' '] := by decide
  rw [hasFlag, Bool.or_eq_true, Text.mentions_iff_isInfix, List.isSuffixOf_iff_suffix, head_eq,
    flag_trimmed, flag_eq] at h
  rw [hasFlag, Bool.or_eq_true, Text.mentions_iff_isInfix, whole_eq, flag_eq]
  left
  rcases h with hinfix | hsuffix
  · exact Text.isInfix_of_wrapped (by decide) hpad hinfix
  · rw [Text.trimEnd_append_of_allBlank hpad, Text.trimEnd_concat_of_not_blank (by decide)]
      at hsuffix
    exact Text.isInfix_of_isSuffix hsuffix

theorem hasFlag_head_of_whole (hpad : pad.allBlank = true)
    (h : hasFlag l.whole forwardFlag = false) : hasFlag (l.head pad) forwardFlag = false := by
  rw [← Bool.not_eq_true]
  intro hhead
  rw [hasFlag_whole_of_head hpad hhead] at h
  cases h

/-- A field list before the break is the same on both lines. -/
theorem tokenAfter?_stem (h : (l.head pad).mentions fieldListIntro = true)
    (hpad : pad.allBlank = true) :
    Field.tokenAfter? (l.head pad) fieldListIntro = Field.tokenAfter? l.whole fieldListIntro := by
  have in_stem : l.stem.mentions fieldListIntro = true := by
    by_contra hquiet
    rw [Bool.not_eq_true] at hquiet
    rw [head, Text.mentions_append_of_clear (clear_of_break hquiet (by decide)),
      mentions_break (c := 'f') hpad (by decide) (by decide) (by decide)] at h
    cases h
  obtain ⟨⟨front, behind⟩, hcut⟩ := Option.isSome_iff_exists.1 in_stem
  -- The token ends before the comma, whatever comes after that.
  have token (s : Text) : Field.tokenAfter? (l.stem ++ ',' :: s) fieldListIntro =
      some (behind.trimStart.takeWhile fun c => !(Field.isComma c || Text.isBlank c)) := by
    have start : (behind ++ ',' :: s).trimStart = behind.trimStart ++ ',' :: s := by
      rw [Text.trimStart, Text.trimStart, List.dropWhile_append]
      split
      next hall =>
        rw [List.isEmpty_iff.1 hall]
        rfl
      next => rfl
    rw [Field.tokenAfter?, Field.after?, Text.cut?_append_of_eq_some hcut, Option.map_some,
      Option.map_some, start, List.takeWhile_append]
    split
    next hall =>
      rw [List.takeWhile_cons_of_neg (by decide), List.append_nil,
        (List.takeWhile_prefix _).eq_of_length hall]
    next => rfl
  rw [head, whole, token, token]

/-! ### The record -/

/-- The class record with this header is read from these lines. -/
def Reads (header : Text) (n : Nat) (lines : List Text) (r : ClassRecord) : Prop :=
  ((readClass header).run ⟨n, Dump.untilBanner lines⟩).1 = .ok r

variable {header : Text} {n : Nat} {pre tail : List Text} {r : ClassRecord}

/-- Names on one line are read as they are. -/
theorem reads_whole_iff (hpre : ∀ x ∈ pre, BeforeNames x) :
    Reads header n (pre ++ l.whole :: tail) r ↔ ∃ id fieldList,
      TypeId.read? (Field.leadingToken header) = some id ∧
      fieldListOf? (pre.head?.getD l.whole) = some fieldList ∧
      r = ⟨id, l.display, l.mangled, fieldList, hasFlag (pre.head?.getD l.whole) forwardFlag⟩ := by
  obtain ⟨hvisible, hbanner, hnames⟩ := l.stem_append (',' :: ' ' :: l.rest)
  rw [Reads, Dump.untilBanner_append fun x hx => (hpre x hx).inside, whole,
    Dump.untilBanner_cons hbanner, ← toOption_eq_some_iff,
    toOption_readClass hpre hvisible hnames, ← whole, classOf?, displayOf?_whole,
    mangledOf?_whole]
  simp only [Option.bind_eq_bind, Option.bind_eq_some_iff, Option.bind_some, Option.pure_def,
    Option.some_inj, eq_comm (b := r), exists_and_left]

/-- Names on two lines are read as they are, if the display name has no comma. If it has one,
another name is read. -/
theorem reads_wrapped (hpre : ∀ x ∈ pre, BeforeNames x) (hpad : pad.allBlank = true)
    (hindent : indent.allBlank = true) :
    Reads header n (pre ++ l.head pad :: l.next indent :: tail) r ↔ ∃ id fieldList display,
      TypeId.read? (Field.leadingToken header) = some id ∧
      fieldListOf? (pre.head?.getD (l.head pad)) = some fieldList ∧
      displayOf? (l.head pad) = some display ∧
      r = ⟨id, display, l.mangled, fieldList,
        hasFlag (pre.head?.getD (l.head pad)) forwardFlag⟩ := by
  obtain ⟨hvisible, hbanner, hnames⟩ := l.stem_append (',' :: pad)
  rw [Reads, Dump.untilBanner_append fun x hx => (hpre x hx).inside, head,
    Dump.untilBanner_cons hbanner, Dump.untilBanner_cons (isBanner_next hindent),
    ← toOption_eq_some_iff,
    toOption_readClass hpre hvisible hnames, ← head, classOf?, mangledOf?_head hpad hindent]
  simp only [Option.bind_eq_bind, Option.bind_eq_some_iff, Option.bind_some, Option.pure_def,
    Option.some_inj, eq_comm (b := r), exists_and_left]

/-- A break behind the display name takes nothing away. The name itself has no comma. If the line is
the second one of its record, a flag stands before the break, and so does the field list. -/
structure Breakable (l : NamesLine) (pre : List Text) (pad : Text) : Prop where
  display : ',' ∉ l.display
  flag : pre = [] → hasFlag l.whole forwardFlag = true → hasFlag (l.head pad) forwardFlag = true
  fieldList : pre = [] → hasFlag l.whole forwardFlag = false →
    (l.head pad).mentions fieldListIntro = true

/-- Whatever stands in the second line, it says the same with and without the break. -/
theorem Breakable.second (h : l.Breakable pre pad) (hpad : pad.allBlank = true) :
    hasFlag (pre.head?.getD (l.head pad)) forwardFlag =
        hasFlag (pre.head?.getD l.whole) forwardFlag ∧
      fieldListOf? (pre.head?.getD (l.head pad)) = fieldListOf? (pre.head?.getD l.whole) := by
  cases pre with
  | cons x pre => exact ⟨rfl, rfl⟩
  | nil =>
    show hasFlag (l.head pad) forwardFlag = hasFlag l.whole forwardFlag ∧
      fieldListOf? (l.head pad) = fieldListOf? l.whole
    rw [fieldListOf?, fieldListOf?]
    cases hflag : hasFlag l.whole forwardFlag with
    | true =>
      rw [h.flag rfl hflag]
      exact ⟨rfl, rfl⟩
    | false =>
      rw [hasFlag_head_of_whole hpad hflag, tokenAfter?_stem (h.fieldList rfl hflag) hpad]
      exact ⟨rfl, rfl⟩

theorem mentions_of_fieldListOf? {second : Text} {fieldList : Option TypeId}
    (h : fieldListOf? second = some fieldList) (hflag : hasFlag second forwardFlag = false) :
    second.mentions fieldListIntro = true := by
  rw [fieldListOf?, hflag, if_neg Bool.false_ne_true, Field.tokenAfter?, Field.after?] at h
  rw [Text.mentions]
  cases hcut : Text.cut? fieldListIntro second with
  | some _ => rfl
  | none =>
    rw [hcut] at h
    cases h

/-- What can be read with the break can be read without it. -/
theorem exists_fieldListOf?_whole (hpad : pad.allBlank = true) {fieldList : Option TypeId}
    (h : fieldListOf? (pre.head?.getD (l.head pad)) = some fieldList) :
    ∃ fieldList', fieldListOf? (pre.head?.getD l.whole) = some fieldList' := by
  cases pre with
  | cons x pre => exact ⟨fieldList, h⟩
  | nil =>
    show ∃ fieldList', fieldListOf? l.whole = some fieldList'
    have h : fieldListOf? (l.head pad) = some fieldList := h
    cases hflag : hasFlag l.whole forwardFlag with
    | true => exact ⟨none, by rw [fieldListOf?, hflag, if_pos rfl]⟩
    | false =>
      have quiet := hasFlag_head_of_whole hpad hflag
      refine ⟨fieldList, ?_⟩
      rw [← h, fieldListOf?, fieldListOf?, hflag, quiet,
        tokenAfter?_stem (mentions_of_fieldListOf? h quiet) hpad]

theorem reads_wrapped_of_breakable (h : l.Breakable pre pad) (hpre : ∀ x ∈ pre, BeforeNames x)
    (hpad : pad.allBlank = true) (hindent : indent.allBlank = true) :
    Reads header n (pre ++ l.whole :: tail) r ↔
      Reads header n (pre ++ l.head pad :: l.next indent :: tail) r := by
  obtain ⟨hflag, hlist⟩ := h.second hpad
  rw [reads_whole_iff hpre, reads_wrapped hpre hpad hindent, hflag, hlist,
    (displayOf?_head hpad).2 h.display]
  simp only [Option.some_inj, exists_and_left, exists_eq_left']

/-- When a break between the names of a class changes nothing. The same records are read with and
without it exactly if none is read at all, or the line can be broken there. Without the break the
names are read as they stand. -/
theorem reads_wrapped_iff (l : NamesLine) (hpre : ∀ x ∈ pre, BeforeNames x)
    (hpad : pad.allBlank = true) (hindent : indent.allBlank = true) :
    ((∀ r, Reads header n (pre ++ l.whole :: tail) r ↔
        Reads header n (pre ++ l.head pad :: l.next indent :: tail) r) ↔
      ((∃ r, Reads header n (pre ++ l.whole :: tail) r) → l.Breakable pre pad)) ∧
    ∀ r, Reads header n (pre ++ l.whole :: tail) r →
      r.display = l.display ∧ r.mangled = l.mangled := by
  refine ⟨⟨fun hsame hreads => ?_, fun hbreak r => ⟨fun hr => ?_, fun hr => ?_⟩⟩, fun r hr => ?_⟩
  · obtain ⟨r, hr⟩ := hreads
    obtain ⟨id, fieldList, _, hlist, heq⟩ := (reads_whole_iff hpre).1 hr
    obtain ⟨id', fieldList', display, _, hlist', hdisplay, rfl⟩ :=
      (reads_wrapped hpre hpad hindent).1 ((hsame r).1 hr)
    obtain ⟨-, rfl, -, -, hforward⟩ := ClassRecord.mk.inj heq
    refine ⟨(displayOf?_head hpad).1 hdisplay, ?_, ?_⟩
    · rintro rfl hflag
      exact hforward.trans hflag
    · rintro rfl hflag
      exact mentions_of_fieldListOf? hlist' (hforward.trans hflag)
  · exact (reads_wrapped_of_breakable (hbreak ⟨r, hr⟩) hpre hpad hindent).1 hr
  · -- Without the break something is read, too, so the line can be broken.
    obtain ⟨id, fieldList, _, hid, hlist, -, -⟩ := (reads_wrapped hpre hpad hindent).1 hr
    obtain ⟨fieldList', hlist'⟩ := exists_fieldListOf?_whole hpad hlist
    have hreads : ∃ r, Reads header n (pre ++ l.whole :: tail) r :=
      ⟨_, (reads_whole_iff hpre).2 ⟨id, fieldList', hid, hlist', rfl⟩⟩
    exact (reads_wrapped_of_breakable (hbreak hreads) hpre hpad hindent).2 hr
  · obtain ⟨id, fieldList, _, _, rfl⟩ := (reads_whole_iff hpre).1 hr
    exact ⟨rfl, rfl⟩

/-- The first line of a class record. -/
def classHeader : Text := "0x1003 : Length = 38, Leaf = 0x1504 LF_CLASS".toList

/-- Its second line. -/
def classSecond : Text := "\t# members = 1,  field list type 0x1002, CONSTRUCTOR, ".toList

/-- The names of a plain class. -/
def baseNames : NamesLine :=
  { before := "\tSize = 4, ".toList, display := "Base".toList, mangled := ".?AVBase@@".toList,
    after := " UDT(0x00001003)".toList, before_banner := by decide, before_class := by decide,
    before_unique := by decide, display_nonempty := by decide, display_trim := by decide,
    display_unique := by decide, mangled_nonempty := by decide, mangled_trim := by decide,
    mangled_comma := by decide }

/-- They are the same on two lines. -/
theorem reads_wrapped_base :
    (∀ x ∈ [classSecond], BeforeNames x) ∧ baseNames.Breakable [classSecond] [] ∧
    ∃ r, Reads classHeader 1 ([classSecond] ++ [baseNames.whole]) r ∧
      Reads classHeader 1 ([classSecond] ++ [baseNames.head [], baseNames.next "\t\t".toList]) r ∧
      r.display = "Base".toList := by
  have before : ∀ x ∈ [classSecond], BeforeNames x := fun x hx => by
    obtain rfl := List.mem_singleton.1 hx
    exact ⟨by decide, by decide, by decide⟩
  have breakable : baseNames.Breakable [classSecond] [] :=
    ⟨by decide, nofun, nofun⟩
  have same : ∀ r, Reads classHeader 1 ([classSecond] ++ [baseNames.whole]) r ↔
      Reads classHeader 1 ([classSecond] ++ [baseNames.head [], baseNames.next "\t\t".toList]) r :=
    (reads_wrapped_iff baseNames before rfl (by decide)).1.2 fun _ => breakable
  have read : Reads classHeader 1 ([classSecond] ++ [baseNames.whole])
      ⟨⟨0x1003⟩, "Base".toList, ".?AVBase@@".toList, some ⟨0x1002⟩, false⟩ := by
    unfold Reads
    decide +kernel
  exact ⟨before, breakable, _, read, (same _).1 read, rfl⟩

/-- The names of an instance of a template with two arguments. -/
def pairNames : NamesLine :=
  { before := "\tSize = 8, ".toList, display := "Pair<int,char>".toList,
    mangled := ".?AU?$Pair@HD@@".toList, after := " UDT(0x00001003)".toList,
    before_banner := by decide, before_class := by decide, before_unique := by decide,
    display_nonempty := by decide, display_trim := by decide, display_unique := by decide,
    mangled_nonempty := by decide, mangled_trim := by decide, mangled_comma := by decide }

/-- On two lines its display name is cut at the comma between the arguments. -/
theorem not_reads_wrapped_pair : ∃ r r',
    Reads classHeader 1 ([classSecond] ++ [pairNames.whole]) r ∧
    Reads classHeader 1 ([classSecond] ++ [pairNames.head [], pairNames.next "\t\t".toList]) r' ∧
    r.display = "Pair<int,char>".toList ∧ r'.display = "Pair<int".toList ∧ r ≠ r' := by
  let pair (display : Text) : ClassRecord :=
    ⟨⟨0x1003⟩, display, ".?AU?$Pair@HD@@".toList, some ⟨0x1002⟩, false⟩
  refine ⟨pair "Pair<int,char>".toList, pair "Pair<int".toList, ?_, ?_, rfl, rfl, by decide⟩
  · unfold Reads
    decide +kernel
  · unfold Reads
    decide +kernel

end NamesLine
end Lineage
