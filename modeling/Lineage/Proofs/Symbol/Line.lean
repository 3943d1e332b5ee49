import Lineage.Proofs.Resolution.Shape
import Lineage.Proofs.Text.Hexadecimal
import Lineage.Proofs.Text.Leftmost
import Lineage.Symbol.Line

/-!
# What symbol lines say

A line holds a symbol if, from some place on, it has the form that the tag announces. The parts of
this form are told apart by what ends them: digits by a bracket or a comma, the tag by its colon,
the type by the comma before the first blank. So from one place on there is only one way to take a
line apart (`ProcedureForm.text_injective`, `PublicForm.text_injective`). There may be several
places, as names may hold anything; then the first one counts.

Each reader of a part is shown to take off exactly the texts of the form of that part, and from
these the readers of whole lines are assembled.

What a line gives besides its form is arithmetic: the section by its number, the sum of three words,
and that it fits in 64 bits. A line is refused where any of these fails. The readers are compared
with this in the end only (`readProcedure_eq_ok_iff_isFirstOn`), when the leftmost form is known to
be unique.

Main result: `reads_leftmost_form`.
-/

namespace Lineage

namespace Symbol

variable {s t rest digits phrase : Text} {p q : Place}

/-! ## Places -/

/-- The digits that are read go on to the first character that is none. -/
theorem hexRun?_eq_some_iff : hexRun? s = some (digits, rest) ↔
    Text.IsHexRun digits ∧ Text.Stops Text.isHexDigit rest ∧ s = digits ++ rest := by
  constructor
  · intro h
    unfold hexRun? at h
    split at h
    next => cases h
    next hne =>
      obtain ⟨rfl, rfl⟩ := Prod.mk.inj (Option.some.inj h)
      refine ⟨⟨fun hnil => hne (List.isEmpty_iff.2 hnil), fun c hc => ?_⟩,
        Text.stops_dropWhile _ s, List.takeWhile_append_dropWhile.symm⟩
      exact List.mem_takeWhile_imp hc
  · rintro ⟨hdigits, hrest, rfl⟩
    rw [hexRun?, Text.takeWhile_run hdigits.isHexDigit hrest,
      Text.dropWhile_run hdigits.isHexDigit hrest,
      if_neg fun hempty => hdigits.ne_nil (List.isEmpty_iff.1 hempty)]

namespace Place

/-- Both numbers of the place are digits. -/
structure IsHex (p : Place) : Prop where
  number : Text.IsHexRun p.number
  offset : Text.IsHexRun p.offset

/-- The place between its brackets. -/
def text (p : Place) : Text :=
  "[".toList ++ (p.number ++ (":".toList ++ (p.offset ++ "]".toList)))

end Place

theorem stops_colon (s : Text) : Text.Stops Text.isHexDigit (":".toList ++ s) :=
  Text.stops_cons (by decide)

theorem stops_bracket (s : Text) : Text.Stops Text.isHexDigit ("]".toList ++ s) :=
  Text.stops_cons (by decide)

/-- A place is read exactly where one stands, and brackets end its numbers. -/
theorem place?_eq_some_iff : place? s = some (p, rest) ↔ p.IsHex ∧ s = p.text ++ rest := by
  simp only [place?, bind, Option.bind_eq_some_iff, Prod.exists, hexRun?_eq_some_iff,
    List.isPrefixOf?_eq_some_iff_append_eq, pure, Option.some_inj, Prod.mk.injEq]
  constructor
  · rintro ⟨_, rfl, number, _, ⟨hnumber, _, rfl⟩, _, rfl, offset, _, ⟨hoffset, _, rfl⟩, _, rfl, rfl,
      rfl⟩
    exact ⟨⟨hnumber, hoffset⟩, by simp [Place.text]⟩
  · rintro ⟨⟨hnumber, hoffset⟩, rfl⟩
    refine ⟨_, ?_, p.number, _, ⟨hnumber, stops_colon _, rfl⟩, _, rfl, p.offset, _,
      ⟨hoffset, stops_bracket rest, rfl⟩, _, rfl, rfl, rfl⟩
    simp [Place.text]

/-- The digits themselves are of no interest here. -/
theorem afterHex?_eq_some_iff : afterHex? phrase s = some rest ↔
    ∃ digits, Text.IsHexRun digits ∧ Text.Stops Text.isHexDigit rest ∧
      s = phrase ++ (digits ++ rest) := by
  simp only [afterHex?, bind, Option.bind_eq_some_iff, Prod.exists, hexRun?_eq_some_iff,
    List.isPrefixOf?_eq_some_iff_append_eq, pure, Option.some_inj]
  constructor
  · rintro ⟨_, rfl, digits, _, ⟨hdigits, hrest, rfl⟩, rfl⟩
    exact ⟨digits, hdigits, hrest, rfl⟩
  · rintro ⟨digits, hdigits, hrest, rfl⟩
    exact ⟨_, rfl, digits, rest, ⟨hdigits, hrest, rfl⟩, rfl⟩

namespace Place

/-- A place at the front of a text can be told from what follows it. -/
theorem append_inj (hp : p.IsHex) (hq : q.IsHex) (h : p.text ++ s = q.text ++ t) :
    p = q ∧ s = t := by
  have hs : place? (p.text ++ s) = some (p, s) := place?_eq_some_iff.2 ⟨hp, rfl⟩
  have ht : place? (q.text ++ t) = some (q, t) := place?_eq_some_iff.2 ⟨hq, rfl⟩
  rw [h, ht] at hs
  obtain ⟨rfl, rfl⟩ := Prod.mk.inj (Option.some.inj hs)
  exact ⟨rfl, rfl⟩

end Place

/-! ## Procedures -/

/-- Text without white space, which is not empty. -/
structure IsVisibleRun (s : Text) : Prop where
  ne_nil : s ≠ []
  isBlank : ∀ c ∈ s, Text.isBlank c = false

/-- The rest of a line, which is not empty. -/
structure IsRestOfLine (s : Text) : Prop where
  ne_nil : s ≠ []
  no_break : '\n' ∉ s

/-- What stands of a procedure from its tag to the end of the line. -/
structure ProcedureForm where
  /-- What the tag runs on in. -/
  tagRest : Text
  place : Place
  size : Text
  gap : Text
  type : Text
  name : Text
  isWordChar : ∀ c ∈ tagRest, Text.isWordChar c = true
  place_isHex : place.IsHex
  size_isHexRun : Text.IsHexRun size
  gap_allBlank : gap.allBlank = true
  type_isVisible : IsVisibleRun type
  name_isRest : IsRestOfLine name

/-- The form as it stands on the line. -/
def ProcedureForm.text (x : ProcedureForm) : Text :=
  RecordKind.procedureTag ++ (x.tagRest ++ (": ".toList ++ (x.place.text ++ (", Cb: ".toList ++
    (x.size ++ (", Type:".toList ++ (x.gap ++ (x.type ++ (", ".toList ++ x.name)))))))))

/-- A type is a visible run. The comma behind it is visible, too, and the blank ends both. -/
theorem visible_concat {type : Text} (h : IsVisibleRun type) :
    ∀ c ∈ type ++ [','], (!Text.isBlank c) = true := by
  intro c hc
  rcases List.mem_append.1 hc with hc | hc
  · rw [h.isBlank c hc]
    rfl
  · rw [List.mem_singleton.1 hc]
    decide

/-- The white space before the type ends where the type begins. -/
theorem stops_gap {type : Text} (h : IsVisibleRun type) (rest : Text) :
    Text.Stops Text.isBlank (type ++ rest) := by
  obtain ⟨c, type, rfl⟩ := List.exists_cons_of_ne_nil h.ne_nil
  exact Text.stops_cons (h.isBlank c List.mem_cons_self)

theorem stops_space (name : Text) : Text.Stops (fun c => !Text.isBlank c) (' ' :: name) :=
  Text.stops_cons (by decide)

/-- A type and a name are read exactly where they stand: the comma behind the type is the last
visible character before a blank. -/
theorem typeAndName?_eq_some_iff {type name : Text} : typeAndName? s = some (type, name) ↔
    ∃ gap, gap.allBlank = true ∧ IsVisibleRun type ∧ IsRestOfLine name ∧
      s = gap ++ (type ++ (", ".toList ++ name)) := by
  simp only [typeAndName?, bind, Option.bind_eq_some_iff, List.isSuffixOf?_eq_some_iff_append_eq,
    List.isPrefixOf?_eq_some_iff_append_eq]
  constructor
  · rintro ⟨type', hrun, name', hrest, h⟩
    split at h
    next => cases h
    next hproper =>
      obtain ⟨rfl, rfl⟩ := Prod.mk.inj (Option.some.inj h)
      simp only [Bool.or_eq_true, List.isEmpty_iff, List.contains_iff_mem, not_or] at hproper
      refine ⟨s.takeWhile Text.isBlank, List.all_takeWhile, ⟨hproper.1.1, fun c hc => ?_⟩,
        ⟨hproper.1.2, hproper.2⟩, ?_⟩
      · have visible := List.mem_takeWhile_imp (hrun ▸ List.mem_append_left _ hc)
        simpa using visible
      · have whole := List.takeWhile_append_dropWhile (p := fun c => !Text.isBlank c)
          (l := s.trimStart)
        rw [← hrun, ← hrest, List.append_assoc] at whole
        rw [show ", ".toList ++ name' = ",".toList ++ (" ".toList ++ name') from rfl, whole]
        exact List.takeWhile_append_dropWhile.symm
  · rintro ⟨gap, hgap, htype, hname, rfl⟩
    have trimmed : (gap ++ (type ++ (", ".toList ++ name))).trimStart =
        type ++ [','] ++ ' ' :: name := by
      rw [Text.trimStart, Text.dropWhile_run (List.all_eq_true.1 hgap) (stops_gap htype _),
        List.append_assoc]
      rfl
    have proper : ¬ (type.isEmpty || name.isEmpty || name.contains '\n') = true := by
      simpa [and_assoc] using ⟨htype.ne_nil, hname.ne_nil, hname.no_break⟩
    refine ⟨type, ?_, name, ?_, if_neg proper⟩
    · rw [trimmed, Text.takeWhile_run (visible_concat htype) (stops_space name)]
      rfl
    · rw [trimmed, Text.dropWhile_run (visible_concat htype) (stops_space name)]
      rfl

theorem isWordChar_colon : Text.isWordChar ':' = false := by decide +kernel

theorem stops_type (s : Text) : Text.Stops Text.isHexDigit (", Type:".toList ++ s) :=
  Text.stops_cons (by decide)

/-- A procedure is read exactly from the texts that have its form. -/
theorem procedureAt?_eq_some_iff {f : Place × Text × Text} : procedureAt? s = some f ↔
    ∃ x : ProcedureForm, x.text = s ∧ (x.place, x.type, x.name) = f := by
  simp only [procedureAt?, bind, Option.bind_eq_some_iff, Prod.exists,
    List.isPrefixOf?_eq_some_iff_append_eq, place?_eq_some_iff, afterHex?_eq_some_iff, pure,
    Option.some_inj]
  constructor
  · rintro ⟨afterTag, rfl, afterColon, hcolon, place, _, ⟨hplace, rfl⟩, _,
      ⟨size, hsize, _, rfl⟩, _, rfl, type, name, hread, rfl⟩
    obtain ⟨gap, hgap, htype, hname, rfl⟩ := typeAndName?_eq_some_iff.1 hread
    refine ⟨⟨afterTag.takeWhile Text.isWordChar, place, size, gap, type, name,
      fun c hc => List.mem_takeWhile_imp hc, hplace, hsize, hgap, htype, hname⟩, ?_, rfl⟩
    show RecordKind.procedureTag ++ (afterTag.takeWhile Text.isWordChar ++ _) = _
    rw [hcolon, List.takeWhile_append_dropWhile]
  · rintro ⟨x, rfl, rfl⟩
    have hcolon (rest : Text) : Text.Stops Text.isWordChar (": ".toList ++ rest) :=
      Text.stops_cons isWordChar_colon
    refine ⟨_, rfl, _, (Text.dropWhile_run x.isWordChar (hcolon _)).symm, x.place, _,
      ⟨x.place_isHex, rfl⟩, _, ⟨x.size, x.size_isHexRun, stops_type _, rfl⟩, _, rfl, x.type, x.name,
      ?_, rfl⟩
    exact typeAndName?_eq_some_iff.2
      ⟨x.gap, x.gap_allBlank, x.type_isVisible, x.name_isRest, rfl⟩

/-- White space, a type and a name can be told apart in one way only. -/
theorem typeAndName_append_inj {gap gap' type type' name name' : Text}
    (hgap : gap.allBlank = true) (hgap' : gap'.allBlank = true) (htype : IsVisibleRun type)
    (htype' : IsVisibleRun type') (hname : IsRestOfLine name) (hname' : IsRestOfLine name')
    (h : gap ++ (type ++ (", ".toList ++ name)) = gap' ++ (type' ++ (", ".toList ++ name'))) :
    gap = gap' ∧ type = type' ∧ name = name' := by
  have read := typeAndName?_eq_some_iff.2 ⟨gap, hgap, htype, hname, rfl⟩
  rw [h, typeAndName?_eq_some_iff.2 ⟨gap', hgap', htype', hname', rfl⟩] at read
  obtain ⟨rfl, rfl⟩ := Prod.mk.inj (Option.some.inj read)
  exact ⟨List.append_cancel_right h, rfl, rfl⟩

/-- There is one way to take a procedure apart. -/
theorem ProcedureForm.text_injective : Function.Injective ProcedureForm.text := by
  intro x y h
  obtain ⟨tagRest, place, size, gap, type, name, hword, hplace, hsize, hgap, htype, hname⟩ := x
  obtain ⟨tagRest', place', size', gap', type', name', hword', hplace', hsize', hgap', htype',
    hname'⟩ := y
  have hcolon (rest : Text) : Text.Stops Text.isWordChar (": ".toList ++ rest) :=
    Text.stops_cons isWordChar_colon
  obtain ⟨rfl, h⟩ := Text.run_append_inj hword hword' (hcolon _) (hcolon _)
    (List.append_cancel_left h)
  obtain ⟨rfl, h⟩ := Place.append_inj hplace hplace' (List.append_cancel_left h)
  obtain ⟨rfl, h⟩ := Text.run_append_inj hsize.isHexDigit hsize'.isHexDigit (stops_type _)
    (stops_type _) (List.append_cancel_left h)
  obtain ⟨rfl, rfl, rfl⟩ := typeAndName_append_inj hgap hgap' htype htype' hname hname'
    (List.append_cancel_left h)
  rfl

/-! ## Public symbols -/

/-- What stands of a public symbol from its tag on, and what follows it on the line. -/
structure PublicForm where
  place : Place
  flags : Text
  name : Text
  rest : Text
  place_isHex : place.IsHex
  flags_isHexRun : Text.IsHexRun flags
  name_isVisible : IsVisibleRun name
  /-- The name goes on as long as there is visible text. -/
  stops : Text.Stops (fun c => !Text.isBlank c) rest

/-- The form as it stands on the line. -/
def PublicForm.text (x : PublicForm) : Text :=
  publicTag ++ (": ".toList ++ (x.place.text ++ (", Flags: ".toList ++ (x.flags ++
    (", ".toList ++ (x.name ++ x.rest))))))

theorem stops_comma (s : Text) : Text.Stops Text.isHexDigit (", ".toList ++ s) :=
  Text.stops_cons (by decide)

theorem IsVisibleRun.visible {name : Text} (h : IsVisibleRun name) :
    ∀ c ∈ name, (!Text.isBlank c) = true := by
  intro c hc
  rw [h.isBlank c hc]
  rfl

/-- A public symbol is read exactly from the texts that have its form. -/
theorem publicAt?_eq_some_iff {f : Place × Text} : publicAt? s = some f ↔
    ∃ x : PublicForm, x.text = s ∧ (x.place, x.name) = f := by
  simp only [publicAt?, bind, Option.bind_eq_some_iff, Prod.exists,
    List.isPrefixOf?_eq_some_iff_append_eq, place?_eq_some_iff, afterHex?_eq_some_iff]
  constructor
  · rintro ⟨_, rfl, _, rfl, place, _, ⟨hplace, rfl⟩, _, ⟨flags, hflags, _, rfl⟩, s, rfl, h⟩
    split at h
    next => cases h
    next hne =>
      refine ⟨⟨place, flags, s.takeWhile fun c => !Text.isBlank c,
        s.dropWhile fun c => !Text.isBlank c, hplace, hflags,
        ⟨fun hnil => hne (List.isEmpty_iff.2 hnil), fun c hc => ?_⟩, Text.stops_dropWhile _ s⟩,
        ?_, Option.some.inj h⟩
      · simpa using List.mem_takeWhile_imp hc
      · simp only [PublicForm.text, List.takeWhile_append_dropWhile]
  · rintro ⟨x, rfl, rfl⟩
    have name := Text.takeWhile_run x.name_isVisible.visible x.stops
    have some_name : ¬ x.name.isEmpty = true := fun hempty =>
      x.name_isVisible.ne_nil (List.isEmpty_iff.1 hempty)
    refine ⟨_, rfl, _, rfl, x.place, _, ⟨x.place_isHex, rfl⟩, _,
      ⟨x.flags, x.flags_isHexRun, stops_comma _, rfl⟩, _, rfl, ?_⟩
    rw [name, if_neg some_name]

/-- There is one way to take a public symbol apart. -/
theorem PublicForm.text_injective : Function.Injective PublicForm.text := by
  intro x y h
  obtain ⟨place, flags, name, rest, hplace, hflags, hname, hrest⟩ := x
  obtain ⟨place', flags', name', rest', hplace', hflags', hname', hrest'⟩ := y
  obtain ⟨rfl, h⟩ := Place.append_inj hplace hplace'
    (List.append_cancel_left (List.append_cancel_left h))
  obtain ⟨rfl, h⟩ := Text.run_append_inj hflags.isHexDigit hflags'.isHexDigit (stops_comma _)
    (stops_comma _) (List.append_cancel_left h)
  obtain ⟨rfl, rfl⟩ := Text.run_append_inj hname.visible hname'.visible hrest hrest'
    (List.append_cancel_left h)
  rfl

/-! ## Addresses -/

section Addresses

variable {imageBase : UInt64} {headers : List Image.SectionHeader} {a : Address}

/-- An address is that of a place in an image: the sum of the image base, the start of the first
section with the number and the offset, which fits in 64 bits. -/
structure Place.LiesAt (imageBase : UInt64) (headers : List Image.SectionHeader) (p : Place)
    (a : Address) : Prop where
  number_lt : Text.hexValue p.number < UInt16.size
  offset_lt : Text.hexValue p.offset < UInt64.size
  sum : ∃ header, headers.find? (fun h => h.number.toNat = Text.hexValue p.number) = some header ∧
    imageBase.toNat + header.address.toNat + Text.hexValue p.offset < UInt64.size ∧
    a.value.toNat = imageBase.toNat + header.address.toNat + Text.hexValue p.offset

/-- The number of a section is the value of its digits, if that fits in 16 bits. -/
theorem sectionNumber?_eq_some_iff (hp : p.IsHex) {number : UInt16} :
    p.sectionNumber? = some number ↔ number.toNat = Text.hexValue p.number := by
  rw [Place.sectionNumber?, Text.digits?_eq_some_iff.2 ⟨hp.number, rfl⟩, Option.bind_some]
  constructor
  · intro h
    split at h
    next hlt =>
      obtain rfl := Option.some.inj h
      exact UInt16.toNat_ofNat_of_lt' hlt
    next => cases h
  · intro h
    rw [← h, if_pos number.toNat_lt_size, UInt16.ofNat_toNat]

/-- The offset is the value of its digits, if that fits in 64 bits. -/
theorem word?_offset_eq_some_iff (hp : p.IsHex) {offset : UInt64} :
    word? p.offset = some offset ↔ offset.toNat = Text.hexValue p.offset := by
  have trimmed := Text.trim_eq_self_of_visible hp.offset.isHexNumeral.isBlank
  have value : Text.hexNumber? p.offset = some (Text.hexValue p.offset) :=
    Text.hexNumber?_eq_some_iff.2 (trimmed.symm ▸ hp.offset.isHexNumeral)
  rw [word?_eq_some_iff, ← Text.hexNumber?_eq_some_iff, value, Option.some_inj, eq_comm]

/-- An address is found exactly if the sum of its three parts fits. -/
theorem locate?_eq_some_iff {layout : Image.Layout} {number : UInt16} {offset : UInt64} :
    layout.locate? number offset = some a ↔ ∃ header, layout.header? number = some header ∧
      a.value.toNat = layout.imageBase.toNat + header.address.toNat + offset.toNat := by
  refine ⟨Image.Layout.toNat_of_locate?_eq_some, ?_⟩
  rintro ⟨header, hheader, hsum⟩
  simp only [Image.Layout.locate?, bind, Option.bind_eq_some_iff]
  have hlt := a.value.toNat_lt_size
  have fits : layout.imageBase.toNat + header.address.toNat < UInt64.size := by omega
  refine ⟨header, hheader, _, if_pos fits, Address.add?_eq_some_iff.2 ?_⟩
  rw [hsum, UInt64.toNat_add, Nat.mod_eq_of_lt fits]

/-- With section headers a place is resolved if it can be located. -/
theorem resolve_eq_ok_iff {number : UInt16} {offset : UInt64} (n : Nat) (line : Text) :
    (⟨imageBase, some headers⟩ : Image.Layout).resolve number offset n line = .ok a ↔
      (⟨imageBase, some headers⟩ : Image.Layout).locate? number offset = some a := by
  rw [Image.Layout.resolve]
  split
  next hnone => cases hnone
  split
  next hnone =>
    refine iff_of_false (fun h => by cases h) fun h => ?_
    obtain ⟨header, hheader, _⟩ := locate?_eq_some_iff.1 h
    rw [hheader] at hnone
    cases hnone
  · split
    next b hb => rw [hb, Except.ok.injEq, Option.some_inj]
    next hb => exact iff_of_false (fun h => by cases h) fun h => by rw [hb] at h; cases h

/-- A place has an address where the image has the section and the sum fits, and there only. -/
theorem address_eq_ok_iff (hp : p.IsHex) (n : Nat) (line : Text) :
    p.address ⟨imageBase, some headers⟩ n line = .ok a ↔ p.LiesAt imageBase headers a := by
  have parts : p.address ⟨imageBase, some headers⟩ n line = .ok a ↔
      ∃ number offset, p.sectionNumber? = some number ∧ word? p.offset = some offset ∧
        (⟨imageBase, some headers⟩ : Image.Layout).locate? number offset = some a := by
    rw [Place.address]
    cases p.sectionNumber? with
    | none => exact iff_of_false (fun h => by cases h) fun ⟨_, _, h, _⟩ => by cases h
    | some number =>
      cases word? p.offset with
      | none => exact iff_of_false (fun h => by cases h) fun ⟨_, _, _, h, _⟩ => by cases h
      | some offset => simp [resolve_eq_ok_iff]
  simp only [parts, sectionNumber?_eq_some_iff hp, word?_offset_eq_some_iff hp,
    locate?_eq_some_iff, Image.Layout.header?]
  have found {number : UInt16} (hnumber : number.toNat = Text.hexValue p.number) :
      headers.find? (fun h => h.number = number) =
        headers.find? fun h => h.number.toNat = Text.hexValue p.number := by
    simp only [← hnumber, UInt16.toNat_inj]
  constructor
  · rintro ⟨number, offset, hnumber, hoffset, header, hheader, hsum⟩
    rw [hoffset] at hsum
    refine ⟨hnumber ▸ number.toNat_lt_size, hoffset ▸ offset.toNat_lt_size, header, ?_, ?_, hsum⟩
    · exact (found hnumber).symm.trans hheader
    · exact hsum ▸ a.value.toNat_lt_size
  · rintro ⟨hnumber, hoffset, header, hheader, _, hsum⟩
    have number := UInt16.toNat_ofNat_of_lt' hnumber
    have offset := UInt64.toNat_ofNat_of_lt' hoffset
    exact ⟨_, _, number, offset, header, (found number).trans hheader, offset.symm ▸ hsum⟩

end Addresses

/-! ## Lines -/

section Lines

variable {imageBase : UInt64} {headers : List Image.SectionHeader} {line before : Text}

/-- The leftmost form on a line. If there were several types to choose from, it would be the
shortest. -/
structure ProcedureForm.IsFirstOn (line before : Text) (x : ProcedureForm) : Prop
    extends Text.IsLeftmost ProcedureForm.text line before x where
  shortest_type : ∀ y : ProcedureForm, line = before ++ y.text → x.type.length ≤ y.type.length

/-- There are never several types to choose from. -/
theorem isFirstOn_iff {x : ProcedureForm} : x.IsFirstOn line before ↔
    Text.IsLeftmost ProcedureForm.text line before x := by
  refine ⟨ProcedureForm.IsFirstOn.toIsLeftmost, fun h => ⟨h, fun y hy => ?_⟩⟩
  have same : x.text = y.text := List.append_cancel_left (h.stands.symm.trans hy)
  rw [ProcedureForm.text_injective same]

/-- The type of a procedure is the value of its numeral, unless that is no id or zero. -/
theorem filter_read?_eq_some_iff {type : Text} (h : IsVisibleRun type) (id : TypeId) :
    ((TypeId.read? type).filter fun id => !id.isNull) = some id ↔
      Text.IsHexNumeral type id.value.toNat ∧ id.value ≠ 0 := by
  rw [Option.filter_eq_some_iff, TypeId.read?_eq_some_iff, Text.trim_eq_self_of_visible h.isBlank,
    Bool.not_eq_true', TypeId.isNull, beq_eq_false_iff_ne]

/-- What a reader of a procedure does once the line has been searched. -/
theorem readProcedure_eq_ok_iff_firstMatch? {layout : Image.Layout} {n : Nat} {p : Procedure} :
    readProcedure line n layout = .ok p ↔ ∃ place type name,
      Text.firstMatch? procedureAt? line = some (place, type, name) ∧
        place.address layout n line = .ok p.address ∧ p.name = name.trim ∧
        p.type = (TypeId.read? type).filter fun id => !id.isNull := by
  rw [readProcedure]
  cases Text.firstMatch? procedureAt? line with
  | none => exact iff_of_false (fun h => by cases h) fun ⟨_, _, _, h, _⟩ => by cases h
  | some f =>
    obtain ⟨place, type, name⟩ := f
    dsimp only
    rw [bind_eq_ok_iff]
    constructor
    · rintro ⟨a, ha, h⟩
      obtain rfl := Except.ok.inj h
      exact ⟨place, type, name, rfl, ha, rfl, rfl⟩
    · rintro ⟨place', type', name', hf, ha, hname, htype⟩
      cases hf
      obtain ⟨pname, ptype, paddress⟩ := p
      obtain rfl : pname = _ := hname
      obtain rfl : ptype = _ := htype
      exact ⟨paddress, ha, rfl⟩

/-- What a reader of a public symbol does once the line has been searched. -/
theorem readPublic_eq_ok_iff_firstMatch? {layout : Image.Layout} {n : Nat} {s : PublicSymbol} :
    readPublic line n layout = .ok s ↔ ∃ place name,
      Text.firstMatch? publicAt? line = some (place, name) ∧
        place.address layout n line = .ok s.address ∧ s.mangled = name := by
  rw [readPublic]
  cases Text.firstMatch? publicAt? line with
  | none => exact iff_of_false (fun h => by cases h) fun ⟨_, _, h, _⟩ => by cases h
  | some f =>
    obtain ⟨place, name⟩ := f
    dsimp only
    rw [bind_eq_ok_iff]
    constructor
    · rintro ⟨a, ha, h⟩
      obtain rfl := Except.ok.inj h
      exact ⟨place, name, rfl, ha, rfl⟩
    · rintro ⟨place', name', hf, ha, hname⟩
      cases hf
      obtain ⟨mangled, address⟩ := s
      obtain rfl : mangled = _ := hname
      exact ⟨address, ha, rfl⟩

/-- A procedure is read from the leftmost form on a line, if its place has an address. -/
theorem readProcedure_eq_ok_iff_isFirstOn {n : Nat} {p : Procedure} :
    readProcedure line n ⟨imageBase, some headers⟩ = .ok p ↔
      ∃ before x, ProcedureForm.IsFirstOn line before x ∧
        x.place.LiesAt imageBase headers p.address ∧ p.name = x.name.trim ∧
        ∀ id, p.type = some id ↔ Text.IsHexNumeral x.type id.value.toNat ∧ id.value ≠ 0 := by
  simp only [readProcedure_eq_ok_iff_firstMatch?,
    Text.firstMatch?_eq_some_iff_isLeftmost fun _ _ => procedureAt?_eq_some_iff, isFirstOn_iff]
  have types (x : ProcedureForm) :
      (p.type = (TypeId.read? x.type).filter fun id => !id.isNull) ↔
        ∀ id, p.type = some id ↔ Text.IsHexNumeral x.type id.value.toNat ∧ id.value ≠ 0 := by
    rw [Option.ext_iff]
    simp only [filter_read?_eq_some_iff x.type_isVisible]
  constructor
  · rintro ⟨_, _, _, ⟨before, x, hx, h⟩, haddress, hname, htype⟩
    cases h
    exact ⟨before, x, hx, (address_eq_ok_iff x.place_isHex n line).1 haddress, hname,
      (types x).1 htype⟩
  · rintro ⟨before, x, hx, haddress, hname, htype⟩
    exact ⟨_, _, _, ⟨before, x, hx, rfl⟩, (address_eq_ok_iff x.place_isHex n line).2 haddress,
      hname, (types x).2 htype⟩

/-- A public symbol is read from the leftmost form on a line, if its place has an address. -/
theorem readPublic_eq_ok_iff_isLeftmost {n : Nat} {s : PublicSymbol} :
    readPublic line n ⟨imageBase, some headers⟩ = .ok s ↔
      ∃ before x, Text.IsLeftmost PublicForm.text line before x ∧
        x.place.LiesAt imageBase headers s.address ∧ s.mangled = x.name := by
  simp only [readPublic_eq_ok_iff_firstMatch?,
    Text.firstMatch?_eq_some_iff_isLeftmost fun _ _ => publicAt?_eq_some_iff]
  constructor
  · rintro ⟨_, _, ⟨before, x, hx, h⟩, haddress, hname⟩
    cases h
    exact ⟨before, x, hx, (address_eq_ok_iff x.place_isHex n line).1 haddress, hname⟩
  · rintro ⟨before, x, hx, haddress, hname⟩
    exact ⟨_, _, ⟨before, x, hx, rfl⟩, (address_eq_ok_iff x.place_isHex n line).2 haddress, hname⟩

/-- A line on which a form stands has one leftmost form. -/
theorem existsUnique_isLeftmost {α : Type} {text : α → Text} (htext : Function.Injective text) :
    (∃ before x, line = before ++ text x) ↔
      ∃! e : Text × α, Text.IsLeftmost text line e.1 e.2 := by
  constructor
  · rintro ⟨before, x, h⟩
    obtain ⟨before, x, h⟩ := Text.exists_isLeftmost h
    refine ⟨(before, x), h, fun e he => ?_⟩
    obtain ⟨hbefore, hx⟩ := he.unique htext h
    exact Prod.ext hbefore hx
  · rintro ⟨e, he, _⟩
    exact ⟨e.1, e.2, he.stands⟩

/-- When symbol lines are read in an image with section headers, and what is read then. A line on
which the form of a procedure stands has one such form that stands leftmost and has the shortest
type. The line is read exactly if it has one whose place has an address, and the procedure has this
address, the name without the white space around it, and the id that the type spells, if it is not
zero. In the same way a public symbol has the address of its place and the name up to the first
white space. -/
theorem reads_leftmost_form (imageBase : UInt64) (headers : List Image.SectionHeader)
    (line : Text) (n : Nat) :
    ((∃ before, ∃ x : ProcedureForm, line = before ++ x.text) ↔
      ∃! e : Text × ProcedureForm, ProcedureForm.IsFirstOn line e.1 e.2) ∧
    (∀ p, readProcedure line n ⟨imageBase, some headers⟩ = .ok p ↔
      ∃ before x, ProcedureForm.IsFirstOn line before x ∧
        x.place.LiesAt imageBase headers p.address ∧ p.name = x.name.trim ∧
        ∀ id, p.type = some id ↔ Text.IsHexNumeral x.type id.value.toNat ∧ id.value ≠ 0) ∧
    ((∃ before, ∃ x : PublicForm, line = before ++ x.text) ↔
      ∃! e : Text × PublicForm, Text.IsLeftmost PublicForm.text line e.1 e.2) ∧
    ∀ s, readPublic line n ⟨imageBase, some headers⟩ = .ok s ↔
      ∃ before x, Text.IsLeftmost PublicForm.text line before x ∧
        x.place.LiesAt imageBase headers s.address ∧ s.mangled = x.name := by
  refine ⟨?_, fun p => readProcedure_eq_ok_iff_isFirstOn,
    existsUnique_isLeftmost PublicForm.text_injective, fun s => readPublic_eq_ok_iff_isLeftmost⟩
  simp only [isFirstOn_iff]
  exact existsUnique_isLeftmost ProcedureForm.text_injective

end Lines

end Symbol
end Lineage
