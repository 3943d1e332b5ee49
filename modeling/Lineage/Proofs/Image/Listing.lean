import Lineage.Image.HeaderReader
import Lineage.Proofs.Text.Clear
import Lineage.Proofs.Text.Hexadecimal
import Lineage.Proofs.TypeTable.Runs

/-!
# Section headers that are read back

A `HeaderEntry` is a section header with the lines that list it: the line that opens it, and then
one line each for name, size and address in any order, with remarks between them. The lines are
indented, the figures are spelled in hexadecimal in any way that is read, and the name may be empty.

While the lines of an entry are read, the draft is a function of what has been said so far
(`draftOf`). This is the invariant of the loop: a line that says something adds it
(`read_of_tells`), a remark changes nothing. When the next header is opened, or the section ends,
the draft is finished, and the reading goes on as if it began there (`readHeaders_pending`). So
nothing of one header can leak into the next one, and the last one is not lost.

Main result: `reads_back_listing`.
-/

namespace Lineage

namespace Text

variable {s : Text}

/-- Text that has nothing to trim does not start with white space. -/
theorem stops_of_trim (h : s.trim = s) : Stops isBlank s := by
  intro c hc
  obtain ⟨t, rfl⟩ := List.head?_eq_some_iff.1 hc
  by_contra hblank
  rw [Bool.not_eq_false] at hblank
  have shorter : trim (c :: t) = trim t := by
    rw [trim, ← List.singleton_append,
      trimStart_append_of_allBlank (by simp [allBlank, hblank]), trim]
  have hlength := (trim_isInfix t).length_le
  rw [← shorter, h, List.length_cons] at hlength
  omega

/-- A text that ends in one phrase does not end in another, unless one of them ends in the other. -/
theorem not_suffix_append {a b : Text} (hab : ¬ a <:+ b) (hba : ¬ b <:+ a) (s : Text) :
    ¬ a <:+ s ++ b := fun h =>
  (List.suffix_or_suffix_of_suffix h (List.suffix_append s b)).elim hab hba

end Text

namespace Image

open Text (IsHexNumeral Stops)

/-! ## Lines of a header -/

/-- The line is the content with white space before it. -/
def IsIndented (line content : Text) : Prop :=
  ∃ indent, indent ≠ [] ∧ Text.allBlank indent = true ∧ line = indent ++ content

/-- The line gives a number before its ending. -/
def IsFigure (line ending : Text) (figure : UInt64) : Prop :=
  ∃ token, IsHexNumeral token figure.toNat ∧ IsIndented line (token ++ ending)

/-- The line stands in the list of headers and says nothing about any. -/
structure IsRemark (line : Text) : Prop where
  not_banner : Dump.isBanner line = false
  not_intro : ¬ headerIntro <+: line.trim
  not_name : ¬ nameEnding <:+ line.trim
  not_size : ¬ sizeEnding <:+ line.trim
  not_address : ¬ addressEnding <:+ line.trim

/-- The name can stand on a line of its own. -/
structure IsPlainName (name : Text) : Prop where
  trimmed : name.trim = name
  not_intro : ¬ headerIntro <+: name

/-- What can be said about a header. -/
inductive HeaderField where
  | name
  | size
  | address
deriving DecidableEq

/-- The line says this about the header, or it is a remark. -/
def Tells (header : SectionHeader) : Option HeaderField → Text → Prop
  | some .name, line => IsIndented line (header.name ++ nameEnding)
  | some .size, line => IsFigure line sizeEnding header.size
  | some .address, line => IsFigure line addressEnding header.address
  | none, line => IsRemark line

section Lines

variable {header : SectionHeader} {line content token ending name : Text} {figure : UInt64}

theorem IsIndented.not_banner (h : IsIndented line content) : Dump.isBanner line = false := by
  obtain ⟨indent, hne, hblank, rfl⟩ := h
  obtain ⟨c, indent, rfl⟩ := List.exists_cons_of_ne_nil hne
  have hc : Text.isBlank c = true := List.all_eq_true.1 hblank c List.mem_cons_self
  rw [Dump.isBanner, ← Bool.not_eq_true, List.isPrefixOf_iff_prefix]
  intro hprefix
  have star : '*' = c := (List.cons_prefix_cons.1 hprefix).1
  rw [← star] at hc
  exact absurd hc (by decide)

theorem IsIndented.trim_eq {d : Char} (h : IsIndented line content)
    (hstart : Stops Text.isBlank content) (hend : content.getLast? = some d)
    (hd : Text.isBlank d = false) : line.trim = content := by
  obtain ⟨indent, _, hblank, rfl⟩ := h
  cases content with
  | nil => cases hend
  | cons c content => exact Text.trim_after hblank rfl (hstart c rfl) hend hd

/-- A line with a figure, trimmed. -/
theorem IsFigure.trim_eq {d : Char} (h : IsFigure line ending figure)
    (hend : ending.getLast? = some d) (hd : Text.isBlank d = false) :
    ∃ token, IsHexNumeral token figure.toNat ∧ line.trim = token ++ ending := by
  obtain ⟨token, htoken, hline⟩ := h
  refine ⟨token, htoken, hline.trim_eq ?_ ?_ hd⟩
  · obtain ⟨c, t, rfl⟩ := List.exists_cons_of_ne_nil htoken.ne_nil
    exact Text.stops_cons (htoken.isBlank c List.mem_cons_self)
  · rw [List.getLast?_append, hend]
    rfl

/-- The number of a figure is the token before the white space. -/
theorem leadingNumber_append (htoken : IsHexNumeral token figure.toNat)
    (hending : Stops (fun c => !Text.isBlank c) ending) (n : Nat) :
    HeaderDraft.leadingNumber (token ++ ending) ending n = .ok figure := by
  have start : Text.trimStart (token ++ ending) = token ++ ending := by
    obtain ⟨c, t, rfl⟩ := List.exists_cons_of_ne_nil htoken.ne_nil
    exact Text.trimStart_cons_of_not_blank (htoken.isBlank c List.mem_cons_self) _
  have leading : (token ++ ending).takeWhile (fun c => !Text.isBlank c) = token :=
    Text.takeWhile_run (fun c hc => by rw [htoken.isBlank c hc]; rfl) hending
  have read : word? token = some figure := by
    rw [word?_eq_some_iff, Text.trim_eq_self_of_visible htoken.isBlank]
    exact htoken
  rw [HeaderDraft.leadingNumber, start, leading, read]

/-- The trimmed line of a name. -/
theorem trim_nameLine (hname : IsPlainName header.name) (hne : header.name ≠ [])
    (h : IsIndented line (header.name ++ nameEnding)) : line.trim = header.name ++ nameEnding := by
  refine h.trim_eq ((Text.stops_of_trim hname.trimmed).append hne) (d := 'e') ?_ (by decide)
  rw [List.getLast?_append]
  rfl

/-- Without a name only the word is left of its line. -/
theorem trim_nameLine_of_nil (h : IsIndented line nameEnding) : line.trim = "name".toList := by
  obtain ⟨indent, _, hblank, rfl⟩ := h
  -- The space that the ending begins with is trimmed like those before it.
  have wider : Text.allBlank (indent ++ [' ']) = true := by
    rw [Text.allBlank, List.all_append, Bool.and_eq_true]
    exact ⟨hblank, by decide⟩
  have word := Text.trim_after wider (s := "name".toList) rfl (by decide) rfl (by decide)
  rwa [List.append_assoc] at word

/-- A numeral does not begin as the phrase that opens a header does. -/
theorem not_intro_append (htoken : IsHexNumeral token figure.toNat) :
    ¬ headerIntro <+: token ++ ending := by
  intro hprefix
  have missing : 'S' ∉ token := htoken.not_mem (by decide) (by decide) (by decide)
  obtain ⟨c, t, rfl⟩ := List.exists_cons_of_ne_nil htoken.ne_nil
  have same : 'S' = c := (List.cons_prefix_cons.1 hprefix).1
  exact missing (same ▸ List.mem_cons_self)

/-- Nor does a name when its ending is added. -/
theorem IsPlainName.not_intro_append (h : IsPlainName name) :
    ¬ headerIntro <+: name ++ nameEnding := by
  intro hprefix
  -- The phrase has spaces in it, so it is the letter behind the space that stops it.
  have split : name ++ nameEnding = (name ++ [' ']) ++ 'n' :: "ame".toList := by
    rw [List.append_assoc]
    rfl
  rw [split] at hprefix
  have within := Text.isPrefix_of_break (by decide) hprefix
  rcases List.prefix_concat_iff.1 within with hwhole | hname
  · exact absurd (congrArg List.getLast? hwhole) (by rw [List.getLast?_concat]; decide)
  · exact h.not_intro hname

/-- No line of a header is a banner. -/
theorem Tells.not_banner {field : Option HeaderField} (h : Tells header field line) :
    Dump.isBanner line = false := by
  rcases field with _ | field
  · exact IsRemark.not_banner h
  cases field with
  | name => exact IsIndented.not_banner h
  | size => exact h.elim fun _ h => h.2.not_banner
  | address => exact h.elim fun _ h => h.2.not_banner

/-- No line of a header opens one. -/
theorem Tells.not_intro {field : Option HeaderField} (hname : IsPlainName header.name)
    (h : Tells header field line) : headerIntro.isPrefixOf? line.trim = none := by
  apply Text.isPrefixOf?_eq_none
  rcases field with _ | field
  · exact IsRemark.not_intro h
  cases field with
  | name =>
    by_cases hne : header.name = []
    · rw [Tells, hne] at h
      rw [trim_nameLine_of_nil h]
      decide
    · rw [trim_nameLine hname hne h]
      exact hname.not_intro_append
  | size =>
    obtain ⟨token, htoken, htrim⟩ := IsFigure.trim_eq h (d := 'e') rfl (by decide)
    rw [htrim]
    exact Image.not_intro_append htoken
  | address =>
    obtain ⟨token, htoken, htrim⟩ := IsFigure.trim_eq h (d := 's') rfl (by decide)
    rw [htrim]
    exact Image.not_intro_append htoken

end Lines

/-! ## What a line adds to the draft -/

/-- The draft of a header of which some things have been said. -/
def draftOf (header : SectionHeader) (lineNumber : Nat) (said : List HeaderField) :
    HeaderDraft where
  number := header.number
  lineNumber := lineNumber
  -- An empty name is no name: its line does not end like one.
  name := if .name ∈ said ∧ header.name ≠ [] then some header.name else none
  size := if .size ∈ said then some header.size else none
  address := if .address ∈ said then some header.address else none

namespace HeaderDraft

variable {draft : HeaderDraft} {line name : Text} {figure : UInt64} {n : Nat}

theorem read_address (h : addressEnding <:+ line)
    (hfigure : leadingNumber line addressEnding n = .ok figure) :
    draft.read line n = .ok { draft with address := some figure } := by
  rw [read, if_pos (List.isSuffixOf_iff_suffix.2 h), hfigure]
  rfl

theorem read_size (haddress : ¬ addressEnding <:+ line) (h : sizeEnding <:+ line)
    (hfigure : leadingNumber line sizeEnding n = .ok figure) :
    draft.read line n = .ok { draft with size := some figure } := by
  rw [read, if_neg (List.isSuffixOf_iff_suffix.not.2 haddress),
    if_pos (List.isSuffixOf_iff_suffix.2 h), hfigure]
  rfl

/-- A line that has none of the endings is passed over. -/
theorem read_other (haddress : ¬ addressEnding <:+ line) (hsize : ¬ sizeEnding <:+ line)
    (hname : ¬ nameEnding <:+ line) : draft.read line n = .ok draft := by
  have ending : nameEnding.isSuffixOf? line = none := by
    cases h : nameEnding.isSuffixOf? line with
    | none => rfl
    | some s => exact absurd ⟨s, List.isSuffixOf?_eq_some_iff_append_eq.1 h⟩ hname
  rw [read, if_neg (List.isSuffixOf_iff_suffix.not.2 haddress),
    if_neg (List.isSuffixOf_iff_suffix.not.2 hsize), ending]
  cases draft.name <;> rfl

/-- The line of a name is read if there is no name yet. -/
theorem read_name (hname : name.trim = name) :
    draft.read (name ++ nameEnding) n = .ok { draft with name := some (draft.name.getD name) } := by
  have ending : nameEnding.isSuffixOf? (name ++ nameEnding) = some name :=
    List.isSuffixOf?_eq_some_iff_append_eq.2 rfl
  rw [read, if_neg (List.isSuffixOf_iff_suffix.not.2
      (Text.not_suffix_append (by decide) (by decide) name)),
    if_neg (List.isSuffixOf_iff_suffix.not.2
      (Text.not_suffix_append (by decide) (by decide) name)), ending]
  obtain ⟨number, lineNumber, known, size, address⟩ := draft
  cases known with
  | none => exact congrArg (fun s => Except.ok (HeaderDraft.mk _ _ (some s) _ _)) hname
  | some known => rfl

end HeaderDraft

section Reading

variable {header : SectionHeader} {draft : HeaderDraft} {line number : Text} {rest : List Text}
  {said : List HeaderField} {k n : Nat}

theorem readHeaders_of_open (h : headerIntro.isPrefixOf? line.trim = some number) :
    readHeaders none n (line :: rest) =
      openHeader number line (n + 1) >>= fun next => readHeaders (some next) (n + 1) rest := by
  simp only [readHeaders, h]

theorem readHeaders_of_within (h : headerIntro.isPrefixOf? line.trim = none) :
    readHeaders (some draft) n (line :: rest) =
      draft.read line.trim (n + 1) >>= fun next => readHeaders (some next) (n + 1) rest := by
  simp only [readHeaders, h]

/-- Lines before the first header are passed over. -/
theorem readHeaders_of_before {lead : List Text}
    (h : ∀ line ∈ lead, headerIntro.isPrefixOf? line.trim = none) (rest : List Text) :
    readHeaders none n (lead ++ rest) = readHeaders none (n + lead.length) rest := by
  induction lead generalizing n with
  | nil => rfl
  | cons line lead ih =>
    obtain ⟨hline, hlead⟩ := List.forall_mem_cons.1 h
    rw [List.cons_append, List.length_cons, Nat.add_comm lead.length, ← Nat.add_assoc, ← ih hlead]
    simp only [readHeaders, hline]

/-- Before what opens a header, or at the end, the draft is finished, and the reading goes on as if
it began here. -/
theorem readHeaders_pending
    (h : ∀ line ∈ rest.head?, (headerIntro.isPrefixOf? line.trim).isSome = true) :
    readHeaders (some draft) n rest = do
      let header ← draft.finish
      return header :: (← readHeaders none n rest) := by
  cases rest with
  | nil => rfl
  | cons line rest =>
    obtain ⟨number, hnumber⟩ := Option.isSome_iff_exists.1 (h line rfl)
    simp only [readHeaders, hnumber, bind_assoc]

/-- One line adds what it says. -/
theorem read_of_tells {field : Option HeaderField} (hname : IsPlainName header.name)
    (h : Tells header field line) :
    (draftOf header k said).read line.trim n =
      .ok (draftOf header k (said ++ field.toList)) := by
  rcases field with _ | field
  · rw [Option.toList_none, List.append_nil]
    exact HeaderDraft.read_other (IsRemark.not_address h) (IsRemark.not_size h)
      (IsRemark.not_name h)
  cases field with
  | name =>
    by_cases hne : header.name = []
    · rw [Tells, hne] at h
      rw [trim_nameLine_of_nil h, HeaderDraft.read_other (by decide) (by decide) (by decide)]
      simp [draftOf, hne]
    · rw [trim_nameLine hname hne h, HeaderDraft.read_name hname.trimmed]
      by_cases hsaid : .name ∈ said <;> simp [draftOf, hne, hsaid]
  | size =>
    obtain ⟨token, htoken, htrim⟩ := IsFigure.trim_eq h (d := 'e') rfl (by decide)
    rw [htrim, HeaderDraft.read_size (Text.not_suffix_append (by decide) (by decide) token)
      (List.suffix_append _ _) (leadingNumber_append htoken (Text.stops_cons (by decide)) n)]
    simp [draftOf]
  | address =>
    obtain ⟨token, htoken, htrim⟩ := IsFigure.trim_eq h (d := 's') rfl (by decide)
    rw [htrim, HeaderDraft.read_address (List.suffix_append _ _)
      (leadingNumber_append htoken (Text.stops_cons (by decide)) n)]
    simp [draftOf]

/-- All lines of a header add what they say. -/
theorem readHeaders_of_tells (hname : IsPlainName header.name)
    {body : List (Option HeaderField × Text)} (h : ∀ p ∈ body, Tells header p.1 p.2)
    (rest : List Text) :
    readHeaders (some (draftOf header k said)) n (body.map Prod.snd ++ rest) =
      readHeaders (some (draftOf header k (said ++ body.filterMap Prod.fst))) (n + body.length)
        rest := by
  induction body generalizing said n with
  | nil => rw [List.filterMap_nil, List.append_nil]; rfl
  | cons p body ih =>
    obtain ⟨hp, hbody⟩ := List.forall_mem_cons.1 h
    have fields : (p :: body).filterMap Prod.fst = p.1.toList ++ body.filterMap Prod.fst := by
      rw [List.filterMap_cons]
      cases p.1 <;> rfl
    rw [List.map_cons, List.cons_append, readHeaders_of_within (hp.not_intro hname),
      read_of_tells hname hp, fields, ← List.append_assoc, List.length_cons,
      Nat.add_comm body.length, ← Nat.add_assoc, ← ih hbody]
    rfl

end Reading

/-! ## Listings -/

/-- A header and the lines that list it. -/
structure HeaderEntry where
  header : SectionHeader
  /-- Whether a line gives the address. -/
  located : Bool
  /-- The lines after the one that opens the header, with what each of them says. -/
  body : List (Option HeaderField × Text)
  plain : IsPlainName header.name
  tells : ∀ p ∈ body, Tells header p.1 p.2
  once : (body.filterMap Prod.fst).Perm (.name :: .size :: if located then [.address] else [])

namespace HeaderEntry

variable {e : HeaderEntry} {entries : List HeaderEntry} {rest : List Text} {k n : Nat}

/-- The line that opens the header. -/
def opening (e : HeaderEntry) : Text := headerIntro ++ Text.decimal e.header.number.toNat

/-- The lines of the entry. -/
def lines (e : HeaderEntry) : List Text := e.opening :: e.body.map Prod.snd

/-- What is wrong with an entry without an address. -/
def unlocated (e : HeaderEntry) (lineNumber : Nat) : Fault :=
  .expecting addressEnding.trim lineNumber e.opening

/-- The draft when all lines are read. -/
def draft (e : HeaderEntry) (lineNumber : Nat) : HeaderDraft :=
  draftOf e.header lineNumber (e.body.filterMap Prod.fst)

theorem trim_opening (e : HeaderEntry) : e.opening.trim = e.opening := by
  have some_digit : Text.decimal e.header.number.toNat ≠ [] := by simp [Text.decimal]
  have hend : e.opening.getLast? = some (List.getLast _ some_digit) := by
    rw [opening, List.getLast?_append, List.getLast?_eq_some_getLast some_digit]
    rfl
  exact Text.trim_after (a := []) rfl rfl (by decide) hend
    (Text.isBlank_of_mem_decimal (List.getLast_mem some_digit))

/-- The opening line opens a draft of which nothing has been said. -/
theorem openHeader_opening (e : HeaderEntry) (k : Nat) :
    openHeader (Text.decimal e.header.number.toNat) e.opening k = .ok (draftOf e.header k []) := by
  have visible : (Text.decimal e.header.number.toNat).trim = Text.decimal e.header.number.toNat :=
    Text.trim_eq_self_of_visible fun c => Text.isBlank_of_mem_decimal
  rw [openHeader, visible, Text.decimal?_decimal]
  simp only [e.header.number.toNat_lt_size, if_true, UInt16.ofNat_toNat]
  simp [draftOf]

theorem isPrefixOf?_opening (e : HeaderEntry) :
    headerIntro.isPrefixOf? e.opening.trim = some (Text.decimal e.header.number.toNat) := by
  rw [trim_opening, opening, Text.isPrefixOf?_append]

theorem finish_draft (h : e.located = true) : (e.draft k).finish = .ok e.header := by
  have told := fun field => e.once.mem_iff (a := field)
  simp only [h, if_true] at told
  have hname : (if e.header.name ≠ [] then some e.header.name else none).getD [] =
      e.header.name := by
    split
    next => rfl
    next hnil => exact (not_not.1 hnil).symm
  simp only [HeaderDraft.finish, draft, draftOf, told, List.mem_cons, true_or, or_true, true_and,
    if_true, hname, Option.getD_some]

theorem finish_draft_of_unlocated (h : e.located = false) :
    (e.draft k).finish = .error (e.unlocated k) := by
  have told := fun field => e.once.mem_iff (a := field)
  simp only [h] at told
  simp [HeaderDraft.finish, draft, draftOf, told, unlocated, opening]

/-- No line of an entry is a banner. -/
theorem not_banner (e : HeaderEntry) : ∀ line ∈ e.lines, Dump.isBanner line = false := by
  intro line hline
  rcases List.mem_cons.1 hline with rfl | hline
  · rfl
  · obtain ⟨p, hp, rfl⟩ := List.mem_map.1 hline
    exact (e.tells p hp).not_banner

/-- Entries begin with what opens a header, if there are any. -/
theorem isSome_of_mem_head? (entries : List HeaderEntry) :
    ∀ line ∈ (entries.flatMap lines).head?,
      (headerIntro.isPrefixOf? line.trim).isSome = true := by
  intro line hline
  cases entries with
  | nil => cases hline
  | cons e entries =>
    obtain rfl := Option.some.inj hline
    rw [isPrefixOf?_opening]
    rfl

/-- An entry is read, and then what follows it. -/
theorem readHeaders_lines (e : HeaderEntry)
    (h : ∀ line ∈ rest.head?, (headerIntro.isPrefixOf? line.trim).isSome = true) :
    readHeaders none n (e.lines ++ rest) = do
      let header ← (e.draft (n + 1)).finish
      return header :: (← readHeaders none (n + e.lines.length) rest) := by
  have body : readHeaders (some (draftOf e.header (n + 1) [])) (n + 1)
      (e.body.map Prod.snd ++ rest) =
      readHeaders (some (e.draft (n + 1))) (n + 1 + e.body.length) rest :=
    readHeaders_of_tells e.plain e.tells rest
  rw [lines, List.cons_append, readHeaders_of_open e.isPrefixOf?_opening, openHeader_opening,
    List.length_cons, List.length_map, Nat.add_comm e.body.length, ← Nat.add_assoc,
    ← readHeaders_pending h]
  exact body

/-- Entries with an address are read in order, and then what follows them. -/
theorem readHeaders_append {complete : List HeaderEntry} (h : ∀ e ∈ complete, e.located = true)
    (later : List HeaderEntry) :
    readHeaders none n ((complete ++ later).flatMap lines) =
      (complete.map header ++ ·) <$>
        readHeaders none (n + (complete.flatMap lines).length) (later.flatMap lines) := by
  induction complete generalizing n with
  | nil => exact (id_map _).symm
  | cons e complete ih =>
    obtain ⟨he, hcomplete⟩ := List.forall_mem_cons.1 h
    rw [List.cons_append, List.flatMap_cons, readHeaders_lines e (isSome_of_mem_head? _),
      finish_draft he, ih hcomplete, List.flatMap_cons, List.length_append, ← Nat.add_assoc]
    cases readHeaders none (n + e.lines.length + (complete.flatMap lines).length)
      (later.flatMap lines) <;> rfl

/-- The reading stops at an entry without an address. -/
theorem readHeaders_cons_of_unlocated (h : e.located = false) :
    readHeaders none n ((e :: entries).flatMap lines) = .error (e.unlocated (n + 1)) := by
  rw [List.flatMap_cons, readHeaders_lines e (isSome_of_mem_head? _),
    finish_draft_of_unlocated h]
  rfl

end HeaderEntry

/-- Headers that are listed are read back in order, wherever the section stands in a dump, and with
remarks before the first of them. If there are some without an address, the first one is reported,
with the number of the line that opens it. -/
theorem reads_back_listing (d : Dump) (before lead after : List Text) (banner : Text)
    (entries : List HeaderEntry)
    (hlines : d.lines = before ++ banner :: (lead ++ entries.flatMap HeaderEntry.lines ++ after))
    (hbefore : ∀ l ∈ before, ¬ Dump.Section.sectionHeaders.banner <+: l)
    (hbanner : Dump.Section.sectionHeaders.banner <+: banner)
    (hlead : ∀ l ∈ lead, IsRemark l)
    (hafter : ∀ l ∈ after.head?, Dump.isBanner l = true) :
    ((∀ e ∈ entries, e.located = true) → headersOf d = .ok (entries.map HeaderEntry.header)) ∧
      ∀ complete e later, entries = complete ++ e :: later →
        (∀ e ∈ complete, e.located = true) → e.located = false →
        headersOf d = .error (e.unlocated
          ((before ++ banner :: (lead ++ complete.flatMap HeaderEntry.lines)).length + 1)) := by
  have enter : d.enter .sectionHeaders =
      .ok ⟨before.length + 1, lead ++ entries.flatMap HeaderEntry.lines⟩ := by
    refine Dump.enter_of_lines hlines hbefore hbanner (fun l hl => ?_) hafter
    rcases List.mem_append.1 hl with hl | hl
    · exact (hlead l hl).not_banner
    · obtain ⟨e, _, hl⟩ := List.mem_flatMap.1 hl
      exact e.not_banner l hl
  have start : headersOf d =
      readHeaders none (before.length + 1 + lead.length) (entries.flatMap HeaderEntry.lines) := by
    rw [headersOf_eq, enter]
    exact readHeaders_of_before (fun l hl => Text.isPrefixOf?_eq_none (hlead l hl).not_intro) _
  refine ⟨fun hlocated => ?_, ?_⟩
  · have whole := HeaderEntry.readHeaders_append (n := before.length + 1 + lead.length) hlocated []
    rw [List.append_nil] at whole
    rw [start, whole]
    exact congrArg Except.ok (List.append_nil _)
  · rintro complete e later rfl hlocated he
    rw [start, HeaderEntry.readHeaders_append hlocated,
      HeaderEntry.readHeaders_cons_of_unlocated he]
    have position : before.length + 1 + lead.length +
        (complete.flatMap HeaderEntry.lines).length =
          (before ++ banner :: (lead ++ complete.flatMap HeaderEntry.lines)).length := by
      simp only [List.length_append, List.length_cons]
      omega
    rw [position]
    rfl

/-- A header listed with a remark, the size first, and with or without the address. -/
def textEntry (located : Bool) : HeaderEntry where
  header := ⟨1, ".text".toList, 0x1e3a4, 0x1000⟩
  located
  body := (some .size, "   1E3A4 virtual size".toList) :: (none, "60000020 flags".toList) ::
    (some .name, "   .text name".toList) ::
      if located then [(some .address, "    1000 virtual address".toList)] else []
  plain := ⟨by decide, by decide⟩
  tells := by
    have figure {token : Text} {n : UInt64} (h : word? token = some n)
        (htrim : token.trim = token) : IsHexNumeral token n.toNat := htrim ▸ word?_eq_some_iff.1 h
    have hsize : IsFigure "   1E3A4 virtual size".toList sizeEnding 0x1e3a4 :=
      ⟨"1E3A4".toList, figure (by decide) (by decide), "   ".toList, by decide, by decide, rfl⟩
    have haddress : IsFigure "    1000 virtual address".toList addressEnding 0x1000 :=
      ⟨"1000".toList, figure (by decide) (by decide), "    ".toList, by decide, by decide, rfl⟩
    have hname : IsIndented "   .text name".toList (".text".toList ++ nameEnding) :=
      ⟨"   ".toList, by decide, by decide, rfl⟩
    have hremark : IsRemark "60000020 flags".toList :=
      ⟨by decide, by decide, by decide, by decide, by decide⟩
    refine List.forall_mem_cons.2 ⟨hsize, List.forall_mem_cons.2 ⟨hremark,
      List.forall_mem_cons.2 ⟨hname, ?_⟩⟩⟩
    cases located with
    | false => exact List.forall_mem_nil _
    | true => exact List.forall_mem_singleton.2 haddress
  once := by cases located <;> decide

theorem reads_back_text_section :
    headersOf ⟨["*** SECTION HEADERS".toList, [], "SECTION HEADER #1".toList,
        "   1E3A4 virtual size".toList, "60000020 flags".toList, "   .text name".toList,
        "    1000 virtual address".toList, "*** FPO".toList]⟩ =
      .ok [⟨1, ".text".toList, 0x1e3a4, 0x1000⟩] ∧
    headersOf ⟨["*** SECTION HEADERS".toList, [], "SECTION HEADER #1".toList,
        "   1E3A4 virtual size".toList, "60000020 flags".toList, "   .text name".toList,
        "    1000 virtual address".toList, "SECTION HEADER #1".toList,
        "   1E3A4 virtual size".toList, "60000020 flags".toList, "   .text name".toList]⟩ =
      .error (.unexpected "virtual address".toList 8 "SECTION HEADER #1".toList) := by
  have remarks : ∀ l ∈ [([] : Text)], IsRemark l :=
    List.forall_mem_singleton.2 ⟨by decide, by decide, by decide, by decide, by decide⟩
  refine ⟨?_, ?_⟩
  · exact (reads_back_listing _ [] [[]] ["*** FPO".toList] _ [textEntry true] rfl
      (List.forall_mem_nil _) List.prefix_rfl remarks (by decide)).1 (by decide)
  · exact (reads_back_listing _ [] [[]] [] _ [textEntry true, textEntry false] rfl
      (List.forall_mem_nil _) List.prefix_rfl remarks (by decide)).2 [textEntry true]
      (textEntry false) [] rfl (by decide) rfl

end Image
end Lineage
