import Lineage.Proofs.Record.ReadBack

/-!
# Tables that are read back from their listing

The listing of a table is a `*** TYPES` section: the banner, and then the listings of the records in
order, each with blank lines before it. It is one text, in which every line ends in a line feed.

Reading undoes listing in three steps. The text falls into the lines it was put together from
(`Text.lines_ofLines`). The lines fall into one run for each record (`Style.recordRuns_entries`),
since no line of a record is blank. And each run alone yields its record
(`Style.recordsAlone_run`), which is all there is to reading a section (`ofDump_eq_ok_iff`).

Lines must not have a line feed in them. For fixed texts, numbers and ids this is a computation, and
for names it is what makes them listable; so the second part of the module goes through all kinds of
lines once. The third part does the same for the section as a whole, by induction on the records.

Main result: `ofDump_listing`.
-/

namespace Lineage

/-! ## Lines that stay one line -/

namespace Text

/-- A line that stays as it is when a line feed is put behind it. -/
def IsLine (line : Text) : Prop := '\n' ∉ line ∧ line.getLast? ≠ some '\r'

instance (line : Text) : Decidable (IsLine line) := inferInstanceAs (Decidable (_ ∧ _))

/-- What is put before a line must not break it; how the line ends, it does not change. -/
theorem IsLine.append {a b : Text} (hb : IsLine b) (hne : b ≠ []) (ha : '\n' ∉ a) :
    IsLine (a ++ b) := by
  refine ⟨fun h => (List.mem_append.1 h).elim ha hb.1, ?_⟩
  rw [List.getLast?_append_of_ne_nil a hne]
  exact hb.2

/-- The text of lines, each of which ends in a line feed. -/
def ofLines (lines : List Text) : Text := lines.flatMap fun line => line ++ ['\n']

/-- Text put together from lines falls into the same lines. -/
theorem lines_ofLines {ls : List Text} (h : ∀ l ∈ ls, IsLine l) : lines (ofLines ls) = ls := by
  induction ls with
  | nil => rfl
  | cons l ls ih =>
    obtain ⟨hbreak, hend⟩ := h l List.mem_cons_self
    have cut : ofLines (l :: ls) = l ++ '\n' :: ofLines ls := by
      rw [ofLines, List.flatMap_cons, List.append_assoc]
      rfl
    rw [cut, lines_line_newline hbreak hend, ih fun m hm => h m (List.mem_cons_of_mem l hm)]

end Text

open Text (IsLine)

/-! ## The lines of a record -/

namespace Listing

variable {token leaf : Text} {id : TypeId}

/-- No part of a header has a line feed. -/
theorem isLine_headerLine (ht : Spells token id) (hleaf : IsLine leaf) (hne : leaf ≠ [])
    (length : Nat) : IsLine (headerLine token leaf length) := by
  refine hleaf.append hne ?_
  simp only [List.mem_append, not_or]
  exact ⟨⟨⟨ht.not_mem (by decide), by decide⟩, Text.not_mem_decimal _ (by decide)⟩, by decide⟩

theorem isLine_fieldListLine {flags : Text} (ht : Spells token id) (hflags : '\n' ∉ flags)
    (count : Nat) : IsLine (fieldListLine count token flags) := by
  refine IsLine.append (by decide) (by decide) ?_
  simp only [List.mem_append, not_or]
  exact ⟨⟨⟨⟨by decide, Text.not_mem_decimal _ (by decide)⟩, by decide⟩, ht.not_mem (by decide)⟩,
    hflags⟩

/-- Only names could have a line feed, and those that can be listed have none. -/
theorem isLine_namesLine {display mangled : Text} (hdisplay : '\n' ∉ display)
    (hmangled : '\n' ∉ mangled) (ht : Spells token id) (size : Nat) :
    IsLine (namesLine size display mangled token) := by
  refine IsLine.append (by decide) (by decide) ?_
  simp only [List.mem_append, not_or]
  exact ⟨⟨⟨⟨⟨⟨⟨by decide, Text.not_mem_decimal _ (by decide)⟩, by decide⟩, hdisplay⟩, by decide⟩,
    hmangled⟩, by decide⟩, ht.not_mem (by decide)⟩

theorem newline_not_mem_memberStart (hleaf : '\n' ∉ leaf) (i : Nat) (access : Access) :
    '\n' ∉ memberStart i leaf access :=
  not_mem_memberStart (by decide) ⟨by decide, hleaf, by decide⟩ i access

/-- A line that ends in a fixed text after an id, or after a name. -/
theorem isLine_of_middle {start before value rest : Text} (hstart : '\n' ∉ start)
    (hbefore : '\n' ∉ before) (hvalue : '\n' ∉ value) (hrest : IsLine rest) (hne : rest ≠ []) :
    IsLine (start ++ (before ++ (value ++ rest))) := by
  have tail : IsLine (value ++ rest) := hrest.append hne hvalue
  have tail' := tail.append (List.append_ne_nil_of_right_ne_nil _ hne) hbefore
  exact tail'.append
    (List.append_ne_nil_of_right_ne_nil _ (List.append_ne_nil_of_right_ne_nil _ hne)) hstart

theorem isLine_baseLine (ht : Spells token id) (i : Nat) (access : Access) :
    IsLine (baseLine i access token) :=
  isLine_of_middle (newline_not_mem_memberStart (by decide) i access) (by decide)
    (ht.not_mem (by decide)) (by decide) (by decide)

theorem isLine_virtualBaseLine (ht : Spells token id) (i : Nat) (access : Access) :
    IsLine (virtualBaseLine i access token) :=
  isLine_of_middle (newline_not_mem_memberStart (by decide) i access) (by decide)
    (ht.not_mem (by decide)) (by decide) (by decide)

/-- Only the name could have a line feed. -/
theorem isLine_methodLine {property name : Text} (ht : Spells token id)
    (hproperty : '\n' ∉ property) (hname : '\n' ∉ name) (i : Nat) (access : Access) :
    IsLine (methodLine i access property token name) := by
  rw [methodLine_eq_concat]
  refine IsLine.append (by decide) (by decide) ?_
  simp only [List.mem_append, not_or]
  exact ⟨newline_not_mem_memberStart (by decide) i access, hproperty, by decide,
    ht.not_mem (by decide), by decide, hname⟩

theorem isLine_typesLine {owner this : Text} (ho : Spells owner id) (hthis : '\n' ∉ this) :
    IsLine (typesLine owner this) := by
  refine IsLine.append (by decide) (by decide) ?_
  simp only [List.mem_append, not_or]
  exact ⟨⟨⟨by decide, ho.not_mem (by decide)⟩, by decide⟩, hthis⟩

end Listing

namespace Style

open Listing

variable (style : Style)

/-- There are four leaves. -/
theorem leaf_mem (r : TypeRecord) :
    style.leaf r ∈ [classLeaf, structureLeaf, fieldListLeaf, memberFunctionLeaf] := by
  cases r with
  | classType c =>
    show (if _ then structureLeaf else classLeaf) ∈ _
    split
    next => exact List.mem_cons_of_mem _ List.mem_cons_self
    next => exact List.mem_cons_self
  | fieldList l => exact List.mem_cons_of_mem _ (List.mem_cons_of_mem _ List.mem_cons_self)
  | memberFunction f =>
    exact List.mem_cons_of_mem _ (List.mem_cons_of_mem _ (List.mem_cons_of_mem _
      List.mem_cons_self))

theorem isLine_header (r : TypeRecord) : IsLine (style.header r) := by
  have leaves : ∀ leaf ∈ [classLeaf, structureLeaf, fieldListLeaf, memberFunctionLeaf],
      IsLine leaf ∧ leaf ≠ [] := by decide
  obtain ⟨hleaf, hne⟩ := leaves _ (style.leaf_mem r)
  exact isLine_headerLine (style.spells r.id) hleaf hne _

/-- A member is one line, of whichever kind it is. -/
theorem isLine_memberLine (l : FieldList) (i : Nat) {m : Member} (h : m.Listable) :
    IsLine (style.memberLine l i m) := by
  cases m with
  | base id =>
    show IsLine (if _ then _ else _)
    split
    next => exact isLine_virtualBaseLine (style.spells id) i _
    next => exact isLine_baseLine (style.spells id) i _
  | method name id isStatic =>
    refine isLine_methodLine (style.spells id) ?_ h.1.2.1 i _
    cases isStatic <;> cases style.isVirtual l i <;> decide

/-- Every line of a record that can be listed stays one line. -/
theorem isLine_of_mem_run {r : TypeRecord} (h : r.Listable) {line : Text}
    (hline : line ∈ style.run r) : IsLine line := by
  rcases List.mem_cons.1 hline with rfl | hline
  · exact style.isLine_header r
  cases r with
  | classType c =>
    obtain ⟨hdisplay, _, hmangled, _⟩ := h
    rcases List.mem_cons.1 hline with rfl | hline
    · exact isLine_fieldListLine (style.spells _) (Record.not_mem_flags style (by decide) c) _
    rcases List.mem_append.1 hline with hline | hline
    · unfold derivation at hline
      split at hline
      next =>
        rw [List.mem_singleton.1 hline]
        decide
      next => cases hline
    · rw [List.mem_singleton.1 hline]
      exact isLine_namesLine hdisplay.2.1 hmangled.2.1 (style.spells c.id) _
  | fieldList l =>
    obtain ⟨⟨m, i⟩, hm, rfl⟩ := List.mem_map.1 hline
    exact style.isLine_memberLine l i (h.2 m (List.fst_mem_of_mem_zipIdx hm))
  | memberFunction f =>
    rcases List.mem_cons.1 hline with rfl | hline
    · refine isLine_typesLine (style.spells f.owner) ?_
      cases f.this with
      | none =>
        show '\n' ∉ noType
        decide
      | some id => exact (style.spells id).not_mem (by decide)
    · rw [List.mem_singleton.1 hline]
      decide

/-! ## The lines of a section -/

/-- The lines behind the banner: the records with the blank lines before each, and then further
blank lines. -/
def body (records : List TypeRecord) : List Text :=
  (records.flatMap fun r => List.replicate (style.gap r + 1) [] ++ style.run r)
    ++ List.replicate style.trailing []

/-- The listing of a table as a text. -/
def listing (t : TypeTable) : Text :=
  Text.ofLines (Dump.Section.types.banner :: style.body t.records)

/-- The lines of a section, record by record. -/
theorem body_cons (r : TypeRecord) (records : List TypeRecord) :
    style.body (r :: records) =
      List.replicate (style.gap r + 1) [] ++ (style.run r ++ style.body records) := by
  rw [body, List.flatMap_cons, List.append_assoc, List.append_assoc]
  rfl

/-- Every line of a section is a blank one or belongs to a record. -/
theorem mem_body {records : List TypeRecord} {line : Text} (h : line ∈ style.body records) :
    line = [] ∨ ∃ r ∈ records, line ∈ style.run r := by
  induction records with
  | nil => exact .inl (List.eq_of_mem_replicate h)
  | cons r records ih =>
    rw [body_cons] at h
    rcases List.mem_append.1 h with h | h
    · exact .inl (List.eq_of_mem_replicate h)
    rcases List.mem_append.1 h with h | h
    · exact .inr ⟨r, List.mem_cons_self, h⟩
    · exact (ih h).imp_right fun ⟨s, hs, h⟩ => ⟨s, List.mem_cons_of_mem r hs, h⟩

/-- The text of a listing falls into the banner and the lines of the section. -/
theorem lines_listing {t : TypeTable} (h : ∀ r ∈ t.records, r.Listable) :
    Text.lines (style.listing t) = Dump.Section.types.banner :: style.body t.records := by
  refine Text.lines_ofLines fun line hline => ?_
  rcases List.mem_cons.1 hline with rfl | hline
  · decide
  rcases style.mem_body hline with rfl | ⟨r, hr, hline⟩
  · decide
  · exact style.isLine_of_mem_run (h r hr) hline

/-- The lines of a record are visible, and none of them is a banner. -/
theorem isRun_run (r : TypeRecord) : TypeTable.IsRun (style.run r) := by
  intro line hline
  rcases List.mem_cons.1 hline with rfl | hline
  · obtain ⟨digits, htoken, _⟩ := style.spells r.id
    unfold header Listing.headerLine
    rw [htoken]
    exact ⟨rfl, rfl⟩
  · have indented := style.indented_of_mem_block hline
    exact ⟨indented.allBlank, indented.isBanner⟩

/-- No line of a record is a banner, so the section goes on to the end of the text. -/
theorem body?_listing {t : TypeTable} (h : ∀ r ∈ t.records, r.Listable) :
    (Dump.ofText (style.listing t)).body? .types = some (style.body t.records) := by
  have no_banner : ∀ line ∈ style.body t.records, (!Dump.isBanner line) = true := by
    intro line hline
    rcases style.mem_body hline with rfl | ⟨r, _, hline⟩
    · rfl
    · rw [(style.isRun_run r line hline).2]
      rfl
  rw [Dump.ofText, style.lines_listing h]
  exact congrArg some (List.takeWhile_eq_self_iff.2 no_banner)

/-! ## One run for each record -/

theorem takeWhile_atBreak {lines : List Text} (h : AtBreak lines) :
    (lines.takeWhile fun l => !l.allBlank) = [] := by
  cases lines with
  | nil => rfl
  | cons l lines =>
    rw [List.takeWhile_cons_of_neg]
    rw [h l rfl]
    exact Bool.false_ne_true

/-- Each record comes after a blank line, and so does the end. -/
theorem atBreak_body (records : List TypeRecord) : AtBreak (style.body records) := by
  intro line hline
  cases records with
  | nil =>
    obtain rfl := List.eq_of_mem_replicate (List.mem_of_mem_head? hline)
    rfl
  | cons r records =>
    rw [body_cons, List.replicate_succ] at hline
    cases hline
    rfl

/-- The lines fall into one run for each record: blank lines come before a record and never inside.
-/
theorem recordRuns_body (records : List TypeRecord) :
    recordRuns (style.body records) = records.map style.run := by
  have blanks (k : Nat) (lines : List Text) :
      visibleRuns (List.replicate k [] ++ lines) = visibleRuns lines := by
    induction k with
    | zero => rfl
    | succ k ih =>
      rw [List.replicate_succ, List.cons_append, visibleRuns_cons_of_blank rfl, ih]
  induction records with
  | nil =>
    rw [body, List.flatMap_nil, List.nil_append, List.map_nil]
    cases style.trailing with
    | zero => rfl
    | succ k =>
      rw [List.replicate_succ, recordRuns_cons_of_blank rfl,
        ← List.append_nil (List.replicate k []), blanks]
      rfl
  | cons r records ih =>
    have visible (line : Text) (h : line ∈ style.block r) : line.allBlank = false :=
      (style.indented_of_mem_block h).allBlank
    have up_to_break : (style.block r ++ style.body records).takeWhile (fun l => !l.allBlank) =
        style.block r := by
      rw [List.takeWhile_append_of_pos (fun l hl => by rw [visible l hl]; rfl),
        takeWhile_atBreak (style.atBreak_body records), List.append_nil]
    rw [body_cons, List.replicate_succ, List.cons_append, recordRuns_cons_of_blank rfl, blanks,
      run, List.cons_append, visibleRuns_cons_of_visible, up_to_break,
      recordRuns_append_of_visible visible, ih]
    · rfl
    · exact (style.isRun_run r _ List.mem_cons_self).1

end Style

namespace TypeTable

/-- A run that lists a record alone yields that record. -/
theorem recordsAlone_run (style : Style) {r : TypeRecord} (h : r.Listable) :
    (∃ u, ofDump (alone (style.run r)) = .ok u) ∧ recordsAlone (style.run r) = [r] :=
  recordsAlone_of_run (style.isRun_run r) (Record.run_read_of_listable style h 3)

/-- Reading a listing gives back the table that was listed, whatever the style. -/
theorem ofDump_listing (style : Style) {t : TypeTable} (h : ∀ r ∈ t.records, r.Listable) :
    ofDump (Dump.ofText (style.listing t)) = .ok t := by
  rw [ofDump_eq_ok_iff (style.body?_listing h), style.recordRuns_body]
  refine ⟨fun run hrun => ?_, ?_⟩
  · obtain ⟨r, hr, rfl⟩ := List.mem_map.1 hrun
    exact (recordsAlone_run style (h r hr)).1
  · rw [List.flatMap_map, List.flatMap_congr fun r hr => (recordsAlone_run style (h r hr)).2,
      List.flatMap_singleton']

/-- A table with records of all kinds, among them names that look like other parts of a line. -/
def allKinds : TypeTable where
  records := [
    .memberFunction ⟨⟨0x1001⟩, ⟨0x1003⟩, some ⟨0x1005⟩⟩,
    .memberFunction ⟨⟨0x1004⟩, ⟨0x1003⟩, none⟩,
    .fieldList ⟨⟨0x1002⟩, [
      .base ⟨0x1000⟩,
      .base ⟨0x1006⟩,
      .method "operator,".toList ⟨0x1001⟩ false,
      .method "name = x, index = 0x1".toList ⟨0x1004⟩ true]⟩,
    .classType ⟨⟨0x1000⟩, "Base".toList, ".?AVBase@@".toList, none, true⟩,
    .classType ⟨⟨0x1003⟩, "Map<A, class name = >".toList, ".?AVMap@@".toList, some ⟨0x1002⟩, false⟩]
  nodup := by decide

/-- Its listing is read back. -/
theorem ofDump_listing_allKinds :
    (∀ r ∈ allKinds.records, r.Listable) ∧
      ofDump (Dump.ofText (Style.plain.listing allKinds)) = .ok allKinds := by
  have listable : ∀ r ∈ allKinds.records, r.Listable := by decide
  exact ⟨listable, ofDump_listing Style.plain listable⟩

end TypeTable
end Lineage
