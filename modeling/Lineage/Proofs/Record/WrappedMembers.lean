import Lineage.Proofs.Record.ReadBack
import Mathlib.Data.List.Forall2

/-!
# Members of a field list on several lines

The dumper breaks the long line of a method after a comma, at any number of places, and indents what
follows. The space after the comma is lost in the break, or left at the end of the line. The reader
puts one space back for each break, so what it joins is the line as it was (`joinFrom_laidOut`).

From a field list one member after the other is read. Each of them is the same on one line and on
several, and behind it the same lines are left. So the whole list is the same, and the reader stops
behind the last line of the record.

What a break leaves behind is a line that ends in a comma, and only such lines are joined. A line of
a member that is on one line must not look like that (`Complete`); the induction is on the pieces of
a line, and what is left of a complete line after a piece is complete again (`Complete.behind`).

Readers of one member are compared by where they stop and what they answer (`StopsAt`), and this is
closed under going on. The loop over the members is an induction on the lines of the list, each with
its own pieces.

Main result: `readFieldList_rewrapped`.
-/

namespace Lineage.Record

variable {line rest s p pad indent piece first : Text} {pieces more block tail : List Text}

/-! ## Lines that are broken -/

/-- The line goes on in the pieces. Each break stands after a comma that a space and a visible
character follow. White space may stand before the break in place of that space, and some stands
after it. -/
inductive LaidOut : Text → List Text → Prop
  | whole (line : Text) : LaidOut line [line]
  | broken {s rest pad indent piece : Text} {pieces : List Text} {c : Char}
      (hpad : pad.allBlank = true) (hindent : indent.allBlank = true) (hne : indent ≠ [])
      (hstart : rest.head? = some c) (hc : Text.isBlank c = false)
      (hrest : LaidOut rest (piece :: pieces)) :
      LaidOut (s ++ (", ".toList ++ rest)) ((s ++ ',' :: pad) :: (indent ++ piece) :: pieces)

/-- The line ends in a visible character other than a comma. -/
def Complete (line : Text) : Prop :=
  ∃ c, line.getLast? = some c ∧ c ≠ ',' ∧ Text.isBlank c = false

/-- A line of a field list. A method stands on it as a whole. -/
structure MemberLine (line : Text) : Prop where
  visible : line.allBlank = false
  inside : Dump.isBanner line = false
  complete : line.mentions methodTag = true → Complete line

/-- The line as it is, or the pieces of a method that is broken behind its tag. -/
def Rewrapped (line : Text) (pieces : List Text) : Prop :=
  pieces = [line] ∨ ∃ first more, pieces = first :: more ∧ LaidOut line (first :: more) ∧
    first.mentions methodTag = true

theorem Complete.endsInComma (h : Complete line) : Field.endsInComma line = false := by
  obtain ⟨c, hlast, hcomma, hc⟩ := h
  obtain ⟨t, rfl⟩ := List.getLast?_eq_some_iff.1 hlast
  rw [Field.endsInComma, Text.trimEnd_concat_of_not_blank hc, ← Bool.not_eq_true,
    List.isSuffixOf_iff_suffix]
  rintro ⟨front, hfront⟩
  exact hcomma (List.singleton_inj.1 (List.append_inj_right' hfront rfl)).symm

theorem endsInComma_comma (s : Text) : Field.endsInComma (s ++ [',']) = true := by
  rw [Field.endsInComma, Text.trimEnd_concat_of_not_blank (by decide),
    List.isSuffixOf_iff_suffix]
  exact List.suffix_append s [',']

/-- What stands behind a break ends like the line. -/
theorem Complete.behind (h : Complete (s ++ (", ".toList ++ rest))) {d : Char}
    (hstart : rest.head? = some d) : Complete rest := by
  obtain ⟨c, hlast, hc⟩ := h
  have hne : rest ≠ [] := by
    rintro rfl
    cases hstart
  refine ⟨c, ?_, hc⟩
  rwa [← List.append_assoc, List.getLast?_append_of_ne_nil _ hne] at hlast

theorem Complete.append (h : Complete rest) (s : Text) : Complete (s ++ rest) := by
  obtain ⟨c, hlast, hc⟩ := h
  obtain ⟨t, rfl⟩ := List.getLast?_eq_some_iff.1 hlast
  exact ⟨c, by rw [← List.append_assoc, List.getLast?_concat], hc⟩

/-! ## Joining -/

/-- A piece is put behind a comma. -/
theorem joinFrom_comma {next trimmed : Text} (htrim : next.trim = trimmed)
    (hvisible : next.allBlank = false) (p : Text) (n : Nat) (lines : List Text) :
    joinFrom (p ++ [',']) n (next :: lines) =
      joinFrom (p ++ (", ".toList ++ trimmed)) (n + 1) lines := by
  rw [joinFrom, if_pos (endsInComma_comma p), if_neg (ne_true_of_eq_false hvisible), htrim,
    List.append_assoc]
  rfl

/-- Pieces that are read behind a comma are put together to the line that was broken. -/
theorem joinFrom_laidOut (h : LaidOut rest (piece :: pieces)) (hcomplete : Complete rest) {c : Char}
    (hstart : rest.head? = some c) (hc : Text.isBlank c = false) (hindent : indent.allBlank = true)
    (p : Text) (n : Nat) (tail : List Text) :
    joinFrom (p ++ [',']) n ((indent ++ piece) :: pieces ++ tail) =
      (.ok (p ++ (", ".toList ++ rest)), ⟨n + 1 + pieces.length, tail⟩) := by
  generalize hall : piece :: pieces = all at h
  induction h generalizing piece pieces c indent p n with
  | whole line =>
    obtain ⟨rfl, rfl⟩ := List.cons.inj hall
    obtain ⟨d, hlast, _, hd⟩ := id hcomplete
    have trimmed : (indent ++ piece).trim = piece := by
      have := Text.trim_between (b := []) hindent rfl hstart hc hlast hd
      rwa [List.append_nil] at this
    have visible : (indent ++ piece).allBlank = false :=
      Text.allBlank_eq_false (List.mem_append_right _ (List.mem_of_head? hstart)) hc
    have whole : Complete (p ++ (", ".toList ++ piece)) := (hcomplete.append _).append _
    rw [List.cons_append, List.nil_append, joinFrom_comma trimmed visible,
      joinFrom_of_complete whole.endsInComma]
    rfl
  | @broken s rest pad indent' piece' pieces' d hpad hindent' _ hstart' hd _ ih =>
    obtain ⟨rfl, rfl⟩ := List.cons.inj hall
    have start : (s ++ [',']).head? = some c := by
      cases s with
      | nil => exact hstart
      | cons x s => exact hstart
    have trimmed : (indent ++ (s ++ ',' :: pad)).trim = s ++ [','] := by
      have := Text.trim_between hindent hpad start hc List.getLast?_concat (by decide)
      rwa [List.append_assoc] at this
    have visible : (indent ++ (s ++ ',' :: pad)).allBlank = false :=
      Text.allBlank_eq_false (List.mem_append_right _ (List.mem_append_right _ List.mem_cons_self))
        (by decide)
    have joined : p ++ (", ".toList ++ (s ++ [','])) = (p ++ (", ".toList ++ s)) ++ [','] := by
      simp only [List.append_assoc]
    rw [List.cons_append, joinFrom_comma trimmed visible, joined,
      ih (hcomplete.behind hstart') hstart' hd hindent' _ _ rfl, List.length_cons]
    simp only [List.append_assoc, Nat.add_assoc, Nat.add_comm pieces'.length]

/-- The pieces of a line are read as the line. -/
theorem run_wholeMember_laidOut (h : LaidOut line (first :: more)) (hcomplete : Complete line)
    (n : Nat) (tail : List Text) :
    (wholeMember first).run ⟨n, more ++ tail⟩ = (.ok line, ⟨n + more.length, tail⟩) := by
  cases h with
  | whole line => exact run_wholeMember hcomplete.endsInComma _
  | @broken s rest pad indent piece pieces c hpad hindent hne hstart hc hrest =>
    have trimmed : (s ++ ',' :: pad).trimEnd = s ++ [','] := by
      have split : s ++ ',' :: pad = (s ++ [',']) ++ pad := by simp
      rw [split, Text.trimEnd_append_of_allBlank hpad,
        Text.trimEnd_concat_of_not_blank (by decide)]
    have breaks_off : Field.endsInComma (s ++ ',' :: pad) = true := by
      have := endsInComma_comma s
      rwa [Field.endsInComma, ← trimmed, Text.trimEnd_trimEnd] at this
    rw [Reading.run, wholeMember_cursor, if_pos breaks_off, trimmed,
      joinFrom_laidOut hrest (hcomplete.behind hstart) hstart hc hindent, List.length_cons,
      Nat.add_right_comm, Nat.add_assoc]

/-! ## One member -/

section Readers

variable {α β : Type}

/-- Two readings that stop at these cursors with the same result, or both fail. -/
inductive StopsAt (d d' : Cursor) : Except Fault α × Cursor → Except Fault α × Cursor → Prop
  | ok (a : α) : StopsAt d d' (.ok a, d) (.ok a, d')
  | error (e e' : Fault) (c c' : Cursor) : StopsAt d d' (.error e, c) (.error e', c')

/-- The reader reads no line, and what it gives does not depend on where it stands. -/
def Stays (x : Reading Cursor α) : Prop := ∀ d d', StopsAt d d' (x.run d) (x.run d')

theorem stays_pure (a : α) : Stays (pure a : Reading Cursor α) := fun _ _ => .ok a

theorem stays_ofExcept {outcome : Nat → Except Fault α}
    (h : ∀ n n', unplaced (outcome n) = unplaced (outcome n')) :
    Stays (Reading.ofExcept outcome) := by
  intro d d'
  show StopsAt d d' (outcome d.line, d) (outcome d'.line, d')
  rcases unplaced_eq_iff.1 (h d.line d'.line) with ⟨a, ha, ha'⟩ | ⟨e, e', he, he', _⟩
  · rw [ha, ha']
    exact .ok a
  · rw [he, he']
    exact .error e e' d d'

theorem stays_expect (value : Option α) (marker line : Text) :
    Stays (Reading.expect value marker line) := by
  intro d d'
  cases value with
  | some a => exact .ok a
  | none => exact .error _ _ _ _

/-- What is read on from the two cursors decides. -/
theorem stopsAt_bind {x y : Reading Cursor α} {f g : α → Reading Cursor β} {c c' d d' e e' : Cursor}
    (hx : StopsAt d d' (x.run c) (y.run c'))
    (hf : ∀ a, StopsAt e e' ((f a).run d) ((g a).run d')) :
    StopsAt e e' ((x >>= f).run c) ((y >>= g).run c') := by
  rw [Reading.run_bind, Reading.run_bind]
  generalize x.run c = r at hx
  generalize y.run c' = r' at hx
  cases hx with
  | ok a => exact hf a
  | error u u' b b' => exact .error u u' b b'

theorem stays_bind {x : Reading Cursor α} {f : α → Reading Cursor β} (hx : Stays x)
    (hf : ∀ a, Stays (f a)) : Stays (x >>= f) :=
  fun d d' => stopsAt_bind (hx d d') fun a => hf a d d'

end Readers

theorem stays_methodOf (text : Text) : Stays (methodOf text) :=
  stays_bind (stays_ofExcept Field.unplaced_typeIdAfter) fun _ =>
    stays_bind (stays_expect _ _ _) fun _ => stays_pure _

/-- A method is read alike from its line and from the pieces of that line. -/
theorem stopsAt_method (h : LaidOut line (first :: more)) (hcomplete : Complete line)
    (hline : line.mentions methodTag = true) (hfirst : first.mentions methodTag = true)
    (n m : Nat) (lines lines' : List Text) :
    StopsAt ⟨n, lines⟩ ⟨m + more.length, lines'⟩ ((readMember line).run ⟨n, lines⟩)
      ((readMember first).run ⟨m, more ++ lines'⟩) := by
  have joined := run_wholeMember_laidOut h hcomplete m lines'
  have alone : (wholeMember line).run ⟨n, lines⟩ = (.ok line, ⟨n, lines⟩) :=
    run_wholeMember hcomplete.endsInComma _
  rw [readMember, readMember, if_pos hline, if_pos hfirst, Reading.run_bind_ok joined,
    Reading.run_bind_ok alone]
  exact stays_bind (stays_methodOf line) (fun _ => stays_pure _) _ _

/-- Any other line stands for itself. -/
theorem stays_readMember (h : line.mentions methodTag = false) : Stays (readMember line) := by
  rw [readMember, h, if_neg Bool.false_ne_true]
  split
  · exact stays_bind (stays_ofExcept Field.unplaced_typeIdAfter) fun _ => stays_pure _
  · exact stays_pure _

/-- The tag of a method is not lost in a break behind it. -/
theorem LaidOut.mentions (h : LaidOut line (first :: more))
    (hfirst : first.mentions methodTag = true) : line.mentions methodTag = true := by
  cases h with
  | whole line => exact hfirst
  | @broken s rest pad indent piece pieces c hpad =>
    have tag_eq : methodTag = "= LF_ONEMETHOD".toList ++ [',', ' '] := by decide
    have first_eq : s ++ ',' :: pad = (s ++ [',']) ++ pad := by simp
    have line_eq : s ++ (", ".toList ++ rest) = (s ++ [',']) ++ ' ' :: rest := by simp
    rw [Text.mentions_iff_isInfix, tag_eq, first_eq] at hfirst
    rw [Text.mentions_iff_isInfix, tag_eq, line_eq]
    exact Text.isInfix_of_wrapped (by decide) hpad hfirst

/-- A member is read alike from its line and from what that line was made. -/
theorem stopsAt_readMember (h : Rewrapped line pieces) (hline : MemberLine line) :
    ∃ first more, pieces = first :: more ∧ first.allBlank = false ∧
      ∀ (n m : Nat) (lines lines' : List Text),
        StopsAt ⟨n, lines⟩ ⟨m + more.length, lines'⟩ ((readMember line).run ⟨n, lines⟩)
          ((readMember first).run ⟨m, more ++ lines'⟩) := by
  rcases h with rfl | ⟨first, more, rfl, hlaid, hfirst⟩
  · refine ⟨line, [], rfl, hline.visible, fun n m lines lines' => ?_⟩
    cases htag : line.mentions methodTag with
    | true => exact stopsAt_method (.whole line) (hline.complete htag) htag htag n m lines lines'
    | false => exact stays_readMember htag _ _
  · have htag := hlaid.mentions hfirst
    refine ⟨first, more, rfl, ?_, stopsAt_method hlaid (hline.complete htag) htag hfirst⟩
    have hmem : '=' ∈ first := (Text.mentions_iff_isInfix.1 hfirst).subset (by decide)
    exact Text.allBlank_eq_false hmem (by decide)

/-! ## The field list -/

variable {header : Text} {blocks : List (List Text)}

/-- The members of a list are read alike from their lines and from what these were made. -/
theorem stopsAt_readMembers (h : List.Forall₂ Rewrapped block blocks)
    (hblock : ∀ l ∈ block, MemberLine l) (htail : AtBreak tail) (done : List Member) (n m : Nat) :
    StopsAt ⟨n + block.length, tail⟩ ⟨m + blocks.flatten.length, tail⟩
      (readMembers done ⟨n, block ++ tail⟩) (readMembers done ⟨m, blocks.flatten ++ tail⟩) := by
  induction h generalizing done n m with
  | nil =>
    rw [List.flatten_nil, readMembers_atBreak htail rfl, readMembers_atBreak htail rfl]
    exact .ok _
  | @cons line pieces block blocks hline _ ih =>
    obtain ⟨hmember, hblock⟩ := List.forall_mem_cons.1 hblock
    obtain ⟨first, more, rfl, hvisible, hread⟩ := stopsAt_readMember hline hmember
    have hread := hread (n + 1) (m + 1) (block ++ tail) (blocks.flatten ++ tail)
    rw [List.flatten_cons, List.append_assoc, List.cons_append, List.cons_append,
      readMembers_line rfl hmember.visible, readMembers_line rfl hvisible]
    generalize (readMember line).run ⟨n + 1, block ++ tail⟩ = r at hread
    generalize (readMember first).run ⟨m + 1, more ++ (blocks.flatten ++ tail)⟩ = r' at hread
    cases hread with
    | error e e' d d' => exact .error e e' d d'
    | ok a =>
      have rest := ih hblock (a.toList ++ done) (n + 1) (m + 1 + more.length)
      have lines : n + 1 + block.length = n + (line :: block).length := by
        rw [List.length_cons]
        omega
      have lines' : m + 1 + more.length + blocks.flatten.length =
          m + (first :: more ++ blocks.flatten).length := by
        rw [List.length_append, List.length_cons]
        omega
      rwa [lines, lines'] at rest

/-- No piece of a line is a banner if the line is none. -/
theorem LaidOut.not_isBanner (h : LaidOut line pieces) (hline : Dump.isBanner line = false) :
    ∀ l ∈ pieces, Dump.isBanner l = false := by
  have first_inside : ∀ l ∈ pieces.head?, Dump.isBanner l = false := by
    cases h with
    | whole line => simpa using hline
    | @broken s rest pad =>
      intro l hl
      obtain rfl := Option.some.inj hl
      rw [Dump.isBanner, ← Bool.not_eq_true, List.isPrefixOf_iff_prefix] at hline ⊢
      intro hbanner
      have inside : "*** ".toList <+: s := Text.isPrefix_of_break (c := ',') (by decide) hbanner
      exact hline (inside.trans (List.prefix_append _ _))
  have later_inside : ∀ l ∈ pieces.tail, Dump.isBanner l = false := by
    clear first_inside hline
    induction h with
    | whole line => exact fun l hl => absurd hl List.not_mem_nil
    | @broken s rest pad indent piece pieces c hpad hindent hne hstart hc hrest ih =>
      refine List.forall_mem_cons.2 ⟨?_, ih⟩
      -- An indented line does not start with a star.
      obtain ⟨b, indent, rfl⟩ := List.exists_cons_of_ne_nil hne
      have blank : Text.isBlank b = true := List.all_eq_true.1 hindent b List.mem_cons_self
      rw [Dump.isBanner, ← Bool.not_eq_true, List.isPrefixOf_iff_prefix]
      intro hbanner
      rw [← (List.cons_prefix_cons.1 hbanner).1] at blank
      exact absurd blank (by decide)
  cases pieces with
  | nil => exact fun l hl => absurd hl List.not_mem_nil
  | cons first more => exact List.forall_mem_cons.2 ⟨first_inside first rfl, later_inside⟩

theorem Rewrapped.not_isBanner (h : Rewrapped line pieces) (hline : Dump.isBanner line = false) :
    ∀ l ∈ pieces, Dump.isBanner l = false := by
  rcases h with rfl | ⟨first, more, rfl, hlaid, _⟩
  · exact List.forall_mem_singleton.2 hline
  · exact hlaid.not_isBanner hline

theorem not_isBanner_flatten (h : List.Forall₂ Rewrapped block blocks)
    (hblock : ∀ l ∈ block, MemberLine l) : ∀ l ∈ blocks.flatten, Dump.isBanner l = false := by
  induction h with
  | nil => exact fun l hl => absurd hl List.not_mem_nil
  | cons hline _ ih =>
    obtain ⟨hmember, hblock⟩ := List.forall_mem_cons.1 hblock
    rw [List.flatten_cons]
    exact List.forall_mem_append.2 ⟨hline.not_isBanner hmember.inside, ih hblock⟩

/-- The record ends here: the dump does, or a blank line or a banner follows. -/
def RecordEnds (tail : List Text) : Prop :=
  ∀ l ∈ tail.head?, l.allBlank = true ∨ Dump.isBanner l = true

theorem RecordEnds.atBreak (h : RecordEnds tail) : AtBreak (Dump.untilBanner tail) := by
  cases tail with
  | nil => exact nofun
  | cons l tail =>
    intro m hm
    cases hbanner : Dump.isBanner l with
    | true =>
      rw [Dump.untilBanner, List.takeWhile_cons_of_neg (by rw [hbanner]; decide)] at hm
      cases hm
    | false =>
      rw [Dump.untilBanner_cons hbanner] at hm
      obtain rfl := Option.some.inj hm
      exact (h l rfl).resolve_right (ne_true_of_eq_false hbanner)

/-- A field list comes to the same whether its methods stand on one line or on several. It is read
from the one exactly if it is read from the other, and then the reader stands behind the last line
of the record. -/
theorem readFieldList_rewrapped (h : List.Forall₂ Rewrapped block blocks)
    (hblock : ∀ l ∈ block, MemberLine l) (htail : RecordEnds tail) (header : Text) (n : Nat) :
    (∀ result, ((readFieldList header).run
        ⟨n, Dump.untilBanner (blocks.flatten ++ tail)⟩).1 = .ok result ↔
      ((readFieldList header).run ⟨n, Dump.untilBanner (block ++ tail)⟩).1 = .ok result) ∧
    ∀ result d, (readFieldList header).run
        ⟨n, Dump.untilBanner (blocks.flatten ++ tail)⟩ = (.ok result, d) →
      d = ⟨n + blocks.flatten.length, Dump.untilBanner tail⟩ := by
  rw [Dump.untilBanner_append (not_isBanner_flatten h hblock),
    Dump.untilBanner_append fun l hl => (hblock l hl).inside]
  have same : StopsAt ⟨n + block.length, Dump.untilBanner tail⟩
      ⟨n + blocks.flatten.length, Dump.untilBanner tail⟩
      ((readFieldList header).run ⟨n, block ++ Dump.untilBanner tail⟩)
      ((readFieldList header).run ⟨n, blocks.flatten ++ Dump.untilBanner tail⟩) :=
    stopsAt_bind (stays_ofExcept Field.unplaced_leadingTypeId _ _) fun id =>
      stopsAt_bind (stopsAt_readMembers h hblock htail.atBreak [] n n) fun members =>
        stays_pure _ _ _
  generalize (readFieldList header).run ⟨n, block ++ Dump.untilBanner tail⟩ = r at same
  generalize (readFieldList header).run ⟨n, blocks.flatten ++ Dump.untilBanner tail⟩ = r' at same
  cases same with
  | ok a => exact ⟨fun _ => Iff.rfl, fun _ d hd => (congrArg Prod.snd hd).symm⟩
  | error e e' d d' => exact ⟨fun _ => iff_of_false nofun nofun, nofun⟩

/-- A static method on its line. -/
def createLine : Text :=
  "= LF_ONEMETHOD, public".toList ++ (", ".toList ++ ("STATIC".toList ++ (", ".toList ++
    "index = 0x1234, name = 'Create'".toList)))

/-- The same method on three lines, with white space before one of the breaks. -/
def createPieces : List Text :=
  ["= LF_ONEMETHOD, public".toList ++ ',' :: " ".toList,
    "\t".toList ++ ("STATIC".toList ++ ',' :: []),
    "  ".toList ++ "index = 0x1234, name = 'Create'".toList]

/-- It is read alike. -/
theorem readFieldList_rewrapped_create :
    List.Forall₂ Rewrapped [createLine] [createPieces] ∧ (∀ l ∈ [createLine], MemberLine l) ∧
    RecordEnds [[]] ∧ ((readFieldList "0x1002 : LF_FIELDLIST".toList).run
      ⟨1, Dump.untilBanner ([createPieces].flatten ++ [[]])⟩).1 =
        .ok (some ⟨⟨0x1002⟩, [.method "Create".toList ⟨0x1234⟩ true]⟩) := by
  have laid_out : LaidOut createLine createPieces :=
    .broken (by decide) (by decide) (by decide) rfl (by decide)
      (.broken (by decide) (by decide) (by decide) rfl (by decide) (.whole _))
  have rewrapped : List.Forall₂ Rewrapped [createLine] [createPieces] :=
    .cons (.inr ⟨_, _, rfl, laid_out, by decide +kernel⟩) .nil
  have complete : Complete createLine := ⟨'\'', by decide +kernel, by decide, by decide⟩
  have members : ∀ l ∈ [createLine], MemberLine l :=
    List.forall_mem_singleton.2 ⟨by decide +kernel, by decide +kernel, fun _ => complete⟩
  have ends : RecordEnds [[]] := fun l hl => .inl (Option.some.inj hl ▸ rfl)
  refine ⟨rewrapped, members, ends, ?_⟩
  exact ((readFieldList_rewrapped rewrapped members ends _ 1).1 _).2 (by decide +kernel)

end Lineage.Record
