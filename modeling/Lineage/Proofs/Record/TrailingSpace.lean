import Lineage.Proofs.Record.WrappedMembers
import Lineage.Proofs.Record.WrappedNames
import Lineage.Proofs.Text.Trimming
import Lineage.Proofs.TypeTable.Runs
import Mathlib.Data.List.Chain

/-!
# Field lists whose lines have lost the white space at their ends

A flag and the tag of a method end in a space, and a line that breaks off behind one of them may
have lost it. What is read off a line is the same for all that (`Trimmed.same`), up to one thing.
The tag of a method is sought with its space, and a line that ends right behind the tag is no
method any more once the space is lost.

So the field list is the same if all its lines keep their tags. If a method that is broken off goes
on in lines without a tag, as the dumper lays it out, it is the same only then: the list has as many
methods as there are lines with a tag (`countP_readMembers`), and no line gets one by losing white
space.

Main results: `readFieldList_trimmed`, with `not_readFieldList_trimmed_brokenTag`.
-/

namespace Lineage

open Text (allBlank_trimEnd exists_trimEnd_append)

/-! ## What is read off a line -/

namespace Field

variable {α : Type}

/-- Whether a line is to go on is seen from its last visible character. -/
theorem endsInComma_trimEnd (line : Text) : endsInComma line.trimEnd = endsInComma line := by
  rw [endsInComma, endsInComma, Text.trimEnd_trimEnd]

/-- What is read behind an introducer, if white space at the end does not count there. An introducer
that is lost with the white space had none but white space behind it. -/
theorem bind_after?_trimEnd {read? : Text → Option α}
    (hpad : ∀ rest pad : Text, pad.allBlank = true → read? (rest ++ pad) = read? rest)
    (hnone : read? [] = none) (line introducer : Text) :
    (after? line.trimEnd introducer).bind read? = (after? line introducer).bind read? := by
  obtain ⟨pad, hblank, hline⟩ := exists_trimEnd_append line
  rw [after?, after?]
  cases hcut : Text.cut? introducer line.trimEnd with
  | some found =>
    obtain ⟨before, rest⟩ := found
    conv_rhs => rw [hline, Text.cut?_append_of_eq_some hcut]
    exact (hpad rest pad hblank).symm
  | none =>
    cases hcut' : Text.cut? introducer line with
    | none => rfl
    | some found =>
      obtain ⟨before, rest⟩ := found
      have blank : rest.allBlank = true := by
        by_contra hvisible
        refine Text.cut?_append_ne_none before introducer rest.trimEnd ?_
        rw [Text.cut?_eq_some hcut', Text.trimEnd_append, if_neg hvisible] at hcut
        exact hcut
      exact ((hpad [] rest blank).trans hnone).symm

/-- An id is a token, and no token has white space in it. -/
theorem typeId_trimEnd (line introducer : Text) :
    (tokenAfter? line.trimEnd introducer).bind TypeId.read? =
      (tokenAfter? line introducer).bind TypeId.read? := by
  rw [tokenAfter?, tokenAfter?, Option.bind_map, Option.bind_map]
  refine bind_after?_trimEnd (fun rest pad hpad => ?_) rfl line introducer
  refine congrArg TypeId.read? (Text.token_append_pad (fun c hc => hc) (fun c hc => ?_) hpad rest)
  rw [hc, Bool.or_true]
  rfl

/-- The first token of a line is found before the white space at its end. -/
theorem leadingToken_trimEnd (line : Text) : leadingToken line.trimEnd = leadingToken line := by
  obtain ⟨pad, hpad, hline⟩ := exists_trimEnd_append line
  have ends : ∀ c, Text.isBlank c = true → endsLeadingId c = true := fun c hc => by
    rw [endsLeadingId, hc, Bool.true_or]
  conv_rhs => rw [hline]
  refine (Text.token_append_pad ends (fun c hc => ?_) hpad line.trimEnd).symm
  rw [ends c hc]
  rfl

/-- The name that the text behind an introducer starts with. -/
def leadingName? (rest : Text) : Option Text :=
  match rest.trimStart with
  | [] => none
  | quote :: behind =>
    if isQuote quote then
      if behind.contains quote then Record.nonempty? (behind.takeWhile fun c => c != quote)
      else none
    else Record.nonempty? (dropTrailingComma (Text.trim (rest.takeWhile fun c => !isComma c)))

theorem bind_quotedAfter? (line introducer : Text) :
    (quotedAfter? line introducer).bind Record.nonempty? =
      (after? line introducer).bind leadingName? := by
  rw [quotedAfter?, textAfter?]
  cases after? line introducer with
  | none => rfl
  | some rest =>
    rw [Option.map_some, Option.map_some, Option.bind_some, leadingName?]
    cases hstart : rest.trimStart with
    | nil =>
      -- Behind white space alone there is a name without characters.
      have blank : Text.trim (rest.takeWhile fun c => !isComma c) = [] := by
        have whole : rest.allBlank = true := List.all_eq_true.2 (List.dropWhile_eq_nil_iff.1 hstart)
        have taken := Text.trim_takeWhile_append_pad (fun c => !isComma c) whole []
        rwa [List.nil_append] at taken
      dsimp only
      rw [blank]
      rfl
    | cons quote behind =>
      dsimp only
      split
      next =>
        split
        next => rfl
        next => rfl
      next => rfl

theorem leadingName?_append_pad (rest pad : Text) (hpad : pad.allBlank = true) :
    leadingName? (rest ++ pad) = leadingName? rest := by
  rw [leadingName?, leadingName?, Text.trimStart_append,
    Text.trim_takeWhile_append_pad (fun c => !isComma c) hpad]
  cases hrest : rest.allBlank with
  | true =>
    rw [if_pos rfl, Text.trimStart_of_allBlank hpad, Text.trimStart_of_allBlank hrest]
  | false =>
    have hne : rest.trimStart ≠ [] := fun hnil => by
      rw [← Text.allBlank_trimStart, hnil] at hrest
      cases hrest
    obtain ⟨quote, behind, hstart⟩ := List.exists_cons_of_ne_nil hne
    rw [if_neg Bool.false_ne_true, hstart, List.cons_append]
    dsimp only
    cases hquote : isQuote quote with
    | false => rfl
    | true =>
      have visible : Text.isBlank quote = false := by
        rw [isQuote, Bool.or_eq_true, beq_iff_eq, beq_iff_eq] at hquote
        rcases hquote with rfl | rfl <;> rfl
      have same : (behind ++ pad).contains quote = behind.contains quote := by
        have absent : pad.contains quote = false := by
          rw [← Bool.not_eq_true, List.contains_iff_mem]
          exact Text.not_mem_of_allBlank hpad visible
        rw [List.contains_append, absent, Bool.or_false]
      rw [same]
      cases hclosed : behind.contains quote with
      | false => rfl
      | true =>
        -- The closing quote stands before the white space.
        have not_all : (behind.takeWhile fun c => c != quote).length ≠ behind.length := by
          intro hall
          have whole := (List.takeWhile_prefix fun c => c != quote).eq_of_length hall
          have closing : quote ∈ behind := List.contains_iff_mem.1 hclosed
          rw [← whole] at closing
          have := List.mem_takeWhile_imp closing
          rw [bne_self_eq_false] at this
          cases this
        rw [List.takeWhile_append, if_neg not_all]

/-- A name ends at its quote. Without quotes it ends at a comma, or where the white space begins. -/
theorem name_trimEnd (line introducer : Text) :
    (quotedAfter? line.trimEnd introducer).bind Record.nonempty? =
      (quotedAfter? line introducer).bind Record.nonempty? := by
  rw [bind_quotedAfter?, bind_quotedAfter?]
  exact bind_after?_trimEnd leadingName?_append_pad rfl line introducer

end Field

namespace Record

/-- A flag is found with and without the space that it ends in. -/
theorem hasFlag_trimEnd {flag : Text} (hflag : flag.allBlank = false) (line : Text) :
    hasFlag line.trimEnd flag = hasFlag line flag := by
  rw [hasFlag, hasFlag, Text.trimEnd_trimEnd]
  refine Bool.eq_iff_iff.2 ?_
  rw [Bool.or_eq_true, Bool.or_eq_true, List.isSuffixOf_iff_suffix]
  refine ⟨Or.imp_left (Text.mentions_mono (Text.trimEnd_isPrefix line).isInfix), fun h => ?_⟩
  exact h.elim (Text.mentions_trimEnd_or hflag) .inr

/-! ## Lines without the white space at their ends -/

variable {l l' header header' : Text} {block block' tail : List Text} {c c' d d' : Cursor} {n : Nat}

/-- The line may have lost the white space at its end. -/
def Trimmed (l l' : Text) : Prop := l' = l ∨ l' = l.trimEnd

/-- It has not lost the tag of a method with it. -/
structure Kept (l l' : Text) : Prop where
  trimmed : Trimmed l l'
  tag : l'.mentions methodTag = l.mentions methodTag

/-- What is read off the trimmed line is read off the line. -/
theorem Trimmed.same {β : Type} {f : Text → β} (h : Trimmed l l')
    (hf : ∀ l, f l.trimEnd = f l) : f l' = f l := by
  rcases h with rfl | rfl
  · rfl
  · exact hf l

/-- A line loses its end and nothing else. -/
theorem Trimmed.isPrefix (h : Trimmed l l') : l' <+: l := by
  rcases h with rfl | rfl
  · exact List.prefix_rfl
  · exact Text.trimEnd_isPrefix l

/-- No line gets a tag by losing white space. -/
theorem Trimmed.mentions_methodTag (h : Trimmed l l') (hl' : l'.mentions methodTag = true) :
    l.mentions methodTag = true :=
  Text.mentions_mono h.isPrefix.isInfix hl'

/-- A line without a tag has none afterwards. -/
theorem Trimmed.untagged (h : Trimmed l l') (hl : l.mentions methodTag = false) :
    l'.mentions methodTag = false := by
  rw [← Bool.not_eq_true]
  intro hl'
  rw [h.mentions_methodTag hl'] at hl
  cases hl

/-- A tag is lost in a line that ends right behind it. -/
theorem kept_or_endsInTag (h : Trimmed l l') :
    Kept l l' ∨ methodTag.trimEnd <:+ l' := by
  cases hl : l.mentions methodTag with
  | false => exact .inl ⟨h, (h.untagged hl).trans hl.symm⟩
  | true =>
    rcases h with rfl | rfl
    · exact .inl ⟨.inl rfl, rfl⟩
    · refine (Text.mentions_trimEnd_or (by decide) hl).imp_left fun htag => ?_
      exact ⟨.inr rfl, htag.trans hl.symm⟩

/-! ## Reading side by side -/

/-- Two cursors in a record and in the same record without some of the white space. -/
def Beside (tail : List Text) (c c' : Cursor) : Prop :=
  ∃ block block' : List Text, List.Forall₂ Kept block block' ∧
    (∀ l ∈ block, l.allBlank = false) ∧ c.rest = block ++ tail ∧ c'.rest = block' ++ tail

/-- Two readings that stop side by side with the same result, or both fail. -/
def StopsBeside {α : Type} (tail : List Text) (r r' : Except Fault α × Cursor) : Prop :=
  ∃ d d', Beside tail d d' ∧ StopsAt d d' r r'

section Readers

variable {α β : Type}

/-- What goes on succeeds only if both parts do. -/
theorem run_bind_eq_ok {x : Reading Cursor α} {f : α → Reading Cursor β} {b : β}
    (h : (x >>= f).run c = (.ok b, d)) :
    ∃ a e, x.run c = (.ok a, e) ∧ (f a).run e = (.ok b, d) := by
  rw [Reading.run_bind] at h
  rcases hx : x.run c with ⟨u | a, e⟩
  · rw [hx] at h
    cases h
  · rw [hx] at h
    exact ⟨a, e, rfl, h⟩

theorem StopsAt.ok_iff {r r' : Except Fault α × Cursor} (h : StopsAt d d' r r') (a : α) :
    r'.1 = .ok a ↔ r.1 = .ok a := by
  cases h with
  | ok b => exact Iff.rfl
  | error e e' c c' => exact iff_of_false nofun nofun

/-- Work at one line stops where it is, in both places. -/
theorem stopsAt_ofExcept {outcome outcome' : Nat → Except Fault α}
    (h : (outcome' d'.line).toOption = (outcome d.line).toOption) :
    StopsAt d d' ((Reading.ofExcept outcome).run d) ((Reading.ofExcept outcome').run d') := by
  show StopsAt d d' (outcome d.line, d) (outcome' d'.line, d')
  cases hx : outcome d.line with
  | ok a =>
    rw [hx] at h
    rw [toOption_eq_some_iff.1 h]
    exact .ok a
  | error e =>
    rw [hx] at h
    cases hy : outcome' d'.line with
    | ok a =>
      rw [hy] at h
      cases h
    | error e' => exact .error e e' d d'

theorem stopsAt_expect {value value' : Option α} (h : value' = value) (marker line line' : Text) :
    StopsAt d d' ((Reading.expect value marker line).run d)
      ((Reading.expect value' marker line').run d') := by
  rw [h]
  cases value with
  | some a => exact .ok a
  | none => exact .error _ _ d d'

/-- Readers that stop beside each other are followed by the next ones. -/
theorem stopsBeside_bind {x y : Reading Cursor α} {f g : α → Reading Cursor β}
    (hx : StopsBeside tail (x.run c) (y.run c'))
    (hf : ∀ a d d', Beside tail d d' → StopsBeside tail ((f a).run d) ((g a).run d')) :
    StopsBeside tail ((x >>= f).run c) ((y >>= g).run c') := by
  obtain ⟨d, d', hbeside, hstops⟩ := hx
  rw [Reading.run_bind, Reading.run_bind]
  generalize x.run c = r at hstops
  generalize y.run c' = r' at hstops
  cases hstops with
  | ok a => exact hf a d d' hbeside
  | error e e' b b' => exact ⟨d, d', hbeside, .error e e' b b'⟩

end Readers

/-! ### One member -/

theorem Trimmed.toOption_typeIdAfter (h : Trimmed l l') (introducer : Text) (n n' : Nat) :
    (Field.typeIdAfter l' introducer n').toOption =
      (Field.typeIdAfter l introducer n).toOption := by
  rw [Field.toOption_typeIdAfter, Field.toOption_typeIdAfter]
  exact h.same (f := fun l => (Field.tokenAfter? l introducer).bind TypeId.read?) fun l =>
    Field.typeId_trimEnd l introducer

/-- A method is read off its joined text, which is the same but for white space. -/
theorem stopsAt_methodOf (h : Trimmed l l') (d d' : Cursor) :
    StopsAt d d' ((methodOf l).run d) ((methodOf l').run d') := by
  have flag : hasFlag l' staticFlag = hasFlag l staticFlag :=
    h.same (f := fun l => hasFlag l staticFlag) (hasFlag_trimEnd (by decide))
  refine stopsAt_bind (stopsAt_ofExcept (h.toOption_typeIdAfter indexIntro _ _)) fun id => ?_
  refine stopsAt_bind (stopsAt_expect ?_ _ _ _) fun name => ?_
  · exact h.same (f := fun l => (Field.quotedAfter? l nameIntro).bind nonempty?) fun l =>
      Field.name_trimEnd l nameIntro
  · rw [flag]
    exact .ok _

theorem stopsAt_someMethod (h : Trimmed l l') (d d' : Cursor) :
    StopsAt d d' ((methodOf l >>= fun m => pure (some m)).run d)
      ((methodOf l' >>= fun m => pure (some m)).run d') :=
  stopsAt_bind (stopsAt_methodOf h d d') fun m => .ok (some m)

/-- The lines that a member goes on in are trimmed when they are joined. -/
theorem stopsBeside_joinFrom (htail : AtBreak tail) (h : List.Forall₂ Kept block block')
    (hblock : ∀ l ∈ block, l.allBlank = false) (joined : Text) (n n' : Nat) :
    StopsBeside tail (joinFrom joined n (block ++ tail)) (joinFrom joined n' (block' ++ tail)) := by
  cases hj : Field.endsInComma joined with
  | false =>
    rw [joinFrom_of_complete hj, joinFrom_of_complete hj]
    exact ⟨_, _, ⟨block, block', h, hblock, rfl, rfl⟩, .ok joined⟩
  | true =>
    induction h generalizing joined n n' with
    | nil =>
      obtain ⟨d, hs⟩ := joinFrom_atBreak htail hj n
      obtain ⟨d', hs'⟩ := joinFrom_atBreak htail hj n'
      rw [List.nil_append, hs, hs']
      exact ⟨⟨n, tail⟩, ⟨n', tail⟩, ⟨[], [], .nil, hblock, rfl, rfl⟩, .error _ _ d d'⟩
    | @cons l l' block block' hl hrest ih =>
      obtain ⟨hvisible, hblock⟩ := List.forall_mem_cons.1 hblock
      have hvisible' : l'.allBlank = false := (hl.trimmed.same allBlank_trimEnd).trans hvisible
      have same : l'.trim = l.trim := hl.trimmed.same Text.trim_trimEnd
      rw [List.cons_append, List.cons_append, joinFrom, joinFrom, if_pos hj, if_pos hj,
        if_neg (ne_true_of_eq_false hvisible), if_neg (ne_true_of_eq_false hvisible'), same]
      cases hj' : Field.endsInComma (joined ++ ' ' :: l.trim) with
      | false =>
        rw [joinFrom_of_complete hj', joinFrom_of_complete hj']
        exact ⟨_, _, ⟨block, block', hrest, hblock, rfl, rfl⟩, .ok _⟩
      | true => exact ih hblock _ (n + 1) (n' + 1) hj'

/-- A method is joined from as many lines in both places, and then read. -/
theorem stopsBeside_method (htail : AtBreak tail) (h : Trimmed l l') (hc : Beside tail c c') :
    StopsBeside tail
      ((wholeMember l >>= fun text => methodOf text >>= fun m => pure (some m)).run c)
      ((wholeMember l' >>= fun text => methodOf text >>= fun m => pure (some m)).run c') := by
  have ending : Field.endsInComma l' = Field.endsInComma l := h.same Field.endsInComma_trimEnd
  cases hl : Field.endsInComma l with
  | false =>
    rw [Reading.run_bind_ok (run_wholeMember hl c),
      Reading.run_bind_ok (run_wholeMember (ending.trans hl) c')]
    exact ⟨c, c', hc, stopsAt_someMethod h c c'⟩
  | true =>
    refine stopsBeside_bind ?_ fun text d d' hd => ⟨d, d', hd, stopsAt_someMethod (.inl rfl) d d'⟩
    obtain ⟨block, block', hblock, hvisible, hrest, hrest'⟩ := hc
    have same : l'.trimEnd = l.trimEnd := h.same Text.trimEnd_trimEnd
    rw [Reading.run, Reading.run, wholeMember_cursor, wholeMember_cursor, ending, hl, if_pos rfl,
      if_pos rfl, same, hrest, hrest']
    exact stopsBeside_joinFrom htail hblock hvisible _ _ _

/-- A line that keeps its tag starts the same member. -/
theorem stopsBeside_readMember (htail : AtBreak tail) (h : Kept l l') (hc : Beside tail c c') :
    StopsBeside tail ((readMember l).run c) ((readMember l').run c') := by
  have base : l'.mentions RecordKind.baseTag = l.mentions RecordKind.baseTag :=
    h.trimmed.same (f := fun l => l.mentions RecordKind.baseTag)
      (Text.mentions_trimEnd (c := 'S') (by decide) " LF_BCLAS".toList)
  have virtualBase : l'.mentions virtualBaseTag = l.mentions virtualBaseTag :=
    h.trimmed.same (f := fun l => l.mentions virtualBaseTag)
      (Text.mentions_trimEnd (c := 'S') (by decide) " LF_VBCLAS".toList)
  rw [readMember, readMember, h.tag, base, virtualBase]
  split
  next => exact stopsBeside_method htail h.trimmed hc
  next =>
    split
    next =>
      refine ⟨c, c', hc, stopsAt_bind (stopsAt_ofExcept ?_) fun id => .ok _⟩
      exact h.trimmed.toOption_typeIdAfter typeIntro _ _
    next => exact ⟨c, c', hc, .ok _⟩

/-! ### The members -/

/-- The loop over members, side by side, by induction on the lines that are left. -/
theorem stopsBeside_readMembers (htail : AtBreak tail) (done : List Member)
    (hc : Beside tail c c') :
    StopsBeside tail (readMembers done c) (readMembers done c') := by
  -- Every member uses up at least its first line.
  induction hn : c.rest.length using Nat.strongRecOn generalizing done c c' with
  | _ k ih =>
    obtain ⟨block, block', h, hblock, hrest, hrest'⟩ := id hc
    cases h with
    | nil =>
      rw [readMembers_atBreak htail hrest, readMembers_atBreak htail hrest']
      exact ⟨c, c', hc, .ok _⟩
    | @cons l l' block block' hl h =>
      obtain ⟨hvisible, hblock⟩ := List.forall_mem_cons.1 hblock
      have hvisible' : l'.allBlank = false := (hl.trimmed.same allBlank_trimEnd).trans hvisible
      have next : Beside tail ⟨c.line + 1, block ++ tail⟩ ⟨c'.line + 1, block' ++ tail⟩ :=
        ⟨block, block', h, hblock, rfl, rfl⟩
      have hmember := stopsBeside_readMember htail hl next
      have hforward := (before_readMember l ⟨c.line + 1, block ++ tail⟩).length_le
      rw [readMembers_line hrest hvisible, readMembers_line hrest' hvisible']
      obtain ⟨d, d', hd, hstops⟩ := hmember
      generalize (readMember l).run ⟨c.line + 1, block ++ tail⟩ = r at hforward hstops
      generalize (readMember l').run ⟨c'.line + 1, block' ++ tail⟩ = r' at hstops
      cases hstops with
      | error e e' b b' => exact ⟨d, d', hd, .error e e' b b'⟩
      | ok m =>
        refine ih d.rest.length ?_ _ hd rfl
        rw [← hn, hrest]
        exact Nat.lt_succ_of_le hforward

/-- The header has the id, and the loop the members. -/
theorem stopsBeside_readFieldList (htail : AtBreak tail) (hheader : Trimmed header header')
    (hc : Beside tail c c') :
    StopsBeside tail ((readFieldList header).run c) ((readFieldList header').run c') := by
  have id_same : ∀ n n', (Field.leadingTypeId header' n').toOption =
      (Field.leadingTypeId header n).toOption := fun n n' => by
    rw [Field.toOption_leadingTypeId, Field.toOption_leadingTypeId,
      hheader.same Field.leadingToken_trimEnd]
  refine stopsBeside_bind ⟨c, c', hc, stopsAt_ofExcept (id_same _ _)⟩ fun id d d' hd => ?_
  exact stopsBeside_bind (stopsBeside_readMembers htail [] hd) fun members d d' hd =>
    ⟨d, d', hd, .ok _⟩

/-! ## Counting methods -/

/-- A line that breaks off is not followed by one with the tag of a method. -/
def WellBroken (block : List Text) : Prop :=
  block.IsChain fun l next => Field.endsInComma l = true → next.mentions methodTag = false

/-- How many lines have the tag of a method. -/
def tagCount (block : List Text) : Nat := block.countP fun l => l.mentions methodTag

/-- A line with a tag counts. -/
theorem tagCount_cons_of_tagged (h : l.mentions methodTag = true) (block : List Text) :
    tagCount (l :: block) = tagCount block + 1 :=
  List.countP_cons_of_pos h

/-- A line without a tag does not count. -/
theorem tagCount_cons_of_untagged (h : l.mentions methodTag = false) (block : List Text) :
    tagCount (l :: block) = tagCount block :=
  List.countP_cons_of_neg (ne_true_of_eq_false h)

/-- How many members are methods. -/
def methodCount (members : List Member) : Nat := members.countP fun m => m.base?.isNone

/-- Whether a text is to go on is seen from its visible end. -/
theorem endsInComma_append {t : Text} (ht : t.allBlank = false) (s : Text) :
    Field.endsInComma (s ++ t) = Field.endsInComma t := by
  have hne : t.trimEnd ≠ [] := by
    intro hnil
    rw [← allBlank_trimEnd, hnil] at ht
    cases ht
  rw [Field.endsInComma, Field.endsInComma, Text.trimEnd_append,
    if_neg (ne_true_of_eq_false ht)]
  refine Bool.eq_iff_iff.2 ?_
  rw [List.isSuffixOf_iff_suffix, List.isSuffixOf_iff_suffix]
  refine ⟨fun h => ?_, fun h => h.trans (List.suffix_append s _)⟩
  refine List.suffix_of_suffix_length_le h (List.suffix_append s _) ?_
  exact List.length_pos_iff.2 hne

/-- What has been joined breaks off where its last line does. -/
theorem endsInComma_joined (joined : Text) {next : Text} (hnext : next.allBlank = false) :
    Field.endsInComma (joined ++ ' ' :: next.trim) = Field.endsInComma next := by
  obtain ⟨indent, _, hsplit⟩ := Text.exists_append_trimStart next
  have start : next.trimStart.allBlank = false := (Text.allBlank_trimStart next).trans hnext
  have trimmed : next.trim.allBlank = false := (Text.allBlank_trim next).trans hnext
  calc Field.endsInComma (joined ++ ' ' :: next.trim)
      = Field.endsInComma ((joined ++ [' ']) ++ next.trim) := by rw [List.append_assoc]; rfl
    _ = Field.endsInComma next.trim := endsInComma_append trimmed _
    _ = Field.endsInComma next.trimStart := Field.endsInComma_trimEnd next.trimStart
    _ = Field.endsInComma next := by
      conv_rhs => rw [hsplit, endsInComma_append start]

/-- The lines that a member goes on in have no tag. -/
theorem tagCount_of_joinFrom (htail : AtBreak tail) (hblock : ∀ l ∈ block, l.allBlank = false)
    (hbroken : WellBroken block) {joined text : Text}
    (hnext : Field.endsInComma joined = true → ∀ l ∈ block.head?, l.mentions methodTag = false)
    (hread : joinFrom joined n (block ++ tail) = (.ok text, d)) :
    ∃ left, left <:+ block ∧ d.rest = left ++ tail ∧ tagCount left = tagCount block := by
  cases hj : Field.endsInComma joined with
  | false =>
    rw [joinFrom_of_complete hj] at hread
    obtain ⟨-, rfl⟩ := Prod.mk.inj hread
    exact ⟨block, List.suffix_refl block, rfl, rfl⟩
  | true =>
    induction block generalizing joined n with
    | nil =>
      obtain ⟨d', hs⟩ := joinFrom_atBreak htail hj n
      rw [List.nil_append, hs] at hread
      cases hread
    | cons l block ih =>
      obtain ⟨hvisible, hblock⟩ := List.forall_mem_cons.1 hblock
      obtain ⟨hl, hbroken⟩ := List.isChain_cons.1 hbroken
      have ending := endsInComma_joined joined hvisible
      rw [List.cons_append, joinFrom, if_pos hj, if_neg (ne_true_of_eq_false hvisible)] at hread
      rw [tagCount_cons_of_untagged (hnext hj l rfl)]
      cases hj' : Field.endsInComma (joined ++ ' ' :: l.trim) with
      | false =>
        rw [joinFrom_of_complete hj'] at hread
        obtain ⟨-, rfl⟩ := Prod.mk.inj hread
        exact ⟨block, List.suffix_cons l block, rfl, rfl⟩
      | true =>
        obtain ⟨left, hleft, hrest, hcount⟩ :=
          ih hblock hbroken (fun h m hm => hl m hm (ending ▸ hj')) hread hj'
        exact ⟨left, hleft.trans (List.suffix_cons l block), hrest, hcount⟩

/-- Reading a method off its text takes no line, and makes no base class. -/
theorem method_of_methodOf {text : Text} {m : Member}
    (h : (methodOf text).run c = (.ok m, d)) : d = c ∧ m.base? = none := by
  have stays := stays_methodOf text c c
  rw [h] at stays
  have stopped : d = c := by
    cases stays with
    | ok a => rfl
  obtain ⟨id, d₁, _, h⟩ := run_bind_eq_ok h
  obtain ⟨name, d₂, _, h⟩ := run_bind_eq_ok h
  obtain rfl := Except.ok.inj (Prod.mk.inj h).1
  exact ⟨stopped, rfl⟩

/-- A member whose first line has the tag is a method, and its other lines have no tag. -/
theorem tagCount_of_method (htail : AtBreak tail) (hblock : ∀ l ∈ block, l.allBlank = false)
    (hbroken : WellBroken (l :: block)) {m : Option Member}
    (hread : (wholeMember l >>= fun text => methodOf text >>= fun m => pure (some m)).run
      ⟨n, block ++ tail⟩ = (.ok m, d)) :
    ∃ left, left <:+ block ∧ d.rest = left ++ tail ∧ methodCount m.toList = 1 ∧
      tagCount left = tagCount block := by
  obtain ⟨hl, hbroken⟩ := List.isChain_cons.1 hbroken
  obtain ⟨text, d₁, hwhole, hread⟩ := run_bind_eq_ok hread
  obtain ⟨method, d₂, hmethod, hread⟩ := run_bind_eq_ok hread
  rw [Reading.run, wholeMember_cursor] at hwhole
  obtain ⟨hm, rfl⟩ := Prod.mk.inj hread
  obtain rfl := Except.ok.inj hm
  obtain ⟨rfl, hbase⟩ := method_of_methodOf hmethod
  have ending : Field.endsInComma (if Field.endsInComma l then l.trimEnd else l) =
      Field.endsInComma l := by
    split
    next => exact Field.endsInComma_trimEnd l
    next => rfl
  obtain ⟨left, hleft, hrest, hcount⟩ := tagCount_of_joinFrom htail hblock hbroken
    (fun hj next hnext => hl next hnext (ending ▸ hj)) hwhole
  refine ⟨left, hleft, hrest, ?_, hcount⟩
  rw [Option.toList_some, methodCount, List.countP_singleton, hbase]
  rfl

/-- Any other line stands alone, and is no method. -/
theorem stopped_of_untagged (h : l.mentions methodTag = false) {m : Option Member}
    (hread : (readMember l).run c = (.ok m, d)) : d = c ∧ methodCount m.toList = 0 := by
  have stays := stays_readMember h c c
  rw [hread] at stays
  have stopped : d = c := by
    cases stays with
    | ok a => rfl
  refine ⟨stopped, ?_⟩
  rw [readMember, h, if_neg Bool.false_ne_true] at hread
  split at hread
  next =>
    obtain ⟨id, d₁, _, hread⟩ := run_bind_eq_ok hread
    obtain rfl := Except.ok.inj (Prod.mk.inj hread).1
    rfl
  next =>
    obtain rfl := Except.ok.inj (Prod.mk.inj hread).1
    rfl

/-- A member uses up one tag if it is a method and none if it is not. -/
theorem tagCount_of_readMember (htail : AtBreak tail) (hblock : ∀ l ∈ block, l.allBlank = false)
    (hbroken : WellBroken (l :: block)) {m : Option Member}
    (hread : (readMember l).run ⟨n, block ++ tail⟩ = (.ok m, d)) :
    ∃ left, left <:+ block ∧ d.rest = left ++ tail ∧
      methodCount m.toList + tagCount left = tagCount (l :: block) := by
  cases htag : l.mentions methodTag with
  | true =>
    rw [readMember, htag, if_pos rfl] at hread
    obtain ⟨left, hleft, hrest, hone, hcount⟩ := tagCount_of_method htail hblock hbroken hread
    refine ⟨left, hleft, hrest, ?_⟩
    rw [tagCount_cons_of_tagged htag, hone, hcount, Nat.add_comm]
  | false =>
    obtain ⟨rfl, hnone⟩ := stopped_of_untagged htag hread
    refine ⟨block, List.suffix_refl block, rfl, ?_⟩
    rw [tagCount_cons_of_untagged htag, hnone, Nat.zero_add]

/-- There are as many methods as lines with their tag. -/
theorem countP_readMembers (htail : AtBreak tail) (hblock : ∀ l ∈ block, l.allBlank = false)
    (hbroken : WellBroken block) {done members : List Member} (hc : c.rest = block ++ tail)
    (hread : readMembers done c = (.ok members, d)) :
    methodCount members = methodCount done + tagCount block := by
  induction hn : block.length using Nat.strongRecOn generalizing done c block with
  | _ k ih =>
    cases block with
    | nil =>
      rw [readMembers_atBreak htail hc] at hread
      obtain ⟨hmembers, -⟩ := Prod.mk.inj hread
      obtain rfl := Except.ok.inj hmembers
      exact List.countP_reverse
    | cons l block =>
      obtain ⟨hvisible, hblock⟩ := List.forall_mem_cons.1 hblock
      have hc : c.rest = l :: (block ++ tail) := hc
      rw [readMembers_line hc hvisible] at hread
      rcases hmember : (readMember l).run ⟨c.line + 1, block ++ tail⟩ with ⟨e | m, d₁⟩
      · rw [hmember] at hread
        cases hread
      · rw [hmember] at hread
        obtain ⟨left, hleft, hrest, hcount⟩ :=
          tagCount_of_readMember htail hblock hbroken hmember
        have later := ih left.length (hn ▸ Nat.lt_succ_of_le hleft.length_le)
          (fun l hl => hblock l (hleft.subset hl))
          (hbroken.suffix (hleft.trans (List.suffix_cons l block))) hrest hread rfl
        rw [later, ← hcount, methodCount, methodCount, methodCount, List.countP_append]
        omega

/-- A line that is to go on does so after it has lost white space, in a line that has no tag still.
-/
theorem WellBroken.trimmed (h : List.Forall₂ Trimmed block block') (hbroken : WellBroken block) :
    WellBroken block' := by
  induction h with
  | nil => exact .nil
  | @cons l l' block block' hl h ih =>
    obtain ⟨hnext, hbroken⟩ := List.isChain_cons.1 hbroken
    refine List.isChain_cons.2 ⟨fun next' hnext' hends => ?_, ih hbroken⟩
    cases h with
    | nil => cases hnext'
    | @cons next _ _ _ htrimmed _ =>
      obtain rfl := Option.some.inj hnext'
      have same : Field.endsInComma l' = Field.endsInComma l := hl.same Field.endsInComma_trimEnd
      exact htrimmed.untagged (hnext next rfl (same ▸ hends))

/-- Tags may be lost and are not won. -/
theorem tagCount_le (h : List.Forall₂ Trimmed block block') :
    tagCount block' ≤ tagCount block := by
  induction h with
  | nil => exact Nat.le_refl 0
  | @cons l l' block block' hl _ ih =>
    cases htag : l'.mentions methodTag with
    | false =>
      rw [tagCount_cons_of_untagged htag]
      exact ih.trans (List.sublist_cons_self l block).countP_le
    | true =>
      rw [tagCount_cons_of_tagged htag, tagCount_cons_of_tagged (hl.mentions_methodTag htag)]
      exact Nat.succ_le_succ ih

/-- If as many lines have a tag as before, each line has kept its own. -/
theorem forall₂_kept_of_tagCount (h : List.Forall₂ Trimmed block block')
    (hcount : tagCount block = tagCount block') : List.Forall₂ Kept block block' := by
  induction h with
  | nil => exact .nil
  | @cons l l' block block' hl h ih =>
    cases htag : l.mentions methodTag with
    | false =>
      have htag' := hl.untagged htag
      rw [tagCount_cons_of_untagged htag, tagCount_cons_of_untagged htag'] at hcount
      exact .cons ⟨hl, htag'.trans htag.symm⟩ (ih hcount)
    | true =>
      cases htag' : l'.mentions methodTag with
      | false =>
        -- The lines behind this one cannot make up for its tag.
        have fewer := tagCount_le h
        rw [tagCount_cons_of_tagged htag, tagCount_cons_of_untagged htag'] at hcount
        omega
      | true =>
        rw [tagCount_cons_of_tagged htag, tagCount_cons_of_tagged htag'] at hcount
        exact .cons ⟨hl, htag'.trans htag.symm⟩ (ih (Nat.succ.inj hcount))

/-- The methods of a field list are counted by the tags of its lines. -/
theorem tagCount_of_readFieldList (htail : AtBreak tail)
    (hblock : ∀ l ∈ block, l.allBlank = false) (hbroken : WellBroken block)
    {result : Option FieldList}
    (h : ((readFieldList header).run ⟨n, block ++ tail⟩).1 = .ok result) :
    tagCount block = methodCount (result.elim [] FieldList.members) := by
  have hread : (readFieldList header).run ⟨n, block ++ tail⟩ =
      (.ok result, ((readFieldList header).run ⟨n, block ++ tail⟩).2) := Prod.ext h rfl
  obtain ⟨id, c, hid, hlist⟩ := run_bind_eq_ok hread
  obtain ⟨members, d, hmembers, hresult⟩ := run_bind_eq_ok hlist
  have place : c = ⟨n, block ++ tail⟩ := (congrArg Prod.snd hid).symm
  rw [place] at hmembers
  obtain rfl := Except.ok.inj (Prod.mk.inj hresult).1
  have counted : methodCount members = methodCount [] + tagCount block :=
    countP_readMembers htail hblock hbroken rfl hmembers
  have none_yet : methodCount [] = 0 := rfl
  rw [none_yet, Nat.zero_add] at counted
  rw [← counted]
  cases members <;> rfl

/-! ## The field list -/

/-- A run of visible lines stays one. -/
theorem isRun_trimmed (h : List.Forall₂ Trimmed block block') (hblock : TypeTable.IsRun block) :
    TypeTable.IsRun block' := by
  induction h with
  | nil => exact hblock
  | @cons l l' block block' hl _ ih =>
    obtain ⟨⟨hvisible, hbanner⟩, hblock⟩ := List.forall_mem_cons.1 hblock
    refine List.forall_mem_cons.2 ⟨⟨(hl.same allBlank_trimEnd).trans hvisible, ?_⟩, ih hblock⟩
    rw [Dump.isBanner, ← Bool.not_eq_true, List.isPrefixOf_iff_prefix] at hbanner ⊢
    exact fun hstart => hbanner (hstart.trans hl.isPrefix)

/-- The field list with this header is read from these lines, or nothing of interest. -/
def ReadsList (header : Text) (n : Nat) (lines : List Text) (result : Option FieldList) : Prop :=
  ((readFieldList header).run ⟨n, Dump.untilBanner lines⟩).1 = .ok result

/-- When white space that is lost at the ends of lines changes nothing in a field list.

* The same is read if every line that had the tag of a method still has it.
* If a line that breaks off is never followed by one with a tag, the same is read only then.
* A tag is lost only in a line that ends right behind it. -/
theorem readFieldList_trimmed (hheader : Trimmed header header')
    (h : List.Forall₂ Trimmed block block') (hblock : TypeTable.IsRun block)
    (htail : RecordEnds tail) (n : Nat) :
    (List.Forall₂ Kept block block' → ∀ result,
      ReadsList header' n (block' ++ tail) result ↔ ReadsList header n (block ++ tail) result) ∧
    (WellBroken block → ∀ result, ReadsList header n (block ++ tail) result →
      (ReadsList header' n (block' ++ tail) result ↔ List.Forall₂ Kept block block')) ∧
    ∀ l l', Trimmed l l' → Kept l l' ∨ methodTag.trimEnd <:+ l' := by
  have hblock' := isRun_trimmed h hblock
  have visible : ∀ l ∈ block, l.allBlank = false := fun l hl => (hblock l hl).1
  have visible' : ∀ l ∈ block', l.allBlank = false := fun l hl => (hblock' l hl).1
  have lines : Dump.untilBanner (block ++ tail) = block ++ Dump.untilBanner tail :=
    Dump.untilBanner_append (fun l hl => (hblock l hl).2) tail
  have lines' : Dump.untilBanner (block' ++ tail) = block' ++ Dump.untilBanner tail :=
    Dump.untilBanner_append (fun l hl => (hblock' l hl).2) tail
  have same : List.Forall₂ Kept block block' → ∀ result,
      ReadsList header' n (block' ++ tail) result ↔ ReadsList header n (block ++ tail) result := by
    intro hkept result
    have beside : Beside (Dump.untilBanner tail) ⟨n, block ++ Dump.untilBanner tail⟩
        ⟨n, block' ++ Dump.untilBanner tail⟩ := ⟨block, block', hkept, visible, rfl, rfl⟩
    obtain ⟨d, d', _, hstops⟩ := stopsBeside_readFieldList htail.atBreak hheader beside
    rw [ReadsList, ReadsList, lines, lines']
    exact hstops.ok_iff result
  refine ⟨same, fun hbroken result hread => ⟨fun hread' => ?_, fun hkept => ?_⟩,
    fun l l' => kept_or_endsInTag⟩
  · rw [ReadsList, lines] at hread
    rw [ReadsList, lines'] at hread'
    refine forall₂_kept_of_tagCount h ?_
    rw [tagCount_of_readFieldList htail.atBreak visible hbroken hread,
      tagCount_of_readFieldList htail.atBreak visible' (hbroken.trimmed h) hread']
  · exact (same hkept result).2 hread

/-- The first line of a field list. -/
def listHeader : Text := "0x1002 : Length = 58, Leaf = 0x1203 LF_FIELDLIST".toList

/-- A base class, and a static method that is broken off behind its flag. -/
def brokenFlag : List Text := [
  "\tlist[0] = LF_BCLASS, public, type = 0x1001, offset = 0 ".toList,
  "\tlist[1] = LF_ONEMETHOD, public, STATIC, ".toList,
  "\t\tindex = 0x1010, name = 'A' ".toList]

/-- It is the same without the white space. -/
theorem readFieldList_trimmed_brokenFlag :
    Trimmed listHeader listHeader ∧
    List.Forall₂ Trimmed brokenFlag (brokenFlag.map Text.trimEnd) ∧
    TypeTable.IsRun brokenFlag ∧ RecordEnds [] ∧
    List.Forall₂ Kept brokenFlag (brokenFlag.map Text.trimEnd) ∧ WellBroken brokenFlag ∧
    ReadsList listHeader 3 (brokenFlag.map Text.trimEnd ++ [])
      (some ⟨⟨0x1002⟩, [.base ⟨0x1001⟩, .method "A".toList ⟨0x1010⟩ true]⟩) := by
  have trimmed : List.Forall₂ Trimmed brokenFlag (brokenFlag.map Text.trimEnd) :=
    .cons (.inr rfl) (.cons (.inr rfl) (.cons (.inr rfl) .nil))
  have kept : List.Forall₂ Kept brokenFlag (brokenFlag.map Text.trimEnd) :=
    .cons ⟨.inr rfl, by decide +kernel⟩
      (.cons ⟨.inr rfl, by decide +kernel⟩ (.cons ⟨.inr rfl, by decide +kernel⟩ .nil))
  have run : TypeTable.IsRun brokenFlag := by
    unfold TypeTable.IsRun
    decide +kernel
  have broken : WellBroken brokenFlag := by
    unfold WellBroken
    decide +kernel
  have read : ReadsList listHeader 3 (brokenFlag ++ [])
      (some ⟨⟨0x1002⟩, [.base ⟨0x1001⟩, .method "A".toList ⟨0x1010⟩ true]⟩) := by
    unfold ReadsList
    decide +kernel
  have ends : RecordEnds [] := nofun
  obtain ⟨same, _, _⟩ := readFieldList_trimmed (.inl rfl) trimmed run ends 3
  exact ⟨.inl rfl, trimmed, run, ends, kept, broken, (same kept _).2 read⟩

/-- A method that is broken off right behind its tag. -/
def brokenTag : List Text := [
  "\tlist[0] = LF_ONEMETHOD, ".toList,
  "\t\tpublic, VANILLA, index = 0x1010, name = 'A'".toList]

/-- Without the space behind the tag it is dropped, and with it the list. -/
theorem not_readFieldList_trimmed_brokenTag :
    List.Forall₂ Trimmed brokenTag (brokenTag.map Text.trimEnd) ∧
    TypeTable.IsRun brokenTag ∧ RecordEnds [] ∧
    ReadsList listHeader 3 (brokenTag ++ [])
      (some ⟨⟨0x1002⟩, [.method "A".toList ⟨0x1010⟩ false]⟩) ∧
    ReadsList listHeader 3 (brokenTag.map Text.trimEnd ++ []) none ∧
    ¬ ∀ result, ReadsList listHeader 3 (brokenTag.map Text.trimEnd ++ []) result ↔
      ReadsList listHeader 3 (brokenTag ++ []) result := by
  have run : TypeTable.IsRun brokenTag := by
    unfold TypeTable.IsRun
    decide +kernel
  have read : ReadsList listHeader 3 (brokenTag ++ [])
      (some ⟨⟨0x1002⟩, [.method "A".toList ⟨0x1010⟩ false]⟩) := by
    unfold ReadsList
    decide +kernel
  have dropped : ReadsList listHeader 3 (brokenTag.map Text.trimEnd ++ []) none := by
    unfold ReadsList
    decide +kernel
  refine ⟨.cons (.inr rfl) (.cons (.inr rfl) .nil), run, nofun, read, dropped, fun same => ?_⟩
  have both : (Except.ok none : Except Fault (Option FieldList)) = .ok (some _) :=
    dropped.symm.trans ((same _).2 read)
  cases both

end Record
end Lineage
