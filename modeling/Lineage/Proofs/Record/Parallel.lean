import Lineage.Proofs.Record.Sources

/-!
# Reading a record in two places

What a reader finds in a record is decided by the lines of the record. It does not matter where in a
dump they stand, nor what comes after the blank line that ends them.

To say so, two cursors stand `Abreast` if they have the same lines of a record before them; what
follows the record, `tail` and `tail'`, may differ. Readers are `Alike` if from cursors abreast
they give the same answer and leave them abreast, or both refuse. Their faults are the same
up to line numbers, unless one section ends with the record and the other does not: a class
record that breaks off is then truncated in one, and lacks something in the other.

Readers are put together from few parts, and `Alike` is kept by each of them.

Main result: `Record.alike_read`.
-/

namespace Lineage

/-! ## Faults without their place -/

/-- The fault without the number of the line that it was found on. -/
def Fault.unplaced : Fault → Fault
  | .unexpected marker _ line => .unexpected marker 0 line
  | .truncated kind _ => .truncated kind 0
  | e => e

/-- The outcome, where a fault is taken without the number of its line. -/
def unplaced {α : Type} : Except Fault α → Except Fault α
  | .ok a => .ok a
  | .error e => .error e.unplaced

/-- An answer has no line number to leave out. -/
theorem unplaced_eq_ok_iff {α : Type} {x : Except Fault α} {a : α} :
    unplaced x = .ok a ↔ x = .ok a := by
  cases x <;> simp [unplaced]

/-- Outcomes that are the same up to line numbers. -/
theorem unplaced_eq_iff {α : Type} {x y : Except Fault α} :
    unplaced x = unplaced y ↔ (∃ a, x = .ok a ∧ y = .ok a) ∨
      ∃ e e', x = .error e ∧ y = .error e' ∧ e.unplaced = e'.unplaced := by
  cases x <;> cases y <;> simp [unplaced, eq_comm]

/-- Going on from the same answer gives the same, up to line numbers. -/
theorem unplaced_bind {α β : Type} {x y : Except Fault α} {f g : α → Except Fault β}
    (h : unplaced x = unplaced y) (hf : ∀ a, unplaced (f a) = unplaced (g a)) :
    unplaced (x >>= f) = unplaced (y >>= g) := by
  rcases unplaced_eq_iff.1 h with ⟨a, rfl, rfl⟩ | ⟨e, e', rfl, rfl, he⟩
  · exact hf a
  · exact congrArg Except.error he

/-! ## Cursors abreast -/

/-- The record is over: the section ends here or a blank line follows. -/
def AtBreak (rest : List Text) : Prop := ∀ l ∈ rest.head?, l.allBlank = true

/-- Two cursors that have the same lines of a record before them, and then different tails. -/
def Abreast (tail tail' : List Text) (c c' : Cursor) : Prop :=
  ∃ block : List Text, (∀ l ∈ block, l.allBlank = false) ∧
    c.rest = block ++ tail ∧ c'.rest = block ++ tail'

/-- Two outcomes of reading from cursors that stood abreast. -/
inductive SameOutcome {α : Type} (tail tail' : List Text) :
    Except Fault α × Cursor → Except Fault α × Cursor → Prop
  | ok {a : α} {d d' : Cursor} (h : Abreast tail tail' d d') :
    SameOutcome tail tail' (.ok a, d) (.ok a, d')
  | error {e e' : Fault} {d d' : Cursor}
    (h : tail.isEmpty = tail'.isEmpty → e.unplaced = e'.unplaced) :
    SameOutcome tail tail' (.error e, d) (.error e', d')

/-- Readers that cannot tell cursors abreast from each other. -/
def Alike {α : Type} (tail tail' : List Text) (x y : Reading Cursor α) : Prop :=
  ∀ c c', Abreast tail tail' c c' → SameOutcome tail tail' (x.run c) (y.run c')

section Closure

variable {α β : Type} {tail tail' : List Text}

theorem alike_pure (a : α) : Alike tail tail' (pure a) (pure a) :=
  fun _ _ h => .ok h

/-- Readers that are alike leave their cursors abreast, so the next ones start as they ask. -/
theorem alike_bind {x y : Reading Cursor α} {f g : α → Reading Cursor β} (hx : Alike tail tail' x y)
    (hf : ∀ a, Alike tail tail' (f a) (g a)) : Alike tail tail' (x >>= f) (y >>= g) := by
  intro c c' h
  have hxy := hx c c' h
  rw [Reading.run_bind, Reading.run_bind]
  generalize x.run c = r at hxy
  generalize y.run c' = r' at hxy
  cases hxy with
  | ok hd => exact hf _ _ _ hd
  | error he => exact .error he

/-- The number of the current line goes into faults only. -/
theorem alike_ofExcept {f g : Nat → Except Fault α}
    (h : ∀ n n', unplaced (f n) = unplaced (g n')) :
    Alike tail tail' (.ofExcept f) (.ofExcept g) := by
  intro c c' hc
  show SameOutcome tail tail' (f c.line, c) (g c'.line, c')
  rcases unplaced_eq_iff.1 (h c.line c'.line) with ⟨a, hf, hg⟩ | ⟨e, e', hf, hg, he⟩
  · rw [hf, hg]
    exact .ok hc
  · rw [hf, hg]
    exact .error fun _ => he

theorem alike_expect (value : Option α) (marker line : Text) :
    Alike tail tail' (.expect value marker line) (.expect value marker line) := by
  intro c c' hc
  cases value with
  | some a => exact .ok hc
  | none => exact .error fun _ => rfl

/-- The number of a line may go into faults only. -/
theorem alike_lineNumber_bind {f g : Nat → Reading Cursor α}
    (h : ∀ n n', Alike tail tail' (f n) (g n')) :
    Alike tail tail' (.lineNumber >>= f) (.lineNumber >>= g) :=
  fun c c' hc => h c.line c'.line c c' hc

/-- The next line of a record is the same for both. -/
theorem abreast_advance {c c' : Cursor} {l : Text} {block : List Text}
    (hblock : ∀ m ∈ l :: block, m.allBlank = false) (hc : c.rest = l :: block ++ tail)
    (hc' : c'.rest = l :: block ++ tail') :
    c.peek? = some l ∧ c'.peek? = some l ∧ Abreast tail tail' c.advance c'.advance := by
  obtain ⟨n, rest⟩ := c
  obtain ⟨n', rest'⟩ := c'
  obtain rfl : rest = l :: block ++ tail := hc
  obtain rfl : rest' = l :: block ++ tail' := hc'
  exact ⟨rfl, rfl, block, fun m hm => hblock m (List.mem_cons_of_mem l hm), rfl, rfl⟩

/-- A record that is over shows no line, or a blank one. -/
theorem AtBreak.peek? {c : Cursor} (h : AtBreak tail) (hc : c.rest = tail) :
    (tail.isEmpty = true ∧ c.peek? = none) ∨
      (tail.isEmpty = false ∧ ∃ l, c.peek? = some l ∧ l.allBlank = true) := by
  rw [Cursor.peek?, hc]
  cases tail with
  | nil => exact .inl ⟨rfl, rfl⟩
  | cons l rest => exact .inr ⟨rfl, l, rfl, h l rfl⟩

end Closure

namespace Field

variable {line introducer : Text}

/-- An id is found on its line wherever the line stands. -/
theorem unplaced_typeIdAfter (n n' : Nat) :
    unplaced (typeIdAfter line introducer n) = unplaced (typeIdAfter line introducer n') := by
  unfold typeIdAfter
  split <;> rfl

theorem unplaced_leadingTypeId (n n' : Nat) :
    unplaced (leadingTypeId line n) = unplaced (leadingTypeId line n') := by
  unfold leadingTypeId
  split <;> rfl

end Field

namespace Record

variable {tail tail' block : List Text}

/-! ## Class records -/

/-- A class record that is over lacks whatever is still sought. -/
theorem seekFrom_atBreak (h : AtBreak tail) (phrase header : Text) (n : Nat) :
    ∃ e d, seekFrom phrase header n tail = (.error e, d) ∧
      e.unplaced = if tail.isEmpty then .truncated .classType 0
        else .unexpected phrase 0 header.trim := by
  cases tail with
  | nil => exact ⟨_, _, rfl, rfl⟩
  | cons l rest =>
    rw [seekFrom, if_pos (h l rfl)]
    exact ⟨_, _, rfl, rfl⟩

/-- While lines of the record are left both searches see the same ones. At the break both refuse. -/
theorem sameOutcome_seekFrom (h : AtBreak tail) (h' : AtBreak tail') (phrase header : Text)
    (hblock : ∀ l ∈ block, l.allBlank = false) (n n' : Nat) :
    SameOutcome tail tail' (seekFrom phrase header n (block ++ tail))
      (seekFrom phrase header n' (block ++ tail')) := by
  induction block generalizing n n' with
  | nil =>
    obtain ⟨e, d, hs, he⟩ := seekFrom_atBreak h phrase header n
    obtain ⟨e', d', hs', he'⟩ := seekFrom_atBreak h' phrase header n'
    rw [List.nil_append, List.nil_append, hs, hs']
    exact .error fun hempty => by rw [he, he', hempty]
  | cons l block ih =>
    have hvisible := ne_true_of_eq_false (hblock l List.mem_cons_self)
    have hrest : ∀ m ∈ block, m.allBlank = false := fun m hm => hblock m (List.mem_cons_of_mem l hm)
    rw [List.cons_append, List.cons_append, seekFrom, seekFrom, if_neg hvisible, if_neg hvisible]
    split
    next => exact .ok ⟨block, hrest, rfl, rfl⟩
    next => exact ih hrest (n + 1) (n' + 1)

/-- Looking for a line of the record. -/
theorem alike_lineWith (h : AtBreak tail) (h' : AtBreak tail') (phrase header current : Text) :
    Alike tail tail' (lineWith phrase header current) (lineWith phrase header current) := by
  intro c c' hc
  rw [Reading.run, Reading.run, lineWith_cursor, lineWith_cursor]
  split
  next => exact .ok hc
  next =>
    obtain ⟨block, hblock, hrest, hrest'⟩ := hc
    rw [hrest, hrest']
    exact sameOutcome_seekFrom h h' phrase header hblock c.line c'.line

theorem alike_fieldListId (isForward : Bool) (second : Text) :
    Alike tail tail' (fieldListId isForward second) (fieldListId isForward second) := by
  unfold fieldListId
  split
  next => exact alike_pure _
  next => exact alike_bind (alike_ofExcept Field.unplaced_typeIdAfter) fun _ => alike_pure _

/-- Visible phrases do not stand on a blank line. -/
theorem mentions_eq_false_of_allBlank {line phrase : Text} (h : line.allBlank = true)
    (hphrase : phrase.allBlank = false) : line.mentions phrase = false := by
  cases hm : line.mentions phrase with
  | false => rfl
  | true =>
    obtain ⟨before, rest, rfl⟩ := Text.mentions_iff.1 hm
    rw [Text.allBlank, List.all_append, List.all_append, Bool.and_eq_true, Bool.and_eq_true] at h
    rw [Text.allBlank, h.1.2] at hphrase
    cases hphrase

/-- At the end of a record no wrapped name is found. -/
theorem filter_peek?_atBreak {c : Cursor} (h : AtBreak tail) (hc : c.rest = tail) :
    (c.peek?.filter fun l => l.mentions uniqueNameIntro) = none := by
  rcases h.peek? hc with ⟨_, hp⟩ | ⟨_, l, hp, hl⟩
  · rw [hp]
    rfl
  · have hno : l.mentions uniqueNameIntro = false :=
      mentions_eq_false_of_allBlank hl (by decide)
    rw [hp, Option.filter_some, if_neg (ne_true_of_eq_false hno)]

/-- The name may stand on the next line. If this is no line of the record, it is blank or missing,
and neither has the name. -/
theorem alike_uniqueName (h : AtBreak tail) (h' : AtBreak tail') (line : Text) :
    Alike tail tail' (uniqueName line) (uniqueName line) := by
  unfold uniqueName
  split
  next => exact alike_pure _
  next =>
    intro c c' hc
    obtain ⟨block, hblock, hrest, hrest'⟩ := hc
    -- Both see the same next line, or neither sees one with the name.
    show SameOutcome tail tail'
      ((.expect (c.peek?.filter fun l => l.mentions uniqueNameIntro) uniqueNameIntro line >>=
        fun next => .next? >>= fun _ => pure ((Field.textAfter? next uniqueNameIntro).getD []) :
        Reading Cursor Text).run c)
      ((.expect (c'.peek?.filter fun l => l.mentions uniqueNameIntro) uniqueNameIntro line >>=
        fun next => .next? >>= fun _ => pure ((Field.textAfter? next uniqueNameIntro).getD []) :
        Reading Cursor Text).run c')
    cases block with
    | nil =>
      rw [filter_peek?_atBreak h hrest, filter_peek?_atBreak h' hrest']
      exact .error fun _ => rfl
    | cons l block =>
      obtain ⟨hp, hp', hadvance⟩ := abreast_advance hblock hrest hrest'
      rw [hp, hp', Option.filter_some]
      split
      next => exact .ok hadvance
      next => exact .error fun _ => rfl

/-- A class is read by parts that are alike, one after the other. -/
theorem alike_readClass (h : AtBreak tail) (h' : AtBreak tail') (header : Text) :
    Alike tail tail' (readClass header) (readClass header) := by
  refine alike_bind (alike_ofExcept Field.unplaced_leadingTypeId) fun id => ?_
  intro c c' hc
  obtain ⟨block, hblock, hrest, hrest'⟩ := hc
  rw [Reading.run_bind, Reading.run_bind]
  show SameOutcome tail tail' (Reading.run _ c.advance) (Reading.run _ c'.advance)
  rw [Cursor.source_peek?, Cursor.source_peek?]
  cases block with
  | nil =>
    rcases h.peek? hrest with ⟨he, hp⟩ | ⟨he, l, hp, hl⟩ <;>
      rcases h'.peek? hrest' with ⟨he', hp'⟩ | ⟨he', l', hp', hl'⟩
    · rw [hp, hp']
      exact .error fun _ => rfl
    · rw [hp, hp']
      dsimp only
      rw [if_pos hl']
      exact .error fun e => by rw [he, he'] at e; cases e
    · rw [hp, hp']
      dsimp only
      rw [if_pos hl]
      exact .error fun e => by rw [he, he'] at e; cases e
    · rw [hp, hp']
      dsimp only
      rw [if_pos hl, if_pos hl']
      exact .error fun _ => rfl
  | cons l block =>
    obtain ⟨hp, hp', hadvance⟩ := abreast_advance hblock hrest hrest'
    have hvisible := ne_true_of_eq_false (hblock l List.mem_cons_self)
    rw [hp, hp']
    dsimp only
    rw [if_neg hvisible]
    refine alike_bind (alike_fieldListId _ _) (fun _ => ?_) _ _ hadvance
    refine alike_bind (alike_lineWith h h' _ _ _) fun _ => ?_
    refine alike_bind (alike_expect _ _ _) fun _ => ?_
    refine alike_bind (alike_uniqueName h h' _) fun _ => ?_
    exact alike_bind (alike_expect _ _ _) fun _ => alike_pure _

/-! ## Field lists -/

/-- A line that does not end in a comma is joined with nothing. -/
theorem joinFrom_of_complete {joined : Text} (h : Field.endsInComma joined = false) (n : Nat)
    (rest : List Text) : joinFrom joined n rest = (.ok joined, ⟨n, rest⟩) := by
  cases rest with
  | nil => rw [joinFrom, h]; rfl
  | cons l rest => rw [joinFrom, h]; rfl

/-- A member that is to go on in a record that is over is cut short. -/
theorem joinFrom_atBreak (h : AtBreak tail) {joined : Text} (hj : Field.endsInComma joined = true)
    (n : Nat) : ∃ d, joinFrom joined n tail = (.error (cutShort .fieldList n), d) := by
  cases tail with
  | nil =>
    rw [joinFrom, if_pos hj]
    exact ⟨_, rfl⟩
  | cons l rest =>
    rw [joinFrom, if_pos hj, if_pos (h l rfl)]
    exact ⟨_, rfl⟩

/-- While lines of the record are left both loops join the same ones. At the break both refuse. -/
theorem sameOutcome_joinFrom (h : AtBreak tail) (h' : AtBreak tail') (joined : Text)
    (hblock : ∀ l ∈ block, l.allBlank = false) (n n' : Nat) :
    SameOutcome tail tail' (joinFrom joined n (block ++ tail))
      (joinFrom joined n' (block ++ tail')) := by
  induction block generalizing joined n n' with
  | nil =>
    cases hj : Field.endsInComma joined with
    | false =>
      rw [joinFrom_of_complete hj, joinFrom_of_complete hj]
      exact .ok ⟨[], hblock, rfl, rfl⟩
    | true =>
      obtain ⟨d, hs⟩ := joinFrom_atBreak h hj n
      obtain ⟨d', hs'⟩ := joinFrom_atBreak h' hj n'
      rw [List.nil_append, List.nil_append, hs, hs']
      exact .error fun _ => rfl
  | cons l block ih =>
    cases hj : Field.endsInComma joined with
    | false =>
      rw [joinFrom_of_complete hj, joinFrom_of_complete hj]
      exact .ok ⟨l :: block, hblock, rfl, rfl⟩
    | true =>
      have hvisible := ne_true_of_eq_false (hblock l List.mem_cons_self)
      rw [List.cons_append, List.cons_append, joinFrom, joinFrom, if_pos hj, if_pos hj,
        if_neg hvisible, if_neg hvisible]
      exact ih _ (fun m hm => hblock m (List.mem_cons_of_mem l hm)) (n + 1) (n' + 1)

theorem alike_wholeMember (h : AtBreak tail) (h' : AtBreak tail') (first : Text) :
    Alike tail tail' (wholeMember first) (wholeMember first) := by
  intro c c' hc
  obtain ⟨block, hblock, hrest, hrest'⟩ := hc
  rw [Reading.run, Reading.run, wholeMember_cursor, wholeMember_cursor, hrest, hrest']
  exact sameOutcome_joinFrom h h' _ hblock c.line c'.line

/-- A member takes as many lines in both places. -/
theorem alike_readMember (h : AtBreak tail) (h' : AtBreak tail') (line : Text) :
    Alike tail tail' (readMember line) (readMember line) := by
  unfold readMember
  split
  next =>
    refine alike_bind (alike_wholeMember h h' line) fun text => ?_
    refine alike_bind ?_ fun _ => alike_pure _
    refine alike_bind (alike_ofExcept Field.unplaced_typeIdAfter) fun _ => ?_
    exact alike_bind (alike_expect _ _ _) fun _ => alike_pure _
  next =>
    split
    next => exact alike_bind (alike_ofExcept Field.unplaced_typeIdAfter) fun _ => alike_pure _
    next => exact alike_pure _

/-- At the end of a record the members are complete. -/
theorem readMembers_atBreak {c : Cursor} (h : AtBreak tail) (hc : c.rest = tail)
    (done : List Member) : readMembers done c = (.ok done.reverse, c) := by
  unfold readMembers
  split
  next => rfl
  next l hl => rw [if_pos (h l (hc ▸ hl))]

/-- One turn of the loop over members. -/
theorem readMembers_line {c : Cursor} {l : Text} {rest : List Text} (hc : c.rest = l :: rest)
    (hvisible : l.allBlank = false) (done : List Member) :
    readMembers done c = match (readMember l).run ⟨c.line + 1, rest⟩ with
      | (.error e, d) => (.error e, d)
      | (.ok m, d) => readMembers (m.toList ++ done) d := by
  obtain ⟨n, lines⟩ := c
  obtain rfl : lines = l :: rest := hc
  rw [readMembers]
  split
  next hnone => cases hnone
  next l' hl =>
    obtain rfl : l = l' := Option.some.inj hl
    rw [hvisible, if_neg Bool.false_ne_true]
    split <;>
      (next hm =>
        have hm : (readMember l).run ⟨n + 1, rest⟩ = _ := hm
        rw [hm])

/-- The loop over members, by induction on the lines of the record that are left. -/
theorem alike_readMembers (h : AtBreak tail) (h' : AtBreak tail') (done : List Member) :
    Alike tail tail' (readMembers done) (readMembers done) := by
  intro c c' hc
  -- Every member uses up at least its first line.
  induction hn : c.rest.length using Nat.strongRecOn generalizing done c c' with
  | _ n ih =>
    obtain ⟨block, hblock, hrest, hrest'⟩ := hc
    show SameOutcome tail tail' (readMembers done c) (readMembers done c')
    cases block with
    | nil =>
      rw [readMembers_atBreak h hrest, readMembers_atBreak h' hrest']
      exact .ok ⟨[], hblock, hrest, hrest'⟩
    | cons l block =>
      have hvisible := hblock l List.mem_cons_self
      have hmember := alike_readMember h h' l ⟨c.line + 1, block ++ tail⟩
        ⟨c'.line + 1, block ++ tail'⟩
        ⟨block, fun m hm => hblock m (List.mem_cons_of_mem l hm), rfl, rfl⟩
      have hforward := (before_readMember l ⟨c.line + 1, block ++ tail⟩).length_le
      rw [readMembers_line hrest hvisible, readMembers_line hrest' hvisible]
      generalize (readMember l).run ⟨c.line + 1, block ++ tail⟩ = r at hmember hforward
      generalize (readMember l).run ⟨c'.line + 1, block ++ tail'⟩ = r' at hmember
      cases hmember with
      | error he => exact .error he
      | ok hd =>
        refine ih _ ?_ _ _ _ hd rfl
        rw [← hn, hrest]
        exact Nat.lt_succ_of_le hforward

/-- A field list, with whatever members the loop finds. -/
theorem alike_readFieldList (h : AtBreak tail) (h' : AtBreak tail') (header : Text) :
    Alike tail tail' (readFieldList header) (readFieldList header) := by
  refine alike_bind (alike_ofExcept Field.unplaced_leadingTypeId) fun _ => ?_
  exact alike_bind (alike_readMembers h h' []) fun _ => alike_pure _

/-! ## Member functions -/

/-- A line of a signature is read wherever it stands. -/
theorem unplaced_signatureRead (s : Signature) (line : Text) (n n' : Nat) :
    unplaced (s.read line n) = unplaced (s.read line n') := by
  unfold Signature.read
  dsimp only
  by_cases h : line.mentions ownerIntro = true
  · rw [if_pos h, if_pos h]
    refine unplaced_bind ?_ fun _ => rfl
    exact unplaced_bind (Field.unplaced_typeIdAfter n n') fun _ => rfl
  · rw [if_neg h, if_neg h]

/-- At the end of a record the signature is complete. -/
theorem signatureFrom_atBreak (h : AtBreak tail) (s : Signature) (n : Nat) :
    signatureFrom s n tail = (.ok s, ⟨n, tail⟩) := by
  cases tail with
  | nil => rfl
  | cons l rest => rw [signatureFrom, if_pos (h l rfl)]

/-- A signature ends where the record ends, in both places. -/
theorem sameOutcome_signatureFrom (h : AtBreak tail) (h' : AtBreak tail') (s : Signature)
    (hblock : ∀ l ∈ block, l.allBlank = false) (n n' : Nat) :
    SameOutcome tail tail' (signatureFrom s n (block ++ tail))
      (signatureFrom s n' (block ++ tail')) := by
  induction block generalizing s n n' with
  | nil =>
    rw [List.nil_append, List.nil_append, signatureFrom_atBreak h, signatureFrom_atBreak h']
    exact .ok ⟨[], hblock, rfl, rfl⟩
  | cons l block ih =>
    have hvisible := ne_true_of_eq_false (hblock l List.mem_cons_self)
    rw [List.cons_append, List.cons_append, signatureFrom, signatureFrom, if_neg hvisible,
      if_neg hvisible]
    rcases unplaced_eq_iff.1 (unplaced_signatureRead s l (n + 1) (n' + 1)) with
      ⟨s', hs, hs'⟩ | ⟨e, e', hs, hs', he⟩
    · rw [hs, hs']
      exact ih s' (fun m hm => hblock m (List.mem_cons_of_mem l hm)) (n + 1) (n' + 1)
    · rw [hs, hs']
      exact .error fun _ => he

/-- A member function is refused for want of an owner in both places. The line in that fault is the
only difference. -/
theorem alike_readMemberFunction (h : AtBreak tail) (h' : AtBreak tail') (header : Text) :
    Alike tail tail' (readMemberFunction header) (readMemberFunction header) := by
  refine alike_lineNumber_bind fun n n' => ?_
  refine alike_bind (alike_ofExcept Field.unplaced_leadingTypeId) fun id => ?_
  refine alike_bind ?_ fun s => ?_
  · intro c c' hc
    obtain ⟨block, hblock, hrest, hrest'⟩ := hc
    rw [Reading.run, Reading.run, readSignature_cursor, readSignature_cursor, hrest, hrest']
    exact sameOutcome_signatureFrom h h' _ hblock c.line c'.line
  · refine alike_bind (alike_ofExcept fun _ _ => ?_) fun _ => alike_pure _
    cases s.owner <;> rfl

/-! ## Any record -/

/-- Reading a record gives the same wherever the record stands and whatever follows it. -/
theorem alike_read (h : AtBreak tail) (h' : AtBreak tail') (header : Text) :
    Alike tail tail' (read header) (read header) := by
  unfold read
  split
  next => exact alike_bind (alike_readClass h h' header) fun _ => alike_pure _
  next => exact alike_bind (alike_readFieldList h h' header) fun _ => alike_pure _
  next => exact alike_bind (alike_readMemberFunction h h' header) fun _ => alike_pure _
  all_goals exact alike_pure _

end Record
end Lineage
