import Lineage.Proofs.Record.Parallel

/-!
# Faults point into their record

A fault of the grammar carries the number of a line. The readers get it in different ways: from the
line that was just read, from one that was read a while ago, from a blank line that shows that the
record is over, or, where the section is over as well, from the line that would come next. All of
these lie between the first line of the record and the line after its last.

A cursor is `Inside` a record with lines `first` to `last` if it has read at least the first of them
and only the rest of them is left before the tail. A reader is `Confined` if from there it either
stops inside the same record or with a fault that points into it. Since both bounds are those of the
record and not of the cursor, `Confined` is closed under reading on.

Main result: `Record.confined_read`.
-/

namespace Lineage

/-! ## Places of faults -/

/-- The number of the line that a fault points to, if it points to one. -/
def Fault.lineNumber? : Fault → Option Nat
  | .unexpected _ n _ => some n
  | .truncated _ n => some n
  | _ => none

/-- The fault points to one of the lines from `first` to `last`, or to the one after them. -/
def Fault.PointsInto (e : Fault) (first last : Nat) : Prop :=
  ∃ n, e.lineNumber? = some n ∧ first ≤ n ∧ n ≤ last + 1

/-- Every fault that the work may stop with points to one line. -/
def FaultsAt {α : Type} (n : Nat) (x : Except Fault α) : Prop :=
  ∀ e, x = .error e → e.lineNumber? = some n

theorem faultsAt_ok {α : Type} (n : Nat) (a : α) : FaultsAt n (.ok a) := nofun

theorem faultsAt_expecting {α : Type} (n : Nat) (marker line : Text) :
    FaultsAt n (.error (.expecting marker n line) : Except Fault α) := by
  intro e he
  obtain rfl := Except.error.inj he
  rfl

/-- Work at one line goes on at this line. -/
theorem faultsAt_bind {α β : Type} {n : Nat} {x : Except Fault α} {f : α → Except Fault β}
    (hx : FaultsAt n x) (hf : ∀ a, FaultsAt n (f a)) : FaultsAt n (x >>= f) := by
  cases x with
  | error e =>
    intro e' he
    obtain rfl : e = e' := Except.error.inj he
    exact hx e rfl
  | ok a => exact hf a

/-- An id is looked for on one line. -/
theorem Field.faultsAt_typeIdAfter (line introducer : Text) (n : Nat) :
    FaultsAt n (typeIdAfter line introducer n) := by
  unfold typeIdAfter
  split
  next => exact faultsAt_ok n _
  next => exact faultsAt_expecting n _ _

theorem Field.faultsAt_leadingTypeId (line : Text) (n : Nat) :
    FaultsAt n (leadingTypeId line n) := by
  unfold leadingTypeId
  split
  next => exact faultsAt_ok n _
  next => exact faultsAt_expecting n _ _

/-! ## Readers inside a record -/

/-- The cursor has read the first line of a record, and of the others up to the last one some are
left, with the tail behind them. -/
def Cursor.Inside (tail : List Text) (first last : Nat) (c : Cursor) : Prop :=
  first ≤ c.line ∧ ∃ block : List Text, (∀ l ∈ block, l.allBlank = false) ∧
    c.rest = block ++ tail ∧ c.line + block.length = last

/-- The outcome of a reader that does not leave the record. -/
inductive StaysInside {α : Type} (tail : List Text) (first last : Nat) :
    Except Fault α × Cursor → Prop
  | ok (a : α) (d : Cursor) (h : d.Inside tail first last) : StaysInside tail first last (.ok a, d)
  | error (e : Fault) (d : Cursor) (h : e.PointsInto first last) :
    StaysInside tail first last (.error e, d)

/-- From inside a record the reader does not leave it. -/
def Reading.Confined {α : Type} (tail : List Text) (first last : Nat) (x : Reading Cursor α) :
    Prop :=
  ∀ c : Cursor, c.Inside tail first last → StaysInside tail first last (x.run c)

section Closure

variable {α β : Type} {tail : List Text} {first last : Nat} {c : Cursor}

/-- A cursor inside a record has not read past its last line. -/
theorem Cursor.Inside.line_le (h : c.Inside tail first last) : c.line ≤ last := by
  obtain ⟨_, block, _, _, hlast⟩ := h
  omega

/-- The next line of the record. -/
theorem Cursor.inside_of_cons (tail : List Text) {n : Nat} {l : Text} {block : List Text}
    (hfirst : first ≤ n) (hblock : ∀ m ∈ l :: block, m.allBlank = false)
    (hlast : n + (l :: block).length = last) :
    Cursor.Inside tail first last ⟨n + 1, block ++ tail⟩ := by
  refine ⟨Nat.le_succ_of_le hfirst, block, fun m hm => hblock m (List.mem_cons_of_mem l hm), rfl,
    ?_⟩
  rw [← hlast, List.length_cons]
  show n + 1 + block.length = _
  omega

/-- The line after the last one is the farthest that a fault points to. -/
theorem Fault.pointsInto_of_le {e : Fault} {n : Nat} (he : e.lineNumber? = some n)
    (hfirst : first ≤ n) (hlast : n ≤ last + 1) : e.PointsInto first last :=
  ⟨n, he, hfirst, hlast⟩

namespace Reading

/-- To answer without reading stays where one is. -/
theorem confined_pure (a : α) : Confined tail first last (pure a : Reading Cursor α) :=
  fun c h => .ok a c h

/-- Since both bounds belong to the record, the second reader starts under the conditions of the
first. -/
theorem confined_bind {x : Reading Cursor α} {f : α → Reading Cursor β}
    (hx : x.Confined tail first last) (hf : ∀ a, (f a).Confined tail first last) :
    Confined tail first last (x >>= f) := by
  intro c hc
  have h := hx c hc
  rw [run_bind]
  generalize x.run c = r at h
  cases h with
  | ok a d hd => exact hf a d hd
  | error e d he => exact .error e d he

/-- The current line is one of the record. -/
theorem confined_ofExcept {outcome : Nat → Except Fault α}
    (h : ∀ n, FaultsAt n (outcome n)) : Confined tail first last (ofExcept outcome) := by
  intro c hc
  show StaysInside tail first last (outcome c.line, c)
  cases ho : outcome c.line with
  | ok a => exact .ok a c hc
  | error e =>
    exact .error e c (Fault.pointsInto_of_le (h c.line e ho) hc.1 (Nat.le_succ_of_le hc.line_le))

theorem confined_expect (value : Option α) (marker line : Text) :
    Confined tail first last (expect value marker line) := by
  intro c hc
  cases value with
  | some a => exact .ok a c hc
  | none => exact .error _ c ⟨c.line, rfl, hc.1, Nat.le_succ_of_le hc.line_le⟩

/-- A number that was taken inside the record may be used later on. -/
theorem confined_lineNumber_bind {f : Nat → Reading Cursor α}
    (h : ∀ n, first ≤ n → n ≤ last → (f n).Confined tail first last) :
    Confined tail first last (lineNumber >>= f) :=
  fun c hc => h c.line hc.1 hc.line_le c hc

end Reading
end Closure

namespace Record

open Reading

variable {tail block : List Text} {first last n : Nat}

/-! ## Class records -/

/-- The blank line that ends the record is the last that is looked at. If there is none, the section
is over, and the fault is put behind the last line. -/
theorem staysInside_seekFrom (h : AtBreak tail) (phrase header : Text)
    (hblock : ∀ l ∈ block, l.allBlank = false) (hfirst : first ≤ n)
    (hlast : n + block.length = last) :
    StaysInside tail first last (seekFrom phrase header n (block ++ tail)) := by
  induction block generalizing n with
  | nil =>
    have after_last : n + 1 ≤ last + 1 := Nat.succ_le_succ (Nat.le_of_eq hlast)
    have points : first ≤ n + 1 := Nat.le_succ_of_le hfirst
    cases tail with
    | nil => exact .error _ _ ⟨n + 1, rfl, points, after_last⟩
    | cons l rest =>
      rw [List.nil_append, seekFrom, if_pos (h l rfl)]
      exact .error _ _ ⟨n + 1, rfl, points, after_last⟩
  | cons l block ih =>
    have next := Cursor.inside_of_cons tail hfirst hblock hlast
    have hvisible := ne_true_of_eq_false (hblock l List.mem_cons_self)
    rw [List.cons_append, seekFrom, if_neg hvisible]
    split
    next => exact .ok l _ next
    next =>
      refine ih (fun m hm => hblock m (List.mem_cons_of_mem l hm)) next.1 ?_
      rw [← hlast, List.length_cons]
      omega

/-- To look for a line of a record does not lead out of it. -/
theorem confined_lineWith (h : AtBreak tail) (phrase header current : Text) :
    Confined tail first last (lineWith phrase header current) := by
  intro c hc
  rw [Reading.run, lineWith_cursor]
  split
  next => exact .ok current c hc
  next =>
    obtain ⟨hfirst, block, hblock, hrest, hlast⟩ := hc
    rw [hrest]
    exact staysInside_seekFrom h phrase header hblock hfirst hlast

theorem confined_fieldListId (isForward : Bool) (second : Text) :
    Confined tail first last (fieldListId isForward second) := by
  unfold fieldListId
  split
  next => exact confined_pure _
  next =>
    exact confined_bind (confined_ofExcept fun n => Field.faultsAt_typeIdAfter _ _ n) fun _ =>
      confined_pure _

theorem confined_uniqueName (h : AtBreak tail) (line : Text) :
    Confined tail first last (uniqueName line) := by
  unfold uniqueName
  split
  next => exact confined_pure _
  next =>
    intro c hc
    show StaysInside tail first last
      ((.expect (c.peek?.filter fun l => l.mentions uniqueNameIntro) uniqueNameIntro line >>=
        fun next => .next? >>= fun _ => pure ((Field.textAfter? next uniqueNameIntro).getD []) :
        Reading Cursor Text).run c)
    have here : first ≤ c.line ∧ c.line ≤ last + 1 := ⟨hc.1, Nat.le_succ_of_le hc.line_le⟩
    obtain ⟨hfirst, block, hblock, hrest, hlast⟩ := hc
    cases block with
    | nil =>
      rw [filter_peek?_atBreak h hrest]
      exact .error _ c ⟨c.line, rfl, here⟩
    | cons l block =>
      obtain ⟨n, rest⟩ := c
      obtain rfl : rest = l :: block ++ tail := hrest
      show StaysInside tail first last
        ((.expect ((some l).filter fun l => l.mentions uniqueNameIntro) uniqueNameIntro line >>= _ :
          Reading Cursor Text).run _)
      rw [Option.filter_some]
      split
      next => exact .ok _ _ (Cursor.inside_of_cons tail hfirst hblock hlast)
      next => exact .error _ _ ⟨n, rfl, here⟩

/-- A class is confined as each of its parts is. -/
theorem confined_readClass (h : AtBreak tail) (header : Text) :
    Confined tail first last (readClass header) := by
  refine confined_bind (confined_ofExcept fun n => Field.faultsAt_leadingTypeId _ n) fun id => ?_
  intro c hc
  obtain ⟨hfirst, block, hblock, hrest, hlast⟩ := hc
  obtain ⟨n, rest⟩ := c
  obtain rfl : rest = block ++ tail := hrest
  rw [Reading.run_bind]
  show StaysInside tail first last (Reading.run _ (Cursor.advance ⟨n, block ++ tail⟩))
  cases block with
  | nil =>
    -- The record is over with its first line.
    have points : first ≤ n + 1 ∧ n + 1 ≤ last + 1 :=
      ⟨Nat.le_succ_of_le hfirst, Nat.succ_le_succ (Nat.le_of_eq hlast)⟩
    cases tail with
    | nil => exact .error _ _ ⟨n + 1, rfl, points⟩
    | cons l rest =>
      show StaysInside _ first last (Reading.run (if l.allBlank then _ else _) ⟨n + 1, rest⟩)
      rw [if_pos (h l rfl)]
      exact .error _ _ ⟨n + 1, rfl, points⟩
  | cons l block =>
    have next := Cursor.inside_of_cons tail hfirst hblock hlast
    have hvisible := ne_true_of_eq_false (hblock l List.mem_cons_self)
    show StaysInside _ first last
      (Reading.run (if l.allBlank then _ else _) ⟨n + 1, block ++ tail⟩)
    rw [if_neg hvisible]
    refine confined_bind (confined_fieldListId _ _) (fun _ => ?_) _ next
    refine confined_bind (confined_lineWith h _ _ _) fun _ => ?_
    refine confined_bind (confined_expect _ _ _) fun _ => ?_
    refine confined_bind (confined_uniqueName h _) fun _ => ?_
    exact confined_bind (confined_expect _ _ _) fun _ => confined_pure _

/-! ## Field lists -/

/-- A member that is to go on where the record ends is refused at the blank line, or behind the
last. -/
theorem staysInside_joinFrom (h : AtBreak tail) (joined : Text)
    (hblock : ∀ l ∈ block, l.allBlank = false) (hfirst : first ≤ n)
    (hlast : n + block.length = last) :
    StaysInside tail first last (joinFrom joined n (block ++ tail)) := by
  cases hj : Field.endsInComma joined with
  | false =>
    rw [joinFrom_of_complete hj]
    exact .ok joined _ ⟨hfirst, block, hblock, rfl, hlast⟩
  | true =>
    induction block generalizing joined n with
    | nil =>
      obtain ⟨d, hs⟩ := joinFrom_atBreak h hj n
      rw [List.nil_append, hs]
      exact .error _ d ⟨n + 1, rfl, Nat.le_succ_of_le hfirst, Nat.succ_le_succ (Nat.le_of_eq hlast)⟩
    | cons l block ih =>
      have next := Cursor.inside_of_cons tail hfirst hblock hlast
      have hvisible := ne_true_of_eq_false (hblock l List.mem_cons_self)
      have hlater : ∀ m ∈ block, m.allBlank = false := fun m hm =>
        hblock m (List.mem_cons_of_mem l hm)
      have hlast' : n + 1 + block.length = last := by
        rw [← hlast, List.length_cons]
        omega
      rw [List.cons_append, joinFrom, if_pos hj, if_neg hvisible]
      cases hj' : Field.endsInComma (joined ++ ' ' :: l.trim) with
      | false =>
        rw [joinFrom_of_complete hj']
        exact .ok _ _ next
      | true => exact ih _ hlater next.1 hlast' hj'

theorem confined_wholeMember (h : AtBreak tail) (line : Text) :
    Confined tail first last (wholeMember line) := by
  intro c hc
  obtain ⟨hfirst, block, hblock, hrest, hlast⟩ := hc
  rw [Reading.run, wholeMember_cursor, hrest]
  exact staysInside_joinFrom h _ hblock hfirst hlast

/-- A member may take several lines, and all of them belong to the record. -/
theorem confined_readMember (h : AtBreak tail) (line : Text) :
    Confined tail first last (readMember line) := by
  unfold readMember
  split
  next =>
    refine confined_bind (confined_wholeMember h line) fun text => ?_
    refine confined_bind ?_ fun _ => confined_pure _
    refine confined_bind (confined_ofExcept fun n => Field.faultsAt_typeIdAfter _ _ n) fun _ => ?_
    exact confined_bind (confined_expect _ _ _) fun _ => confined_pure _
  next =>
    split
    next =>
      exact confined_bind (confined_ofExcept fun n => Field.faultsAt_typeIdAfter _ _ n) fun _ =>
        confined_pure _
    next => exact confined_pure _

/-- The loop over members, by induction on the lines of the record that are left. -/
theorem confined_readMembers (h : AtBreak tail) (done : List Member) :
    Confined tail first last (readMembers done) := by
  intro c hc
  -- Every member uses up at least its first line.
  induction hn : c.rest.length using Nat.strongRecOn generalizing done c with
  | _ k ih =>
    obtain ⟨hfirst, block, hblock, hrest, hlast⟩ := hc
    show StaysInside tail first last (readMembers done c)
    cases block with
    | nil =>
      rw [readMembers_atBreak h hrest]
      exact .ok _ c ⟨hfirst, [], hblock, hrest, hlast⟩
    | cons l block =>
      have next := Cursor.inside_of_cons tail hfirst hblock hlast
      have hmember := confined_readMember h l _ next
      have hforward := (before_readMember l ⟨c.line + 1, block ++ tail⟩).length_le
      rw [readMembers_line hrest (hblock l List.mem_cons_self)]
      generalize (readMember l).run ⟨c.line + 1, block ++ tail⟩ = r at hmember hforward
      cases hmember with
      | error e d he => exact .error e d he
      | ok m d hd =>
        refine ih d.rest.length ?_ _ d hd rfl
        rw [← hn, hrest]
        exact Nat.lt_succ_of_le hforward

theorem confined_readFieldList (h : AtBreak tail) (header : Text) :
    Confined tail first last (readFieldList header) := by
  refine confined_bind (confined_ofExcept fun n => Field.faultsAt_leadingTypeId _ n) fun _ => ?_
  exact confined_bind (confined_readMembers h []) fun _ => confined_pure _

/-! ## Member functions -/

/-- A line of a signature is judged by itself. -/
theorem faultsAt_signatureRead (s : Signature) (line : Text) (n : Nat) :
    FaultsAt n (s.read line n) := by
  have hid := Field.faultsAt_typeIdAfter line ownerIntro n
  unfold Signature.read
  dsimp only
  split
  next =>
    refine faultsAt_bind ?_ fun _ => faultsAt_ok n _
    cases hx : Field.typeIdAfter line ownerIntro n with
    | error e =>
      intro e' he
      obtain rfl : e = e' := Except.error.inj he
      exact hid e hx
    | ok id => exact faultsAt_ok n _
  next => exact faultsAt_ok n _

/-- A signature ends with the record, whether or not the section does. -/
theorem staysInside_signatureFrom (h : AtBreak tail) (s : Signature)
    (hblock : ∀ l ∈ block, l.allBlank = false) (hfirst : first ≤ n)
    (hlast : n + block.length = last) :
    StaysInside tail first last (signatureFrom s n (block ++ tail)) := by
  induction block generalizing s n with
  | nil =>
    rw [List.nil_append, signatureFrom_atBreak h]
    exact .ok s _ ⟨hfirst, [], hblock, rfl, hlast⟩
  | cons l block ih =>
    have next := Cursor.inside_of_cons tail hfirst hblock hlast
    have hvisible := ne_true_of_eq_false (hblock l List.mem_cons_self)
    have hlast' : n + 1 + block.length = last := by
      rw [← hlast, List.length_cons]
      omega
    rw [List.cons_append, signatureFrom, if_neg hvisible]
    cases hs : s.read l (n + 1) with
    | error e =>
      exact .error e _ (Fault.pointsInto_of_le (faultsAt_signatureRead s l (n + 1) e hs) next.1
        (Nat.le_succ_of_le next.line_le))
    | ok s' => exact ih s' (fun m hm => hblock m (List.mem_cons_of_mem l hm)) next.1 hlast'

/-- A member function without an owner is refused at its header line, which has been passed long ago
and is a line of the record. -/
theorem confined_readMemberFunction (h : AtBreak tail) (header : Text) :
    Confined tail first last (readMemberFunction header) := by
  refine confined_lineNumber_bind fun headerLine hfirst hlast => ?_
  refine confined_bind (confined_ofExcept fun n => Field.faultsAt_leadingTypeId _ n) fun id => ?_
  refine confined_bind ?_ fun s => ?_
  · intro c hc
    obtain ⟨hfirst, block, hblock, hrest, hlast⟩ := hc
    rw [Reading.run, readSignature_cursor, hrest]
    exact staysInside_signatureFrom h _ hblock hfirst hlast
  · -- A missing class is reported at the first line, which was read a while ago.
    refine confined_bind (fun c hc => ?_) fun _ => confined_pure _
    cases s.owner with
    | none => exact .error _ c ⟨headerLine, rfl, hfirst, Nat.le_succ_of_le hlast⟩
    | some owner => exact .ok owner c hc

/-! ## Any record -/

/-- A reader of records stays in its record, or its fault points into it. -/
theorem confined_read (h : AtBreak tail) (header : Text) :
    Confined tail first last (read header) := by
  unfold read
  split
  next => exact confined_bind (confined_readClass h header) fun _ => confined_pure _
  next => exact confined_bind (confined_readFieldList h header) fun _ => confined_pure _
  next => exact confined_bind (confined_readMemberFunction h header) fun _ => confined_pure _
  all_goals exact confined_pure _

end Record
end Lineage
