import Lineage.Proofs.Assembly.Checks
import Lineage.Proofs.Recovery.Outcome
import Lineage.Proofs.TypeTable.Runs

/-!
# Which stage a fault belongs to

A fault says by its cause which stage raises it. Whether the work of that stage is all that raises
it is a question to every reader, every pass and every check. The answer is yes for all of them but
one: the place of a symbol cannot be worked out in a dump without section headers, which shows only
when the symbols are read, and the fault then is that of a missing section.

Faults of readers are collected by `Reading.FaultsIn`, those of other work by `FaultsIn`. Both are
closed under going on with what was found, so a reader made of other readers needs no more than
their lemmas, put together in the same way. Loops are the exception. They are gone through by
induction on the lines that are left, and the induction carries whatever the loop has gathered.

Where there are section headers, the places of symbols raise no other faults than those of parsing,
and the same closure does for all symbols. Where there are none, every symbol raises a fault, and
which one depends on the first line that is taken for a symbol: if it gives a place, the section
headers are missing, and if it gives none, the line is at fault (`Unplaced`, `FirstDecides`). This
is followed from one line through the sections to the whole dump. No symbols, no fault.

Main results: `TypeTable.faultsIn_ofDump`, `Resolution.faultsIn_ofTable`,
`Assembly.faultsIn_assemble`, and for the symbols `Symbol.faultsIn_tablesOf` with
`Symbol.tablesOf_unknown`.
-/

namespace Lineage

/-! ## Work with faults of one stage -/

/-- Every fault that the work may stop with belongs to a stage. -/
def FaultsIn {α : Type} (s : Stage) (x : Except Fault α) : Prop :=
  ∀ e, x = .error e → e.stage = s

/-- Every fault that the reader may stop with belongs to a stage. -/
def Reading.FaultsIn {α : Type} (s : Stage) (x : Reading Cursor α) : Prop :=
  ∀ c : Cursor, Lineage.FaultsIn s (x.run c).1

section Closure

variable {α β : Type} {s : Stage}

theorem faultsIn_ok (a : α) : FaultsIn s (.ok a) := by
  intro e h
  cases h

theorem faultsIn_error {e : Fault} (h : e.stage = s) : FaultsIn s (.error e : Except Fault α) := by
  intro e' he
  obtain rfl := Except.error.inj he
  exact h

/-- Work that goes on with a result raises the faults of both parts. What comes second may rely on
the result of the first. -/
theorem faultsIn_bind {x : Except Fault α} {f : α → Except Fault β} (hx : FaultsIn s x)
    (hf : ∀ a, x = .ok a → FaultsIn s (f a)) : FaultsIn s (x >>= f) := by
  cases x with
  | error e => exact faultsIn_error (hx e rfl)
  | ok a => exact hf a rfl

/-- A loop raises the faults of its steps. -/
theorem faultsIn_foldlM {f : β → α → Except Fault β} (h : ∀ b a, FaultsIn s (f b a)) (xs : List α)
    (b : β) : FaultsIn s (xs.foldlM f b) := by
  induction xs generalizing b with
  | nil => exact faultsIn_ok b
  | cons x xs ih =>
    rw [List.foldlM_cons]
    exact faultsIn_bind (h b x) fun b' _ => ih b'

namespace Reading

theorem faultsIn_pure (a : α) : FaultsIn s (pure a : Reading Cursor α) := fun _ => faultsIn_ok a

theorem faultsIn_bind {x : Reading Cursor α} {f : α → Reading Cursor β} (hx : x.FaultsIn s)
    (hf : ∀ a, (f a).FaultsIn s) : FaultsIn s (x >>= f) := by
  intro c
  have h := hx c
  rw [run_bind]
  generalize x.run c = r at h
  obtain ⟨e | a, d⟩ := r
  · exact faultsIn_error (h e rfl)
  · exact hf a d

/-- A reader that refuses raises one fault, which differs in its line only. -/
theorem faultsIn_refuse {fault : Nat → Fault} (h : ∀ n, (fault n).stage = s) :
    FaultsIn s (refuse fault : Reading Cursor α) :=
  fun c => faultsIn_error (h c.line)

/-- Work that is done without reading on, told the current line. -/
theorem faultsIn_ofExcept {outcome : Nat → Except Fault α}
    (h : ∀ n, Lineage.FaultsIn s (outcome n)) : FaultsIn s (ofExcept outcome) :=
  fun c => h c.line

/-- A value that a line does not have is a fault of parsing. -/
theorem faultsIn_expect (value : Option α) (marker line : Text) :
    FaultsIn .parse (expect value marker line) := by
  intro c
  cases value with
  | none => exact faultsIn_error rfl
  | some a => exact faultsIn_ok a

theorem faultsIn_lineNumber : FaultsIn s lineNumber := fun _ => faultsIn_ok _

theorem faultsIn_peek? : FaultsIn s peek? := fun _ => faultsIn_ok _

theorem faultsIn_next? : FaultsIn s next? := fun _ => faultsIn_ok _

end Reading
end Closure

/-! ## Type records -/

/-- A phrase without an id behind it is a fault of parsing. -/
theorem Field.faultsIn_typeIdAfter (line introducer : Text) (n : Nat) :
    FaultsIn .parse (typeIdAfter line introducer n) := by
  unfold typeIdAfter
  split
  · exact faultsIn_ok _
  · exact faultsIn_error rfl

theorem Field.faultsIn_leadingTypeId (line : Text) (n : Nat) :
    FaultsIn .parse (leadingTypeId line n) := by
  unfold leadingTypeId
  split
  · exact faultsIn_ok _
  · exact faultsIn_error rfl

namespace Record

open Reading

/-- Looking for a line ends with the line, at the next record, or at the end of the lines. The last
two are faults of parsing. -/
theorem faultsIn_seekFrom (phrase header : Text) (n : Nat) (rest : List Text) :
    FaultsIn .parse (seekFrom phrase header n rest).1 := by
  induction rest generalizing n with
  | nil => exact faultsIn_error rfl
  | cons line rest ih =>
    unfold seekFrom
    split
    · exact faultsIn_error rfl
    · split
      · exact faultsIn_ok line
      · exact ih (n + 1)

theorem faultsIn_lineWith (phrase header current : Text) :
    (lineWith phrase header current).FaultsIn .parse := by
  intro c
  rw [Reading.run, lineWith_cursor]
  split
  · exact faultsIn_ok current
  · exact faultsIn_seekFrom phrase header c.line c.rest

/-- A forward reference has no field list, and then nothing can be wrong with it. -/
theorem faultsIn_fieldListId (isForward : Bool) (second : Text) :
    (fieldListId isForward second).FaultsIn .parse := by
  unfold fieldListId
  split
  · exact faultsIn_pure none
  · refine Reading.faultsIn_bind (faultsIn_ofExcept fun n => ?_) fun _ => faultsIn_pure _
    exact Field.faultsIn_typeIdAfter second fieldListIntro n

theorem faultsIn_uniqueName (line : Text) : (uniqueName line).FaultsIn .parse := by
  unfold uniqueName
  split
  · exact faultsIn_pure _
  · exact Reading.faultsIn_bind faultsIn_peek? fun _ =>
      Reading.faultsIn_bind (faultsIn_expect _ _ _) fun _ =>
        Reading.faultsIn_bind faultsIn_next? fun _ => faultsIn_pure _

/-- The reader of a class stops at its id, for want of a second line, or in one of its parts. -/
theorem faultsIn_readClass (header : Text) : (readClass header).FaultsIn .parse := by
  refine Reading.faultsIn_bind
    (faultsIn_ofExcept fun n => Field.faultsIn_leadingTypeId header n) fun id =>
      Reading.faultsIn_bind faultsIn_next? fun second => ?_
  split
  · exact faultsIn_refuse fun _ => rfl
  · split
    · exact faultsIn_refuse fun _ => rfl
    · exact Reading.faultsIn_bind (faultsIn_fieldListId _ _) fun _ =>
        Reading.faultsIn_bind (faultsIn_lineWith _ _ _) fun _ =>
          Reading.faultsIn_bind (faultsIn_expect _ _ _) fun _ =>
            Reading.faultsIn_bind (faultsIn_uniqueName _) fun _ =>
              Reading.faultsIn_bind (faultsIn_expect _ _ _) fun _ => faultsIn_pure _

/-- Lines are joined while they end in a comma, and the record may end before the member does. -/
theorem faultsIn_joinFrom (joined : Text) (n : Nat) (rest : List Text) :
    FaultsIn .parse (joinFrom joined n rest).1 := by
  induction rest generalizing joined n with
  | nil =>
    unfold joinFrom
    split
    · exact faultsIn_error rfl
    · exact faultsIn_ok joined
  | cons next rest ih =>
    unfold joinFrom
    split
    · split
      · exact faultsIn_error rfl
      · exact ih _ (n + 1)
    · exact faultsIn_ok joined

theorem faultsIn_wholeMember (first : Text) : (wholeMember first).FaultsIn .parse := by
  intro c
  rw [Reading.run, wholeMember_cursor]
  exact faultsIn_joinFrom _ c.line c.rest

theorem faultsIn_methodOf (text : Text) : (methodOf text).FaultsIn .parse :=
  Reading.faultsIn_bind (faultsIn_ofExcept fun n => Field.faultsIn_typeIdAfter text indexIntro n)
    fun _ => Reading.faultsIn_bind (faultsIn_expect _ _ _) fun _ => faultsIn_pure _

theorem faultsIn_readMember (line : Text) : (readMember line).FaultsIn .parse := by
  unfold readMember
  split
  · exact Reading.faultsIn_bind (faultsIn_wholeMember line) fun text =>
      Reading.faultsIn_bind (faultsIn_methodOf text) fun _ => faultsIn_pure _
  · split
    · refine Reading.faultsIn_bind (faultsIn_ofExcept fun n => ?_) fun _ => faultsIn_pure _
      exact Field.faultsIn_typeIdAfter line typeIntro n
    · exact faultsIn_pure none

/-- The loop over members. What it has gathered so far is no matter, so the induction is on the
lines that are left: a member takes a line at least. -/
theorem faultsIn_readMembers (done : List Member) :
    Reading.FaultsIn .parse (readMembers done) := by
  intro c
  induction hn : c.rest.length using Nat.strongRecOn generalizing done c with
  | _ k ih =>
    unfold Reading.run readMembers
    split
    next => exact faultsIn_ok _
    next line h =>
      split
      · exact faultsIn_ok _
      · have hline := faultsIn_readMember line (LineSource.advance c)
        have fwd := (before_readMember line (LineSource.advance c)).length_le
        split
        next e d hm =>
          rw [hm] at hline
          exact faultsIn_error (hline e rfl)
        next m d hm =>
          rw [hm] at fwd
          have hlt : d.rest.length < k :=
            hn ▸ Nat.lt_of_le_of_lt fwd (LineSource.left_advance_lt h)
          exact ih _ hlt _ d rfl

/-- A line of a signature can be wrong in its owner only. -/
theorem faultsIn_signatureRead (s : Signature) (line : Text) (n : Nat) :
    Lineage.FaultsIn .parse (s.read line n) := by
  have hid := Field.faultsIn_typeIdAfter line ownerIntro n
  unfold Signature.read
  dsimp only
  split
  · refine Lineage.faultsIn_bind ?_ fun _ _ => faultsIn_ok _
    cases hx : Field.typeIdAfter line ownerIntro n with
    | error e => exact faultsIn_error (hid e hx)
    | ok id => exact faultsIn_ok (some id)
  · exact faultsIn_ok _

/-- The loop over the lines of a signature, with what has been read of it so far. -/
theorem faultsIn_signatureFrom (s : Signature) (n : Nat) (rest : List Text) :
    Lineage.FaultsIn .parse (signatureFrom s n rest).1 := by
  induction rest generalizing s n with
  | nil => exact faultsIn_ok s
  | cons line rest ih =>
    have hline := faultsIn_signatureRead s line (n + 1)
    unfold signatureFrom
    split
    · exact faultsIn_ok s
    · split
      next e he => exact faultsIn_error (hline e he)
      next s' _ => exact ih s' (n + 1)

theorem faultsIn_readSignature (s : Signature) : (readSignature s).FaultsIn .parse := by
  intro c
  rw [Reading.run, readSignature_cursor]
  exact faultsIn_signatureFrom s c.line c.rest

/-- A member function stops at its id, in its signature, or for want of an owner. -/
theorem faultsIn_readMemberFunction (header : Text) :
    (readMemberFunction header).FaultsIn .parse := by
  refine Reading.faultsIn_bind faultsIn_lineNumber fun headerLine =>
    Reading.faultsIn_bind
      (faultsIn_ofExcept fun n => Field.faultsIn_leadingTypeId header n) fun _ =>
        Reading.faultsIn_bind (faultsIn_readSignature _) fun s =>
          Reading.faultsIn_bind (faultsIn_ofExcept fun _ => ?_) fun _ => faultsIn_pure _
  split
  · exact faultsIn_ok _
  · exact faultsIn_error rfl

/-- Whatever is wrong with a record is a fault of parsing. -/
theorem faultsIn_read (header : Text) : (read header).FaultsIn .parse := by
  unfold read
  split
  · exact Reading.faultsIn_bind (faultsIn_readClass header) fun _ => faultsIn_pure _
  · refine Reading.faultsIn_bind (Reading.faultsIn_bind ?_ fun _ => ?_) fun _ => faultsIn_pure _
    · exact faultsIn_ofExcept fun n => Field.faultsIn_leadingTypeId header n
    · exact Reading.faultsIn_bind (faultsIn_readMembers []) fun _ => faultsIn_pure _
  · exact Reading.faultsIn_bind (faultsIn_readMemberFunction header) fun _ => faultsIn_pure _
  all_goals exact faultsIn_pure none

end Record

/-- A section that is there can be entered. -/
theorem Dump.exists_enter {d : Dump} {s : Section} (h : d.hasSection s = true) :
    ∃ c, d.enter s = .ok c := by
  rw [← body?_isSome] at h
  obtain ⟨body, hbody⟩ := Option.isSome_iff_exists.1 h
  obtain ⟨n, henter⟩ := enter_of_body? hbody
  exact ⟨_, henter⟩

namespace TypeTable

/-- A table refuses a record only if it has one with this id. -/
theorem faultsIn_insert (t : TypeTable) (r : TypeRecord) (n : Nat) :
    FaultsIn .parse (t.insert r n) := by
  unfold insert
  split
  · exact faultsIn_error rfl
  · exact faultsIn_ok _

/-- The loop over records. A record takes its header at least, so the induction is on the lines that
are left. -/
theorem faultsIn_readFrom (t : TypeTable) (c : Cursor) : FaultsIn .parse (readFrom t c) := by
  induction hn : c.rest.length using Nat.strongRecOn generalizing t c with
  | _ n ih =>
    rcases hnext : c.nextRecord with ⟨header?, d⟩
    cases header? with
    | none =>
      rw [readFrom_of_nextRecord_none hnext]
      exact faultsIn_ok t
    | some header =>
      rw [readFrom_of_nextRecord hnext]
      have hread := Record.faultsIn_read header d
      have hforward := (Record.before_read header d).length_le
      generalize (Record.read header).run d = r at hread hforward
      obtain ⟨e | o, d'⟩ := r
      · exact faultsIn_error (hread e rfl)
      · have hlt : d'.rest.length < n := by
          rw [← hn]
          exact Nat.lt_of_le_of_lt hforward (Cursor.nextRecord_length_lt hnext)
        cases o with
        | none => exact ih _ hlt t d' rfl
        | some r =>
          dsimp only
          have hinsert := faultsIn_insert t r d.line
          cases hi : t.insert r d.line with
          | error e => exact faultsIn_error (hinsert e hi)
          | ok t' => exact ih _ hlt t' d' rfl

/-- Where there are types to read, what is wrong with them is a fault of parsing. -/
theorem faultsIn_ofDump {d : Dump} (h : d.hasSection .types = true) :
    FaultsIn .parse (ofDump d) := by
  obtain ⟨c, henter⟩ := Dump.exists_enter h
  rw [ofDump_eq, henter]
  exact faultsIn_readFrom ∅ c

end TypeTable

/-! ## Section headers -/

namespace Image

/-- A header is finished unless its address is missing. -/
theorem faultsIn_finish (draft : HeaderDraft) : FaultsIn .parse draft.finish := by
  unfold HeaderDraft.finish
  split
  · exact faultsIn_ok _
  · exact faultsIn_error rfl

theorem faultsIn_leadingNumber (line ending : Text) (n : Nat) :
    FaultsIn .parse (HeaderDraft.leadingNumber line ending n) := by
  unfold HeaderDraft.leadingNumber
  split
  · exact faultsIn_ok _
  · exact faultsIn_error rfl

/-- A line adds to a header or says nothing about it; it is wrong only if it announces a number that
it does not have. -/
theorem faultsIn_draftRead (draft : HeaderDraft) (line : Text) (n : Nat) :
    FaultsIn .parse (draft.read line n) := by
  unfold HeaderDraft.read
  split
  · exact faultsIn_bind (faultsIn_leadingNumber line _ n) fun _ _ => faultsIn_ok _
  · split
    · exact faultsIn_bind (faultsIn_leadingNumber line _ n) fun _ _ => faultsIn_ok _
    · split <;> exact faultsIn_ok _

theorem faultsIn_openHeader (number line : Text) (n : Nat) :
    FaultsIn .parse (openHeader number line n) := by
  unfold openHeader
  split
  · split
    · exact faultsIn_ok _
    · exact faultsIn_error rfl
  · exact faultsIn_error rfl

/-- The loop over the lines of the section, with the header that is open at the time. -/
theorem faultsIn_readHeaders (open? : Option HeaderDraft) (n : Nat) (lines : List Text) :
    FaultsIn .parse (readHeaders open? n lines) := by
  induction lines generalizing open? n with
  | nil =>
    unfold readHeaders
    split
    · exact faultsIn_bind (faultsIn_finish _) fun _ _ => faultsIn_ok _
    · exact faultsIn_ok _
  | cons line rest ih =>
    unfold readHeaders
    split
    · exact faultsIn_bind (faultsIn_finish _) fun _ _ =>
        faultsIn_bind (faultsIn_openHeader _ line _) fun _ _ =>
          faultsIn_bind (ih _ _) fun _ _ => faultsIn_ok _
    · exact faultsIn_bind (faultsIn_openHeader _ line _) fun _ _ => ih _ _
    · exact faultsIn_bind (faultsIn_draftRead _ _ _) fun _ _ => ih _ _
    · exact ih none (n + 1)

/-- Whether there are section headers or not, the layout comes to no fault but of parsing. -/
theorem faultsIn_layoutOfDump (d : Dump) (imageBase : UInt64) :
    FaultsIn .parse (Layout.ofDump d imageBase) := by
  unfold Layout.ofDump
  split
  next h =>
    obtain ⟨c, henter⟩ := Dump.exists_enter h
    rw [headersOf_eq, henter]
    exact faultsIn_bind (faultsIn_readHeaders none c.line c.rest) fun _ _ => faultsIn_ok _
  next => exact faultsIn_ok _

end Image

/-! ## Symbols -/

namespace Symbol

/-- Whether the digits of a place are a section number and an offset. -/
def Place.isReadable (p : Place) : Bool := p.sectionNumber?.isSome && (word? p.offset).isSome

/-- The place on the line of a procedure, if the line has the form of one. -/
def procedurePlace? (line : Text) : Option Place :=
  (Text.firstMatch? procedureAt? line).map Prod.fst

/-- The place on the line of a public symbol, if the line has the form of one. -/
def publicPlace? (line : Text) : Option Place := (Text.firstMatch? publicAt? line).map Prod.fst

/-- The places on those lines that are taken for procedures. -/
def procedurePlaces (lines : List Text) : List (Option Place) :=
  (lines.filter fun l => RecordKind.ofLine l = .procedure).map procedurePlace?

/-- The places on those lines that are taken for public symbols. -/
def publicPlaces (lines : List Text) : List (Option Place) :=
  (lines.filter fun l => l.mentions publicTag).map publicPlace?

/-- The places on the lines of a section, which may be missing. -/
def placesIn (d : Dump) (s : Dump.Section) (places : List Text → List (Option Place)) :
    List (Option Place) :=
  places ((d.body? s).getD [])

/-- The places that a dump asks for, in the order in which its symbols are read. -/
def placesOf (d : Dump) (usePublics : Bool) : List (Option Place) :=
  procedureSections.flatMap (placesIn d · procedurePlaces) ++
    if usePublics then placesIn d .publics publicPlaces else []

/-- Whether the first line that is taken for a symbol gives a place. -/
def asksForPlace (d : Dump) (usePublics : Bool) : Bool :=
  (placesOf d usePublics).head?.any fun place? => place?.any Place.isReadable

variable {layout : Image.Layout}

/-! ### With section headers -/

/-- With section headers a place can be wrong in three ways: it is no number, there is no such
section, or the address does not fit. Each is a fault of parsing. -/
theorem faultsIn_address (h : layout.headers.isSome = true) (p : Place) (n : Nat) (line : Text) :
    FaultsIn .parse (p.address layout n line) := by
  unfold Place.address
  split
  · exact faultsIn_error rfl
  · split
    · exact faultsIn_error rfl
    · unfold Image.Layout.resolve
      split
      next hnone =>
        rw [Option.isNone_iff_eq_none] at hnone
        rw [hnone] at h
        cases h
      next =>
        split
        · exact faultsIn_error rfl
        · split
          · exact faultsIn_ok _
          · exact faultsIn_error rfl

theorem faultsIn_readProcedure (h : layout.headers.isSome = true) (line : Text) (n : Nat) :
    FaultsIn .parse (readProcedure line n layout) := by
  unfold readProcedure
  split
  · exact faultsIn_error rfl
  · exact faultsIn_bind (faultsIn_address h _ n line) fun _ _ => faultsIn_ok _

theorem faultsIn_readPublic (h : layout.headers.isSome = true) (line : Text) (n : Nat) :
    FaultsIn .parse (readPublic line n layout) := by
  unfold readPublic
  split
  · exact faultsIn_error rfl
  · exact faultsIn_bind (faultsIn_address h _ n line) fun _ _ => faultsIn_ok _

/-- The loop over the lines of one section. -/
theorem faultsIn_readProcedures (h : layout.headers.isSome = true) (ps : List Procedure) (n : Nat)
    (lines : List Text) : FaultsIn .parse (readProcedures layout ps n lines) := by
  induction lines generalizing ps n with
  | nil => exact faultsIn_ok ps
  | cons line rest ih =>
    have hline := faultsIn_readProcedure h line (n + 1)
    unfold readProcedures
    split
    · split
      next p _ => exact ih (addProcedure ps p) (n + 1)
      next e he => exact faultsIn_error (hline e he)
    · exact ih ps (n + 1)

/-- The loop over the lines of the section. -/
theorem faultsIn_readPublics (h : layout.headers.isSome = true) (done : List PublicSymbol) (n : Nat)
    (lines : List Text) : FaultsIn .parse (readPublics layout done n lines) := by
  induction lines generalizing done n with
  | nil => exact faultsIn_ok _
  | cons line rest ih =>
    have hline := faultsIn_readPublic h line (n + 1)
    unfold readPublics
    split
    · split
      next p _ => exact ih (p :: done) (n + 1)
      next e he => exact faultsIn_error (hline e he)
    · exact ih done (n + 1)

/-- The loop over the sections that have procedures. A section that is missing is passed over. -/
theorem faultsIn_proceduresOf (h : layout.headers.isSome = true) (d : Dump) :
    FaultsIn .parse (proceduresOf d layout) := by
  refine faultsIn_foldlM (fun ps s => ?_) procedureSections []
  rw [readProcedureSection_eq]
  split
  · exact faultsIn_readProcedures h ps _ _
  · exact faultsIn_ok ps

theorem faultsIn_publicsOf (h : layout.headers.isSome = true) (d : Dump) :
    FaultsIn .parse (publicsOf d layout) := by
  rw [publicsOf_eq]
  split
  · exact faultsIn_readPublics h [] _ _
  · exact faultsIn_ok []

/-! ### Without section headers -/

/-- The fault of a symbol that cannot be placed. Where the line gives no place, the line is at
fault. -/
def Unplaced (place? : Option Place) (e : Fault) : Prop :=
  if place?.any Place.isReadable then e = .sectionMissing .sectionHeaders else e.stage = .parse

/-- The first of several places decides: reading stops there, and without a place it succeeds. -/
def FirstDecides {α : Type} (places : List (Option Place)) (a : α) (x : Except Fault α) : Prop :=
  match places with
  | [] => x = .ok a
  | place? :: _ => ∃ e, x = .error e ∧ Unplaced place? e

/-- Without section headers a place is always refused. The numbers are read first, so they are at
fault if they cannot be read. -/
theorem address_unknown (h : layout.headers = none) (p : Place) (n : Nat) (line : Text) :
    ∃ e, p.address layout n line = .error e ∧ Unplaced (some p) e := by
  unfold Place.address
  split
  next hnumber =>
    refine ⟨_, rfl, ?_⟩
    rw [Unplaced, Option.any_some, Place.isReadable, hnumber]
    rfl
  next number hnumber =>
    split
    next hoffset =>
      refine ⟨_, rfl, ?_⟩
      rw [Unplaced, Option.any_some, Place.isReadable, hnumber, hoffset]
      rfl
    next offset hoffset =>
      refine ⟨.sectionMissing .sectionHeaders, ?_, ?_⟩
      · rw [Image.Layout.resolve, h]
        rfl
      · rw [Unplaced, Option.any_some, Place.isReadable, hnumber, hoffset]
        rfl

/-- A line without a place is refused before it is asked for one. -/
theorem readProcedure_unknown (h : layout.headers = none) (line : Text) (n : Nat) :
    ∃ e, readProcedure line n layout = .error e ∧ Unplaced (procedurePlace? line) e := by
  unfold readProcedure procedurePlace?
  split
  next hnone =>
    rw [hnone]
    exact ⟨_, rfl, rfl⟩
  next place type name hsome =>
    obtain ⟨e, he, hplace⟩ := address_unknown h place n line
    rw [hsome, he]
    exact ⟨e, rfl, hplace⟩

theorem readPublic_unknown (h : layout.headers = none) (line : Text) (n : Nat) :
    ∃ e, readPublic line n layout = .error e ∧ Unplaced (publicPlace? line) e := by
  unfold readPublic publicPlace?
  split
  next hnone =>
    rw [hnone]
    exact ⟨_, rfl, rfl⟩
  next place mangled hsome =>
    obtain ⟨e, he, hplace⟩ := address_unknown h place n line
    rw [hsome, he]
    exact ⟨e, rfl, hplace⟩

/-- The first line that is taken for a procedure stops the loop. If there is none, nothing is read.
-/
theorem readProcedures_unknown (h : layout.headers = none) (ps : List Procedure) (n : Nat)
    (lines : List Text) :
    FirstDecides (procedurePlaces lines) ps (readProcedures layout ps n lines) := by
  induction lines generalizing n with
  | nil => rfl
  | cons line rest ih =>
    unfold readProcedures
    by_cases hline : RecordKind.ofLine line = .procedure
    · obtain ⟨e, he, hplace⟩ := readProcedure_unknown h line (n + 1)
      rw [if_pos hline, he, procedurePlaces, List.filter_cons_of_pos (by simpa using hline)]
      exact ⟨e, rfl, hplace⟩
    · rw [if_neg hline, procedurePlaces, List.filter_cons_of_neg (by simpa using hline)]
      exact ih (n + 1)

/-- The first line that is taken for a public symbol stops the loop. If there is none, nothing is
read. -/
theorem readPublics_unknown (h : layout.headers = none) (done : List PublicSymbol) (n : Nat)
    (lines : List Text) :
    FirstDecides (publicPlaces lines) done.reverse (readPublics layout done n lines) := by
  induction lines generalizing n with
  | nil => rfl
  | cons line rest ih =>
    unfold readPublics
    by_cases hline : line.mentions publicTag = true
    · obtain ⟨e, he, hplace⟩ := readPublic_unknown h line (n + 1)
      rw [if_pos hline, he, publicPlaces, List.filter_cons_of_pos (by simpa using hline)]
      exact ⟨e, rfl, hplace⟩
    · rw [if_neg hline, publicPlaces, List.filter_cons_of_neg (by simpa using hline)]
      exact ih (n + 1)

/-- A section that is missing has no lines and asks for no place. -/
theorem readProcedureSection_unknown (h : layout.headers = none) (d : Dump) (ps : List Procedure)
    (s : Dump.Section) :
    FirstDecides (placesIn d s procedurePlaces) ps (readProcedureSection d layout ps s) := by
  rw [readProcedureSection_eq]
  unfold placesIn
  cases hbody : d.body? s with
  | none =>
    rw [Dump.enter_of_body?_eq_none hbody]
    rfl
  | some body =>
    obtain ⟨n, henter⟩ := Dump.enter_of_body? hbody
    rw [henter]
    exact readProcedures_unknown h ps n body

/-- The sections are read one after the other, and the first place of all of them decides. -/
theorem proceduresOf_unknown (h : layout.headers = none) (d : Dump) :
    FirstDecides (procedureSections.flatMap (placesIn d · procedurePlaces)) []
      (proceduresOf d layout) := by
  have walk : ∀ (ss : List Dump.Section) (ps : List Procedure),
      FirstDecides (ss.flatMap (placesIn d · procedurePlaces)) ps
        (ss.foldlM (readProcedureSection d layout) ps) := by
    intro ss
    induction ss with
    | nil => exact fun ps => rfl
    | cons s ss ih =>
      intro ps
      have hs := readProcedureSection_unknown h d ps s
      rw [List.foldlM_cons, List.flatMap_cons]
      cases hplaces : placesIn d s procedurePlaces with
      | nil =>
        rw [hplaces] at hs
        rw [show readProcedureSection d layout ps s = .ok ps from hs]
        exact ih ps
      | cons place? places =>
        rw [hplaces] at hs
        obtain ⟨e, he, hplace⟩ := hs
        rw [he]
        exact ⟨e, rfl, hplace⟩
  exact walk procedureSections []

/-- The section of public symbols, which may be missing. -/
theorem publicsOf_unknown (h : layout.headers = none) (d : Dump) :
    FirstDecides (placesIn d .publics publicPlaces) [] (publicsOf d layout) := by
  rw [publicsOf_eq]
  unfold placesIn
  cases hbody : d.body? .publics with
  | none =>
    rw [Dump.enter_of_body?_eq_none hbody]
    rfl
  | some body =>
    obtain ⟨n, henter⟩ := Dump.enter_of_body? hbody
    rw [henter]
    exact readPublics_unknown h [] n body

/-! ### All symbols -/

/-- A layout knows section headers just if the dump has the section, even if it is empty. -/
theorem isSome_headers_of_layoutOfDump {d : Dump} {imageBase : UInt64}
    (h : Image.Layout.ofDump d imageBase = .ok layout) :
    layout.headers.isSome = d.hasSection .sectionHeaders := by
  unfold Image.Layout.ofDump at h
  split at h
  next hhas =>
    rw [bind_eq_ok_iff] at h
    obtain ⟨headers, _, h⟩ := h
    obtain rfl := Except.ok.inj h
    exact hhas.symm
  next hhas =>
    obtain rfl := Except.ok.inj h
    rw [Bool.not_eq_true] at hhas
    exact hhas.symm

/-- With section headers, what is wrong with the symbols is a fault of parsing. -/
theorem faultsIn_tablesOf {d : Dump} (h : d.hasSection .sectionHeaders = true)
    (imageBase : UInt64) (usePublics : Bool) :
    FaultsIn .parse (tablesOf d imageBase usePublics) := by
  refine faultsIn_bind (Image.faultsIn_layoutOfDump d imageBase) fun layout hlayout => ?_
  have hknown : layout.headers.isSome = true := (isSome_headers_of_layoutOfDump hlayout).trans h
  refine faultsIn_bind (faultsIn_proceduresOf hknown d) fun procedures _ => ?_
  refine faultsIn_bind ?_ fun publics _ => faultsIn_ok _
  split
  · exact faultsIn_publicsOf hknown d
  · exact faultsIn_ok []

/-- Without section headers, the first place that is asked for decides. -/
theorem tablesOf_unknown {d : Dump} (h : d.hasSection .sectionHeaders = false)
    (imageBase : UInt64) (usePublics : Bool) :
    FirstDecides (placesOf d usePublics) (Tables.empty imageBase)
      (tablesOf d imageBase usePublics) := by
  have hlayout : Image.Layout.ofDump d imageBase = .ok (.unknown imageBase) := by
    unfold Image.Layout.ofDump
    rw [h]
    rfl
  have hunknown : (Image.Layout.unknown imageBase).headers = none := rfl
  have hprocedures := proceduresOf_unknown hunknown d
  have hpublics := publicsOf_unknown hunknown d
  rw [tablesOf, hlayout]
  show FirstDecides _ _ (proceduresOf d (.unknown imageBase) >>= _)
  unfold placesOf
  cases hplaces : procedureSections.flatMap (placesIn d · procedurePlaces) with
  | cons place? places =>
    rw [hplaces] at hprocedures
    obtain ⟨e, he, hplace⟩ := hprocedures
    rw [he]
    exact ⟨e, rfl, hplace⟩
  | nil =>
    rw [hplaces] at hprocedures
    rw [show proceduresOf d (.unknown imageBase) = .ok [] from hprocedures]
    cases usePublics with
    | false => rfl
    | true =>
      show FirstDecides (placesIn d .publics publicPlaces) _
        (publicsOf d (.unknown imageBase) >>= _)
      cases hplaces : placesIn d .publics publicPlaces with
      | nil =>
        rw [hplaces] at hpublics
        rw [show publicsOf d (.unknown imageBase) = .ok [] from hpublics]
        rfl
      | cons place? places =>
        rw [hplaces] at hpublics
        obtain ⟨e, he, hplace⟩ := hpublics
        rw [he]
        exact ⟨e, rfl, hplace⟩

end Symbol

/-! ## Resolution and assembly -/

namespace Resolution

/-- A reference to a class that is not defined is a fault of resolution. -/
theorem faultsIn_bindReferences (t : TypeTable) (names : OrderedMap Text TypeId) :
    FaultsIn .resolve (bindReferences t names) := by
  refine faultsIn_foldlM (fun refs c => ?_) t.forwardRefs ∅
  unfold bindReference
  split
  · exact faultsIn_ok _
  · exact faultsIn_error rfl

/-- A base class that stands for nothing is a fault of resolution. -/
theorem faultsIn_baseSet (t : TypeTable) (refs : OrderedMap TypeId TypeId) (c : ClassRecord) :
    FaultsIn .resolve (baseSet t refs c) := by
  refine faultsIn_foldlM (fun bases base => ?_) _ ∅
  unfold addBase
  split
  · exact faultsIn_ok _
  · exact faultsIn_error rfl

/-- What cannot be bound is a fault of resolution. -/
theorem faultsIn_ofTable (t : TypeTable) (ps : List Procedure) :
    FaultsIn .resolve (ofTable t ps) := by
  refine faultsIn_bind (faultsIn_bindReferences t _) fun refs _ =>
    faultsIn_bind (faultsIn_foldlM (fun bases c => ?_) t.realClasses ∅) fun _ _ => faultsIn_ok _
  exact faultsIn_bind (faultsIn_baseSet t refs c) fun _ _ => faultsIn_ok _

end Resolution

namespace Assembly

/-- Two classes of one name are a fault of assembly. -/
theorem faultsIn_checkNamesAfter (earlier : List ClassRecord) (classes : List AssembledClass) :
    FaultsIn .assemble (checkNamesAfter earlier classes) := by
  induction classes generalizing earlier with
  | nil => exact faultsIn_ok ()
  | cons c classes ih =>
    unfold checkNamesAfter
    split
    · exact faultsIn_error rfl
    · exact ih _

/-- A result that is refused is a fault of assembly. -/
theorem faultsIn_assemble (t : TypeTable) (r : Resolution) (ps : List Procedure)
    (index : Option Symbol.PublicIndex) : FaultsIn .assemble (assemble t r ps index) := by
  refine faultsIn_bind ?_ fun _ _ => faultsIn_bind (faultsIn_checkNamesAfter [] _) fun _ _ =>
    faultsIn_ok _
  unfold checkClosed
  dsimp only
  split
  · exact faultsIn_error rfl
  · exact faultsIn_ok ()

end Assembly
end Lineage
