import Lineage.Proofs.Dump.View
import Lineage.Symbol.Tables
import Lineage.TypeTable

/-!
# The same reading from any source

Readers of records are written over any source of lines. What they read is settled by the lines
alone: where one source answers as its image does, a reader gives the same answer or the same fault
on both, and leaves the image where it leaves the source (`Natural`, closed under what readers are
put together from, with one lemma per reader up to `natural_read`).

So whatever a scanner reads in a dump can be found out on the lines in view. For these, the loops
of the readers are recursions on a list: `seekFrom`, `joinFrom` and `signatureFrom` say what each
loop does to the lines that are left, and are what is proved about from here on. The sections of a
dump are entered in the same way (`TypeTable.ofDump_eq` and its like).

Only the loops run on how many lines a source has left, and so each of them has an induction of its
own. Readers that are put together from readers need none.
-/

namespace Lineage

/-! ## Readers and images -/

namespace Reading

variable {σ τ α β : Type} {f : σ → τ}

/-- The second reader does on the image of a source what the first does on the source. -/
def Natural (f : σ → τ) (x : Reading σ α) (y : Reading τ α) : Prop :=
  ∀ s, y.run (f s) = ((x.run s).1, f (x.run s).2)

theorem natural_pure (a : α) : Natural f (pure a) (pure a) := fun _ => rfl

/-- Going on with an answer goes on from images too. This is what carries the property through every
reader that is made of other readers. -/
theorem natural_bind {x : Reading σ α} {y : Reading τ α} {g : α → Reading σ β}
    {g' : α → Reading τ β} (h : Natural f x y) (hg : ∀ a, Natural f (g a) (g' a)) :
    Natural f (x >>= g) (y >>= g') := by
  intro s
  rw [run_bind, run_bind, h s]
  generalize x.run s = r
  obtain ⟨e | a, t⟩ := r
  · rfl
  · exact hg a t

variable [LineSource σ] [LineSource τ] (hf : LineSource.Hom f)
include hf

/-- A fault carries the number of the current line, and the image is at the same line. -/
theorem natural_refuse (fault : Nat → Fault) :
    Natural f (refuse fault : Reading σ α) (refuse fault) := by
  intro s
  show (Except.error (fault (LineSource.line (f s))), f s) = _
  rw [hf.line]
  rfl

theorem natural_ofExcept (outcome : Nat → Except Fault α) :
    Natural f (ofExcept outcome) (ofExcept outcome) := by
  intro s
  show (outcome (LineSource.line (f s)), f s) = _
  rw [hf.line]
  rfl

theorem natural_expect (value : Option α) (marker line : Text) :
    Natural f (expect value marker line) (expect value marker line) := by
  intro s
  cases value with
  | some a => rfl
  | none =>
    show (Except.error (Fault.expecting marker (LineSource.line (f s)) line), f s) = _
    rw [hf.line]
    rfl

theorem natural_lineNumber : Natural f lineNumber lineNumber := by
  intro s
  show (Except.ok (LineSource.line (f s)), f s) = _
  rw [hf.line]
  rfl

theorem natural_peek? : Natural f peek? peek? := by
  intro s
  show (Except.ok (LineSource.peek? (f s)), f s) = _
  rw [hf.peek?]
  rfl

theorem natural_next? : Natural f next? next? := by
  intro s
  show (Except.ok (LineSource.peek? (f s)), LineSource.advance (f s)) = _
  rw [hf.peek?, hf.advance]
  rfl

end Reading

namespace Record

open Reading

section Images

variable {σ τ : Type} [LineSource σ] [LineSource τ] {f : σ → τ} (hf : LineSource.Hom f)
include hf

/-- The first loop: looking for the line that has a phrase. The induction is on how many lines are
left, which is what the loop itself runs on. -/
theorem natural_lineWith (phrase header current : Text) :
    Natural f (lineWith phrase header current) (lineWith phrase header current) := by
  intro s
  unfold Reading.run
  rw [lineWith, lineWith, hf.peek?]
  split
  · rfl
  · cases h : LineSource.peek? s with
    | none =>
      show (Except.error (cutShort .classType (LineSource.line (f s))), f s) = _
      rw [hf.line]
    | some next =>
      dsimp only
      rw [hf.advance, hf.line]
      split
      · rfl
      · exact natural_lineWith phrase header next (LineSource.advance s)
termination_by s => LineSource.left s
decreasing_by exact LineSource.left_advance_lt ‹_›

/-- The second loop: joining lines as long as they end in a comma. -/
theorem natural_join (joined : Text) : Natural f (join joined) (join joined) := by
  intro s
  unfold Reading.run
  rw [join, join, hf.peek?]
  split
  · cases h : LineSource.peek? s with
    | none =>
      show (Except.error (cutShort .fieldList (LineSource.line (f s))), f s) = _
      rw [hf.line]
    | some next =>
      dsimp only
      rw [hf.advance, hf.line]
      split
      · rfl
      · exact natural_join (joined ++ ' ' :: next.trim) (LineSource.advance s)
  · rfl
termination_by s => LineSource.left s
decreasing_by exact LineSource.left_advance_lt ‹_›

/-- The third loop: the lines of a member function up to the end of the record. -/
theorem natural_readSignature (found : Signature) :
    Natural f (readSignature found) (readSignature found) := by
  intro s
  unfold Reading.run
  rw [readSignature, readSignature, hf.peek?]
  cases h : LineSource.peek? s with
  | none => rfl
  | some line =>
    dsimp only
    rw [hf.advance, hf.line]
    split
    · rfl
    · cases found.read line (LineSource.line (LineSource.advance s)) with
      | error e => rfl
      | ok found => exact natural_readSignature found (LineSource.advance s)
termination_by s => LineSource.left s
decreasing_by exact LineSource.left_advance_lt ‹_›

theorem natural_methodOf (text : Text) : Natural f (methodOf text) (methodOf text) :=
  natural_bind (natural_ofExcept hf _) fun _ =>
    natural_bind (natural_expect hf _ _ _) fun _ => natural_pure _

theorem natural_readMember (line : Text) : Natural f (readMember line) (readMember line) := by
  unfold readMember
  split
  · exact natural_bind (natural_join hf _) fun _ =>
      natural_bind (natural_methodOf hf _) fun _ => natural_pure _
  · split
    · exact natural_bind (natural_ofExcept hf _) fun _ => natural_pure _
    · exact natural_pure _

/-- The fourth loop, each step of which reads a member and may take several lines. -/
theorem natural_readMembers (done : List Member) :
    Natural f (readMembers done) (readMembers done) := by
  intro s
  unfold Reading.run
  rw [readMembers, readMembers, hf.peek?]
  cases h : LineSource.peek? s with
  | none => rfl
  | some line =>
    dsimp only
    split
    · rfl
    · have fewer := (forward_readMember line (LineSource.advance s)).left_le
      rw [hf.advance, natural_readMember hf line (LineSource.advance s)]
      generalize (readMember line).run (LineSource.advance s) = r at fewer
      obtain ⟨e | m, t⟩ := r
      · rfl
      · have : LineSource.left t < LineSource.left s :=
          Nat.lt_of_le_of_lt fewer (LineSource.left_advance_lt h)
        exact natural_readMembers (m.toList ++ done) t
termination_by s => LineSource.left s

theorem natural_readFieldList (header : Text) :
    Natural f (readFieldList header) (readFieldList header) :=
  natural_bind (natural_ofExcept hf _) fun _ =>
    natural_bind (natural_readMembers hf []) fun _ => natural_pure _

theorem natural_fieldListId (isForward : Bool) (second : Text) :
    Natural f (fieldListId isForward second) (fieldListId isForward second) := by
  unfold fieldListId
  split
  · exact natural_pure _
  · exact natural_bind (natural_ofExcept hf _) fun _ => natural_pure _

theorem natural_uniqueName (line : Text) : Natural f (uniqueName line) (uniqueName line) := by
  unfold uniqueName
  split
  · exact natural_pure _
  · exact natural_bind (natural_peek? hf) fun _ => natural_bind (natural_expect hf _ _ _) fun _ =>
      natural_bind (natural_next? hf) fun _ => natural_pure _

/-- A class is read in one go, with one loop inside for the line with the names. -/
theorem natural_readClass (header : Text) : Natural f (readClass header) (readClass header) := by
  refine natural_bind (natural_ofExcept hf _) fun id => natural_bind (natural_next? hf) fun o => ?_
  cases o with
  | none => exact natural_refuse hf _
  | some second =>
    dsimp only
    split
    · exact natural_refuse hf _
    · exact natural_bind (natural_fieldListId hf _ _) fun _ =>
        natural_bind (natural_lineWith hf _ _ _) fun _ =>
          natural_bind (natural_expect hf _ _ _) fun _ =>
            natural_bind (natural_uniqueName hf _) fun _ =>
              natural_bind (natural_expect hf _ _ _) fun _ => natural_pure _

theorem natural_readMemberFunction (header : Text) :
    Natural f (readMemberFunction header) (readMemberFunction header) :=
  natural_bind (natural_lineNumber hf) fun _ => natural_bind (natural_ofExcept hf _) fun _ =>
    natural_bind (natural_readSignature hf _) fun _ =>
      natural_bind (natural_ofExcept hf _) fun _ => natural_pure _

/-- A record is read the same from a source and from its image. -/
theorem natural_read (header : Text) : Natural f (read header) (read header) := by
  unfold read
  split
  · exact natural_bind (natural_readClass hf _) fun _ => natural_pure _
  · exact natural_bind (natural_readFieldList hf _) fun _ => natural_pure _
  · exact natural_bind (natural_readMemberFunction hf _) fun _ => natural_pure _
  all_goals exact natural_pure _

end Images

/-! ## Readers at a cursor -/

/-- What is left after a member is a part of what was left before it. -/
theorem before_readMember (line : Text) (c : Cursor) : c.Before ((readMember line).run c).2 :=
  Cursor.before_of_reaches (forward_readMember line c)

/-- What is left after a record is a part of what was left before it, so that a loop over records
comes to an end. -/
theorem before_read (header : Text) (c : Cursor) : c.Before ((read header).run c).2 :=
  Cursor.before_of_reaches (forward_read header c)

/-- Reads lines up to one that has a phrase. -/
def seekFrom (phrase header : Text) (n : Nat) : List Text → Except Fault Text × Cursor
  | [] => (.error (cutShort .classType n), ⟨n, []⟩)
  | line :: rest =>
    if line.allBlank then (.error (.expecting phrase (n + 1) header), ⟨n + 1, rest⟩)
    else if line.mentions phrase then (.ok line, ⟨n + 1, rest⟩)
    else seekFrom phrase header (n + 1) rest

/-- At a cursor the loop is a recursion on the lines that are left. -/
theorem lineWith_cursor (phrase header current : Text) (c : Cursor) :
    lineWith phrase header current c =
      if current.mentions phrase then (.ok current, c)
      else seekFrom phrase header c.line c.rest := by
  obtain ⟨n, rest⟩ := c
  induction rest generalizing current n with
  | nil => rw [lineWith]; rfl
  | cons line rest ih =>
    rw [lineWith, seekFrom]
    split
    · rfl
    · show (if line.allBlank then _ else lineWith phrase header line (⟨n + 1, rest⟩ : Cursor)) = _
      rw [ih]
      rfl

/-- Joins a line that breaks off after a comma with the lines it goes on in. -/
def joinFrom (joined : Text) (n : Nat) : List Text → Except Fault Text × Cursor
  | [] =>
    if Field.endsInComma joined then (.error (cutShort .fieldList n), ⟨n, []⟩)
    else (.ok joined, ⟨n, []⟩)
  | next :: rest =>
    if Field.endsInComma joined then
      if next.allBlank then (.error (cutShort .fieldList n), ⟨n + 1, rest⟩)
      else joinFrom (joined ++ ' ' :: next.trim) (n + 1) rest
    else (.ok joined, ⟨n, next :: rest⟩)

/-- At a cursor the loop is a recursion on the lines that are left. -/
theorem join_cursor (joined : Text) (c : Cursor) :
    join joined c = joinFrom joined c.line c.rest := by
  obtain ⟨n, rest⟩ := c
  induction rest generalizing joined n with
  | nil => rw [join]; rfl
  | cons next rest ih =>
    rw [join, joinFrom]
    split
    · show (if next.allBlank then _
        else join (joined ++ ' ' :: next.trim) (⟨n + 1, rest⟩ : Cursor)) = _
      rw [ih]
      rfl
    · rfl

/-- A member is joined from its first line. White space behind the comma is dropped if the line is
to go on. -/
theorem wholeMember_cursor (first : Text) (c : Cursor) :
    wholeMember first c =
      joinFrom (if Field.endsInComma first then first.trimEnd else first) c.line c.rest :=
  join_cursor _ c

/-- Reads a signature up to a blank line or the end of the section. -/
def signatureFrom (s : Signature) (n : Nat) : List Text → Except Fault Signature × Cursor
  | [] => (.ok s, ⟨n, []⟩)
  | line :: rest =>
    if line.allBlank then (.ok s, ⟨n, line :: rest⟩)
    else
      match s.read line (n + 1) with
      | .error e => (.error e, ⟨n + 1, rest⟩)
      | .ok s => signatureFrom s (n + 1) rest

/-- At a cursor the loop is a recursion on the lines that are left. -/
theorem readSignature_cursor (s : Signature) (c : Cursor) :
    readSignature s c = signatureFrom s c.line c.rest := by
  obtain ⟨n, rest⟩ := c
  induction rest generalizing s n with
  | nil => rw [readSignature]; rfl
  | cons line rest ih =>
    rw [readSignature, signatureFrom]
    show (if line.allBlank then _
      else match s.read line (n + 1) with
        | .error e => (Except.error e, Cursor.mk (n + 1) rest)
        | .ok s => readSignature s (⟨n + 1, rest⟩ : Cursor)) = _
    split
    · rfl
    · cases s.read line (n + 1) with
      | error e => rfl
      | ok s => exact ih s (n + 1)

end Record

/-! ## Sections -/

namespace TypeTable

variable {σ τ : Type} [LineSource σ] [LineSource τ] {f : σ → τ}

/-- The loop over records goes through the same headers in an image, as each record leaves the image
where it leaves the source. -/
theorem readFrom_image (hf : LineSource.Hom f) (t : TypeTable) (s : σ) :
    readFrom t (f s) = readFrom t s := by
  rw [readFrom, readFrom, hf.nextRecord]
  cases h : LineSource.nextRecord s with
  | mk o u =>
    cases o with
    | none => rfl
    | some header =>
      have fewer := (Record.forward_read header u).left_le
      dsimp only
      rw [Record.natural_read hf header u, hf.line]
      generalize (Record.read header).run u = r at fewer
      obtain ⟨e | o, u'⟩ := r
      · rfl
      · have : LineSource.left u' < LineSource.left s :=
          Nat.lt_of_le_of_lt fewer (LineSource.left_nextRecord_lt h)
        cases o with
        | none => exact readFrom_image hf t u'
        | some r =>
          dsimp only
          cases t.insert r (LineSource.line u) with
          | error e => rfl
          | ok t => exact readFrom_image hf t u'
termination_by LineSource.left s

/-- The type table is read from the lines in view. -/
theorem ofDump_eq (d : Dump) : ofDump d = d.enter .types >>= fun c => readFrom empty c := by
  rw [ofDump, Dump.enter_eq_map_seek]
  cases d.seek .types with
  | error e => rfl
  | ok s => exact (readFrom_image LineSource.hom_view empty s).symm

end TypeTable

/-- Section headers are read from the lines in view. -/
theorem Image.headersOf_eq (d : Dump) :
    headersOf d = d.enter .sectionHeaders >>= fun c => readHeaders none c.line c.rest := by
  rw [headersOf, Dump.enter_eq_map_seek]
  cases d.seek .sectionHeaders with
  | error e => rfl
  | ok s =>
    show readHeaders none s.pos (LineSource.rest s) = readHeaders none s.pos s.view.rest
    rw [LineSource.rest_eq_view]

/-- The procedures of a section are read from the lines in view, and a section that is missing has
none. -/
theorem Symbol.readProcedureSection_eq (d : Dump) (layout : Image.Layout) (ps : List Procedure)
    (s : Dump.Section) :
    readProcedureSection d layout ps s =
      match d.enter s with
      | .ok c => readProcedures layout ps c.line c.rest
      | .error _ => .ok ps := by
  rw [readProcedureSection, Dump.enter_eq_map_seek]
  cases d.seek s with
  | error e => rfl
  | ok start =>
    show readProcedures layout ps start.pos (LineSource.rest start) =
      readProcedures layout ps start.pos start.view.rest
    rw [LineSource.rest_eq_view]

/-- Public symbols are read from the lines in view. -/
theorem Symbol.publicsOf_eq (d : Dump) (layout : Image.Layout) :
    publicsOf d layout =
      match d.enter .publics with
      | .ok c => readPublics layout [] c.line c.rest
      | .error _ => .ok [] := by
  rw [publicsOf, Dump.enter_eq_map_seek]
  cases d.seek .publics with
  | error e => rfl
  | ok start =>
    show readPublics layout [] start.pos (LineSource.rest start) =
      readPublics layout [] start.pos start.view.rest
    rw [LineSource.rest_eq_view]

end Lineage
