import Lineage.Dump.Field
import Lineage.Dump.Reading
import Lineage.Record.Basic

/-!
# Reading records

A record starts with a line that carries its id and the tag of its kind; further
lines hold its values, up to a blank line. The dumper wraps long lines, so the names of a
class may stand on two lines and a method on several.

Each reader stops where its record is understood: a class record after its
names, a field list or a member function before the blank line. Whatever of the
record is left is skipped by whoever looks for the next one. A record that breaks off is
a fault, and so is one whose values are not where they must be.
-/

namespace Lineage.Record

/-! ## The phrases of records -/

/-- What stands before the field list of a class. -/
def fieldListIntro : Text := "field list type ".toList

/-- What stands before the display name of a class. -/
def classNameIntro : Text := "class name = ".toList

/-- What stands before the mangled name of a class. -/
def uniqueNameIntro : Text := "unique name = ".toList

/-- What stands before the type of a method. -/
def indexIntro : Text := "index = ".toList

/-- What stands before the name of a method. -/
def nameIntro : Text := "name = ".toList

/-- What stands before the class that a base member names. -/
def typeIntro : Text := "type = ".toList

/-- What stands before the class that a member function belongs to. -/
def ownerIntro : Text := "Class type = ".toList

/-- What stands before the type of the object that a member function is called on. -/
def thisIntro : Text := "This type = ".toList

/-- What a member that is one method looks like. -/
def methodTag : Text := "= LF_ONEMETHOD, ".toList

/-- The tag of a member that is a virtual base class. -/
def virtualBaseTag : Text := " LF_VBCLASS".toList

/-- The flag of a forward reference. -/
def forwardFlag : Text := ", FORWARD REF, ".toList

/-- The flag of a static method. -/
def staticFlag : Text := ", STATIC, ".toList

/-- Whether a line carries a flag. A flag ends in a space, which is often lost at
the end of a line. -/
def hasFlag (line flag : Text) : Bool :=
  line.mentions flag || flag.trimEnd.isSuffixOf line.trimEnd

/-- The fault of a record that has no further line. -/
def cutShort (kind : RecordKind) (lineNumber : Nat) : Fault := .truncated kind (lineNumber + 1)

variable {σ : Type} [LineSource σ]

/-! ## Class records -/

/-- The first line with a phrase, from a line already read onwards. A class record that ends
before it, in a blank line or with the section, is at fault. -/
def lineWith (phrase header current : Text) : Reading σ Text := fun s =>
  if current.mentions phrase then (.ok current, s)
  else
    match _h : LineSource.peek? s with
    | none => (.error (cutShort .classType (LineSource.line s)), s)
    | some next =>
      -- The blank line is read before it shows that the record is over.
      let t := LineSource.advance s
      if next.allBlank then (.error (.expecting phrase (LineSource.line t) header), t)
      else lineWith phrase header next t
termination_by s => LineSource.left s
decreasing_by exact LineSource.left_advance_lt _h

/-- The field list named on the second line of a record. Zero names none, and a
forward reference has none whatever its line says. -/
def fieldListId (isForward : Bool) (second : Text) : Reading σ (Option TypeId) :=
  if isForward then return none
  else do
    let id ← .ofExcept fun n => Field.typeIdAfter second fieldListIntro n
    return if id.isNull then none else some id

/-- The unique name, from the line of the names or wrapped onto the one after it. -/
def uniqueName (line : Text) : Reading σ Text := do
  match Field.textAfter? line uniqueNameIntro with
  | some name => return name
  | none =>
    -- A next line without the name belongs to something else and stays unread.
    let wrapped ← .peek?
    let next ← .expect (wrapped.filter fun l => l.mentions uniqueNameIntro) uniqueNameIntro line
    let _ ← .next?
    return (Field.textAfter? next uniqueNameIntro).getD []

/-- A name, if it is not empty. -/
def nonempty? (name : Text) : Option Text := if name.isEmpty then none else some name

/-- Reads a class record after its first line. -/
def readClass (header : Text) : Reading σ ClassRecord := do
  let id ← .ofExcept fun n => Field.leadingTypeId header n
  match ← .next? with
  | none => .refuse (cutShort .classType)
  | some second =>
    if second.allBlank then .refuse fun n => .expecting fieldListIntro n header
    else
      let isForward := hasFlag second forwardFlag
      let fieldList ← fieldListId isForward second
      -- The names may stand on the second line already.
      let line ← lineWith classNameIntro header second
      let display := (Field.textUntil? line classNameIntro ", unique name = ".toList).bind nonempty?
      let display ← .expect display classNameIntro line
      let mangled ← uniqueName line
      let mangled ← .expect (nonempty? mangled) uniqueNameIntro line
      return { id, display, mangled, fieldList, isForward }

/-! ## Field lists -/

/-- Joins a line that breaks off after a comma with the lines it goes on in. -/
def join (joined : Text) : Reading σ Text := fun s =>
  if Field.endsInComma joined then
    match _h : LineSource.peek? s with
    | none => (.error (cutShort .fieldList (LineSource.line s)), s)
    | some next =>
      -- A blank line ends the record, and with it a member that was to go on.
      let t := LineSource.advance s
      if next.allBlank then (.error (.truncated .fieldList (LineSource.line t)), t)
      else join (joined ++ ' ' :: next.trim) t
  else (.ok joined, s)
termination_by s => LineSource.left s
decreasing_by exact LineSource.left_advance_lt _h

/-- A member's line with all its continuation lines. -/
def wholeMember (first : Text) : Reading σ Text :=
  join (if Field.endsInComma first then first.trimEnd else first)

/-- The method a member's text describes. -/
def methodOf (text : Text) : Reading σ Member := do
  let id ← .ofExcept fun n => Field.typeIdAfter text indexIntro n
  let name ← .expect ((Field.quotedAfter? text nameIntro).bind nonempty?) nameIntro text
  return .method name id (hasFlag text staticFlag)

/-- Reads what the first line of a member starts: a method, a base class, or
nothing that is kept. -/
def readMember (line : Text) : Reading σ (Option Member) := do
  if line.mentions methodTag then
    let text ← wholeMember line
    return some (← methodOf text)
  else if line.mentions RecordKind.baseTag || line.mentions virtualBaseTag then
    let id ← .ofExcept fun n => Field.typeIdAfter line typeIntro n
    return some (.base id)
  else return none

/-! ### Reading members moves forward -/

theorem forward_join (joined : Text) : (join joined : Reading σ Text).Forward := by
  intro s
  unfold Reading.run join
  split
  · split
    next => exact .here s
    next next h =>
      dsimp only
      split
      · exact LineSource.reaches_advance s
      · exact .next (forward_join (joined ++ ' ' :: next.trim) (LineSource.advance s))
  · exact .here s
termination_by s => LineSource.left s
decreasing_by exact LineSource.left_advance_lt ‹_›

theorem forward_methodOf (text : Text) : (methodOf text : Reading σ Member).Forward :=
  Reading.forward_bind (Reading.forward_ofExcept _) fun _ =>
    Reading.forward_bind (Reading.forward_expect _ _ _) fun _ => Reading.forward_pure _

theorem forward_readMember (line : Text) :
    (readMember line : Reading σ (Option Member)).Forward := by
  unfold readMember
  split
  · exact Reading.forward_bind (forward_join _) fun _ =>
      Reading.forward_bind (forward_methodOf _) fun _ => Reading.forward_pure _
  · split
    · exact Reading.forward_bind (Reading.forward_ofExcept _) fun _ => Reading.forward_pure _
    · exact Reading.forward_pure _

/-- Reads members up to a blank line or the end of the section, after those in
`done`, which stand in reverse. -/
def readMembers (done : List Member) (s : σ) : Except Fault (List Member) × σ :=
  match _h : LineSource.peek? s with
  | none => (.ok done.reverse, s)
  | some line =>
    -- The blank line stays unread, so that the next record is found after it.
    if line.allBlank then (.ok done.reverse, s)
    else
      match _hm : (readMember line).run (LineSource.advance s) with
      | (.error e, t) => (.error e, t)
      | (.ok m, t) => readMembers (m.toList ++ done) t
termination_by LineSource.left s
decreasing_by
  have read := (forward_readMember line (LineSource.advance s)).left_le
  rw [_hm] at read
  exact Nat.lt_of_le_of_lt read (LineSource.left_advance_lt _h)

theorem forward_readMembers (done : List Member) :
    Reading.Forward (readMembers done : Reading σ (List Member)) := by
  intro s
  unfold Reading.run readMembers
  split
  next => exact .here s
  next line h =>
    split
    · exact .here s
    · have fwd := forward_readMember line (LineSource.advance s)
      split
      next hm => rw [hm] at fwd; exact .next fwd
      next m t hm =>
        rw [hm] at fwd
        have fewer : LineSource.left t < LineSource.left s :=
          Nat.lt_of_le_of_lt fwd.left_le (LineSource.left_advance_lt h)
        exact .next (fwd.trans (forward_readMembers (m.toList ++ done) t))
termination_by s => LineSource.left s

/-- Reads a field list after its first line. A list without base classes and methods
is of no interest. -/
def readFieldList (header : Text) : Reading σ (Option FieldList) := do
  let id ← .ofExcept fun n => Field.leadingTypeId header n
  let members ← readMembers []
  return if members.isEmpty then none else some { id, members }

/-! ## Member functions -/

/-- The class and the object type found so far in a member function's lines. -/
structure Signature where
  owner : Option TypeId
  this : Option TypeId

/-- The signature after one more line. The object type of a static method is
spelled as a type without a number, so anything that is no id counts as none. -/
def Signature.read (s : Signature) (line : Text) (n : Nat) : Except Fault Signature := do
  let owner ←
    if line.mentions ownerIntro then some <$> Field.typeIdAfter line ownerIntro n
    else pure s.owner
  let this := match Field.tokenAfter? line thisIntro with
    | some token => (TypeId.read? token).filter fun id => !id.isNull
    | none => s.this
  return { owner, this }

/-- Reads a signature up to a blank line or the end of the section. -/
def readSignature (found : Signature) : Reading σ Signature := fun s =>
  match _h : LineSource.peek? s with
  | none => (.ok found, s)
  | some line =>
    if line.allBlank then (.ok found, s)
    else
      let t := LineSource.advance s
      match found.read line (LineSource.line t) with
      | .error e => (.error e, t)
      | .ok found => readSignature found t
termination_by s => LineSource.left s
decreasing_by exact LineSource.left_advance_lt _h

/-- Reads a member function after its first line. -/
def readMemberFunction (header : Text) : Reading σ MemberFunction := do
  let headerLine ← .lineNumber
  let id ← .ofExcept fun n => Field.leadingTypeId header n
  let s ← readSignature ⟨none, none⟩
  let owner ← .ofExcept fun _ =>
    match s.owner with
    | some owner => .ok owner
    | none => .error (.expecting ownerIntro headerLine header)
  return { id, owner, this := s.this }

/-! ### Reading records moves forward -/

theorem forward_lineWith (phrase header current : Text) :
    (lineWith phrase header current : Reading σ Text).Forward := by
  intro s
  unfold Reading.run lineWith
  split
  · exact .here s
  · split
    next => exact .here s
    next next h =>
      dsimp only
      split
      · exact LineSource.reaches_advance s
      · exact .next (forward_lineWith phrase header next (LineSource.advance s))
termination_by s => LineSource.left s
decreasing_by exact LineSource.left_advance_lt ‹_›

theorem forward_fieldListId (isForward : Bool) (second : Text) :
    (fieldListId isForward second : Reading σ (Option TypeId)).Forward := by
  unfold fieldListId
  split
  · exact Reading.forward_pure _
  · exact Reading.forward_bind (Reading.forward_ofExcept _) fun _ => Reading.forward_pure _

theorem forward_uniqueName (line : Text) : (uniqueName line : Reading σ Text).Forward := by
  unfold uniqueName
  split
  · exact Reading.forward_pure _
  · exact Reading.forward_bind Reading.forward_peek? fun _ =>
      Reading.forward_bind (Reading.forward_expect _ _ _) fun _ =>
        Reading.forward_bind Reading.forward_next? fun _ => Reading.forward_pure _

theorem forward_readClass (header : Text) :
    (readClass header : Reading σ ClassRecord).Forward := by
  refine Reading.forward_bind (Reading.forward_ofExcept _) fun id =>
    Reading.forward_bind Reading.forward_next? fun second => ?_
  split
  · exact Reading.forward_refuse _
  · split
    · exact Reading.forward_refuse _
    · exact Reading.forward_bind (forward_fieldListId _ _) fun _ =>
        Reading.forward_bind (forward_lineWith _ _ _) fun _ =>
          Reading.forward_bind (Reading.forward_expect _ _ _) fun _ =>
            Reading.forward_bind (forward_uniqueName _) fun _ =>
              Reading.forward_bind (Reading.forward_expect _ _ _) fun _ => Reading.forward_pure _

theorem forward_readFieldList (header : Text) :
    (readFieldList header : Reading σ (Option FieldList)).Forward :=
  Reading.forward_bind (Reading.forward_ofExcept _) fun _ =>
    Reading.forward_bind (forward_readMembers _) fun _ => Reading.forward_pure _

theorem forward_readSignature (found : Signature) :
    (readSignature found : Reading σ Signature).Forward := by
  intro s
  unfold Reading.run readSignature
  split
  next => exact .here s
  next line h =>
    split
    · exact .here s
    · dsimp only
      split
      next => exact LineSource.reaches_advance s
      next found' _ => exact .next (forward_readSignature found' (LineSource.advance s))
termination_by s => LineSource.left s
decreasing_by exact LineSource.left_advance_lt ‹_›

theorem forward_readMemberFunction (header : Text) :
    (readMemberFunction header : Reading σ MemberFunction).Forward :=
  Reading.forward_bind Reading.forward_lineNumber fun _ =>
    Reading.forward_bind (Reading.forward_ofExcept _) fun _ =>
      Reading.forward_bind (forward_readSignature _) fun _ =>
        Reading.forward_bind (Reading.forward_ofExcept _) fun _ => Reading.forward_pure _

/-! ## Any record -/

/-- Reads the record that a line starts. Records of other kinds are passed over. -/
def read (header : Text) : Reading σ (Option TypeRecord) :=
  match RecordKind.ofLine header with
  | .classType => do return some (.classType (← readClass header))
  | .fieldList => do return (← readFieldList header).map .fieldList
  | .memberFunction => do return some (.memberFunction (← readMemberFunction header))
  | .baseClass | .procedure | .unrecognized => return none

theorem forward_read (header : Text) :
    (read header : Reading σ (Option TypeRecord)).Forward := by
  unfold read
  split
  · exact Reading.forward_bind (forward_readClass _) fun _ => Reading.forward_pure _
  · exact Reading.forward_bind (forward_readFieldList _) fun _ => Reading.forward_pure _
  · exact Reading.forward_bind (forward_readMemberFunction _) fun _ => Reading.forward_pure _
  all_goals exact Reading.forward_pure _

end Lineage.Record
