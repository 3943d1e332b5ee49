import Lineage.Image.Layout
import Lineage.Symbol.Basic
import Lineage.Text.Word

/-!
# Symbol lines

A symbol stands on one line, after its indentation and offset:

    S_GPROC32: [0001:00001010], Cb: 0000001A, Type:   0x1001, Base::Bar
    S_PUB32: [0001:00001010], Flags: 00000002, ?Bar@Base@@QAEXXZ

The tag may stand anywhere on the line, and the first place where the rest has
the form of a symbol counts. Each reader below takes a part of that form off
the front of a text: a fixed phrase, a run of hexadecimal digits, a run of visible
characters.
-/

namespace Lineage.Symbol

/-- A non-empty run of hexadecimal digits, and what follows it. -/
def hexRun? (s : Text) : Option (Text × Text) :=
  if (s.takeWhile Text.isHexDigit).isEmpty then none
  else some (s.takeWhile Text.isHexDigit, s.dropWhile Text.isHexDigit)

/-- Where a symbol stands, in the digits of its line. -/
structure Place where
  number : Text
  offset : Text

/-- A place such as `[0001:00001010]`, and what follows it. -/
def place? (s : Text) : Option (Place × Text) := do
  let s ← "[".toList.isPrefixOf? s
  let (number, s) ← hexRun? s
  let s ← ":".toList.isPrefixOf? s
  let (offset, s) ← hexRun? s
  let s ← "]".toList.isPrefixOf? s
  return (⟨number, offset⟩, s)

/-- What follows a phrase and a run of hexadecimal digits. -/
def afterHex? (phrase s : Text) : Option Text := do
  let (_, s) ← hexRun? (← phrase.isPrefixOf? s)
  return s

/-- The type of a procedure and its name. The type is a run of visible characters ended by
a comma, and the name is the rest of the line. -/
def typeAndName? (s : Text) : Option (Text × Text) := do
  let s := s.trimStart
  -- The blank after the comma ends the run, so the comma can only be its last character.
  let run := s.takeWhile fun c => !Text.isBlank c
  let type ← ",".toList.isSuffixOf? run
  let name ← " ".toList.isPrefixOf? (s.dropWhile fun c => !Text.isBlank c)
  if type.isEmpty || name.isEmpty || name.contains '\n' then none else some (type, name)

/-- The tag of a public symbol. -/
def publicTag : Text := "S_PUB32".toList

/-- The fields of a procedure symbol whose tag starts the text. The tag may run on
in further word characters. -/
def procedureAt? (s : Text) : Option (Place × Text × Text) := do
  let s ← RecordKind.procedureTag.isPrefixOf? s
  let s ← ": ".toList.isPrefixOf? (s.dropWhile Text.isWordChar)
  let (place, s) ← place? s
  let s ← afterHex? ", Cb: ".toList s
  let s ← ", Type:".toList.isPrefixOf? s
  return (place, ← typeAndName? s)

/-- The fields of a public symbol whose tag starts the text. -/
def publicAt? (s : Text) : Option (Place × Text) := do
  let s ← publicTag.isPrefixOf? s
  let s ← ": ".toList.isPrefixOf? s
  let (place, s) ← place? s
  let s ← afterHex? ", Flags: ".toList s
  let s ← ", ".toList.isPrefixOf? s
  let name := s.takeWhile fun c => !Text.isBlank c
  if name.isEmpty then none else some (place, name)

namespace Place

/-- The section number, which is 16 bits wide. -/
def sectionNumber? (p : Place) : Option UInt16 :=
  (Text.digits? Text.hexDigit? 16 p.number).bind fun n =>
    if n < UInt16.size then some (UInt16.ofNat n) else none

/-- The address of a place that a line gives. -/
def address (p : Place) (layout : Image.Layout) (lineNumber : Nat) (line : Text) :
    Except Fault Address :=
  match p.sectionNumber? with
  | none => .error (.expecting "section number".toList lineNumber line)
  | some number =>
    match word? p.offset with
    | none => .error (.expecting "section offset".toList lineNumber line)
    | some offset => layout.resolve number offset lineNumber line

end Place

/-- The procedure on a line. A type that is no id, or zero, is no type. -/
def readProcedure (line : Text) (lineNumber : Nat) (layout : Image.Layout) :
    Except Fault Procedure :=
  match Text.firstMatch? procedureAt? line with
  | none => .error (.expecting RecordKind.procedureTag lineNumber line)
  | some (place, type, name) => do
    let address ← place.address layout lineNumber line
    return { name := name.trim, type := (TypeId.read? type).filter fun id => !id.isNull, address }

/-- The public symbol on a line. -/
def readPublic (line : Text) (lineNumber : Nat) (layout : Image.Layout) :
    Except Fault PublicSymbol :=
  match Text.firstMatch? publicAt? line with
  | none => .error (.expecting publicTag lineNumber line)
  | some (place, mangled) => do
    return { mangled, address := ← place.address layout lineNumber line }

end Lineage.Symbol
