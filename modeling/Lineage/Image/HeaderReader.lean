import Lineage.Dump.Scanner
import Lineage.Image.Layout

/-!
# Reading section headers

Section headers are listed one after the other, each opened by a line such as
`SECTION HEADER #1` and followed by lines whose *ends* say what they hold:
`1A2B virtual size`, `1000 virtual address`, `.text name`. They may come in
any order, with other lines between them. A later size or address replaces an
earlier one, while the first name stays. A header has to have an address.
-/

namespace Lineage.Image

/-- A section header that is still being read, with the line that opened it. -/
structure HeaderDraft where
  number : UInt16
  lineNumber : Nat
  name : Option Text
  size : Option UInt64
  address : Option UInt64

/-- The phrase that opens a header. -/
def headerIntro : Text := "SECTION HEADER #".toList

/-- How the line with the address of a section ends. -/
def addressEnding : Text := " virtual address".toList

/-- How the line with the size of a section ends. -/
def sizeEnding : Text := " virtual size".toList

/-- How the line with the name of a section ends. -/
def nameEnding : Text := " name".toList

namespace HeaderDraft

/-- The finished header. -/
def finish (d : HeaderDraft) : Except Fault SectionHeader :=
  match d.address with
  | some address => .ok
    { number := d.number, name := d.name.getD [], size := d.size.getD 0, address }
  | none => .error <| .expecting addressEnding.trim d.lineNumber
      (headerIntro ++ Text.decimal d.number.toNat)

/-- The number that a line starts with. -/
def leadingNumber (line ending : Text) (lineNumber : Nat) : Except Fault UInt64 :=
  match word? (line.trimStart.takeWhile fun c => !Text.isBlank c) with
  | some n => .ok n
  | none => .error (.expecting ending.trim lineNumber line)

/-- The draft with what a further line says. -/
def read (d : HeaderDraft) (line : Text) (lineNumber : Nat) : Except Fault HeaderDraft :=
  if addressEnding.isSuffixOf line then do
    return { d with address := some (← leadingNumber line addressEnding lineNumber) }
  else if sizeEnding.isSuffixOf line then do
    return { d with size := some (← leadingNumber line sizeEnding lineNumber) }
  else
    -- Only a header that has no name yet takes one.
    match d.name, nameEnding.isSuffixOf? line with
    | none, some name => return { d with name := some (Text.trim name) }
    | _, _ => return d

end HeaderDraft

/-- The header that a line opens, given what follows the opening phrase. -/
def openHeader (number line : Text) (lineNumber : Nat) : Except Fault HeaderDraft :=
  match Text.decimal? number.trim with
  | some n =>
    if n < UInt16.size then .ok ⟨UInt16.ofNat n, lineNumber, none, none, none⟩
    else .error (.expecting headerIntro lineNumber line)
  | none => .error (.expecting headerIntro lineNumber line)

/-- The headers in the lines of a section, `n` lines of the dump having been read and
the header `open?` being unfinished. -/
def readHeaders (open? : Option HeaderDraft) (n : Nat) :
    List Text → Except Fault (List SectionHeader)
  | [] =>
    match open? with
    | some draft => do return [← draft.finish]
    | none => return []
  | line :: rest =>
    match headerIntro.isPrefixOf? line.trim, open? with
    | some number, some draft => do
      -- What is wrong with the header before is reported before what is wrong with this one.
      let header ← draft.finish
      let next ← openHeader number line (n + 1)
      return header :: (← readHeaders (some next) (n + 1) rest)
    | some number, none => do
      let next ← openHeader number line (n + 1)
      readHeaders (some next) (n + 1) rest
    | none, some draft => do
      let draft ← draft.read line.trim (n + 1)
      readHeaders (some draft) (n + 1) rest
    | none, none => readHeaders none (n + 1) rest

/-- The section headers of a dump. -/
def headersOf (d : Dump) : Except Fault (List SectionHeader) := do
  let s ← d.seek .sectionHeaders
  readHeaders none s.pos (LineSource.rest s)

/-- The layout that a dump describes. -/
def Layout.ofDump (d : Dump) (imageBase : UInt64) : Except Fault Layout :=
  if d.hasSection .sectionHeaders then do return ⟨imageBase, some (← headersOf d)⟩
  else return .unknown imageBase

end Lineage.Image
