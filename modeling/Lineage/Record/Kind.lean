import Lineage.Text.Search

/-!
# Kinds of records

The kind of a record shows in its first line, through a tag that stands somewhere
on it. A line may hold several tags, so the order in which they are tried is part of the
rule: a class tag beats a field-list tag, and so on down to the member function.
-/

namespace Lineage

/-- What a record of the dump is about. -/
inductive RecordKind where
  | classType
  | fieldList
  | baseClass
  | procedure
  | memberFunction
  | unrecognized
deriving DecidableEq

namespace RecordKind

/-- The kind in words. -/
def name : RecordKind → Text
  | classType => "class".toList
  | fieldList => "field list".toList
  | baseClass => "base class".toList
  | procedure => "procedure".toList
  | memberFunction => "member function".toList
  | unrecognized => "unrecognized".toList

/-- The tag of a member that is a direct base class. -/
def baseTag : Text := " LF_BCLASS".toList

/-- The tag of a global procedure symbol. -/
def procedureTag : Text := "S_GPROC32".toList

/-- The kind of the record that a line starts. -/
def ofLine (line : Text) : RecordKind :=
  if line.mentions "LF_CLASS".toList || line.mentions "LF_STRUCTURE".toList then classType
  else if line.mentions "LF_FIELDLIST".toList then fieldList
  else if line.mentions baseTag then baseClass
  else if line.mentions procedureTag then procedure
  else if line.mentions "LF_MFUNCTION".toList then memberFunction
  else unrecognized

end RecordKind
end Lineage
