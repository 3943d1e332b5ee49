import Lineage.Text.Utf8

/-!
# Files

The program reads a dump and perhaps a settings file, and may write one document.
Reading is a function from paths to bytes or a reason why there are none, so what the
program does with files is decided without touching any.

`Files` is such a function written out: a directory with plain files in it. It gives the
answers a file system gives for a name that is there, one that is not, the directory itself,
and a name below a plain file.
-/

namespace Lineage

/-- Why a file could not be read or written. -/
inductive FileProblem where
  | notFound
  | isDirectory
  | notDirectory
  | notText
  | other (text : Text)
deriving DecidableEq

/-- The system's words for a problem. -/
def FileProblem.message : FileProblem → Text
  | notFound => "No such file or directory (os error 2)".toList
  | isDirectory => "Is a directory (os error 21)".toList
  | notDirectory => "Not a directory (os error 20)".toList
  | notText => "stream did not contain valid UTF-8".toList
  | other text => text

/-- The bytes at a path, or why there are none. -/
abbrev FileReader := Text → Except FileProblem (List UInt8)

/-- The text at a path. It has to be UTF-8 throughout. -/
def FileReader.text (read : FileReader) (path : Text) : Except FileProblem Text :=
  match read path with
  | .error problem => .error problem
  | .ok bytes =>
    match Text.wellFormed? bytes with
    | some text => .ok text
    | none => .error .notText

/-- A directory of plain files, each a name with its bytes. -/
structure Files where
  entries : List (Text × List UInt8)

namespace Files

/-- The bytes stored under a name. -/
def find? (files : Files) (name : Text) : Option (List UInt8) :=
  (files.entries.find? fun e => e.1 == name).map Prod.snd

/-- The name of the directory itself. -/
def here : Text := ".".toList

/-- Whether the path goes on below a plain file. -/
def isBelowFile (files : Files) (path : Text) : Bool :=
  files.entries.any fun e => (e.1 ++ "/".toList).isPrefixOf path

/-- Why a path that names no plain file cannot be opened. -/
def absence (files : Files) (path : Text) : FileProblem :=
  if files.isBelowFile path then .notDirectory else .notFound

/-- The bytes of the file at a path. -/
def read (files : Files) : FileReader := fun path =>
  match files.find? path with
  | some bytes => .ok bytes
  | none => .error (if path = here then .isDirectory else files.absence path)

/-- Why no file can be created at a path, if none can. -/
def refusal? (files : Files) (path : Text) : Option FileProblem :=
  if path = here then some .isDirectory
  else if path.isEmpty || path.contains '/' then some (files.absence path)
  else none

end Files
end Lineage
