import Lineage.Address
import Lineage.Files
import Lineage.Json.Writer
import Lineage.LogLevel

/-!
# Settings

What a run can be told: the image base, whether public symbols are used, where the document
goes and what it looks like, and how much is said on the way. Settings come from a
file in JSON, in which every field may be missing, and single ones from the command line.

A field that is missing has its default, also at the end of a list of fields; a field that is
there has to be of its kind.
-/

namespace Lineage

open Json (Value)

/-- Everything a run can be told. -/
structure Settings where
  imageBase : UInt64
  usePublics : Bool
  /-- Where the document is written, if not to the output. -/
  outputFile : Option Text
  isPretty : Bool
  showProgress : Bool
  /-- The name of the log level, not yet checked. -/
  logLevel : Text
deriving DecidableEq

/-- Why settings are of no use. -/
inductive SettingsFault where
  | unreadable (path : Text) (problem : FileProblem)
  | malformed (path : Text)
  | unknownLogLevel (name : Text)
  | emptyOutputFile
deriving DecidableEq

namespace Settings

/-- The settings where nothing is said. -/
def default : Settings where
  imageBase := Address.defaultImageBase
  usePublics := true
  outputFile := none
  isPretty := true
  showProgress := true
  logLevel := "warn".toList

instance : Inhabited Settings := ⟨default⟩

/-- The names of the fields in order. -/
def fieldNames : List Text := [
  "image_base".toList, "use_publics".toList, "output_file".toList, "pretty_print".toList,
  "enable_progress_bars".toList, "log_level".toList]

/-! ## Reading and writing -/

/-- A field of its kind, or its default if it is missing. -/
def fieldOr {α : Type} (fallback : α) (item? : Value → Option α) : Option Value → Option α
  | none => some fallback
  | some v => item? v

/-- A 64-bit number. -/
def word64? (v : Value) : Option UInt64 :=
  v.natural?.bind fun n => if n < UInt64.size then some (UInt64.ofNat n) else none

/-- A text or nothing. -/
def optionalText? : Value → Option (Option Text)
  | .null => some none
  | v => v.text?.map some

/-- The settings that a value describes. -/
def ofJson? (v : Value) : Option Settings := do
  match ← v.fields? fieldNames with
  | [imageBase, usePublics, outputFile, isPretty, showProgress, logLevel] =>
    return {
      imageBase := ← fieldOr default.imageBase word64? imageBase
      usePublics := ← fieldOr default.usePublics Value.bool? usePublics
      outputFile := ← fieldOr default.outputFile optionalText? outputFile
      isPretty := ← fieldOr default.isPretty Value.bool? isPretty
      showProgress := ← fieldOr default.showProgress Value.bool? showProgress
      logLevel := ← fieldOr default.logLevel Value.text? logLevel }
  | _ => none

/-- Settings as an object with every field. -/
def toJson (s : Settings) : Value :=
  .object ((fieldNames.map some).zip [
    .ofNat s.imageBase.toNat,
    .bool s.usePublics,
    s.outputFile.elim .null .ofText,
    .bool s.isPretty,
    .bool s.showProgress,
    .ofText s.logLevel])

/-- The settings in a file. -/
def load (read : FileReader) (path : Text) : Except SettingsFault Settings :=
  match read.text path with
  | .error problem => .error (.unreadable path problem)
  | .ok s =>
    match (Value.read? s).bind ofJson? with
    | some settings => .ok settings
    | none => .error (.malformed path)

/-! ## Checking -/

/-- Refuses settings with a log level that does not exist or an output file without a name. -/
def check (s : Settings) : Except SettingsFault Unit :=
  if (LogLevel.ofName? s.logLevel).isNone then .error (.unknownLogLevel s.logLevel)
  else if s.outputFile = some [] then .error .emptyOutputFile
  else .ok ()

/-- The log level. -/
def level (s : Settings) : LogLevel := (LogLevel.ofName? s.logLevel).getD .warn

end Settings

/-- The fault in words. What is wrong with malformed settings is not said. -/
def SettingsFault.message : SettingsFault → Text
  | unreadable path problem =>
    "failed to read config ".toList ++ path ++ ": ".toList ++ problem.message
  | malformed path => "invalid config ".toList ++ path
  | unknownLogLevel name => "unknown log level `".toList ++ name ++ "`".toList
  | emptyOutputFile => "output_file must not be empty".toList

end Lineage
