import Lineage.Command.Arguments
import Lineage.Document.Json
import Lineage.Recovery

/-!
# Running the command

A run settles what it is told, recovers the classes of the dump, and delivers the
document: to a file if one is named, to the output otherwise. On the way it says on
the message channel what it does, and at the end how it went. A run that fails says why,
and has written nothing and put nothing out.

The work is cut in two, since whether a file can be written shows only when it is tried.
`prepare` does everything up to the document; `Prepared.deliver` is told whether
the file was refused and gives the outcome. `perform` joins both over a
directory of known files.
-/

namespace Lineage.Command

/-- What a run leaves behind. -/
structure Outcome where
  exitCode : Nat
  /-- The text put out. -/
  output : Text
  /-- The messages on the message channel, each with a line feed after it. -/
  messages : List Text
  warnings : List Warning
  /-- The file written and its content. -/
  written : Option (Text × Text)
deriving DecidableEq

/-- The message channel cut into lines; a name in a message may hold a line feed. -/
def Outcome.messageLines (o : Outcome) : List Text :=
  o.messages.flatMap fun m => Text.lines (m ++ ['\n'])

/-! ## Settings of a run -/

/-- Replaces a field by what the arguments say, if they say anything. -/
def override {α : Type} (given : Option α) (old : α) : α := given.getD old

/-- The name of the log level that the arguments ask for. -/
def requestedLevel (a : Arguments) : Option Text :=
  match a.logLevel with
  | some name => some name
  | none => if a.verbosity = 0 then none else some (LogLevel.ofVerbosity a.verbosity).name

/-- Settings with everything that the arguments say put in place. -/
def overrideAll (a : Arguments) (s : Settings) : Settings where
  imageBase := override a.imageBase s.imageBase
  usePublics := s.usePublics && !a.noPublics
  outputFile := a.output <|> s.outputFile
  isPretty := s.isPretty && !a.isCompact
  showProgress := s.showProgress && !a.noProgress
  logLevel := override (requestedLevel a) s.logLevel

/-- The settings before the arguments: those of the settings file, or the default. -/
def baseSettings (read : FileReader) (a : Arguments) : Except SettingsFault Settings :=
  match a.config with
  | some path => Settings.load read path
  | none => .ok .default

/-- The settings of a run, checked. -/
def settings (read : FileReader) (a : Arguments) : Except SettingsFault Settings := do
  let s := overrideAll a (← baseSettings read a)
  s.check
  return s

/-! ## Messages -/

/-- A message on what is going on. -/
def note (text : Text) : Text := "[*] ".toList ++ text

/-- A message on what has been done. -/
def success (text : Text) : Text := "[+] ".toList ++ text

/-- A message on what went wrong. -/
def failure (text : Text) : Text := "[!] ".toList ++ text

/-- A message followed by that of the file problem behind it. -/
def withCause (text : Text) (problem : FileProblem) : Text :=
  text ++ ": ".toList ++ problem.message

/-- A fault of the settings with the problem behind it. -/
def settingsFailure (e : SettingsFault) : Text :=
  match e with
  | .unreadable _ problem => withCause e.message problem
  | _ => e.message

/-- A fault of the recovery with the stage that raised it and the problem behind it. -/
def recoveryFailure (path : Text) (e : Fault) : Text :=
  let text := e.stage.name ++ " stage failed for ".toList ++ path ++ ": ".toList ++ e.message
  match e with
  | .unreadable _ problem => withCause text problem
  | _ => text

/-- The message on a document that could not be written. -/
def writeProblem (path : Text) (problem : FileProblem) : Text :=
  "failed to write ".toList ++ path ++ ": ".toList ++ problem.message

/-- The message on results that could not be saved. -/
def saveFailure (path : Text) (problem : FileProblem) : Text :=
  withCause ("could not save results to ".toList ++ path ++ ": ".toList
    ++ writeProblem path problem) problem

/-- The message that the dump is being read. -/
def loading (a : Arguments) : Text := note ("Loading dump: ".toList ++ a.dump)

/-- The messages on how a run went. -/
def summary (level : LogLevel) (report : Report) : List Text :=
  let figures := report.assembly
  [ success ("Recovered ".toList ++ Text.decimal figures.classes ++ " classes".toList),
    success ("Methods: ".toList ++ Text.decimal figures.fromProcedures
      ++ " from procedures, ".toList ++ Text.decimal figures.fromPublics
      ++ " from public symbols, ".toList ++ Text.decimal figures.unaddressed
      ++ " without address".toList) ]
  ++ (if report.merges.isEmpty then []
      else [note ("Duplicates: ".toList ++ report.merges.text)])
  ++ (if level.covers .info then Text.lines report.hierarchy.text else [])

/-! ## The run -/

/-- A run up to the point where its document is delivered. -/
inductive Prepared where
  /-- There is no document; the messages say why. -/
  | failed (messages : List Text) (warnings : List Warning)
  /-- There is a document, and the settings say where it goes. -/
  | ready (settings : Settings) (messages : List Text) (warnings : List Warning)
      (report : Report)

/-- The warnings that a log level lets through. -/
def shown (level : LogLevel) (warnings : List Warning) : List Warning :=
  if level.covers .warn then warnings else []

/-- Does everything but deliver the document. -/
def prepare (read : FileReader) (a : Arguments) : Prepared :=
  match settings read a with
  | .error e => .failed [failure (settingsFailure e)] []
  | .ok s =>
    -- From here on the dump has been announced, and the journal tells how far the run came.
    match (Recovery.runFile s.options read a.dump).run .empty with
    | (.error e, journal) =>
      .failed [loading a, failure (recoveryFailure a.dump e)] (shown s.level journal.warnings)
    | (.ok report, journal) =>
      .ready s [loading a] (shown s.level journal.warnings) report

/-- The document as it is put out or written, with a line feed after it. -/
def documentText (s : Settings) (report : Report) : Text :=
  report.document.text s.isPretty ++ ['\n']

namespace Prepared

/-- The file that the document goes to and what is written there, if it goes to one. -/
def file? : Prepared → Option (Text × Text)
  | failed .. => none
  | ready s _ _ report => s.outputFile.map fun path => (path, documentText s report)

/-- Delivers the document. `refusal` says why its file cannot be written, if it cannot. -/
def deliver (refusal : Option FileProblem) : Prepared → Outcome
  | failed messages warnings =>
    { exitCode := 1, output := [], messages, warnings, written := none }
  | ready s messages warnings report =>
    match s.outputFile, refusal with
    | none, _ =>
      { exitCode := 0
        output := documentText s report
        messages := messages ++ summary s.level report
        warnings
        written := none }
    | some path, none =>
      { exitCode := 0
        output := []
        messages := messages ++ success ("Results saved to: ".toList ++ path)
          :: summary s.level report
        warnings
        written := some (path, documentText s report) }
    | some path, some problem =>
      { exitCode := 1
        output := []
        messages := messages ++ [failure (saveFailure path problem)]
        warnings
        written := none }

end Prepared

/-- Runs the command in a directory. -/
def perform (files : Files) (a : Arguments) : Outcome :=
  let prepared := prepare files.read a
  prepared.deliver (prepared.file?.bind fun file => files.refusal? file.1)

/-- The name the program goes by. -/
def programName : String := "pdb-class-recovery"

/-- The answer to a request for the version. -/
def versionText : Text := programName.toList ++ " 1.0.0\n".toList

/-- How the program is called, line by line. -/
def usageLines : List String := [
  "Usage: " ++ programName ++ " [OPTIONS] <DUMP>",
  "",
  "Recovers C++ class hierarchies and method addresses from cvdump text dumps",
  "",
  "Options:",
  "  -o, --output <OUTPUT>          Write JSON here instead of stdout",
  "      --image-base <IMAGE_BASE>  Image base in hex (default 0x400000)",
  "      --no-publics               Do not fall back to S_PUB32 symbols for method addresses",
  "      --compact                  Single-line JSON",
  "      --config <CONFIG>          JSON config file; flags override its values",
  "  -v, --verbose...               Say more; may be repeated",
  "      --log-level <LOG_LEVEL>    off, error, warn, info, debug or trace",
  "      --no-progress              Accepted and without effect",
  "  -h, --help                     Print help",
  "  -V, --version                  Print version"]

/-- How the program is called. -/
def usage : Text := usageLines.flatMap fun line => line.toList ++ ['\n']

end Lineage.Command
