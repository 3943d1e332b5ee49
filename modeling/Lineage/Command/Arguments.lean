import Lineage.Address

/-!
# Command line arguments

The program takes one dump and a number of options. An option with a value has it in the
next argument or attached, as `--output=FILE`, `-oFILE` or `-o=FILE`; a value in an argument of its
own must not look like an option. One-letter options without a value may be
run together. After `--` everything is a dump to read.

Arguments are taken from left to right, and the first that settles the matter does: a request for
the version or for help is answered even if what follows makes no sense, and nonsense
before it is refused. No option but `--verbose` may be repeated.
-/

namespace Lineage.Command

/-- What a run is asked to do. -/
structure Arguments where
  dump : Text
  output : Option Text
  imageBase : Option UInt64
  noPublics : Bool
  isCompact : Bool
  config : Option Text
  verbosity : Nat
  logLevel : Option Text
  noProgress : Bool
deriving DecidableEq

/-- What the arguments ask for. -/
inductive Request where
  | run (arguments : Arguments)
  | version
  | help
  | misuse
deriving DecidableEq

/-- The options with a value. -/
inductive ValueOption where
  | output
  | imageBase
  | config
  | logLevel
deriving DecidableEq

/-- The options without a value. -/
inductive Switch where
  | noPublics
  | compact
  | verbose
  | noProgress
  | version
  | help
deriving DecidableEq

/-- Any option. -/
inductive AnyOption where
  | value (o : ValueOption)
  | switch (s : Switch)
deriving DecidableEq

/-- The option with a long name. -/
def AnyOption.ofName? (name : Text) : Option AnyOption :=
  if name = "output".toList then some (.value .output)
  else if name = "image-base".toList then some (.value .imageBase)
  else if name = "config".toList then some (.value .config)
  else if name = "log-level".toList then some (.value .logLevel)
  else if name = "no-publics".toList then some (.switch .noPublics)
  else if name = "compact".toList then some (.switch .compact)
  else if name = "verbose".toList then some (.switch .verbose)
  else if name = "no-progress".toList then some (.switch .noProgress)
  else if name = "version".toList then some (.switch .version)
  else if name = "help".toList then some (.switch .help)
  else none

/-- The option with a one-letter name. -/
def AnyOption.ofLetter? : Char → Option AnyOption
  | 'o' => some (.value .output)
  | 'v' => some (.switch .verbose)
  | 'V' => some (.switch .version)
  | 'h' => some (.switch .help)
  | _ => none

/-- The arguments taken so far. -/
structure Draft where
  dump : Option Text
  output : Option Text
  imageBase : Option UInt64
  noPublics : Bool
  isCompact : Bool
  config : Option Text
  verbosity : Nat
  logLevel : Option Text
  noProgress : Bool
  /-- An option whose value has to come next. -/
  pending : Option ValueOption
  /-- Whether the options are over. -/
  optionsOver : Bool

namespace Draft

/-- No arguments taken. -/
def empty : Draft where
  dump := none
  output := none
  imageBase := none
  noPublics := false
  isCompact := false
  config := none
  verbosity := 0
  logLevel := none
  noProgress := false
  pending := none
  optionsOver := false

/-- A path, which is not empty. -/
def path? (s : Text) : Option Text := if s.isEmpty then none else some s

/-- Fills a field that is still empty with a value that is any good. -/
def fill {α : Type} (field : Option α) (value : Option α) (put : α → Draft) :
    Except Request Draft :=
  match field, value with
  | none, some a => .ok (put a)
  | _, _ => .error .misuse

/-- Sets a switch that is not set. -/
def turnOn (isOn : Bool) (draft : Draft) : Except Request Draft :=
  if isOn then .error .misuse else .ok draft

/-- Takes the value of an option. -/
def take (d : Draft) (value : Text) : ValueOption → Except Request Draft
  | .output => fill d.output (path? value) fun v => { d with output := some v, pending := none }
  | .imageBase =>
    fill d.imageBase (word? value) fun v => { d with imageBase := some v, pending := none }
  | .config => fill d.config (path? value) fun v => { d with config := some v, pending := none }
  | .logLevel =>
    fill d.logLevel (some value) fun v => { d with logLevel := some v, pending := none }

/-- Takes an option without a value. -/
def switch (d : Draft) : Switch → Except Request Draft
  | .noPublics => turnOn d.noPublics { d with noPublics := true }
  | .compact => turnOn d.isCompact { d with isCompact := true }
  | .noProgress => turnOn d.noProgress { d with noProgress := true }
  | .verbose => .ok { d with verbosity := d.verbosity + 1 }
  | .version => .error .version
  | .help => .error .help

/-- Takes a dump. There is only one. -/
def takeDump (d : Draft) (value : Text) : Except Request Draft :=
  fill d.dump (path? value) fun v => { d with dump := some v }

/-- Takes an option by its long name, with a value attached or not. -/
def takeLong (d : Draft) (name : Text) (attached : Option Text) : Except Request Draft :=
  match AnyOption.ofName? name, attached with
  | some (.value o), some value => d.take value o
  | some (.value o), none => .ok { d with pending := some o }
  | some (.switch s), none => d.switch s
  | _, _ => .error .misuse

/-- Takes options by their letters. What follows the letter of an option with a value
is the value. -/
def takeLetters (d : Draft) : Text → Except Request Draft
  | [] => .ok d
  | letter :: rest =>
    match AnyOption.ofLetter? letter with
    | some (.switch s) =>
      match d.switch s with
      | .ok d => takeLetters d rest
      | .error request => .error request
    | some (.value o) =>
      match rest with
      | [] => .ok { d with pending := some o }
      -- One equals sign may stand between the letter and the value.
      | '=' :: value => d.take value o
      | value => d.take value o
    | none => .error .misuse

/-- Splits a long option at its first equals sign. -/
def splitLong (s : Text) : Text × Option Text :=
  match s.dropWhile fun c => c != '=' with
  | [] => (s, none)
  | _ :: value => (s.takeWhile fun c => c != '=', some value)

/-- Whether an argument looks like an option. A lone dash does not. -/
def looksLikeOption : Text → Bool
  | '-' :: _ :: _ => true
  | _ => false

/-- Takes one argument. -/
def step (d : Draft) (arg : Text) : Except Request Draft :=
  if d.optionsOver then d.takeDump arg
  else
    match d.pending with
    -- The two dashes that end the options look like one too, so they are no value.
    | some o => if looksLikeOption arg then .error .misuse else d.take arg o
    | none =>
      match arg with
      | ['-', '-'] => .ok { d with optionsOver := true }
      | '-' :: '-' :: long => d.takeLong (splitLong long).1 (splitLong long).2
      | '-' :: letter :: letters => d.takeLetters (letter :: letters)
      | dump => d.takeDump dump

/-- The request of arguments that are all taken. -/
def finish (d : Draft) : Request :=
  match d.pending, d.dump with
  | none, some dump => .run
    { dump
      output := d.output
      imageBase := d.imageBase
      noPublics := d.noPublics
      isCompact := d.isCompact
      config := d.config
      verbosity := d.verbosity
      logLevel := d.logLevel
      noProgress := d.noProgress }
  | _, _ => .misuse

end Draft

/-- What a list of arguments asks for. -/
def Request.ofArguments (args : List Text) : Request :=
  match args.foldlM Draft.step .empty with
  | .ok d => d.finish
  | .error request => request

end Lineage.Command
