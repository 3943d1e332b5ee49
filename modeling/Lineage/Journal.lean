import Lineage.Fault

/-!
# The journal of a recovery

A recovery reports what it does: each stage when it starts, each stage with a
summary when it is finished, and conditions that are worth a warning but stop
nothing. The journal keeps them in order, also when a fault ends the run, so that the last
stage started and not finished is the one at fault.
-/

namespace Lineage

/-- A stage of the run starting or coming to its end. -/
inductive Event where
  | started (stage : Stage)
  | finished (stage : Stage) (summary : Text)
deriving DecidableEq

/-- A condition that leaves the result incomplete. -/
inductive Warning where
  | noSymbolSections
  | cyclicInheritance
deriving DecidableEq

/-- A warning in words. -/
def Warning.message : Warning → Text
  | noSymbolSections => "dump has no symbol sections; methods will carry no addresses".toList
  | cyclicInheritance => "inheritance graph has a cycle; depth statistics are partial".toList

/-- What a run has reported so far. -/
structure Journal where
  events : List Event
  warnings : List Warning
deriving DecidableEq

namespace Journal

/-- The journal of a run that has reported nothing. -/
def empty : Journal := ⟨[], []⟩

end Journal

/-- Work that reports to a journal and may stop with a fault. -/
def Reported (α : Type) : Type := Journal → Except Fault α × Journal

namespace Reported

variable {α β : Type}

/-- Runs the work on a journal. -/
def run (x : Reported α) (j : Journal) : Except Fault α × Journal := x j

/-- Reports nothing. -/
protected def pure (a : α) : Reported α := fun j => (.ok a, j)

/-- Goes on with what was found, unless that was a fault. -/
protected def bind (x : Reported α) (f : α → Reported β) : Reported β := fun j =>
  match x j with
  | (.ok a, j) => f a j
  | (.error e, j) => (.error e, j)

instance : Monad Reported where
  pure := Reported.pure
  bind := Reported.bind

/-- Takes over an outcome that reports nothing. -/
def ofExcept (outcome : Except Fault α) : Reported α := fun j => (outcome, j)

/-- Reports a stage that starts or is finished. -/
def note (e : Event) : Reported Unit := fun j => (.ok (), { j with events := j.events ++ [e] })

/-- Reports a warning where a condition holds. -/
def warnIf (condition : Bool) (w : Warning) : Reported Unit := fun j =>
  (.ok (), if condition then { j with warnings := j.warnings ++ [w] } else j)

@[simp] theorem run_pure (a : α) (j : Journal) : run (pure a) j = (.ok a, j) := rfl

theorem run_bind (x : Reported α) (f : α → Reported β) (j : Journal) :
    run (x >>= f) j = match run x j with
      | (.ok a, j) => run (f a) j
      | (.error e, j) => (.error e, j) := rfl

@[simp] theorem run_ofExcept (outcome : Except Fault α) (j : Journal) :
    run (ofExcept outcome) j = (outcome, j) := rfl

@[simp] theorem run_note (e : Event) (j : Journal) :
    run (note e) j = (.ok (), { j with events := j.events ++ [e] }) := rfl

@[simp] theorem run_warnIf (condition : Bool) (w : Warning) (j : Journal) :
    run (warnIf condition w) j =
      (.ok (), if condition then { j with warnings := j.warnings ++ [w] } else j) := rfl

end Reported
end Lineage
