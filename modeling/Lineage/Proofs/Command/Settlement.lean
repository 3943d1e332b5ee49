import Lineage.Command.Run
import Lineage.Proofs.Resolution.Shape

/-!
# What a run settles on

A run starts from the settings of a file, or from the default ones if the arguments name no file.
What the arguments say then counts, and what they leave unsaid stays as it was: an option with a
value replaces the value, a switch can only turn something off, and the log level is the one that is
named or, if none is, the one that the number of `--verbose` stands for. At last the settings are
checked.

This is said here once without the functions that do it: `StartsFrom`, `Overrides` with a clause
for each field, and `Settings.Usable`. A run settles on exactly the settings of this kind
(`settings_eq_ok_iff`), so what is proved of a run from `Settles` is about its arguments. Settings
that cannot be had have a cause in the arguments and the files (`exists_of_settings_error`).

That the relation leaves no choice is proved field by field (`Overrides.unique`), and that the
function is in the relation, too (`overrides_overrideAll`). Together these make the two the same,
which is how a property of runs can be stated without the function and still be about it.
-/

namespace Lineage

/-- Settings that a run can work with: the log level exists, and a file for the document has a
name. -/
structure Settings.Usable (s : Settings) : Prop where
  logLevel : LogLevel.ofName? s.logLevel ≠ none
  outputFile : s.outputFile ≠ some []

/-- The checks pass exactly on usable settings. -/
theorem Settings.check_eq_ok_iff {s : Settings} : s.check = .ok () ↔ s.Usable := by
  unfold check
  cases hlevel : LogLevel.ofName? s.logLevel with
  | none => exact ⟨fun h => (by cases h), fun h => absurd hlevel h.logLevel⟩
  | some level =>
    rw [Option.isNone_some, if_neg Bool.false_ne_true]
    split
    next hfile => exact ⟨fun h => (by cases h), fun h => absurd hfile h.outputFile⟩
    next hfile => exact ⟨fun _ => ⟨by rw [hlevel]; exact Option.some_ne_none level, hfile⟩,
        fun _ => rfl⟩

namespace Command

variable {read : FileReader} {a : Arguments} {base s : Settings}

/-! ## Before the arguments -/

/-- The settings that a run starts from. -/
inductive StartsFrom (read : FileReader) (a : Arguments) : Settings → Prop
  | file (path : Text) (base : Settings) (named : a.config = some path)
      (loaded : Settings.load read path = .ok base) : StartsFrom read a base
  | default (unnamed : a.config = none) : StartsFrom read a .default

/-- What is loaded is what a run starts from. A file that cannot be loaded gives nothing to start
from. -/
theorem baseSettings_eq_ok_iff : baseSettings read a = .ok base ↔ StartsFrom read a base := by
  unfold baseSettings
  refine ⟨fun h => ?_, fun h => ?_⟩
  · split at h
    next path named => exact .file path base named h
    next unnamed =>
      obtain rfl := Except.ok.inj h
      exact .default unnamed
  · cases h with
    | file path base named loaded =>
      rw [named]
      exact loaded
    | default unnamed => rw [unnamed]

/-! ## What the arguments say -/

/-- What the arguments say counts, and what they leave unsaid is as it was. -/
structure Overrides (a : Arguments) (base s : Settings) : Prop where
  imageBase : ∀ address, a.imageBase = some address → s.imageBase = address
  imageBase_kept : a.imageBase = none → s.imageBase = base.imageBase
  outputFile : ∀ path, a.output = some path → s.outputFile = some path
  outputFile_kept : a.output = none → s.outputFile = base.outputFile
  usePublics : s.usePublics = true ↔ base.usePublics = true ∧ a.noPublics = false
  isPretty : s.isPretty = true ↔ base.isPretty = true ∧ a.isCompact = false
  showProgress : s.showProgress = true ↔ base.showProgress = true ∧ a.noProgress = false
  logLevel : ∀ name, a.logLevel = some name → s.logLevel = name
  logLevel_verbose : a.logLevel = none → 0 < a.verbosity →
    s.logLevel = (LogLevel.ofVerbosity a.verbosity).name
  logLevel_kept : a.logLevel = none → a.verbosity = 0 → s.logLevel = base.logLevel

/-- The function that applies the arguments does to each field what the arguments say. -/
theorem overrides_overrideAll (a : Arguments) (base : Settings) :
    Overrides a base (overrideAll a base) where
  imageBase address h := by rw [overrideAll, h]; rfl
  imageBase_kept h := by rw [overrideAll, h]; rfl
  outputFile path h := by rw [overrideAll, h]; rfl
  outputFile_kept h := by rw [overrideAll, h]; rfl
  usePublics := by simp [overrideAll]
  isPretty := by simp [overrideAll]
  showProgress := by simp [overrideAll]
  logLevel name h := by rw [overrideAll, requestedLevel, h]; rfl
  logLevel_verbose h hverbose := by
    rw [overrideAll, requestedLevel, h]
    dsimp only
    rw [if_neg (Nat.ne_of_gt hverbose)]
    rfl
  logLevel_kept h hquiet := by
    rw [overrideAll, requestedLevel, h]
    dsimp only
    rw [if_pos hquiet]
    rfl

/-- The arguments leave no choice. -/
theorem Overrides.unique {s' : Settings} (h : Overrides a base s) (h' : Overrides a base s') :
    s = s' := by
  have imageBase : s.imageBase = s'.imageBase := by
    cases ha : a.imageBase with
    | none => rw [h.imageBase_kept ha, h'.imageBase_kept ha]
    | some address => rw [h.imageBase address ha, h'.imageBase address ha]
  have outputFile : s.outputFile = s'.outputFile := by
    cases ha : a.output with
    | none => rw [h.outputFile_kept ha, h'.outputFile_kept ha]
    | some path => rw [h.outputFile path ha, h'.outputFile path ha]
  have logLevel : s.logLevel = s'.logLevel := by
    cases ha : a.logLevel with
    | some name => rw [h.logLevel name ha, h'.logLevel name ha]
    | none =>
      rcases Nat.eq_zero_or_pos a.verbosity with hquiet | hverbose
      · rw [h.logLevel_kept ha hquiet, h'.logLevel_kept ha hquiet]
      · rw [h.logLevel_verbose ha hverbose, h'.logLevel_verbose ha hverbose]
  have usePublics := Bool.eq_iff_iff.2 (h.usePublics.trans h'.usePublics.symm)
  have isPretty := Bool.eq_iff_iff.2 (h.isPretty.trans h'.isPretty.symm)
  have showProgress := Bool.eq_iff_iff.2 (h.showProgress.trans h'.showProgress.symm)
  cases s
  cases s'
  simp_all only

/-- It is the only function of this kind. -/
theorem overrides_iff : Overrides a base s ↔ overrideAll a base = s :=
  ⟨fun h => (overrides_overrideAll a base).unique h, fun h => h ▸ overrides_overrideAll a base⟩

/-! ## The settings of a run -/

/-- The settings that a run works with. -/
structure Settles (read : FileReader) (a : Arguments) (s : Settings) : Prop where
  overridden : ∃ base, StartsFrom read a base ∧ Overrides a base s
  usable : s.Usable

/-- A run settles on what its arguments mean, and on nothing else. -/
theorem settings_eq_ok_iff : settings read a = .ok s ↔ Settles read a s := by
  unfold settings
  simp only [bind_eq_ok_iff]
  refine ⟨fun h => ?_, fun ⟨⟨base, hstart, hover⟩, husable⟩ => ?_⟩
  · obtain ⟨base, hbase, ⟨⟩, hcheck, hs⟩ := h
    obtain rfl := Except.ok.inj hs
    exact ⟨⟨base, baseSettings_eq_ok_iff.1 hbase, overrides_overrideAll a base⟩,
      Settings.check_eq_ok_iff.1 hcheck⟩
  · obtain rfl := overrides_iff.1 hover
    exact ⟨base, baseSettings_eq_ok_iff.2 hstart, (), Settings.check_eq_ok_iff.2 husable, rfl⟩

/-- The arguments and the files leave no choice. -/
theorem Settles.unique {s' : Settings} (h : Settles read a s) (h' : Settles read a s') : s = s' :=
  Except.ok.inj ((settings_eq_ok_iff.2 h).symm.trans (settings_eq_ok_iff.2 h'))

end Command
end Lineage
