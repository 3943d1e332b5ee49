import Lineage.Text.Lines
import Lineage.Text.Search
import Lineage.Text.Utf8

/-!
# Dumps and their sections

A dump is the listing of a program database as text. It falls into sections,
each announced by a banner line such as `*** TYPES`. What is read are five of
them; they may stand in any order, with other sections between them.

The body of a section is what follows its banner up to the next banner of any
section. The search for a banner starts at the top of the dump, and the first
line that starts with it counts.
-/

namespace Lineage

/-- A dump: its lines. -/
structure Dump where
  lines : List Text

namespace Dump

/-- The sections that are read. -/
inductive Section where
  | types
  | sectionHeaders
  | publics
  | symbols
  | globals
deriving DecidableEq

/-- How a section announces itself. -/
def Section.banner : Section → Text
  | types => "*** TYPES".toList
  | sectionHeaders => "*** SECTION HEADERS".toList
  | publics => "*** PUBLICS".toList
  | symbols => "*** SYMBOLS".toList
  | globals => "*** GLOBALS".toList

/-- Whether a line announces a section, read or not. -/
def isBanner (line : Text) : Bool := "*** ".toList.isPrefixOf line

/-- The dump of a text. -/
def ofText (s : Text) : Dump := ⟨Text.lines s⟩

/-- The dump in the bytes of a file; unreadable bytes are no fault. -/
def ofBytes (bytes : List UInt8) : Dump := ofText (Text.readable bytes)

/-- Whether the dump has a section. -/
def hasSection (d : Dump) (s : Section) : Bool := d.lines.any fun l => s.banner.isPrefixOf l

/-- The lines after the first one that starts with a banner. -/
def after? (d : Dump) (s : Section) : Option (List Text) :=
  match d.lines.dropWhile fun l => !s.banner.isPrefixOf l with
  | [] => none
  | _ :: rest => some rest

/-- Lines up to the next banner. -/
def untilBanner (lines : List Text) : List Text := lines.takeWhile fun l => !isBanner l

/-- The lines of a section. -/
def body? (d : Dump) (s : Section) : Option (List Text) := (d.after? s).map untilBanner

/-! ## Presence of a section -/

theorem banner_isPrefixOf_isBanner {s : Section} {l : Text} (h : s.banner.isPrefixOf l = true) :
    isBanner l = true := by
  rw [List.isPrefixOf_iff_prefix] at h
  rw [isBanner, List.isPrefixOf_iff_prefix]
  refine List.IsPrefix.trans ?_ h
  cases s <;> exact List.prefix_iff_eq_take.2 rfl

theorem after?_isSome (d : Dump) (s : Section) : (d.after? s).isSome = d.hasSection s := by
  unfold after? hasSection
  induction d.lines with
  | nil => rfl
  | cons l ls ih => cases h : s.banner.isPrefixOf l <;> simp [h, ih]

theorem body?_isSome (d : Dump) (s : Section) : (d.body? s).isSome = d.hasSection s := by
  rw [body?, Option.isSome_map, after?_isSome]

end Dump
end Lineage
