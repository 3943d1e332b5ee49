import Lineage.Address
import Lineage.Fault

/-!
# The layout of the image

Symbols say where they stand as a section number and an offset. The section
headers of the image turn that into an address: image base, plus the start of the first
section with that number, plus the offset. The sum has to fit in 64 bits.

A dump without section headers still has a layout, one that can place nothing.
-/

namespace Lineage.Image

/-- The header of one section of the image. -/
structure SectionHeader where
  number : UInt16
  name : Text
  size : UInt64
  address : UInt64
deriving DecidableEq

/-- Where the sections of an image lie. Without a list of headers nothing is known. -/
structure Layout where
  imageBase : UInt64
  headers : Option (List SectionHeader)

namespace Layout

/-- The layout of an image of which the dump says nothing. -/
def unknown (imageBase : UInt64) : Layout := ⟨imageBase, none⟩

/-- The headers there are. -/
def knownHeaders (layout : Layout) : List SectionHeader := layout.headers.getD []

/-- The first header with a number. -/
def header? (layout : Layout) (number : UInt16) : Option SectionHeader :=
  layout.knownHeaders.find? fun h => h.number = number

/-- The address of an offset in a section. -/
def locate? (layout : Layout) (number : UInt16) (offset : UInt64) : Option Address := do
  let header ← layout.header? number
  let start ← Address.add? ⟨layout.imageBase⟩ header.address
  start.add? offset

/-- The address of an offset in a section, as a line of the dump gives it. -/
def resolve (layout : Layout) (number : UInt16) (offset : UInt64) (lineNumber : Nat)
    (line : Text) : Except Fault Address :=
  if layout.headers.isNone then .error (.sectionMissing .sectionHeaders)
  else if (layout.header? number).isNone then
    .error (.expecting "known section number".toList lineNumber line)
  else
    match layout.locate? number offset with
    | some address => .ok address
    | none => .error (.expecting "address within image".toList lineNumber line)

/-- An address that is found is the sum of its three parts as numbers. -/
theorem toNat_of_locate?_eq_some {layout : Layout} {number : UInt16} {offset : UInt64}
    {address : Address} (h : layout.locate? number offset = some address) :
    ∃ header, layout.header? number = some header ∧
      address.value.toNat =
        layout.imageBase.toNat + header.address.toNat + offset.toNat := by
  simp only [locate?, Option.bind_eq_bind, Option.bind_eq_some_iff] at h
  obtain ⟨header, hh, start, hs, ha⟩ := h
  rw [Address.add?_eq_some_iff] at hs ha
  exact ⟨header, hh, by rw [ha, hs]⟩

end Layout
end Lineage.Image
