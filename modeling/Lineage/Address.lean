import Lineage.Text.Numeral

/-!
# Addresses

A symbol stands at an address of the loaded image, a 64-bit number. Addresses
are sums of an image base, the start of a section and an offset in it, and a
sum that does not fit in 64 bits is no address: `add?` refuses it where a wrapped
sum would name a place that has nothing to do with the symbol.
-/

namespace Lineage

/-- A 64-bit number read from a token: a hexadecimal number below 2^64. -/
def word? (token : Text) : Option UInt64 :=
  (Text.hexNumber? token).bind fun n => if n < UInt64.size then some (UInt64.ofNat n) else none

/-- A place in the loaded image. -/
structure Address where
  value : UInt64
deriving DecidableEq, Inhabited

namespace Address

/-- Where an image is loaded unless it says otherwise. -/
def defaultImageBase : UInt64 := 0x400000

/-- The address a number of bytes further on, if there is one. -/
def add? (a : Address) (offset : UInt64) : Option Address :=
  if a.value.toNat + offset.toNat < UInt64.size then some ⟨a.value + offset⟩ else none

/-- The address as the program writes it. -/
def text (a : Address) : Text := "0x".toList ++ Text.hex a.value.toNat

/-- The address with zeros up to ten digits, for listings in columns. -/
def columnText (a : Address) : Text := "0x".toList ++ Text.padded 10 (Text.hex a.value.toNat)

theorem add?_eq_some_iff {a b : Address} {offset : UInt64} :
    a.add? offset = some b ↔ b.value.toNat = a.value.toNat + offset.toNat := by
  unfold add?
  constructor
  · intro h
    split at h
    next hlt =>
      obtain rfl := Option.some.inj h
      simpa [UInt64.toNat_add] using Nat.mod_eq_of_lt hlt
    next => simp at h
  · intro h
    have hlt : a.value.toNat + offset.toNat < UInt64.size := h ▸ b.value.toNat_lt_size
    obtain ⟨v⟩ := b
    simp only [hlt, if_true, Option.some.injEq, mk.injEq]
    apply UInt64.toNat_inj.1
    rw [UInt64.toNat_add, Nat.mod_eq_of_lt hlt]
    exact h.symm

end Address
end Lineage
