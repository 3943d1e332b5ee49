import Lineage.Text.Numeral

/-!
# Type ids

A dump numbers its type records. The number is 32 bits wide and says nothing
beyond which record is meant; zero is the number of no record. It is written
as `0x` and at least four lower-case hexadecimal digits.
-/

namespace Lineage

/-- The number of a type record. -/
structure TypeId where
  value : UInt32
deriving DecidableEq, Inhabited

namespace TypeId

/-- The id with a number, if the number fits. -/
def ofNat? (n : Nat) : Option TypeId :=
  if n < UInt32.size then some ⟨UInt32.ofNat n⟩ else none

/-- Whether this is the number of no record. -/
def isNull (id : TypeId) : Bool := id.value == 0

/-- The id spelled by a token: a hexadecimal number below 2^32. -/
def read? (token : Text) : Option TypeId := (Text.hexNumber? token).bind ofNat?

/-- The id as the program writes it. -/
def text (id : TypeId) : Text := "0x".toList ++ Text.padded 4 (Text.hex id.value.toNat)

theorem ofNat?_toNat (id : TypeId) : ofNat? id.value.toNat = some id := by
  rw [ofNat?, if_pos id.value.toNat_lt_size, UInt32.ofNat_toNat]

theorem ofNat?_eq_some_iff {n : Nat} {id : TypeId} : ofNat? n = some id ↔ id.value.toNat = n := by
  constructor
  · intro h
    unfold ofNat? at h
    split at h
    next hn =>
      obtain rfl := Option.some.inj h
      simpa using Nat.mod_eq_of_lt hn
    next => simp at h
  · rintro rfl
    exact ofNat?_toNat id

end TypeId
end Lineage
