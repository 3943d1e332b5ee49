import Lineage.Text.Numeral

/-!
# Fixed places

A binary floating-point number has an exact decimal value, and writing it with a fixed
number of places rounds that exact value once. `exactRatio` takes a number
apart into a fraction of naturals; `roundDiv` rounds a fraction to the nearest
integer, a half to the even one; `roundDiv_near` says that nothing is nearer.
-/

namespace Lineage.Text

/-- The integer nearest to a quotient; a half goes to the even neighbour. -/
def roundDiv (num den : Nat) : Nat :=
  let q := num / den
  let r := num % den
  if 2 * r < den then q
  else if den < 2 * r then q + 1
  else if q % 2 = 0 then q
  else q + 1

/-- The rounded quotient is within half a unit of the exact one. -/
theorem roundDiv_near (num : Nat) {den : Nat} (hden : 0 < den) :
    2 * num ≤ 2 * roundDiv num den * den + den ∧ 2 * roundDiv num den * den ≤ 2 * num + den := by
  have h : den * (num / den) + num % den = num := Nat.div_add_mod num den
  have hr : num % den < den := Nat.mod_lt _ hden
  have hq : (num / den) * den = den * (num / den) := Nat.mul_comm ..
  have hs : (num / den + 1) * den = den * (num / den) + den := by
    rw [Nat.add_mul, Nat.one_mul, hq]
  rw [Nat.mul_assoc]
  unfold roundDiv
  dsimp only
  split
  · rw [hq]; omega
  · split
    · rw [hs]; omega
    · split
      · rw [hq]; omega
      · rw [hs]; omega

/-- The exact value of a non-negative finite number, as a numerator and a denominator. -/
def exactRatio (x : Float) : Nat × Nat :=
  let bits := x.toBits.toNat
  let exponent := (bits >>> 52) % (1 <<< 11)
  let fraction := bits % (1 <<< 52)
  -- All numbers but the smallest have a leading one that is not stored.
  if exponent = 0 then (fraction, 1 <<< 1074)
  else if exponent < 1075 then (fraction + (1 <<< 52), 1 <<< (1075 - exponent))
  else ((fraction + (1 <<< 52)) <<< (exponent - 1075), 1)

/-- A fraction with two decimal places. -/
def twoPlaces (num den : Nat) : Text :=
  let hundredths := roundDiv (100 * num) den
  decimal (hundredths / 100) ++ '.' :: padded 2 (decimal (hundredths % 100))

end Lineage.Text
