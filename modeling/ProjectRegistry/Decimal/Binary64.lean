/-!
# Double-precision magnitudes

The finite non-negative numbers of the binary64 format, in exact arithmetic. A magnitude is
`significand * 2 ^ power` in units of 2⁻¹⁰⁷⁴, the least positive one. Every operation is its exact
result rounded once to the nearest magnitude, halves to the even significand; what lies too far
above the greatest magnitude overflows.
-/

namespace ProjectRegistry.Decimal

structure Binary64 where
  significand : Nat
  power : Nat
  deriving DecidableEq, Repr

namespace Binary64

def zero : Binary64 := ⟨0, 0⟩

/-- The number in units of 2⁻¹⁰⁷⁴. -/
def scaled (x : Binary64) : Nat := x.significand * Nat.pow 2 x.power

/-- The quotient rounded to the nearest whole number, halves to the even one. -/
def roundedDiv (a d : Nat) : Nat :=
  let q := a / d
  let r := a % d
  if 2 * r < d ∨ (2 * r = d ∧ q % 2 = 0) then q else q + 1

/-- The magnitude nearest to `a / d` units, unless that overflows. -/
def ofUnits (a d : Nat) : Option Binary64 :=
  let power := Nat.log2 (a / d) + 1 - 53
  let m := roundedDiv a (d * Nat.pow 2 power)
  let x : Binary64 := if m = Nat.pow 2 53 then ⟨Nat.pow 2 52, power + 1⟩ else ⟨m, power⟩
  if x.power ≤ 2045 then some x else none

def ofNat (n : Nat) : Option Binary64 := ofUnits (n * Nat.pow 2 1074) 1

def mul (x y : Binary64) : Option Binary64 := ofUnits (x.scaled * y.scaled) (Nat.pow 2 1074)

/-- The rounded quotient of a divisor other than zero. -/
def div (x y : Binary64) : Option Binary64 := ofUnits (x.scaled * Nat.pow 2 1074) y.scaled

end Binary64

end ProjectRegistry.Decimal
