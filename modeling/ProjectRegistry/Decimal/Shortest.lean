import ProjectRegistry.Decimal.Binary64
import ProjectRegistry.Text.Digits

/-!
# Shortest decimals

The fewest digits that read back as a given binary64 magnitude, and of those the nearest to it. The
reals that round to a magnitude form an interval around it, with its ends if the significand is
even. For one digit, two digits and so on, the two decimals around the magnitude are tried;
seventeen digits always suffice.
-/

namespace ProjectRegistry.Decimal

/-- The decimal `coefficient * 10 ^ exponent`. -/
structure Scientific where
  coefficient : Nat
  exponent : Int
  deriving DecidableEq, Repr

namespace Binary64

/-- The ends of the interval that rounds to a magnitude, in quarters of a unit. Below a power of two
the magnitudes are twice as dense. -/
def interval (x : Binary64) : Nat × Nat :=
  let unit := Nat.pow 2 x.power
  let below := if x.significand = Nat.pow 2 52 ∧ 0 < x.power then unit else 2 * unit
  (4 * x.scaled - below, 4 * x.scaled + 2 * unit)

def reads (x : Binary64) (s : Scientific) : Bool :=
  let value := s.coefficient * Nat.pow 10 s.exponent.toNat * (4 * Nat.pow 2 1074)
  let low := x.interval.1 * Nat.pow 10 (-s.exponent).toNat
  let high := x.interval.2 * Nat.pow 10 (-s.exponent).toNat
  if x.significand % 2 = 0 then low ≤ value && value ≤ high else low < value && value < high

/-- How many digits a number has; zero has none. -/
def digitCount (n : Nat) : Nat := if n = 0 then 0 else (Text.digitsOf 10 n).length

/-- The exponent of ten of the first digit of a positive magnitude. -/
def leadingExponent (x : Binary64) : Int :=
  if Nat.pow 2 1074 ≤ x.scaled then (digitCount (x.scaled / Nat.pow 2 1074) : Int) - 1
  else -(digitCount ((Nat.pow 2 1074 - 1) / x.scaled) : Int)

/-- The decimals around a magnitude on the grid of a power of ten, the nearer one first; of two
equally near ones the even one. -/
def neighbours (x : Binary64) (e : Int) : List Scientific :=
  let a := x.scaled * Nat.pow 10 (-e).toNat
  let d := Nat.pow 2 1074 * Nat.pow 10 e.toNat
  if roundedDiv a d = a / d then [⟨a / d, e⟩, ⟨a / d + 1, e⟩] else [⟨a / d + 1, e⟩, ⟨a / d, e⟩]

/-- The first decimal that reads back on finer and finer grids. -/
def firstThatReads (x : Binary64) : Nat → Int → Scientific
  | 0, _ => ⟨0, 0⟩
  | grids + 1, e => ((x.neighbours e).find? x.reads).getD (x.firstThatReads grids (e - 1))

def shortest (x : Binary64) : Scientific := x.firstThatReads 17 x.leadingExponent

end Binary64

end ProjectRegistry.Decimal
