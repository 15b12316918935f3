import ProjectRegistry.Decimal.Shortest
import ProjectRegistry.Json.Tree

/-!
# The worth of numbers

A number is a whole number of the signed or unsigned 64-bit range, or a finite double. Digits
without fraction and exponent are a whole number where they fit; all else is a double, and so is
minus zero.

A double is not the one nearest to the digits: the reader gathers digits while they fit 64 bits,
rounds what it gathered, and then multiplies with or divides by a rounded power of ten, each step
rounding once.
-/

namespace ProjectRegistry.Json

open Decimal

inductive Number where
  | integer (n : Int)
  | double (negative : Bool) (magnitude : Binary64)
  deriving DecidableEq, Repr

namespace Number

/-- Digits gathered into 64 bits, and how many powers of ten the rest stands for. -/
structure Gathered where
  significand : Nat := 0
  shift : Int := 0
  full : Bool := false
  deriving DecidableEq

/-- Takes one more digit, unless 64 bits are exceeded now or were before. -/
def Gathered.take (g : Gathered) (digit : Nat) (shift : Int) (lost : Int) : Gathered :=
  if g.full ∨ UInt64.size ≤ g.significand * 10 + digit then
    { g with shift := g.shift + lost, full := true }
  else { g with significand := g.significand * 10 + digit, shift := g.shift + shift }

def figure (c : Char) : Nat := c.toNat - 48

/-- Gathers the whole part; a digit that is left out counts as a power of ten. -/
def gatherWhole (ds : List Char) : Gathered :=
  ds.foldl (fun g c => g.take (figure c) 0 1) {}

/-- Gathers the fraction after the whole part; digits that are left out count for nothing. -/
def gatherFraction (g : Gathered) (ds : List Char) : Gathered :=
  ds.foldl (fun g c => g.take (figure c) (-1) 0) { g with full := false }

/-- Divides by 10³⁰⁸ until the exponent is one that a power of ten can stand for; three times always
end in zero. -/
def scaleDown (ten308 : Binary64) : Nat → Binary64 → Int → Option (Binary64 × Int)
  | 0, _, _ => some (.zero, 0)
  | n + 1, x, e =>
    if e < -308 then
      if x.significand = 0 then some (.zero, 0)
      else (x.div ten308).bind fun y => scaleDown ten308 n y (e + 308)
    else some (x, e)

def powerOfTen? (n : Nat) : Option Binary64 := Binary64.ofNat (Nat.pow 10 n)

def timesPowerOfTen? (x : Binary64) (e : Int) : Option Binary64 :=
  (powerOfTen? e.natAbs).bind fun ten => if 0 ≤ e then x.mul ten else x.div ten

/-- The double that gathered digits and an exponent give, unless it overflows. -/
def magnitude? (significand : Nat) (exponent : Int) : Option Binary64 :=
  if significand = 0 then some .zero
  else if 308 < exponent then none
  else (Binary64.ofNat significand).bind fun x =>
    (powerOfTen? 308).bind fun ten308 =>
      (scaleDown ten308 4 x exponent).bind fun scaled => timesPowerOfTen? scaled.1 scaled.2

def writtenExponent : Option (Bool × List Char) → Int
  | none => 0
  | some (minus, ds) =>
    let n := (Text.digitsAfter? 10 0 ds).getD 0
    if minus then -(n : Int) else n

/-- What digits are worth, unless they exceed the doubles. -/
def ofNumeral? (n : Numeral) : Option Number :=
  let whole := gatherWhole n.whole
  if !whole.full ∧ n.fraction.isEmpty ∧ n.exponent = none ∧
      (!n.negative ∨ (0 < whole.significand ∧ whole.significand ≤ Nat.pow 2 63)) then
    some (.integer (if n.negative then -(whole.significand : Int) else whole.significand))
  else
    let all := gatherFraction whole n.fraction
    (magnitude? all.significand (all.shift + writtenExponent n.exponent)).map (.double n.negative)

/-- Digits without the zeros at their end, and how many were left out. -/
def withoutTrailingZeros (ds : List Char) : List Char × Nat :=
  let kept := (ds.reverse.dropWhile (· = '0')).reverse
  (kept, ds.length - kept.length)

/-- How digits are written whose point stands after so many of them: as they are, with at least one
digit after the point, from 10⁻⁵ up to below 10¹⁶, and with an exponent outside. -/
def pointed (negative : Bool) (ds : List Char) (point : Int) : Numeral :=
  if -5 < point ∧ point ≤ 0 then
    ⟨negative, ['0'], List.replicate point.natAbs '0' ++ ds, none⟩
  else if 0 < point ∧ point ≤ 16 then
    let p := point.toNat
    if ds.length ≤ p then ⟨negative, ds ++ List.replicate (p - ds.length) '0', ['0'], none⟩
    else ⟨negative, ds.take p, ds.drop p, none⟩
  else
    let e := point - 1
    ⟨negative, ds.take 1, ds.drop 1, some (e < 0, Text.digitsOf 10 e.natAbs)⟩

/-- How doubles are written: with the digits of the shortest decimal. -/
def ofShortest (negative : Bool) (s : Scientific) : Numeral :=
  let (ds, zeros) := withoutTrailingZeros (Text.digitsOf 10 s.coefficient)
  pointed negative ds (s.exponent + zeros + ds.length)

def toNumeral : Number → Numeral
  | .integer n => ⟨n < 0, Text.digitsOf 10 n.natAbs, [], none⟩
  | .double negative x =>
    if x.significand = 0 then ⟨negative, ['0'], ['0'], none⟩ else ofShortest negative x.shortest

end Number

end ProjectRegistry.Json
