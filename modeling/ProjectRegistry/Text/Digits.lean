/-!
# Digits

Numbers as texts of digits in a base of at most sixteen: the value of a text, and the unsigned
numbers of a bounded range as configuration and rights spell them. Reading never accepts a separator
or a blank.
-/

namespace ProjectRegistry.Text

/-- The value of a digit in a base; letters of either case follow the figures. -/
def digit? (base : Nat) (c : Char) : Option Nat :=
  let n := c.toNat
  let d := if 48 ≤ n && n ≤ 57 then n - 48
    else if 97 ≤ n && n ≤ 102 then n - 87
    else if 65 ≤ n && n ≤ 70 then n - 55
    else base
  if d < base then some d else none

/-- The value of a row of digits that stands after a number `n`. -/
def digitsAfter? (base : Nat) : Nat → List Char → Option Nat
  | n, [] => some n
  | n, c :: cs => match digit? base c with
    | none => none
    | some d => digitsAfter? base (n * base + d) cs

def digits? (base : Nat) (cs : List Char) : Option Nat :=
  if cs.isEmpty then none else digitsAfter? base 0 cs

/-- An unsigned number below a bound: at most one plus sign, then digits. -/
def unsigned? (base bound : Nat) (cs : List Char) : Option Nat :=
  let ds := match cs with
    | '+' :: ds => ds
    | ds => ds
  match digits? base ds with
  | some n => if n < bound then some n else none
  | none => none

/-- The digits of a number, without needless zeros. -/
def digitsOf (base n : Nat) : List Char := Nat.toDigits base n

/-- A number in a field of at least `width` figures, filled with zeros on the left. -/
def padded (width n : Nat) : List Char :=
  let ds := digitsOf 10 n
  List.replicate (width - ds.length) '0' ++ ds

def decimalOf : Int → List Char
  | .ofNat n => digitsOf 10 n
  | .negSucc n => '-' :: digitsOf 10 (n + 1)

def numeralText (n : Int) : String := String.ofList (decimalOf n)

example : unsigned? 10 256 "+007".toList = some 7 := by decide
example : unsigned? 16 256 "Ff".toList = some 255 := by decide
example : unsigned? 10 256 "256".toList = none := by decide
example : unsigned? 10 256 "+".toList = none := by decide
example : unsigned? 10 256 "-0".toList = none := by decide
example : padded 4 71 = "0071".toList := by decide

end ProjectRegistry.Text
