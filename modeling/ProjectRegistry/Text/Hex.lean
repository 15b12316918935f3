import ProjectRegistry.Text.Digits
import ProjectRegistry.Text.Utf8

/-!
# Hexadecimal bytes

Bytes as two lower-case figures each, and the way back from figures of either case. A text that is
no such row is refused for its length first, and else for its first byte that is no figure.
-/

namespace ProjectRegistry.Text.Hex

/-- Why a text is no row of bytes. -/
inductive Fault where
  | oddLength
  | badByte (byte : UInt8) (position : Nat)
  deriving DecidableEq, Repr

def ofByte (b : UInt8) : List Char :=
  [(b.toNat / 16).digitChar, (b.toNat % 16).digitChar]

def encode (bytes : List UInt8) : String := String.ofList (bytes.flatMap ofByte)

def figure? (b : UInt8) : Option Nat := digit? 16 (Char.ofNat b.toNat)

/-- Reads figures in pairs from a position on. -/
def pairsFrom (position : Nat) : List UInt8 → Except Fault (List UInt8)
  | [] => .ok []
  | [_] => .error .oddLength
  | h :: l :: rest =>
    match figure? h, figure? l with
    | none, _ => .error (.badByte h position)
    | some _, none => .error (.badByte l (position + 1))
    | some a, some b =>
      match pairsFrom (position + 2) rest with
      | .ok bytes => .ok (UInt8.ofNat (a * 16 + b) :: bytes)
      | .error e => .error e

def decode (s : String) : Except Fault (List UInt8) :=
  let bytes := utf8 s
  if bytes.length % 2 = 1 then .error .oddLength else pairsFrom 0 bytes

example : decode "00fF7f" = .ok [0, 255, 127] := rfl
example : encode [0, 255, 127] = "00ff7f" := by decide
example : decode "0g!" = .error .oddLength := rfl
example : decode "0g!0" = .error (.badByte 103 1) := rfl

end ProjectRegistry.Text.Hex
