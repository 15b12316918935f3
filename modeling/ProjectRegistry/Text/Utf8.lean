/-!
# UTF-8

Texts as bytes, and bytes read as text with a replacement character for what is not UTF-8. The
reader goes byte by byte and remembers which continuation bytes it still expects; a byte that does
not fit ends the broken character and starts afresh, so each longest broken beginning of a character
gives one replacement.
-/

namespace ProjectRegistry.Text

def utf8 (s : String) : List UInt8 := s.toList.flatMap String.utf8EncodeChar

/-- What stands for bytes that are no character. -/
def replacement : Char := '\ufffd'

/-- A character under way: how many bytes it still needs, the range of the next one, and the bits so
far. -/
structure Pending where
  owed : Nat
  low : UInt8 := 0x80
  high : UInt8 := 0xBF
  bits : Nat
  deriving DecidableEq

inductive Lead where
  | whole (c : Char)
  | start (p : Pending)
  | broken
  deriving DecidableEq

/-- Reads a first byte. The narrower ranges keep out overlong forms, surrogates and what lies above
U+10FFFF. -/
def Lead.ofByte (b : UInt8) : Lead :=
  let n := b.toNat
  if n < 0x80 then .whole (Char.ofNat n)
  else if n < 0xC2 then .broken
  else if n < 0xE0 then .start { owed := 0, bits := n - 0xC0 }
  else if n = 0xE0 then .start { owed := 1, low := 0xA0, bits := 0 }
  else if n = 0xED then .start { owed := 1, high := 0x9F, bits := 0xD }
  else if n < 0xF0 then .start { owed := 1, bits := n - 0xE0 }
  else if n = 0xF0 then .start { owed := 2, low := 0x90, bits := 0 }
  else if n < 0xF4 then .start { owed := 2, bits := n - 0xF0 }
  else if n = 0xF4 then .start { owed := 2, high := 0x8F, bits := 4 }
  else .broken

/-- Reads on from a first byte, with what follows it read by `next`. -/
def Lead.emit (next : Option Pending → List Char) : Lead → List Char
  | .whole c => c :: next none
  | .start p => next (some p)
  | .broken => replacement :: next none

/-- Reads bytes as text, in the middle of a character or between two. -/
def decodeFrom : Option Pending → List UInt8 → List Char
  | none, [] => []
  | some _, [] => [replacement]
  | none, b :: rest => (Lead.ofByte b).emit fun p => decodeFrom p rest
  | some p, b :: rest =>
    if p.low ≤ b ∧ b ≤ p.high then
      let bits := p.bits * 64 + (b.toNat - 0x80)
      match p.owed with
      | 0 => Char.ofNat bits :: decodeFrom none rest
      | n + 1 => decodeFrom (some { owed := n, bits := bits }) rest
    else replacement :: (Lead.ofByte b).emit fun p => decodeFrom p rest

/-- Reads bytes as text; broken bytes give replacement characters. -/
def decodeLossy (bytes : List UInt8) : String := String.ofList (decodeFrom none bytes)

/-- Reads bytes as text if they are UTF-8, that is, if nothing had to be replaced. -/
def decode? (bytes : List UInt8) : Option String :=
  let s := decodeLossy bytes
  if utf8 s = bytes then some s else none

/-- Where bytes stop being UTF-8, and how many of them are wrong; none are if only the end of a
character is missing. -/
structure Utf8Fault where
  position : Nat
  wrong : Option Nat
  deriving DecidableEq, Repr

/-- Looks for the first fault, in a character that begins at `start` or between two. -/
def faultFrom (start position : Nat) : Option Pending → List UInt8 → Option Utf8Fault
  | none, [] => none
  | some _, [] => some ⟨start, none⟩
  | none, b :: rest =>
    match Lead.ofByte b with
    | .whole _ => faultFrom (position + 1) (position + 1) none rest
    | .start p => faultFrom position (position + 1) (some p) rest
    | .broken => some ⟨position, some 1⟩
  | some p, b :: rest =>
    if p.low ≤ b ∧ b ≤ p.high then
      match p.owed with
      | 0 => faultFrom (position + 1) (position + 1) none rest
      | n + 1 => faultFrom start (position + 1) (some { owed := n, bits := 0 }) rest
    else some ⟨start, some (position - start)⟩

def utf8Fault? (bytes : List UInt8) : Option Utf8Fault := faultFrom 0 0 none bytes

example : utf8Fault? [0x61, 0xF0, 0x9F, 0x2E] = some ⟨1, some 2⟩ := by decide
example : utf8Fault? [0x61, 0xC3] = some ⟨1, none⟩ := by decide
example : utf8Fault? (utf8 "é") = none := by decide
example : decodeLossy (utf8 "aé日😀") = "aé日😀" := by decide
example : decodeLossy [0x61, 0xC0, 0x80, 0x2E] = "a\ufffd\ufffd." := by decide
example : decodeLossy [0xF0, 0x9F, 0x98, 0x2E] = "\ufffd." := by decide
example : decodeLossy [0xED, 0xA0, 0x80] = "\ufffd\ufffd\ufffd" := by decide

end ProjectRegistry.Text
