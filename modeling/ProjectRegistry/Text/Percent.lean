import ProjectRegistry.Text.Hex

/-!
# Percent signs

Texts in which a percent sign and two figures stand for a byte. A percent sign without two figures
stands for itself.
-/

namespace ProjectRegistry.Text

/-- The bytes that stand for themselves or behind percent signs. -/
def percentDecode : List UInt8 → List UInt8
  | b :: h :: l :: rest =>
    if b = 37 then
      match Hex.figure? h, Hex.figure? l with
      | some x, some y => UInt8.ofNat (x * 16 + y) :: percentDecode rest
      | _, _ => b :: percentDecode (h :: l :: rest)
    else b :: percentDecode (h :: l :: rest)
  | b :: rest => b :: percentDecode rest
  | [] => []

example : percentDecode (utf8 "a%41%4%4a%") = utf8 "aA%4J%" := by decide

end ProjectRegistry.Text
