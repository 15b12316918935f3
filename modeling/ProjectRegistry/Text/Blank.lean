/-!
# Blank characters

The characters of the Unicode property White_Space, and what is left of a text without them at its
ends. A name made of blank characters alone counts as no name.
-/

namespace ProjectRegistry.Text

/-- The Unicode property White_Space. -/
def isBlank (c : Char) : Bool :=
  let n := c.toNat
  (9 ≤ n && n ≤ 13) || n == 0x20 || n == 0x85 || n == 0xA0 || n == 0x1680 ||
    (0x2000 ≤ n && n ≤ 0x200A) || n == 0x2028 || n == 0x2029 || n == 0x202F || n == 0x205F ||
      n == 0x3000

def trimStart (cs : List Char) : List Char := cs.dropWhile isBlank

def trim (cs : List Char) : List Char := (trimStart (trimStart cs).reverse).reverse

example : trim " \u3000ab\u2009c\t".toList = "ab\u2009c".toList := by decide
example : trim "\u200b".toList = "\u200b".toList := by decide

end ProjectRegistry.Text
