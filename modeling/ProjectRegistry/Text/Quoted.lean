import ProjectRegistry.Text.Digits
import ProjectRegistry.Text.Unprintable

/-!
# Quoted text

A character or a text between quotes, as failures show it. The quote itself and the backslash are
escaped, and so is what cannot be printed: the common controls by a letter and everything else by
its number.
-/

namespace ProjectRegistry.Text

def escaped (quote c : Char) : List Char :=
  if c = quote ∨ c = '\\' then ['\\', c]
  else if c = '\n' then ['\\', 'n']
  else if c = '\r' then ['\\', 'r']
  else if c = '\t' then ['\\', 't']
  else if c = '\x00' then ['\\', '0']
  else if isUnprintable c then ['\\', 'u', '\x7b'] ++ digitsOf 16 c.toNat ++ ['\x7d']
  else [c]

def quoted (quote : Char) (cs : List Char) : String :=
  String.ofList (quote :: cs.flatMap (escaped quote) ++ [quote])

example : quoted '\'' ['"'] = "'\"'" := by decide +kernel
example : quoted '"' "a\"'\u0001".toList = "\"a\\\"'\\u\x7b1\x7d\"" := by decide +kernel
example : quoted '"' "e\u0301".toList = "\"e\\u\x7b301\x7d\"" := by decide +kernel

end ProjectRegistry.Text
