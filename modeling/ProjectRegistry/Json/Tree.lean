import ProjectRegistry.Text.Digits

/-!
# JSON as written

A tree holds what a JSON text says before anyone asks what it means: numbers as their digits, the
members of an object in their order and with their repetitions, and strings with their escapes
undone. A string that names half a surrogate pair is no text; it stays in the tree as a string
without content, because whoever skips it does not mind.

`Tree.print` writes a tree without any blank.
-/

namespace ProjectRegistry.Json

/-- The digits of a number. An exponent is its sign, true for minus, and its digits. -/
structure Numeral where
  negative : Bool := false
  whole : List Char
  fraction : List Char := []
  exponent : Option (Bool × List Char) := none
  deriving DecidableEq, Repr

inductive Tree where
  | null
  | bool (b : Bool)
  | number (n : Numeral)
  | string (content : Option String)
  | array (items : List Tree)
  | object (members : List (Option String × Tree))
  deriving Inhabited

namespace Tree

def text (s : String) : Tree := .string (some s)

def int : Int → Tree
  | .ofNat n => .number { whole := Text.digitsOf 10 n }
  | .negSucc n => .number { negative := true, whole := Text.digitsOf 10 (n + 1) }

def record (fields : List (String × Tree)) : Tree := .object (fields.map fun f => (some f.1, f.2))

end Tree

def twoFigures (n : Nat) : List Char := [(n / 16).digitChar, (n % 16).digitChar]

/-- A character inside quotes. Quotes, backslashes and control characters are escaped, the common
ones by a letter. -/
def escaped (c : Char) : List Char :=
  if c = '"' then ['\\', '"']
  else if c = '\\' then ['\\', '\\']
  else if c = '\n' then ['\\', 'n']
  else if c = '\t' then ['\\', 't']
  else if c = '\r' then ['\\', 'r']
  else if c.toNat = 8 then ['\\', 'b']
  else if c.toNat = 12 then ['\\', 'f']
  else if c.toNat < 32 then ['\\', 'u', '0', '0'] ++ twoFigures c.toNat
  else [c]

def quoted (cs : List Char) : List Char := '"' :: cs.flatMap escaped ++ ['"']

/-- A number as its digits; an exponent always has a sign. -/
def Numeral.print (n : Numeral) : List Char :=
  (if n.negative then ['-'] else []) ++ n.whole ++
    (if n.fraction.isEmpty then [] else '.' :: n.fraction) ++
    match n.exponent with
    | none => []
    | some (minus, ds) => 'e' :: (if minus then '-' else '+') :: ds

/-- A string as it is written. What has no content is written as half a surrogate pair. -/
def printString : Option String → List Char
  | some s => quoted s.toList
  | none => "\"\\ud800\"".toList

mutual

def Tree.print : Tree → List Char
  | .null => ['n', 'u', 'l', 'l']
  | .bool true => ['t', 'r', 'u', 'e']
  | .bool false => ['f', 'a', 'l', 's', 'e']
  | .number n => n.print
  | .string s => printString s
  | .array items => '[' :: printItems items
  | .object members => '\x7b' :: printMembers members

def printItems : List Tree → List Char
  | [] => [']']
  | t :: rest => t.print ++ printMoreItems rest

def printMoreItems : List Tree → List Char
  | [] => [']']
  | t :: rest => ',' :: (t.print ++ printMoreItems rest)

def printMembers : List (Option String × Tree) → List Char
  | [] => ['\x7d']
  | (k, t) :: rest => printString k ++ ':' :: (t.print ++ printMoreMembers rest)

def printMoreMembers : List (Option String × Tree) → List Char
  | [] => ['\x7d']
  | (k, t) :: rest => ',' :: (printString k ++ ':' :: (t.print ++ printMoreMembers rest))

end

def Tree.toText (t : Tree) : String := String.ofList t.print

example : (Tree.record [("a", .array [.int 1, .null]), ("b", .text "x\n\u0001")]).toText =
    "\x7b\"a\":[1,null],\"b\":\"x\\n\\u0001\"\x7d" := by decide

end ProjectRegistry.Json
