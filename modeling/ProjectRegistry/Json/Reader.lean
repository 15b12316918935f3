import ProjectRegistry.Json.Tree

/-!
# Reading JSON

`Tree.ofText?` reads the one JSON value that a text holds, between blanks and nothing else. It knows
the grammar only: how deep a text nests and what its numbers are worth is for those who read trees.
The readers of single parts return what is left of the text, and their fuel is bounded by its
length.
-/

namespace ProjectRegistry.Json

def isSpace (c : Char) : Bool := c = ' ' || c = '\n' || c = '\t' || c = '\r'

def skip (cs : List Char) : List Char := cs.dropWhile isSpace

/-- A piece of a string: a character that stands for itself, or a sixteen-bit unit given by its
number. -/
inductive Piece where
  | char (c : Char)
  | unit (n : Nat)
  deriving DecidableEq

def fourFigures? (a b c d : Char) : Option Nat := Text.digits? 16 [a, b, c, d]

def namedEscape? (c : Char) : Option Char :=
  if c = '"' ∨ c = '\\' ∨ c = '/' then some c
  else if c = 'b' then some '\x08'
  else if c = 'f' then some '\x0c'
  else if c = 'n' then some '\n'
  else if c = 'r' then some '\r'
  else if c = 't' then some '\t'
  else none

def Piece.before (p : Piece) : Option (List Piece × List Char) → Option (List Piece × List Char)
  | some (ps, rest) => some (p :: ps, rest)
  | none => none

/-- The pieces of a string up to its closing quote. Control characters have to be escaped. -/
def pieces : List Char → Option (List Piece × List Char)
  | [] => none
  | c :: rest =>
    if c = '"' then some ([], rest)
    else if c = '\\' then
      match rest with
      | [] => none
      | e :: rest =>
        if e = 'u' then
          match rest with
          | p :: q :: r :: s :: rest =>
            match fourFigures? p q r s with
            | some n => (Piece.unit n).before (pieces rest)
            | none => none
          | _ => none
        else
          match namedEscape? e with
          | some d => (Piece.char d).before (pieces rest)
          | none => none
    else if c.toNat < 32 then none
    else (Piece.char c).before (pieces rest)

/-- The first half of a surrogate pair. -/
def isHighUnit (n : Nat) : Bool := 0xD800 ≤ n && n ≤ 0xDBFF

/-- The second half of a surrogate pair. -/
def isLowUnit (n : Nat) : Bool := 0xDC00 ≤ n && n ≤ 0xDFFF

/-- The text of pieces; a half of a surrogate pair has to stand directly beside the other. -/
def assemble : List Piece → Option (List Char)
  | [] => some []
  | .char c :: rest => (assemble rest).map (c :: ·)
  | .unit hi :: .unit lo :: rest =>
    if isHighUnit hi then
      if isLowUnit lo then
        (assemble rest).map (Char.ofNat (0x10000 + (hi - 0xD800) * 0x400 + (lo - 0xDC00)) :: ·)
      else none
    else if isLowUnit hi then none
    else (assemble (.unit lo :: rest)).map (Char.ofNat hi :: ·)
  | .unit n :: rest =>
    if isHighUnit n || isLowUnit n then none else (assemble rest).map (Char.ofNat n :: ·)

def stringBody (cs : List Char) : Option (Option String × List Char) :=
  match pieces cs with
  | some (ps, rest) => some ((assemble ps).map String.ofList, rest)
  | none => none

def digitRun (cs : List Char) : Option (List Char × List Char) :=
  let ds := cs.takeWhile Char.isDigit
  if ds.isEmpty then none else some (ds, cs.dropWhile Char.isDigit)

/-- The whole part of a number: a zero, or digits that start with another one. -/
def wholePart (cs : List Char) : Option (List Char × List Char) :=
  match digitRun cs with
  | some (ds, rest) => if ds.head? = some '0' ∧ ds ≠ ['0'] then none else some (ds, rest)
  | none => none

def fractionPart : List Char → Option (List Char × List Char)
  | '.' :: rest => digitRun rest
  | cs => some ([], cs)

def exponentSign : List Char → Bool × List Char
  | '-' :: rest => (true, rest)
  | '+' :: rest => (false, rest)
  | cs => (false, cs)

def exponentPart : List Char → Option (Option (Bool × List Char) × List Char)
  | c :: rest =>
    if c = 'e' ∨ c = 'E' then
      let (minus, rest) := exponentSign rest
      match digitRun rest with
      | some (ds, rest) => some (some (minus, ds), rest)
      | none => none
    else some (none, c :: rest)
  | [] => some (none, [])

def numeralAfterSign (negative : Bool) (cs : List Char) : Option (Numeral × List Char) :=
  match wholePart cs with
  | none => none
  | some (whole, cs) =>
    match fractionPart cs with
    | none => none
    | some (fraction, cs) =>
      match exponentPart cs with
      | none => none
      | some (exponent, cs) => some (⟨negative, whole, fraction, exponent⟩, cs)

def numeral : List Char → Option (Numeral × List Char)
  | '-' :: rest => numeralAfterSign true rest
  | cs => numeralAfterSign false cs

/-- What follows a word, if the text starts with it. -/
def after? : List Char → List Char → Option (List Char)
  | [], cs => some cs
  | _ :: _, [] => none
  | w :: ws, c :: cs => if w = c then after? ws cs else none

/-- A word that stands for a value. -/
def literal (word : List Char) (t : Tree) (cs : List Char) : Option (Tree × List Char) :=
  (after? word cs).map fun rest => (t, rest)

mutual

/-- A value, after blanks. -/
def value : Nat → List Char → Option (Tree × List Char)
  | 0, _ => none
  | fuel + 1, cs =>
    match skip cs with
    | [] => none
    | c :: rest =>
      if c = '"' then (stringBody rest).map fun (s, rest) => (.string s, rest)
      else if c = '[' then
        match skip rest with
        | [] => none
        | d :: rest =>
          if d = ']' then some (.array [], rest)
          else (items fuel (d :: rest)).map fun (ts, rest) => (.array ts, rest)
      else if c = '\x7b' then
        match skip rest with
        | [] => none
        | d :: rest =>
          if d = '\x7d' then some (.object [], rest)
          else (members fuel (d :: rest)).map fun (ms, rest) => (.object ms, rest)
      else if c = 'n' then literal ['u', 'l', 'l'] .null rest
      else if c = 't' then literal ['r', 'u', 'e'] (.bool true) rest
      else if c = 'f' then literal ['a', 'l', 's', 'e'] (.bool false) rest
      else (numeral (c :: rest)).map fun (n, rest) => (.number n, rest)

/-- One or more items and the bracket that closes the array. -/
def items : Nat → List Char → Option (List Tree × List Char)
  | 0, _ => none
  | fuel + 1, cs =>
    match value fuel cs with
    | none => none
    | some (t, rest) =>
      match skip rest with
      | [] => none
      | c :: rest =>
        if c = ']' then some ([t], rest)
        else if c = ',' then (items fuel rest).map fun (ts, rest) => (t :: ts, rest)
        else none

/-- One or more members and the brace that closes the object. -/
def members : Nat → List Char → Option (List (Option String × Tree) × List Char)
  | 0, _ => none
  | fuel + 1, cs =>
    match member fuel (skip cs) with
    | none => none
    | some (m, rest) =>
      match skip rest with
      | [] => none
      | c :: rest =>
        if c = '\x7d' then some ([m], rest)
        else if c = ',' then (members fuel rest).map fun (ms, rest) => (m :: ms, rest)
        else none

def member : Nat → List Char → Option ((Option String × Tree) × List Char)
  | 0, _ => none
  | fuel + 1, cs =>
    match cs with
    | [] => none
    | c :: rest =>
      if c = '"' then
        match stringBody rest with
        | none => none
        | some (k, rest) =>
          match skip rest with
          | [] => none
          | c :: rest =>
            if c = ':' then (value fuel rest).map fun (t, rest) => ((k, t), rest) else none
      else none

end

/-- The value that a text holds between blanks. -/
def Tree.ofChars? (cs : List Char) : Option Tree :=
  match value (2 * cs.length + 1) cs with
  | some (t, rest) => if (skip rest).isEmpty then some t else none
  | none => none

def Tree.ofText? (s : String) : Option Tree := Tree.ofChars? s.toList

example : (Tree.ofText? " [1.50E-3, \"\\ud83d\\ude00\",\x7b\"a\" : []\x7d]\n").map Tree.toText =
    some "[1.50e-3,\"😀\",\x7b\"a\":[]\x7d]" := by decide +kernel
example : (Tree.ofText? "[1,]").isNone = true := by decide +kernel
example : (Tree.ofText? "01").isNone = true := by decide +kernel
example : (Tree.ofText? "1 2").isNone = true := by decide +kernel

end ProjectRegistry.Json
