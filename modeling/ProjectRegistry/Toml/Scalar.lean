import ProjectRegistry.Text.Digits
import ProjectRegistry.Time.Calendar
import ProjectRegistry.Toml.Value

/-!
# Strings, numbers and dates in TOML

The readers of values without parts. Each returns what is left of the text. Their fuel is bounded by
the length of what they read.
-/

namespace ProjectRegistry.Toml

def isWs (c : Char) : Bool := c = ' ' || c = '\t'

def skipWs (cs : List Char) : List Char := cs.dropWhile isWs

/-- A character that comments and literal strings may hold, apart from the quote that ends the
string. -/
def isPlain (c : Char) : Bool := c = '\t' || (0x20 ≤ c.toNat && c.toNat ≠ 0x7F)

/-- Past the end of a line, which is a line feed alone or after a carriage return. -/
def newline? : List Char → Option (List Char)
  | [] => none
  | c :: rest =>
    if c = '\n' then some rest
    else if c = '\r' then
      match rest with
      | d :: rest => if d = '\n' then some rest else none
      | [] => none
    else none

def before (c : Char) : Option (List Char × List Char) → Option (List Char × List Char)
  | some (cs, rest) => some (c :: cs, rest)
  | none => none

/-! ## Strings -/

def numbered? (figures : Nat) (cs : List Char) : Option (Char × List Char) :=
  let ds := cs.take figures
  if ds.length = figures then
    match Text.digits? 16 ds with
    | some n => if h : n.isValidChar then some (Char.ofNatAux n h, cs.drop figures) else none
    | none => none
  else none

def escape? : List Char → Option (Char × List Char)
  | [] => none
  | c :: rest =>
    if c = 'b' then some ('\x08', rest)
    else if c = 't' then some ('\t', rest)
    else if c = 'n' then some ('\n', rest)
    else if c = 'f' then some ('\x0c', rest)
    else if c = 'r' then some ('\r', rest)
    else if c = '"' then some ('"', rest)
    else if c = '\\' then some ('\\', rest)
    else if c = 'u' then numbered? 4 rest
    else if c = 'U' then numbered? 8 rest
    else none

def basicBody : Nat → List Char → Option (List Char × List Char)
  | 0, _ => none
  | _ + 1, [] => none
  | fuel + 1, c :: rest =>
    if c = '"' then some ([], rest)
    else if c = '\\' then
      match escape? rest with
      | some (d, rest) => before d (basicBody fuel rest)
      | none => none
    else if isPlain c then before c (basicBody fuel rest)
    else none

def literalBody : List Char → Option (List Char × List Char)
  | [] => none
  | c :: rest =>
    if c = '\'' then some ([], rest)
    else if isPlain c then before c (literalBody rest)
    else none

def skipLines : Nat → List Char → List Char
  | 0, cs => cs
  | fuel + 1, cs =>
    match newline? (skipWs cs) with
    | some rest => skipLines fuel rest
    | none => skipWs cs

/-- The body of a string of several lines. Three quotes end it, and up to two more before them
belong to it; backslashes count where `escapes` says so. -/
def longBody (quote : Char) (escapes : Bool) : Nat → List Char → Option (List Char × List Char)
  | 0, _ => none
  | _ + 1, [] => none
  | fuel + 1, c :: rest =>
    if c = quote then
      let quotes := (c :: rest).takeWhile (· = quote)
      if quotes.length < 3 then before c (longBody quote escapes fuel rest)
      else if quotes.length ≤ 5 then some (quotes.drop 3, (c :: rest).drop quotes.length)
      else none
    else if c = '\\' ∧ escapes then
      match newline? (skipWs rest) with
      | some next => longBody quote escapes fuel (skipLines fuel next)
      | none =>
        match escape? rest with
        | some (d, rest) => before d (longBody quote escapes fuel rest)
        | none => none
    else match newline? (c :: rest) with
      | some next => before '\n' (longBody quote escapes fuel next)
      | none => if isPlain c then before c (longBody quote escapes fuel rest) else none

/-- A string of several lines after its three quotes; an end of line directly after them does not
count. -/
def longString (quote : Char) (escapes : Bool) (cs : List Char) : Option (List Char × List Char) :=
  let body := (newline? cs).getD cs
  longBody quote escapes (body.length + 1) body

def startsLong (quote : Char) : List Char → Bool
  | a :: b :: c :: _ => a = quote && b = quote && c = quote
  | _ => false

def shortString? : List Char → Option (List Char × List Char)
  | [] => none
  | c :: rest =>
    if c = '"' then basicBody (rest.length + 1) rest
    else if c = '\'' then literalBody rest
    else none

def string? : List Char → Option (List Char × List Char)
  | [] => none
  | c :: rest =>
    if startsLong c (c :: rest) ∧ (c = '"' ∨ c = '\'') then longString c (c = '"') (rest.drop 2)
    else shortString? (c :: rest)

/-! ## Numbers -/

/-- Digits that follow a digit; single underscores may stand between digits. -/
def moreDigits (base : Nat) : List Char → List Char × List Char
  | [] => ([], [])
  | c :: rest =>
    if (Text.digit? base c).isSome then
      let (ds, rest) := moreDigits base rest
      (c :: ds, rest)
    else match c, rest with
      | '_', d :: rest' =>
        if (Text.digit? base d).isSome then
          let (ds, rest) := moreDigits base rest'
          (d :: ds, rest)
        else ([], c :: rest)
      | _, _ => ([], c :: rest)

def digitRow? (base : Nat) : List Char → Option (List Char × List Char)
  | [] => none
  | c :: rest =>
    if (Text.digit? base c).isSome then
      let (ds, rest) := moreDigits base rest
      some (c :: ds, rest)
    else none

/-- A sign, if there is one; true for minus. -/
def sign : List Char → Bool × List Char
  | '-' :: rest => (true, rest)
  | '+' :: rest => (false, rest)
  | cs => (false, cs)

/-- A decimal number with or without a sign; a zero stands alone. -/
def decimal? (cs : List Char) : Option ((Bool × List Char) × List Char) :=
  let (minus, cs) := sign cs
  match cs with
  | '0' :: rest => some ((minus, ['0']), rest)
  | _ => (digitRow? 10 cs).map fun (ds, rest) => ((minus, ds), rest)

/-- A whole number of the signed 64-bit range. -/
def ofDigits? (base : Nat) (minus : Bool) (ds : List Char) : Option Int :=
  (Text.digits? base ds).bind fun n =>
    let i : Int := if minus then -(n : Int) else n
    if Int64.minValue.toInt ≤ i ∧ i ≤ Int64.maxValue.toInt then some i else none

def based? (base : Nat) (cs : List Char) : Option (Value × List Char) :=
  match digitRow? base cs with
  | some (ds, rest) => (ofDigits? base false ds).map fun n => (.integer n, rest)
  | none => none

def integer? : List Char → Option (Value × List Char)
  | '0' :: 'x' :: rest => based? 16 rest
  | '0' :: 'o' :: rest => based? 8 rest
  | '0' :: 'b' :: rest => based? 2 rest
  | cs =>
    match decimal? cs with
    | some ((minus, ds), rest) => (ofDigits? 10 minus ds).map fun n => (.integer n, rest)
    | none => none

def exponent? : List Char → Option (Int × List Char)
  | [] => none
  | c :: rest =>
    if c = 'e' ∨ c = 'E' then
      let (minus, rest) := sign rest
      (digitRow? 10 rest).map fun (ds, rest) =>
        let n : Int := ((Text.digits? 10 ds).getD 0 : Nat)
        (if minus then -n else n, rest)
    else none

/-- Whether digits and an exponent of ten round to a double that is infinite. -/
def isInfinite (ds : List Char) (e : Int) : Bool :=
  let n := (Text.digits? 10 ds).getD 0
  let size : Int := (Text.digitsOf 10 n).length + e
  if n = 0 ∨ size < 309 then false
  else if 310 < size then true
  else (Nat.pow 2 1024 - Nat.pow 2 970) * Nat.pow 10 (-e).toNat ≤ n * Nat.pow 10 e.toNat

/-- A float: a decimal number with a fraction, an exponent or both. A positive one has to be finite.
-/
def float? (cs : List Char) : Option (Value × List Char) :=
  match decimal? cs with
  | none => none
  | some ((minus, ds), rest) =>
    let fraction := match rest with
      | '.' :: rest => digitRow? 10 rest
      | _ => none
    let finish := fun (all : List Char) (e : Int) (rest : List Char) =>
      if !minus ∧ isInfinite all e then none else some (Value.float, rest)
    match fraction with
    | some (fs, rest) =>
      match exponent? rest with
      | some (e, rest) => finish (ds ++ fs) (e - fs.length) rest
      | none => finish (ds ++ fs) (-fs.length) rest
    | none =>
      match exponent? rest with
      | some (e, rest) => finish ds e rest
      | none => none

/-- Infinity or no number, with or without a sign. -/
def special? (cs : List Char) : Option (Value × List Char) :=
  match (sign cs).2 with
  | 'i' :: 'n' :: 'f' :: rest => some (.float, rest)
  | 'n' :: 'a' :: 'n' :: rest => some (.float, rest)
  | _ => none

/-! ## Dates -/

/-- A number of exactly so many digits, within a range. -/
def fixed? (figures low high : Nat) (cs : List Char) : Option (Nat × List Char) :=
  let ds := cs.take figures
  if ds.length = figures then
    (Text.digits? 10 ds).bind fun n =>
      if low ≤ n ∧ n ≤ high then some (n, cs.drop figures) else none
  else none

def past? (mark : Char) : List Char → Option (List Char)
  | [] => none
  | c :: rest => if c = mark then some rest else none

def date? (cs : List Char) : Option (List Char) := do
  let (year, cs) ← fixed? 4 0 9999 cs
  let cs ← past? '-' cs
  let (month, cs) ← fixed? 2 1 12 cs
  let cs ← past? '-' cs
  let (_, cs) ← fixed? 2 1 (Time.daysInMonth year month) cs
  return cs

def clock? (cs : List Char) : Option (List Char) := do
  let (_, cs) ← fixed? 2 0 23 cs
  let cs ← past? ':' cs
  let (_, cs) ← fixed? 2 0 59 cs
  let cs ← past? ':' cs
  let (_, cs) ← fixed? 2 0 60 cs
  match cs with
  | c :: d :: rest => return if c = '.' ∧ d.isDigit then rest.dropWhile Char.isDigit else cs
  | _ => return cs

def offset? : List Char → Option (List Char)
  | [] => none
  | c :: rest =>
    if c = 'Z' ∨ c = 'z' then some rest
    else if c = '+' ∨ c = '-' then do
      let (_, cs) ← fixed? 2 0 23 rest
      let cs ← past? ':' cs
      let (_, cs) ← fixed? 2 0 59 cs
      return cs
    else none

/-- A time of day after a date, with or without an offset. -/
def clockAfterDate (cs : List Char) : List Char :=
  match cs with
  | [] => []
  | c :: rest =>
    if c = 'T' ∨ c = 't' ∨ c = ' ' then
      match clock? rest with
      | some rest => (offset? rest).getD rest
      | none => cs
    else cs

def dateTime? (cs : List Char) : Option (Value × List Char) :=
  match date? cs with
  | some rest => some (.date, clockAfterDate rest)
  | none => (clock? cs).map fun rest => (.date, rest)

def numberOrDate? (cs : List Char) : Option (Value × List Char) :=
  dateTime? cs <|> float? cs <|> special? cs <|> integer? cs

end ProjectRegistry.Toml
