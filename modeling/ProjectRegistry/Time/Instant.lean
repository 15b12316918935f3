import ProjectRegistry.Text.Blank
import ProjectRegistry.Text.Digits
import ProjectRegistry.Time.Calendar

/-!
# Instants

A point in time to the nanosecond, as seconds since the start of 1970 in UTC. A leap second is the
second before it with more than a thousand million nanoseconds.

Instants are written in the manner of RFC 3339, in UTC, with no fraction or one of three, six or
nine digits. Reading takes any offset, and blanks in front of each number and before the offset;
numbers may be shorter than usual, and a year with a sign longer.
-/

namespace ProjectRegistry.Time

structure Instant where
  seconds : Int
  nanos : Nat
  deriving DecidableEq, Repr

namespace Instant

def atMost (a b : Instant) : Bool :=
  a.seconds < b.seconds || (a.seconds = b.seconds && a.nanos ≤ b.nanos)

/-- Full milliseconds since the start of 1970. -/
def millis (t : Instant) : Int := t.seconds * 1000 + t.nanos / 1000000

/-- The first day of the calendar that instants use, in the year -262143. -/
def firstDay : Int := Date.dayNumber ⟨-262143, 1, 1⟩

/-- The last day of the calendar that instants use, in the year 262142. -/
def lastDay : Int := Date.dayNumber ⟨262142, 12, 31⟩

/-- The instant of full milliseconds since the start of 1970, if the calendar has its day. -/
def ofMillis? (ms : Int) : Option Instant :=
  if firstDay ≤ ms / 86400000 ∧ ms / 86400000 ≤ lastDay then
    some ⟨ms / 1000, (ms % 1000).toNat * 1000000⟩
  else none

/-! ## Writing -/

/-- A year; outside of four digits it has a sign. -/
def printYear (y : Int) : List Char :=
  if 0 ≤ y ∧ y ≤ 9999 then Text.padded 4 y.toNat
  else (if y < 0 then '-' else '+') :: Text.padded 4 y.natAbs

/-- The fraction of a second, in as few groups of three digits as show it. -/
def printFraction (n : Nat) : List Char :=
  if n = 0 then []
  else if n % 1000000 = 0 then '.' :: Text.padded 3 (n / 1000000)
  else if n % 1000 = 0 then '.' :: Text.padded 6 (n / 1000)
  else '.' :: Text.padded 9 n

def print (t : Instant) : List Char :=
  let date := Date.ofDayNumber (t.seconds / 86400)
  let second := (t.seconds % 86400).toNat
  let leap := t.nanos / 1000000000
  printYear date.year ++ '-' :: Text.padded 2 date.month ++ '-' :: Text.padded 2 date.day ++
    'T' :: Text.padded 2 (second / 3600) ++ ':' :: Text.padded 2 (second / 60 % 60) ++
    ':' :: Text.padded 2 (second % 60 + leap) ++ printFraction (t.nanos % 1000000000) ++ ['Z']

def toText (t : Instant) : String := String.ofList t.print

/-! ## Reading -/

/-- One to `most` digits. -/
def readDigits (most : Nat) (cs : List Char) : Option (Nat × List Char) :=
  let ds := (cs.take most).takeWhile Char.isDigit
  if ds.isEmpty then none else some ((Text.digitsAfter? 10 0 ds).getD 0, cs.drop ds.length)

/-- A number of at most two digits, after blanks. -/
def readTwo (cs : List Char) : Option (Nat × List Char) := readDigits 2 (Text.trimStart cs)

/-- A year, after blanks: at most four digits, or a sign and any number of them. -/
def readYear (cs : List Char) : Option (Int × List Char) :=
  match Text.trimStart cs with
  | [] => none
  | c :: rest =>
    if c = '-' then (readDigits rest.length rest).map fun (n, rest) => (-(n : Int), rest)
    else if c = '+' then (readDigits rest.length rest).map fun (n, rest) => ((n : Int), rest)
    else (readDigits 4 (c :: rest)).map fun (n, rest) => ((n : Int), rest)

def readMark (mark : Char) (cs : List Char) : Option (List Char) :=
  match Text.trimStart cs with
  | [] => none
  | c :: rest => if c = mark then some rest else none

/-- The nanoseconds of a fraction, if there is one; from the tenth on its digits do not count. -/
def readFraction : List Char → Option (Nat × List Char)
  | [] => some (0, [])
  | c :: cs =>
    if c = '.' then
      (readDigits 9 cs).map fun (n, rest) =>
        (n * Nat.pow 10 (9 - (cs.length - rest.length)), rest.dropWhile Char.isDigit)
    else some (0, c :: cs)

def readPair : List Char → Option (Nat × List Char)
  | a :: b :: rest =>
    match Text.digit? 10 a, Text.digit? 10 b with
    | some x, some y => some (x * 10 + y, rest)
    | _, _ => none
  | _ => none

/-- An offset after its sign, in seconds: hours, colons or blanks if any, and minutes. -/
def readOffsetBody (cs : List Char) : Option (Int × List Char) :=
  match readPair cs with
  | none => none
  | some (hours, rest) =>
    match readPair (rest.dropWhile fun c => c = ':' || Text.isBlank c) with
    | none => none
    | some (minutes, rest) =>
      if minutes < 60 ∧ hours < 24 then some (hours * 3600 + minutes * 60, rest) else none

def sameLetter (upper c : Char) : Bool := c.toUpper = upper

def readOffset (cs : List Char) : Option (Int × List Char) :=
  match cs with
  | [] => none
  | c :: rest =>
    if sameLetter 'Z' c then some (0, rest)
    else if c = '+' then readOffsetBody rest
    else if c = '-' ∨ c = '\u2212' then (readOffsetBody rest).map fun (n, rest) => (-n, rest)
    else match c, rest with
      | c, d :: e :: rest =>
        if sameLetter 'U' c && sameLetter 'T' d && sameLetter 'C' e then some (0, rest) else none
      | _, _ => none

/-- The instant of a date, a time of day and an offset, if all of them exist. A sixtieth second is a
leap second. -/
def ofParts? (date : Date) (hour minute second nanos : Nat) (offset : Int) : Option Instant :=
  if date.IsValid ∧ hour < 24 ∧ minute < 60 ∧ second ≤ 60 then
    let leap := second / 60
    let s := date.dayNumber * 86400 + (hour * 3600 + minute * 60 + (second - leap) : Nat) - offset
    let day := s / 86400
    if firstDay ≤ date.dayNumber ∧ date.dayNumber ≤ lastDay ∧ firstDay ≤ day ∧ day ≤ lastDay then
      some ⟨s, nanos + leap * 1000000000⟩
    else none
  else none

def readDate (cs : List Char) : Option (Date × List Char) :=
  match readYear cs with
  | none => none
  | some (year, cs) =>
    match (readMark '-' cs).bind readTwo with
    | none => none
    | some (month, cs) =>
      match (readMark '-' cs).bind readTwo with
      | none => none
      | some (day, cs) => some (⟨year, month, day⟩, cs)

def readClock (cs : List Char) : Option ((Nat × Nat × Nat × Nat) × List Char) :=
  match readTwo cs with
  | none => none
  | some (hour, cs) =>
    match (readMark ':' cs).bind readTwo with
    | none => none
    | some (minute, cs) =>
      match (readMark ':' cs).bind readTwo with
      | none => none
      | some (second, cs) =>
        match readFraction cs with
        | none => none
        | some (nanos, cs) => some ((hour, minute, second, nanos), cs)

def ofChars? (cs : List Char) : Option Instant :=
  match readDate cs with
  | none => none
  | some (_, []) => none
  | some (date, c :: cs) =>
    if sameLetter 'T' c || c = ' ' then
      match readClock cs with
      | none => none
      | some ((hour, minute, second, nanos), cs) =>
        match readOffset (Text.trimStart cs) with
        | none => none
        | some (offset, rest) =>
          if (Text.trimStart rest).isEmpty then ofParts? date hour minute second nanos offset
          else none
    else none

def ofText? (s : String) : Option Instant := ofChars? s.toList

example : (ofText? "2024-12-31T23:30:00.5-01:00").map toText = some "2025-01-01T00:30:00.500Z" :=
  by decide +kernel
example : (ofText? " 2024- 1-2 3:4: 5 +0200 ").map toText = some "2024-01-02T01:04:05Z" :=
  by decide +kernel
example : (ofText? "2024-06-30T23:59:60.25z").map toText = some "2024-06-30T23:59:60.250Z" :=
  by decide +kernel
example : (ofText? "9999-12-31T23:59:59-00:01").map toText = some "+10000-01-01T00:00:59Z" :=
  by decide +kernel
example : ofText? "2023-02-29T00:00:00Z" = none := by decide +kernel

end Instant

end ProjectRegistry.Time
