import ProjectRegistry.Toml.Scalar

/-!
# TOML documents

A document is a row of lines: pairs of a dotted key and a value, and headers that open a table or a
further table of an array. The lines build the table of all settings; none may define what is there
already.
-/

namespace ProjectRegistry.Toml

/-! ## Keys and values -/

def isBareKey (c : Char) : Bool := c.isAlphanum || c = '-' || c = '_'

def simpleKey? (cs : List Char) : Option (String × List Char) :=
  match cs with
  | [] => none
  | c :: _ =>
    if c = '"' ∨ c = '\'' then (shortString? cs).map fun (k, rest) => (String.ofList k, rest)
    else
      let k := cs.takeWhile isBareKey
      if k.isEmpty then none else some (String.ofList k, cs.drop k.length)

/-- Keys with points between them, with blanks around each. -/
def dottedKey? : Nat → List Char → Option (List String × List Char)
  | 0, _ => none
  | fuel + 1, cs =>
    match simpleKey? (skipWs cs) with
    | none => none
    | some (k, rest) =>
      match skipWs rest with
      | '.' :: rest => (dottedKey? fuel rest).map fun (ks, rest) => (k :: ks, rest)
      | rest => some ([k], rest)

def key? (cs : List Char) : Option (List String × List Char) := dottedKey? nestingLimit cs

/-- Past a comment, up to the end of its line. -/
def skipComment : List Char → List Char
  | '#' :: rest => rest.dropWhile isPlain
  | cs => cs

/-- Past blanks, comments and ends of lines. A comment has to be ended by a line. -/
def skipBetween : Nat → List Char → Option (List Char)
  | 0, cs => some cs
  | fuel + 1, cs =>
    match skipWs cs with
    | [] => some []
    | c :: rest =>
      if c = '#' then (newline? (skipComment (c :: rest))).bind (skipBetween fuel)
      else if c = '\n' ∨ c = '\r' then (newline? (c :: rest)).bind (skipBetween fuel)
      else some (c :: rest)

mutual

/-- A value, inside of `depth` arrays and inline tables. -/
def value? : Nat → Nat → List Char → Option (Value × List Char)
  | 0, _, _ => none
  | _, _, [] => none
  | fuel + 1, depth, c :: rest =>
    if c = '"' ∨ c = '\'' then
      (string? (c :: rest)).map fun (s, rest) => (.string (String.ofList s), rest)
    else if c = '[' then
      if nestingLimit ≤ depth then none
      else (items? fuel (depth + 1) rest).map fun (vs, rest) => (.array vs, rest)
    else if c = '\x7b' then
      if nestingLimit ≤ depth then none
      else match skipWs rest with
        | '\x7d' :: rest => some (.table false [], rest)
        | rest =>
          match pairs? fuel (depth + 1) rest with
          | some (ps, rest) => (Value.ofPairs? ps).map fun v => (v, rest)
          | none => none
    else if c = 't' then match rest with
      | 'r' :: 'u' :: 'e' :: rest => some (.bool true, rest)
      | _ => none
    else if c = 'f' then match rest with
      | 'a' :: 'l' :: 's' :: 'e' :: rest => some (.bool false, rest)
      | _ => none
    else numberOrDate? (c :: rest)

/-- The items of an array and the bracket that closes it. A comma may follow the last item. -/
def items? : Nat → Nat → List Char → Option (List Value × List Char)
  | 0, _, _ => none
  | fuel + 1, depth, cs =>
    match skipBetween cs.length cs with
    | none => none
    | some [] => none
    | some (c :: rest) =>
      if c = ']' then some ([], rest)
      else match value? fuel depth (c :: rest) with
        | none => none
        | some (v, rest) =>
          match skipBetween rest.length rest with
          | none => none
          | some [] => none
          | some (c :: rest) =>
            if c = ']' then some ([v], rest)
            else if c = ',' then (items? fuel depth rest).map fun (vs, rest) => (v :: vs, rest)
            else none

def pairs? : Nat → Nat → List Char → Option (List (List String × Value) × List Char)
  | 0, _, _ => none
  | fuel + 1, depth, cs =>
    match key? cs with
    | none => none
    | some (path, rest) =>
      match past? '=' rest with
      | none => none
      | some rest =>
        match value? fuel depth (skipWs rest) with
        | none => none
        | some (v, rest) =>
          match skipWs rest with
          | [] => none
          | c :: rest =>
            if c = '\x7d' then some ([(path, v)], rest)
            else if c = ',' then
              (pairs? fuel depth rest).map fun (ps, rest) => ((path, v) :: ps, rest)
            else none

end

/-! ## Lines -/

inductive Line where
  | pair (path : List String) (value : Value)
  | header (path : List String)
  | arrayHeader (path : List String)

/-- Past the end of a line, with or without a comment before it. -/
def lineEnd? (cs : List Char) : Option (List Char) :=
  match skipComment (skipWs cs) with
  | [] => some []
  | rest => newline? rest

def header? (cs : List Char) : Option (Line × List Char) :=
  match cs with
  | '[' :: cs => do
    let (path, cs) ← key? cs
    let cs ← (past? ']' cs).bind (past? ']')
    return (.arrayHeader path, cs)
  | cs => do
    let (path, cs) ← key? cs
    let cs ← past? ']' cs
    return (.header path, cs)

def pair? (cs : List Char) : Option (Line × List Char) := do
  let (path, cs) ← key? cs
  let cs ← past? '=' cs
  let (v, cs) ← value? (cs.length + 1) 0 (skipWs cs)
  return (.pair path v, cs)

/-- The lines of a document; blank ones and comments leave no trace. -/
def lines? : Nat → List Char → Option (List Line)
  | 0, _ => none
  | fuel + 1, cs =>
    match skipWs cs with
    | [] => some []
    | c :: rest =>
      if c = '#' ∨ c = '\n' ∨ c = '\r' then (lineEnd? (c :: rest)).bind (lines? fuel)
      else
        match if c = '[' then header? rest else pair? (c :: rest) with
        | none => none
        | some (line, rest) => ((lineEnd? rest).bind (lines? fuel)).map (line :: ·)

/-! ## Tables -/

/-- How a table came to be: on the way to another header, by a dotted key, or by its own header. -/
inductive Origin where
  | implied
  | dotted
  | defined
  deriving DecidableEq

inductive Item where
  | value (v : Value)
  | table (origin : Origin) (entries : List (String × Item))
  | tables (tables : List (List (String × Item)))
  deriving Inhabited

abbrev Entries := List (String × Item)

/-- Changes the table at the end of a path, and makes the tables that are missing on the way. A path
of dotted keys leads through no table that has a header of its own; the last table of an array
stands for it. -/
def changeAt (made : Origin) (change : Origin → Entries → Option Entries) (origin : Origin) :
    List String → Entries → Option Entries
  | [], entries => change origin entries
  | k :: path, entries =>
    match entries.lookup k with
    | none =>
      (changeAt made change made path []).map fun inner => entries ++ [(k, .table made inner)]
    | some (.value _) => none
    | some (.table o inner) =>
      if made = .dotted ∧ o = .defined then none
      else (changeAt made change o path inner).map fun inner => setEntry k (.table o inner) entries
    | some (.tables ts) =>
      match ts.reverse with
      | [] => none
      | last :: before =>
        (changeAt made change .defined path last).map fun inner =>
          setEntry k (.tables (before.reverse ++ [inner])) entries

def addItem (k : String) (i : Item) (entries : Entries) : Option Entries :=
  if (entries.lookup k).isSome then none else some (entries ++ [(k, i)])

/-- Opens the table of a header; only one that was implied may be there. -/
def openTable (k : String) (entries : Entries) : Option Entries :=
  match entries.lookup k with
  | none => some (entries ++ [(k, .table .defined [])])
  | some (.table .implied inner) => some (setEntry k (.table .defined inner) entries)
  | some _ => none

def openArrayTable (k : String) (entries : Entries) : Option Entries :=
  match entries.lookup k with
  | none => some (entries ++ [(k, .tables [[]])])
  | some (.tables ts) => some (setEntry k (.tables (ts ++ [[]])) entries)
  | some _ => none

/-- A document under way: all its tables, and the path of the one that pairs go to. -/
structure Draft where
  entries : Entries := []
  current : List String := []

/-- Puts a pair into a table. A dotted key has to end in a table that dotted keys made. -/
def addPair (path : List String) (v : Value) (origin : Origin) (entries : Entries) :
    Option Entries :=
  match path.getLast? with
  | none => none
  | some k =>
    changeAt .dotted
      (fun o inner => if 1 < path.length ∧ o ≠ .dotted then none else addItem k (.value v) inner)
      origin path.dropLast entries

def Draft.add (d : Draft) : Line → Option Draft
  | .pair path v =>
    (changeAt .implied (addPair path v) .defined d.current d.entries).map fun entries =>
      { d with entries }
  | .header path =>
    match path.getLast? with
    | none => none
    | some k =>
      (changeAt .implied (fun _ => openTable k) .defined path.dropLast d.entries).map fun entries =>
        { entries, current := path }
  | .arrayHeader path =>
    match path.getLast? with
    | none => none
    | some k =>
      (changeAt .implied (fun _ => openArrayTable k) .defined path.dropLast d.entries).map
        fun entries =>
        { entries, current := path }

/-- The table that a text spells. A byte order mark in front does not count. -/
def Entries.ofText? (s : String) : Option Entries :=
  let cs := match s.toList with
    | '\ufeff' :: cs => cs
    | cs => cs
  match lines? (cs.length + 1) cs with
  | none => none
  | some ls => (ls.foldlM Draft.add {}).map (·.entries)

end ProjectRegistry.Toml
