import ProjectRegistry.Failure
import ProjectRegistry.Text.Percent

/-!
# Locations of databases

A connection text names a file or the memory, and says how to open it: a scheme that may be
repeated, a path in which bytes may be written as a percent sign and two figures, and after a
question mark parameters as in a form.
-/

namespace ProjectRegistry

structure Location where
  path : Files.Path
  inMemory : Bool := false
  /-- Whether connections share what they hold of the database. -/
  shared : Bool := false
  readOnly : Bool := false
  /-- Whether the file is said never to change. -/
  frozen : Bool := false
  driver : Option String := none
  deriving DecidableEq

namespace Location

/-- A text without a prefix that may be repeated. -/
def dropRepeated (start : List Char) : Nat → List Char → List Char
  | 0, cs => cs
  | fuel + 1, cs =>
    if start.isPrefixOf cs then dropRepeated start fuel (cs.drop start.length) else cs

/-- A name or a value of a form, where a plus sign stands for a blank. -/
def formText (cs : List Char) : String :=
  let plain := cs.map fun c => if c = '+' then ' ' else c
  Text.decodeLossy (Text.percentDecode (Text.utf8 (String.ofList plain)))

/-- The names and values of a form; a name without an equals sign has an empty value. -/
def formPairs (cs : List Char) : List (String × String) :=
  ((Text.splitAt '&' cs).filter fun part => !part.isEmpty).map fun part =>
    let name := part.takeWhile (· ≠ '=')
    (formText name, formText (part.drop (name.length + 1)))

def unknownValue (value name : String) : String :=
  "unknown value " ++ Text.quoted '"' value.toList ++ " for `" ++ name ++ "`"

def unknownParameter (name : String) : String :=
  "unknown query parameter `" ++ name ++ "` while parsing connection URL"

def brokenPath (fault : Text.Utf8Fault) : String :=
  match fault.wrong with
  | some n =>
    "invalid utf-8 sequence of " ++ Text.numeralText n ++ " bytes from index " ++
      Text.numeralText fault.position
  | none => "incomplete utf-8 byte sequence from index " ++ Text.numeralText fault.position

/-- Takes in one parameter. A database in memory is shared unless a later parameter says otherwise.
-/
def withParameter (l : Location) (name value : String) : Except String Location :=
  if name = "mode" then
    if value = "ro" then .ok { l with readOnly := true }
    else if value = "memory" then .ok { l with inMemory := true, shared := true }
    else if value = "rw" ∨ value = "rwc" then .ok l
    else .error (unknownValue value name)
  else if name = "cache" then
    if value = "private" then .ok { l with shared := false }
    else if value = "shared" then .ok { l with shared := true }
    else .error (unknownValue value name)
  else if name = "immutable" then
    if value = "true" ∨ value = "1" then .ok { l with frozen := true }
    else if value = "false" ∨ value = "0" then .ok { l with frozen := false }
    else .error (unknownValue value name)
  else if name = "vfs" then .ok { l with driver := some value }
  else .error (unknownParameter name)

/-- The memory, as a database that has an address of its own and is shared under it. -/
def memory : Location := { path := .ofText "file:memory", inMemory := true, shared := true }

def ofPath (cs : List Char) : Except String Location :=
  if cs = ":memory:".toList then .ok memory
  else
    let bytes := Text.percentDecode (Text.utf8 (String.ofList cs))
    match Text.utf8Fault? bytes with
    | some fault => .error (brokenPath fault)
    | none => .ok { path := ⟨bytes⟩ }

def withParameters (l : Location) : List (String × String) → Except String Location
  | [] => .ok l
  | (name, value) :: rest =>
    match l.withParameter name value with
    | .ok l => l.withParameters rest
    | .error e => .error e

def ofText (text : String) : Except Failure Location :=
  let cs := text.toList
  let cs := dropRepeated "sqlite:".toList cs.length (dropRepeated "sqlite://".toList cs.length cs)
  let path := cs.takeWhile (· ≠ '?')
  let located : Except String Location :=
    match ofPath path with
    | .error e => .error e
    | .ok l => l.withParameters (formPairs (cs.drop (path.length + 1)))
  match located with
  | .ok l => .ok l
  | .error e => .error (.storage (.connectionText e))

end Location

end ProjectRegistry
