import ProjectRegistry.Store.Database.Location

/-!
# Addresses

The name under which a database is opened is a mere path, or an address: the word `file:`, perhaps a
host, a path, and parameters after a question mark. What follows a number sign does not matter. In
each part bytes may be written as a percent sign and two figures, and a zero byte ends the part.
-/

namespace ProjectRegistry

structure Address where
  path : Files.Path
  parameters : List (String × String) := []
  /-- Whether it is given as an address and not as a mere path. -/
  isExplicit : Bool := true
  deriving DecidableEq

namespace Address

def beforeZero (bytes : List UInt8) : List UInt8 := bytes.takeWhile (· ≠ 0)

def part (bytes : List UInt8) : List UInt8 := beforeZero (Text.percentDecode bytes)

def partText (bytes : List UInt8) : String := Text.decodeLossy (part bytes)

def byteOf (c : Char) : UInt8 := UInt8.ofNat c.toNat

/-- The names and values of parameters. Without an equals sign the value is empty, and without a
name there is no parameter. -/
def parametersOf (bytes : List UInt8) : List (String × String) :=
  let pairs := (Text.splitAt (byteOf '&') bytes).map fun one =>
    let name := one.takeWhile (· ≠ byteOf '=')
    (partText name, partText (one.drop (name.length + 1)))
  pairs.filter fun p => p.1 ≠ ""

/-- What follows the host. Only this machine can be one, by no name or its own. -/
def withoutHost : List UInt8 → Except DatabaseFault (List UInt8)
  | 47 :: 47 :: rest =>
    let host := rest.takeWhile (· ≠ Files.slash)
    if host = [] ∨ host = Text.utf8 "localhost" then .ok (rest.drop host.length)
    else .error (.foreignAuthority (Text.decodeLossy host))
  | bytes => .ok bytes

def ofName (name : List UInt8) : Except DatabaseFault Address :=
  let scheme := Text.utf8 "file:"
  if scheme.isPrefixOf name then
    match withoutHost (name.drop scheme.length) with
    | .error e => .error e
    | .ok bytes =>
      let bytes := bytes.takeWhile (· ≠ byteOf '#')
      let path := bytes.takeWhile (· ≠ byteOf '?')
      .ok ⟨⟨part path⟩, parametersOf (bytes.drop (path.length + 1)), true⟩
  else .ok ⟨⟨name⟩, [], false⟩

/-- The value of a parameter where it is given first. -/
def parameter? (a : Address) (name : String) : Option String := a.parameters.lookup name

def lastParameter? (a : Address) (name : String) : Option String := a.parameters.reverse.lookup name

/-- The digits of a base in front of a text as a number of 31 bits, or 0 if they are too many. -/
def leadingNumber (base : Nat) (cs : List Char) : Nat :=
  let n := (Text.digits? base (cs.takeWhile fun c => (Text.digit? base c).isSome)).getD 0
  if n < Nat.pow 2 31 then n else 0

/-- The number in front of a text, which is hexadecimal after a zero and an x. -/
def numberOf : List Char → Nat
  | '0' :: x :: d :: rest =>
    if (x = 'x' ∨ x = 'X') ∧ (Text.digit? 16 d).isSome then leadingNumber 16 (d :: rest)
    else leadingNumber 10 ('0' :: x :: d :: rest)
  | cs => leadingNumber 10 cs

/-- Whether a value says yes: by a number whose lowest byte is not zero, or by a word. -/
def saysYes (value : String) : Bool :=
  let cs := value.toList
  if cs.head?.any Char.isDigit then numberOf cs % 256 ≠ 0
  else ["on", "yes", "true"].contains (String.ofList (cs.map Char.toLower))

/-- Whether a parameter is given, and its first value says yes. -/
def isSet (a : Address) (name : String) : Bool := (a.parameter? name).any saysYes

example : (ofName (Text.utf8 "file://localhost/a%3f%00b?x%00y=1%00&=2&z#?w")).toOption =
    some ⟨.ofText "/a?", [("x", "1"), ("z", "")], true⟩ := by decide +kernel
example : (ofName (Text.utf8 "file://a?b/c")).toOption = none := by decide +kernel
example : (ofName (Text.utf8 "File:x?y")).toOption = some ⟨.ofText "File:x?y", [], false⟩ :=
  by decide +kernel
example : ["1", "07x", "0x10", "On", "yes"].all saysYes = true := by decide +kernel
example : ["", "0", "256", "0x", "-1", "y", "2147483648"].any saysYes = false := by decide +kernel

end Address

/-- The address of a location. What a location says of its file besides the path makes it an
address, in which the path stands for itself and a blank becomes a plus sign. -/
def Location.address (l : Location) : Except StorageFault Address :=
  let given :=
    (if l.frozen then [("immutable", "true")] else []) ++
      (l.driver.map fun name => ("vfs", name)).toList
  if given.isEmpty then
    if (0 : UInt8) ∈ l.path.bytes then .error .zeroInName
    else match Address.ofName l.path.bytes with
      | .ok a => .ok a
      | .error e => .error (.database e)
  else
    let passed (value : String) : String :=
      String.ofList ((value.toList.takeWhile (· ≠ '\x00')).map fun c => if c = ' ' then '+' else c)
    .ok ⟨⟨Address.beforeZero l.path.bytes⟩, given.map fun p => (p.1, passed p.2), true⟩

end ProjectRegistry
