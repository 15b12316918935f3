import ProjectRegistry.Json.Record
import ProjectRegistry.Text.Blank
import ProjectRegistry.Text.Split

/-!
# Rights

What someone may do with a project: a set of flags in thirty-two bits, where bits without a name are
kept. The right to administer stands for every right.

As a text, the named flags come in their order, then what is left as one hexadecimal number, with
bars between them. Reading takes the parts in any order and more than once.
-/

namespace ProjectRegistry

structure Rights where
  bits : UInt32
  deriving DecidableEq, Repr

namespace Rights

def none : Rights := ⟨0⟩
def read : Rights := ⟨0x1⟩
def write : Rights := ⟨0x2⟩
def execute : Rights := ⟨0x4⟩
def schedule : Rights := ⟨0x8⟩
def metrics : Rights := ⟨0x10⟩
def admin : Rights := ⟨0x8000000⟩
def createProjects : Rights := ⟨0x40000000⟩

def flags : List (String × Rights) := [
  ("READ", read), ("WRITE", write), ("EXECUTE", execute), ("SCHEDULE", schedule),
    ("METRICS", metrics),
  ("ADMIN", admin), ("CREATE_PROJECTS", createProjects)]

def union (a b : Rights) : Rights := ⟨a.bits ||| b.bits⟩

def contains (a b : Rights) : Bool := a.bits &&& b.bits = b.bits

def isEmpty (a : Rights) : Bool := a.bits = 0

def allows (a required : Rights) : Bool := a.contains admin || a.contains required

/-- The rights of the low thirty-two bits of a stored number. -/
def ofStored (n : Int) : Rights := ⟨UInt32.ofNat (n % UInt32.size).toNat⟩

def stored (a : Rights) : Int := a.bits.toNat

/-! ## The text form -/

def unnamed (a : Rights) : Rights :=
  ⟨a.bits &&& ~~~(flags.foldl (fun r f => r.union f.2) none).bits⟩

def parts (a : Rights) : List (List Char) :=
  (flags.filter fun f => a.contains f.2).map (·.1.toList) ++
    if a.unnamed.isEmpty then [] else ['0' :: 'x' :: Text.digitsOf 16 a.unnamed.bits.toNat]

def print (a : Rights) : List Char := Text.joinWith [' ', '|', ' '] a.parts

def toText (a : Rights) : String := String.ofList a.print

def ofPart? (part : List Char) : Option Rights :=
  match part with
  | '0' :: 'x' :: ds => (Text.unsigned? 16 UInt32.size ds).map fun n => ⟨UInt32.ofNat n⟩
  | _ => flags.lookup (String.ofList part)

/-- The union of what the parts of a text stand for, if each stands for something. -/
def ofParts? : List (List Char) → Option Rights
  | [] => some none
  | part :: rest =>
    match ofPart? part, ofParts? rest with
    | some a, some b => some (a.union b)
    | _, _ => Option.none

/-- Reads rights. A blank text is no rights. -/
def ofChars? (cs : List Char) : Option Rights :=
  if (Text.trim cs).isEmpty then some none
  else ofParts? ((Text.splitAt '|' cs).map Text.trim)

def ofText? (s : String) : Option Rights := ofChars? s.toList

def ofTree? (t : Json.Tree) : Option Rights := t.text?.bind ofText?

def toTree (a : Rights) : Json.Tree := .text a.toText

example : (⟨0x8000101⟩ : Rights).toText = "READ | ADMIN | 0x100" := by decide +kernel
example : ofText? " 0x+20|READ |READ" = some ⟨0x21⟩ := by decide +kernel
example : ofText? "READ |" = Option.none := by decide +kernel

end Rights

structure Grant where
  principal : String
  isGroup : Bool
  rights : Rights
  deriving DecidableEq, Repr

namespace Grant

def toTree (g : Grant) : Json.Tree :=
  .record [("principal", .text g.principal), ("isGroup", .bool g.isGroup),
    ("permission", g.rights.toTree)]

def ofTree? (room : Nat) (t : Json.Tree) : Option Grant := do
  let (fields, _) ← Json.fields? ["principal", "isGroup", "permission"] room t
  let principal ← fields.required "principal" Json.Tree.text?
  let isGroup ← fields.required "isGroup" Json.Tree.bool?
  let rights ← fields.required "permission" Rights.ofTree?
  return ⟨principal, isGroup, rights⟩

end Grant

end ProjectRegistry
