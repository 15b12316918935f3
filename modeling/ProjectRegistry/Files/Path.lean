import ProjectRegistry.Text.Split
import ProjectRegistry.Text.Utf8

/-!
# Paths

A path is any row of bytes; a slash separates its segments. Empty segments and a single dot say
nothing, except a dot at the very start of a relative path, two dots go up, and everything else is a
name. The last component, where it is a name, is the name of a file, and what follows its last dot,
unless that dot is in front, is its extension.
-/

namespace ProjectRegistry.Files

structure Path where
  bytes : List UInt8
  deriving DecidableEq

inductive Component where
  | root
  | here
  | up
  | name (bytes : List UInt8)
  deriving DecidableEq

def slash : UInt8 := 47

def dot : UInt8 := 46

namespace Path

def ofText (s : String) : Path := ⟨Text.utf8 s⟩

/-- The path as a text; bytes that are not UTF-8 are replaced. -/
def text (p : Path) : String := Text.decodeLossy p.bytes

def segments (p : Path) : List (List UInt8) := Text.splitAt slash p.bytes

def isAbsolute (p : Path) : Bool := p.bytes.head? = some slash

def component? (segment : List UInt8) : Option Component :=
  if segment = [] ∨ segment = [dot] then none
  else if segment = [dot, dot] then some .up
  else some (.name segment)

def components (p : Path) : List Component :=
  let rest := p.segments.filterMap component?
  if p.isAbsolute then .root :: rest
  else if p.segments.head? = some [dot] then .here :: rest
  else rest

/-- The name of the file that a path leads to, if it ends in a name. -/
def fileName? (p : Path) : Option (List UInt8) :=
  match p.components.getLast? with
  | some (.name n) => some n
  | _ => none

/-- What stands before and after the last dot. -/
def lastDot? (name : List UInt8) : Option (List UInt8 × List UInt8) :=
  let after := (name.reverse.takeWhile (· ≠ dot)).reverse
  if after.length = name.length then none
  else some (name.take (name.length - after.length - 1), after)

def extension? (p : Path) : Option (List UInt8) :=
  match p.fileName?.bind lastDot? with
  | some (before, after) => if before = [] then none else some after
  | none => none

/-- A path below another one; an absolute path stays as it is. -/
def join (p q : Path) : Path :=
  if q.isAbsolute then q
  else if p.bytes = [] ∨ p.bytes.getLast? = some slash then ⟨p.bytes ++ q.bytes⟩
  else ⟨p.bytes ++ slash :: q.bytes⟩

/-- The path without its last segment and what says nothing after it. -/
def parent (p : Path) : Path :=
  match p.components.reverse with
  | [] => ⟨[]⟩
  | last :: before =>
    let absolute := before.getLast? = some .root ∨ last = .root
    let text := before.reverse.map fun
      | .root => []
      | .here => [dot]
      | .up => [dot, dot]
      | .name n => n
    let joined := Text.joinWith [slash] text
    ⟨if absolute ∧ joined = [] then [slash] else joined⟩

example : (ofText "a/./b.tar.gz//").fileName? = some (Text.utf8 "b.tar.gz") := by decide +kernel
example : (ofText "a/./b.tar.gz//").extension? = some (Text.utf8 "gz") := by decide +kernel
example : (ofText ".zip").extension? = none := by decide +kernel
example : (ofText "a/..").fileName? = none := by decide +kernel
example : (ofText "./a").components = [.here, .name (Text.utf8 "a")] := by decide +kernel
example : (ofText "r/1").parent = ofText "r" := by decide +kernel
example : (ofText "/1").parent = ofText "/" := by decide +kernel

end Path

end ProjectRegistry.Files
