import ProjectRegistry.Files.Path
import ProjectRegistry.Table

/-!
# File trees

The directories and files that a registry can reach, as rows under the names that lead to them from
the working directory. The working directory is always there, and so is the top of all files, which
stands in it under the name of a slash that no path can spell.

A path is followed segment by segment: each but the last has to lead to a directory, and a name has
at most 255 bytes. A slash or a dot after a name asks for a directory too.
-/

namespace ProjectRegistry.Files

inductive Fault where
  | notFound
  | isADirectory
  | notADirectory
  | nameTooLong
  | invalidInput
  | alreadyExists
  | notText
  deriving DecidableEq, Repr

inductive Node where
  | directory
  | file (content : List UInt8)
  deriving DecidableEq

/-- The names that lead from the working directory to a node. -/
abbrev Location := List (List UInt8)

structure FileTree where
  nodes : Table Location Node

namespace FileTree

def empty : FileTree := ⟨.empty⟩

def top : Location := [[slash]]

def node? (t : FileTree) (l : Location) : Option Node :=
  if l = [] ∨ l = top then some .directory else t.nodes.find? l

/-- Where two dots lead; there is nothing above the start. -/
def above (l : Location) : Location := if l = top then top else l.dropLast

def longestName : Nat := 255

/-- Follows one segment. Whether the last one leads anywhere is for the caller to see. -/
def follow (t : FileTree) (l : Location) (segment : List UInt8) : Except Fault Location :=
  match t.node? l with
  | none => .error .notFound
  | some (.file _) => .error .notADirectory
  | some .directory =>
    match Path.component? segment with
    | none | some .root | some .here => .ok l
    | some .up => .ok (above l)
    | some (.name n) => if longestName < n.length then .error .nameTooLong else .ok (l ++ [n])

def followAll (t : FileTree) : Location → List (List UInt8) → Except Fault Location
  | l, [] => .ok l
  | l, s :: rest =>
    match t.follow l s with
    | .ok l => followAll t l rest
    | .error e => .error e

def start (p : Path) : Location := if p.isAbsolute then top else []

def walk (t : FileTree) (l : Location) : Except Fault Location :=
  if l.take 1 = top then t.followAll top (l.drop 1) else t.followAll [] l

/-- Whether the names of a location cannot be followed, and not because one is missing. -/
def isBlocked (t : FileTree) (l : Location) : Bool :=
  match t.walk l with
  | .ok _ | .error .notFound => false
  | .error _ => true

/-- Whether a path can be followed at all: it has no zero byte, is not empty and shorter than 4096
bytes. -/
def checkPath (p : Path) : Except Fault Unit :=
  if (0 : UInt8) ∈ p.bytes then .error .invalidInput
  else if p.bytes = [] then .error .notFound
  else if 4096 ≤ p.bytes.length then .error .nameTooLong
  else .ok ()

/-- The location that a path leads to, whether or not something is there. -/
def locate (t : FileTree) (p : Path) : Except Fault Location :=
  match checkPath p with
  | .ok () => t.followAll (start p) p.segments
  | .error e => .error e

def find (t : FileTree) (p : Path) : Except Fault (Location × Node) :=
  match t.locate p with
  | .error e => .error e
  | .ok l =>
    match t.node? l with
    | some n => .ok (l, n)
    | none => .error .notFound

def pathExists (t : FileTree) (p : Path) : Except Fault Bool :=
  match t.find p with
  | .ok _ => .ok true
  | .error .notFound => .ok false
  | .error e => .error e

def read (t : FileTree) (p : Path) : Except Fault (List UInt8) :=
  match t.find p with
  | .ok (_, .file content) => .ok content
  | .ok (_, .directory) => .error .isADirectory
  | .error e => .error e

def writeAt (t : FileTree) (l : Location) (content : List UInt8) : Except Fault FileTree :=
  match t.node? l with
  | some .directory => .error .isADirectory
  | _ => .ok ⟨t.nodes.insert l (.file content)⟩

/-- Writes a file, instead of one that is there. Its directory has to be there. -/
def write (t : FileTree) (p : Path) (content : List UInt8) : Except Fault FileTree :=
  match t.locate p with
  | .error e => .error e
  | .ok l => t.writeAt l content

def remove (t : FileTree) (p : Path) : Except Fault FileTree :=
  match t.find p with
  | .ok (l, .file _) => .ok ⟨t.nodes.erase l⟩
  | .ok (_, .directory) => .error .isADirectory
  | .error e => .error e

/-- Copies a file to a path. Only a file can be copied. It is there whole afterwards or not at all:
disks do not run full and devices do not fail halfway. -/
def copy (t : FileTree) (source target : Path) : Except Fault FileTree :=
  match t.find source with
  | .ok (_, .file content) => t.write target content
  | .ok (_, .directory) => .error .invalidInput
  | .error e => .error e

/-- Makes the directories on the way along segments; those made before a failure stay. -/
def makeAlong (t : FileTree) : Location → List (List UInt8) → Except Fault Unit × FileTree
  | _, [] => (.ok (), t)
  | l, s :: rest =>
    match t.follow l s with
    | .error e => (.error e, t)
    | .ok next =>
      match t.node? next with
      | some .directory => makeAlong t next rest
      | none => makeAlong ⟨t.nodes.insert next .directory⟩ next rest
      | some (.file _) => (.error (if rest.isEmpty then .alreadyExists else .notADirectory), t)

/-- Makes a directory and those above it, as far as they are missing. -/
def makeDirectories (t : FileTree) (p : Path) : Except Fault Unit × FileTree :=
  if p.bytes = [] then (.ok (), t)
  else match checkPath p with
    | .ok () => t.makeAlong (start p) p.segments
    | .error e => (.error e, t)

/-- Whether a location is another one or below it. What is below the top of all files is not below
the working directory. -/
def isBelow (l at_ : Location) : Bool := l.isPrefixOf at_ && (l ≠ [] || at_.take 1 ≠ top)

/-- The files below a directory, each with the path to it from the working directory. -/
def filesBelow (t : FileTree) (p : Path) : List Path :=
  match t.find p with
  | .ok (l, .directory) =>
    t.nodes.entries.filterMap fun (at_, n) =>
      match n with
      | .file _ => if isBelow l at_ then some ⟨Text.joinWith [slash] at_⟩ else none
      | .directory => none
  | _ => []

end FileTree

end ProjectRegistry.Files
