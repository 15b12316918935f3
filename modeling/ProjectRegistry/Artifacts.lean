import ProjectRegistry.Store.Step
import ProjectRegistry.Version

/-!
# Artifacts

Uploaded archives are kept as plain files below a root directory, one directory for each project and
in it one for each version. A resource id names such a file. An id is a path, and whatever it says,
it does not lead out of the root: it has to be made of names alone.
-/

namespace ProjectRegistry

/-- An identifier that is drawn afresh, sixteen bytes of it. -/
structure Uuid where
  bytes : List UInt8
  size : bytes.length = 16

namespace Uuid

def ofNat (n : Nat) : Uuid :=
  ⟨(List.range 16).map fun i => UInt8.ofNat (n / Nat.pow 256 (15 - i)), by simp⟩

/-- Thirty-two figures in five groups. -/
def toText (u : Uuid) : String :=
  let part (start count : Nat) := ((u.bytes.drop start).take count).flatMap Text.Hex.ofByte
  String.ofList (Text.joinWith ['-'] [part 0 4, part 4 2, part 6 2, part 8 2, part 10 6])

example :
    (ofNat 0x0123456789abcdef0123456789abcdef).toText = "01234567-89ab-cdef-0123-456789abcdef" := by
  decide +kernel

end Uuid

structure Artifacts where
  root : Files.Path

namespace Artifacts

def name : String := "local"

/-- The file of a resource id. -/
def locate (a : Artifacts) (id : String) : Except Failure Files.Path :=
  let relative := Files.Path.ofText id
  if relative.components.all fun
      | .name _ => true
      | _ => false
  then .ok (a.root.join relative)
  else .error (.violation (.resourceId id))

def resourceId (project version : Int32) (fresh : Uuid) (fileName : String) : String :=
  Text.numeralText project.toInt ++ "/" ++ Text.numeralText version.toInt ++ "/" ++ fresh.toText ++
    "-" ++ fileName

def onFiles {α : Type} (r : Files.FileTree → Except Files.Fault α × Files.FileTree) :
    Step Files.FileTree α :=
  fun files =>
    match r files with
    | (.ok a, files) => (.ok a, files)
    | (.error fault, files) => (.error (.file fault), files)

/-- A file operation that leaves everything as it is when it fails. That is what is supposed of a
copy: one that breaks off halfway, since the disk is full or its device fails, would leave a part of
the file behind, and there is no such copy here. -/
def replaceFiles (r : Files.FileTree → Except Files.Fault Files.FileTree) :
    Step Files.FileTree Unit :=
  onFiles fun files =>
    match r files with
    | .ok files => (.ok (), files)
    | .error fault => (.error fault, files)

/-- Copies a file to a place of its own and answers its resource id. Directories that were made for
it stay, even if the copy fails. -/
def store (a : Artifacts) (fresh : Uuid) (project version : Int32) (source : Files.Path) :
    Step Files.FileTree String := do
  .require source.fileName?.isSome (.violation (.notAFile source.text))
  let id := resourceId project version fresh (Version.fileNameOf source)
  let target ← .lift (a.locate id)
  onFiles fun files => files.makeDirectories target.parent
  replaceFiles fun files => files.copy source target
  return id

def fetch (a : Artifacts) (id : String) (files : Files.FileTree) : Except Failure Files.Path :=
  match a.locate id with
  | .error e => .error e
  | .ok path =>
    match files.pathExists path with
    | .ok true => .ok path
    | .ok false => .error (.notFound .artifact id)
    | .error fault => .error (.file fault)

def delete (a : Artifacts) (id : String) : Step Files.FileTree Unit := do
  let path ← .lift (a.locate id)
  onFiles fun files =>
    match files.remove path with
    | .ok files => (.ok (), files)
    | .error .notFound => (.ok (), files)
    | .error fault => (.error fault, files)

end Artifacts

end ProjectRegistry
