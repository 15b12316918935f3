import ProjectRegistry.Digest
import ProjectRegistry.Failure
import ProjectRegistry.Json.Record
import ProjectRegistry.Time.Instant

/-!
# Versions

What is known about an uploaded archive. The bytes themselves are an artifact, found by its resource
id. Name and type of the file come from the path it was uploaded from.
-/

namespace ProjectRegistry

structure Version where
  project : Int32
  number : Int32
  uploader : String
  uploadTime : Time.Instant
  fileType : String
  fileName : String
  digest : Digest
  resourceId : String
  deriving DecidableEq

namespace Version

def fileNameOf (p : Files.Path) : String := Text.decodeLossy (p.fileName?.getD [])

def fileTypeOf (p : Files.Path) : String := Text.decodeLossy (p.extension?.getD [])

def ofUpload (project number : Int32) (file : Files.Path) (uploader : String) (digest : Digest)
    (resourceId : String) (now : Time.Instant) : Version :=
  ⟨project, number, uploader, now, fileTypeOf file, fileNameOf file, digest, resourceId⟩

def toTree (v : Version) : Json.Tree :=
  .record [("projectId", .ofInt32 v.project), ("version", .ofInt32 v.number),
    ("uploader", .text v.uploader), ("uploadTime", .text v.uploadTime.toText),
    ("fileType", .text v.fileType), ("fileName", .text v.fileName),
    ("md5", .array (v.digest.bytes.map .ofByte)), ("resourceId", .text v.resourceId)]

def ofTree? (room : Nat) (t : Json.Tree) : Option Version := do
  let (fields, room) ← Json.fields?
    ["projectId", "version", "uploader", "uploadTime", "fileType", "fileName", "md5", "resourceId"]
      room t
  let project ← fields.required "projectId" Json.Tree.int32?
  let number ← fields.required "version" Json.Tree.int32?
  let uploader ← fields.required "uploader" Json.Tree.text?
  let uploadTime ← fields.required "uploadTime" fun t => t.text?.bind Time.Instant.ofText?
  let fileType ← fields.required "fileType" Json.Tree.text?
  let fileName ← fields.required "fileName" Json.Tree.text?
  let digest ← fields.required "md5" fun t =>
    (Json.Tree.array? room (fun _ => Json.Tree.byte?) t).bind Digest.ofBytes?
  let resourceId ← fields.required "resourceId" Json.Tree.text?
  return ⟨project, number, uploader, uploadTime, fileType, fileName, digest, resourceId⟩

end Version

/-- A version, and once its archive was fetched, where that is. -/
structure VersionFile where
  version : Version
  localFile : Option Files.Path
  deriving DecidableEq

namespace VersionFile

def ofVersion (v : Version) : VersionFile := ⟨v, none⟩

def withLocalFile (f : VersionFile) (p : Files.Path) : VersionFile := { f with localFile := some p }

end VersionFile

namespace Digest

def ofText (s : String) : Except Failure Digest :=
  match Text.Hex.decode s with
  | .error fault => .error (.violation (.digestText s fault))
  | .ok bytes =>
    match ofBytes? bytes with
    | some d => .ok d
    | none => .error (.violation (.digestSize s))

end Digest

end ProjectRegistry
