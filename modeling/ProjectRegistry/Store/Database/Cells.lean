import ProjectRegistry.Store.Relations

/-!
# Rows in a database

How live rows become stored ones and come back. Whatever the registry stores itself can be read
again, up to the depth to which JSON is read; other cells may hold anything that fits their column,
and reading says which cell is wrong. The first cell that cannot be read decides, in the order
below.
-/

namespace ProjectRegistry

def readTime (millis : Int) : Except Failure Time.Instant :=
  match Time.Instant.ofMillis? millis with
  | some t => .ok t
  | none => .error (.storage (.timestamp millis))

/-- Reads a stored number, which has to be one of 32 bits. -/
def readNumber (cell : Cell) (n : Int) : Except Failure Int32 :=
  if n < Int32.minValue.toInt then .error (.storage (.numberTooSmall cell))
  else if Int32.maxValue.toInt < n then .error (.storage (.numberTooLarge cell))
  else .ok (Int32.ofInt n)

def readNumber? (cell : Cell) : Option Int → Except Failure (Option Int32)
  | none => .ok none
  | some n =>
    match readNumber cell n with
    | .ok n => .ok (some n)
    | .error e => .error e

def readSettings (text : String) : Except Failure Settings :=
  match Settings.ofText? text with
  | some s => .ok s
  | none => .error .malformedJson

def readDigest (bytes : List UInt8) : Except Failure Digest :=
  match Digest.ofBytes? bytes with
  | some d => .ok d
  | none => .error (.storage .digestSize)

def readKind (code : Int) : Except Failure EventKind := do
  let _ ← readNumber (.column "event_type") code
  match EventKind.ofCode? code with
  | some k => .ok k
  | none => .error (.storage (.eventCode code))

def readProperties (text : String) : Except Failure Properties :=
  match Properties.ofText? text with
  | some p => .ok p
  | none => .error .malformedJson

def readGraph (text : String) : Except Failure Json.Value :=
  match Json.Value.ofText? text with
  | some g => .ok g
  | none => .error .malformedJson

namespace ProjectRow

def store (p : ProjectRow live) : ProjectRow stored where
  name := p.name
  description := p.description
  active := p.active
  pointer := p.pointer.map Int32.toInt
  lastVersion := p.lastVersion.toInt
  settings := p.settings.toText
  createdBy := p.createdBy
  lastModifiedBy := p.lastModifiedBy
  createdAt := p.createdAt.millis
  lastModifiedAt := p.lastModifiedAt.millis

/-- Reads the cells of a project: the pointer, the settings, then when it was created and changed.
The highest number is read where it counts, when a version is registered; here one that is out of
range is cut to 32 bits. -/
def load (p : ProjectRow stored) : Except Failure (ProjectRow live) := do
  let pointer ← readNumber? (.column "current_version") p.pointer
  let settings ← readSettings p.settings
  let createdAt ← readTime p.createdAt
  let lastModifiedAt ← readTime p.lastModifiedAt
  return {
    name := p.name
    description := p.description
    active := p.active
    pointer
    lastVersion := Int32.ofInt p.lastVersion
    settings
    createdBy := p.createdBy
    lastModifiedBy := p.lastModifiedBy
    createdAt
    lastModifiedAt }

end ProjectRow

namespace VersionRow

def store (v : VersionRow live) : VersionRow stored :=
  ⟨v.uploader, v.uploadTime.millis, v.fileType, v.fileName, v.digest.bytes, v.resourceId⟩

/-- Reads the cells of a version: the digest, then when it was uploaded. -/
def load (v : VersionRow stored) : Except Failure (VersionRow live) := do
  let digest ← readDigest v.digest
  let uploadTime ← readTime v.uploadTime
  return ⟨v.uploader, uploadTime, v.fileType, v.fileName, digest, v.resourceId⟩

end VersionRow

namespace EventRow

def store (e : EventRow live) : EventRow stored :=
  ⟨e.project, e.kind.code, e.user, e.message, e.time.millis⟩

/-- Reads the cells of an event: its kind, then its time. -/
def load (e : EventRow stored) : Except Failure (EventRow live) := do
  let kind ← readKind e.kind
  let time ← readTime e.time
  return ⟨e.project, kind, e.user, e.message, time⟩

end EventRow

/-- Reads rows one after the other, up to the first that cannot be read. -/
def loadAll {α β : Type} (load : α → Except Failure β) : List α → Except Failure (List β)
  | [] => .ok []
  | a :: rest =>
    match load a with
    | .error e => .error e
    | .ok b =>
      match loadAll load rest with
      | .error e => .error e
      | .ok bs => .ok (b :: bs)

end ProjectRegistry
