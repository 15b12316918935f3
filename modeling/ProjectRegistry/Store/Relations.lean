import ProjectRegistry.Bundle
import ProjectRegistry.Event
import ProjectRegistry.Flow
import ProjectRegistry.Project
import ProjectRegistry.Version

/-!
# Relations

What a store of projects keeps: projects, versions, grants, property bundles, flows and events, each
as a relation under its key. A version outlives the retirement of its project, and the highest
number a project ever had outlives its versions.

Two kinds of columns hold the same relations: live ones hold values, stored ones hold what a
database can hold, which is texts, numbers and bytes.
-/

namespace ProjectRegistry

/-- The types of the columns that hold more than names and words. -/
structure Columns where
  Settings : Type
  Time : Type
  Digest : Type
  Rights : Type
  Properties : Type
  Graph : Type
  Kind : Type
  Number : Type

@[reducible] def live : Columns :=
  ⟨Settings, Time.Instant, Digest, Rights, Properties, Json.Value, EventKind, Int32⟩

/-- Columns that hold what a database can hold: JSON as text, times in milliseconds, rights and
kinds as numbers, and numbers of any size. -/
@[reducible] def stored : Columns := ⟨String, Int, List UInt8, Int, String, String, Int, Int⟩

/-- A project without its grants. The pointer is its current version; `lastVersion` is the highest
number that was ever registered, or 0. -/
structure ProjectRow (C : Columns) where
  name : String
  description : String
  active : Bool
  pointer : Option C.Number
  lastVersion : C.Number
  settings : C.Settings
  createdBy : String
  lastModifiedBy : String
  createdAt : C.Time
  lastModifiedAt : C.Time

structure VersionRow (C : Columns) where
  uploader : String
  uploadTime : C.Time
  fileType : String
  fileName : String
  digest : C.Digest
  resourceId : String

structure EventRow (C : Columns) where
  project : Int32
  kind : C.Kind
  user : String
  message : String
  time : C.Time

/-- The relations of a store. Events are in the order in which they were committed. -/
structure Relations (C : Columns) where
  projects : Table Int32 (ProjectRow C)
  versions : Table (Int32 × Int32) (VersionRow C)
  grants : Table (Int32 × Bool × String) C.Rights
  bundles : Table (Int32 × Int32 × String) C.Properties
  flows : Table (Int32 × Int32 × String) C.Graph
  events : List (EventRow C)

namespace Relations

variable {C : Columns}

def empty : Relations C := ⟨.empty, .empty, .empty, .empty, .empty, []⟩

def holdsName (r : Relations C) (name : String) : Bool :=
  r.projects.rows.any fun p => p.active && p.name = name

def hasVersion (r : Relations C) (project version : Int32) : Bool :=
  r.versions.contains (project, version)

def versionsOf (r : Relations C) (project : Int32) : List (Int32 × VersionRow C) :=
  (r.versions.entries.filter fun e => e.1.1 = project).map fun e => (e.1.2, e.2)

/-- The grants of a project, users before groups and by name. -/
def grantsOf (r : Relations C) (project : Int32) : List ((Bool × String) × C.Rights) :=
  (r.grants.entries.filter fun e => e.1.1 = project).map fun e => (e.1.2, e.2)

def bundlesOf (r : Relations C) (project version : Int32) : List (String × C.Properties) :=
  (r.bundles.entries.filter fun e => e.1.1 = project ∧ e.1.2.1 = version).map
    fun e => (e.1.2.2, e.2)

def flowsOf (r : Relations C) (project version : Int32) : List (String × C.Graph) :=
  (r.flows.entries.filter fun e => e.1.1 = project ∧ e.1.2.1 = version).map fun e => (e.1.2.2, e.2)

def eventsOf (r : Relations C) (project : Int32) : List (EventRow C) :=
  r.events.filter fun e => e.project = project

end Relations

/-! ## Live rows as they are handed out -/

def ProjectRow.new (name description creator : String) (now : Time.Instant) : ProjectRow live where
  name := name
  description := description
  active := true
  pointer := none
  lastVersion := 0
  settings := .empty
  createdBy := creator
  lastModifiedBy := creator
  createdAt := now
  lastModifiedAt := now

def ProjectRow.toProject (p : ProjectRow live) (id : Int32) (grants : List Grant) : Project where
  id := id
  name := p.name
  description := p.description
  active := p.active
  version := p.pointer
  settings := p.settings
  grants := grants
  createdBy := p.createdBy
  lastModifiedBy := p.lastModifiedBy
  createdAt := p.createdAt
  lastModifiedAt := p.lastModifiedAt

def VersionRow.toVersion (v : VersionRow live) (project number : Int32) : Version :=
  ⟨project, number, v.uploader, v.uploadTime, v.fileType, v.fileName, v.digest, v.resourceId⟩

def VersionRow.ofVersion (v : Version) : VersionRow live :=
  ⟨v.uploader, v.uploadTime, v.fileType, v.fileName, v.digest, v.resourceId⟩

def EventRow.toEvent (e : EventRow live) : Event := ⟨e.project, e.kind, e.user, e.message, e.time⟩

/-! ## Keys as they are spelled in failures -/

def versionKey (project version : Int32) : String :=
  Text.numeralText project.toInt ++ ":" ++ Text.numeralText version.toInt

def memberKey (project version : Int32) (name : String) : String :=
  versionKey project version ++ ":" ++ name

/-- What stands for the key of the current version of a project that has none. -/
def currentKey (project : Int32) : String := Text.numeralText project.toInt ++ ":current"

namespace Failure

def noProject (id : Int32) : Failure := .notFound .project (Text.numeralText id.toInt)

def noVersion (project version : Int32) : Failure := .notFound .version (versionKey project version)

def noCurrentVersion (project : Int32) : Failure := .notFound .version (currentKey project)

def noBundle (project version : Int32) (path : String) : Failure :=
  .notFound .bundle (memberKey project version path)

def noFlow (project version : Int32) (id : String) : Failure :=
  .notFound .flow (memberKey project version id)

end Failure

def Project.target (p : Project) : Except Failure Int32 :=
  match p.version with
  | some v => .ok v
  | none => .error (.noCurrentVersion p.id)

/-! ## What the audit log says -/

def createdMessage (name : String) : String := "Project " ++ name ++ " created"

def removedMessage (name : String) : String := "Project " ++ name ++ " removed"

def describedMessage (description : String) : String :=
  "Description changed to '" ++ description ++ "'"

def versionChangedMessage (version : Int32) : String :=
  "Current version set to " ++ Text.numeralText version.toInt

/-! ## Pages of a log -/

/-- Puts an event, committed after those of a list, in front of the first of them that is not later.
-/
def insertNewest {C : Columns} (notLater : C.Time → C.Time → Bool) (e : EventRow C) :
    List (EventRow C) → List (EventRow C)
  | [] => [e]
  | d :: rest =>
    if notLater d.time e.time then e :: d :: rest else d :: insertNewest notLater e rest

/-- Events from the latest to the earliest; of those at one time the last committed comes first. -/
def newestFirst {C : Columns} (notLater : C.Time → C.Time → Bool) (es : List (EventRow C)) :
    List (EventRow C) :=
  es.foldl (fun sorted e => insertNewest notLater e sorted) []

def page {α : Type} (limit offset : Nat) (items : List α) : List α := (items.drop offset).take limit

end ProjectRegistry
