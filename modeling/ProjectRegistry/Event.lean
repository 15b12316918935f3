import ProjectRegistry.Json.Record
import ProjectRegistry.Time.Instant

/-!
# Audit events

What happened to a project, by whom and when. The kinds have numbers, which are stored and stay the
same, and names.
-/

namespace ProjectRegistry

inductive EventKind where
  | created
  | deleted
  | userPermission
  | groupPermission
  | description
  | uploaded
  | schedule
  | sla
  | proxyUser
  | purge
  | versionChanged
  | error
  deriving DecidableEq, Repr

namespace EventKind

def all : List EventKind := [
  created, deleted, userPermission, groupPermission, description, uploaded, schedule, sla,
    proxyUser, purge,
  versionChanged, error]

def code : EventKind → Int
  | created => 1
  | deleted => 2
  | userPermission => 3
  | groupPermission => 4
  | description => 5
  | uploaded => 6
  | schedule => 7
  | sla => 8
  | proxyUser => 9
  | purge => 10
  | versionChanged => 11
  | error => 128

def name : EventKind → String
  | created => "CREATED"
  | deleted => "DELETED"
  | userPermission => "USER_PERMISSION"
  | groupPermission => "GROUP_PERMISSION"
  | description => "DESCRIPTION"
  | uploaded => "UPLOADED"
  | schedule => "SCHEDULE"
  | sla => "SLA"
  | proxyUser => "PROXY_USER"
  | purge => "PURGE"
  | versionChanged => "VERSION_CHANGED"
  | error => "ERROR"

def ofCode? (n : Int) : Option EventKind := all.find? fun k => k.code = n

def ofName? (s : String) : Option EventKind := all.find? fun k => k.name = s

def permission (isGroup : Bool) : EventKind := if isGroup then groupPermission else userPermission

def toTree (k : EventKind) : Json.Tree := .text k.name

/-- Reads a kind: its name, or an object whose one member has that name and is null. -/
def ofTree? (room : Nat) : Json.Tree → Option EventKind
  | .string s => s.bind ofName?
  | .object [(k, .null)] => if room = 0 then none else k.bind ofName?
  | _ => none

theorem ofCode?_code (k : EventKind) : ofCode? k.code = some k := by cases k <;> decide

theorem ofName?_name (k : EventKind) : ofName? k.name = some k := by cases k <;> decide

end EventKind

structure Event where
  project : Int32
  kind : EventKind
  user : String
  message : String
  time : Time.Instant
  deriving DecidableEq, Repr

namespace Event

def toTree (e : Event) : Json.Tree :=
  .record [("projectId", .ofInt32 e.project), ("eventType", e.kind.toTree), ("user", .text e.user),
    ("message", .text e.message), ("time", .text e.time.toText)]

def ofTree? (room : Nat) (t : Json.Tree) : Option Event := do
  let (fields, room) ← Json.fields? ["projectId", "eventType", "user", "message", "time"] room t
  let project ← fields.required "projectId" Json.Tree.int32?
  let kind ← fields.required "eventType" (EventKind.ofTree? room)
  let user ← fields.required "user" Json.Tree.text?
  let message ← fields.required "message" Json.Tree.text?
  let time ← fields.required "time" fun t => t.text?.bind Time.Instant.ofText?
  return ⟨project, kind, user, message, time⟩

end Event

end ProjectRegistry
