import ProjectRegistry.Json.Record
import ProjectRegistry.Rights
import ProjectRegistry.Table
import ProjectRegistry.Time.Instant

/-!
# Projects

A project as it is handed out: its own fields, its rights and its current version at that moment.
What someone holds is a copy, which later calls may no longer agree with.
-/

namespace ProjectRegistry

/-- What callers configure: the users that flows may run as, and free JSON under keys. -/
structure Settings where
  proxyUsers : Table String Unit
  metadata : Table String Json.Value

namespace Settings

def empty : Settings := ⟨.empty, .empty⟩

def withProxyUser (s : Settings) (user : String) : Settings :=
  { s with proxyUsers := s.proxyUsers.insert user () }

def withMetadata (s : Settings) (key : String) (value : Json.Value) : Settings :=
  { s with metadata := s.metadata.insert key value }

def toTree (s : Settings) : Json.Tree :=
  .record [("proxyUsers", .array (s.proxyUsers.keys.map .text)),
    ("metadata", .record (s.metadata.entries.map fun e => (e.1, e.2.toTree)))]

def ofTree? (room : Nat) (t : Json.Tree) : Option Settings := do
  let (fields, room) ← Json.fields? ["proxyUsers", "metadata"] room t
  let users ← fields.withDefault "proxyUsers" [] (Json.Tree.array? room fun _ => Json.Tree.text?)
  let metadata ← fields.withDefault "metadata" [] (Json.Tree.members? room Json.Value.ofTree?)
  return ⟨.ofList (users.map fun u => (u, ())), .ofList metadata⟩

def toText (s : Settings) : String := s.toTree.toText

def ofText? (s : String) : Option Settings := (Json.Tree.ofText? s).bind (ofTree? Json.nestingLimit)

end Settings

structure Project where
  id : Int32
  name : String
  description : String
  active : Bool
  version : Option Int32
  settings : Settings
  grants : List Grant
  createdBy : String
  lastModifiedBy : String
  createdAt : Time.Instant
  lastModifiedAt : Time.Instant

namespace Project

def new (id : Int32) (name description creator : String) (now : Time.Instant) : Project where
  id := id
  name := name
  description := description
  active := true
  version := none
  settings := .empty
  grants := []
  createdBy := creator
  lastModifiedBy := creator
  createdAt := now
  lastModifiedAt := now

def atVersion (p : Project) (version : Int32) : Project := { p with version := some version }

def withSettings (p : Project) (s : Settings) : Project := { p with settings := s }

/-- The rights of the first grant to a user or a group. -/
def rightsOf? (p : Project) (principal : String) (isGroup : Bool) : Option Rights :=
  (p.grants.find? fun g => g.isGroup = isGroup ∧ g.principal = principal).map (·.rights)

/-- Whether a user has the rights required, by its own grant or by the grant of one of its groups.
-/
def hasRights (p : Project) (user : String) (groups : List String) (required : Rights) : Bool :=
  (p.rightsOf? user false).any (·.allows required) ||
    groups.any fun g => (p.rightsOf? g true).any (·.allows required)

/-- The member for the current version; there is none without a version. -/
def versionMember (version : Option Int32) : List (String × Json.Tree) :=
  match version with
  | none => []
  | some v => [("version", .ofInt32 v)]

def toTree (p : Project) : Json.Tree :=
  .record ([("id", .ofInt32 p.id), ("name", .text p.name), ("description", .text p.description),
      ("active", .bool p.active)] ++ versionMember p.version ++
    [("settings", p.settings.toTree), ("permissions", .array (p.grants.map Grant.toTree)),
      ("createdBy", .text p.createdBy), ("lastModifiedBy", .text p.lastModifiedBy),
      ("createdAt", .text p.createdAt.toText), ("lastModifiedAt", .text p.lastModifiedAt.toText)])

def fieldNames : List String := [
  "id", "name", "description", "active", "version", "settings", "permissions", "createdBy",
    "lastModifiedBy",
  "createdAt", "lastModifiedAt"]

def ofTree? (room : Nat) (t : Json.Tree) : Option Project := do
  let (fields, room) ← Json.fields? fieldNames room t
  let id ← fields.required "id" Json.Tree.int32?
  let name ← fields.required "name" Json.Tree.text?
  let description ← fields.required "description" Json.Tree.text?
  let active ← fields.required "active" Json.Tree.bool?
  let version ← fields.withDefault "version" none (Json.Tree.nullable? Json.Tree.int32?)
  let settings ← fields.required "settings" (Settings.ofTree? room)
  let grants ← fields.withDefault "permissions" [] (Json.Tree.array? room Grant.ofTree?)
  let createdBy ← fields.required "createdBy" Json.Tree.text?
  let lastModifiedBy ← fields.required "lastModifiedBy" Json.Tree.text?
  let createdAt ← fields.required "createdAt" fun t => t.text?.bind Time.Instant.ofText?
  let lastModifiedAt ← fields.required "lastModifiedAt" fun t => t.text?.bind Time.Instant.ofText?
  return ⟨id, name, description, active, version, settings, grants, createdBy, lastModifiedBy,
    createdAt, lastModifiedAt⟩

end Project

end ProjectRegistry
