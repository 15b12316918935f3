import ProjectRegistry.Store.Interface

/-!
# Stores in memory

Relations of live values. Every operation checks first and changes the relations only when nothing
can fail any more. Ids are handed out one after the other and never again.
-/

namespace ProjectRegistry

structure Memory where
  relations : Relations live
  lastProject : Int32

namespace Memory

def empty : Memory := ⟨.empty, 0⟩

/-! ## Looking up -/

def row (id : Int32) (m : Memory) : Except Failure (ProjectRow live) :=
  match m.relations.projects.find? id with
  | some p => .ok p
  | none => .error (.noProject id)

def grantList (m : Memory) (id : Int32) : List Grant :=
  (m.relations.grantsOf id).map fun g => ⟨g.1.2, g.1.1, g.2⟩

def assemble (m : Memory) (id : Int32) (p : ProjectRow live) : Project :=
  p.toProject id (m.grantList id)

def requireVersion (project version : Int32) (m : Memory) : Except Failure Unit :=
  if m.relations.hasVersion project version then .ok () else .error (.noVersion project version)

def pointer (id : Int32) (m : Memory) : Except Failure Int32 :=
  match m.row id with
  | .error e => .error e
  | .ok p =>
    match p.pointer with
    | some v => .ok v
    | none => .error (.noCurrentVersion id)

def activeProjects (m : Memory) : List Project :=
  (m.relations.projects.entries.filter fun e => e.2.active).map fun e => m.assemble e.1 e.2

def projectById (id : Int32) (m : Memory) : Except Failure Project :=
  match m.row id with
  | .ok p => .ok (m.assemble id p)
  | .error e => .error e

def named (m : Memory) (name : String) : List (Int32 × ProjectRow live) :=
  m.relations.projects.entries.filter fun e => e.2.name = name

def projectByName (name : String) (m : Memory) : Except Failure Project :=
  let named := m.named name
  match (named.find? fun e => e.2.active) <|> named.getLast? with
  | some (id, p) => .ok (m.assemble id p)
  | none => .error (.notFound .project name)

def version? (project version : Int32) (m : Memory) : Option Version :=
  (m.relations.versions.find? (project, version)).map fun v => v.toVersion project version

def versions (project : Int32) (m : Memory) : List Version :=
  (m.relations.versionsOf project).map fun v => v.2.toVersion project v.1

def currentVersion? (p : Project) (m : Memory) : Except Failure (Option Int32) :=
  match m.row p.id with
  | .ok p => .ok p.pointer
  | .error e => .error e

def events (p : Project) (limit offset : Nat) (m : Memory) : List Event :=
  (page limit offset (newestFirst Time.Instant.atMost (m.relations.eventsOf p.id))).map
    EventRow.toEvent

def bundleAt (project version : Int32) (path : String) (m : Memory) : Except Failure Bundle :=
  match m.relations.bundles.find? (project, version, path) with
  | some properties => .ok ⟨path, properties⟩
  | none => .error (.noBundle project version path)

def bundle (p : Project) (path : String) (m : Memory) : Except Failure Bundle :=
  match m.pointer p.id with
  | .ok version => m.bundleAt p.id version path
  | .error e => .error e

def bundles (project version : Int32) (m : Memory) : List Bundle :=
  (m.relations.bundlesOf project version).map fun b => ⟨b.1, b.2⟩

def flow (p : Project) (id : String) (m : Memory) : Except Failure Flow :=
  match m.pointer p.id with
  | .error e => .error e
  | .ok version =>
    match m.relations.flows.find? (p.id, version, id) with
    | some graph => .ok ⟨id, graph⟩
    | none => .error (.noFlow p.id version id)

def flows (p : Project) (m : Memory) : Except Failure (List Flow) :=
  match m.pointer p.id with
  | .ok version => .ok ((m.relations.flowsOf p.id version).map fun f => ⟨f.1, f.2⟩)
  | .error e => .error e

/-! ## Changing -/

def changeRelations (f : Relations live → Relations live) : Step Memory Unit :=
  .change fun m => { m with relations := f m.relations }

def changeRow (id : Int32) (f : ProjectRow live → ProjectRow live) : Step Memory Unit :=
  changeRelations fun r => { r with projects := r.projects.modify id f }

/-- Notes who changed a project, and when. -/
def touch (id : Int32) (user : String) (now : Time.Instant) : Step Memory Unit :=
  changeRow id fun p => { p with lastModifiedBy := user, lastModifiedAt := now }

def appendEvent (e : EventRow live) : Step Memory Unit :=
  changeRelations fun r => { r with events := r.events ++ [e] }

def createProject (limits : Limits) (now : Time.Instant) (name description creator : String) :
    Step Memory Project := do
  .lift (limits.checkName name)
  .lift (limits.checkDescription description)
  let m ← .get
  .require (!m.relations.holdsName name) (.duplicateName name)
  .require (decide (m.lastProject ≠ Int32.maxValue)) (.storage .idsUsedUp)
  let id := m.lastProject + 1
  .change fun m => { m with lastProject := id }
  changeRelations fun r => { r with
    projects := r.projects.insert id (.new name description creator now)
    grants := r.grants.insert (id, false, creator) .admin }
  appendEvent ⟨id, .created, creator, createdMessage name, now⟩
  .read (projectById id)

def removeProject (now : Time.Instant) (p : Project) (user : String) : Step Memory Unit := do
  let held ← .read (row p.id)
  if held.active then
    changeRow p.id fun p => { p with active := false }
    touch p.id user now
    appendEvent ⟨p.id, .deleted, user, removedMessage p.name, now⟩
  else pure ()

def describe (limits : Limits) (now : Time.Instant) (p : Project) (description user : String) :
    Step Memory Unit := do
  .lift (limits.checkDescription description)
  let _ ← .read (row p.id)
  changeRow p.id fun p => { p with description }
  touch p.id user now
  appendEvent ⟨p.id, .description, user, describedMessage description, now⟩

def configure (p : Project) : Step Memory Unit := do
  let _ ← .read (row p.id)
  changeRow p.id fun held => { held with settings := p.settings }

def setRights (p : Project) (principal : String) (isGroup : Bool) (rights : Rights) :
    Step Memory Unit := do
  let _ ← .read (row p.id)
  changeRelations fun r =>
    let key := (p.id, isGroup, principal)
    { r with grants := if rights.isEmpty then r.grants.erase key else r.grants.insert key rights }

def postEvent (now : Time.Instant) (p : Project) (kind : EventKind) (user message : String)
    (m : Memory) :
    Bool × Memory :=
  (true, (appendEvent ⟨p.id, kind, user, message, now⟩ m).2)

def addVersion (v : Version) : Step Memory Unit := do
  let held ← .read (row v.project)
  let m ← .get
  .require (!m.relations.hasVersion v.project v.number) (.duplicateVersion v.project v.number)
  .require (decide (1 ≤ v.number ∧ held.lastVersion < v.number))
    (.versionOrdering v.project v.number held.lastVersion)
  changeRelations fun r =>
    { r with versions := r.versions.insert (v.project, v.number) (.ofVersion v) }
  changeRow v.project fun p =>
    { p with lastVersion := v.number, pointer := some (p.pointer.getD v.number) }

def changeVersion (now : Time.Instant) (p : Project) (version : Int32) (user : String) :
    Step Memory Unit := do
  let _ ← .read (row p.id)
  .read (requireVersion p.id version)
  changeRow p.id fun p => { p with pointer := some version }
  touch p.id user now
  appendEvent ⟨p.id, .versionChanged, user, versionChangedMessage version, now⟩

/-- The numbers of the versions below a bound, without the current one. -/
def superseded (m : Memory) (project bound : Int32) (pointer : Option Int32) : List Int32 :=
  ((m.relations.versionsOf project).map (·.1)).filter fun v => decide (v < bound) && pointer ≠
    some v

def clean (project bound : Int32) : Step Memory (List Version) := do
  let held ← .read (row project)
  let m ← .get
  let doomed := m.superseded project bound held.pointer
  changeRelations fun r => { r with
    versions := r.versions.filter fun k _ => !(k.1 = project && doomed.contains k.2)
    bundles := r.bundles.filter fun k _ => !(k.1 = project && doomed.contains k.2.1)
    flows := r.flows.filter fun k _ => !(k.1 = project && doomed.contains k.2.1) }
  return doomed.filterMap fun v => m.version? project v

def putBundles (p : Project) (bundles : List Bundle) : Step Memory Unit := do
  let version ← .lift p.target
  .read (requireVersion p.id version)
  changeRelations fun r => { r with
    bundles := bundles.foldl (fun t b => t.insert (p.id, version, b.path) b.properties) r.bundles }

def putFlows (p : Project) (version : Int32) (flows : List Flow) : Step Memory Unit := do
  .read (requireVersion p.id version)
  changeRelations fun r => { r with
    flows := flows.foldl (fun t f => t.insert (p.id, version, f.id) f.graph) r.flows }

def updateFlow (p : Project) (version : Int32) (f : Flow) : Step Memory Unit := do
  let m ← .get
  .require (m.relations.flows.contains (p.id, version, f.id)) (.noFlow p.id version f.id)
  changeRelations fun r => { r with flows := r.flows.insert (p.id, version, f.id) f.graph }

instance : Store Memory where
  activeProjects m := .ok m.activeProjects
  projectById := projectById
  projectByName := projectByName
  createProject := createProject
  removeProject := removeProject
  describe := describe
  configure _ := configure
  setRights := setRights
  dropRights p principal isGroup := setRights p principal isGroup .none
  grants id m := .ok (m.grantList id)
  postEvent := postEvent
  events p limit offset m := .ok (m.events p limit offset)
  addVersion := addVersion
  version? project version m := .ok (m.version? project version)
  changeVersion := changeVersion
  currentVersion? := currentVersion?
  versions project m := .ok (m.versions project)
  clean := clean
  putBundles := putBundles
  bundle := bundle
  bundleAt := bundleAt
  bundles project version m := .ok (m.bundles project version)
  putFlows := putFlows
  updateFlow := updateFlow
  flow := flow
  flows := flows

end Memory

end ProjectRegistry
