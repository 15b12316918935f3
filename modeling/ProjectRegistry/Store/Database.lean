import ProjectRegistry.Store.Database.Statements
import ProjectRegistry.Store.Interface

/-!
# Stores in a database

Each operation that changes something is one transaction, so that a change and the event that tells
of it come together or not at all. Queries read the cells they need, and fail where a cell cannot be
read. On a closed database everything fails that gets as far as the database.
-/

namespace ProjectRegistry

namespace Database

/-! ## Looking up -/

def loadGrants (r : Relations stored) (id : Int32) : List Grant :=
  (r.grantsOf id).map fun g => ⟨g.1.2, g.1.1, .ofStored g.2⟩

/-- Reads a row and the grants of its project. -/
def loadProject (r : Relations stored) (id : Int32) (p : ProjectRow stored) :
    Except Failure Project := do
  let p ← p.load
  return p.toProject id (loadGrants r id)

def loadVersion (project : Int32) (v : Int32 × VersionRow stored) : Except Failure Version := do
  let row ← v.2.load
  return row.toVersion project v.1

def loadBundle (b : String × String) : Except Failure Bundle := do
  let properties ← readProperties b.2
  return ⟨b.1, properties⟩

def loadFlow (f : String × String) : Except Failure Flow := do
  let graph ← readGraph f.2
  return ⟨f.1, graph⟩

def loadEvent (e : EventRow stored) : Except Failure Event := do
  let e ← e.load
  return e.toEvent

def activeProjects : Database → Except Failure (List Project) :=
  query fun r => loadAll (fun e => loadProject r e.1 e.2)
    (r.projects.entries.filter fun e => e.2.active)

def projectById (id : Int32) : Database → Except Failure Project :=
  query fun r =>
    match r.projects.find? id with
    | some p => loadProject r id p
    | none => .error (.noProject id)

/-- The first project of a name when active ones come before others, and later ones before earlier.
-/
def rowByName? (r : Relations stored) (name : String) : Option (Int32 × ProjectRow stored) :=
  let named := (r.projects.entries.filter fun e => e.2.name = name).reverse
  (named.filter fun e => e.2.active).head? <|> (named.filter fun e => !e.2.active).head?

def projectByName (name : String) : Database → Except Failure Project :=
  query fun r =>
    match rowByName? r name with
    | some (id, p) => loadProject r id p
    | none => .error (.notFound .project name)

def grants (project : Int32) : Database → Except Failure (List Grant) :=
  query fun r => .ok (loadGrants r project)

/-- Reads the events of one page only. Counts beyond the largest row id are the same as that. -/
def events (p : Project) (limit offset : Nat) : Database → Except Failure (List Event) :=
  query fun r =>
    let sorted := newestFirst (fun (a b : Int) => decide (a ≤ b)) (r.eventsOf p.id)
    loadAll loadEvent (page (min limit lastRowId.toNat) (min offset lastRowId.toNat) sorted)

def version? (project version : Int32) : Database → Except Failure (Option Version) :=
  query fun r =>
    match r.versions.find? (project, version) with
    | none => .ok none
    | some v => do
      let v ← loadVersion project (version, v)
      return some v

def versions (project : Int32) : Database → Except Failure (List Version) :=
  query fun r => loadAll (loadVersion project) (r.versionsOf project)

def currentVersion? (p : Project) : Database → Except Failure (Option Int32) :=
  query fun r =>
    match r.projects.find? p.id with
    | some row => readNumber? .single row.pointer
    | none => .error (.noProject p.id)

def pointer (p : Project) (d : Database) : Except Failure Int32 := do
  let found ← currentVersion? p d
  match found with
  | some v => .ok v
  | none => .error (.noCurrentVersion p.id)

def bundleAt (project version : Int32) (path : String) : Database → Except Failure Bundle :=
  query fun r =>
    match r.bundles.find? (project, version, path) with
    | some text => loadBundle (path, text)
    | none => .error (.noBundle project version path)

def bundle (p : Project) (path : String) (d : Database) : Except Failure Bundle := do
  let version ← pointer p d
  bundleAt p.id version path d

def bundles (project version : Int32) : Database → Except Failure (List Bundle) :=
  query fun r => loadAll loadBundle (r.bundlesOf project version)

def flow (p : Project) (id : String) (d : Database) : Except Failure Flow := do
  let version ← pointer p d
  query (fun r =>
    match r.flows.find? (p.id, version, id) with
    | some text => loadFlow (id, text)
    | none => .error (.noFlow p.id version id)) d

def flows (p : Project) (d : Database) : Except Failure (List Flow) := do
  let version ← pointer p d
  query (fun r => loadAll loadFlow (r.flowsOf p.id version)) d

/-! ## Changing -/

def eventRow (project : Int32) (kind : EventKind) (user message : String) (now : Time.Instant) :
    EventRow stored :=
  ⟨project, kind.code, user, message, now.millis⟩

def createProject (limits : Limits) (now : Time.Instant) (name description creator : String) :
    Step Database Project := do
  .lift (limits.checkName name)
  .lift (limits.checkDescription description)
  transaction do
    let id ← insertProject (ProjectRow.new name description creator now).store
    upsertGrant id creator false .admin
    insertEvent (eventRow id .created creator (createdMessage name) now)
    .read (projectById id)

def removeProject (now : Time.Instant) (p : Project) (user : String) : Step Database Unit :=
  transaction do
    let changed ← updateProject p.id (fun _ held => held.active) fun held =>
      { held with active := false, lastModifiedBy := user, lastModifiedAt := now.millis }
    if changed = 0 then lockProject p.id
    else insertEvent (eventRow p.id .deleted user (removedMessage p.name) now)

def describe (limits : Limits) (now : Time.Instant) (p : Project) (description user : String) :
    Step Database Unit := do
  .lift (limits.checkDescription description)
  transaction do
    let changed ← updateProject p.id (fun _ _ => true) fun held =>
      { held with description, lastModifiedBy := user, lastModifiedAt := now.millis }
    .require (decide (changed ≠ 0)) (.noProject p.id)
    insertEvent (eventRow p.id .description user (describedMessage description) now)

def configure (now : Time.Instant) (p : Project) : Step Database Unit :=
  transaction do
    let changed ← updateProject p.id (fun _ _ => true) fun held =>
      { held with settings := p.settings.toText, lastModifiedAt := now.millis }
    .require (decide (changed ≠ 0)) (.noProject p.id)

def dropRights (p : Project) (principal : String) (isGroup : Bool) : Step Database Unit :=
  transaction do
    lockProject p.id
    deleteGrant p.id principal isGroup

def setRights (p : Project) (principal : String) (isGroup : Bool) (rights : Rights) :
    Step Database Unit :=
  if rights.isEmpty then dropRights p principal isGroup
  else transaction do
    lockProject p.id
    upsertGrant p.id principal isGroup rights

def postEvent (now : Time.Instant) (p : Project) (kind : EventKind) (user message : String)
    (d : Database) :
    Bool × Database :=
  match transaction (insertEvent (eventRow p.id kind user message now)) d with
  | (.ok (), d) => (true, d)
  | (.error _, d) => (false, d)

def addVersion (v : Version) : Step Database Unit :=
  transaction do
    lockProject v.project
    let held ← select fun r => ((r.projects.find? v.project).map (·.lastVersion)).getD 0
    let last ← .lift (readNumber .single held)
    let found ← select fun r => r.hasVersion v.project v.number
    .require (!found) (.duplicateVersion v.project v.number)
    .require (decide (1 ≤ v.number ∧ last < v.number)) (.versionOrdering v.project v.number last)
    insertVersion v.project v.number (VersionRow.ofVersion v).store
    let _ ← updateProject v.project (fun _ _ => true) fun held =>
      { held with
        lastVersion := v.number.toInt
        pointer := some (held.pointer.getD v.number.toInt) }

def changeVersion (now : Time.Instant) (p : Project) (version : Int32) (user : String) :
    Step Database Unit :=
  transaction do
    let changed ← updateProject p.id (fun r _ => r.hasVersion p.id version) fun held =>
      { held with
        pointer := some version.toInt
        lastModifiedBy := user
        lastModifiedAt := now.millis }
    if changed = 0 then
      lockProject p.id
      .fail (.noVersion p.id version)
    else insertEvent (eventRow p.id .versionChanged user (versionChangedMessage version) now)

/-- Versions start at 1, so without a pointer there is none to keep. -/
def clean (project bound : Int32) : Step Database (List Version) :=
  transaction do
    lockProject project
    let held ← select fun r => (r.projects.find? project).bind (·.pointer)
    let pointer ← .lift (readNumber? .single held)
    let keep := pointer.getD 0
    let rows ← select fun r => (r.versionsOf project).filter fun v => isSuperseded project bound
      keep project v.1
    let removed ← .lift (loadAll (loadVersion project) rows)
    deleteBundlesBelow project bound keep
    deleteFlowsBelow project bound keep
    deleteVersionsBelow project bound keep
    return removed

def putBundles (p : Project) (bundles : List Bundle) : Step Database Unit := do
  let version ← .lift p.target
  transaction do
    lockProject p.id
    requireVersion p.id version
    forEach (upsertBundle p.id version) bundles

def putFlows (p : Project) (version : Int32) (flows : List Flow) : Step Database Unit :=
  transaction do
    lockProject p.id
    requireVersion p.id version
    forEach (upsertFlow p.id version) flows

def updateFlow (p : Project) (version : Int32) (f : Flow) : Step Database Unit :=
  transaction do
    let changed ← updateGraph p.id version f
    .require (decide (changed ≠ 0)) (.noFlow p.id version f.id)

def close (d : Database) : Database := { d with isOpen := false }

/-- Opens a database again with all that it keeps. -/
def reopen (d : Database) : Database := { d with isOpen := true }

instance : Store Database where
  activeProjects := activeProjects
  projectById := projectById
  projectByName := projectByName
  createProject := createProject
  removeProject := removeProject
  describe := describe
  configure := configure
  setRights := setRights
  dropRights := dropRights
  grants := grants
  postEvent := postEvent
  events := events
  addVersion := addVersion
  version? := version?
  changeVersion := changeVersion
  currentVersion? := currentVersion?
  versions := versions
  clean := clean
  putBundles := putBundles
  bundle := bundle
  bundleAt := bundleAt
  bundles := bundles
  putFlows := putFlows
  updateFlow := updateFlow
  flow := flow
  flows := flows

end Database

end ProjectRegistry
