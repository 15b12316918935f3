import ProjectRegistry.Store.Database.Cells
import ProjectRegistry.Store.Step

/-!
# Statements

A database keeps the relations as cells, hands out row ids, and can be closed. Each statement reads
or writes one relation; one that writes says how many rows it changed. A transaction is a row of
statements that take effect together or not at all.

Row ids of projects and of events grow until they are used up. No two active projects have one name:
a statement that would break this fails.
-/

namespace ProjectRegistry

structure Database where
  relations : Relations stored
  /-- The last row id given to a project; there is none before the first. -/
  projectSequence : Option Int := none
  /-- The last row id given to an event. -/
  eventSequence : Int := 0
  isOpen : Bool := true

namespace Database

def empty : Database := { relations := .empty }

def lastRowId : Int := Int64.maxValue.toInt

/-- Fails on a database that was closed. -/
def ready : Step Database Unit := do
  let d ← .get
  .require d.isOpen (.storage .closed)

/-- Statements that take effect together or not at all. -/
def transaction {α : Type} (statements : Step Database α) : Step Database α := do
  ready
  .allOrNone statements

def query {α : Type} (q : Relations stored → Except Failure α) (d : Database) : Except Failure α :=
  if d.isOpen then q d.relations else .error (.storage .closed)

def select {α : Type} (q : Relations stored → α) : Step Database α := do
  let d ← .get
  return q d.relations

def changeRelations (f : Relations stored → Relations stored) : Step Database Unit :=
  .change fun d => { d with relations := f d.relations }

/-- Changes the row of a project where a condition holds, and counts. -/
def updateProject (id : Int32) (condition : Relations stored → ProjectRow stored → Bool)
    (f : ProjectRow stored → ProjectRow stored) : Step Database Nat := do
  let r ← select fun r => r
  if (r.projects.find? id).any (condition r) then
    changeRelations fun r => { r with projects := r.projects.modify id f }
    return 1
  else return 0

def hasProject (id : Int32) : Step Database Bool := select fun r => r.projects.contains id

/-- Claims the row of a project before anything that belongs to it is changed. -/
def lockProject (id : Int32) : Step Database Unit := do
  let found ← hasProject id
  .require found (.noProject id)

def requireVersion (project version : Int32) : Step Database Unit := do
  let found ← select fun r => r.hasVersion project version
  .require found (.noVersion project version)

/-- The row id that the next project gets: above all ids that are there and the last one given. -/
def nextProjectId (d : Database) : Int :=
  let largest := (d.relations.projects.keys.getLast?.map Int32.toInt).getD 0
  max (largest + 1) (d.projectSequence.getD 0 + 1)

def insertProject (p : ProjectRow stored) : Step Database Int32 := do
  let d ← .get
  .require (decide (d.projectSequence ≠ some lastRowId)) (.storage (.database .full))
  .require (!d.relations.holdsName p.name) (.duplicateName p.name)
  let id := d.nextProjectId
  .require (decide (id ≤ Int32.maxValue.toInt)) (.storage .idOutOfRange)
  .change fun d => { d with projectSequence := some id }
  changeRelations fun r => { r with projects := r.projects.insert (Int32.ofInt id) p }
  return Int32.ofInt id

def insertEvent (e : EventRow stored) : Step Database Unit := do
  let d ← .get
  .require (decide (d.eventSequence < lastRowId)) (.storage (.database .full))
  .change fun d => { d with eventSequence := d.eventSequence + 1 }
  changeRelations fun r => { r with events := r.events ++ [e] }

def upsertGrant (project : Int32) (principal : String) (isGroup : Bool) (rights : Rights) :
    Step Database Unit :=
  changeRelations fun r =>
    { r with grants := r.grants.insert (project, isGroup, principal) rights.stored }

def deleteGrant (project : Int32) (principal : String) (isGroup : Bool) : Step Database Unit :=
  changeRelations fun r => { r with grants := r.grants.erase (project, isGroup, principal) }

def insertVersion (project version : Int32) (v : VersionRow stored) : Step Database Unit :=
  changeRelations fun r => { r with versions := r.versions.insert (project, version) v }

def upsertBundle (project version : Int32) (b : Bundle) : Step Database Unit :=
  changeRelations fun r =>
    { r with bundles := r.bundles.insert (project, version, b.path) b.properties.toText }

def upsertFlow (project version : Int32) (f : Flow) : Step Database Unit :=
  changeRelations fun r =>
    { r with flows := r.flows.insert (project, version, f.id) f.graph.toText }

def updateGraph (project version : Int32) (f : Flow) : Step Database Nat := do
  let found ← select fun r => r.flows.contains (project, version, f.id)
  if found then
    upsertFlow project version f
    return 1
  else return 0

def forEach {α : Type} (statement : α → Step Database Unit) : List α → Step Database Unit
  | [] => pure ()
  | a :: rest => do
    statement a
    forEach statement rest

/-- Whether a version of a project is below a bound and not the one to keep. -/
def isSuperseded (project bound keep : Int32) (p v : Int32) : Bool :=
  decide (p = project ∧ v < bound ∧ v ≠ keep)

def deleteBundlesBelow (project bound keep : Int32) : Step Database Unit :=
  changeRelations fun r => { r with
    bundles := r.bundles.filter fun k _ => !isSuperseded project bound keep k.1 k.2.1 }

def deleteFlowsBelow (project bound keep : Int32) : Step Database Unit :=
  changeRelations fun r => { r with
    flows := r.flows.filter fun k _ => !isSuperseded project bound keep k.1 k.2.1 }

def deleteVersionsBelow (project bound keep : Int32) : Step Database Unit :=
  changeRelations fun r => { r with
    versions := r.versions.filter fun k _ => !isSuperseded project bound keep k.1 k.2 }

end Database

end ProjectRegistry
