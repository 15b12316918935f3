import ProjectRegistry.Store.Database

/-!
# Direct edits

What someone does who changes the cells of a database past the registry. An edit knows no rule of
the registry but one, that no two active projects have one name. It says how many rows it changed.
-/

namespace ProjectRegistry

/-- A change to the cells of one project, of one of its versions, or of the sequence of row ids. -/
inductive Edit where
  | settings (project : Int32) (text : String)
  | createdAt (project : Int32) (millis : Int)
  | modifiedAt (project : Int32) (millis : Int)
  | activate (project : Int32)
  | pointer (project : Int32) (version : Option Int)
  | lastVersion (project : Int32) (version : Int)
  | digest (project version : Int32) (bytes : List UInt8)
  | uploadTime (project version : Int32) (millis : Int)
  | properties (project : Int32) (text : String)
  | graphs (project : Int32) (text : String)
  | eventKinds (project : Int32) (code : Int)
  | eventTimes (project : Int32) (millis : Int)
  | rights (project : Int32) (bits : Int)
  | projectSequence (id : Int)

namespace Edit

open Database

def onProject (id : Int32) (f : ProjectRow stored → ProjectRow stored) : Step Database Nat :=
  updateProject id (fun _ _ => true) f

def onVersion (project version : Int32) (f : VersionRow stored → VersionRow stored) :
    Step Database Nat := do
  let found ← select fun r => r.hasVersion project version
  changeRelations fun r => { r with versions := r.versions.modify (project, version) f }
  return if found then 1 else 0

/-- Changes the rows of a table whose key belongs to a project, and counts them. -/
def changeOf {κ α : Type} [Key κ] (projectOf : κ → Int32) (project : Int32) (f : α → α)
    (t : Table κ α) :
    Nat × Table κ α :=
  ((t.keys.filter fun k => projectOf k = project).length,
    t.map fun k a => if projectOf k = project then f a else a)

def onEvents (project : Int32) (f : EventRow stored → EventRow stored) : Step Database Nat := do
  let count ← select fun r => (r.eventsOf project).length
  changeRelations fun r =>
    { r with events := r.events.map fun e => if e.project = project then f e else e }
  return count

/-- Makes a project active, unless that would give two active projects one name. -/
def activateProject (id : Int32) : Step Database Nat := do
  let clash ← select fun r =>
    (r.projects.find? id).any fun p =>
      r.projects.entries.any fun e => e.1 ≠ id && e.2.active && e.2.name = p.name
  .require (!clash) (.violation .nameTaken)
  onProject id fun p => { p with active := true }

def statement : Edit → Step Database Nat
  | .settings id text => onProject id fun p => { p with settings := text }
  | .createdAt id ms => onProject id fun p => { p with createdAt := ms }
  | .modifiedAt id ms => onProject id fun p => { p with lastModifiedAt := ms }
  | .activate id => activateProject id
  | .pointer id version => onProject id fun p => { p with pointer := version }
  | .lastVersion id version => onProject id fun p => { p with lastVersion := version }
  | .digest id version bytes => onVersion id version fun v => { v with digest := bytes }
  | .uploadTime id version ms => onVersion id version fun v => { v with uploadTime := ms }
  | .properties id text => do
    let (count, bundles) ← select fun r => changeOf (·.1) id (fun _ => text) r.bundles
    changeRelations fun r => { r with bundles }
    return count
  | .graphs id text => do
    let (count, flows) ← select fun r => changeOf (·.1) id (fun _ => text) r.flows
    changeRelations fun r => { r with flows }
    return count
  | .eventKinds id code => onEvents id fun e => { e with kind := code }
  | .eventTimes id ms => onEvents id fun e => { e with time := ms }
  | .rights id bits => do
    let (count, grants) ← select fun r => changeOf (·.1) id (fun _ => bits) r.grants
    changeRelations fun r => { r with grants }
    return count
  | .projectSequence last => do
    let d ← .get
    if d.projectSequence.isSome then
      .change fun d => { d with projectSequence := some last }
      return 1
    else return 0

/-- Makes an edit and counts the rows that it changes. -/
def apply (e : Edit) : Step Database Nat := transaction e.statement

end Edit

end ProjectRegistry
