import ProjectRegistry.Limits
import ProjectRegistry.Store.Relations
import ProjectRegistry.Store.Step

/-!
# What a store can do

Queries look at the state and leave it alone; the other operations are steps. Where an operation is
about a project that its caller holds, it takes that copy, however old, and says which of its fields
count besides the id.

A store knows nothing of archives: it keeps the ids under which they are found.
-/

namespace ProjectRegistry

/-- A type of states that keep projects and all that belongs to them. -/
class Store (σ : Type) where
  activeProjects (s : σ) : Except Failure (List Project)
  projectById (id : Int32) (s : σ) : Except Failure Project
  /-- The active project of a name, or else the one of that name that was created last. -/
  projectByName (name : String) (s : σ) : Except Failure Project
  /-- Creates a project. Its creator may administer it. -/
  createProject (limits : Limits) (now : Time.Instant) (name description creator : String) :
    Step σ Project
  /-- Retires a project; one that is retired stays as it is. The log has the name that the copy
  holds. -/
  removeProject (now : Time.Instant) (p : Project) (user : String) : Step σ Unit
  describe (limits : Limits) (now : Time.Instant) (p : Project) (description user : String) :
    Step σ Unit
  configure (now : Time.Instant) (p : Project) : Step σ Unit
  /-- Sets the rights of a principal. No rights are no grant. -/
  setRights (p : Project) (principal : String) (isGroup : Bool) (rights : Rights) : Step σ Unit
  dropRights (p : Project) (principal : String) (isGroup : Bool) : Step σ Unit
  /-- The grants of a project, users before groups and by name. -/
  grants (project : Int32) (s : σ) : Except Failure (List Grant)
  /-- Appends to the log of a project and says whether that worked. -/
  postEvent (now : Time.Instant) (p : Project) (kind : EventKind) (user message : String) (s : σ) :
    Bool × σ
  /-- A page of the log of a project, latest first. -/
  events (p : Project) (limit offset : Nat) (s : σ) : Except Failure (List Event)
  /-- Registers a version. Its number has to be new and above all that its project ever had. -/
  addVersion (v : Version) : Step σ Unit
  version? (project number : Int32) (s : σ) : Except Failure (Option Version)
  changeVersion (now : Time.Instant) (p : Project) (version : Int32) (user : String) : Step σ Unit
  /-- The current version of a project; there is none before the first. -/
  currentVersion? (p : Project) (s : σ) : Except Failure (Option Int32)
  versions (project : Int32) (s : σ) : Except Failure (List Version)
  /-- Removes the versions below a bound with their bundles and flows, except the current one. -/
  clean (project bound : Int32) : Step σ (List Version)
  /-- Puts bundles into the version that the copy is aimed at. -/
  putBundles (p : Project) (bundles : List Bundle) : Step σ Unit
  bundle (p : Project) (path : String) (s : σ) : Except Failure Bundle
  bundleAt (project version : Int32) (path : String) (s : σ) : Except Failure Bundle
  bundles (project version : Int32) (s : σ) : Except Failure (List Bundle)
  putFlows (p : Project) (version : Int32) (flows : List Flow) : Step σ Unit
  /-- Replaces a flow that is there. -/
  updateFlow (p : Project) (version : Int32) (f : Flow) : Step σ Unit
  flow (p : Project) (id : String) (s : σ) : Except Failure Flow
  flows (p : Project) (s : σ) : Except Failure (List Flow)

end ProjectRegistry
