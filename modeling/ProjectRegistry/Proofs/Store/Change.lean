import ProjectRegistry.Limits
import ProjectRegistry.Proofs.Store.Medium

/-!
# Changes

Everything that an operation can do to the relations of a store, said once for all media. An
operation that succeeds makes a few of these changes, and one that fails makes none; what holds
along every run of a store is shown by looking at one change at a time.

A change names live values. `Change.apply` writes them down in a medium, relation by relation, and
`Change.Fits` is what the operations check before they make it.
-/

namespace ProjectRegistry

inductive Change where
  | create (id : Int32) (name description creator : String) (now : Time.Instant)
  | retire (id : Int32) (name user : String) (now : Time.Instant)
  | describe (id : Int32) (description user : String) (now : Time.Instant)
  /-- Only some stores note when settings were changed. -/
  | configure (id : Int32) (settings : Settings) (now : Option Time.Instant)
  | grant (id : Int32) (isGroup : Bool) (principal : String) (rights : Rights)
  | revoke (id : Int32) (isGroup : Bool) (principal : String)
  | log (e : EventRow live)
  | register (v : Version)
  | point (id version : Int32) (user : String) (now : Time.Instant)
  | clean (id bound : Int32)
  | putBundles (id version : Int32) (bundles : List Bundle)
  | putFlows (id version : Int32) (flows : List Flow)

namespace Relations

variable {C : Columns}

/-- The number of the current version of a project. -/
def pointerOf (M : Medium C) (r : Relations C) (p : Int32) : Option Int :=
  (r.projects.find? p).bind fun row => row.pointer.map M.value

/-- The highest number that a version of a project ever had, or 0. -/
def markOf (M : Medium C) (r : Relations C) (p : Int32) : Int :=
  ((r.projects.find? p).map fun row => M.value row.lastVersion).getD 0

/-- Whether cleaning up a project below a bound takes a number away. -/
def isDoomed (M : Medium C) (r : Relations C) (p bound v : Int32) : Bool :=
  decide (v < bound) && r.pointerOf M p ≠ some v.toInt

theorem mem_versionsOf_iff {r : Relations C} {p v : Int32} {row : VersionRow C} :
    (v, row) ∈ r.versionsOf p ↔ r.versions.find? (p, v) = some row := by
  rw [Table.find?_eq_some_iff]
  simp only [versionsOf, List.mem_map, List.mem_filter, decide_eq_true_eq, Prod.mk.injEq]
  constructor
  · rintro ⟨e, ⟨he, hp⟩, hv, hrow⟩
    rw [← hp, ← hv, ← hrow]
    exact he
  · intro h
    exact ⟨_, ⟨h, rfl⟩, rfl, rfl⟩

/-- The versions that cleaning up a project below a bound takes away. -/
def doomedOf (M : Medium C) (r : Relations C) (p bound : Int32) : List (Int32 × VersionRow C) :=
  (r.versionsOf p).filter fun v => r.isDoomed M p bound v.1

end Relations

namespace Change

variable {C : Columns}

/-- What the log says about a change. -/
def events : Change → List (EventRow live)
  | .create id name _ creator now => [⟨id, .created, creator, createdMessage name, now⟩]
  | .retire id name user now => [⟨id, .deleted, user, removedMessage name, now⟩]
  | .describe id description user now =>
    [⟨id, .description, user, describedMessage description, now⟩]
  | .point id version user now => [⟨id, .versionChanged, user, versionChangedMessage version, now⟩]
  | .log e => [e]
  | _ => []

/-- What the log says about some changes. -/
def logged (cs : List Change) : List (EventRow live) := cs.flatMap events

def onProjects (M : Medium C) (c : Change) (t : Table Int32 (ProjectRow C)) :
    Table Int32 (ProjectRow C) :=
  match c with
  | .create id name description creator now =>
    t.insert id ((ProjectRow.new name description creator now).write M)
  | .retire id _ user now =>
    t.modify id fun p =>
      { p with active := false, lastModifiedBy := user, lastModifiedAt := M.time now }
  | .describe id description user now =>
    t.modify id fun p =>
      { p with description, lastModifiedBy := user, lastModifiedAt := M.time now }
  | .configure id settings now =>
    t.modify id fun p =>
      { p with
        settings := M.settings settings
        lastModifiedAt := (now.map M.time).getD p.lastModifiedAt }
  | .register v =>
    t.modify v.project fun p =>
      { p with
        lastVersion := M.number v.number
        pointer := some (p.pointer.getD (M.number v.number)) }
  | .point id version user now =>
    t.modify id fun p =>
      { p with
        pointer := some (M.number version)
        lastModifiedBy := user
        lastModifiedAt := M.time now }
  | _ => t

def onVersions (M : Medium C) (c : Change) (r : Relations C) :
    Table (Int32 × Int32) (VersionRow C) :=
  match c with
  | .register v => r.versions.insert (v.project, v.number) ((VersionRow.ofVersion v).write M)
  | .clean id bound =>
    r.versions.filter fun k _ => !(decide (k.1 = id) && r.isDoomed M id bound k.2)
  | _ => r.versions

def onGrants (M : Medium C) (c : Change) (t : Table (Int32 × Bool × String) C.Rights) :
    Table (Int32 × Bool × String) C.Rights :=
  match c with
  | .create id _ _ creator _ => t.insert (id, false, creator) (M.rights .admin)
  | .grant id isGroup principal rights => t.insert (id, isGroup, principal) (M.rights rights)
  | .revoke id isGroup principal => t.erase (id, isGroup, principal)
  | _ => t

def onBundles (M : Medium C) (c : Change) (r : Relations C) :
    Table (Int32 × Int32 × String) C.Properties :=
  match c with
  | .clean id bound =>
    r.bundles.filter fun k _ => !(decide (k.1 = id) && r.isDoomed M id bound k.2.1)
  | .putBundles id version bundles =>
    r.bundles.insertAll (bundles.map fun b => ((id, version, b.path), M.properties b.properties))
  | _ => r.bundles

def onFlows (M : Medium C) (c : Change) (r : Relations C) :
    Table (Int32 × Int32 × String) C.Graph :=
  match c with
  | .clean id bound => r.flows.filter fun k _ => !(decide (k.1 = id) && r.isDoomed M id bound k.2.1)
  | .putFlows id version flows =>
    r.flows.insertAll (flows.map fun f => ((id, version, f.id), M.graph f.graph))
  | _ => r.flows

/-- The relations after a change. -/
def apply (M : Medium C) (c : Change) (r : Relations C) : Relations C where
  projects := c.onProjects M r.projects
  versions := c.onVersions M r
  grants := c.onGrants M r.grants
  bundles := c.onBundles M r
  flows := c.onFlows M r
  events := r.events ++ c.events.map (EventRow.write M)

/-- The relations after a change that the log does not tell of. -/
theorem apply_of_silent (M : Medium C) {c : Change} (h : c.events = []) (r : Relations C) :
    c.apply M r =
      ⟨c.onProjects M r.projects, c.onVersions M r, c.onGrants M r.grants, c.onBundles M r,
        c.onFlows M r, r.events⟩ := by
  rw [apply, h, List.map_nil, List.append_nil]

/-- What holds where an operation makes a change. -/
def Fits (M : Medium C) (limits : Limits) (r : Relations C) : Change → Prop
  | .create id name description _ _ =>
    limits.checkName name = .ok () ∧ limits.checkDescription description = .ok () ∧
      r.holdsName name = false ∧
      ∀ p, r.projects.contains p = true → p < id
  | .retire id _ _ _ => ∃ row, r.projects.find? id = some row ∧ row.active = true
  | .describe id description _ _ =>
    limits.checkDescription description = .ok () ∧ r.projects.contains id = true
  | .configure id _ _ | .revoke id _ _ | .clean id _ => r.projects.contains id = true
  | .grant id _ _ rights => r.projects.contains id = true ∧ rights.isEmpty = false
  | .log _ => True
  | .register v =>
    r.projects.contains v.project = true ∧ r.hasVersion v.project v.number = false ∧
      1 ≤ v.number.toInt ∧
      r.markOf M v.project < v.number.toInt
  | .point id version _ _ => r.projects.contains id = true ∧ r.hasVersion id version = true
  | .putBundles id version _ | .putFlows id version _ => r.hasVersion id version = true

/-- The relations after some changes, one after the other. -/
def applyAll (M : Medium C) (cs : List Change) (r : Relations C) : Relations C :=
  cs.foldl (fun r c => c.apply M r) r

/-- Changes of which each fits the relations that those before it leave. -/
def AllFit (M : Medium C) (limits : Limits) : List Change → Relations C → Prop
  | [], _ => True
  | c :: cs, r => c.Fits M limits r ∧ AllFit M limits cs (c.apply M r)

variable {M : Medium C} {limits : Limits}

@[simp] theorem applyAll_nil (r : Relations C) : applyAll M [] r = r := rfl

@[simp] theorem applyAll_cons (c : Change) (cs : List Change) (r : Relations C) :
    applyAll M (c :: cs) r = applyAll M cs (c.apply M r) := rfl

theorem applyAll_append (cs ds : List Change) (r : Relations C) :
    applyAll M (cs ++ ds) r = applyAll M ds (applyAll M cs r) :=
  List.foldl_append

@[simp] theorem allFit_nil (r : Relations C) : AllFit M limits [] r := trivial

theorem allFit_append {cs ds : List Change} {r : Relations C} :
    AllFit M limits (cs ++ ds) r ↔ AllFit M limits cs r ∧ AllFit M limits ds (applyAll M cs r) := by
  induction cs generalizing r with
  | nil => simp
  | cons c cs ih => simp only [List.cons_append, AllFit, ih, applyAll_cons, and_assoc]

theorem logged_cons (c : Change) (cs : List Change) : logged (c :: cs) = c.events ++ logged cs :=
  List.flatMap_cons

/-- Changes put what they log at the end of the log. -/
theorem events_applyAll (cs : List Change) (r : Relations C) :
    (applyAll M cs r).events = r.events ++ (logged cs).map (EventRow.write M) := by
  induction cs generalizing r with
  | nil => exact (List.append_nil _).symm
  | cons c cs ih => rw [applyAll_cons, ih, apply, logged_cons, List.map_append, List.append_assoc]

theorem allFit_singleton {c : Change} {r : Relations C} :
    AllFit M limits [c] r ↔ c.Fits M limits r := by
  simp [AllFit]

/-- What every change that fits keeps, changes that fit keep. -/
theorem applyAll_induct {P : Relations C → Prop}
    (h : ∀ (c : Change) r, P r → c.Fits M limits r → P (c.apply M r)) {cs : List Change}
    {r : Relations C} (hr : P r) (hfit : AllFit M limits cs r) : P (applyAll M cs r) := by
  induction cs generalizing r with
  | nil => exact hr
  | cons c cs ih => exact ih (h c r hr hfit.1) hfit.2

/-! ## Live values and what is written of them -/

@[simp] theorem pointerOf_write (M : Medium C) (l : Relations live) (p : Int32) :
    (l.write M).pointerOf M p = l.pointerOf .values p := by
  simp only [Relations.pointerOf, Relations.find?_projects_write]
  rcases l.projects.find? p with _ | row
  · rfl
  · rcases h : row.pointer with _ | n <;> simp [ProjectRow.write, h, Medium.values, Medium.ofTimes]

@[simp] theorem markOf_write (M : Medium C) (l : Relations live) (p : Int32) :
    (l.write M).markOf M p = l.markOf .values p := by
  simp only [Relations.markOf, Relations.find?_projects_write]
  rcases l.projects.find? p with _ | row <;> simp [ProjectRow.write, Medium.values, Medium.ofTimes]

@[simp] theorem isDoomed_write (M : Medium C) (l : Relations live) (p bound v : Int32) :
    (l.write M).isDoomed M p bound v = l.isDoomed .values p bound v := by
  simp [Relations.isDoomed]

section ApplyWrite

variable (M) (c : Change) (l : Relations live)

theorem onProjects_write :
    c.onProjects M (l.write M).projects =
      (c.onProjects .values l.projects).mapRows (ProjectRow.write M) := by
  cases c <;> simp only [onProjects, Relations.write, Table.mapRows_insert, ProjectRow.write_values]
  case configure id settings now =>
    refine (Table.mapRows_modify (fun p => ?_) _ _).symm
    cases now <;> rfl
  case register v =>
    refine (Table.mapRows_modify (fun p => ?_) _ _).symm
    rcases h : p.pointer with _ | n <;> simp [ProjectRow.write, h, Medium.values, Medium.ofTimes]
  all_goals
    refine (Table.mapRows_modify (fun p => ?_) _ _).symm
    rfl

theorem onVersions_write :
    c.onVersions M (l.write M) = (c.onVersions .values l).mapRows (VersionRow.write M) := by
  cases c <;> simp only [onVersions, isDoomed_write] <;> simp only [Relations.write]
  case register v => rw [Table.mapRows_insert, VersionRow.write_values]
  case clean id bound => exact (Table.mapRows_filterKeys _ _ _).symm

theorem onGrants_write :
    c.onGrants M (l.write M).grants = (c.onGrants .values l.grants).mapRows M.rights := by
  cases c <;> simp only [onGrants, Relations.write, Table.mapRows_insert, Table.mapRows_erase] <;>
    rfl

theorem onBundles_write :
    c.onBundles M (l.write M) = (c.onBundles .values l).mapRows M.properties := by
  cases c <;> simp only [onBundles, isDoomed_write] <;> simp only [Relations.write]
  case clean id bound => exact (Table.mapRows_filterKeys _ _ _).symm
  case putBundles id version bundles =>
    rw [Table.mapRows_insertAll, List.map_map]
    rfl

theorem onFlows_write : c.onFlows M (l.write M) = (c.onFlows .values l).mapRows M.graph := by
  cases c <;> simp only [onFlows, isDoomed_write] <;> simp only [Relations.write]
  case clean id bound => exact (Table.mapRows_filterKeys _ _ _).symm
  case putFlows id version flows =>
    rw [Table.mapRows_insertAll, List.map_map]
    rfl

/-- A change can be made before or after live relations are written down. -/
theorem apply_write : c.apply M (l.write M) = (c.apply .values l).write M := by
  rw [apply, onProjects_write, onVersions_write, onGrants_write, onBundles_write, onFlows_write]
  simp [apply, Relations.write]

end ApplyWrite

/-- A change fits what is written if it fits what is live. -/
theorem fits_write (M : Medium C) (c : Change) (l : Relations live) :
    c.Fits M limits (l.write M) ↔ c.Fits .values limits l := by
  cases c <;> simp [Fits]
  case retire id name user now =>
    rcases l.projects.find? id with _ | row
    · simp
    · simp [ProjectRow.write]

theorem allFit_write (M : Medium C) (cs : List Change) (l : Relations live) :
    AllFit M limits cs (l.write M) ↔ AllFit .values limits cs l := by
  induction cs generalizing l with
  | nil => rfl
  | cons c cs ih => rw [AllFit, AllFit, fits_write, apply_write, ih]

theorem applyAll_write (M : Medium C) (cs : List Change) (l : Relations live) :
    applyAll M cs (l.write M) = (applyAll .values cs l).write M := by
  induction cs generalizing l with
  | nil => rfl
  | cons c cs ih => rw [applyAll_cons, apply_write, ih, applyAll_cons]

end Change

end ProjectRegistry
