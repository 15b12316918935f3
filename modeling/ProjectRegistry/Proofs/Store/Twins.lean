import ProjectRegistry.Proofs.Store.Alike
import ProjectRegistry.Proofs.Store.DatabaseJournal
import ProjectRegistry.Proofs.Store.MemoryJournal
import ProjectRegistry.Proofs.Store.Queries

/-!
# Twins

A memory and a database are twins when they hold the same relations apart from times. Operations
keep twins as they are: both stores follow plans that look at no times, so both make the same
changes, each at its own time, or fail alike.

Uploads are the exception. Before it looks for the version, a database looks for the project, and
memory does not.
-/

namespace ProjectRegistry

open Time (Instant)

/-! ## Twins -/

/-- Whether a database has row ids for all that a memory holds. Of events no memory can hold more
than there are row ids; the bound says so, as lists have none. -/
structure Memory.FitsRowIds (m : Memory) : Prop where
  projects : (m.relations.projects.entries.length : Int) < Int32.maxValue.toInt
  events : (m.relations.events.length : Int) ≤ Database.lastRowId

/-- A memory and a database that hold the same apart from times and count alike. -/
structure Twins (now now' : Instant) (l : Relations live) (m : Memory) (d : Database) : Prop where
  memory : m.Good
  database : d.Good
  alike : Relations.Alike now now' l m.relations d.relations
  lastProject : m.lastProject.toInt = d.lastProject
  projects : d.lastProject = l.projects.entries.length
  events : d.eventSequence = l.events.length
  ordinary : now.Ordinary
  ordinary' : now'.Ordinary

instance (m : Memory) : Decidable m.FitsRowIds :=
  decidable_of_iff
    ((m.relations.projects.entries.length : Int) < Int32.maxValue.toInt ∧
      (m.relations.events.length : Int) ≤ Database.lastRowId)
    ⟨fun h => ⟨h.1, h.2⟩, fun h => ⟨h.projects, h.events⟩⟩

theorem Memory.FitsRowIds.of_applyAll {m m' : Memory} {limits : Limits} {cs : List Change}
    (h : m'.FitsRowIds) (hfit : Change.AllFit .values limits cs m.relations)
    (hrelations : m'.relations = Change.applyAll .values cs m.relations) : m.FitsRowIds where
  projects := by
    have hprojects := h.projects
    rw [hrelations] at hprojects
    have hle := Change.length_projects_le_applyAll hfit
    omega
  events := by
    have hevents := h.events
    rw [hrelations, Change.length_events_applyAll] at hevents
    omega

theorem Memory.FitsRowIds.of_journals {α : Type} {m : Memory} {limits : Limits}
    {J : α → List Change → Prop} {o : Except Failure α × Memory} (h : o.2.FitsRowIds)
    (hjournals : Memory.view.Journals limits m J o) : m.FitsRowIds := by
  obtain ⟨e | a, m'⟩ := o
  · rw [← hjournals.of_error rfl]
    exact h
  · obtain ⟨_, cs, _, hfit, hrelations⟩ := hjournals.of_ok rfl
    exact h.of_applyAll hfit hrelations

namespace Twins

variable {now now' : Instant} {l : Relations live} {m : Memory} {d : Database}

theorem empty (hnow : now.Ordinary) (hnow' : now'.Ordinary) : Twins now now' .empty .empty .empty :=
  ⟨Memory.good_empty, Database.good_empty, .empty now now', rfl, rfl, rfl, hnow, hnow'⟩

theorem later {before before' : Instant} (h : Twins before before' l m d) (hnow : now.Ordinary)
    (hnow' : now'.Ordinary) (hle : before.atMost now = true) (hle' : before'.atMost now' = true) :
    Twins now now' l m d :=
  ⟨h.memory, h.database, h.alike.later hle hle', h.lastProject, h.projects, h.events, hnow, hnow'⟩

theorem holds (h : Twins now now' l m d) : d.Holds now' l :=
  ⟨h.database.isOpen, h.alike.cells, h.alike.readable', h.alike.names⟩

/-- There are row ids for what is logged, if there are for all that memory holds afterwards. -/
theorem hasRoom (h : Twins now now' l m d) {cs ds : List Change}
    (hcs : cs.map Change.timeless = ds.map Change.timeless)
    (hroom : ((Change.applyAll .values cs m.relations).events.length : Int) ≤ Database.lastRowId) :
    d.eventSequence + (Change.logged ds).length ≤ Database.lastRowId := by
  have hlogged : (Change.logged cs).length = (Change.logged ds).length := by
    rw [← Change.length_logged_timeless cs, hcs, Change.length_logged_timeless]
  rw [Change.length_events_applyAll, h.alike.length_events, hlogged] at hroom
  rw [h.events]
  omega

theorem canLog (h : Twins now now' l m d) {cs ds : List Change}
    (hcs : cs.map Change.timeless = ds.map Change.timeless) (hroom : (m.commit cs).FitsRowIds) :
    d.canLog ds = true := by
  have hafter := h.hasRoom hcs hroom.events
  unfold Database.canLog
  cases hds : Change.logged ds with
  | nil => rfl
  | cons e rest =>
    rw [hds, List.length_cons] at hafter
    rw [List.isEmpty_cons, Bool.false_or, decide_eq_true_eq]
    omega

theorem commit (h : Twins now now' l m d) (limits : Limits) {cs ds : List Change}
    (hcs : cs.map Change.timeless = ds.map Change.timeless)
    (hfit : Change.AllFit .values limits cs m.relations)
    (hfit' : Change.AllFit .cells limits ds d.relations)
    (hstorable : ∀ c ∈ cs, c.Storable now ∧ c.newProject? = none)
    (hstorable' : ∀ c ∈ ds, c.Storable now' ∧ c.newProject? = none) :
    Twins now now' (Change.applyAll .values ds l) (m.commit cs) (d.commit ds) where
  memory := h.memory.commit hfit fun c hc => (hstorable c hc).2
  database := h.database.commit hfit' fun c hc => (hstorable' c hc).2
  alike := h.alike.applyAll h.ordinary h.ordinary' hcs hfit' (fun c hc => (hstorable c hc).1)
    fun c hc => (hstorable' c hc).1
  lastProject := h.lastProject
  projects := by
    rw [h.alike.cells, Change.allFit_write] at hfit'
    rw [Change.length_projects_applyAll_of_old hfit' fun c hc => (hstorable' c hc).2]
    exact h.projects
  events := by
    rw [Change.length_events_applyAll, Database.commit, h.events]
    rfl
  ordinary := h.ordinary
  ordinary' := h.ordinary'

/-! ## Operations -/

/-- Outcomes of an operation on twins that agree: twins again, and answers that are the same apart
from times. -/
structure Match {α β : Type} (now now' : Instant) (f : α → β) (o : Except Failure α × Memory)
    (o' : Except Failure α × Database) : Prop where
  answers : o.1.map f = o'.1.map f
  twins : ∃ l, Twins now now' l o.2 o'.2

theorem match_error {α β : Type} (h : Twins now now' l m d) (f : α → β) (e : Failure) :
    Match now now' f (.error e, m) (.error e, d) :=
  ⟨rfl, l, h⟩

theorem settle (h : Twins now now' l m d) (limits : Limits) {pm pd : Plan}
    (hplan : pm.timeless = pd.timeless) (hfit : pm.Fits .values limits m.relations)
    (hfit' : pd.Fits .cells limits d.relations) (hstorable : pm.Storable now)
    (hstorable' : pd.Storable now') (hroom : (m.settle pm).2.FitsRowIds) :
    Match now now' id (m.settle pm) (d.settle pd) := by
  rcases Step.cases_of_map_eq hplan with ⟨e, rfl, rfl⟩ | ⟨cs, ds, rfl, rfl, hcs⟩
  · exact h.match_error id e
  · have hlog := h.canLog hcs hroom
    have htwins :=
      h.commit limits hcs (hfit cs rfl) (hfit' ds rfl) (hstorable cs rfl) (hstorable' ds rfl)
    rw [Database.settle, if_pos hlog]
    exact ⟨rfl, _, htwins⟩

theorem removeProject (h : Twins now now' l m d) (p : Project) (user : String)
    (hroom : (Memory.removeProject now p user m).2.FitsRowIds) :
    Match now now' id (Memory.removeProject now p user m)
      (Database.removeProject now' p user d) := by
  have hstorable {C : Columns} {r : Relations C} (t : Instant) :
      (Plan.retire t p user r).Storable t := by
    intro cs hcs c hc
    rcases Plan.retire_ok hcs with rfl | rfl
    · cases hc
    · rw [List.mem_singleton.1 hc]
      exact ⟨rfl, rfl⟩
  rw [m.removeProject_eq] at hroom ⊢
  rw [Database.removeProject_eq h.database.isOpen]
  exact h.settle {} (Plan.timeless_retire h.alike p user) Plan.fits_retire Plan.fits_retire
    (hstorable now) (hstorable now') hroom

theorem describe (h : Twins now now' l m d) (limits : Limits) (p : Project)
    (description user : String)
    (hroom : (Memory.describe limits now p description user m).2.FitsRowIds) :
    Match now now' id (Memory.describe limits now p description user m)
      (Database.describe limits now' p description user d) := by
  have hstorable {C : Columns} {r : Relations C} (t : Instant) :
      (Plan.describe limits t p description user r).Storable t :=
    Plan.storable_of_singleton (fun _ => Plan.describe_ok) rfl rfl
  rw [m.describe_eq] at hroom ⊢
  rw [Database.describe_eq h.database.isOpen]
  exact h.settle limits (Plan.timeless_describe h.alike limits p description user)
    Plan.fits_describe Plan.fits_describe (hstorable now) (hstorable now') hroom

/-- Only a database notes when settings were changed. -/
theorem configure (h : Twins now now' l m d) {p : Project} (hexact : p.settings.Exact)
    (hshallow : p.settings.Shallow) (hroom : (Memory.configure p m).2.FitsRowIds) :
    Match now now' id (Memory.configure p m) (Database.configure now' p d) := by
  have hplan : (Plan.configure none p m.relations).timeless =
      (Plan.configure (some now') p d.relations).timeless := by
    refine Plan.timeless_onProject h.alike ?_ p.id
    rfl
  have hstorable : (Plan.configure none p m.relations).Storable now :=
    Plan.storable_of_singleton (fun _ => Plan.onProject_ok)
      ⟨hexact, hshallow, fun t ht => by cases ht⟩ rfl
  have hstorable' : (Plan.configure (some now') p d.relations).Storable now' :=
    Plan.storable_of_singleton (fun _ => Plan.onProject_ok)
      ⟨hexact, hshallow, fun t ht => (Option.some.inj ht).symm⟩ rfl
  rw [m.configure_eq] at hroom ⊢
  rw [Database.configure_eq h.database.isOpen]
  exact h.settle {} hplan Plan.fits_configure Plan.fits_configure hstorable hstorable' hroom

theorem setRights_plan (h : Twins now now' l m d) (p : Project) (principal : String)
    (isGroup : Bool) (rights : Rights)
    (hroom : (m.settle (Plan.setRights p principal isGroup rights m.relations)).2.FitsRowIds) :
    Match now now' id (m.settle (Plan.setRights p principal isGroup rights m.relations))
      (d.settle (Plan.setRights p principal isGroup rights d.relations)) := by
  have hstorable {C : Columns} {r : Relations C} (t : Instant) :
      (Plan.setRights p principal isGroup rights r).Storable t := by
    refine Plan.storable_of_singleton (fun _ => Plan.onProject_ok) ?_ ?_
    · split <;> trivial
    · split <;> rfl
  exact h.settle {} (Plan.timeless_onProject h.alike rfl p.id) Plan.fits_setRights
    Plan.fits_setRights (hstorable now) (hstorable now') hroom

theorem setRights (h : Twins now now' l m d) (p : Project) (principal : String) (isGroup : Bool)
    (rights : Rights) (hroom : (Memory.setRights p principal isGroup rights m).2.FitsRowIds) :
    Match now now' id (Memory.setRights p principal isGroup rights m)
      (Database.setRights p principal isGroup rights d) := by
  rw [m.setRights_eq] at hroom ⊢
  rw [Database.setRights_eq h.database.isOpen]
  exact h.setRights_plan p principal isGroup rights hroom

theorem dropRights (h : Twins now now' l m d) (p : Project) (principal : String) (isGroup : Bool)
    (hroom : (Memory.setRights p principal isGroup .none m).2.FitsRowIds) :
    Match now now' id (Memory.setRights p principal isGroup .none m)
      (Database.dropRights p principal isGroup d) := by
  rw [m.setRights_eq] at hroom ⊢
  rw [Database.dropRights_eq h.database.isOpen]
  exact h.setRights_plan p principal isGroup .none hroom

theorem addVersion (h : Twins now now' l m d) {v v' : Version} (hv : v.timeless = v'.timeless)
    (htime : v.uploadTime = now) (htime' : v'.uploadTime = now')
    (hroom : (Memory.addVersion v m).2.FitsRowIds) :
    Match now now' id (Memory.addVersion v m) (Database.addVersion v' d) := by
  rw [m.addVersion_eq] at hroom ⊢
  rw [Database.addVersion_eq h.database.isOpen h.database.sound]
  exact h.settle {} (Plan.timeless_addVersion h.alike hv) Plan.fits_addVersion Plan.fits_addVersion
    (Plan.storable_of_singleton (fun _ => Plan.addVersion_ok) htime rfl)
    (Plan.storable_of_singleton (fun _ => Plan.addVersion_ok) htime' rfl) hroom

theorem changeVersion (h : Twins now now' l m d) (p : Project) (version : Int32) (user : String)
    (hroom : (Memory.changeVersion now p version user m).2.FitsRowIds) :
    Match now now' id (Memory.changeVersion now p version user m)
      (Database.changeVersion now' p version user d) := by
  have hplan : (Plan.changeVersion now p version user m.relations).timeless =
      (Plan.changeVersion now' p version user d.relations).timeless := by
    refine Plan.timeless_ofProject h.alike (Plan.timeless_onVersion h.alike ?_ p.id version) p.id
    rfl
  have hstorable {C : Columns} {r : Relations C} (t : Instant) :
      (Plan.changeVersion t p version user r).Storable t :=
    Plan.storable_of_singleton (fun _ hcs => Plan.onVersion_ok (Plan.ofProject_ok hcs)) rfl rfl
  rw [m.changeVersion_eq] at hroom ⊢
  rw [Database.changeVersion_eq h.database.isOpen]
  exact h.settle {} hplan Plan.fits_changeVersion Plan.fits_changeVersion (hstorable now)
    (hstorable now') hroom

theorem updateFlow (h : Twins now now' l m d) (p : Project) (version : Int32) {f : Flow}
    (hf : f.graph.Readable) (hroom : (Memory.updateFlow p version f m).2.FitsRowIds) :
    Match now now' id (Memory.updateFlow p version f m) (Database.updateFlow p version f d) := by
  have hstorable {C : Columns} {r : Relations C} (t : Instant) :
      (Plan.updateFlow p version f r).Storable t := by
    refine Plan.storable_of_singleton (fun _ => Plan.updateFlow_ok) (fun g hg => ?_) rfl
    rw [List.mem_singleton.1 hg]
    exact hf
  rw [m.updateFlow_eq] at hroom ⊢
  rw [Database.updateFlow_eq h.database.isOpen]
  exact h.settle {} (Plan.timeless_updateFlow h.alike p version f)
    (Plan.fits_updateFlow h.memory.sound) (Plan.fits_updateFlow h.database.sound)
    (hstorable now) (hstorable now') hroom

/-- There is a row id for the event, so a database posts it as memory does. Nothing but the id of
the copy counts. -/
theorem postEvent (h : Twins now now' l m d) {p p' : Project} (hid : p.id = p'.id)
    (kind : EventKind) (user message : String)
    (hroom : (Memory.postEvent now p kind user message m).2.FitsRowIds) :
    (Memory.postEvent now p kind user message m).1 =
      (Database.postEvent now' p' kind user message d).1 ∧
      ∃ l, Twins now now' l (Memory.postEvent now p kind user message m).2
        (Database.postEvent now' p' kind user message d).2 := by
  have hcs : [Change.log ⟨p.id, kind, user, message, now⟩].map Change.timeless =
      [Change.log ⟨p.id, kind, user, message, now'⟩].map Change.timeless := rfl
  have hstorable (t : Instant) : ∀ c ∈ [Change.log ⟨p.id, kind, user, message, t⟩],
      c.Storable t ∧ c.newProject? = none := by
    intro c hc
    rw [List.mem_singleton.1 hc]
    exact ⟨rfl, rfl⟩
  have hlog : d.eventSequence < Database.lastRowId :=
    Int.lt_of_add_one_le (h.hasRoom hcs hroom.events)
  have htwins :=
    h.commit {} hcs ⟨trivial, trivial⟩ ⟨trivial, trivial⟩ (hstorable now) (hstorable now')
  rw [m.postEvent_eq, Database.postEvent_eq h.database.isOpen, ← hid, if_pos hlog]
  exact ⟨rfl, _, htwins⟩

/-! ## Uploads -/

theorem not_hasVersion (h : Twins now now' l m d) {p : Int32}
    (hp : m.relations.projects.contains p = false) (version : Int32) :
    m.relations.hasVersion p version = false := by
  cases hv : m.relations.hasVersion p version with
  | false => rfl
  | true =>
    rw [(h.memory.sound.version hv).1] at hp
    cases hp

theorem putFlows (h : Twins now now' l m d) {p : Project}
    (hp : m.relations.projects.contains p.id = true) (version : Int32) {flows : List Flow}
    (hflows : ∀ f ∈ flows, f.graph.Readable)
    (hroom : (Memory.putFlows p version flows m).2.FitsRowIds) :
    Match now now' id (Memory.putFlows p version flows m)
      (Database.putFlows p version flows d) := by
  have hstorable {C : Columns} {r : Relations C} (t : Instant) :
      (Plan.putFlows p version flows r).Storable t :=
    Plan.storable_of_singleton (fun _ => Plan.onVersion_ok) hflows rfl
  have hproject : Plan.ofProject d.relations p.id (Plan.putFlows p version flows d.relations) =
      Plan.putFlows p version flows d.relations := by
    rw [Plan.ofProject, ← h.alike.contains_projects, if_pos hp]
  rw [m.putFlows_eq] at hroom ⊢
  rw [Database.putFlows_eq h.database.isOpen, hproject]
  exact h.settle {} (Plan.timeless_onVersion h.alike rfl _ _) Plan.fits_putFlows Plan.fits_putFlows
    (hstorable now) (hstorable now') hroom

/-- Where there is no project, memory misses the version and a database the project. -/
theorem putFlows_of_no_project (h : Twins now now' l m d) {p : Project}
    (hp : m.relations.projects.contains p.id = false) (version : Int32) (flows : List Flow) :
    Memory.putFlows p version flows m = (.error (.noVersion p.id version), m) ∧
      Database.putFlows p version flows d = (.error (.noProject p.id), d) := by
  constructor
  · rw [m.putFlows_eq, Plan.putFlows, Plan.onVersion, h.not_hasVersion hp]
    rfl
  · rw [Database.putFlows_eq h.database.isOpen, Plan.ofProject, ← h.alike.contains_projects, hp]
    rfl

/-- A copy that is aimed at no version is refused by both, before anything is looked up. -/
theorem putBundles (h : Twins now now' l m d) {p : Project} (bundles : List Bundle)
    (hp : ∀ version, p.target = .ok version → m.relations.projects.contains p.id = true)
    (hroom : (Memory.putBundles p bundles m).2.FitsRowIds) :
    Match now now' id (Memory.putBundles p bundles m) (Database.putBundles p bundles d) := by
  have hstorable {C : Columns} {r : Relations C} (t : Instant) :
      (Plan.putBundles p bundles r).Storable t := by
    intro cs hcs c hc
    obtain ⟨version, _, rfl⟩ := Plan.putBundles_ok hcs
    rw [List.mem_singleton.1 hc]
    exact ⟨trivial, rfl⟩
  rw [m.putBundles_eq] at hroom ⊢
  cases htarget : p.target with
  | error e =>
    rw [Database.putBundles_of_no_target htarget, Plan.putBundles, htarget]
    exact h.match_error id e
  | ok version =>
    have hproject : Plan.ofProject d.relations p.id (Plan.putBundles p bundles d.relations) =
        Plan.putBundles p bundles d.relations := by
      rw [Plan.ofProject, ← h.alike.contains_projects, if_pos (hp version htarget)]
    rw [Database.putBundles_eq h.database.isOpen htarget, hproject]
    exact h.settle {} (Plan.timeless_putBundles h.alike p bundles) Plan.fits_putBundles
      Plan.fits_putBundles (hstorable now) (hstorable now') hroom

theorem putBundles_of_no_project (h : Twins now now' l m d) {p : Project}
    (hp : m.relations.projects.contains p.id = false) {version : Int32}
    (htarget : p.target = .ok version) (bundles : List Bundle) :
    Memory.putBundles p bundles m = (.error (.noVersion p.id version), m) ∧
      Database.putBundles p bundles d = (.error (.noProject p.id), d) := by
  constructor
  · rw [m.putBundles_eq, Plan.putBundles, htarget]
    simp only [Plan.onVersion, h.not_hasVersion hp]
    rfl
  · rw [Database.putBundles_eq h.database.isOpen htarget, Plan.ofProject,
      ← h.alike.contains_projects, hp]
    rfl

/-! ## Cleaning up -/

theorem doomedOf_write {C : Columns} (M : Medium C) (l : Relations live) (p bound : Int32) :
    (l.write M).doomedOf M p bound =
      (l.doomedOf .values p bound).map fun v => (v.1, v.2.write M) := by
  rw [Relations.doomedOf, Relations.versionsOf_write, List.filter_map, Relations.doomedOf]
  simp only [Function.comp_def, Change.isDoomed_write]

theorem clean (h : Twins now now' l m d) (project bound : Int32) :
    Match now now' (List.map Version.timeless) (Memory.clean project bound m)
      (Database.clean project bound d) := by
  have hread : loadAll (Database.loadVersion project) (d.relations.doomedOf .cells project bound) =
      .ok ((l.doomedOf .values project bound).map
        fun v => (v.2.write .millis).toVersion project v.1) := by
    rw [h.alike.cells, doomedOf_write, loadAll_map]
    refine loadAll_ok ?_
    intro v hv
    have hrow := Relations.mem_versionsOf_iff.1 (List.mem_filter.1 hv).1
    exact Database.loadVersion_store (h.alike.readable'.version _ _ hrow)
  have hanswers :
      ((m.relations.doomedOf .values project bound).map
          fun v => v.2.toVersion project v.1).map Version.timeless =
        ((l.doomedOf .values project bound).map
          fun v => (v.2.write .millis).toVersion project v.1).map Version.timeless := by
    have hdoomed := h.alike.eq_of_timeless
      (q := fun r => (r.doomedOf .values project bound).map
        fun v => (v.2.write .timeless).toVersion project v.1)
      fun l => by
        show ((l.write .timeless).doomedOf .timeless project bound).map _ = _
        rw [doomedOf_write, List.map_map]
        rfl
    rw [List.map_map, List.map_map]
    exact hdoomed
  have hsame := h.alike.contains_projects project
  rw [m.clean_eq h.memory.sound, Database.clean_eq h.database.isOpen h.database.sound, hread,
    Plan.clean, Plan.clean, Plan.onProject, Plan.onProject, hsame]
  cases hp : d.relations.projects.contains project with
  | false => exact h.match_error _ (.noProject project)
  | true =>
    have hold {t : Instant} : ∀ c ∈ [Change.clean project bound],
        c.Storable t ∧ c.newProject? = none := by
      intro c hc
      rw [List.mem_singleton.1 hc]
      exact ⟨trivial, rfl⟩
    have hfit : Change.AllFit .values {} [.clean project bound] m.relations :=
      Change.allFit_singleton.2 (hsame.trans hp)
    have hfit' : Change.AllFit .cells {} [.clean project bound] d.relations :=
      Change.allFit_singleton.2 hp
    have htwins := h.commit {} rfl hfit hfit' hold hold
    exact ⟨congrArg Except.ok hanswers, _, htwins⟩

/-! ## Queries -/

/-- A database answers as memory would with the rows that the database reads, so it answers as its
twin does, apart from times. -/
theorem agree (h : Twins now now' l m d) {α β : Type} {f : α → β} {q : Memory → α}
    {q' : Database → α} {t : Memory → β}
    (hq : ∀ m, f (q m) = t (.holding (m.relations.write .timeless)))
    (hq' : d.Holds now' l → q' d = q (.holding (l.write .millis))) : f (q m) = f (q' d) := by
  rw [hq' h.holds]
  exact (Memory.map_holding_millis hq h.alike.timeless).symm

theorem projectById (h : Twins now now' l m d) (id : Int32) :
    (m.projectById id).map Project.timeless = (d.projectById id).map Project.timeless :=
  h.agree (fun m => m.projectById_timeless id) fun hd => hd.projectById_eq id

theorem projectByName (h : Twins now now' l m d) (name : String) :
    (m.projectByName name).map Project.timeless = (d.projectByName name).map Project.timeless :=
  h.agree (fun m => m.projectByName_timeless name) fun hd => hd.projectByName_eq name

theorem activeProjects (h : Twins now now' l m d) :
    (Except.ok m.activeProjects).map (List.map Project.timeless) =
      d.activeProjects.map (List.map Project.timeless) :=
  h.agree (f := Except.map (List.map Project.timeless)) (q := fun m => .ok m.activeProjects)
    (t := fun m => .ok m.activeProjects) (fun m => congrArg Except.ok m.activeProjects_timeless)
    fun hd => hd.activeProjects_eq

theorem grants (h : Twins now now' l m d) (project : Int32) :
    Except.ok (m.grantList project) = d.grants project :=
  h.agree (f := fun a : Except Failure (List Grant) => a) (q := fun m => .ok (m.grantList project))
    (t := fun m => .ok (m.grantList project))
    (fun m => congrArg Except.ok (Memory.grantList_ofTimes _ m.relations project).symm)
    fun hd => hd.grants_eq project

theorem version? (h : Twins now now' l m d) (project number : Int32) :
    (Except.ok (m.version? project number)).map (Option.map Version.timeless) =
      (d.version? project number).map (Option.map Version.timeless) :=
  h.agree (f := Except.map (Option.map Version.timeless))
    (q := fun m => .ok (m.version? project number))
    (t := fun m => .ok (m.version? project number))
    (fun m => congrArg Except.ok (m.version?_timeless project number))
    fun hd => hd.version?_eq project number

theorem versions (h : Twins now now' l m d) (project : Int32) :
    (Except.ok (m.versions project)).map (List.map Version.timeless) =
      (d.versions project).map (List.map Version.timeless) :=
  h.agree (f := Except.map (List.map Version.timeless)) (q := fun m => .ok (m.versions project))
    (t := fun m => .ok (m.versions project))
    (fun m => congrArg Except.ok (m.versions_timeless project))
    fun hd => hd.versions_eq project

theorem currentVersion? (h : Twins now now' l m d) (p : Project) :
    m.currentVersion? p = d.currentVersion? p :=
  h.agree (f := id) (fun m => m.currentVersion?_timeless p) fun hd => hd.currentVersion?_eq p

theorem bundle (h : Twins now now' l m d) (p : Project) (path : String) :
    m.bundle p path = d.bundle p path :=
  h.agree (f := id) (fun m => m.bundle_timeless p path) fun hd => hd.bundle_eq p path

theorem bundleAt (h : Twins now now' l m d) (project version : Int32) (path : String) :
    m.bundleAt project version path = d.bundleAt project version path :=
  h.agree (f := id) (fun m => m.bundleAt_timeless project version path)
    fun hd => hd.bundleAt_eq project version path

theorem bundles (h : Twins now now' l m d) (project version : Int32) :
    Except.ok (m.bundles project version) = d.bundles project version :=
  h.agree (f := fun a : Except Failure (List Bundle) => a)
    (q := fun m => .ok (m.bundles project version))
    (t := fun m => .ok (m.bundles project version))
    (fun m => congrArg Except.ok (m.bundles_timeless project version))
    fun hd => hd.bundles_eq project version

theorem flow (h : Twins now now' l m d) (p : Project) (id : String) : m.flow p id = d.flow p id :=
  h.agree (f := fun a => a) (fun m => m.flow_timeless p id) fun hd => hd.flow_eq p id

theorem flows (h : Twins now now' l m d) (p : Project) : m.flows p = d.flows p :=
  h.agree (f := id) (fun m => m.flows_timeless p) fun hd => hd.flows_eq p

/-- Both logs are in the order of their times, so both are read from their ends. -/
theorem page (h : Twins now now' l m d) (hfits : m.FitsRowIds) (p : Project) (limit offset : Nat) :
    (Except.ok (m.events p limit offset)).map (List.map Event.timeless) =
      (d.events p limit offset).map (List.map Event.timeless) := by
  have hlength : (l.events.length : Int) ≤ Database.lastRowId := by
    rw [← h.alike.length_events]
    exact hfits.events
  have hpage := map_timeless_page id m.relations p.id limit offset
  have hpage' := map_timeless_page Time.Instant.truncated l p.id limit offset
  rw [h.alike.timeless] at hpage
  rw [m.events_eq h.alike.readable.inOrder, h.holds.events_eq hlength]
  exact congrArg Except.ok (hpage.trans hpage'.symm)

/-! ## New projects -/

theorem lastProject_ne (h : Twins now now' l m d) (hfits : m.FitsRowIds) :
    d.lastProject ≠ Int32.maxValue.toInt := by
  have hprojects := hfits.projects
  rw [h.alike.length_projects] at hprojects
  rw [h.projects]
  omega

theorem lastProject_ne_maxValue (h : Twins now now' l m d)
    (hlast : d.lastProject ≠ Int32.maxValue.toInt) :
    m.lastProject ≠ Int32.maxValue := by
  intro he
  exact hlast (by rw [← h.lastProject, he])

/-- Both stores count their projects alike, so they give the next one the same id. -/
theorem nextId (h : Twins now now' l m d) (hlast : d.lastProject ≠ Int32.maxValue.toInt) :
    Int32.ofInt (d.lastProject + 1) = m.lastProject + 1 := by
  have hnext := Memory.toInt_succ (h.lastProject_ne_maxValue hlast)
  rw [← Int32.toInt_inj, h.database.ordered.toInt_next hlast, hnext, h.lastProject]

theorem commitNew (h : Twins now now' l m d) (hlast : d.lastProject ≠ Int32.maxValue.toInt)
    {limits : Limits} {name description creator : String}
    (hfit : Change.AllFit .values limits [.create (m.lastProject + 1) name description creator now]
      m.relations)
    (hfit' : Change.AllFit .cells limits [.create (m.lastProject + 1) name description creator now']
      d.relations) :
    Twins now now' (Change.applyAll .values
      [.create (m.lastProject + 1) name description creator now'] l)
      (m.commitNew [.create (m.lastProject + 1) name description creator now])
      (d.commitNew [.create (m.lastProject + 1) name description creator now']) where
  memory := h.memory.commitNew (h.lastProject_ne_maxValue hlast) rfl hfit
  database := by
    rw [← h.nextId hlast] at hfit' ⊢
    exact h.database.commitNew hlast rfl hfit'
  alike := by
    refine h.alike.applyAll h.ordinary h.ordinary' rfl hfit' (fun c hc => ?_) fun c hc => ?_
    · rw [List.mem_singleton.1 hc]
      rfl
    · rw [List.mem_singleton.1 hc]
      rfl
  lastProject :=
    (Memory.toInt_succ (h.lastProject_ne_maxValue hlast)).trans (congrArg (· + 1) h.lastProject)
  projects := by
    rw [h.alike.cells, Change.allFit_write] at hfit'
    have hlength := Change.length_projects_apply hfit'.1
    rw [Change.applyAll_cons, Change.applyAll_nil, hlength]
    exact congrArg (· + 1) h.projects
  events := by
    rw [Change.length_events_applyAll]
    exact congrArg (· + 1) h.events
  ordinary := h.ordinary
  ordinary' := h.ordinary'

theorem createProject (h : Twins now now' l m d) (limits : Limits)
    (name description creator : String)
    (hroom : (Memory.createProject limits now name description creator m).2.FitsRowIds) :
    Match now now' Project.timeless (Memory.createProject limits now name description creator m)
      (Database.createProject limits now' name description creator d) := by
  have hjournals := h.memory.journals_createProject limits now name description creator
  have hlast := h.lastProject_ne (hroom.of_journals hjournals)
  have hlast' := h.lastProject_ne_maxValue hlast
  have hplan := Plan.timeless_create h.alike limits name description creator (m.lastProject + 1)
  rw [m.createProject_eq] at hroom ⊢
  rw [Database.createProject_eq h.database.isOpen h.database.ordered, h.nextId hlast]
  rcases Step.cases_of_map_eq hplan with ⟨e, hm, hd⟩ | ⟨cs, ds, hm, hd, -⟩
  · rw [hm, hd]
    exact h.match_error _ e
  · have hfit : Change.AllFit .values limits cs m.relations :=
      Plan.fits_create (fun p hp => h.memory.lt_next hlast' hp) cs hm
    have hfit' : Change.AllFit .cells limits ds d.relations := by
      refine Plan.fits_create (fun p hp => ?_) ds hd
      rw [← h.nextId hlast]
      exact h.database.lt_next hlast hp
    obtain rfl := Plan.create_ok hm
    obtain rfl := Plan.create_ok hd
    have htwins := h.commitNew hlast hfit hfit'
    have hanswers := htwins.projectById (m.lastProject + 1)
    rw [hm] at hroom ⊢
    rw [hd]
    simp only [if_neg hlast', if_neg hlast] at hroom ⊢
    have hlog : d.eventSequence < Database.lastRowId :=
      Int.lt_of_add_one_le (h.hasRoom rfl hroom.events)
    rw [if_pos hlog]
    rw [Memory.projectById, Memory.row_commitNew] at hanswers
    rcases hx : Database.projectById (m.lastProject + 1)
      (d.commitNew [.create (m.lastProject + 1) name description creator now']) with e | p
    · rw [hx] at hanswers
      cases hanswers
    · rw [hx] at hanswers
      exact ⟨hanswers, _, htwins⟩

end Twins

end ProjectRegistry
