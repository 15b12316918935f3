import ProjectRegistry.Proofs.Store.DatabaseJournal
import ProjectRegistry.Proofs.Store.MemoryJournal

/-!
# What a store holds of one project

All relations are keyed by the project first, so what they hold of one project can be cut out of
them. A change is about one project and leaves the parts of all others as they are; a query that
names a project looks at nothing but the part of that project.

Queries by name and the list of active projects look at all projects and are not spoken of here.
-/

namespace ProjectRegistry

variable {C : Columns} {M : Medium C} {r r' : Relations C} {p q : Int32}

namespace Relations

/-- What relations hold of one project. -/
def part (p : Int32) (r : Relations C) : Relations C where
  projects := r.projects.filter fun k _ => decide (k = p)
  versions := r.versions.filter fun k _ => decide (k.1 = p)
  grants := r.grants.filter fun k _ => decide (k.1 = p)
  bundles := r.bundles.filter fun k _ => decide (k.1 = p)
  flows := r.flows.filter fun k _ => decide (k.1 = p)
  events := r.eventsOf p

/-! ## Reading a part -/

theorem find?_projects_part (p : Int32) (r : Relations C) :
    (r.part p).projects.find? p = r.projects.find? p := by
  rw [part, Table.find?_filterKeys, if_pos (decide_eq_true rfl)]

theorem find?_versions_part (p v : Int32) (r : Relations C) :
    (r.part p).versions.find? (p, v) = r.versions.find? (p, v) := by
  rw [part, Table.find?_filterKeys, if_pos (decide_eq_true rfl)]

theorem find?_bundles_part (p v : Int32) (path : String) (r : Relations C) :
    (r.part p).bundles.find? (p, v, path) = r.bundles.find? (p, v, path) := by
  rw [part, Table.find?_filterKeys, if_pos (decide_eq_true rfl)]

theorem find?_flows_part (p v : Int32) (id : String) (r : Relations C) :
    (r.part p).flows.find? (p, v, id) = r.flows.find? (p, v, id) := by
  rw [part, Table.find?_filterKeys, if_pos (decide_eq_true rfl)]

theorem versionsOf_part (p : Int32) (r : Relations C) :
    (r.part p).versionsOf p = r.versionsOf p := by
  simp only [versionsOf, part, Table.filter, List.filter_filter, Bool.and_self]

theorem grantsOf_part (p : Int32) (r : Relations C) : (r.part p).grantsOf p = r.grantsOf p := by
  simp only [grantsOf, part, Table.filter, List.filter_filter, Bool.and_self]

theorem bundlesOf_part (p v : Int32) (r : Relations C) :
    (r.part p).bundlesOf p v = r.bundlesOf p v := by
  simp only [bundlesOf, part, Table.filter, List.filter_filter, Bool.decide_and]
  congr 1
  refine List.filter_congr fun e _ => ?_
  cases decide (e.1.1 = p) <;> simp

theorem flowsOf_part (p v : Int32) (r : Relations C) :
    (r.part p).flowsOf p v = r.flowsOf p v := by
  simp only [flowsOf, part, Table.filter, List.filter_filter, Bool.decide_and]
  congr 1
  refine List.filter_congr fun e _ => ?_
  cases decide (e.1.1 = p) <;> simp

theorem eventsOf_of_part (h : r'.part p = r.part p) : r'.eventsOf p = r.eventsOf p :=
  congrArg Relations.events h

theorem find?_projects_of_part (h : r'.part p = r.part p) :
    r'.projects.find? p = r.projects.find? p := by
  rw [← find?_projects_part, h, find?_projects_part]

theorem find?_versions_of_part (h : r'.part p = r.part p) (v : Int32) :
    r'.versions.find? (p, v) = r.versions.find? (p, v) := by
  rw [← find?_versions_part, h, find?_versions_part]

theorem find?_bundles_of_part (h : r'.part p = r.part p) (v : Int32) (path : String) :
    r'.bundles.find? (p, v, path) = r.bundles.find? (p, v, path) := by
  rw [← find?_bundles_part, h, find?_bundles_part]

theorem find?_flows_of_part (h : r'.part p = r.part p) (v : Int32) (id : String) :
    r'.flows.find? (p, v, id) = r.flows.find? (p, v, id) := by
  rw [← find?_flows_part, h, find?_flows_part]

theorem versionsOf_of_part (h : r'.part p = r.part p) : r'.versionsOf p = r.versionsOf p := by
  rw [← versionsOf_part, h, versionsOf_part]

theorem grantsOf_of_part (h : r'.part p = r.part p) : r'.grantsOf p = r.grantsOf p := by
  rw [← grantsOf_part, h, grantsOf_part]

theorem bundlesOf_of_part (h : r'.part p = r.part p) (v : Int32) :
    r'.bundlesOf p v = r.bundlesOf p v := by
  rw [← bundlesOf_part, h, bundlesOf_part]

theorem flowsOf_of_part (h : r'.part p = r.part p) (v : Int32) :
    r'.flowsOf p v = r.flowsOf p v := by
  rw [← flowsOf_part, h, flowsOf_part]

end Relations

/-! ## What changes leave alone -/

namespace Change

/-- The project that a change is about. -/
def project : Change → Int32
  | .create id .. | .retire id .. | .describe id .. | .configure id .. | .grant id .. => id
  | .revoke id .. | .point id .. | .clean id _ | .putBundles id .. | .putFlows id .. => id
  | .log e => e.project
  | .register v => v.project

variable {c : Change}

theorem onProjects_other (h : c.project ≠ q) (t : Table Int32 (ProjectRow C)) :
    ((c.onProjects M t).filter fun k _ => decide (k = q)) =
      t.filter fun k _ => decide (k = q) := by
  cases c <;> simp only [onProjects]
  case create =>
    refine Table.filterKeys_insert ?_ _
    exact decide_eq_false h
  all_goals
    refine Table.filterKeys_modify ?_ _
    exact decide_eq_false h

theorem onVersions_other (h : c.project ≠ q) (r : Relations C) :
    ((c.onVersions M r).filter fun k _ => decide (k.1 = q)) =
      r.versions.filter fun k _ => decide (k.1 = q) := by
  cases c <;> simp only [onVersions]
  case register v =>
    refine Table.filterKeys_insert ?_ _
    exact decide_eq_false h
  case clean id bound =>
    have hne : q ≠ id := Ne.symm h
    refine Table.filterKeys_filterKeys fun k hk => ?_
    simp [of_decide_eq_true hk, hne]

theorem onGrants_other (h : c.project ≠ q) (t : Table (Int32 × Bool × String) C.Rights) :
    ((c.onGrants M t).filter fun k _ => decide (k.1 = q)) =
      t.filter fun k _ => decide (k.1 = q) := by
  cases c <;> simp only [onGrants]
  case create | grant =>
    refine Table.filterKeys_insert ?_ _
    exact decide_eq_false h
  case revoke =>
    refine Table.filterKeys_erase ?_
    exact decide_eq_false h

theorem onBundles_other (h : c.project ≠ q) (r : Relations C) :
    ((c.onBundles M r).filter fun k _ => decide (k.1 = q)) =
      r.bundles.filter fun k _ => decide (k.1 = q) := by
  cases c <;> simp only [onBundles]
  case putBundles id version bundles =>
    refine Table.filterKeys_insertAll fun e he => ?_
    obtain ⟨b, -, rfl⟩ := List.mem_map.1 he
    exact decide_eq_false h
  case clean id bound =>
    have hne : q ≠ id := Ne.symm h
    refine Table.filterKeys_filterKeys fun k hk => ?_
    simp [of_decide_eq_true hk, hne]

theorem onFlows_other (h : c.project ≠ q) (r : Relations C) :
    ((c.onFlows M r).filter fun k _ => decide (k.1 = q)) =
      r.flows.filter fun k _ => decide (k.1 = q) := by
  cases c <;> simp only [onFlows]
  case putFlows id version flows =>
    refine Table.filterKeys_insertAll fun e he => ?_
    obtain ⟨f, -, rfl⟩ := List.mem_map.1 he
    exact decide_eq_false h
  case clean id bound =>
    have hne : q ≠ id := Ne.symm h
    refine Table.filterKeys_filterKeys fun k hk => ?_
    simp [of_decide_eq_true hk, hne]

/-- The log of a project hears of changes about that project alone. -/
theorem project_of_mem_events {e : EventRow live} (he : e ∈ c.events) : e.project = c.project := by
  cases c
  case create | retire | describe | point | log =>
    obtain rfl := List.mem_singleton.1 he
    rfl
  all_goals cases he

theorem eventsOf_apply_other (h : c.project ≠ q) (r : Relations C) :
    (c.apply M r).eventsOf q = r.eventsOf q := by
  have hnone : (c.events.map (EventRow.write M)).filter (fun e => e.project = q) = [] := by
    rw [List.filter_eq_nil_iff]
    intro e he
    obtain ⟨d, hd, rfl⟩ := List.mem_map.1 he
    have hproject : (d.write M).project = c.project := project_of_mem_events hd
    simpa [hproject] using h
  rw [Relations.eventsOf, apply, List.filter_append, hnone, List.append_nil, Relations.eventsOf]

/-- A change leaves what is held of other projects as it is. -/
theorem part_apply (h : c.project ≠ q) (r : Relations C) : (c.apply M r).part q = r.part q := by
  have hevents := eventsOf_apply_other (M := M) h r
  simp only [Relations.part, hevents]
  simp only [apply, onProjects_other h, onVersions_other h, onGrants_other h, onBundles_other h,
    onFlows_other h]

theorem part_applyAll {cs : List Change} (h : ∀ c ∈ cs, c.project ≠ q) (r : Relations C) :
    (applyAll M cs r).part q = r.part q := by
  induction cs generalizing r with
  | nil => rfl
  | cons c cs ih =>
    rw [applyAll_cons, ih fun d hd => h d (List.mem_cons_of_mem c hd),
      part_apply (h c List.mem_cons_self)]

end Change

/-! ## What queries look at -/

variable {σ : Type} [Store σ]

/-- States of a store that answer alike whatever is asked about a project by its id. -/
structure Store.SameAbout (p : Int32) (s s' : σ) : Prop where
  projectById : Store.projectById p s' = Store.projectById p s
  grants : Store.grants p s' = Store.grants p s
  events {q : Project} (hq : q.id = p) (limit offset : Nat) :
    Store.events q limit offset s' = Store.events q limit offset s
  versions : Store.versions p s' = Store.versions p s
  version? (number : Int32) : Store.version? p number s' = Store.version? p number s
  currentVersion? {q : Project} (hq : q.id = p) :
    Store.currentVersion? q s' = Store.currentVersion? q s
  bundle {q : Project} (hq : q.id = p) (path : String) :
    Store.bundle q path s' = Store.bundle q path s
  bundleAt (number : Int32) (path : String) :
    Store.bundleAt p number path s' = Store.bundleAt p number path s
  bundles (number : Int32) : Store.bundles p number s' = Store.bundles p number s
  flow {q : Project} (hq : q.id = p) (id : String) : Store.flow q id s' = Store.flow q id s
  flows {q : Project} (hq : q.id = p) : Store.flows q s' = Store.flows q s

/-- A store that answers about a project from the part of that project. -/
def View.Localizes (V : View σ) : Prop :=
  ∀ {s s' : σ} {p : Int32}, V.Good s → V.Good s' →
    (V.relations s').part p = (V.relations s).part p → Store.SameAbout p s s'

namespace Memory

variable {m m' : Memory}

theorem row_of_part (h : m'.relations.part p = m.relations.part p) : m'.row p = m.row p := by
  rw [row, row, Relations.find?_projects_of_part h]

theorem pointer_of_part (h : m'.relations.part p = m.relations.part p) :
    m'.pointer p = m.pointer p := by
  rw [pointer, pointer, row_of_part h]

theorem grantList_of_part (h : m'.relations.part p = m.relations.part p) :
    m'.grantList p = m.grantList p := by
  rw [grantList, grantList, Relations.grantsOf_of_part h]

theorem bundleAt_of_part (h : m'.relations.part p = m.relations.part p) (v : Int32)
    (path : String) : bundleAt p v path m' = bundleAt p v path m := by
  rw [bundleAt, bundleAt, Relations.find?_bundles_of_part h]

theorem localizes : view.Localizes := by
  intro m m' p _ _ h
  have h : m'.relations.part p = m.relations.part p := h
  refine ⟨?_, ?_, ?_, ?_, ?_, ?_, ?_, ?_, ?_, ?_, ?_⟩
  · show Memory.projectById p m' = Memory.projectById p m
    simp only [Memory.projectById, assemble, row_of_part h, grantList_of_part h]
  · show Except.ok (m'.grantList p) = .ok (m.grantList p)
    rw [grantList_of_part h]
  · rintro q rfl limit offset
    show Except.ok (m'.events q limit offset) = .ok (m.events q limit offset)
    rw [Memory.events, Memory.events, Relations.eventsOf_of_part h]
  · show Except.ok (m'.versions p) = .ok (m.versions p)
    rw [Memory.versions, Memory.versions, Relations.versionsOf_of_part h]
  · intro number
    show Except.ok (m'.version? p number) = .ok (m.version? p number)
    rw [Memory.version?, Memory.version?, Relations.find?_versions_of_part h]
  · rintro q rfl
    show Memory.currentVersion? q m' = Memory.currentVersion? q m
    rw [Memory.currentVersion?, Memory.currentVersion?, row_of_part h]
  · rintro q rfl path
    show Memory.bundle q path m' = Memory.bundle q path m
    simp only [Memory.bundle, pointer_of_part h, bundleAt_of_part h]
  · intro number path
    exact bundleAt_of_part h number path
  · intro number
    show Except.ok (m'.bundles p number) = .ok (m.bundles p number)
    rw [Memory.bundles, Memory.bundles, Relations.bundlesOf_of_part h]
  · rintro q rfl id
    show Memory.flow q id m' = Memory.flow q id m
    simp only [Memory.flow, pointer_of_part h, Relations.find?_flows_of_part h]
  · rintro q rfl
    show Memory.flows q m' = Memory.flows q m
    simp only [Memory.flows, pointer_of_part h, Relations.flowsOf_of_part h]

end Memory

namespace Database

variable {d d' : Database}

theorem loadProject_of_part {l l' : Relations stored} (h : l'.part p = l.part p)
    (row : ProjectRow stored) : loadProject l' p row = loadProject l p row := by
  rw [loadProject, loadProject, loadGrants, loadGrants, Relations.grantsOf_of_part h]

section Open

variable (hopen : d.isOpen = true) (hopen' : d'.isOpen = true)
  (h : d'.relations.part p = d.relations.part p)

include hopen hopen' h

theorem pointer_of_part {q : Project} (hq : q.id = p) : pointer q d' = pointer q d := by
  subst hq
  simp only [pointer, currentVersion?, query_apply hopen, query_apply hopen',
    Relations.find?_projects_of_part h]

theorem bundleAt_of_part (v : Int32) (path : String) :
    bundleAt p v path d' = bundleAt p v path d := by
  simp only [bundleAt, query_apply hopen, query_apply hopen', Relations.find?_bundles_of_part h]

theorem sameAbout : Store.SameAbout p d d' := by
  refine ⟨?_, ?_, ?_, ?_, ?_, ?_, ?_, ?_, ?_, ?_, ?_⟩
  · show Database.projectById p d' = Database.projectById p d
    simp only [Database.projectById, query_apply hopen, query_apply hopen',
      Relations.find?_projects_of_part h, loadProject_of_part h]
  · show Database.grants p d' = Database.grants p d
    simp only [Database.grants, query_apply hopen, query_apply hopen', loadGrants,
      Relations.grantsOf_of_part h]
  · rintro q rfl limit offset
    show Database.events q limit offset d' = Database.events q limit offset d
    simp only [Database.events, query_apply hopen, query_apply hopen',
      Relations.eventsOf_of_part h]
  · show Database.versions p d' = Database.versions p d
    simp only [Database.versions, query_apply hopen, query_apply hopen',
      Relations.versionsOf_of_part h]
  · intro number
    show Database.version? p number d' = Database.version? p number d
    simp only [Database.version?, query_apply hopen, query_apply hopen',
      Relations.find?_versions_of_part h]
  · rintro q rfl
    show Database.currentVersion? q d' = Database.currentVersion? q d
    simp only [Database.currentVersion?, query_apply hopen, query_apply hopen',
      Relations.find?_projects_of_part h]
  · rintro q rfl path
    show Database.bundle q path d' = Database.bundle q path d
    simp only [Database.bundle, pointer_of_part hopen hopen' h rfl,
      bundleAt_of_part hopen hopen' h]
  · exact bundleAt_of_part hopen hopen' h
  · intro number
    show Database.bundles p number d' = Database.bundles p number d
    simp only [Database.bundles, query_apply hopen, query_apply hopen',
      Relations.bundlesOf_of_part h]
  · rintro q rfl id
    show Database.flow q id d' = Database.flow q id d
    simp only [Database.flow, pointer_of_part hopen hopen' h rfl, query_apply hopen,
      query_apply hopen', Relations.find?_flows_of_part h]
  · rintro q rfl
    show Database.flows q d' = Database.flows q d
    simp only [Database.flows, pointer_of_part hopen hopen' h rfl, query_apply hopen,
      query_apply hopen', Relations.flowsOf_of_part h]

end Open

theorem localizes : view.Localizes := fun hgood hgood' h => sameAbout hgood.isOpen hgood'.isOpen h

end Database

end ProjectRegistry
