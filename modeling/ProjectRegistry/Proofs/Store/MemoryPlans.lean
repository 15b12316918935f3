import ProjectRegistry.Proofs.Store.Plans
import ProjectRegistry.Proofs.Store.Steps
import ProjectRegistry.Store.Memory

/-!
# Memory does what is planned

Each operation of a store in memory makes the changes of its plan, or fails as the plan does and
changes nothing. There is one equation for each operation; what is shown of memory elsewhere goes by
these equations.
-/

namespace ProjectRegistry.Memory

open Change (applyAll)

def commit (cs : List Change) (m : Memory) : Memory :=
  { m with relations := applyAll .values cs m.relations }

def settle (m : Memory) : Plan → Except Failure Unit × Memory
  | .ok cs => (.ok (), m.commit cs)
  | .error e => (.error e, m)

@[simp] theorem settle_ok (m : Memory) (cs : List Change) :
    m.settle (.ok cs) = (.ok (), m.commit cs) :=
  rfl

@[simp] theorem settle_error (m : Memory) (e : Failure) : m.settle (.error e) = (.error e, m) := rfl

variable (m : Memory)

theorem settle_fst (plan : Plan) : (m.settle plan).1 = plan.map fun _ => () := by cases plan <;> rfl

theorem commit_singleton (c : Change) :
    m.commit [c] = { m with relations := c.apply .values m.relations } :=
  rfl

@[simp] theorem changeRelations_apply (f : Relations live → Relations live) :
    changeRelations f m = (.ok (), { m with relations := f m.relations }) := rfl

@[simp] theorem changeRow_apply (id : Int32) (f : ProjectRow live → ProjectRow live) :
    changeRow id f m =
      (.ok (), { m with
        relations := { m.relations with projects := m.relations.projects.modify id f } }) := rfl

@[simp] theorem touch_apply (id : Int32) (user : String) (now : Time.Instant) :
    touch id user now m = changeRow id
      (fun p => { p with lastModifiedBy := user, lastModifiedAt := now }) m := rfl

@[simp] theorem appendEvent_apply (e : EventRow live) :
    appendEvent e m = (.ok (),
      { m with relations := { m.relations with events := m.relations.events ++ [e] } }) := rfl

theorem row_of_contains {id : Int32} (h : m.relations.projects.contains id = true) :
    ∃ p, m.relations.projects.find? id = some p ∧ m.row id = .ok p := by
  obtain ⟨p, hp⟩ := Table.contains_iff.1 h
  exact ⟨p, hp, by rw [row, hp]⟩

theorem row_of_not_contains {id : Int32} (h : m.relations.projects.contains id = false) :
    m.row id = .error (.noProject id) := by
  rw [row, Table.find?_eq_none_of_not_contains h]

theorem row_bind_eq {id : Int32} {x : ProjectRow live → Step Memory Unit} {cs : List Change}
    (h : ∀ p, m.relations.projects.find? id = some p → x p m = (.ok (), m.commit cs)) :
    (Step.read (row id) >>= x) m = m.settle (Plan.onProject m.relations id cs) := by
  rw [Step.bind_apply, Step.read_apply]
  cases hid : m.relations.projects.contains id with
  | true =>
    obtain ⟨p, hp, hrow⟩ := m.row_of_contains hid
    rw [hrow, Plan.onProject, if_pos hid, settle_ok]
    exact h p hp
  | false => rw [m.row_of_not_contains hid, Plan.onProject, if_neg (by simp [hid]), settle_error]

theorem requireVersion_bind_eq {p v : Int32} {x : Unit → Step Memory Unit} {cs : List Change}
    (h : x () m = (.ok (), m.commit cs)) :
    (Step.read (requireVersion p v) >>= x) m = m.settle (Plan.onVersion m.relations p v cs) := by
  rw [Step.bind_apply, Step.read_apply, requireVersion, Plan.onVersion]
  cases m.relations.hasVersion p v with
  | true => exact h
  | false => rfl

theorem removeProject_eq (now : Time.Instant) (p : Project) (user : String) :
    removeProject now p user m = m.settle (Plan.retire now p user m.relations) := by
  unfold removeProject Plan.retire
  rw [Step.bind_apply, Step.read_apply, row]
  rcases m.relations.projects.find? p.id with _ | held
  · rfl
  · by_cases hactive : held.active = true
    · simp only [hactive, if_true, Step.bind_apply, changeRow_apply, touch_apply, appendEvent_apply,
        Table.modify_modify]
      rfl
    · simp only [hactive]
      rfl

theorem describe_eq (limits : Limits) (now : Time.Instant) (p : Project)
    (description user : String) :
    describe limits now p description user m =
      m.settle (Plan.describe limits now p description user m.relations) := by
  unfold describe Plan.describe
  rw [Step.bind_apply, Step.lift_apply]
  rcases limits.checkDescription description with e | ⟨⟩
  · rfl
  · refine m.row_bind_eq ?_
    intro held _
    simp only [Step.bind_apply, changeRow_apply, touch_apply, appendEvent_apply,
      Table.modify_modify]
    rfl

theorem configure_eq (p : Project) :
    configure p m = m.settle (Plan.configure none p m.relations) := by
  refine m.row_bind_eq ?_
  intro held _
  rw [changeRow_apply, commit_singleton, Change.apply_of_silent _ rfl]
  rfl

theorem setRights_eq (p : Project) (principal : String) (isGroup : Bool) (rights : Rights) :
    setRights p principal isGroup rights m =
      m.settle (Plan.setRights p principal isGroup rights m.relations) := by
  refine m.row_bind_eq ?_
  intro held _
  rw [changeRelations_apply, commit_singleton]
  split
  · rw [Change.apply_of_silent _ rfl]
    rfl
  · rw [Change.apply_of_silent _ rfl]
    rfl

theorem postEvent_eq (now : Time.Instant) (p : Project) (kind : EventKind) (user message : String) :
    postEvent now p kind user message m =
      (true, m.commit [.log ⟨p.id, kind, user, message, now⟩]) := rfl

theorem addVersion_eq (v : Version) :
    addVersion v m = m.settle (Plan.addVersion .values v m.relations) := by
  unfold addVersion Plan.addVersion
  rw [Step.bind_apply, Step.read_apply]
  cases hid : m.relations.projects.contains v.project with
  | false => rw [m.row_of_not_contains hid]; rfl
  | true =>
    obtain ⟨held, hheld, hrow⟩ := m.row_of_contains hid
    have hmark : m.relations.markOf .values v.project = held.lastVersion.toInt := by
      simp [Relations.markOf, hheld, Medium.values, Medium.ofTimes]
    rw [hrow, if_pos rfl]
    simp only [Step.bind_apply, Step.get_apply]
    cases hv : m.relations.hasVersion v.project v.number with
    | true => rfl
    | false =>
      have hnumber : (1 ≤ v.number.toInt ∧ held.lastVersion.toInt < v.number.toInt) ↔
          (1 ≤ v.number ∧ held.lastVersion < v.number) := by
        rw [Int32.le_iff_toInt_le, Int32.lt_iff_toInt_lt]
        rfl
      simp only [Bool.not_false, Step.require_true, Bool.false_eq_true, if_false, hmark, hnumber,
        Int32.ofInt_toInt]
      by_cases h : 1 ≤ v.number ∧ held.lastVersion < v.number
      · rw [if_pos h, decide_eq_true h, settle_ok, commit_singleton, Change.apply_of_silent _ rfl]
        rfl
      · rw [if_neg h, decide_eq_false h]
        rfl

theorem changeVersion_eq (now : Time.Instant) (p : Project) (version : Int32) (user : String) :
    changeVersion now p version user m =
      m.settle (Plan.changeVersion now p version user m.relations) := by
  unfold changeVersion Plan.changeVersion Plan.ofProject
  rw [Step.bind_apply, Step.read_apply]
  cases hid : m.relations.projects.contains p.id with
  | false => rw [m.row_of_not_contains hid]; rfl
  | true =>
    obtain ⟨held, hheld, hrow⟩ := m.row_of_contains hid
    rw [hrow, if_pos rfl]
    refine m.requireVersion_bind_eq ?_
    simp only [Step.bind_apply, changeRow_apply, touch_apply, appendEvent_apply,
      Table.modify_modify]
    rfl

theorem putBundles_eq (p : Project) (bundles : List Bundle) :
    putBundles p bundles m = m.settle (Plan.putBundles p bundles m.relations) := by
  unfold putBundles Plan.putBundles
  rw [Step.bind_apply, Step.lift_apply]
  rcases p.target with e | version
  · rfl
  · refine m.requireVersion_bind_eq ?_
    rw [changeRelations_apply, commit_singleton, Change.apply_of_silent _ rfl]
    simp only [Change.onBundles, Table.insertAll, List.foldl_map]
    rfl

theorem putFlows_eq (p : Project) (version : Int32) (flows : List Flow) :
    putFlows p version flows m = m.settle (Plan.putFlows p version flows m.relations) := by
  refine m.requireVersion_bind_eq ?_
  rw [changeRelations_apply, commit_singleton, Change.apply_of_silent _ rfl]
  simp only [Change.onFlows, Table.insertAll, List.foldl_map]
  rfl

theorem updateFlow_eq (p : Project) (version : Int32) (f : Flow) :
    updateFlow p version f m = m.settle (Plan.updateFlow p version f m.relations) := by
  unfold updateFlow Plan.updateFlow
  simp only [Step.bind_apply, Step.get_apply]
  cases m.relations.flows.contains (p.id, version, f.id) with
  | false => rfl
  | true =>
    simp only [Step.require_true, if_true, settle_ok, changeRelations_apply, commit_singleton]
    rw [Change.apply_of_silent _ rfl]
    rfl

def commitNew (cs : List Change) : Memory := ⟨applyAll .values cs m.relations, m.lastProject + 1⟩

theorem commitNew_create {id : Int32} {name description creator : String} {now : Time.Instant} :
    m.commitNew [.create id name description creator now] =
      { relations := { m.relations with
          projects := m.relations.projects.insert id (.new name description creator now)
          grants := m.relations.grants.insert (id, false, creator) .admin
          events := m.relations.events ++ [⟨id, .created, creator, createdMessage name, now⟩] }
        lastProject := m.lastProject + 1 } := by
  simp only [commitNew, Change.applyAll_cons, Change.applyAll_nil, Change.apply, Change.onProjects,
    ProjectRow.write_values]
  rfl

theorem row_commitNew (id : Int32) (name description creator : String) (now : Time.Instant) :
    (m.commitNew [.create id name description creator now]).row id =
      .ok (.new name description creator now) := by
  simp [commitNew, Change.apply, Change.onProjects, row]

theorem createProject_eq (limits : Limits) (now : Time.Instant)
    (name description creator : String) :
    createProject limits now name description creator m =
      match Plan.create limits now name description creator (m.lastProject + 1) m.relations with
      | .error e => (.error e, m)
      | .ok cs =>
        if m.lastProject = Int32.maxValue then (.error (.storage .idsUsedUp), m)
        else
          (.ok ((m.commitNew cs).assemble (m.lastProject + 1) (.new name description creator now)),
            m.commitNew cs) := by
  unfold createProject Plan.create
  cases limits.checkName name with
  | error e => rfl
  | ok _ =>
    cases limits.checkDescription description with
    | error e => rfl
    | ok _ =>
      rw [Step.lift_ok_bind, Step.lift_ok_bind, Step.get_bind_apply]
      cases m.relations.holdsName name with
      | true => rfl
      | false =>
        by_cases hlast : m.lastProject = Int32.maxValue
        · simp [hlast]
        · simp only [Bool.not_false, Step.require_true_bind, hlast, ne_eq, not_false_eq_true,
            decide_true, Bool.false_eq_true, if_false]
          simp only [Step.bind_apply, Step.change_apply, changeRelations_apply, appendEvent_apply,
            Step.read_apply]
          rw [← commitNew_create, projectById, row_commitNew]

theorem clean_of_no_project {project bound : Int32}
    (h : m.relations.projects.contains project = false) :
    clean project bound m = (.error (.noProject project), m) := by
  unfold clean
  rw [Step.bind_apply, Step.read_apply, m.row_of_not_contains h]

theorem superseded_eq {project bound : Int32} {held : ProjectRow live}
    (hheld : m.relations.projects.find? project = some held) :
    m.superseded project bound held.pointer =
      (m.relations.doomedOf .values project bound).map (·.1) := by
  have hpointer (v : Int32) : m.relations.pointerOf .values project = some v.toInt ↔
      held.pointer = some v := by
    simp only [Relations.pointerOf, hheld, Option.bind_some]
    rcases held.pointer with _ | n <;> simp [Medium.values, Medium.ofTimes, Int32.toInt_inj]
  rw [superseded, Relations.doomedOf, List.filter_map]
  congr 1
  apply List.filter_congr
  intro v _
  simp [Relations.isDoomed, hpointer]

theorem contains_superseded {project bound v : Int32} {held : ProjectRow live}
    (hheld : m.relations.projects.find? project = some held)
    (hv : m.relations.hasVersion project v = true) :
    (m.superseded project bound held.pointer).contains v =
      m.relations.isDoomed .values project bound v := by
  obtain ⟨row, hrow⟩ := Table.contains_iff.1 hv
  rw [m.superseded_eq hheld, Bool.eq_iff_iff, List.contains_iff_mem]
  simp only [Relations.doomedOf, List.mem_map, List.mem_filter]
  constructor
  · rintro ⟨w, ⟨_, hw⟩, rfl⟩
    exact hw
  · intro h
    exact ⟨(v, row), ⟨Relations.mem_versionsOf_iff.2 hrow, h⟩, rfl⟩

theorem filterMap_version? {project : Int32} {es : List (Int32 × VersionRow live)}
    (h : ∀ e ∈ es, m.relations.versions.find? (project, e.1) = some e.2) :
    ((es.map (·.1)).filterMap fun v => m.version? project v) =
      es.map fun e => e.2.toVersion project e.1 := by
  induction es with
  | nil => rfl
  | cons e rest ih =>
    have he : m.version? project e.1 = some (e.2.toVersion project e.1) := by
      rw [version?, h e List.mem_cons_self, Option.map_some]
    rw [List.map_cons, List.filterMap_cons, he, ih fun d hd => h d (List.mem_cons_of_mem e hd),
      List.map_cons]

theorem filterMap_superseded {project bound : Int32} {held : ProjectRow live}
    (hheld : m.relations.projects.find? project = some held) :
    ((m.superseded project bound held.pointer).filterMap fun v => m.version? project v) =
      (m.relations.doomedOf .values project bound).map fun v => v.2.toVersion project v.1 := by
  rw [m.superseded_eq hheld]
  exact m.filterMap_version? fun e he => Relations.mem_versionsOf_iff.1 (List.mem_filter.1 he).1

/-- Cleaning up goes by the numbers of versions. Bundles and flows belong to versions that are
there, so none stays behind. -/
theorem clean_eq (h : m.relations.Sound .values) (project bound : Int32) :
    clean project bound m =
      match Plan.clean project bound m.relations with
      | .error e => (.error e, m)
      | .ok cs =>
        (.ok ((m.relations.doomedOf .values project bound).map fun v => v.2.toVersion project v.1),
          m.commit cs) := by
  unfold Plan.clean Plan.onProject
  cases hid : m.relations.projects.contains project with
  | false => exact m.clean_of_no_project hid
  | true =>
    obtain ⟨held, hheld, hrow⟩ := m.row_of_contains hid
    have hdoomed {k : Int32 × Int32} (hv : m.relations.hasVersion k.1 k.2 = true) :
        (!(decide (k.1 = project) && (m.superseded project bound held.pointer).contains k.2)) =
          !(decide (k.1 = project) && m.relations.isDoomed .values project bound k.2) := by
      by_cases hk : k.1 = project
      · rw [m.contains_superseded hheld (hk ▸ hv)]
      · simp [hk]
    have hversions :=
      Table.filterKeys_congr (t := m.relations.versions) (fun k hk => hdoomed (k := k) hk)
    have hbundles := Table.filterKeys_congr (t := m.relations.bundles)
      (fun k hk => hdoomed (k := (k.1, k.2.1)) (h.bundle hk))
    have hflows := Table.filterKeys_congr (t := m.relations.flows)
      (fun k hk => hdoomed (k := (k.1, k.2.1)) (h.flow hk))
    unfold clean
    rw [Step.bind_apply, Step.read_apply, hrow]
    simp only [Step.bind_apply, Step.get_apply, changeRelations_apply, Step.pure_apply,
      m.filterMap_superseded hheld, hversions, hbundles, hflows, if_true, commit_singleton]
    rw [Change.apply_of_silent _ rfl]
    rfl

end ProjectRegistry.Memory
