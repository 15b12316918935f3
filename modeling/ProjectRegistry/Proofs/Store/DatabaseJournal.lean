import ProjectRegistry.Proofs.Store.DatabasePlans
import ProjectRegistry.Proofs.Store.Journal

/-!
# Databases are lawful

The states that a database keeps to are open and have sound relations, and no project in them has an
id above the last one given out. Cells that cannot be read are no matter here: what fails to read
fails as a whole.
-/

namespace ProjectRegistry.Database

/-- An open database with sound relations in which ids were given out in order. -/
structure Good (d : Database) : Prop where
  isOpen : d.isOpen = true
  sound : d.relations.Sound .cells
  ordered : d.Ordered

theorem good_empty : empty.Good where
  isOpen := rfl
  sound := Relations.sound_empty
  ordered := ⟨by decide, by decide, fun h => by simp [empty, Relations.empty] at h⟩

def view : View Database := ⟨stored, .cells, Database.relations, Good⟩

variable {d : Database} {limits : Limits}

theorem Good.commit (h : d.Good) {cs : List Change}
    (hfit : Change.AllFit .cells limits cs d.relations) (hold : ∀ c ∈ cs, c.newProject? = none) :
    (d.commit cs).Good where
  isOpen := h.isOpen
  sound := h.sound.applyAll hfit
  ordered := ⟨h.ordered.nonneg, h.ordered.fits, fun hp => h.ordered.last (by
    rwa [Database.commit, Change.contains_applyAll_of_old hold] at hp)⟩

theorem Good.journals (h : d.Good) {plan : Plan} {o : Except Failure Unit × Database}
    (ho : o = d.settle plan) (hfit : plan.Fits .cells limits d.relations)
    {J : Unit → List Change → Prop} (hJ : ∀ cs, plan = .ok cs → J () cs)
    (hold : ∀ cs, J () cs → ∀ c ∈ cs, c.newProject? = none) :
    view.Journals limits d J o := by
  rw [ho]
  cases hplan : plan with
  | error e => rfl
  | ok cs =>
    rw [settle]
    cases d.canLog cs with
    | false => rfl
    | true =>
      have hcs := hJ cs hplan
      exact ⟨h.commit (hfit cs hplan) (hold cs hcs), cs, hcs, hfit cs hplan, rfl⟩

theorem Ordered.toInt_next (h : d.Ordered) (hlast : d.lastProject ≠ Int32.maxValue.toInt) :
    (Int32.ofInt (d.lastProject + 1)).toInt = d.lastProject + 1 := by
  have := h.nonneg
  have := h.fits
  have hmax : Int32.maxValue.toInt = 2147483647 := by decide
  exact Int32.toInt_ofInt_of_le (by omega) (by omega)

theorem Ordered.commitNew (h : d.Ordered) (hlast : d.lastProject ≠ Int32.maxValue.toInt)
    {cs : List Change} {name description creator : String} {now : Time.Instant}
    (hcs : cs = [.create (Int32.ofInt (d.lastProject + 1)) name description creator now]) :
    (d.commitNew cs).Ordered where
  nonneg := Int.le_add_one h.nonneg
  fits := by
    have := h.fits
    show d.lastProject + 1 ≤ _
    omega
  last {p} hp := by
    rw [hcs, Database.commitNew, commit, Change.applyAll_cons, Change.applyAll_nil,
      Change.contains_apply] at hp
    simp only [Change.newProject?, Bool.or_eq_true, decide_eq_true_eq, Option.some.injEq] at hp
    show p.toInt ≤ d.lastProject + 1
    rcases hp with hp | rfl
    · exact Int.le_add_one (h.last hp)
    · exact Int.le_of_eq (h.toInt_next hlast)

theorem Good.lt_next (h : d.Good) (hlast : d.lastProject ≠ Int32.maxValue.toInt) {p : Int32}
    (hp : d.relations.projects.contains p = true) : p < Int32.ofInt (d.lastProject + 1) := by
  have hle := h.ordered.last hp
  have hnext := h.ordered.toInt_next hlast
  rw [Int32.lt_iff_toInt_lt]
  omega

theorem Good.commitNew (h : d.Good) (hlast : d.lastProject ≠ Int32.maxValue.toInt)
    {cs : List Change} {name description creator : String} {now : Time.Instant}
    (hcs : cs = [.create (Int32.ofInt (d.lastProject + 1)) name description creator now])
    (hfit : Change.AllFit .cells limits cs d.relations) : (d.commitNew cs).Good :=
  ⟨h.isOpen, h.sound.applyAll hfit, h.ordered.commitNew hlast hcs⟩

theorem id_of_loadProject {r : Relations stored} {id : Int32} {row : ProjectRow stored}
    {p : Project} (h : loadProject r id row = .ok p) : p.id = id := by
  rw [loadProject_eq] at h
  cases hrow : row.load with
  | error e =>
    rw [hrow] at h
    cases h
  | ok row =>
    rw [hrow] at h
    cases h
    rfl

theorem id_of_projectById {id : Int32} {p : Project} (h : projectById id d = .ok p) :
    p.id = id := by
  unfold projectById query at h
  split at h
  · simp only at h
    split at h
    · exact id_of_loadProject h
    · cases h
  · cases h

theorem Good.journals_createProject (h : d.Good) (limits : Limits) (now : Time.Instant)
    (name description creator : String) :
    view.Journals limits d (fun q cs => cs = [.create q.id name description creator now])
      (createProject limits now name description creator d) := by
  rw [createProject_eq h.isOpen h.ordered]
  cases hplan : Plan.create limits now name description creator (Int32.ofInt (d.lastProject + 1))
    d.relations with
  | error e => rfl
  | ok cs =>
    by_cases hlast : d.lastProject = Int32.maxValue.toInt
    · simp only [hlast, if_true]
      rfl
    · simp only [hlast, if_false]
      have hfit : Change.AllFit .cells limits cs d.relations :=
        Plan.fits_create (fun p hp => h.lt_next hlast hp) cs hplan
      have hcs := Plan.create_ok hplan
      split
      · split
        · rfl
        · next q hq =>
          refine ⟨h.commitNew hlast hcs hfit, cs, ?_, hfit, rfl⟩
          show cs = [.create q.id name description creator now]
          rw [id_of_projectById hq, hcs]
      · rfl

theorem Good.journals_clean (h : d.Good) (limits : Limits) (project bound : Int32) :
    view.Journals limits d (fun _ cs => cs = [.clean project bound]) (clean project bound d) := by
  rw [clean_eq h.isOpen h.sound]
  cases hplan : Plan.clean project bound d.relations with
  | error e => rfl
  | ok cs =>
    have hfit : Change.AllFit .cells limits cs d.relations := Plan.fits_clean cs hplan
    have hcs := Plan.onProject_ok hplan
    simp only
    split
    · rfl
    · exact ⟨h.commit hfit (by simp [hcs, Change.newProject?]), cs, hcs, hfit, rfl⟩

theorem Good.journals_putBundles (h : d.Good) (limits : Limits) (p : Project)
    (bundles : List Bundle) :
    view.Journals limits d
      (fun _ cs => ∃ version, p.target = .ok version ∧ cs = [.putBundles p.id version bundles])
      (putBundles p bundles d) := by
  cases htarget : p.target with
  | error e =>
    rw [putBundles_of_no_target htarget]
    rfl
  | ok version =>
    exact h.journals (putBundles_eq h.isOpen htarget bundles)
      (Plan.fits_ofProject fun _ => Plan.fits_putBundles)
      (fun _ he => htarget ▸ Plan.putBundles_ok (Plan.ofProject_ok he))
      (by simp [Change.newProject?])

theorem lawful : view.Lawful where
  sound h := h.sound
  createProject h := h.journals_createProject
  removeProject h _ now p user :=
    h.journals (removeProject_eq h.isOpen now p user) Plan.fits_retire (fun _ he => he)
      fun _ he => Plan.old_of_retire he
  describe h limits now p description user :=
    h.journals (describe_eq h.isOpen limits now p description user) Plan.fits_describe
      (fun _ => Plan.describe_ok) (by simp [Change.newProject?])
  configure h _ now p :=
    h.journals (configure_eq h.isOpen now p) Plan.fits_configure
      (fun _ he => ⟨some now, .inr rfl, Plan.onProject_ok he⟩) (by simp [Change.newProject?])
  setRights h _ p principal isGroup rights :=
    h.journals (setRights_eq h.isOpen p principal isGroup rights) Plan.fits_setRights
      (fun _ => Plan.onProject_ok) (by simp only [forall_eq, List.mem_singleton]; split <;> rfl)
  dropRights h _ p principal isGroup :=
    h.journals (dropRights_eq h.isOpen p principal isGroup) Plan.fits_setRights
      (fun _ => Plan.onProject_ok) (by simp [Change.newProject?])
  postEvent {d} h limits now p kind user message := by
    have hfit : Change.AllFit .cells limits [.log ⟨p.id, kind, user, message, now⟩] d.relations :=
      ⟨trivial, trivial⟩
    have hpost : Store.postEvent now p kind user message d = _ :=
      postEvent_eq h.isOpen now p kind user message
    rw [hpost]
    split
    · exact ⟨h.commit hfit (by simp [Change.newProject?]), _, rfl, hfit, rfl⟩
    · exact ⟨h, [], rfl, trivial, rfl⟩
  addVersion h _ v :=
    h.journals (addVersion_eq h.isOpen h.sound v) Plan.fits_addVersion (fun _ => Plan.addVersion_ok)
      (by simp [Change.newProject?])
  answer_addVersion {d} h v := by
    rw [show Store.addVersion v d = _ from addVersion_eq h.isOpen h.sound v]
    show _ = (Plan.addVersion .cells v d.relations).map fun _ => ()
    cases hplan : Plan.addVersion .cells v d.relations with
    | error e => rfl
    | ok cs =>
      rw [settle_of_silent d (by simp [Plan.addVersion_ok hplan, Change.logged, Change.events])]
      rfl
  changeVersion h _ now p version user :=
    h.journals (changeVersion_eq h.isOpen now p version user) Plan.fits_changeVersion
      (fun _ he => Plan.onVersion_ok (Plan.ofProject_ok he)) (by simp [Change.newProject?])
  clean h := h.journals_clean
  putBundles h := h.journals_putBundles
  putFlows h _ p version flows :=
    h.journals (putFlows_eq h.isOpen p version flows)
      (Plan.fits_ofProject fun _ => Plan.fits_putFlows)
      (fun _ he => Plan.onVersion_ok (Plan.ofProject_ok he)) (by simp [Change.newProject?])
  updateFlow h _ p version f :=
    h.journals (updateFlow_eq h.isOpen p version f) (Plan.fits_updateFlow h.sound)
      (fun _ => Plan.updateFlow_ok) (by simp [Change.newProject?])

theorem legible : view.Legible := by
  intro d l hd hl htime
  have hl : d.relations = l.write .cells := hl
  refine ⟨Time.Instant.truncated, fun p n => ?_, fun p => ?_⟩
  · show Database.version? p n d = _
    rw [version?, query_apply hd.isOpen, hl, Relations.find?_versions_write]
    cases hrow : l.versions.find? (p, n) with
    | none => rfl
    | some row =>
      have hload := loadVersion_store (p := p) (n := n) (htime _ row hrow)
      simp only [Option.map_some, VersionRow.write_cells, hload]
      rfl
  · show Database.versions p d = _
    rw [versions, query_apply hd.isOpen, hl, Relations.versionsOf_write, loadAll_map]
    exact loadAll_ok fun e he => loadVersion_store (htime _ _ (Relations.mem_versionsOf_iff.1 he))

end ProjectRegistry.Database
