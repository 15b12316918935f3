import ProjectRegistry.Proofs.Store.Journal
import ProjectRegistry.Proofs.Store.MemoryPlans

/-!
# Memory is lawful

The states that memory keeps to have sound relations, and no project in them has an id above the
last one given out.
-/

namespace ProjectRegistry.Memory

/-- Sound relations in which ids were given out in order. -/
structure Good (m : Memory) : Prop where
  sound : m.relations.Sound .values
  nonneg : 0 ≤ m.lastProject
  last {p : Int32} : m.relations.projects.contains p = true → p ≤ m.lastProject

theorem good_empty : empty.Good where
  sound := Relations.sound_empty
  nonneg := by decide
  last h := by simp [empty, Relations.empty] at h

def view : View Memory := ⟨live, .values, Memory.relations, Good⟩

variable {m : Memory} {limits : Limits}

/-- Changes that create no project keep the ids in order. -/
theorem Good.commit (h : m.Good) {cs : List Change}
    (hfit : Change.AllFit .values limits cs m.relations) (hold : ∀ c ∈ cs, c.newProject? = none) :
    (m.commit cs).Good where
  sound := h.sound.applyAll hfit
  nonneg := h.nonneg
  last hp := h.last (by rwa [Memory.commit, Change.contains_applyAll_of_old hold] at hp)

theorem Good.journals (h : m.Good) {plan : Plan} {o : Except Failure Unit × Memory}
    (ho : o = m.settle plan) (hfit : plan.Fits .values limits m.relations)
    {J : Unit → List Change → Prop} (hJ : ∀ cs, plan = .ok cs → J () cs)
    (hold : ∀ cs, J () cs → ∀ c ∈ cs, c.newProject? = none) :
    view.Journals limits m J o := by
  rw [ho]
  cases hplan : plan with
  | error e => rfl
  | ok cs =>
    have hcs := hJ cs hplan
    exact ⟨h.commit (hfit cs hplan) (hold cs hcs), cs, hcs, hfit cs hplan, rfl⟩

theorem toInt_succ {id : Int32} (h : id ≠ Int32.maxValue) : (id + 1).toInt = id.toInt + 1 := by
  have hne : id.toInt ≠ Int32.maxValue.toInt := fun he => h (Int32.toInt_inj.1 he)
  have hle := id.toInt_le
  have hge := id.minValue_le_toInt
  have hmax : Int32.maxValue.toInt = 2147483647 := by decide
  have hmin : Int32.minValue.toInt = -2147483648 := by decide
  rw [Int32.toInt_add, show (1 : Int32).toInt = 1 from rfl, Int.bmod_eq_of_le] <;> omega

theorem Good.lt_next (h : m.Good) (hlast : m.lastProject ≠ Int32.maxValue) {p : Int32}
    (hp : m.relations.projects.contains p = true) : p < m.lastProject + 1 := by
  have hle := Int32.le_iff_toInt_le.1 (h.last hp)
  have hnext := toInt_succ hlast
  rw [Int32.lt_iff_toInt_lt]
  omega

theorem Good.commitNew (h : m.Good) (hlast : m.lastProject ≠ Int32.maxValue) {cs : List Change}
    {name description creator : String} {now : Time.Instant}
    (hcs : cs = [.create (m.lastProject + 1) name description creator now])
    (hfit : Change.AllFit .values limits cs m.relations) : (m.commitNew cs).Good where
  sound := h.sound.applyAll hfit
  nonneg := by
    have hnext := toInt_succ hlast
    have hnonneg : (0 : Int) ≤ m.lastProject.toInt := Int32.le_iff_toInt_le.1 h.nonneg
    have hge : (0 : Int) ≤ (m.lastProject + 1).toInt := by omega
    exact Int32.le_iff_toInt_le.2 hge
  last {p} hp := by
    rw [hcs, Memory.commitNew, Change.applyAll_cons, Change.applyAll_nil,
      Change.contains_apply] at hp
    simp only [Change.newProject?, Bool.or_eq_true, decide_eq_true_eq, Option.some.injEq] at hp
    rcases hp with hp | rfl
    · exact Int32.le_of_lt (h.lt_next hlast hp)
    · exact Int32.le_refl _

theorem Good.journals_createProject (h : m.Good) (limits : Limits) (now : Time.Instant)
    (name description creator : String) :
    view.Journals limits m (fun q cs => cs = [.create q.id name description creator now])
      (createProject limits now name description creator m) := by
  rw [createProject_eq]
  cases hplan : Plan.create limits now name description creator (m.lastProject + 1) m.relations with
  | error e => rfl
  | ok cs =>
    by_cases hlast : m.lastProject = Int32.maxValue
    · simp only [hlast, if_true]
      rfl
    · simp only [hlast, if_false]
      have hfit : Change.AllFit .values limits cs m.relations :=
        Plan.fits_create (fun p hp => h.lt_next hlast hp) cs hplan
      have hcs := Plan.create_ok hplan
      exact ⟨h.commitNew hlast hcs hfit, cs, hcs, hfit, rfl⟩

theorem Good.journals_clean (h : m.Good) (limits : Limits) (project bound : Int32) :
    view.Journals limits m (fun _ cs => cs = [.clean project bound]) (clean project bound m) := by
  rw [m.clean_eq h.sound]
  cases hplan : Plan.clean project bound m.relations with
  | error e => rfl
  | ok cs =>
    have hfit : Change.AllFit .values limits cs m.relations := Plan.fits_clean cs hplan
    have hcs := Plan.onProject_ok hplan
    exact ⟨h.commit hfit (by simp [hcs, Change.newProject?]), cs, hcs, hfit, rfl⟩

theorem lawful : view.Lawful where
  sound h := h.sound
  createProject h := h.journals_createProject
  removeProject {m} h _ now p user :=
    h.journals (m.removeProject_eq now p user) Plan.fits_retire (fun _ he => he)
      fun _ he => Plan.old_of_retire he
  describe {m} h limits now p description user :=
    h.journals (m.describe_eq limits now p description user) Plan.fits_describe
      (fun _ => Plan.describe_ok) (by simp [Change.newProject?])
  configure {m} h _ _ p :=
    h.journals (m.configure_eq p) Plan.fits_configure
      (fun _ he => ⟨none, .inl rfl, Plan.onProject_ok he⟩) (by simp [Change.newProject?])
  setRights {m} h _ p principal isGroup rights :=
    h.journals (m.setRights_eq p principal isGroup rights) Plan.fits_setRights
      (fun _ => Plan.onProject_ok) (by simp only [forall_eq, List.mem_singleton]; split <;> rfl)
  dropRights {m} h _ p principal isGroup :=
    h.journals (m.setRights_eq p principal isGroup .none) Plan.fits_setRights
      (fun _ => Plan.onProject_ok) (by simp [Change.newProject?])
  postEvent {m} h limits now p kind user message := by
    have hfit : Change.AllFit .values limits [.log ⟨p.id, kind, user, message, now⟩] m.relations :=
      ⟨trivial, trivial⟩
    exact ⟨h.commit hfit (by simp [Change.newProject?]), _, rfl, hfit, rfl⟩
  addVersion {m} h _ v :=
    h.journals (m.addVersion_eq v) Plan.fits_addVersion (fun _ => Plan.addVersion_ok)
      (by simp [Change.newProject?])
  answer_addVersion {m} _ v := by
    rw [show Store.addVersion v m = _ from m.addVersion_eq v]
    exact m.settle_fst _
  changeVersion {m} h _ now p version user :=
    h.journals (m.changeVersion_eq now p version user) Plan.fits_changeVersion
      (fun _ he => Plan.onVersion_ok (Plan.ofProject_ok he)) (by simp [Change.newProject?])
  clean h := h.journals_clean
  putBundles {m} h _ p bundles :=
    h.journals (m.putBundles_eq p bundles) Plan.fits_putBundles (fun _ => Plan.putBundles_ok)
      (by rintro _ ⟨_, _, rfl⟩; simp [Change.newProject?])
  putFlows {m} h _ p version flows :=
    h.journals (m.putFlows_eq p version flows) Plan.fits_putFlows (fun _ => Plan.onVersion_ok)
      (by simp [Change.newProject?])
  updateFlow {m} h _ p version f :=
    h.journals (m.updateFlow_eq p version f) (Plan.fits_updateFlow h.sound)
      (fun _ => Plan.updateFlow_ok) (by simp [Change.newProject?])

theorem legible : view.Legible := by
  intro m l _ hl _
  have hl : m.relations = l := hl.trans l.write_values
  subst hl
  exact ⟨id, fun _ _ => rfl, fun _ => rfl⟩

end ProjectRegistry.Memory
