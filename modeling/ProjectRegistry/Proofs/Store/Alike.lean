import ProjectRegistry.Proofs.Store.Names
import ProjectRegistry.Proofs.Store.Plans
import ProjectRegistry.Proofs.Store.Readable
import ProjectRegistry.Proofs.Timeless

/-!
# Relations that agree apart from times

Two stores that are called at different times, or store times differently, write different rows, but
rows that are the same once all times are taken out. Here this is said of relations in memory and in
a database. Changes that are the same apart from times keep it so, and plans that are made for such
relations are the same apart from times.
-/

namespace ProjectRegistry

open Time (Instant)

namespace Change

/-- A change with one and the same time in the place of its own. -/
def timeless : Change → Change
  | .create id name description creator _ => .create id name description creator .epoch
  | .retire id name user _ => .retire id name user .epoch
  | .describe id description user _ => .describe id description user .epoch
  | .configure id settings _ => .configure id settings (some .epoch)
  | .log e => .log (e.write .timeless)
  | .register v => .register v.timeless
  | .point id version user _ => .point id version user .epoch
  | c => c

/-- A change does the same at any time, apart from times. -/
theorem apply_timeless (c : Change) (l : Relations live) :
    (c.timeless.apply .values l).write .timeless = (c.apply .values l).write .timeless := by
  cases c with
  | configure id settings now =>
    have hrows (time : Option Instant) :
        ((configure id settings time).onProjects .values l.projects).mapRows
          (ProjectRow.write .timeless) =
          (l.projects.mapRows (ProjectRow.write .timeless)).modify id fun p =>
            { p with settings := settings, lastModifiedAt := .epoch } := by
      refine Table.mapRows_modify (fun p => ?_) _ _
      rfl
    simp only [timeless, apply, Relations.write, Relations.mk.injEq]
    exact ⟨(hrows _).trans (hrows _).symm, rfl, rfl, rfl, rfl, rfl⟩
  | create | retire | describe | log | register | point =>
    rw [← apply_write, ← apply_write]
    rfl
  | grant | revoke | clean | putBundles | putFlows => rfl

theorem applyAll_timeless (cs : List Change) (l : Relations live) :
    applyAll .timeless (cs.map timeless) (l.write .timeless) =
      (applyAll .values cs l).write .timeless := by
  induction cs generalizing l with
  | nil => rfl
  | cons c cs ih =>
    rw [List.map_cons, applyAll_cons, apply_write, apply_timeless, ih, applyAll_cons]

/-- Relations that are the same apart from times stay so through changes that are. -/
theorem alike_applyAll {r l : Relations live} {cs ds : List Change}
    (halike : r.write .timeless = l.write .timeless) (hcs : cs.map timeless = ds.map timeless) :
    (applyAll .values cs r).write .timeless = (applyAll .values ds l).write .timeless := by
  rw [← applyAll_timeless, ← applyAll_timeless, halike, hcs]

/-! ## Counting -/

theorem length_logged_timeless (cs : List Change) :
    (logged (cs.map timeless)).length = (logged cs).length := by
  have hevents (c : Change) : c.timeless.events.length = c.events.length := by cases c <;> rfl
  induction cs with
  | nil => rfl
  | cons c cs ih =>
    rw [List.map_cons, logged_cons, logged_cons, List.length_append, List.length_append, hevents,
      ih]

variable {C : Columns} {M : Medium C} {limits : Limits}

/-- Every event that is logged makes the log longer by one. -/
theorem length_events_applyAll (cs : List Change) (r : Relations C) :
    (applyAll M cs r).events.length = r.events.length + (logged cs).length := by
  rw [events_applyAll, List.length_append, List.length_map]

/-- Every project that is created makes their table longer by one, and nothing makes it shorter. -/
theorem length_projects_apply {c : Change} {r : Relations C} (hfit : c.Fits M limits r) :
    (c.apply M r).projects.entries.length =
      r.projects.entries.length + (c.newProject?.toList).length := by
  cases c with
  | create id name description creator now =>
    exact Table.length_insert (not_contains_of_fits_create hfit) _
  | retire | describe | configure | register | point => exact Table.length_map _ _
  | grant | revoke | log | clean | putBundles | putFlows => rfl

theorem length_projects_applyAll_of_old {cs : List Change} {r : Relations C}
    (hfit : AllFit M limits cs r) (hold : ∀ c ∈ cs, c.newProject? = none) :
    (applyAll M cs r).projects.entries.length = r.projects.entries.length := by
  induction cs generalizing r with
  | nil => rfl
  | cons c cs ih =>
    have hc := length_projects_apply hfit.1
    rw [hold c List.mem_cons_self] at hc
    rw [applyAll_cons, ih hfit.2 fun d hd => hold d (List.mem_cons_of_mem c hd), hc]
    rfl

theorem length_projects_le_applyAll {cs : List Change} {r : Relations C}
    (hfit : AllFit M limits cs r) :
    r.projects.entries.length ≤ (applyAll M cs r).projects.entries.length := by
  induction cs generalizing r with
  | nil => exact Nat.le_refl _
  | cons c cs ih =>
    have hc := length_projects_apply hfit.1
    have hrest := ih hfit.2
    rw [applyAll_cons]
    omega

end Change

/-! ## Alike relations -/

/-- Relations of a memory and cells of a database that hold the same apart from times. The live
values behind the cells are named, so that what was written can be told from what is read. -/
structure Relations.Alike (now now' : Instant) (l r : Relations live) (s : Relations stored) :
    Prop where
  cells : s = l.write .cells
  timeless : r.write .timeless = l.write .timeless
  readable : r.Readable now
  readable' : l.Readable now'
  names : l.NamesUnique

namespace Relations.Alike

variable {now now' : Instant} {l r : Relations live} {s : Relations stored}

theorem empty (now now' : Instant) : Alike now now' .empty .empty .empty :=
  ⟨rfl, rfl, .empty now, .empty now', namesUnique_empty⟩

theorem later {before before' : Instant} (h : Alike before before' l r s)
    (hnow : before.atMost now = true) (hnow' : before'.atMost now' = true) : Alike now now' l r s :=
  ⟨h.cells, h.timeless, h.readable.later hnow, h.readable'.later hnow', h.names⟩

/-- What looks at no times is the same for both. -/
theorem eq_of_timeless {α : Type} (h : Alike now now' l r s) {q : Relations live → α}
    (hq : ∀ l, q (l.write .timeless) = q l) : q r = q l := by
  rw [← hq r, h.timeless, hq l]

theorem length_events (h : Alike now now' l r s) : r.events.length = l.events.length := by
  have hlength := h.eq_of_timeless (q := fun r => r.events.length) fun _ => List.length_map _
  exact hlength

theorem length_projects (h : Alike now now' l r s) :
    r.projects.entries.length = l.projects.entries.length :=
  h.eq_of_timeless (q := fun r => r.projects.entries.length) fun _ => Table.length_map _ _

theorem contains_projects (h : Alike now now' l r s) (id : Int32) :
    r.projects.contains id = s.projects.contains id := by
  rw [h.cells, contains_projects_write,
    h.eq_of_timeless (q := fun r => r.projects.contains id) fun l => contains_projects_write _ l id]

theorem hasVersion (h : Alike now now' l r s) (p v : Int32) :
    r.hasVersion p v = s.hasVersion p v := by
  rw [h.cells, hasVersion_write,
    h.eq_of_timeless (q := fun r => r.hasVersion p v) fun l => hasVersion_write _ l p v]

theorem markOf (h : Alike now now' l r s) (p : Int32) : r.markOf .values p = s.markOf .cells p := by
  rw [h.cells, Change.markOf_write,
    h.eq_of_timeless (q := fun r => r.markOf .values p) fun l => Change.markOf_write .timeless l p]

theorem contains_flows (h : Alike now now' l r s) (k : Int32 × Int32 × String) :
    r.flows.contains k = s.flows.contains k := by
  rw [h.cells, contains_flows_write,
    h.eq_of_timeless (q := fun r => r.flows.contains k) fun l => contains_flows_write _ l k]

theorem applyAll (h : Alike now now' l r s) (hnow : now.Ordinary) (hnow' : now'.Ordinary)
    {limits : Limits} {cs ds : List Change}
    (hcs : cs.map Change.timeless = ds.map Change.timeless)
    (hfit : Change.AllFit .cells limits ds s) (hstorable : ∀ c ∈ cs, c.Storable now)
    (hstorable' : ∀ c ∈ ds, c.Storable now') :
    Alike now now' (Change.applyAll .values ds l) (Change.applyAll .values cs r)
      (Change.applyAll .cells ds s) where
  cells := by rw [h.cells, Change.applyAll_write]
  timeless := Change.alike_applyAll h.timeless hcs
  readable := h.readable.applyAll hnow hstorable
  readable' := h.readable'.applyAll hnow' hstorable'
  names := by
    rw [h.cells, Change.allFit_write] at hfit
    exact Change.namesUnique_applyAll h.names hfit

end Relations.Alike

/-! ## Plans apart from times -/

namespace Plan

/-- A plan with one and the same time in the place of its own. -/
def timeless (plan : Plan) : Plan := plan.map (List.map Change.timeless)

/-- Whether a plan that is made now writes nothing but what can be read back, and creates no
project. -/
def Storable (now : Instant) (plan : Plan) : Prop :=
  ∀ cs, plan = .ok cs → ∀ c ∈ cs, c.Storable now ∧ c.newProject? = none

theorem storable_of_singleton {now : Instant} {plan : Plan} {c : Change}
    (h : ∀ cs, plan = .ok cs → cs = [c]) (hc : c.Storable now) (hold : c.newProject? = none) :
    plan.Storable now := by
  intro cs hcs d hd
  rw [h cs hcs, List.mem_singleton] at hd
  rw [hd]
  exact ⟨hc, hold⟩

section Alike

variable {now now' : Instant} {l r : Relations live} {s : Relations stored}

theorem timeless_onProject (h : Relations.Alike now now' l r s) {cs ds : List Change}
    (hcs : cs.map Change.timeless = ds.map Change.timeless) (id : Int32) :
    (onProject r id cs).timeless = (onProject s id ds).timeless := by
  unfold onProject
  rw [h.contains_projects]
  split
  · exact congrArg Except.ok hcs
  · rfl

theorem timeless_onVersion (h : Relations.Alike now now' l r s) {cs ds : List Change}
    (hcs : cs.map Change.timeless = ds.map Change.timeless) (p v : Int32) :
    (onVersion r p v cs).timeless = (onVersion s p v ds).timeless := by
  unfold onVersion
  rw [h.hasVersion]
  split
  · exact congrArg Except.ok hcs
  · rfl

theorem timeless_ofProject (h : Relations.Alike now now' l r s) {plan plan' : Plan}
    (hplan : plan.timeless = plan'.timeless) (id : Int32) :
    (ofProject r id plan).timeless = (ofProject s id plan').timeless := by
  unfold ofProject
  rw [h.contains_projects]
  split
  · exact hplan
  · rfl

theorem timeless_create (h : Relations.Alike now now' l r s) (limits : Limits)
    (name description creator : String) (id : Int32) :
    (create limits now name description creator id r).timeless =
      (create limits now' name description creator id s).timeless := by
  have hcreate :=
    h.eq_of_timeless fun l => create_write .timeless l limits now name description creator id
  rw [hcreate, h.cells, create_write]
  unfold create
  repeat' split
  all_goals rfl

theorem timeless_retire (h : Relations.Alike now now' l r s) (p : Project) (user : String) :
    (retire now p user r).timeless = (retire now' p user s).timeless := by
  have hretire := h.eq_of_timeless fun l => retire_write .timeless l now p user
  rw [hretire, h.cells, retire_write]
  unfold retire
  repeat' split
  all_goals rfl

theorem timeless_describe (h : Relations.Alike now now' l r s) (limits : Limits) (p : Project)
    (description user : String) :
    (describe limits now p description user r).timeless =
      (describe limits now' p description user s).timeless := by
  unfold describe
  split
  · rfl
  · refine timeless_onProject h ?_ p.id
    rfl

theorem timeless_addVersion (h : Relations.Alike now now' l r s) {v v' : Version}
    (hv : v.timeless = v'.timeless) :
    (addVersion .values v r).timeless = (addVersion .cells v' s).timeless := by
  have hproject : v.timeless.project = v'.timeless.project := congrArg Version.project hv
  have hnumber : v.timeless.number = v'.timeless.number := congrArg Version.number hv
  simp only [Version.timeless] at hproject hnumber
  unfold addVersion
  rw [h.contains_projects, h.hasVersion, h.markOf, hproject, hnumber]
  split
  · split
    · rfl
    · split
      · exact congrArg (fun w => Except.ok [Change.register w]) hv
      · rfl
  · rfl

theorem timeless_putBundles (h : Relations.Alike now now' l r s) (p : Project)
    (bundles : List Bundle) :
    (putBundles p bundles r).timeless = (putBundles p bundles s).timeless := by
  unfold putBundles
  split
  · rfl
  · exact timeless_onVersion h rfl _ _

theorem timeless_updateFlow (h : Relations.Alike now now' l r s) (p : Project) (version : Int32)
    (f : Flow) :
    (updateFlow p version f r).timeless = (updateFlow p version f s).timeless := by
  unfold updateFlow
  rw [h.contains_flows]

end Alike

end Plan

end ProjectRegistry
