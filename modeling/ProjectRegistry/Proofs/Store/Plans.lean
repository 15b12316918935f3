import ProjectRegistry.Proofs.Store.Soundness

/-!
# What operations come to

A plan is what an operation comes to before anything is changed: why it fails, or the changes that
it makes. Plans look at relations through names, keys and numbers only, so they are the same for
live relations and for what is written of them in any medium; a store that does what its plans say
differs from another such store in nothing but the medium.

The changes of a plan fit the relations for which it was made.
-/

namespace ProjectRegistry

/-- A failure, or changes to make. -/
abbrev Plan := Except Failure (List Change)

namespace Plan

variable {C : Columns}

/-- Changes that only take a project to be there. -/
def onProject (r : Relations C) (id : Int32) (cs : List Change) : Plan :=
  if r.projects.contains id then .ok cs else .error (.noProject id)

/-- Changes that only take a version to be there. -/
def onVersion (r : Relations C) (project version : Int32) (cs : List Change) : Plan :=
  if r.hasVersion project version then .ok cs else .error (.noVersion project version)

def create (limits : Limits) (now : Time.Instant) (name description creator : String) (id : Int32)
    (r : Relations C) : Plan :=
  match limits.checkName name with
  | .error e => .error e
  | .ok () =>
    match limits.checkDescription description with
    | .error e => .error e
    | .ok () =>
      if r.holdsName name then .error (.duplicateName name)
      else .ok [.create id name description creator now]

def retire (now : Time.Instant) (p : Project) (user : String) (r : Relations C) : Plan :=
  match r.projects.find? p.id with
  | none => .error (.noProject p.id)
  | some row => .ok (if row.active then [.retire p.id p.name user now] else [])

def describe (limits : Limits) (now : Time.Instant) (p : Project) (description user : String)
    (r : Relations C) : Plan :=
  match limits.checkDescription description with
  | .error e => .error e
  | .ok () => onProject r p.id [.describe p.id description user now]

def configure (now : Option Time.Instant) (p : Project) (r : Relations C) : Plan :=
  onProject r p.id [.configure p.id p.settings now]

def setRights (p : Project) (principal : String) (isGroup : Bool) (rights : Rights)
    (r : Relations C) : Plan :=
  onProject r p.id
    [if rights.isEmpty then .revoke p.id isGroup principal
    else .grant p.id isGroup principal rights]

def addVersion (M : Medium C) (v : Version) (r : Relations C) : Plan :=
  if r.projects.contains v.project then
    if r.hasVersion v.project v.number then .error (.duplicateVersion v.project v.number)
    else if 1 ≤ v.number.toInt ∧ r.markOf M v.project < v.number.toInt then .ok [.register v]
    else .error (.versionOrdering v.project v.number (Int32.ofInt (r.markOf M v.project)))
  else .error (.noProject v.project)

/-- A plan that also takes a project to be there, which is looked at first. -/
def ofProject (r : Relations C) (id : Int32) (plan : Plan) : Plan :=
  if r.projects.contains id then plan else .error (.noProject id)

def changeVersion (now : Time.Instant) (p : Project) (version : Int32) (user : String)
    (r : Relations C) : Plan :=
  ofProject r p.id (onVersion r p.id version [.point p.id version user now])

def clean (project bound : Int32) (r : Relations C) : Plan :=
  onProject r project [.clean project bound]

def putBundles (p : Project) (bundles : List Bundle) (r : Relations C) : Plan :=
  match p.target with
  | .error e => .error e
  | .ok version => onVersion r p.id version [.putBundles p.id version bundles]

def putFlows (p : Project) (version : Int32) (flows : List Flow) (r : Relations C) : Plan :=
  onVersion r p.id version [.putFlows p.id version flows]

def updateFlow (p : Project) (version : Int32) (f : Flow) (r : Relations C) : Plan :=
  if r.flows.contains (p.id, version, f.id) then .ok [.putFlows p.id version [f]]
  else .error (.noFlow p.id version f.id)

/-! ## What is planned -/

section Planned

variable {r : Relations C} {cs ds : List Change}

theorem onProject_ok {id : Int32} (h : onProject r id cs = .ok ds) : ds = cs := by
  unfold onProject at h
  split at h
  · cases h
    rfl
  · cases h

theorem onVersion_ok {p v : Int32} (h : onVersion r p v cs = .ok ds) : ds = cs := by
  unfold onVersion at h
  split at h
  · cases h
    rfl
  · cases h

theorem ofProject_ok {id : Int32} {plan : Plan} (h : ofProject r id plan = .ok ds) :
    plan = .ok ds := by
  unfold ofProject at h
  split at h
  · exact h
  · cases h

theorem create_ok {limits : Limits} {now : Time.Instant} {name description creator : String}
    {id : Int32} (h : create limits now name description creator id r = .ok ds) :
    ds = [.create id name description creator now] := by
  unfold create at h
  repeat' split at h
  all_goals cases h
  rfl

theorem retire_ok {now : Time.Instant} {p : Project} {user : String}
    (h : retire now p user r = .ok ds) :
    ds = [] ∨ ds = [.retire p.id p.name user now] := by
  unfold retire at h
  split at h
  · cases h
  · cases h
    split
    · exact .inr rfl
    · exact .inl rfl

theorem old_of_retire {now : Time.Instant} {p : Project} {user : String}
    (h : retire now p user r = .ok ds) : ∀ c ∈ ds, c.newProject? = none := by
  rcases retire_ok h with rfl | rfl <;> simp [Change.newProject?]

theorem describe_ok {limits : Limits} {now : Time.Instant} {p : Project}
    {description user : String} (h : describe limits now p description user r = .ok ds) :
    ds = [.describe p.id description user now] := by
  unfold describe at h
  split at h
  · cases h
  · exact onProject_ok h

theorem addVersion_ok {M : Medium C} {v : Version} (h : addVersion M v r = .ok ds) :
    ds = [.register v] := by
  unfold addVersion at h
  repeat' split at h
  all_goals cases h
  rfl

theorem putBundles_ok {p : Project} {bundles : List Bundle} (h : putBundles p bundles r = .ok ds) :
    ∃ version, p.target = .ok version ∧ ds = [.putBundles p.id version bundles] := by
  unfold putBundles at h
  split at h
  · cases h
  · next version htarget => exact ⟨version, htarget, onVersion_ok h⟩

theorem updateFlow_ok {p : Project} {version : Int32} {f : Flow}
    (h : updateFlow p version f r = .ok ds) :
    ds = [.putFlows p.id version [f]] := by
  unfold updateFlow at h
  split at h
  · cases h
    rfl
  · cases h

end Planned

/-! ## Plans fit -/

/-- Whether the changes of a plan fit. -/
def Fits (M : Medium C) (limits : Limits) (r : Relations C) (plan : Plan) : Prop :=
  ∀ cs, plan = .ok cs → Change.AllFit M limits cs r

section Fits

variable {M : Medium C} {limits : Limits} {r : Relations C}

theorem fits_error (e : Failure) : Fits M limits r (.error e) := by
  intro cs h
  cases h

theorem fits_ok {cs : List Change} (h : Change.AllFit M limits cs r) :
    Fits M limits r (.ok cs) := by
  intro ds he
  cases he
  exact h

theorem fits_onProject {id : Int32} {c : Change}
    (h : r.projects.contains id = true → c.Fits M limits r) :
    Fits M limits r (onProject r id [c]) := by
  unfold onProject
  split
  · next hid => exact fits_ok (Change.allFit_singleton.2 (h hid))
  · exact fits_error _

theorem fits_onVersion {p v : Int32} {c : Change}
    (h : r.hasVersion p v = true → c.Fits M limits r) :
    Fits M limits r (onVersion r p v [c]) := by
  unfold onVersion
  split
  · next hv => exact fits_ok (Change.allFit_singleton.2 (h hv))
  · exact fits_error _

theorem fits_create {now : Time.Instant} {name description creator : String} {id : Int32}
    (hid : ∀ p, r.projects.contains p = true → p < id) :
    Fits M limits r (create limits now name description creator id r) := by
  unfold create
  split
  · exact fits_error _
  · next hname =>
    split
    · exact fits_error _
    · next hdescription =>
      split
      · exact fits_error _
      · next hfree =>
        exact fits_ok (Change.allFit_singleton.2 ⟨hname, hdescription, by simpa using hfree, hid⟩)

theorem fits_retire {now : Time.Instant} {p : Project} {user : String} :
    Fits M limits r (retire now p user r) := by
  unfold retire
  split
  · exact fits_error _
  · next row hrow =>
    refine fits_ok ?_
    split
    · next hactive => exact Change.allFit_singleton.2 ⟨row, hrow, hactive⟩
    · trivial

theorem fits_describe {now : Time.Instant} {p : Project} {description user : String} :
    Fits M limits r (describe limits now p description user r) := by
  unfold describe
  split
  · exact fits_error _
  · next hdescription => exact fits_onProject fun hp => ⟨hdescription, hp⟩

theorem fits_configure {now : Option Time.Instant} {p : Project} :
    Fits M limits r (configure now p r) :=
  fits_onProject fun hp => hp

theorem fits_setRights {p : Project} {principal : String} {isGroup : Bool} {rights : Rights} :
    Fits M limits r (setRights p principal isGroup rights r) := by
  refine fits_onProject ?_
  intro hp
  split
  · exact hp
  · next hrights => exact ⟨hp, by simpa using hrights⟩

theorem fits_addVersion {v : Version} : Fits M limits r (addVersion M v r) := by
  unfold addVersion
  split
  · next hp =>
    split
    · exact fits_error _
    · next hv =>
      split
      · next hnumber =>
        exact fits_ok (Change.allFit_singleton.2 ⟨hp, by simpa using hv, hnumber.1, hnumber.2⟩)
      · exact fits_error _
  · exact fits_error _

theorem fits_ofProject {id : Int32} {plan : Plan}
    (h : r.projects.contains id = true → Fits M limits r plan) :
    Fits M limits r (ofProject r id plan) := by
  unfold ofProject
  split
  · next hid => exact h hid
  · exact fits_error _

theorem fits_changeVersion {now : Time.Instant} {p : Project} {version : Int32} {user : String} :
    Fits M limits r (changeVersion now p version user r) :=
  fits_ofProject fun hp => fits_onVersion fun hv => ⟨hp, hv⟩

theorem fits_clean {project bound : Int32} : Fits M limits r (clean project bound r) :=
  fits_onProject fun hp => hp

theorem fits_putBundles {p : Project} {bundles : List Bundle} :
    Fits M limits r (putBundles p bundles r) := by
  unfold putBundles
  split
  · exact fits_error _
  · exact fits_onVersion fun hv => hv

theorem fits_putFlows {p : Project} {version : Int32} {flows : List Flow} :
    Fits M limits r (putFlows p version flows r) :=
  fits_onVersion fun hv => hv

theorem fits_updateFlow (h : r.Sound M) {p : Project} {version : Int32} {f : Flow} :
    Fits M limits r (updateFlow p version f r) := by
  unfold updateFlow
  split
  · next hf => exact fits_ok (Change.allFit_singleton.2 (h.flow hf))
  · exact fits_error _

end Fits

/-! ## Plans do not depend on the medium -/

section Write

variable (M : Medium C) (l : Relations live)

theorem create_write (limits : Limits) (now : Time.Instant) (name description creator : String)
    (id : Int32) :
    create limits now name description creator id (l.write M) =
      create limits now name description creator id l := by
  simp [create]

theorem retire_write (now : Time.Instant) (p : Project) (user : String) :
    retire now p user (l.write M) = retire now p user l := by
  simp only [retire, Relations.find?_projects_write]
  cases l.projects.find? p.id <;> rfl

end Write

end Plan

end ProjectRegistry
