import ProjectRegistry.Proofs.Registry.Integrity

/-!
# Copies that are out of date

Callers hold copies of projects, and a call that takes one goes by its id. It looks at one field
more where that field is what the call is about: the name that the log is to tell of, the settings
that are to be stored, the version that bundles are meant for. Whatever else a copy says, however
long ago it was true, has no part in the answer or in what is stored.

So nothing old is written back. In the row of its project a call changes the fields that it is about
and leaves those that others have changed in the meantime.
-/

namespace ProjectRegistry

variable {σ : Type} {C : Columns}

/-! ## Stores that go by the id -/

/-- A store to which two copies of one project are the same, but for the field that an operation is
about. This holds of every state, a damaged one or one of a closed database included. -/
structure Store.GoesById (σ : Type) [Store σ] : Prop where
  removeProject {p q : Project} (hid : q.id = p.id) (hname : q.name = p.name) (now : Time.Instant)
    (user : String) (s : σ) :
    Store.removeProject now q user s = Store.removeProject now p user s
  describe {p q : Project} (hid : q.id = p.id) (limits : Limits) (now : Time.Instant)
    (description user : String) (s : σ) :
    Store.describe limits now q description user s = Store.describe limits now p description user s
  configure {p q : Project} (hid : q.id = p.id) (hsettings : q.settings = p.settings)
    (now : Time.Instant) (s : σ) :
    Store.configure now q s = Store.configure now p s
  setRights {p q : Project} (hid : q.id = p.id) (principal : String) (isGroup : Bool)
    (rights : Rights) (s : σ) :
    Store.setRights q principal isGroup rights s = Store.setRights p principal isGroup rights s
  dropRights {p q : Project} (hid : q.id = p.id) (principal : String) (isGroup : Bool) (s : σ) :
    Store.dropRights q principal isGroup s = Store.dropRights p principal isGroup s
  postEvent {p q : Project} (hid : q.id = p.id) (now : Time.Instant) (kind : EventKind)
    (user message : String) (s : σ) :
    Store.postEvent now q kind user message s = Store.postEvent now p kind user message s
  events {p q : Project} (hid : q.id = p.id) (limit offset : Nat) (s : σ) :
    Store.events q limit offset s = Store.events p limit offset s
  changeVersion {p q : Project} (hid : q.id = p.id) (now : Time.Instant) (version : Int32)
    (user : String) (s : σ) :
    Store.changeVersion now q version user s = Store.changeVersion now p version user s
  currentVersion? {p q : Project} (hid : q.id = p.id) (s : σ) :
    Store.currentVersion? q s = Store.currentVersion? p s
  putBundles {p q : Project} (hid : q.id = p.id) (hversion : q.version = p.version)
    (bundles : List Bundle) (s : σ) :
    Store.putBundles q bundles s = Store.putBundles p bundles s
  bundle {p q : Project} (hid : q.id = p.id) (path : String) (s : σ) :
    Store.bundle q path s = Store.bundle p path s
  putFlows {p q : Project} (hid : q.id = p.id) (version : Int32) (flows : List Flow) (s : σ) :
    Store.putFlows q version flows s = Store.putFlows p version flows s
  updateFlow {p q : Project} (hid : q.id = p.id) (version : Int32) (f : Flow) (s : σ) :
    Store.updateFlow q version f s = Store.updateFlow p version f s
  flow {p q : Project} (hid : q.id = p.id) (id : String) (s : σ) :
    Store.flow q id s = Store.flow p id s
  flows {p q : Project} (hid : q.id = p.id) (s : σ) : Store.flows q s = Store.flows p s

theorem Project.target_congr {p q : Project} (hid : q.id = p.id)
    (hversion : q.version = p.version) :
    q.target = p.target := by
  rw [target, target, hid, hversion]

namespace Memory

theorem goesById : Store.GoesById Memory where
  removeProject hid hname _ _ _ := by simp only [Store.removeProject, removeProject, hid, hname]
  describe hid _ _ _ _ _ := by simp only [Store.describe, describe, hid]
  configure hid hsettings _ _ := by simp only [Store.configure, configure, hid, hsettings]
  setRights hid _ _ _ _ := by simp only [Store.setRights, setRights, hid]
  dropRights hid _ _ _ := by simp only [Store.dropRights, setRights, hid]
  postEvent hid _ _ _ _ _ := by simp only [Store.postEvent, postEvent, hid]
  events hid _ _ _ := by simp only [Store.events, events, hid]
  changeVersion hid _ _ _ _ := by simp only [Store.changeVersion, changeVersion, hid]
  currentVersion? hid _ := by simp only [Store.currentVersion?, currentVersion?, hid]
  putBundles hid hversion _ _ := by
    simp only [Store.putBundles, putBundles, Project.target_congr hid hversion, hid]
  bundle hid _ _ := by simp only [Store.bundle, bundle, hid]
  putFlows hid _ _ _ := by simp only [Store.putFlows, putFlows, hid]
  updateFlow hid _ _ _ := by simp only [Store.updateFlow, updateFlow, hid]
  flow hid _ _ := by simp only [Store.flow, flow, hid]
  flows hid _ := by simp only [Store.flows, flows, hid]

end Memory

namespace Database

theorem pointer_congr {p q : Project} (hid : q.id = p.id) (d : Database) :
    pointer q d = pointer p d := by
  simp only [pointer, currentVersion?, hid]

theorem goesById : Store.GoesById Database where
  removeProject hid hname _ _ _ := by simp only [Store.removeProject, removeProject, hid, hname]
  describe hid _ _ _ _ _ := by simp only [Store.describe, describe, hid]
  configure hid hsettings _ _ := by simp only [Store.configure, configure, hid, hsettings]
  setRights hid _ _ _ _ := by simp only [Store.setRights, setRights, dropRights, hid]
  dropRights hid _ _ _ := by simp only [Store.dropRights, dropRights, hid]
  postEvent hid _ _ _ _ _ := by simp only [Store.postEvent, postEvent, hid]
  events hid _ _ _ := by simp only [Store.events, events, hid]
  changeVersion hid _ _ _ _ := by simp only [Store.changeVersion, changeVersion, hid]
  currentVersion? hid _ := by simp only [Store.currentVersion?, currentVersion?, hid]
  putBundles hid hversion _ _ := by
    simp only [Store.putBundles, putBundles, Project.target_congr hid hversion, hid]
  bundle hid _ _ := by simp only [Store.bundle, bundle, pointer_congr hid, hid]
  putFlows hid _ _ _ := by simp only [Store.putFlows, putFlows, hid]
  updateFlow hid _ _ _ := by simp only [Store.updateFlow, updateFlow, hid]
  flow hid _ _ := by simp only [Store.flow, flow, pointer_congr hid, hid]
  flows hid _ := by simp only [Store.flows, flows, pointer_congr hid, hid]

end Database

/-! ## Calls with another copy -/

/-- The copy that a call takes, if it is of that kind. -/
def Call.copy? : Call → Option Project
  | .removeProject p _ | .describe p .. | .configure p | .setRights p .. | .dropRights p .. |
    .postEvent p .. | .events p .. | .changeVersion p .. | .currentVersion p | .putBundle p _ |
    .putBundles p _ | .bundle p _ | .putFlow p .. | .putFlows p .. | .updateFlow p .. |
    .flow p _ | .flows p => some p
  | _ => none

def Call.withCopy (q : Project) : Call → Call
  | .removeProject _ user => .removeProject q user
  | .describe _ description user => .describe q description user
  | .configure _ => .configure q
  | .setRights _ principal isGroup rights => .setRights q principal isGroup rights
  | .dropRights _ principal isGroup => .dropRights q principal isGroup
  | .postEvent _ kind user message => .postEvent q kind user message
  | .events _ limit offset => .events q limit offset
  | .changeVersion _ number user => .changeVersion q number user
  | .currentVersion _ => .currentVersion q
  | .putBundle _ b => .putBundle q b
  | .putBundles _ bs => .putBundles q bs
  | .bundle _ path => .bundle q path
  | .putFlow _ number f => .putFlow q number f
  | .putFlows _ number fs => .putFlows q number fs
  | .updateFlow _ number f => .updateFlow q number f
  | .flow _ id => .flow q id
  | .flows _ => .flows q
  | call => call

/-- Whether a copy says the same as another in all that a call goes by. -/
def Call.Equates (call : Call) (q p : Project) : Prop :=
  q.id = p.id ∧
    match call with
    | .removeProject .. => q.name = p.name
    | .configure _ => q.settings = p.settings
    | .putBundle .. | .putBundles .. => q.version = p.version
    | _ => True

namespace Registry

variable [Store σ]

/-- Two copies that agree in what a call goes by lead to the same answer and to the same registry.
-/
theorem perform_withCopy (hstore : Store.GoesById σ) {call : Call} {p q : Project}
    (hp : call.copy? = some p) (hsame : call.Equates q p) (tick : Tick) (r : Registry σ) :
    perform tick (call.withCopy q) r = perform tick call r := by
  obtain ⟨hid, hfield⟩ := hsame
  cases call <;> cases hp <;> simp only [Call.withCopy, perform]
  case removeProject user => rw [funext (hstore.removeProject hid hfield tick.now user)]
  case describe description user =>
    simp only [fun limits => funext (hstore.describe hid limits tick.now description user)]
  case configure => rw [funext (hstore.configure hid hfield tick.now)]
  case setRights principal isGroup rights =>
    rw [funext (hstore.setRights hid principal isGroup rights)]
  case dropRights principal isGroup => rw [funext (hstore.dropRights hid principal isGroup)]
  case postEvent kind user message => rw [hstore.postEvent hid tick.now kind user message]
  case events limit offset => rw [funext (hstore.events hid limit offset)]
  case changeVersion number user => rw [funext (hstore.changeVersion hid tick.now number user)]
  case currentVersion => rw [funext (hstore.currentVersion? hid)]
  case putBundle b => rw [funext (hstore.putBundles hid hfield [b])]
  case putBundles bs => rw [funext (hstore.putBundles hid hfield bs)]
  case bundle path => rw [funext (hstore.bundle hid path)]
  case putFlow number f => rw [funext (hstore.putFlows hid number [f])]
  case putFlows number fs => rw [funext (hstore.putFlows hid number fs)]
  case updateFlow number f => rw [funext (hstore.updateFlow hid number f)]
  case flow id => rw [funext (hstore.flow hid id)]
  case flows => rw [funext (hstore.flows hid)]

end Registry

/-! ## The row of the project -/

/-- What a call that is answered makes of the row of the project whose copy it takes. -/
def Call.Edits (M : Medium C) (now : Time.Instant) (call : Call) (row row' : ProjectRow C) : Prop :=
  match call with
  | .removeProject _ user =>
    row' = if row.active then
      { row with active := false, lastModifiedBy := user, lastModifiedAt := M.time now } else row
  | .describe _ description user =>
    row' = { row with description, lastModifiedBy := user, lastModifiedAt := M.time now }
  | .configure p =>
    row' = { row with settings := M.settings p.settings } ∨
      row' = { row with settings := M.settings p.settings, lastModifiedAt := M.time now }
  | .changeVersion _ number user =>
    row' = { row with
      pointer := some (M.number number), lastModifiedBy := user, lastModifiedAt := M.time now }
  | _ => row' = row

/-- What the changes of a call make of the row of the project whose copy it takes. Retiring is not
among these calls, since nothing may be left to do. -/
theorem Call.Makes.edits {r : Registry σ} {tick : Tick} {call : Call} {reply : Reply}
    {cs : List Change} {p : Project} (h : call.Makes r tick reply cs) (hp : call.copy? = some p)
    (hne : ∀ user, call ≠ .removeProject p user) (M : Medium C) (rs : Relations C) :
    ∃ f, (∀ row, call.Edits M tick.now row (f row)) ∧
      (Change.applyAll M cs rs).projects = rs.projects.modify p.id f := by
  have hkept (hedits : ∀ row : ProjectRow C, call.Edits M tick.now row row)
      (hprojects : (Change.applyAll M cs rs).projects = rs.projects) :
      ∃ f, (∀ row, call.Edits M tick.now row (f row)) ∧
        (Change.applyAll M cs rs).projects = rs.projects.modify p.id f :=
    ⟨id, hedits, by rw [hprojects, Table.modify_id]⟩
  cases call <;> cases hp
  case removeProject user => exact absurd rfl (hne user)
  case describe | changeVersion =>
    subst h
    exact ⟨_, fun row => rfl, rfl⟩
  case configure =>
    obtain ⟨noted, hnoted, rfl⟩ := h
    rcases hnoted with rfl | rfl
    · exact ⟨_, fun row => .inl rfl, rfl⟩
    · exact ⟨_, fun row => .inr rfl, rfl⟩
  case setRights principal isGroup rights =>
    subst h
    refine hkept (fun row => rfl) ?_
    rw [Change.applyAll_cons]
    split <;> rfl
  case postEvent kind user message =>
    subst h
    refine hkept (fun row => rfl) ?_
    split <;> rfl
  case putBundle | putBundles =>
    obtain ⟨number, -, rfl⟩ := h
    exact hkept (fun row => rfl) rfl
  all_goals
    subst h
    exact hkept (fun row => rfl) rfl

/-- Retiring a project is for rows that are active. -/
theorem Plan.projects_of_retire {now : Time.Instant} {p : Project} {user : String}
    {rs : Relations C} {cs : List Change} (h : retire now p user rs = .ok cs) (M : Medium C) :
    (Change.applyAll M cs rs).projects = rs.projects.modify p.id fun row =>
      if row.active then
        { row with active := false, lastModifiedBy := user, lastModifiedAt := M.time now }
      else row := by
  rw [retire] at h
  split at h
  · cases h
  · next held hheld =>
    obtain rfl := Except.ok.inj h
    have hrow {row : ProjectRow C} (h : rs.projects.find? p.id = some row) : row = held :=
      Option.some.inj (h.symm.trans hheld)
    cases hactive : held.active with
    | true =>
      have hretired : (Change.applyAll M [.retire p.id p.name user now] rs).projects =
          rs.projects.modify p.id fun row =>
            { row with active := false, lastModifiedBy := user, lastModifiedAt := M.time now } :=
        rfl
      rw [if_pos rfl, hretired]
      refine Table.modify_congr fun row h => ?_
      rw [hrow h, if_pos hactive]
    | false =>
      rw [if_neg (by simp), Change.applyAll_nil]
      refine (Table.modify_id rs.projects p.id).symm.trans (Table.modify_congr fun row h => ?_)
      rw [hrow h, if_neg (by simp [hactive]), id]

namespace Registry

variable [Store σ] {V : View σ} {r r' : Registry σ} {tick : Tick} {p : Project}

theorem removeProject_edits (hV : V.Lawful) (hr : V.Good r.store) {user : String} {reply : Reply}
    (h : perform tick (.removeProject p user) r = (.ok reply, r')) :
    ∃ f, (∀ row, (Call.removeProject p user).Edits V.M tick.now row (f row)) ∧
      (V.relations r'.store).projects = (V.relations r.store).projects.modify p.id f := by
  have hremove := hV.removeProject hr r.limits tick.now p user
  rw [show perform tick (.removeProject p user) r = _ from Step.map_apply _ _ r, onStore_apply] at h
  rcases hx : Store.removeProject tick.now p user r.store with ⟨e | _, store⟩
  · rw [hx] at h
    cases h
  · rw [hx] at h
    obtain ⟨-, cs, hplan, -, hrelations⟩ := hremove.of_ok hx
    obtain ⟨-, rfl⟩ := Prod.mk.inj h
    refine ⟨_, fun row => rfl, ?_⟩
    simp only [hrelations]
    exact Plan.projects_of_retire hplan V.M

/-! ## Along every run -/

/-- What holds of calls that take copies: what a copy says besides has no part in them, and they
change no row but that of its project, and in it what they are about. -/
structure HeedsNoCopy (V : View σ) (r : Registry σ) : Prop where
  same {tick : Tick} {call : Call} {p q : Project} : call.copy? = some p → call.Equates q p →
    perform tick (call.withCopy q) r = perform tick call r
  edits {tick : Tick} {call : Call} {p : Project} {reply : Reply} {r' : Registry σ} :
    call.copy? = some p → perform tick call r = (.ok reply, r') →
      ∃ f, (∀ row, call.Edits V.M tick.now row (f row)) ∧
        (V.relations r'.store).projects = (V.relations r.store).projects.modify p.id f
  refused {tick : Tick} {call : Call} {p : Project} {e : Failure} {r' : Registry σ} :
    call.copy? = some p → perform tick call r = (.error e, r') → r'.store = r.store

theorem heedsNoCopy (hV : V.Lawful) (hstore : Store.GoesById σ) (hr : V.Good r.store) :
    r.HeedsNoCopy V where
  same hp hsame := perform_withCopy hstore hp hsame _ r
  edits {tick call p reply r'} hp h := by
    by_cases hremove : ∃ user, call = .removeProject p user
    · obtain ⟨user, rfl⟩ := hremove
      exact removeProject_edits hV hr h
    · obtain ⟨-, -, cs, hcs, -, hrelations⟩ := (perform_journals hV hr tick call).of_ok h
      rw [hrelations]
      exact hcs.edits hp (fun user he => hremove ⟨user, he⟩) V.M _
  refused {tick call p e r'} _ h := ((perform_journals hV hr tick call).of_error h).2

end Registry

/-- In every state that calls lead to, in memory and in a database alike, copies that are out of
date do no harm: a call goes by the id of the copy that it takes and by the field that it is about,
and what it changes in the row of the project is no more than that. -/
theorem stale_copies_are_harmless (limits : Limits) (root : Files.Path) (files : Files.FileTree)
    (calls : List (Tick × Call)) :
    ((Registry.start limits root files Memory.empty).after calls).HeedsNoCopy Memory.view ∧
      ((Registry.start limits root files Database.empty).after calls).HeedsNoCopy
        Database.view := by
  constructor
  · exact Registry.heedsNoCopy Memory.lawful Memory.goesById
      (Registry.good_after (r := .start limits root files Memory.empty) Memory.lawful
        Memory.good_empty calls)
  · exact Registry.heedsNoCopy Database.lawful Database.goesById
      (Registry.good_after (r := .start limits root files Database.empty) Database.lawful
        Database.good_empty calls)

end ProjectRegistry
