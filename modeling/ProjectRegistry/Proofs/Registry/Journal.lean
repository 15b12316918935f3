import ProjectRegistry.Proofs.Artifacts
import ProjectRegistry.Proofs.Store.Journal
import ProjectRegistry.Proofs.Store.Steps
import ProjectRegistry.Registry.Call

/-!
# What calls change

A call that is answered makes the changes that belong to it, a call that fails makes none; this
holds of a registry over any lawful store. Files play no part in it, except that an upload names its
version by the digest of a file and by the place of the archive.

A sweep is many steps, of which some may fail. What it changes is what cleaning up and writing to
the log change.
-/

namespace ProjectRegistry

variable {σ : Type}

/-- The record of the version that a call is to register. That of an upload is drawn from the files.
-/
def Call.record? (r : Registry σ) (tick : Tick) : Call → Option Version
  | .addVersion project number file uploader digest resourceId =>
    some (.ofUpload project number file uploader digest resourceId tick.now)
  | .uploadFile project number file user =>
    match r.digestOf file with
    | .ok digest =>
      some (.ofUpload project number file user digest
        (Artifacts.resourceId project number tick.fresh (Version.fileNameOf file)) tick.now)
    | .error _ => none
  | _ => none

/-- What a sweep may do to relations. -/
def Change.IsUpkeep : Change → Prop
  | .clean .. | .log _ => True
  | _ => False

/-- The changes that belong to a call and its answer. -/
def Call.Makes (r : Registry σ) (tick : Tick) (call : Call) (reply : Reply) (cs : List Change) :
    Prop :=
  match call with
  | .createProject name description creator =>
    ∃ q, reply = .project q ∧ cs = [.create q.id name description creator tick.now]
  | .removeProject p user => cs = [] ∨ cs = [.retire p.id p.name user tick.now]
  | .describe p description user => cs = [.describe p.id description user tick.now]
  | .configure p =>
    ∃ noted, (noted = none ∨ noted = some tick.now) ∧ cs = [.configure p.id p.settings noted]
  | .setRights p principal isGroup rights =>
    cs = [if rights.isEmpty then .revoke p.id isGroup principal
      else .grant p.id isGroup principal rights]
  | .dropRights p principal isGroup => cs = [.revoke p.id isGroup principal]
  | .postEvent p kind user message =>
    cs = match reply with
      | .posted true => [.log ⟨p.id, kind, user, message, tick.now⟩]
      | _ => []
  | .addVersion .. | .uploadFile .. => ∃ v, call.record? r tick = some v ∧ cs = [.register v]
  | .changeVersion p number user => cs = [.point p.id number user tick.now]
  | .clean project bound => cs = [.clean project bound]
  | .putBundle p b => ∃ number, p.target = .ok number ∧ cs = [.putBundles p.id number [b]]
  | .putBundles p bs => ∃ number, p.target = .ok number ∧ cs = [.putBundles p.id number bs]
  | .putFlow p number f | .updateFlow p number f => cs = [.putFlows p.id number [f]]
  | .putFlows p number fs => cs = [.putFlows p.id number fs]
  | .sweep _ => ∀ c ∈ cs, c.IsUpkeep
  | _ => cs = []

namespace Registry

variable {α : Type} {V : View σ} {r r' : Registry σ}

/-! ## Steps on a part of the registry -/

@[simp] theorem onStore_apply (x : Step σ α) (r : Registry σ) :
    onStore x r = ((x r.store).1, { r with store := (x r.store).2 }) := rfl

@[simp] theorem onFiles_apply (x : Step Files.FileTree α) (r : Registry σ) :
    onFiles x r = ((x r.files).1, { r with files := (x r.files).2 }) := rfl

@[simp] theorem ask_apply (q : σ → Except Failure α) (r : Registry σ) : ask q r = (q r.store, r) :=
  rfl

theorem ask_map {β : Type} (q : σ → Except Failure α) (f : α → β) (r : Registry σ) :
    (ask q >>= fun a => pure (f a)) r = ((q r.store).map f, r) :=
  Step.map_apply _ f r

/-- Files are all that is touched when archives are discarded. -/
theorem foldl_discard (vs : List Version) (r : Registry σ) :
    (vs.foldl (fun r v => r.discard v.resourceId) r).store = r.store ∧
      (vs.foldl (fun r v => r.discard v.resourceId) r).limits = r.limits := by
  induction vs generalizing r with
  | nil => exact ⟨rfl, rfl⟩
  | cons v rest ih => exact ih _

/-! ## Journals -/

/-- What an outcome of a registry comes to: its limits are the same, and its store made the changes
of its answer. -/
def Journals (V : View σ) (r : Registry σ) (J : α → List Change → Prop)
    (o : Except Failure α × Registry σ) : Prop :=
  o.2.limits = r.limits ∧ V.Journals r.limits r.store J (o.1, o.2.store)

theorem Journals.of_ok {J : α → List Change → Prop} {o : Except Failure α × Registry σ} {a : α}
    (h : Journals V r J o) (ho : o = (.ok a, r')) :
    r'.limits = r.limits ∧ V.Good r'.store ∧
      ∃ cs, J a cs ∧ Change.AllFit V.M r.limits cs (V.relations r.store) ∧
        V.relations r'.store = Change.applyAll V.M cs (V.relations r.store) := by
  subst ho
  exact ⟨h.1, h.2⟩

theorem Journals.of_error {J : α → List Change → Prop} {o : Except Failure α × Registry σ}
    {e : Failure} (h : Journals V r J o) (ho : o = (.error e, r')) :
    r'.limits = r.limits ∧ r'.store = r.store := by
  subst ho
  exact h

theorem journals_query (hr : V.Good r.store) {J : α → List Change → Prop} {a : Except Failure α}
    (hJ : ∀ a, J a []) : Journals V r J (a, r) := by
  refine ⟨rfl, ?_⟩
  cases a with
  | error e => rfl
  | ok a => exact ⟨hr, [], hJ a, trivial, rfl⟩

theorem Journals.map {β : Type} {x : Step (Registry σ) α} {J : α → List Change → Prop}
    {K : β → List Change → Prop} {f : α → β} (h : Journals V r J (x r))
    (hJ : ∀ a cs, J a cs → K (f a) cs) :
    Journals V r K ((x >>= fun a => pure (f a)) r) := by
  rw [Step.map_apply]
  rcases hx : x r with ⟨e | a, r'⟩
  · exact h.of_error hx
  · obtain ⟨hlimits, hgood, cs, hcs, hrest⟩ := h.of_ok hx
    exact ⟨hlimits, hgood, cs, hJ a cs hcs, hrest⟩

theorem journals_read (hr : V.Good r.store) {β : Type} {q : Registry σ → Except Failure α}
    {f : α → β} {K : β → List Change → Prop} (hK : ∀ a, K (f a) []) :
    Journals V r K ((Step.read q >>= fun a => pure (f a)) r) :=
  (journals_query hr (J := fun _ cs => cs = []) fun _ => rfl).map fun a _ hcs => hcs ▸ hK a

theorem journals_onStore {x : Step σ α} {J : α → List Change → Prop}
    (h : V.Journals r.limits r.store J (x r.store)) :
    Journals V r J (onStore x r) :=
  ⟨rfl, h⟩

/-- A registry that another one became by some changes of a kind. -/
def Becomes (V : View σ) (P : Change → Prop) (r r' : Registry σ) : Prop :=
  r'.limits = r.limits ∧ V.Good r'.store ∧
    ∃ cs, (∀ c ∈ cs, P c) ∧ Change.AllFit V.M r.limits cs (V.relations r.store) ∧
      V.relations r'.store = Change.applyAll V.M cs (V.relations r.store)

theorem Becomes.refl {P : Change → Prop} (hr : V.Good r.store) : Becomes V P r r :=
  ⟨rfl, hr, [], by simp, trivial, rfl⟩

theorem Becomes.trans {P : Change → Prop} {r'' : Registry σ} (h : Becomes V P r r')
    (h' : Becomes V P r' r'') :
    Becomes V P r r'' := by
  obtain ⟨hlimits, _, cs, hcs, hfit, hrelations⟩ := h
  obtain ⟨hlimits', hgood, ds, hds, hfit', hrelations'⟩ := h'
  refine ⟨hlimits'.trans hlimits, hgood, cs ++ ds, ?_, ?_, ?_⟩
  · intro c hc
    exact (List.mem_append.1 hc).elim (hcs c) (hds c)
  · rw [Change.allFit_append, ← hrelations, ← hlimits]
    exact ⟨hlimits ▸ hfit, hfit'⟩
  · rw [Change.applyAll_append, ← hrelations, hrelations']

theorem Journals.becomes {J : α → List Change → Prop} {o : Except Failure α × Registry σ}
    {P : Change → Prop} (hr : V.Good r.store) (h : Journals V r J o)
    (hJ : ∀ a cs, o.1 = .ok a → J a cs → ∀ c ∈ cs, P c) :
    Becomes V P r o.2 := by
  obtain ⟨answer, r'⟩ := o
  cases answer with
  | error e =>
    obtain ⟨hlimits, hstore⟩ := h.of_error rfl
    exact ⟨hlimits, by rw [hstore]; exact ⟨hr, [], by simp, trivial, rfl⟩⟩
  | ok a =>
    obtain ⟨hlimits, hgood, cs, hcs, hrest⟩ := h.of_ok rfl
    exact ⟨hlimits, hgood, cs, hJ a cs rfl hcs, hrest⟩

/-! ## Uploads and cleaning up -/

variable [Store σ]

theorem uploadFile_of_unreadable {tick : Tick} {project number : Int32} {file : Files.Path}
    {user : String} {e : Failure} (h : r.digestOf file = .error e) :
    uploadFile tick project number file user r = (.error e, r) := by
  unfold uploadFile
  rw [Step.bind_apply, Step.read_apply, h]

/-- An upload keeps the archive first and takes it away again if its version is refused. -/
theorem uploadFile_eq {file : Files.Path} {digest : Digest} (h : r.digestOf file = .ok digest)
    (tick : Tick) (project number : Int32) (user : String) :
    uploadFile tick project number file user r =
      match r.artifacts.store tick.fresh project number file r.files with
      | (.error e, files) => (.error e, { r with files })
      | (.ok id, files) =>
        match Store.addVersion (.ofUpload project number file user digest id tick.now) r.store with
        | (.ok (), store) => (.ok (), { r with files, store })
        | (.error e, store) => (.error e, Registry.discard id { r with files, store }) := by
  have hread : Step.read (digestOf file) r = (.ok digest, r) := by rw [Step.read_apply, h]
  refine (Step.bind_ok hread).trans ((Step.bind_ok (Step.get_apply r)).trans ?_)
  rcases hstored : r.artifacts.store tick.fresh project number file r.files with ⟨e | id, files⟩
  · have hfiles : onFiles (r.artifacts.store tick.fresh project number file) r =
        (.error e, { r with files }) := by
      rw [onFiles_apply, hstored]
    exact Step.bind_error hfiles
  · have hfiles : onFiles (r.artifacts.store tick.fresh project number file) r =
        (.ok id, { r with files }) := by
      rw [onFiles_apply, hstored]
    refine (Step.bind_ok hfiles).trans ?_
    simp only [addVersion, onStore_apply]
    rcases Store.addVersion (.ofUpload project number file user digest id tick.now) r.store with
      ⟨e | _, store⟩ <;> rfl

theorem journals_uploadFile (hV : V.Lawful) (hr : V.Good r.store) (tick : Tick)
    (project number : Int32) (file : Files.Path) (user : String) :
    Journals V r
      (fun _ cs => ∃ v, (Call.uploadFile project number file user).record? r tick = some v ∧
        cs = [.register v])
      (uploadFile tick project number file user r) := by
  cases hdigest : r.digestOf file with
  | error e =>
    rw [uploadFile_of_unreadable hdigest]
    exact ⟨rfl, rfl⟩
  | ok digest =>
    rw [uploadFile_eq hdigest]
    rcases hstored : r.artifacts.store tick.fresh project number file r.files with ⟨e | id, files⟩
    · exact ⟨rfl, rfl⟩
    · have hid := Artifacts.id_of_store hstored
      have hadd := hV.addVersion hr r.limits (.ofUpload project number file user digest id tick.now)
      rcases hx : Store.addVersion (.ofUpload project number file user digest id tick.now)
        r.store with ⟨e | _, store⟩
      · simp only [hx]
        exact ⟨rfl, hadd.of_error hx⟩
      · simp only [hx]
        obtain ⟨hgood, cs, hcs, hrest⟩ := hadd.of_ok hx
        exact ⟨rfl, hgood, cs, ⟨_, by simp [Call.record?, hdigest, hid], hcs⟩, hrest⟩

/-- Cleaning up takes archives away after the versions are gone, and only of these. -/
theorem clean_eq (project bound : Int32) (r : Registry σ) :
    clean project bound r =
      match Store.clean project bound r.store with
      | (.ok removed, store) =>
        (.ok removed, removed.foldl (fun r v => r.discard v.resourceId) { r with store })
      | (.error e, store) => (.error e, { r with store }) := by
  unfold clean
  rw [Step.bind_apply, onStore_apply]
  rcases Store.clean project bound r.store with ⟨e | removed, store⟩ <;> rfl

theorem journals_clean (hV : V.Lawful) (hr : V.Good r.store) (project bound : Int32) :
    Journals V r (fun _ cs => cs = [.clean project bound]) (clean project bound r) := by
  have hclean := hV.clean hr r.limits project bound
  rw [clean_eq]
  rcases hx : Store.clean project bound r.store with ⟨e | removed, store⟩
  · exact ⟨rfl, hclean.of_error hx⟩
  · obtain ⟨hstore, hlimits⟩ := foldl_discard removed { r with store }
    obtain ⟨hgood, hchanges⟩ := hclean.of_ok hx
    exact ⟨hlimits, by rw [hstore]; exact ⟨hgood, hchanges⟩⟩

/-! ## Sweeps -/

/-- Sweeping a project cleans up below a threshold, if there is one, and posts what went. -/
theorem sweepProject_eq (now : Time.Instant) (retained : Nat) (p : Project) (r : Registry σ) :
    sweepProject now retained p r =
      match Store.versions p.id r.store with
      | .error e => (.error e, r)
      | .ok versions =>
        match (newest? versions).bind (threshold? retained) with
        | none => (.ok 0, r)
        | some threshold =>
          match clean p.id threshold r with
          | (.error e, r) => (.error e, r)
          | (.ok removed, r) =>
            if removed.isEmpty then (.ok 0, r)
            else
              (.ok removed.length,
                { r with
                  store := (Store.postEvent now p .purge sweeper (purgeMessage removed threshold)
                    r.store).2 }) := by
  unfold sweepProject
  rw [Step.bind_apply, ask_apply]
  cases Store.versions p.id r.store with
  | error e => rfl
  | ok versions =>
    cases hthreshold : (newest? versions).bind (threshold? retained) with
    | none => simp only [hthreshold, Step.pure_apply]
    | some threshold =>
      simp only [hthreshold]
      rcases hx : clean p.id threshold r with ⟨e | removed, r'⟩
      · exact Step.bind_error hx
      · refine (Step.bind_ok hx).trans ?_
        simp only
        cases removed.isEmpty with
        | true => rfl
        | false => rfl

theorem becomes_postEvent (hV : V.Lawful) (hr : V.Good r.store) (now : Time.Instant) (p : Project)
    (kind : EventKind) (user message : String) :
    Becomes V Change.IsUpkeep r
      { r with store := (Store.postEvent now p kind user message r.store).2 } := by
  have hpost := hV.postEvent hr r.limits now p kind user message
  obtain ⟨hgood, cs, hcs, hrest⟩ := hpost.of_ok rfl
  refine ⟨rfl, hgood, cs, fun c hc => ?_, hrest⟩
  rw [hcs] at hc
  split at hc
  · rw [List.mem_singleton.1 hc]
    trivial
  · cases hc

theorem becomes_sweepProject (hV : V.Lawful) (hr : V.Good r.store) (now : Time.Instant)
    (retained : Nat) (p : Project) :
    Becomes V Change.IsUpkeep r (sweepProject now retained p r).2 := by
  rw [sweepProject_eq]
  cases Store.versions p.id r.store with
  | error e => exact .refl hr
  | ok versions =>
    cases hthreshold : (newest? versions).bind (threshold? retained) with
    | none =>
      simp only [hthreshold]
      exact .refl hr
    | some threshold =>
      have hcleaned : Becomes V Change.IsUpkeep r (clean p.id threshold r).2 := by
        refine (journals_clean hV hr p.id threshold).becomes hr ?_
        intro _ cs _ hcs
        simp [hcs, Change.IsUpkeep]
      simp only [hthreshold]
      rcases hx : clean p.id threshold r with ⟨e | removed, r'⟩
      · rw [hx] at hcleaned
        exact hcleaned
      · rw [hx] at hcleaned
        cases hempty : removed.isEmpty with
        | true =>
          simp only [hempty, if_true]
          exact hcleaned
        | false =>
          simp only [hempty, Bool.false_eq_true, if_false]
          exact hcleaned.trans (becomes_postEvent hV hcleaned.2.1 now p .purge sweeper _)

theorem becomes_sweepAll (hV : V.Lawful) (now : Time.Instant) (retained : Nat) (ps : List Project)
    {r : Registry σ} (hr : V.Good r.store) :
    Becomes V Change.IsUpkeep r (sweepAll now retained ps r).2 := by
  induction ps generalizing r with
  | nil => exact .refl hr
  | cons p rest ih =>
    have hstep := becomes_sweepProject hV hr now retained p
    unfold sweepAll
    rcases hx : sweepProject now retained p r with ⟨e | removed, r'⟩
    · rw [hx] at hstep
      exact hstep.trans (ih hstep.2.1)
    · rw [hx] at hstep
      exact hstep.trans (ih hstep.2.1)

/-- A sweep fails only where the active projects cannot be read. -/
theorem sweep_eq (now : Time.Instant) (retained : Nat) (r : Registry σ) :
    sweep now retained r =
      match Store.activeProjects r.store with
      | .error e => (.error e, r)
      | .ok projects =>
        (.ok (sweepAll now retained projects r).1, (sweepAll now retained projects r).2) := by
  cases hx : Store.activeProjects r.store with
  | error e =>
    have hask : ask Store.activeProjects r = (.error e, r) := by rw [ask_apply, hx]
    exact Step.bind_error hask
  | ok projects =>
    have hask : ask Store.activeProjects r = (.ok projects, r) := by rw [ask_apply, hx]
    exact Step.bind_ok hask

theorem journals_sweep (hV : V.Lawful) (hr : V.Good r.store) (now : Time.Instant) (retained : Nat) :
    Journals V r (fun _ cs => ∀ c ∈ cs, c.IsUpkeep) (sweep now retained r) := by
  rw [sweep_eq]
  cases Store.activeProjects r.store with
  | error e => exact ⟨rfl, rfl⟩
  | ok projects =>
    obtain ⟨hlimits, hgood, hchanges⟩ := becomes_sweepAll hV now retained projects hr
    exact ⟨hlimits, hgood, hchanges⟩

/-! ## Calls -/

theorem perform_postEvent (tick : Tick) (p : Project) (kind : EventKind) (user message : String)
    (r : Registry σ) :
    perform tick (.postEvent p kind user message) r =
      let o := Store.postEvent tick.now p kind user message r.store
      (.ok (.posted o.1), { r with store := o.2 }) := rfl

theorem perform_journals (hV : V.Lawful) (hr : V.Good r.store) (tick : Tick) (call : Call) :
    Journals V r (call.Makes r tick) (perform tick call r) := by
  cases call with
  | createProject name description creator =>
    exact (journals_onStore (hV.createProject hr r.limits tick.now name description creator)).map
      fun q _ h => ⟨q, rfl, h⟩
  | removeProject p user =>
    exact (journals_onStore (hV.removeProject hr r.limits tick.now p user)).map
      fun _ _ h => Plan.retire_ok h
  | describe p description user =>
    exact (journals_onStore (hV.describe hr r.limits tick.now p description user)).map
      fun _ _ h => h
  | configure p => exact (journals_onStore (hV.configure hr r.limits tick.now p)).map fun _ _ h => h
  | setRights p principal isGroup rights =>
    exact (journals_onStore (hV.setRights hr r.limits p principal isGroup rights)).map
      fun _ _ h => h
  | dropRights p principal isGroup =>
    exact (journals_onStore (hV.dropRights hr r.limits p principal isGroup)).map fun _ _ h => h
  | postEvent p kind user message =>
    have hpost := hV.postEvent hr r.limits tick.now p kind user message
    rcases hx : Store.postEvent tick.now p kind user message r.store with ⟨posted, store⟩
    rw [perform_postEvent, hx]
    simp only [hx] at hpost
    obtain ⟨hgood, cs, hcs, hrest⟩ := hpost.of_ok rfl
    refine ⟨rfl, hgood, cs, ?_, hrest⟩
    cases posted with
    | true => exact hcs
    | false => exact hcs
  | addVersion project number file uploader digest resourceId =>
    exact (journals_onStore (hV.addVersion hr r.limits _)).map fun _ _ h => ⟨_, rfl, h⟩
  | uploadFile project number file user =>
    exact (journals_uploadFile hV hr tick project number file user).map fun _ _ h => h
  | changeVersion p number user =>
    exact (journals_onStore (hV.changeVersion hr r.limits tick.now p number user)).map
      fun _ _ h => h
  | clean project bound => exact (journals_clean hV hr project bound).map fun _ _ h => h
  | putBundle p b => exact (journals_onStore (hV.putBundles hr r.limits p [b])).map fun _ _ h => h
  | putBundles p bs => exact (journals_onStore (hV.putBundles hr r.limits p bs)).map fun _ _ h => h
  | putFlow p number f =>
    exact (journals_onStore (hV.putFlows hr r.limits p number [f])).map fun _ _ h => h
  | putFlows p number fs =>
    exact (journals_onStore (hV.putFlows hr r.limits p number fs)).map fun _ _ h => h
  | updateFlow p number f =>
    exact (journals_onStore (hV.updateFlow hr r.limits p number f)).map fun _ _ h => h
  | sweep retained => exact (journals_sweep hV hr tick.now retained).map fun _ _ h => h
  | _ => exact journals_read hr fun _ => rfl

/-! ## Runs -/

@[simp] theorem after_nil (r : Registry σ) : r.after [] = r := rfl

@[simp] theorem after_cons (r : Registry σ) (c : Tick × Call) (calls : List (Tick × Call)) :
    r.after (c :: calls) = (perform c.1 c.2 r).2.after calls := rfl

theorem after_append (r : Registry σ) (calls later : List (Tick × Call)) :
    r.after (calls ++ later) = (r.after calls).after later :=
  List.foldl_append

theorem after_snoc (r : Registry σ) (calls : List (Tick × Call)) (tick : Tick) (call : Call) :
    r.after (calls ++ [(tick, call)]) = (perform tick call (r.after calls)).2 :=
  after_append r calls _

theorem becomes_perform (hV : V.Lawful) (hr : V.Good r.store) (tick : Tick) (call : Call) :
    Becomes V (fun _ => True) r (perform tick call r).2 :=
  (perform_journals hV hr tick call).becomes hr fun _ _ _ _ _ _ => trivial

/-- What a run does to a store is made of changes that fit. They are of a kind if those of all its
calls are. -/
theorem becomes_run (hV : V.Lawful) (hr : V.Good r.store) {P : Change → Prop}
    {calls : List (Tick × Call)}
    (hP : ∀ c ∈ calls, ∀ {r : Registry σ} {reply : Reply} {cs : List Change},
      c.2.Makes r c.1 reply cs → ∀ d ∈ cs, P d) : Becomes V P r (r.after calls) := by
  induction calls generalizing r with
  | nil => exact .refl hr
  | cons c rest ih =>
    have hstep : Becomes V P r (perform c.1 c.2 r).2 :=
      (perform_journals hV hr c.1 c.2).becomes hr fun _ _ _ hcs => hP c List.mem_cons_self hcs
    exact hstep.trans (ih hstep.2.1 fun d hd => hP d (List.mem_cons_of_mem c hd))

theorem becomes_after (hV : V.Lawful) (hr : V.Good r.store) (calls : List (Tick × Call)) :
    Becomes V (fun _ => True) r (r.after calls) :=
  becomes_run hV hr fun _ _ _ _ _ _ _ _ => trivial

theorem good_after (hV : V.Lawful) (hr : V.Good r.store) (calls : List (Tick × Call)) :
    V.Good (r.after calls).store :=
  (becomes_after hV hr calls).2.1

/-- All that an empty store holds after a run was put there by changes that fit. -/
theorem relations_after (hV : V.Lawful) (hr : V.Good r.store)
    (hempty : V.relations r.store = .empty) (calls : List (Tick × Call)) :
    ∃ cs, Change.AllFit V.M r.limits cs .empty ∧
      V.relations (r.after calls).store = Change.applyAll V.M cs .empty := by
  obtain ⟨-, -, cs, -, hfit, hrelations⟩ := becomes_after hV hr calls
  rw [hempty] at hfit hrelations
  exact ⟨cs, hfit, hrelations⟩

/-- What an empty store holds after a run was written down from live relations. -/
theorem live_after (hV : V.Lawful) (hr : V.Good r.store) (hempty : V.relations r.store = .empty)
    (calls : List (Tick × Call)) :
    ∃ l : Relations live, V.relations (r.after calls).store = l.write V.M := by
  obtain ⟨cs, -, hrelations⟩ := relations_after hV hr hempty calls
  exact ⟨_, hrelations.trans (Change.applyAll_write V.M cs .empty)⟩

/-! ## What answered calls come to -/

/-- What the calls of a run that were answered come to, in their order. -/
def answered (f : Call → Reply → Option α) (calls : List (Tick × Call))
    (answers : List (Except Failure Reply)) : List α :=
  (calls.zip answers).filterMap fun c =>
    match c.2 with
    | .ok reply => f c.1.2 reply
    | .error _ => none

theorem answered_cons_ok {f : Call → Reply → Option α} {c : Tick × Call} {reply : Reply}
    (h : perform c.1 c.2 r = (.ok reply, r')) (rest : List (Tick × Call)) :
    answered f (c :: rest) (r.answers (c :: rest)) =
      (f c.2 reply).toList ++ answered f rest (r'.answers rest) := by
  simp only [answered, answers, h, List.zip_cons_cons, List.filterMap_cons]
  cases f c.2 reply <;> rfl

theorem answered_cons_error {f : Call → Reply → Option α} {c : Tick × Call} {e : Failure}
    (h : perform c.1 c.2 r = (.error e, r')) (rest : List (Tick × Call)) :
    answered f (c :: rest) (r.answers (c :: rest)) = answered f rest (r'.answers rest) := by
  simp only [answered, answers, h, List.zip_cons_cons, List.filterMap_cons]

/-- What every answered call does to something that is read off the relations, a run does to it. -/
theorem foldl_answered (hV : V.Lawful) {β : Type} (f : Call → Reply → Option α) (g : β → α → β)
    (read : Relations V.C → β)
    (hstep : ∀ {r : Registry σ} {tick : Tick} {call : Call} {reply : Reply} {cs : List Change}
      {limits : Limits} {rs : Relations V.C}, call.Makes r tick reply cs →
      Change.AllFit V.M limits cs rs →
        read (Change.applyAll V.M cs rs) = (f call reply).toList.foldl g (read rs))
    (calls : List (Tick × Call)) {r : Registry σ} (hr : V.Good r.store) :
    read (V.relations (r.after calls).store) =
      (answered f calls (r.answers calls)).foldl g (read (V.relations r.store)) := by
  induction calls generalizing r with
  | nil => rfl
  | cons c rest ih =>
    rcases hx : perform c.1 c.2 r with ⟨e | reply, r'⟩
    · have hstore := ((perform_journals hV hr c.1 c.2).of_error hx).2
      rw [answered_cons_error hx, after_cons, hx, ← hstore]
      exact ih (hstore ▸ hr)
    · obtain ⟨_, hgood, cs, hcs, hfit, hrelations⟩ := (perform_journals hV hr c.1 c.2).of_ok hx
      rw [answered_cons_ok hx, after_cons, hx, List.foldl_append, ← hstep hcs hfit, ← hrelations]
      exact ih hgood

end Registry

end ProjectRegistry
