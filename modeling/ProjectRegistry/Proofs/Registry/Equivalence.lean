import ProjectRegistry.Proofs.Registry.Integrity
import ProjectRegistry.Proofs.Registry.Twins

/-!
# Memory and databases answer alike

One and the same run of calls is made of a registry in memory and of one over a database, each by
its own clock. From empty stores, all answers are the same apart from times, with the one exception
of uploads to projects that are not there, where memory misses the version and a database the
project.

Clocks must not go back, or the logs are not read in the same order. What is to be stored must be
readable from a stored text, and a database must have row ids for all that memory holds in the end.
-/

namespace ProjectRegistry

open Time (Instant)

/-! ## Runs in pairs -/

/-- A call that is made of two registries, of each at its own time. -/
structure Turn where
  call : Call
  fresh : Uuid
  now : Instant
  now' : Instant

namespace Turn

def inMemory (t : Turn) : Tick × Call := (⟨t.now, t.fresh⟩, t.call)

def inDatabase (t : Turn) : Tick × Call := (⟨t.now', t.fresh⟩, t.call)

end Turn

/-- Times of a clock that does not go back. -/
structure Chronological (times : List Instant) : Prop where
  ordinary : ∀ t ∈ times, t.Ordinary
  inOrder : times.Pairwise fun s t => s.atMost t = true

instance (times : List Instant) : Decidable (Chronological times) :=
  decidable_of_iff ((∀ t ∈ times, t.Ordinary) ∧ times.Pairwise fun s t => s.atMost t = true)
    ⟨fun h => ⟨h.1, h.2⟩, fun h => ⟨h.ordinary, h.inOrder⟩⟩

namespace Call

/-- Whether all values that a call is to store can be read back from a text. -/
def Storable : Call → Prop
  | .configure p => p.settings.Exact ∧ p.settings.Shallow
  | .putFlow _ _ f | .updateFlow _ _ f => f.graph.Readable
  | .putFlows _ _ fs => ∀ f ∈ fs, f.graph.Readable
  | _ => True

/-- The project and the version that an upload of bundles or flows is for. -/
def upload? : Call → Option (Int32 × Int32)
  | .putBundle p _ | .putBundles p _ => p.version.map fun v => (p.id, v)
  | .putFlow p v _ | .putFlows p v _ => some (p.id, v)
  | _ => none

theorem upload?_eq {p : Project} {version : Int32} (htarget : p.target = .ok version) :
    (p.version.map fun v => (p.id, v)) = some (p.id, version) := by
  unfold Project.target at htarget
  split at htarget
  · next v hv =>
    rw [hv]
    exact congrArg (fun v => some (p.id, v)) (Except.ok.inj htarget)
  · cases htarget

/-- Whether a memory and a database give answers to a call that agree. An upload to a project that
is not there is told apart. -/
def Agree (m : Memory) (call : Call) (answer answer' : Except Failure Reply) : Prop :=
  match call.upload? with
  | some (p, v) =>
    if m.relations.projects.contains p then answer.map Reply.timeless = answer'.map Reply.timeless
    else answer = .error (.noVersion p v) ∧ answer' = .error (.noProject p)
  | none => answer.map Reply.timeless = answer'.map Reply.timeless

end Call

namespace Registry

variable {now now' : Instant} {r : Registry Memory} {r' : Registry Database}

/-! ## Calls -/

theorem perform_match (h : AreTwins now now' r r') (fresh : Uuid) {call : Call}
    (hstorable : call.Storable) (hroom : (perform ⟨now, fresh⟩ call r).2.store.FitsRowIds)
    (hupload : ∀ p v, call.upload? = some (p, v) → r.store.relations.projects.contains p = true) :
    Match now now' Reply.timeless (perform ⟨now, fresh⟩ call r)
      (perform ⟨now', fresh⟩ call r') := by
  cases call with
  | activeProjects =>
    exact (h.ask (List.map Project.timeless) fun l hl => hl.activeProjects).map .projects
      fun _ => rfl
  | projectById id =>
    exact (h.ask Project.timeless fun l hl => hl.projectById id).map .project fun _ => rfl
  | projectByName name =>
    exact (h.ask Project.timeless fun l hl => hl.projectByName name).map .project fun _ => rfl
  | grants project =>
    exact (h.ask id fun l hl => congrArg (Except.map id) (hl.grants project)).map .grants
      fun _ => rfl
  | events p limit offset =>
    have hfits : r.store.FitsRowIds := hroom
    exact (h.ask (List.map Event.timeless) fun l hl => hl.page hfits p limit offset).map .events
      fun _ => rfl
  | version project number =>
    have hquery : Match now now' (Option.map VersionFile.timeless)
        (Step.read (Registry.version? project number) r)
          (Step.read (Registry.version? project number) r') :=
      ⟨h.version? project number, h⟩
    exact hquery.map .version fun _ => rfl
  | uploadedFile project number =>
    have hquery : Match now now' VersionFile.timeless
        (Step.read (Registry.uploadedFile project number) r)
          (Step.read (Registry.uploadedFile project number) r') :=
      ⟨h.uploadedFile project number, h⟩
    exact hquery.map .file fun _ => rfl
  | currentVersion p =>
    exact (h.ask id fun l hl => congrArg (Except.map id) (hl.currentVersion? p)).map .number
      fun _ => rfl
  | versions project =>
    exact (h.ask (List.map Version.timeless) fun l hl => hl.versions project).map .versions
      fun _ => rfl
  | bundle p path =>
    exact (h.ask id fun l hl => congrArg (Except.map id) (hl.bundle p path)).map .bundle
      fun _ => rfl
  | bundleAt project version path =>
    exact (h.ask id fun l hl => congrArg (Except.map id) (hl.bundleAt project version path)).map
      .bundle fun _ => rfl
  | bundles project version =>
    exact (h.ask id fun l hl => congrArg (Except.map id) (hl.bundles project version)).map .bundles
      fun _ => rfl
  | flow p name =>
    exact (h.ask id fun l hl => congrArg (Except.map id) (hl.flow p name)).map .flow fun _ => rfl
  | flows p =>
    exact (h.ask id fun l hl => congrArg (Except.map id) (hl.flows p)).map .flows fun _ => rfl
  | createProject name description creator =>
    refine h.perform .project (fun _ => rfl) (fun l hl => ?_) hroom
    rw [← h.limits]
    exact hl.createProject r.limits name description creator
  | removeProject p user => exact h.settle (fun l hl => hl.removeProject p user) hroom
  | describe p description user =>
    refine h.settle (fun l hl => ?_) hroom
    rw [← h.limits]
    exact hl.describe r.limits p description user
  | configure p =>
    exact h.settle (fun l hl => hl.configure hstorable.1 hstorable.2) hroom
  | setRights p principal isGroup rights =>
    exact h.settle (fun l hl => hl.setRights p principal isGroup rights) hroom
  | dropRights p principal isGroup =>
    exact h.settle (fun l hl => hl.dropRights p principal isGroup) hroom
  | changeVersion p version user =>
    exact h.settle (fun l hl => hl.changeVersion p version user) hroom
  | addVersion project number file uploader digest resourceId =>
    exact h.settle (fun l hl => hl.addVersion rfl rfl rfl) hroom
  | updateFlow p version f => exact h.settle (fun l hl => hl.updateFlow p version hstorable) hroom
  | putFlow p version f =>
    have hflows : ∀ g ∈ [f], g.graph.Readable := by
      intro g hg
      rw [List.mem_singleton.1 hg]
      exact hstorable
    exact h.settle (fun l hl => hl.putFlows (hupload p.id version rfl) version hflows) hroom
  | putFlows p version fs =>
    exact h.settle (fun l hl => hl.putFlows (hupload p.id version rfl) version hstorable) hroom
  | putBundle p b =>
    exact h.settle (fun l hl => hl.putBundles [b] fun v hv => hupload p.id v (Call.upload?_eq hv))
      hroom
  | putBundles p bs =>
    exact h.settle (fun l hl => hl.putBundles bs fun v hv => hupload p.id v (Call.upload?_eq hv))
      hroom
  | postEvent p kind user message =>
    obtain ⟨l, hl⟩ := h.stores
    obtain ⟨hposted, htwins⟩ := hl.postEvent (p := p) rfl kind user message hroom
    exact ⟨congrArg (fun posted => Except.ok (Reply.posted posted)) hposted, h.limits, h.artifacts,
      h.files, htwins⟩
  | clean project bound => exact (h.clean project bound).map .versions fun _ => rfl
  | uploadFile project number file user =>
    have hfits : (Registry.uploadFile ⟨now, fresh⟩ project number file user
        r).2.store.FitsRowIds := by
      rw [perform, Step.map_apply] at hroom
      exact hroom
    exact (h.uploadFile fresh project number file user hfits).map (fun _ => .done) fun _ => rfl
  | sweep retained =>
    have hfits : (Registry.sweep now retained r).2.store.FitsRowIds := by
      rw [perform, Step.map_apply] at hroom
      exact hroom
    exact (h.sweep retained hfits).map .swept fun _ => rfl

theorem AreTwins.perform_of_no_project (h : AreTwins now now' r r') (fresh : Uuid) {call : Call}
    {p v : Int32} (hupload : call.upload? = some (p, v))
    (hp : r.store.relations.projects.contains p = false) :
    Registry.perform ⟨now, fresh⟩ call r = (.error (.noVersion p v), r) ∧
      Registry.perform ⟨now', fresh⟩ call r' = (.error (.noProject p), r') := by
  obtain ⟨l, hl⟩ := h.stores
  cases call with
  | putFlow project version f =>
    cases hupload
    obtain ⟨hm, hd⟩ := hl.putFlows_of_no_project hp v [f]
    exact ⟨onStore_of_error hm, onStore_of_error hd⟩
  | putFlows project version fs =>
    cases hupload
    obtain ⟨hm, hd⟩ := hl.putFlows_of_no_project hp v fs
    exact ⟨onStore_of_error hm, onStore_of_error hd⟩
  | putBundle project b =>
    obtain ⟨w, hversion, hw⟩ := Option.map_eq_some_iff.1 hupload
    cases hw
    have htarget : project.target = .ok v := by rw [Project.target, hversion]
    obtain ⟨hm, hd⟩ := hl.putBundles_of_no_project hp htarget [b]
    exact ⟨onStore_of_error hm, onStore_of_error hd⟩
  | putBundles project bs =>
    obtain ⟨w, hversion, hw⟩ := Option.map_eq_some_iff.1 hupload
    cases hw
    have htarget : project.target = .ok v := by rw [Project.target, hversion]
    obtain ⟨hm, hd⟩ := hl.putBundles_of_no_project hp htarget bs
    exact ⟨onStore_of_error hm, onStore_of_error hd⟩
  | _ => cases hupload

/-- A call of twins is answered alike, and twins they stay. -/
theorem AreTwins.step (h : AreTwins now now' r r') (fresh : Uuid) {call : Call}
    (hstorable : call.Storable)
    (hroom : (Registry.perform ⟨now, fresh⟩ call r).2.store.FitsRowIds) :
    call.Agree r.store (Registry.perform ⟨now, fresh⟩ call r).1
      (Registry.perform ⟨now', fresh⟩ call r').1 ∧
      AreTwins now now' (Registry.perform ⟨now, fresh⟩ call r).2
        (Registry.perform ⟨now', fresh⟩ call r').2 := by
  unfold Call.Agree
  cases hupload : call.upload? with
  | none =>
    have hmatch :=
      perform_match h fresh hstorable hroom fun p v hpv => by cases hupload.symm.trans hpv
    exact ⟨hmatch.answers, hmatch.twins⟩
  | some target =>
    obtain ⟨p, v⟩ := target
    cases hp : r.store.relations.projects.contains p with
    | true =>
      have hmatch := perform_match h fresh hstorable hroom fun q w hqw => by
        cases hupload.symm.trans hqw
        exact hp
      exact ⟨by simpa [hp] using hmatch.answers, hmatch.twins⟩
    | false =>
      obtain ⟨hm, hd⟩ := h.perform_of_no_project fresh hupload hp
      rw [hm, hd]
      exact ⟨by simp [hp], h⟩

/-! ## Runs -/

/-- Two registries whose next turns find them as twins, at the times of these turns. -/
def Ready (turns : List Turn) (r : Registry Memory) (r' : Registry Database) : Prop :=
  ∀ t, turns.head? = some t → AreTwins t.now t.now' r r'

theorem AreTwins.ready {t : Turn} {rest : List Turn} (h : AreTwins t.now t.now' r r')
    (hclock : Chronological ((t :: rest).map Turn.now))
    (hclock' : Chronological ((t :: rest).map Turn.now')) :
    Ready rest r r' := by
  intro u hu
  have hmem : u ∈ rest := List.mem_of_head? hu
  have hnow := List.mem_map_of_mem (f := Turn.now) hmem
  have hnow' := List.mem_map_of_mem (f := Turn.now') hmem
  exact h.later (hclock.ordinary _ (List.mem_cons_of_mem _ hnow))
    (hclock'.ordinary _ (List.mem_cons_of_mem _ hnow'))
    ((List.pairwise_cons.1 hclock.inOrder).1 _ hnow)
      ((List.pairwise_cons.1 hclock'.inOrder).1 _ hnow')

theorem Ready.run {turns : List Turn} (h : Ready turns r r')
    (hclock : Chronological (turns.map Turn.now)) (hclock' : Chronological (turns.map Turn.now'))
    (hstorable : ∀ t ∈ turns, t.call.Storable) (hgood : Memory.view.Good r.store)
    (hroom : (r.after (turns.map Turn.inMemory)).store.FitsRowIds) {i : Nat} {t : Turn}
    (ht : turns[i]? = some t) :
    ∃ answer answer', (r.answers (turns.map Turn.inMemory))[i]? = some answer ∧
      (r'.answers (turns.map Turn.inDatabase))[i]? = some answer' ∧
      t.call.Agree (r.after ((turns.take i).map Turn.inMemory)).store answer answer' := by
  induction turns generalizing r r' i with
  | nil => cases ht
  | cons u rest ih =>
    have hperformed := becomes_perform Memory.lawful hgood u.inMemory.1 u.inMemory.2
    have hrest := becomes_after Memory.lawful hperformed.2.1 (rest.map Turn.inMemory)
    obtain ⟨hagree, htwins⟩ :=
      (h u rfl).step u.fresh (hstorable u List.mem_cons_self) (hrest.fitsRowIds hroom)
    cases i with
    | zero =>
      cases ht
      exact ⟨_, _, rfl, rfl, hagree⟩
    | succ i =>
      have hlater : Chronological (rest.map Turn.now) :=
        ⟨fun t ht => hclock.ordinary t (List.mem_cons_of_mem _ ht),
          (List.pairwise_cons.1 hclock.inOrder).2⟩
      have hlater' : Chronological (rest.map Turn.now') :=
        ⟨fun t ht => hclock'.ordinary t (List.mem_cons_of_mem _ ht),
          (List.pairwise_cons.1 hclock'.inOrder).2⟩
      exact ih (htwins.ready hclock hclock') hlater hlater'
        (fun t ht => hstorable t (List.mem_cons_of_mem u ht))
        hperformed.2.1 hroom ht

theorem ready_start (limits : Limits) (root : Files.Path) (files : Files.FileTree)
    {turns : List Turn} (hclock : Chronological (turns.map Turn.now))
    (hclock' : Chronological (turns.map Turn.now')) :
    Ready turns (.start limits root files Memory.empty)
      (.start limits root files Database.empty) := by
  intro t ht
  have hmem : t ∈ turns := List.mem_of_head? ht
  exact ⟨rfl, rfl, rfl, .empty, .empty (hclock.ordinary _ (List.mem_map_of_mem hmem))
    (hclock'.ordinary _ (List.mem_map_of_mem hmem))⟩

end Registry

/-- From empty stores, the answers to a run are the same in memory and in a database, call by call.
-/
theorem backends_answer_alike (limits : Limits) (root : Files.Path) (files : Files.FileTree)
    (turns : List Turn) (hclock : Chronological (turns.map Turn.now))
    (hclock' : Chronological (turns.map Turn.now')) (hstorable : ∀ t ∈ turns, t.call.Storable)
    (hroom : ((Registry.start limits root files Memory.empty).after
      (turns.map Turn.inMemory)).store.FitsRowIds)
    (i : Nat) (t : Turn) (ht : turns[i]? = some t) :
    ∃ answer answer',
      ((Registry.start limits root files Memory.empty).answers (turns.map Turn.inMemory))[i]? =
        some answer ∧
      ((Registry.start limits root files Database.empty).answers (turns.map Turn.inDatabase))[i]? =
        some answer' ∧
      t.call.Agree ((Registry.start limits root files Memory.empty).after
        ((turns.take i).map Turn.inMemory)).store
        answer answer' :=
  (Registry.ready_start limits root files hclock hclock').run hclock hclock' hstorable
    Memory.good_empty hroom ht

/-- An upload to a project that was never created, by clocks that differ. -/
def strayUpload : Turn :=
  ⟨.putFlow (.new 7 "gone" "" "ann" .epoch) 1 (.empty "main"), .ofNat 1, ⟨5, 1⟩, ⟨6, 0⟩⟩

def strayRun : List Turn :=
  [⟨.createProject "flows" "" "ann", .ofNat 0, ⟨0, 1⟩, ⟨0, 7⟩⟩, strayUpload]

theorem strayRun_answers :
    Chronological (strayRun.map Turn.now) ∧ Chronological (strayRun.map Turn.now') ∧
      (∀ t ∈ strayRun, t.call.Storable) ∧ strayRun[1]? = some strayUpload ∧
      ((Registry.start {} (.ofText "root") .empty Memory.empty).after
        (strayRun.map Turn.inMemory)).store.FitsRowIds ∧
      ((Registry.start {} (.ofText "root") .empty Memory.empty).answers
        (strayRun.map Turn.inMemory))[1]? =
        some (.error (.noVersion 7 1)) ∧
      ((Registry.start {} (.ofText "root") .empty Database.empty).answers
        (strayRun.map Turn.inDatabase))[1]? =
        some (.error (.noProject 7)) := by
  have hclock : Chronological (strayRun.map Turn.now) := by decide +kernel
  have hclock' : Chronological (strayRun.map Turn.now') := by decide +kernel
  have hstorable : ∀ t ∈ strayRun, t.call.Storable := by
    intro t ht
    rw [strayRun, List.mem_cons, List.mem_singleton] at ht
    rcases ht with rfl | rfl
    · trivial
    · exact Flow.readable_empty "main"
  have hroom : ((Registry.start {} (.ofText "root") .empty Memory.empty).after
      (strayRun.map Turn.inMemory)).store.FitsRowIds := by decide +kernel
  obtain ⟨answer, answer', hanswer, hanswer', hagree⟩ :=
    backends_answer_alike {} (.ofText "root") .empty strayRun hclock hclock' hstorable hroom 1
      strayUpload rfl
  obtain ⟨rfl, rfl⟩ := hagree
  exact ⟨hclock, hclock', hstorable, rfl, hroom, hanswer, hanswer'⟩

end ProjectRegistry
