import ProjectRegistry.Proofs.Store.Cells
import ProjectRegistry.Proofs.Store.Plans
import ProjectRegistry.Proofs.Store.Steps
import ProjectRegistry.Store.Database

/-!
# A database does what is planned

Each transaction on an open database makes the changes of its plan, or fails as the plan does. There
is more that can fail here than in memory: the ids of events may be used up, and a cell that has to
be read may hold anything. What was written before a failure is taken back.
-/

namespace ProjectRegistry.Database

open Change (applyAll)

/-- The database after some changes. Each event takes a row id. -/
def commit (cs : List Change) (d : Database) : Database :=
  { d with
    relations := applyAll .cells cs d.relations
    eventSequence := d.eventSequence + (Change.logged cs).length }

/-- Whether there are row ids for what some changes log. -/
def canLog (d : Database) (cs : List Change) : Bool :=
  (Change.logged cs).isEmpty || decide (d.eventSequence < lastRowId)

def settle (d : Database) : Plan → Except Failure Unit × Database
  | .ok cs =>
    if d.canLog cs then (.ok (), d.commit cs) else (.error (.storage (.database .full)), d)
  | .error e => (.error e, d)

theorem commit_of_silent (d : Database) {cs : List Change} (h : Change.logged cs = []) :
    d.commit cs = { d with relations := applyAll .cells cs d.relations } := by
  simp [commit, h]

theorem settle_of_silent (d : Database) {cs : List Change} (h : Change.logged cs = []) :
    d.settle (.ok cs) = (.ok (), { d with relations := applyAll .cells cs d.relations }) := by
  simp [settle, canLog, commit, h]

variable {d : Database}

/-! ## Transactions -/

theorem transaction_apply {α : Type} (hopen : d.isOpen = true) (x : Step Database α) :
    transaction x d = x.allOrNone d := by
  simp [transaction, ready, Step.bind_apply, hopen]

theorem transaction_ok {α : Type} {x : Step Database α} {a : α} {d' : Database}
    (hopen : d.isOpen = true) (h : x d = (.ok a, d')) : transaction x d = (.ok a, d') := by
  rw [transaction_apply hopen, Step.allOrNone_ok h]

theorem transaction_error {α : Type} {x : Step Database α} {e : Failure} (hopen : d.isOpen = true)
    (h : (x d).1 = .error e) : transaction x d = (.error e, d) := by
  rw [transaction_apply hopen, Step.allOrNone_error (Prod.ext h rfl)]

theorem transaction_of_closed {α : Type} (hclosed : d.isOpen = false) (x : Step Database α) :
    transaction x d = (.error (.storage .closed), d) := by
  simp [transaction, ready, Step.bind_apply, hclosed]

theorem query_apply {α : Type} (hopen : d.isOpen = true) (q : Relations stored → Except Failure α) :
    query q d = q d.relations := by
  rw [query, if_pos hopen]

/-- Whatever a transaction fails with, it has changed nothing. -/
theorem atomic_transaction {α : Type} (x : Step Database α) : (transaction x).Atomic := by
  intro d e h
  cases hopen : d.isOpen with
  | true =>
    rw [transaction_apply hopen] at h ⊢
    exact x.atomic_allOrNone d e h
  | false => rw [transaction_of_closed hopen]

theorem transaction_select {α β : Type} (q : Relations stored → α) (f : α → Step Database β) :
    transaction (select q >>= f) d = transaction (f (q d.relations)) d := by
  cases hopen : d.isOpen with
  | true => rw [transaction_apply hopen, transaction_apply hopen]; rfl
  | false => rw [transaction_of_closed hopen, transaction_of_closed hopen]

/-! ## Statements -/

@[simp] theorem select_apply {α : Type} (q : Relations stored → α) :
    select q d = (.ok (q d.relations), d) :=
  rfl

@[simp] theorem changeRelations_apply (f : Relations stored → Relations stored) :
    changeRelations f d = (.ok (), { d with relations := f d.relations }) := rfl

theorem updateProject_hit {id : Int32} {condition : Relations stored → ProjectRow stored → Bool}
    (h : (d.relations.projects.find? id).any (condition d.relations) = true)
    (f : ProjectRow stored → ProjectRow stored) :
    updateProject id condition f d =
      (.ok 1, { d with
        relations := { d.relations with projects := d.relations.projects.modify id f } }) := by
  rw [updateProject, Step.bind_ok (select_apply _), if_pos h]
  rfl

theorem updateProject_miss {id : Int32} {condition : Relations stored → ProjectRow stored → Bool}
    (h : (d.relations.projects.find? id).any (condition d.relations) = false)
    (f : ProjectRow stored → ProjectRow stored) : updateProject id condition f d = (.ok 0, d) := by
  rw [updateProject, Step.bind_ok (select_apply _), if_neg (by simp [h])]
  rfl

theorem lockProject_apply (id : Int32) :
    lockProject id d =
      (if d.relations.projects.contains id then .ok () else .error (.noProject id), d) := rfl

theorem requireVersion_apply (p v : Int32) :
    requireVersion p v d =
      (if d.relations.hasVersion p v then .ok () else .error (.noVersion p v), d) := rfl

theorem insertEvent_apply (e : EventRow stored) :
    insertEvent e d =
      if d.eventSequence < lastRowId then
        (.ok (), { d with
          relations := { d.relations with events := d.relations.events ++ [e] }
          eventSequence := d.eventSequence + 1 })
      else (.error (.storage (.database .full)), d) := by
  simp only [insertEvent, Step.get_bind_apply]
  by_cases h : d.eventSequence < lastRowId
  · rw [decide_eq_true h, Step.require_true_bind, if_pos h]
    rfl
  · rw [decide_eq_false h, Step.require_false_bind, if_neg h]
    rfl

/-- A transaction that claims a project before anything else. -/
theorem transaction_lock (hopen : d.isOpen = true) {id : Int32} {x : Unit → Step Database Unit}
    {plan : Plan}
    (h : d.relations.projects.contains id = true → transaction (x ()) d = d.settle plan) :
    transaction (lockProject id >>= x) d = d.settle (Plan.ofProject d.relations id plan) := by
  rw [transaction_apply hopen] at h ⊢
  rw [Step.allOrNone, Step.bind_apply, lockProject_apply, Plan.ofProject]
  cases hid : d.relations.projects.contains id with
  | true => exact h hid
  | false => rfl

theorem transaction_requireVersion (hopen : d.isOpen = true) {p v : Int32}
    {x : Unit → Step Database Unit} {cs : List Change}
    (h : transaction (x ()) d = d.settle (.ok cs)) :
    transaction (requireVersion p v >>= x) d = d.settle (Plan.onVersion d.relations p v cs) := by
  rw [transaction_apply hopen] at h ⊢
  rw [Step.allOrNone, Step.bind_apply, requireVersion_apply, Plan.onVersion]
  cases hv : d.relations.hasVersion p v with
  | true => exact h
  | false => rfl

/-- A transaction that comes to the insertion of an event after everything else is changed. -/
theorem transaction_insertEvent (hopen : d.isOpen = true) {x : Step Database Unit}
    {r : Relations stored} {c : Change} {e : EventRow live}
    (hx : x d = insertEvent e.store { d with relations := r }) (hevents : c.events = [e])
    (hc : c.apply .cells d.relations = { r with events := r.events ++ [e.store] }) :
    transaction x d = d.settle (.ok [c]) := by
  have hlogged : Change.logged [c] = [e] := by simp [Change.logged, hevents]
  rw [transaction_apply hopen, Step.allOrNone, hx, insertEvent_apply]
  by_cases h : d.eventSequence < lastRowId
  · simp [settle, canLog, commit, hlogged, h, hc]
  · simp [settle, canLog, hlogged, h]

/-- A transaction that cannot fail and that the log does not tell of. -/
theorem transaction_silent (hopen : d.isOpen = true) {x : Step Database Unit} {c : Change}
    (hevents : c.events = [])
    (hx : x d = (.ok (), { d with relations := c.apply .cells d.relations })) :
    transaction x d = d.settle (.ok [c]) := by
  rw [transaction_ok hopen hx, settle_of_silent d (by simp [Change.logged, hevents])]
  rfl

theorem loadProject_eq (r : Relations stored) (id : Int32) (row : ProjectRow stored) :
    loadProject r id row = row.load.map fun p => p.toProject id (loadGrants r id) := by
  unfold loadProject
  cases row.load <;> rfl

theorem loadVersion_eq (p : Int32) (e : Int32 × VersionRow stored) :
    loadVersion p e = e.2.load.map fun row => row.toVersion p e.1 := by
  unfold loadVersion
  cases e.2.load <;> rfl

theorem loadVersion_store {p n : Int32} {row : VersionRow live} (h : row.uploadTime.OnCalendar) :
    loadVersion p (n, row.store) =
      .ok (VersionRow.toVersion { row with uploadTime := row.uploadTime.truncated } p n) := by
  simp only [loadVersion, VersionRow.load_store h]
  rfl

/-! ## Operations -/

/-- A transaction that changes the row of a project, which has to be there. -/
theorem transaction_update (hopen : d.isOpen = true) {id : Int32}
    {f : ProjectRow stored → ProjectRow stored} {x : Unit → Step Database Unit} {cs : List Change}
    (h : transaction
        (changeRelations (fun r => { r with projects := r.projects.modify id f }) >>= x) d =
      d.settle (.ok cs)) :
    transaction (updateProject id (fun _ _ => true) f >>= fun changed =>
        .require (decide (changed ≠ 0)) (.noProject id) >>= x) d =
      d.settle (Plan.onProject d.relations id cs) := by
  unfold Plan.onProject
  cases hid : d.relations.projects.contains id with
  | true =>
    obtain ⟨row, hrow⟩ := Table.contains_iff.1 hid
    rw [if_pos rfl, ← h, transaction_apply hopen, transaction_apply hopen, Step.allOrNone,
      Step.allOrNone, Step.bind_ok (updateProject_hit (by simp [hrow]) f)]
    rfl
  | false =>
    refine transaction_error hopen ?_
    rw [Step.bind_ok (updateProject_miss (by simp [Table.find?_eq_none_of_not_contains hid]) f)]
    rfl

theorem removeProject_eq (hopen : d.isOpen = true) (now : Time.Instant) (p : Project)
    (user : String) :
    removeProject now p user d = d.settle (Plan.retire now p user d.relations) := by
  unfold removeProject Plan.retire
  cases hfind : d.relations.projects.find? p.id with
  | none =>
    refine transaction_error hopen ?_
    rw [Step.bind_ok (updateProject_miss (by simp [hfind]) _), if_pos rfl, lockProject_apply,
      Table.contains, hfind]
    rfl
  | some held =>
    by_cases hactive : held.active = true
    · simp only [hactive, if_true]
      refine transaction_insertEvent hopen (Step.bind_ok (updateProject_hit ?_ _)) rfl rfl
      simp [hfind, hactive]
    · simp only [hactive]
      rw [settle_of_silent d rfl]
      refine transaction_ok hopen ?_
      rw [Step.bind_ok (updateProject_miss (by simpa [hfind] using hactive) _), if_pos rfl,
        lockProject_apply, Table.contains, hfind]
      rfl

theorem describe_eq (hopen : d.isOpen = true) (limits : Limits) (now : Time.Instant) (p : Project)
    (description user : String) :
    describe limits now p description user d =
      d.settle (Plan.describe limits now p description user d.relations) := by
  unfold describe Plan.describe
  cases limits.checkDescription description with
  | error e => rfl
  | ok _ =>
    refine transaction_update hopen ?_
    exact transaction_insertEvent hopen rfl rfl rfl

theorem configure_eq (hopen : d.isOpen = true) (now : Time.Instant) (p : Project) :
    configure now p d = d.settle (Plan.configure (some now) p d.relations) := by
  unfold configure
  -- the requirement at the end is followed by nothing
  conv in Step.require _ _ => rw [← Step.bind_pure' (Step.require _ _)]
  refine transaction_update hopen ?_
  refine transaction_silent hopen rfl ?_
  rw [Change.apply_of_silent _ rfl]
  rfl

theorem dropRights_eq (hopen : d.isOpen = true) (p : Project) (principal : String)
    (isGroup : Bool) :
    dropRights p principal isGroup d =
      d.settle (Plan.setRights p principal isGroup .none d.relations) := by
  refine transaction_lock hopen ?_
  intro _
  refine transaction_silent hopen rfl ?_
  rw [Change.apply_of_silent _ rfl]
  rfl

theorem setRights_eq (hopen : d.isOpen = true) (p : Project) (principal : String) (isGroup : Bool)
    (rights : Rights) :
    setRights p principal isGroup rights d =
      d.settle (Plan.setRights p principal isGroup rights d.relations) := by
  unfold setRights
  split
  · next hempty =>
    rw [dropRights_eq hopen, Plan.setRights, Plan.setRights, if_pos hempty, if_pos (by decide)]
  · next hsome =>
    rw [Plan.setRights, if_neg hsome]
    refine transaction_lock hopen ?_
    intro _
    refine transaction_silent hopen rfl ?_
    rw [Change.apply_of_silent _ rfl]
    rfl

/-- The event of a post is logged if there is a row id for it. -/
theorem postEvent_eq (hopen : d.isOpen = true) (now : Time.Instant) (p : Project) (kind : EventKind)
    (user message : String) :
    postEvent now p kind user message d =
      if d.eventSequence < lastRowId then (true, d.commit [.log ⟨p.id, kind, user, message, now⟩])
      else (false, d) := by
  have hlog : transaction (insertEvent (eventRow p.id kind user message now)) d =
      d.settle (.ok [.log ⟨p.id, kind, user, message, now⟩]) :=
        transaction_insertEvent hopen rfl rfl rfl
  rw [postEvent, hlog]
  by_cases h : d.eventSequence < lastRowId
  · simp [settle, canLog, h]
  · simp [settle, canLog, Change.logged, Change.events, h]

theorem readNumber_mark (h : d.relations.Sound .cells) (p : Int32) :
    readNumber .single (d.relations.markOf .cells p) =
      .ok (Int32.ofInt (d.relations.markOf .cells p)) := by
  obtain ⟨n, hn⟩ := h.mark p
  rw [hn, readNumber_toInt, Int32.ofInt_toInt]

theorem addVersion_eq (hopen : d.isOpen = true) (h : d.relations.Sound .cells) (v : Version) :
    addVersion v d = d.settle (Plan.addVersion .cells v d.relations) := by
  have hmark : ((d.relations.projects.find? v.project).map (·.lastVersion)).getD 0 =
      d.relations.markOf .cells v.project :=
    rfl
  have hnumber : (1 ≤ v.number ∧ Int32.ofInt (d.relations.markOf .cells v.project) < v.number) ↔
      (1 ≤ v.number.toInt ∧ d.relations.markOf .cells v.project < v.number.toInt) := by
    obtain ⟨n, hn⟩ := h.mark v.project
    rw [hn, Int32.ofInt_toInt, Int32.le_iff_toInt_le, Int32.lt_iff_toInt_lt]
    rfl
  unfold addVersion Plan.addVersion
  refine transaction_lock hopen ?_
  intro hid
  obtain ⟨row, hrow⟩ := Table.contains_iff.1 hid
  rw [transaction_select, hmark, readNumber_mark h, Step.lift_ok_bind, transaction_select]
  cases d.relations.hasVersion v.project v.number with
  | true => exact transaction_error hopen rfl
  | false =>
    simp only [Bool.not_false, Step.require_true_bind, Bool.false_eq_true, if_false, ← hnumber]
    by_cases hlater : 1 ≤ v.number ∧ Int32.ofInt (d.relations.markOf .cells v.project) < v.number
    · rw [decide_eq_true hlater, Step.require_true_bind, if_pos hlater]
      refine transaction_silent hopen rfl ?_
      have hfound (r : Relations stored) (h : r.projects = d.relations.projects) :
          (r.projects.find? v.project).any (fun _ => true) = true := by simp [h, hrow]
      rw [Change.apply_of_silent _ rfl, insertVersion, Step.bind_ok (changeRelations_apply _),
        Step.bind_ok (updateProject_hit (hfound _ rfl) _)]
      rfl
    · rw [decide_eq_false hlater, if_neg hlater]
      exact transaction_error hopen rfl

theorem changeVersion_eq (hopen : d.isOpen = true) (now : Time.Instant) (p : Project)
    (version : Int32) (user : String) :
    changeVersion now p version user d =
      d.settle (Plan.changeVersion now p version user d.relations) := by
  unfold changeVersion Plan.changeVersion Plan.ofProject Plan.onVersion
  cases hid : d.relations.projects.contains p.id with
  | false =>
    refine transaction_error hopen ?_
    have hmiss := Table.find?_eq_none_of_not_contains hid
    rw [Step.bind_ok (updateProject_miss (by simp [hmiss]) _), if_pos rfl, Step.bind_apply,
      lockProject_apply, hid]
    rfl
  | true =>
    obtain ⟨row, hrow⟩ := Table.contains_iff.1 hid
    cases hv : d.relations.hasVersion p.id version with
    | false =>
      refine transaction_error hopen ?_
      rw [Step.bind_ok (updateProject_miss (by simp [hv]) _), if_pos rfl, Step.bind_apply,
        lockProject_apply, hid]
      rfl
    | true =>
      refine transaction_insertEvent hopen (Step.bind_ok (updateProject_hit ?_ _)) rfl rfl
      simp [hrow, hv]

theorem forEach_upsertBundle (p v : Int32) (bundles : List Bundle) :
    forEach (upsertBundle p v) bundles d =
      (.ok (), { d with relations := { d.relations with
        bundles := bundles.foldl (fun t b => t.insert (p, v, b.path) b.properties.toText)
          d.relations.bundles } }) := by
  induction bundles generalizing d with
  | nil => rfl
  | cons b rest ih =>
    rw [forEach, upsertBundle, Step.bind_ok (changeRelations_apply _), ih]
    rfl

theorem forEach_upsertFlow (p v : Int32) (flows : List Flow) :
    forEach (upsertFlow p v) flows d =
      (.ok (), { d with relations := { d.relations with
        flows := flows.foldl (fun t f => t.insert (p, v, f.id) f.graph.toText)
          d.relations.flows } }) := by
  induction flows generalizing d with
  | nil => rfl
  | cons f rest ih =>
    rw [forEach, upsertFlow, Step.bind_ok (changeRelations_apply _), ih]
    rfl

/-- Unlike memory, a database looks for the project first. -/
theorem putFlows_eq (hopen : d.isOpen = true) (p : Project) (version : Int32) (flows : List Flow) :
    putFlows p version flows d =
      d.settle (Plan.ofProject d.relations p.id (Plan.putFlows p version flows d.relations)) := by
  refine transaction_lock hopen ?_
  intro _
  refine transaction_requireVersion hopen ?_
  refine transaction_silent hopen rfl ?_
  rw [forEach_upsertFlow, Change.apply_of_silent _ rfl]
  simp only [Change.onFlows, Table.insertAll, List.foldl_map]
  rfl

/-- Unlike memory, a database looks for the project first. -/
theorem putBundles_eq (hopen : d.isOpen = true) {p : Project} {version : Int32}
    (h : p.target = .ok version) (bundles : List Bundle) :
    putBundles p bundles d =
      d.settle (Plan.ofProject d.relations p.id (Plan.putBundles p bundles d.relations)) := by
  rw [putBundles, h, Step.lift_ok_bind, Plan.putBundles, h]
  refine transaction_lock hopen ?_
  intro _
  refine transaction_requireVersion hopen ?_
  refine transaction_silent hopen rfl ?_
  rw [forEach_upsertBundle, Change.apply_of_silent _ rfl]
  simp only [Change.onBundles, Table.insertAll, List.foldl_map]
  rfl

theorem putBundles_of_no_target {p : Project} {e : Failure} (h : p.target = .error e)
    (bundles : List Bundle) :
    putBundles p bundles d = (.error e, d) := by
  rw [putBundles, h]
  rfl

theorem updateFlow_eq (hopen : d.isOpen = true) (p : Project) (version : Int32) (f : Flow) :
    updateFlow p version f d = d.settle (Plan.updateFlow p version f d.relations) := by
  unfold updateFlow Plan.updateFlow
  cases hf : d.relations.flows.contains (p.id, version, f.id) with
  | false =>
    refine transaction_error hopen ?_
    simp only [updateGraph, Step.bind_apply, select_apply, hf]
    rfl
  | true =>
    refine transaction_silent hopen rfl ?_
    simp only [updateGraph, Step.bind_apply, select_apply, hf]
    rw [Change.apply_of_silent _ rfl]
    rfl

/-! ## Cleaning up -/

/-- Without a pointer, 0 is kept, which is the number of no version. -/
theorem readPointer (h : d.relations.Sound .cells) (project bound : Int32) :
    ∃ pointer, readNumber? .single ((d.relations.projects.find? project).bind (·.pointer)) =
      .ok pointer ∧
      ∀ p v, d.relations.hasVersion p v = true →
        isSuperseded project bound (pointer.getD 0) p v =
          (decide (p = project) && d.relations.isDoomed .cells project bound v) := by
  have hpointer : (d.relations.projects.find? project).bind (·.pointer) =
      d.relations.pointerOf .cells project := by
    rw [Relations.pointerOf]
    cases d.relations.projects.find? project <;> simp [Medium.cells]
  rw [hpointer]
  cases hp : d.relations.pointerOf .cells project with
  | none =>
    refine ⟨none, rfl, fun p v hv => ?_⟩
    have hzero : v ≠ 0 := fun he => h.toInt_ne_zero hv (by rw [he]; rfl)
    simp [isSuperseded, Relations.isDoomed, hp, hzero]
  | some n =>
    obtain ⟨w, rfl, _⟩ := h.pointer_some hp
    refine ⟨some w, by rw [readNumber?, readNumber_toInt], fun p v _ => ?_⟩
    simp [isSuperseded, Relations.isDoomed, hp, Int32.toInt_inj, eq_comm]

theorem clean_eq (hopen : d.isOpen = true) (h : d.relations.Sound .cells) (project bound : Int32) :
    clean project bound d =
      match Plan.clean project bound d.relations with
      | .error e => (.error e, d)
      | .ok cs =>
        match loadAll (loadVersion project) (d.relations.doomedOf .cells project bound) with
        | .error e => (.error e, d)
        | .ok removed => (.ok removed, d.commit cs) := by
  obtain ⟨pointer, hread, hdoomed⟩ := readPointer h project bound
  unfold clean Plan.clean Plan.onProject
  rw [transaction_apply hopen, Step.allOrNone, Step.bind_apply, lockProject_apply]
  cases hid : d.relations.projects.contains project with
  | false => rfl
  | true =>
    have hrows : ((d.relations.versionsOf project).filter fun v =>
        isSuperseded project bound (pointer.getD 0) project
          v.1) = d.relations.doomedOf .cells project bound := by
      apply List.filter_congr
      intro v hv
      have hfind := Relations.mem_versionsOf_iff.1 hv
      rw [hdoomed project v.1 (Table.contains_of_find? hfind), decide_eq_true rfl, Bool.true_and]
    have hversions := Table.filterKeys_congr (t := d.relations.versions)
      (fun k hk => congrArg (!·) (hdoomed k.1 k.2 hk))
    have hbundles := Table.filterKeys_congr (t := d.relations.bundles)
      (fun k hk => congrArg (!·) (hdoomed k.1 k.2.1 (h.bundle hk)))
    have hflows := Table.filterKeys_congr (t := d.relations.flows)
      (fun k hk => congrArg (!·) (hdoomed k.1 k.2.1 (h.flow hk)))
    simp only [Step.bind_apply, select_apply, Step.lift_apply, hread, hrows, if_true]
    cases loadAll (loadVersion project) (d.relations.doomedOf .cells project bound) with
    | error e => rfl
    | ok removed =>
      simp only [deleteBundlesBelow, deleteFlowsBelow, deleteVersionsBelow, changeRelations_apply,
        Step.pure_apply, hversions, hbundles, hflows]
      rw [commit_of_silent d rfl, Change.applyAll_cons, Change.applyAll_nil,
        Change.apply_of_silent _ rfl]
      rfl

/-! ## Creating a project -/

/-- The last id that was given to a project, or 0. -/
def lastProject (d : Database) : Int := d.projectSequence.getD 0

/-- Ids of projects are given out in order: none is above the last one, which fits in 32 bits. -/
structure Ordered (d : Database) : Prop where
  nonneg : 0 ≤ d.lastProject
  fits : d.lastProject ≤ Int32.maxValue.toInt
  last {p : Int32} : d.relations.projects.contains p = true → p.toInt ≤ d.lastProject

theorem Ordered.nextProjectId_eq (h : d.Ordered) : d.nextProjectId = d.lastProject + 1 := by
  have hlargest : (d.relations.projects.keys.getLast?.map Int32.toInt).getD 0 ≤ d.lastProject := by
    cases hkeys : d.relations.projects.keys.getLast? with
    | none => exact h.nonneg
    | some p => exact h.last (Table.mem_keys_iff.1 (List.mem_of_getLast? hkeys))
  simp only [nextProjectId, lastProject] at hlargest ⊢
  omega

theorem Ordered.insertProject_eq (h : d.Ordered) (p : ProjectRow stored) :
    insertProject p d =
      if d.relations.holdsName p.name then (.error (.duplicateName p.name), d)
      else if d.lastProject = Int32.maxValue.toInt then (.error (.storage .idOutOfRange), d)
      else
        (.ok (Int32.ofInt (d.lastProject + 1)), { d with
          relations := { d.relations with
            projects := d.relations.projects.insert (Int32.ofInt (d.lastProject + 1)) p }
          projectSequence := some (d.lastProject + 1) }) := by
  have hfits := h.fits
  have hsequence : d.projectSequence ≠ some lastRowId := by
    intro he
    rw [lastProject, he] at hfits
    exact absurd hfits (by decide)
  rw [insertProject, Step.get_bind_apply, decide_eq_true hsequence, Step.require_true_bind]
  cases d.relations.holdsName p.name with
  | true => rfl
  | false =>
    rw [Bool.not_false, Step.require_true_bind, h.nextProjectId_eq, if_neg (by simp)]
    by_cases hlast : d.lastProject = Int32.maxValue.toInt
    · rw [if_pos hlast, decide_eq_false (by omega)]
      rfl
    · rw [if_neg hlast, decide_eq_true (by omega)]
      rfl

def commitNew (cs : List Change) (d : Database) : Database :=
  { d.commit cs with projectSequence := some (d.lastProject + 1) }

theorem commitNew_create {id : Int32} {name description creator : String} {now : Time.Instant} :
    d.commitNew [.create id name description creator now] =
      { d with
        relations := { d.relations with
          projects :=
            d.relations.projects.insert id (ProjectRow.new name description creator now).store
          grants := d.relations.grants.insert (id, false, creator) Rights.admin.stored
          events := d.relations.events ++ [eventRow id .created creator (createdMessage name) now] }
        projectSequence := some (d.lastProject + 1)
        eventSequence := d.eventSequence + 1 } := rfl

theorem createProject_eq (hopen : d.isOpen = true) (h : d.Ordered) (limits : Limits)
    (now : Time.Instant) (name description creator : String) :
    createProject limits now name description creator d =
      match Plan.create limits now name description creator (Int32.ofInt (d.lastProject + 1))
        d.relations with
      | .error e => (.error e, d)
      | .ok cs =>
        if d.lastProject = Int32.maxValue.toInt then (.error (.storage .idOutOfRange), d)
        else if d.eventSequence < lastRowId then
          match projectById (Int32.ofInt (d.lastProject + 1)) (d.commitNew cs) with
          | .error e => (.error e, d)
          | .ok p => (.ok p, d.commitNew cs)
        else (.error (.storage (.database .full)), d) := by
  unfold createProject Plan.create
  cases limits.checkName name with
  | error e => rfl
  | ok _ =>
    cases limits.checkDescription description with
    | error e => rfl
    | ok _ =>
      rw [Step.lift_ok_bind, Step.lift_ok_bind, transaction_apply hopen, Step.allOrNone,
        Step.bind_apply, h.insertProject_eq]
      have hname : (ProjectRow.new name description creator now).store.name = name := rfl
      rw [hname]
      cases d.relations.holdsName name with
      | true => rfl
      | false =>
        by_cases hlast : d.lastProject = Int32.maxValue.toInt
        · simp [hlast]
        · simp only [hlast, Bool.false_eq_true, if_false, Step.bind_apply, upsertGrant,
            changeRelations_apply, insertEvent_apply]
          by_cases hroom : d.eventSequence < lastRowId
          · simp only [hroom, if_true, Step.read_apply]
            rw [← commitNew_create]
            cases projectById (Int32.ofInt (d.lastProject + 1)) (d.commitNew _) <;> rfl
          · simp only [hroom, if_false]

end ProjectRegistry.Database
