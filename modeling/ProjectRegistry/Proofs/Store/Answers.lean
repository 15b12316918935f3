import ProjectRegistry.Proofs.Store.DatabaseJournal
import ProjectRegistry.Proofs.Store.MemoryJournal
import ProjectRegistry.Proofs.Store.Versions

/-!
# How stores answer

What a store answers is read off its relations. A reader says how live rows come back from columns
of a kind; in memory all of them do, in a database a cell may hold what cannot be read. With a
reader each answer is one equation, the same for both stores.

Where nothing is left to be done, an operation leaves the whole state as it was and not only its
relations.
-/

namespace ProjectRegistry

/-- How rows and texts in a kind of columns are read. -/
structure Reader (C : Columns) where
  project : ProjectRow C → Except Failure (ProjectRow live)
  version : VersionRow C → Except Failure (VersionRow live)
  properties : C.Properties → Except Failure Properties
  graph : C.Graph → Except Failure Json.Value

variable {C : Columns}

namespace Relations

variable (M : Medium C) (r : Relations C)

def actives : List (Int32 × ProjectRow C) := r.projects.entries.filter fun e => e.2.active

def isActive (p : Int32) : Bool := (r.projects.find? p).any (·.active)

def grantList (id : Int32) : List Grant :=
  (r.grantsOf id).map fun g => ⟨g.1.2, g.1.1, M.rightsOf g.2⟩

/-- The current version of a project. -/
def currentOf (p : Int32) : Option Int32 := (r.pointerOf M p).map Int32.ofInt

/-- An answer about the current version of a project, which has to have one. -/
def atCurrent {α : Type} (p : Int32) (answer : Int32 → Except Failure α) : Except Failure α :=
  if r.projects.contains p then
    match r.currentOf M p with
    | some v => answer v
    | none => .error (.noCurrentVersion p)
  else .error (.noProject p)

variable {M r}

theorem isActive_iff {p : Int32} : r.isActive p = true ↔ p ∈ r.actives.map (·.1) := by
  simp only [isActive, Option.any_eq_true, actives, List.mem_map, List.mem_filter, Prod.exists,
    ← Table.find?_eq_some_iff]
  constructor
  · rintro ⟨row, hrow, hactive⟩
    exact ⟨p, row, ⟨hrow, hactive⟩, rfl⟩
  · rintro ⟨q, row, ⟨hrow, hactive⟩, rfl⟩
    exact ⟨row, hrow, hactive⟩

theorem actives_nodup (r : Relations C) : (r.actives.map (·.1)).Nodup := by
  rw [List.Nodup, List.pairwise_map]
  exact (r.projects.ordered.filter _).imp Key.ne_of_before

end Relations

namespace Reader

def values : Reader live := ⟨.ok, .ok, .ok, .ok⟩

def cells : Reader stored := ⟨ProjectRow.load, VersionRow.load, readProperties, readGraph⟩

variable (R : Reader C) (r : Relations C)

def projects (M : Medium C) (es : List (Int32 × ProjectRow C)) : Except Failure (List Project) :=
  loadAll (fun e => (R.project e.2).map fun p => p.toProject e.1 (r.grantList M e.1)) es

def versions (p : Int32) (es : List (Int32 × VersionRow C)) : Except Failure (List Version) :=
  loadAll (fun e => (R.version e.2).map fun row => row.toVersion p e.1) es

def bundleAt (p v : Int32) (path : String) : Except Failure Bundle :=
  match r.bundles.find? (p, v, path) with
  | some properties => (R.properties properties).map fun properties => ⟨path, properties⟩
  | none => .error (.noBundle p v path)

def flowAt (p v : Int32) (id : String) : Except Failure Flow :=
  match r.flows.find? (p, v, id) with
  | some graph => (R.graph graph).map fun graph => ⟨id, graph⟩
  | none => .error (.noFlow p v id)

def flowsAt (p v : Int32) : Except Failure (List Flow) :=
  loadAll (fun f => (R.graph f.2).map fun graph => ⟨f.1, graph⟩) (r.flowsOf p v)

end Reader

/-! ## Reading rows -/

section LoadAll

variable {α β γ : Type} {load : α → Except Failure β} {as : List α} {bs : List β}

theorem exists_of_map_ok {x : Except Failure α} {f : α → β} {b : β} (h : x.map f = .ok b) :
    ∃ a, x = .ok a ∧ f a = b := by
  cases x with
  | error e => cases h
  | ok a => exact ⟨a, rfl, Except.ok.inj h⟩

theorem map_eq_ok_iff {x : Except Failure α} {f : α → β} (hf : Function.Injective f) {a : α} :
    x.map f = .ok (f a) ↔ x = .ok a := by
  constructor
  · intro h
    obtain ⟨b, hb, hsame⟩ := exists_of_map_ok h
    rw [hb, hf hsame]
  · rintro rfl
    rfl

theorem exists_of_bind_ok {x : Except Failure α} {f : α → Except Failure β} {b : β}
    (h : x >>= f = .ok b) : ∃ a, x = .ok a ∧ f a = .ok b := by
  cases x with
  | error e => cases h
  | ok a => exact ⟨a, rfl, h⟩

theorem loadAll_cons_ok {a : α} (h : loadAll load (a :: as) = .ok bs) :
    ∃ b cs, load a = .ok b ∧ loadAll load as = .ok cs ∧ bs = b :: cs := by
  rw [loadAll] at h
  cases ha : load a with
  | error e => simp [ha] at h
  | ok b =>
    cases hrest : loadAll load as with
    | error e => simp [ha, hrest] at h
    | ok cs =>
      simp only [ha, hrest, Except.ok.injEq] at h
      exact ⟨b, cs, rfl, rfl, h.symm⟩

/-- What reading keeps of each item, it keeps of a list. -/
theorem map_of_loadAll_ok {f : β → γ} {g : α → γ} (hload : ∀ a b, load a = .ok b → f b = g a)
    (h : loadAll load as = .ok bs) : bs.map f = as.map g := by
  induction as generalizing bs with
  | nil =>
    cases h
    rfl
  | cons a as ih =>
    obtain ⟨b, cs, ha, hrest, rfl⟩ := loadAll_cons_ok h
    rw [List.map_cons, List.map_cons, hload a b ha, ih hrest]

theorem exists_mem_of_loadAll_ok (h : loadAll load as = .ok bs) :
    ∀ a ∈ as, ∃ b ∈ bs, load a = .ok b := by
  induction as generalizing bs with
  | nil => simp
  | cons a as ih =>
    obtain ⟨b, cs, ha, hrest, rfl⟩ := loadAll_cons_ok h
    intro d hd
    rcases List.mem_cons.1 hd with rfl | hd
    · exact ⟨b, List.mem_cons_self, ha⟩
    · obtain ⟨c, hc, hload⟩ := ih hrest d hd
      exact ⟨c, List.mem_cons_of_mem b hc, hload⟩

theorem mem_of_loadAll_ok (h : loadAll load as = .ok bs) {b : β} (hb : b ∈ bs) :
    ∃ a ∈ as, load a = .ok b := by
  induction as generalizing bs with
  | nil =>
    cases h
    cases hb
  | cons a as ih =>
    obtain ⟨b', cs, ha, hrest, rfl⟩ := loadAll_cons_ok h
    rcases List.mem_cons.1 hb with rfl | hb
    · exact ⟨a, List.mem_cons_self, ha⟩
    · obtain ⟨d, hd, hload⟩ := ih hrest hb
      exact ⟨d, List.mem_cons_of_mem a hd, hload⟩

theorem exists_of_loadAll_ok (h : loadAll load as = .ok bs) : ∀ a ∈ as, ∃ b, load a = .ok b :=
  fun a ha => (exists_mem_of_loadAll_ok h a ha).imp fun _ hb => hb.2

theorem loadAll_eq_ok (h : ∀ a ∈ as, ∃ b, load a = .ok b) : ∃ bs, loadAll load as = .ok bs := by
  induction as with
  | nil => exact ⟨[], rfl⟩
  | cons a as ih =>
    obtain ⟨b, hb⟩ := h a List.mem_cons_self
    obtain ⟨bs, hbs⟩ := ih fun d hd => h d (List.mem_cons_of_mem a hd)
    exact ⟨b :: bs, by rw [loadAll, hb, hbs]⟩

/-- Where items cannot be read for one reason only, that is how reading the list fails. -/
theorem loadAll_cases {e : Failure} (hall : ∀ a ∈ as, (∃ b, load a = .ok b) ∨ load a = .error e) :
    (∃ bs, loadAll load as = .ok bs) ∨ loadAll load as = .error e := by
  induction as with
  | nil => exact .inl ⟨[], rfl⟩
  | cons a as ih =>
    rw [loadAll]
    rcases hall a List.mem_cons_self with ⟨b, hb⟩ | ha
    · rcases ih fun d hd => hall d (List.mem_cons_of_mem a hd) with ⟨bs, hbs⟩ | has
      · exact .inl ⟨b :: bs, by rw [hb, hbs]⟩
      · exact .inr (by rw [hb, has])
    · exact .inr (by rw [ha])

theorem loadAll_eq_error {e : Failure} (hall : ∀ a ∈ as, (∃ b, load a = .ok b) ∨ load a = .error e)
    {a : α} (ha : a ∈ as) (he : load a = .error e) : loadAll load as = .error e := by
  rcases loadAll_cases hall with ⟨bs, hbs⟩ | herror
  · obtain ⟨b, hb⟩ := exists_of_loadAll_ok hbs a ha
    cases he.symm.trans hb
  · exact herror

theorem loadAll_congr {load' : α → Except Failure β} (h : ∀ a ∈ as, load a = load' a) :
    loadAll load as = loadAll load' as := by
  induction as with
  | nil => rfl
  | cons a as ih =>
    rw [loadAll, loadAll, h a List.mem_cons_self, ih fun d hd => h d (List.mem_cons_of_mem a hd)]

end LoadAll

namespace Reader

variable {R : Reader C} {r : Relations C}

theorem numbers_of_versions {p : Int32} {es : List (Int32 × VersionRow C)} {vs : List Version}
    (h : R.versions p es = .ok vs) : vs.map Version.number = es.map (·.1) := by
  refine map_of_loadAll_ok (fun e v he => ?_) h
  obtain ⟨row, _, rfl⟩ := exists_of_map_ok he
  rfl

theorem ids_of_projects {M : Medium C} {es : List (Int32 × ProjectRow C)} {ps : List Project}
    (h : R.projects r M es = .ok ps) : ps.map Project.id = es.map (·.1) := by
  refine map_of_loadAll_ok (fun e p he => ?_) h
  obtain ⟨row, _, rfl⟩ := exists_of_map_ok he
  rfl

/-- Some of the rows can be read if all can. -/
theorem versions_filter {p : Int32} {es : List (Int32 × VersionRow C)} {vs : List Version}
    (h : R.versions p es = .ok vs) (keep : Int32 × VersionRow C → Bool) :
    ∃ ws, R.versions p (es.filter keep) = .ok ws :=
  loadAll_eq_ok fun e he => exists_of_loadAll_ok h e (List.mem_filter.1 he).1

end Reader

/-! ## Answers -/

variable {σ : Type} [Store σ]

/-- A store whose answers are read off its relations. -/
structure View.Answers (V : View σ) (R : Reader V.C) : Prop where
  activeProjects {s : σ} (hs : V.Good s) :
    Store.activeProjects s = R.projects (V.relations s) V.M (V.relations s).actives
  versions {s : σ} (hs : V.Good s) (p : Int32) :
    Store.versions p s = R.versions p ((V.relations s).versionsOf p)
  clean {s : σ} (hs : V.Good s) {p : Int32} (hp : (V.relations s).projects.contains p = true)
    (bound : Int32) :
    (Store.clean p bound s).1 = R.versions p ((V.relations s).doomedOf V.M p bound)
  clean_idle {s : σ} (hs : V.Good s) {p bound : Int32}
    (h : (V.relations s).doomedOf V.M p bound = []) : (Store.clean p bound s).2 = s
  removeProject_idle {s : σ} (hs : V.Good s) {p : Project} (now : Time.Instant) (user : String)
    (hp : (V.relations s).projects.contains p.id = true)
    (hretired : (V.relations s).isActive p.id = false) :
    Store.removeProject now p user s = (.ok (), s)
  currentVersion? {s : σ} (hs : V.Good s) (p : Project) :
    Store.currentVersion? p s =
      if (V.relations s).projects.contains p.id then .ok ((V.relations s).currentOf V.M p.id)
      else .error (.noProject p.id)
  bundle {s : σ} (hs : V.Good s) (p : Project) (path : String) :
    Store.bundle p path s =
      (V.relations s).atCurrent V.M p.id fun v => R.bundleAt (V.relations s) p.id v path
  flow {s : σ} (hs : V.Good s) (p : Project) (id : String) :
    Store.flow p id s =
      (V.relations s).atCurrent V.M p.id fun v => R.flowAt (V.relations s) p.id v id
  flows {s : σ} (hs : V.Good s) (p : Project) :
    Store.flows p s = (V.relations s).atCurrent V.M p.id fun v => R.flowsAt (V.relations s) p.id v
  putBundles {s : σ} (hs : V.Good s) {p : Project} {v : Int32} (htarget : p.target = .ok v)
    (hv : (V.relations s).hasVersion p.id v = true) (bundles : List Bundle) :
    (Store.putBundles p bundles s).1 = .ok ()

/-- What it takes for a store to log so many more events. Cleaning up takes nothing of it. -/
structure View.Logs (V : View σ) (Room : Nat → σ → Prop) : Prop where
  post {s : σ} {n : Nat} (hs : V.Good s) (hroom : Room (n + 1) s) (now : Time.Instant)
    (p : Project) (kind : EventKind) (user message : String) :
    (Store.postEvent now p kind user message s).1 = true ∧
      Room n (Store.postEvent now p kind user message s).2
  clean {s : σ} {n : Nat} (hs : V.Good s) (hroom : Room n s) (p bound : Int32) :
    Room n (Store.clean p bound s).2
  fewer {s : σ} {n : Nat} : Room (n + 1) s → Room n s

/-! ## Memory -/

namespace Memory

variable {m : Memory}

theorem currentOf_eq {p : Int32} {row : ProjectRow live}
    (h : m.relations.projects.find? p = some row) :
    m.relations.currentOf .values p = row.pointer := by
  simp only [Relations.currentOf, Relations.pointerOf, h, Option.bind_some]
  rcases row.pointer with _ | n <;> simp [Medium.values, Medium.ofTimes]

theorem atCurrent_eq {α : Type} (p : Int32) (answer : Int32 → Except Failure α) :
    m.relations.atCurrent .values p answer =
      match m.pointer p with
      | .error e => .error e
      | .ok v => answer v := by
  unfold Relations.atCurrent
  cases hp : m.relations.projects.contains p with
  | false =>
    rw [pointer, m.row_of_not_contains hp]
    rfl
  | true =>
    obtain ⟨row, hfind, hrow⟩ := m.row_of_contains hp
    rw [pointer, hrow, if_pos rfl, currentOf_eq hfind]
    rcases hpointer : row.pointer with _ | v <;> simp only [hpointer]

/-- Memory takes bundles for every version that is there. -/
theorem putBundles_of_hasVersion {p : Project} {v : Int32} (htarget : p.target = .ok v)
    (hv : m.relations.hasVersion p.id v = true) (bundles : List Bundle) :
    putBundles p bundles m =
      (.ok (), { m with
        relations := (Change.putBundles p.id v bundles).apply .values m.relations }) := by
  have hplan : Plan.putBundles p bundles m.relations = .ok [.putBundles p.id v bundles] := by
    rw [Plan.putBundles, htarget]
    exact if_pos hv
  rw [m.putBundles_eq, hplan]
  rfl

theorem answers : view.Answers .values where
  activeProjects _ := (loadAll_ok fun _ _ => rfl).symm
  versions _ _ := (loadAll_ok fun _ _ => rfl).symm
  clean {m} h p hp bound := by
    have hplan : Plan.clean p bound m.relations = .ok [.clean p bound] := if_pos hp
    show (Memory.clean p bound m).1 = _
    rw [m.clean_eq h.sound, hplan]
    exact (loadAll_ok fun _ _ => rfl).symm
  clean_idle {m} h p bound hidle := by
    show (Memory.clean p bound m).2 = m
    rw [m.clean_eq h.sound]
    cases hplan : Plan.clean p bound m.relations with
    | error e => rfl
    | ok cs =>
      obtain rfl := Plan.onProject_ok hplan
      have hsame : (Change.clean p bound).apply .values m.relations = m.relations :=
        Change.clean_apply_idle h.sound hidle
      simp only [commit_singleton, hsame]
  removeProject_idle {m} _ p now user hp hretired := by
    obtain ⟨row, hrow⟩ := Table.contains_iff.1 hp
    have hinactive : row.active = false := by
      have h : (m.relations.projects.find? p.id).any (·.active) = false := hretired
      rwa [show m.relations.projects.find? p.id = some row from hrow] at h
    show Memory.removeProject now p user m = _
    rw [m.removeProject_eq, Plan.retire, show m.relations.projects.find? p.id = some row from hrow]
    simp only [hinactive]
    rfl
  currentVersion? {m} _ p := by
    show Memory.currentVersion? p m =
      if m.relations.projects.contains p.id then .ok (m.relations.currentOf .values p.id)
      else .error (.noProject p.id)
    cases hp : m.relations.projects.contains p.id with
    | false =>
      rw [Memory.currentVersion?, m.row_of_not_contains hp]
      rfl
    | true =>
      obtain ⟨row, hfind, hrow⟩ := m.row_of_contains hp
      rw [Memory.currentVersion?, hrow, if_pos rfl, currentOf_eq hfind]
  bundle {m} _ p path := by
    refine Eq.trans ?_ (m.atCurrent_eq p.id _).symm
    show Memory.bundle p path m = _
    rw [Memory.bundle]
    cases m.pointer p.id with
    | error e => rfl
    | ok v =>
      simp only [Memory.bundleAt, Reader.bundleAt, Memory.view]
      cases m.relations.bundles.find? (p.id, v, path) <;> rfl
  flow {m} _ p id := by
    refine Eq.trans ?_ (m.atCurrent_eq p.id _).symm
    show Memory.flow p id m = _
    rw [Memory.flow]
    cases m.pointer p.id with
    | error e => rfl
    | ok v =>
      simp only [Reader.flowAt, Memory.view]
      cases m.relations.flows.find? (p.id, v, id) <;> rfl
  flows {m} _ p := by
    refine Eq.trans ?_ (m.atCurrent_eq p.id _).symm
    show Memory.flows p m = _
    rw [Memory.flows]
    cases m.pointer p.id with
    | error e => rfl
    | ok v => exact (loadAll_ok fun _ _ => rfl).symm
  putBundles _ _ _ htarget hv bundles :=
    congrArg Prod.fst (putBundles_of_hasVersion htarget hv bundles)

theorem logs : view.Logs fun _ _ => True where
  post _ _ _ _ _ _ _ := ⟨rfl, trivial⟩
  clean _ _ _ _ := trivial
  fewer _ := trivial

end Memory

/-! ## Databases -/

namespace Database

variable {d : Database}

theorem pointerOf_eq {p : Int32} {row : ProjectRow stored}
    (h : d.relations.projects.find? p = some row) :
    d.relations.pointerOf .cells p = row.pointer := by
  simp only [Relations.pointerOf, h, Option.bind_some, Medium.cells]
  exact congrFun Option.map_id row.pointer

/-- A pointer names a version, so its cell holds a number of 32 bits. -/
theorem readNumber?_pointer (h : d.relations.Sound .cells) (cell : Cell) (p : Int32) :
    readNumber? cell (d.relations.pointerOf .cells p) =
      .ok (d.relations.currentOf .cells p) := by
  rw [Relations.currentOf]
  cases hp : d.relations.pointerOf .cells p with
  | none => rfl
  | some n =>
    obtain ⟨v, rfl, _⟩ := h.pointer_some hp
    rw [readNumber?, readNumber_toInt, Option.map_some, Int32.ofInt_toInt]

theorem Good.currentVersion?_eq (h : d.Good) (p : Project) :
    currentVersion? p d =
      if d.relations.projects.contains p.id then .ok (d.relations.currentOf .cells p.id)
      else .error (.noProject p.id) := by
  rw [currentVersion?, query_apply h.isOpen, Table.contains]
  cases hp : d.relations.projects.find? p.id with
  | none => rfl
  | some row =>
    show readNumber? .single row.pointer = _
    rw [← pointerOf_eq hp]
    exact readNumber?_pointer h.sound .single p.id

theorem Good.atCurrent_eq (h : d.Good) {α : Type} (p : Project)
    (answer : Int32 → Except Failure α) :
    d.relations.atCurrent .cells p.id answer = (pointer p d >>= answer) := by
  rw [pointer, h.currentVersion?_eq, Relations.atCurrent]
  cases d.relations.projects.contains p.id with
  | false => rfl
  | true =>
    simp only [if_true]
    cases d.relations.currentOf .cells p.id <;> rfl

theorem Good.clean_idle (h : d.Good) {p bound : Int32}
    (hidle : d.relations.doomedOf .cells p bound = []) : (clean p bound d).2 = d := by
  rw [clean_eq h.isOpen h.sound, hidle]
  cases hplan : Plan.clean p bound d.relations with
  | error e => rfl
  | ok cs =>
    obtain rfl := Plan.onProject_ok hplan
    have hsame : (Change.clean p bound).apply .cells d.relations = d.relations :=
      Change.clean_apply_idle h.sound hidle
    have hsilent : Change.logged [.clean p bound] = [] := rfl
    simp only [loadAll, commit_of_silent d hsilent, Change.applyAll_cons, Change.applyAll_nil,
      hsame]

theorem Good.clean_fst (h : d.Good) {p : Int32}
    (hp : d.relations.projects.contains p = true) (bound : Int32) :
    (clean p bound d).1 = Reader.cells.versions p (d.relations.doomedOf .cells p bound) := by
  have hplan : Plan.clean p bound d.relations = .ok [.clean p bound] := if_pos hp
  have hload : Reader.cells.versions p (d.relations.doomedOf .cells p bound) =
      loadAll (loadVersion p) (d.relations.doomedOf .cells p bound) :=
    loadAll_congr fun e _ => (loadVersion_eq p e).symm
  rw [clean_eq h.isOpen h.sound, hplan, hload]
  simp only
  cases loadAll (loadVersion p) (d.relations.doomedOf .cells p bound) <;> rfl

theorem loadFlow_eq (f : String × String) :
    loadFlow f = (readGraph f.2).map fun graph => ⟨f.1, graph⟩ := by
  unfold loadFlow
  cases readGraph f.2 <;> rfl

theorem loadBundle_eq (b : String × String) :
    loadBundle b = (readProperties b.2).map fun properties => ⟨b.1, properties⟩ := by
  unfold loadBundle
  cases readProperties b.2 <;> rfl

/-- A database takes bundles for every version that is there. -/
theorem Good.putBundles_of_hasVersion (h : d.Good) {p : Project} {v : Int32}
    (htarget : p.target = .ok v) (hv : d.relations.hasVersion p.id v = true)
    (bundles : List Bundle) :
    putBundles p bundles d =
      (.ok (), { d with
        relations := (Change.putBundles p.id v bundles).apply .cells d.relations }) := by
  have hplan : Plan.ofProject d.relations p.id (Plan.putBundles p bundles d.relations) =
      .ok [.putBundles p.id v bundles] := by
    rw [Plan.ofProject, if_pos (h.sound.version hv).1, Plan.putBundles, htarget]
    exact if_pos hv
  rw [putBundles_eq h.isOpen htarget, hplan, settle_of_silent d rfl]
  rfl

theorem answers : view.Answers .cells where
  activeProjects {d} h := by
    show Database.activeProjects d = _
    rw [Database.activeProjects, query_apply h.isOpen]
    exact loadAll_congr fun e _ => loadProject_eq d.relations e.1 e.2
  versions {d} h p := by
    show Database.versions p d = _
    rw [Database.versions, query_apply h.isOpen]
    exact loadAll_congr fun e _ => loadVersion_eq p e
  clean h _ hp bound := h.clean_fst hp bound
  clean_idle h _ _ hidle := h.clean_idle hidle
  removeProject_idle {d} h p now user hp hretired := by
    obtain ⟨row, hrow⟩ := Table.contains_iff.1 hp
    have hrow : d.relations.projects.find? p.id = some row := hrow
    have hinactive : row.active = false := by
      have h : (d.relations.projects.find? p.id).any (·.active) = false := hretired
      rwa [hrow] at h
    show Database.removeProject now p user d = _
    rw [removeProject_eq h.isOpen, Plan.retire, hrow]
    simp only [hinactive]
    exact settle_of_silent d rfl
  currentVersion? h p := h.currentVersion?_eq p
  bundle {d} h p path := by
    refine Eq.trans ?_ (h.atCurrent_eq p _).symm
    show (pointer p d >>= fun v => Database.bundleAt p.id v path d) = _
    refine congrArg (pointer p d >>= ·) (funext fun v => ?_)
    rw [Database.bundleAt, query_apply h.isOpen]
    simp only [Reader.bundleAt, Database.view]
    cases d.relations.bundles.find? (p.id, v, path) with
    | none => rfl
    | some text => exact loadBundle_eq (path, text)
  flow {d} h p id := by
    refine Eq.trans ?_ (h.atCurrent_eq p _).symm
    show (pointer p d >>= fun v => query _ d) = _
    refine congrArg (pointer p d >>= ·) (funext fun v => ?_)
    rw [query_apply h.isOpen]
    simp only [Reader.flowAt, Database.view]
    cases d.relations.flows.find? (p.id, v, id) with
    | none => rfl
    | some text => exact loadFlow_eq (id, text)
  flows {d} h p := by
    refine Eq.trans ?_ (h.atCurrent_eq p _).symm
    show (pointer p d >>= fun v => query _ d) = _
    refine congrArg (pointer p d >>= ·) (funext fun v => ?_)
    rw [query_apply h.isOpen]
    exact loadAll_congr fun f _ => loadFlow_eq f
  putBundles h _ _ htarget hv bundles :=
    congrArg Prod.fst (h.putBundles_of_hasVersion htarget hv bundles)

/-- Whether there are row ids for so many more events. -/
def HasRoom (n : Nat) (d : Database) : Prop := d.eventSequence + n ≤ lastRowId

instance (n : Nat) (d : Database) : Decidable (d.HasRoom n) := inferInstanceAs (Decidable (_ ≤ _))

theorem eventSequence_clean (h : d.Good) (p bound : Int32) :
    (clean p bound d).2.eventSequence = d.eventSequence := by
  rw [clean_eq h.isOpen h.sound]
  cases hplan : Plan.clean p bound d.relations with
  | error e => rfl
  | ok cs =>
    obtain rfl := Plan.onProject_ok hplan
    simp only
    cases loadAll (loadVersion p) (d.relations.doomedOf .cells p bound) with
    | error e => rfl
    | ok removed => simp [commit, Change.logged, Change.events]

theorem logs : view.Logs HasRoom where
  post {d n} h hroom now p kind user message := by
    have hbelow : d.eventSequence < lastRowId := by
      simp only [HasRoom] at hroom
      omega
    have hpost : Store.postEvent now p kind user message d =
        (true, d.commit [.log ⟨p.id, kind, user, message, now⟩]) := by
      show Database.postEvent now p kind user message d = _
      rw [postEvent_eq h.isOpen, if_pos hbelow]
    rw [hpost]
    refine ⟨rfl, ?_⟩
    simp only [HasRoom, commit, Change.logged, Change.events, List.flatMap_cons, List.flatMap_nil,
      List.append_nil, List.length_singleton] at hroom ⊢
    omega
  clean {d n} h hroom p bound := by
    show (clean p bound d).2.eventSequence + n ≤ lastRowId
    rw [eventSequence_clean h]
    exact hroom
  fewer {d n} hroom := by
    simp only [HasRoom] at hroom ⊢
    omega

end Database

end ProjectRegistry
