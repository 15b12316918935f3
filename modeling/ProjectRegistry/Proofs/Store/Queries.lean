import ProjectRegistry.Proofs.Store.DatabasePlans
import ProjectRegistry.Proofs.Store.MemoryPlans
import ProjectRegistry.Proofs.Store.Names
import ProjectRegistry.Proofs.Store.Readable
import ProjectRegistry.Proofs.Timeless

/-!
# Queries

A database answers a query as memory would that holds the same rows with their times cut to
milliseconds. What memory answers, apart from times, depends on nothing but its relations apart from
times. So a database and a memory whose relations agree apart from times answer every query alike.
-/

namespace ProjectRegistry

open Time (Instant)

namespace Relations

variable (time : Instant → Instant) (l : Relations live)

theorem bundles_ofTimes : (l.write (.ofTimes time)).bundles = l.bundles := Table.ext (List.map_id _)

theorem flows_ofTimes : (l.write (.ofTimes time)).flows = l.flows := Table.ext (List.map_id _)

theorem grants_ofTimes : (l.write (.ofTimes time)).grants = l.grants := Table.ext (List.map_id _)

end Relations

theorem ProjectRow.pointer_ofTimes (time : Instant → Instant) (p : ProjectRow live) :
    (p.write (.ofTimes time)).pointer = p.pointer :=
  congrFun Option.map_id p.pointer

theorem ProjectRow.toProject_timeless (p : ProjectRow live) (id : Int32) (grants : List Grant) :
    (p.write .timeless).toProject id grants = (p.toProject id grants).timeless := by
  have hpointer := p.pointer_ofTimes fun _ => Time.Instant.epoch
  simp only [toProject, Medium.timeless, hpointer]
  rfl

namespace Memory

/-- A store that holds relations. Which id it gives out next is no matter to queries. -/
def holding (l : Relations live) : Memory := ⟨l, 0⟩

/-! ## Memory apart from times -/

variable (m : Memory)

theorem grantList_ofTimes (time : Instant → Instant) (l : Relations live) (id : Int32) :
    (holding (l.write (.ofTimes time))).grantList id = (holding l).grantList id := by
  simp only [grantList, holding, Relations.grantsOf, Relations.grants_ofTimes]

theorem assemble_timeless (id : Int32) (p : ProjectRow live) :
    (holding (m.relations.write .timeless)).assemble id (p.write .timeless) =
      (m.assemble id p).timeless := by
  rw [assemble, p.toProject_timeless]
  exact congrArg (fun gs => (p.toProject id gs).timeless) (grantList_ofTimes _ m.relations id)

theorem projectById_timeless (id : Int32) :
    (projectById id m).map Project.timeless =
      projectById id (holding (m.relations.write .timeless)) := by
  have hfind := Relations.find?_projects_write .timeless m.relations id
  simp only [projectById, row, holding, hfind]
  cases m.relations.projects.find? id with
  | none => rfl
  | some p => exact congrArg Except.ok (m.assemble_timeless id p).symm

theorem activeProjects_timeless :
    m.activeProjects.map Project.timeless =
      (holding (m.relations.write .timeless)).activeProjects := by
  simp only [activeProjects, holding, Relations.write, Table.map, List.filter_map, List.map_map]
  refine List.map_congr_left ?_
  intro e _
  exact (m.assemble_timeless e.1 e.2).symm

theorem named_ofTimes (time : Instant → Instant) (l : Relations live) (name : String) :
    (holding (l.write (.ofTimes time))).named name =
      ((holding l).named name).map fun e => (e.1, e.2.write (.ofTimes time)) := by
  simp only [named, holding, Relations.write, Table.map, List.filter_map]
  rfl

theorem projectByName_timeless (name : String) :
    (projectByName name m).map Project.timeless =
      projectByName name (holding (m.relations.write .timeless)) := by
  have hactive : ((fun e : Int32 × ProjectRow live => e.2.active) ∘
      fun e : Int32 × ProjectRow live => (e.1, e.2.write .timeless)) =
        fun e => e.2.active := rfl
  have hnamed : (holding (m.relations.write .timeless)).named name =
      (m.named name).map fun e => (e.1, e.2.write .timeless) := named_ofTimes _ m.relations name
  simp only [projectByName, hnamed, List.find?_map, List.getLast?_map, hactive]
  cases (m.named name).find? fun e => e.2.active with
  | some e => exact congrArg Except.ok (m.assemble_timeless e.1 e.2).symm
  | none =>
    cases (m.named name).getLast? with
    | some e => exact congrArg Except.ok (m.assemble_timeless e.1 e.2).symm
    | none => rfl

theorem version?_timeless (project number : Int32) :
    (version? project number m).map Version.timeless =
      version? project number (holding (m.relations.write .timeless)) := by
  have hfind := Relations.find?_versions_write .timeless m.relations (project, number)
  simp only [version?, holding, hfind, Option.map_map]
  rfl

theorem versions_timeless (project : Int32) :
    (versions project m).map Version.timeless =
      versions project (holding (m.relations.write .timeless)) := by
  simp only [versions, holding, Relations.versionsOf_write, List.map_map]
  rfl

theorem currentVersion?_timeless (p : Project) :
    currentVersion? p m = currentVersion? p (holding (m.relations.write .timeless)) := by
  have hfind := Relations.find?_projects_write .timeless m.relations p.id
  simp only [currentVersion?, row, holding, hfind]
  cases m.relations.projects.find? p.id with
  | none => rfl
  | some row => exact congrArg Except.ok (row.pointer_ofTimes _).symm

theorem pointer_timeless (id : Int32) :
    pointer id m = pointer id (holding (m.relations.write .timeless)) := by
  have hfind := Relations.find?_projects_write .timeless m.relations id
  simp only [pointer, row, holding, hfind]
  cases m.relations.projects.find? id with
  | none => rfl
  | some row =>
    have hpointer : (row.write .timeless).pointer = row.pointer := row.pointer_ofTimes _
    simp only [Option.map_some, hpointer]

theorem bundleAt_timeless (project version : Int32) (path : String) :
    bundleAt project version path m =
      bundleAt project version path (holding (m.relations.write .timeless)) := by
  have hbundles : (m.relations.write .timeless).bundles = m.relations.bundles :=
    Relations.bundles_ofTimes _ _
  simp only [bundleAt, holding, hbundles]

theorem bundle_timeless (p : Project) (path : String) :
    bundle p path m = bundle p path (holding (m.relations.write .timeless)) := by
  simp only [bundle, m.pointer_timeless p.id, m.bundleAt_timeless]

theorem bundles_timeless (project version : Int32) :
    bundles project version m =
      bundles project version (holding (m.relations.write .timeless)) := by
  have hbundles : (m.relations.write .timeless).bundles = m.relations.bundles :=
    Relations.bundles_ofTimes _ _
  simp only [bundles, holding, Relations.bundlesOf, hbundles]

theorem flow_timeless (p : Project) (id : String) :
    flow p id m = flow p id (holding (m.relations.write .timeless)) := by
  have hflows : (m.relations.write .timeless).flows = m.relations.flows :=
    Relations.flows_ofTimes _ _
  rw [flow, flow, m.pointer_timeless p.id]
  simp only [holding, hflows]

theorem flows_timeless (p : Project) :
    flows p m = flows p (holding (m.relations.write .timeless)) := by
  have hflows : (m.relations.write .timeless).flows = m.relations.flows :=
    Relations.flows_ofTimes _ _
  rw [flows, flows, m.pointer_timeless p.id]
  simp only [holding, Relations.flowsOf, hflows]

end Memory

/-! ## Pages of a log -/

section Pages

variable {C : Columns} {notLater : C.Time → C.Time → Bool} {es : List (EventRow C)}

theorem insertNewest_of_notLater {e : EventRow C} {sorted : List (EventRow C)}
    (h : ∀ d, sorted.head? = some d → notLater d.time e.time = true) :
    insertNewest notLater e sorted = e :: sorted := by
  cases sorted with
  | nil => rfl
  | cons d rest => rw [insertNewest, if_pos (h d rfl)]

theorem foldl_insertNewest {sorted : List (EventRow C)}
    (h : es.Pairwise fun d e => notLater d.time e.time = true)
    (hsorted : ∀ d, sorted.head? = some d → ∀ e ∈ es, notLater d.time e.time = true) :
    es.foldl (fun sorted e => insertNewest notLater e sorted) sorted = es.reverse ++ sorted := by
  induction es generalizing sorted with
  | nil => rfl
  | cons e rest ih =>
    obtain ⟨he, hrest⟩ := List.pairwise_cons.1 h
    have hnewest := insertNewest_of_notLater fun d hd => hsorted d hd e List.mem_cons_self
    rw [List.foldl_cons, hnewest, ih hrest, List.reverse_cons, List.append_assoc]
    · rfl
    · intro d hd
      rw [List.head?_cons, Option.some.injEq] at hd
      exact hd ▸ he

/-- A log in the order of its times is read from its end. -/
theorem newestFirst_eq_reverse (h : es.Pairwise fun d e => notLater d.time e.time = true) :
    newestFirst notLater es = es.reverse := by
  rw [newestFirst, foldl_insertNewest h (fun d hd => by cases hd), List.append_nil]

/-- Bounds that no list exceeds make no difference to a page. -/
theorem page_min {α : Type} {bound : Nat} {items : List α} (h : items.length ≤ bound)
    (limit offset : Nat) :
    page (min limit bound) (min offset bound) items = page limit offset items := by
  have hdrop : items.drop (min offset bound) = items.drop offset := by
    rcases Nat.le_total offset bound with ho | ho
    · rw [Nat.min_eq_left ho]
    · rw [Nat.min_eq_right ho, List.drop_eq_nil_of_le h, List.drop_eq_nil_of_le (Nat.le_trans h ho)]
  have hlength : (items.drop offset).length ≤ bound := by
    rw [List.length_drop]
    omega
  rw [page, page, hdrop]
  rcases Nat.le_total limit bound with hl | hl
  · rw [Nat.min_eq_left hl]
  · rw [Nat.min_eq_right hl, List.take_of_length_le hlength,
      List.take_of_length_le (Nat.le_trans hlength hl)]

theorem page_map {α β : Type} (f : α → β) (limit offset : Nat) (items : List α) :
    page limit offset (items.map f) = (page limit offset items).map f := by
  rw [page, page, ← List.map_drop, ← List.map_take]

/-- Pages of one size that follow each other make up the list. -/
theorem flatten_pages {α : Type} (size : Nat) (items : List α) (n : Nat) :
    ((List.range n).map fun i => page size (i * size) items).flatten = items.take (n * size) := by
  induction n with
  | zero => simp
  | succ n ih =>
    rw [List.range_succ, List.map_append, List.flatten_append, ih, Nat.add_mul, Nat.one_mul,
      List.take_add]
    simp [page]

end Pages

namespace Database

/-! ## Databases as memory -/

/-- An open database that holds live relations, all of which can be read back. -/
structure Holds (now : Instant) (l : Relations live) (d : Database) : Prop where
  isOpen : d.isOpen = true
  relations : d.relations = l.write .cells
  readable : l.Readable now
  names : l.NamesUnique

variable {now : Instant} {l : Relations live} {d : Database}

theorem ok_bind {α β : Type} (a : α) (f : α → Except Failure β) : (Except.ok a >>= f) = f a := rfl

theorem loadGrants_cells (l : Relations live) (id : Int32) :
    loadGrants (l.write .cells) id = (Memory.holding (l.write .millis)).grantList id := by
  have hrights (a : Rights) : Rights.ofStored (Medium.cells.rights a) = a :=
    Rights.ofStored_stored a
  rw [Medium.millis, Memory.grantList_ofTimes, loadGrants, Memory.grantList,
    Relations.grantsOf_write, List.map_map]
  exact List.map_congr_left fun g _ => by simp [hrights]

theorem loadProject_cells {p : ProjectRow live} (h : p.Readable) (l : Relations live) (id : Int32) :
    loadProject (l.write .cells) id (p.write .cells) =
      .ok ((Memory.holding (l.write .millis)).assemble id (p.write .millis)) := by
  rw [loadProject, ProjectRow.write_cells, ProjectRow.load_store h, loadGrants_cells]
  rfl

theorem Holds.projectById_eq (h : d.Holds now l) (id : Int32) :
    projectById id d = Memory.projectById id (.holding (l.write .millis)) := by
  have hfind := Relations.find?_projects_write .millis l id
  rw [projectById, query_apply h.isOpen, h.relations, Relations.find?_projects_write,
    Memory.projectById, Memory.row]
  simp only [Memory.holding, hfind]
  cases hp : l.projects.find? id with
  | none => rfl
  | some p => exact loadProject_cells (h.readable.project hp) l id

theorem Holds.activeProjects_eq (h : d.Holds now l) :
    activeProjects d = .ok (Memory.holding (l.write .millis)).activeProjects := by
  rw [activeProjects, query_apply h.isOpen, h.relations]
  simp only [Memory.activeProjects, Memory.holding, Relations.write, Table.map, List.filter_map,
    List.map_map, loadAll_map]
  refine loadAll_ok ?_
  intro e he
  have hrow := h.readable.project (Table.find?_eq_some_iff.2 (List.mem_filter.1 he).1)
  exact loadProject_cells hrow l e.1

/-- Where a test holds of one item at most, it finds the same from both ends. -/
theorem find?_reverse {α : Type} {p : α → Bool} {as : List α}
    (h : ∀ a ∈ as, ∀ b ∈ as, p a = true → p b = true → a = b) :
    as.reverse.find? p = as.find? p := by
  cases hfirst : as.find? p with
  | none =>
    rw [List.find?_eq_none] at hfirst ⊢
    exact fun a ha => hfirst a (List.mem_reverse.1 ha)
  | some a =>
    cases hlast : as.reverse.find? p with
    | none =>
      rw [List.find?_eq_none] at hlast
      exact absurd (List.find?_some hfirst)
        (hlast a (List.mem_reverse.2 (List.mem_of_find?_eq_some hfirst)))
    | some b =>
      have ha := List.mem_of_find?_eq_some hfirst
      have hb := List.mem_reverse.1 (List.mem_of_find?_eq_some hlast)
      rw [h b hb a ha (List.find?_some hlast) (List.find?_some hfirst)]

theorem head?_filter_reverse {α : Type} {p : α → Bool} {as : List α}
    (h : ∀ a ∈ as, ∀ b ∈ as, p a = true → p b = true → a = b) :
    ((as.reverse.filter p).head? <|> (as.reverse.filter fun a => !p a).head?) =
      (as.find? p <|> as.getLast?) := by
  rw [List.head?_filter, find?_reverse h]
  cases hfound : as.find? p with
  | some a => rfl
  | none =>
    rw [List.find?_eq_none] at hfound
    have hall : (as.reverse.filter fun a => !p a) = as.reverse :=
      List.filter_eq_self.2 fun a ha => by simpa using hfound a (List.mem_reverse.1 ha)
    rw [hall, List.head?_reverse]

/-- What stands under a name: the active row, or else the one that was created last. -/
theorem rowByName?_cells (h : l.NamesUnique) (name : String) :
    rowByName? (l.write .cells) name =
      (((Memory.holding l).named name).find? (fun e => e.2.active) <|>
        ((Memory.holding l).named name).getLast?).map fun e => (e.1, e.2.write .cells) := by
  have hunique : ∀ a ∈ (Memory.holding l).named name, ∀ b ∈ (Memory.holding l).named name,
      a.2.active = true → b.2.active = true → a = b := by
    intro a ha b hb hactive hactive'
    obtain ⟨ha, hname⟩ := List.mem_filter.1 ha
    obtain ⟨hb, hname'⟩ := List.mem_filter.1 hb
    have hfind := Table.find?_eq_some_iff.2 ha
    have hfind' := Table.find?_eq_some_iff.2 hb
    simp only [decide_eq_true_eq] at hname hname'
    have hid := h a.1 b.1 a.2 b.2 hfind hfind' hactive hactive' (hname.trans hname'.symm)
    have hrow : a.2 = b.2 := by rw [hid, hfind', Option.some.injEq] at hfind; exact hfind.symm
    exact Prod.ext hid hrow
  rw [← head?_filter_reverse hunique]
  simp only [rowByName?, Memory.named, Memory.holding, Relations.write, Table.map, List.filter_map,
    ← List.map_reverse, List.head?_map, Option.orElse_eq_orElse, Option.orElse_eq_or, Option.map_or]
  rfl

theorem Holds.projectByName_eq (h : d.Holds now l) (name : String) :
    projectByName name d = Memory.projectByName name (.holding (l.write .millis)) := by
  have hactive : ((fun e : Int32 × ProjectRow live => e.2.active) ∘
      fun e : Int32 × ProjectRow live => (e.1, e.2.write .millis)) =
        fun e => e.2.active := rfl
  have hload {e : Int32 × ProjectRow live} (he : e ∈ (Memory.holding l).named name) :
      loadProject (l.write .cells) e.1 (e.2.write .cells) =
        .ok ((Memory.holding (l.write .millis)).assemble e.1 (e.2.write .millis)) :=
    loadProject_cells (h.readable.project (Table.find?_eq_some_iff.2 (List.mem_filter.1 he).1)) l
      e.1
  have hnamed : (Memory.holding (l.write .millis)).named name =
      ((Memory.holding l).named name).map fun e => (e.1, e.2.write .millis) :=
    Memory.named_ofTimes _ l name
  rw [projectByName, query_apply h.isOpen, h.relations, rowByName?_cells h.names]
  simp only [Memory.projectByName, hnamed, List.find?_map, List.getLast?_map, hactive]
  cases hfirst : ((Memory.holding l).named name).find? fun e => e.2.active with
  | some e => exact hload (List.mem_of_find?_eq_some hfirst)
  | none =>
    cases hlast : ((Memory.holding l).named name).getLast? with
    | some e => exact hload (List.mem_of_getLast? hlast)
    | none => rfl

theorem Holds.version?_eq (h : d.Holds now l) (project number : Int32) :
    version? project number d =
      .ok (Memory.version? project number (.holding (l.write .millis))) := by
  have hfind := Relations.find?_versions_write .millis l (project, number)
  rw [version?, query_apply h.isOpen, h.relations, Relations.find?_versions_write]
  simp only [Memory.version?, Memory.holding, hfind]
  cases hrow : l.versions.find? (project, number) with
  | none => rfl
  | some row =>
    have hload := loadVersion_store (p := project) (n := number) (h.readable.version _ row hrow)
    simp only [Option.map_some, VersionRow.write_cells, hload]
    rfl

theorem Holds.versions_eq (h : d.Holds now l) (project : Int32) :
    versions project d = .ok (Memory.versions project (.holding (l.write .millis))) := by
  rw [versions, query_apply h.isOpen, h.relations, Relations.versionsOf_write, loadAll_map,
    Memory.versions]
  simp only [Memory.holding, Relations.versionsOf_write, List.map_map]
  exact loadAll_ok fun e he =>
    loadVersion_store (h.readable.version _ _ (Relations.mem_versionsOf_iff.1 he))

theorem Holds.currentVersion?_eq (h : d.Holds now l) (p : Project) :
    currentVersion? p d = Memory.currentVersion? p (.holding (l.write .millis)) := by
  have hfind := Relations.find?_projects_write .millis l p.id
  rw [currentVersion?, query_apply h.isOpen, h.relations, Relations.find?_projects_write]
  simp only [Memory.currentVersion?, Memory.row, Memory.holding, hfind]
  cases l.projects.find? p.id with
  | none => rfl
  | some row =>
    have hpointer : (row.write .millis).pointer = row.pointer := row.pointer_ofTimes _
    simp only [Option.map_some, hpointer]
    exact readNumber?_toInt .single row.pointer

theorem Holds.pointer_eq (h : d.Holds now l) (p : Project) :
    pointer p d = Memory.pointer p.id (.holding (l.write .millis)) := by
  rw [pointer, h.currentVersion?_eq, Memory.currentVersion?, Memory.pointer]
  rcases Memory.row p.id (.holding (l.write .millis)) with e | row
  · rfl
  · simp only [ok_bind]
    cases row.pointer <;> rfl

theorem Holds.bundleAt_eq (h : d.Holds now l) (project version : Int32) (path : String) :
    bundleAt project version path d =
      Memory.bundleAt project version path (.holding (l.write .millis)) := by
  have hbundles : (l.write .millis).bundles = l.bundles := Relations.bundles_ofTimes _ l
  have hfind : (l.write .cells).bundles.find? (project, version, path) =
      (l.bundles.find? (project, version, path)).map Properties.toText := Table.find?_mapRows _ _ _
  rw [bundleAt, query_apply h.isOpen, h.relations, hfind]
  simp only [Memory.bundleAt, Memory.holding, hbundles]
  cases l.bundles.find? (project, version, path) with
  | none => rfl
  | some properties =>
    simp only [Option.map_some, loadBundle, readProperties_toText]
    rfl

theorem Holds.bundle_eq (h : d.Holds now l) (p : Project) (path : String) :
    bundle p path d = Memory.bundle p path (.holding (l.write .millis)) := by
  rw [bundle, h.pointer_eq, Memory.bundle]
  cases Memory.pointer p.id (.holding (l.write .millis)) with
  | error e => rfl
  | ok version => exact h.bundleAt_eq p.id version path

theorem Holds.bundles_eq (h : d.Holds now l) (project version : Int32) :
    bundles project version d =
      .ok (Memory.bundles project version (.holding (l.write .millis))) := by
  have hbundles : (l.write .millis).bundles = l.bundles := Relations.bundles_ofTimes _ l
  rw [bundles, query_apply h.isOpen, h.relations, Relations.bundlesOf_write, loadAll_map,
    Memory.bundles]
  simp only [Memory.holding, Relations.bundlesOf, hbundles]
  refine loadAll_ok ?_
  intro e _
  simp only [loadBundle, Medium.cells, readProperties_toText]
  rfl

theorem loadFlow_cells {id : String} {g : Json.Value} (h : g.Readable) :
    loadFlow (id, g.toText) = .ok ⟨id, g⟩ := by
  rw [loadFlow, readGraph_toText h.1 h.2]
  rfl

theorem Holds.flow_eq (h : d.Holds now l) (p : Project) (id : String) :
    flow p id d = Memory.flow p id (.holding (l.write .millis)) := by
  have hflows : (l.write .millis).flows = l.flows := Relations.flows_ofTimes _ l
  rw [flow, h.pointer_eq, Memory.flow]
  cases Memory.pointer p.id (.holding (l.write .millis)) with
  | error e => rfl
  | ok version =>
    have hfind : (l.write .cells).flows.find? (p.id, version, id) =
        (l.flows.find? (p.id, version, id)).map Json.Value.toText := Table.find?_mapRows _ _ _
    simp only [Memory.holding, hflows]
    rw [ok_bind, query_apply h.isOpen, h.relations, hfind]
    cases hg : l.flows.find? (p.id, version, id) with
    | none => rfl
    | some g => exact loadFlow_cells (h.readable.graph hg)

theorem Holds.flows_eq (h : d.Holds now l) (p : Project) :
    flows p d = Memory.flows p (.holding (l.write .millis)) := by
  have hflows : (l.write .millis).flows = l.flows := Relations.flows_ofTimes _ l
  rw [flows, h.pointer_eq, Memory.flows]
  cases Memory.pointer p.id (.holding (l.write .millis)) with
  | error e => rfl
  | ok version =>
    rw [ok_bind, query_apply h.isOpen, h.relations, Relations.flowsOf_write, loadAll_map]
    simp only [Memory.holding, Relations.flowsOf, hflows]
    refine loadAll_ok ?_
    intro e he
    obtain ⟨f, hf, rfl⟩ := List.mem_map.1 he
    have hfind := Table.find?_eq_some_iff.2 (List.mem_filter.1 hf).1
    exact loadFlow_cells (h.readable.graph hfind)

theorem Holds.grants_eq (h : d.Holds now l) (project : Int32) :
    grants project d = .ok ((Memory.holding (l.write .millis)).grantList project) := by
  rw [grants, query_apply h.isOpen, h.relations, loadGrants_cells]

/-- A database sorts a log by milliseconds, which changes nothing where the log is in the order of
its times. -/
theorem events_eq {es : List (EventRow live)} (hopen : d.isOpen = true)
    (hevents : d.relations.events = es.map (EventRow.write .cells))
    (hordinary : ∀ e ∈ es, e.time.Ordinary)
    (horder : es.Pairwise fun a b => a.time.atMost b.time = true)
    (hlength : (es.length : Int) ≤ lastRowId) (p : Project) (limit offset : Nat) :
    events p limit offset d =
      .ok ((page limit offset (es.filter fun e => e.project = p.id).reverse).map
        fun e => (e.write .millis).toEvent) := by
  have hown : d.relations.eventsOf p.id =
      (es.filter fun e => e.project = p.id).map (EventRow.write .cells) := by
    rw [Relations.eventsOf, hevents, List.filter_map]
    rfl
  have hordered : ((es.filter fun e => e.project = p.id).map (EventRow.write .cells)).Pairwise
      fun a b => decide (a.time ≤ b.time) = true := by
    rw [List.pairwise_map]
    refine (horder.filter _).imp_of_mem fun {a b} ha _ hab => ?_
    exact decide_eq_true (Instant.millis_le (hordinary a (List.mem_filter.1 ha).1) hab)
  have hcount : (es.filter fun e => e.project = p.id).reverse.length ≤ lastRowId.toNat := by
    have := List.length_filter_le (fun e : EventRow live => e.project = p.id) es
    rw [List.length_reverse]
    omega
  have hsorted : newestFirst (C := stored) (fun a b => decide (a ≤ b))
      ((es.filter fun e => e.project = p.id).map (EventRow.write .cells)) =
      ((es.filter fun e => e.project = p.id).map (EventRow.write .cells)).reverse :=
    newestFirst_eq_reverse hordered
  rw [events, query_apply hopen, hown]
  simp only [hsorted]
  rw [← List.map_reverse, page_map, page_min hcount, loadAll_map]
  refine loadAll_ok ?_
  intro e he
  have hmem : e ∈ es := by
    have he := List.mem_of_mem_drop (List.mem_of_mem_take he)
    exact (List.mem_filter.1 (List.mem_reverse.1 he)).1
  rw [loadEvent, EventRow.write_cells, EventRow.load_store (hordinary e hmem).onCalendar]
  rfl

theorem Holds.events_eq (h : d.Holds now l) (hlength : (l.events.length : Int) ≤ lastRowId)
    (p : Project) (limit offset : Nat) :
    events p limit offset d =
      .ok ((page limit offset (l.eventsOf p.id).reverse).map
        fun e => (e.write .millis).toEvent) :=
  Database.events_eq h.isOpen (by rw [h.relations]; rfl) (fun _ he => (h.readable.event he).1)
    h.readable.inOrder hlength p limit offset

end Database

/-! ## Agreement -/

theorem Memory.events_eq {m : Memory}
    (h : m.relations.events.Pairwise fun d e => d.time.atMost e.time = true) (p : Project)
    (limit offset : Nat) :
    m.events p limit offset =
      (page limit offset (m.relations.eventsOf p.id).reverse).map EventRow.toEvent := by
  have hsorted : newestFirst Instant.atMost (m.relations.eventsOf p.id) =
      (m.relations.eventsOf p.id).reverse :=
    newestFirst_eq_reverse (C := live) (h.filter _)
  rw [events, hsorted]

theorem map_timeless_page (time : Instant → Instant) (l : Relations live) (p : Int32)
    (limit offset : Nat) :
    ((page limit offset (l.eventsOf p).reverse).map fun e => (e.write (.ofTimes time)).toEvent).map
      Event.timeless =
      (page limit offset ((l.write .timeless).eventsOf p).reverse).map EventRow.toEvent := by
  rw [Relations.eventsOf_write, ← List.map_reverse, page_map, List.map_map, List.map_map]
  rfl

/-- What memory answers apart from times is the same for relations that are the same apart from
times. -/
theorem Memory.map_holding_millis {α β : Type} {q : Memory → α} {f : α → β} {q' : Memory → β}
    {m : Memory} {l : Relations live}
    (hq : ∀ m, f (q m) = q' (holding (m.relations.write .timeless)))
    (halike : m.relations.write .timeless = l.write .timeless) :
    f (q (holding (l.write .millis))) = f (q m) := by
  have hwrite : (holding (l.write .millis)).relations.write .timeless = l.write .timeless :=
    Relations.write_millis_timeless l
  rw [hq, hq, hwrite, halike]

end ProjectRegistry
