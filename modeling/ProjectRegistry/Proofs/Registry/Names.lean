import ProjectRegistry.Proofs.Registry.AuditLog
import ProjectRegistry.Proofs.Registry.Lookups
import ProjectRegistry.Proofs.Registry.Retention

/-!
# Names in use

A name is in use by one active project at most, and it is free again as soon as that project is
removed, for good. So any number of projects can have had a name; each got an id above all ids that
were given before, and looking the name up finds the active one, or else the one that had it last.
-/

namespace ProjectRegistry

variable {C : Columns} {M : Medium C} {r : Relations C}

/-! ## Creating -/

theorem Relations.not_holdsName_iff {name : String} :
    r.holdsName name = false ↔
      ∀ p row, r.projects.find? p = some row → row.active = true → row.name ≠ name := by
  constructor
  · exact fun h p row hrow hactive => ne_of_not_holdsName h hrow hactive
  · intro h
    rw [Bool.eq_false_iff]
    intro hholds
    obtain ⟨p, row, hrow, hname⟩ := Table.any_rows_iff.1 hholds
    simp only [Bool.and_eq_true, decide_eq_true_eq] at hname
    exact h p row hrow hname.1 hname.2

/-- What it takes for a project to be created. -/
def Relations.Admits (limits : Limits) (name description : String) (r : Relations C) : Prop :=
  Limits.isBlankName name = false ∧ name.length ≤ limits.name ∧
    description.length ≤ limits.description ∧
      ∀ p row, r.projects.find? p = some row → row.active = true → row.name ≠ name

/-- A plan to create a project fails exactly if its texts or its name are refused. -/
theorem Plan.exists_create_ok_iff (limits : Limits) (now : Time.Instant)
    (name description creator : String) (id : Int32) (r : Relations C) :
    (∃ cs, Plan.create limits now name description creator id r = .ok cs) ↔
      r.Admits limits name description := by
  rw [Relations.Admits, ← Relations.not_holdsName_iff, ← and_assoc, ← and_assoc, and_assoc,
    ← Limits.checkName_eq_ok_iff, ← Limits.checkDescription_eq_ok_iff, Plan.create]
  cases limits.checkName name with
  | error e => simp
  | ok _ =>
    cases limits.checkDescription description with
    | error e => simp
    | ok _ => cases r.holdsName name <;> simp

variable {σ : Type} [Store σ]

/-- A store that creates every project that is admitted, as long as it has ids. -/
def View.Creates (V : View σ) (HasIds : σ → Prop) : Prop :=
  ∀ {s : σ}, V.Good s → HasIds s → ∀ {now : Time.Instant}, now.OnCalendar →
    ∀ (limits : Limits) (name description creator : String),
      (∃ q, (Store.createProject limits now name description creator s).1 = .ok q) ↔
        (V.relations s).Admits limits name description

/-- Whether there is an id for one more project. -/
def Memory.HasIds (m : Memory) : Prop := m.lastProject ≠ Int32.maxValue

theorem Memory.creates : view.Creates HasIds := by
  intro m _ hids now _ limits name description creator
  show _ ↔ m.relations.Admits limits name description
  rw [← Plan.exists_create_ok_iff limits now name description creator (m.lastProject + 1),
    show Store.createProject limits now name description creator m = _ from
      m.createProject_eq limits now name description creator]
  have hids : m.lastProject ≠ Int32.maxValue := hids
  cases Plan.create limits now name description creator (m.lastProject + 1) m.relations with
  | error e => simp
  | ok cs => simp [hids]

/-- Whether there is an id for one more project, and one for the event that tells of it. -/
def Database.HasIds (d : Database) : Prop :=
  d.lastProject ≠ Int32.maxValue.toInt ∧ d.HasRoom 1

/-- A project that was just created is read back. -/
theorem Database.exists_projectById_commitNew {d : Database} (hopen : d.isOpen = true) (id : Int32)
    (name description creator : String) {now : Time.Instant} (hnow : now.OnCalendar) :
    ∃ q, projectById id (d.commitNew [.create id name description creator now]) = .ok q := by
  have hopen' : (d.commitNew [.create id name description creator now]).isOpen = true := hopen
  have hrow : (ProjectRow.new name description creator now).Readable :=
    ⟨fun e he => (List.not_mem_nil he).elim, fun e he => (List.not_mem_nil he).elim, hnow, hnow⟩
  rw [projectById, query_apply hopen', commitNew_create]
  simp only [Table.find?_insert_self, loadProject_eq]
  rw [show ProjectRow.load _ = _ from ProjectRow.load_store hrow]
  exact ⟨_, rfl⟩

theorem Database.creates : view.Creates HasIds := by
  intro d h hids now hnow limits name description creator
  show _ ↔ d.relations.Admits limits name description
  obtain ⟨hlast, hroom⟩ := hids
  have hroom : d.eventSequence < lastRowId := by
    simp only [HasRoom] at hroom
    omega
  rw [← Plan.exists_create_ok_iff limits now name description creator
      (Int32.ofInt (d.lastProject + 1)),
    show Store.createProject limits now name description creator d = _ from
      createProject_eq h.isOpen h.ordered limits now name description creator]
  cases hplan : Plan.create limits now name description creator (Int32.ofInt (d.lastProject + 1))
      d.relations with
  | error e => simp
  | ok cs =>
    obtain rfl := Plan.create_ok hplan
    obtain ⟨q, hq⟩ := exists_projectById_commitNew h.isOpen (Int32.ofInt (d.lastProject + 1)) name
      description creator hnow
    simp only [hlast, if_false, hroom, if_true, hq, Except.ok.injEq, exists_eq']

/-! ## Ids of a run -/

/-- The project that an answered call created. -/
def Call.newProject? (reply : Reply) : Call → Option Int32
  | .createProject .. =>
    match reply with
    | .project q => some q.id
    | _ => none
  | _ => none

/-- The ids of the projects that a run created, in the order of its calls. -/
def createdIds (calls : List (Tick × Call)) (answers : List (Except Failure Reply)) :
    List Int32 :=
  Registry.answered (fun call reply => call.newProject? reply) calls answers

omit [Store σ] in
theorem Call.Makes.newProject? {r : Registry σ} {tick : Tick} {call : Call} {reply : Reply}
    {cs : List Change} (h : call.Makes r tick reply cs) :
    cs.filterMap Change.newProject? = (call.newProject? reply).toList := by
  cases call
  case sweep retained =>
    refine List.filterMap_eq_nil_iff.2 fun c hc => ?_
    have hupkeep := h c hc
    cases c <;> first | rfl | cases hupkeep
  case createProject name description creator =>
    obtain ⟨q, rfl, rfl⟩ := h
    rfl
  case setRights q principal isGroup rights =>
    simp only [Call.Makes] at h
    split at h <;> simp [h, Change.newProject?, Call.newProject?]
  case postEvent q kind user message =>
    simp only [Call.Makes] at h
    split at h <;> simp [h, Change.newProject?, Call.newProject?]
  case removeProject q user => rcases h with rfl | rfl <;> rfl
  case configure | addVersion | uploadFile | putBundle | putBundles =>
    obtain ⟨_, _, rfl⟩ := h
    rfl
  all_goals
    simp only [Call.Makes] at h
    simp [h, Change.newProject?, Call.newProject?]

namespace Registry

variable {V : View σ} {R : Reader V.C} {r : Registry σ}

/-- The projects that are there are those that were created, in their order. -/
theorem keys_after (hV : V.Lawful) (hr : V.Good r.store) (hempty : V.relations r.store = .empty)
    (calls : List (Tick × Call)) :
    (V.relations (r.after calls).store).projects.keys = createdIds calls (r.answers calls) := by
  have hrun := foldl_answered hV (fun call reply => call.newProject? reply)
    (fun ks id => ks ++ [id]) (fun rs : Relations V.C => rs.projects.keys)
    (fun hcs hfit => by
      rw [Change.keys_applyAll hfit, hcs.newProject?, List.foldl_append_eq_append,
        ← List.flatMap_def, List.flatMap_singleton']) calls hr
  rw [hrun, hempty, List.foldl_append_eq_append, ← List.flatMap_def, List.flatMap_singleton']
  rfl

theorem withinLimits_after (hV : V.Lawful) (hr : V.Good r.store)
    (hempty : V.relations r.store = .empty) (calls : List (Tick × Call)) :
    (V.relations (r.after calls).store).WithinLimits r.limits := by
  obtain ⟨cs, hfit, hrelations⟩ := relations_after hV hr hempty calls
  rw [hrelations]
  refine Change.withinLimits_applyAll (fun p row hrow => ?_) hfit
  cases hrow

/-! ## Removed projects -/

theorem retired_after (hV : V.Lawful) (hr : V.Good r.store) {p : Int32}
    (h : (V.relations r.store).IsRetired p) (later : List (Tick × Call)) :
    (V.relations (r.after later).store).IsRetired p := by
  obtain ⟨-, -, cs, -, hfit, hrelations⟩ := becomes_after hV hr later
  rw [hrelations]
  exact Change.retired_applyAll h hfit

theorem exists_createProject_iff {tick : Tick} {name description creator : String} :
    (∃ reply, (perform tick (.createProject name description creator) r).1 = .ok reply) ↔
      ∃ q, (Store.createProject r.limits tick.now name description creator r.store).1 = .ok q := by
  have hperform : (perform tick (.createProject name description creator) r).1 =
      (Store.createProject r.limits tick.now name description creator r.store).1.map .project :=
    congrArg Prod.fst (Step.map_apply _ _ _)
  rw [hperform]
  constructor
  · rintro ⟨reply, hreply⟩
    obtain ⟨q, hq, -⟩ := exists_of_map_ok hreply
    exact ⟨q, hq⟩
  · rintro ⟨q, hq⟩
    exact ⟨.project q, by rw [hq]; rfl⟩

/-! ## Whole runs -/

/-- What names and the look-ups of projects come to after a run. -/
structure NamesKept (relations : σ → Relations C) (M : Medium C)
    (Readable : ProjectRow C → Prop) (HasIds : σ → Prop) (start : Registry σ)
    (calls : List (Tick × Call)) : Prop where
  unique : (relations (start.after calls).store).NamesUnique
  texts {p : Int32} {row : ProjectRow C} :
    (relations (start.after calls).store).projects.find? p = some row →
      Limits.isBlankName row.name = false ∧ row.name.length ≤ start.limits.name ∧
        row.description.length ≤ start.limits.description
  removed {tick : Tick} {p : Project} {user : String} {reply : Reply} :
    (perform tick (.removeProject p user) (start.after calls)).1 = .ok reply →
      (relations (perform tick (.removeProject p user) (start.after calls)).2.store).IsRetired p.id
  /-- A project that is not active never is again. -/
  retired {p : Int32} (later : List (Tick × Call)) :
    (relations (start.after calls).store).IsRetired p →
      (relations ((start.after calls).after later).store).IsRetired p
  /-- Ids grow, and each of them still is that of a project. -/
  ids : (createdIds calls (start.answers calls)).Pairwise (· < ·) ∧
    ∀ p, (relations (start.after calls).store).projects.contains p = true ↔
      p ∈ createdIds calls (start.answers calls)
  creates {tick : Tick} (name description creator : String) : tick.now.OnCalendar →
    HasIds (start.after calls).store →
      ((∃ reply, (perform tick (.createProject name description creator)
          (start.after calls)).1 = .ok reply) ↔
        (relations (start.after calls).store).Admits start.limits name description)
  /-- A new project has a new id, above all that were given before. -/
  created {tick : Tick} {name description creator : String} {reply : Reply} :
    (perform tick (.createProject name description creator) (start.after calls)).1 = .ok reply →
      ∃ q row, reply = .project q ∧ (∀ p ∈ createdIds calls (start.answers calls), p < q.id) ∧
        (relations (perform tick (.createProject name description creator)
          (start.after calls)).2.store).projects.find? q.id = some row ∧
        row.name = name ∧ row.description = description ∧ row.active = true
  looksUp : LooksUp relations M Readable (start.after calls)

theorem namesKept (hV : V.Lawful) {HasIds : σ → Prop} (hC : V.Creates HasIds)
    (hr : V.Good r.store) (hempty : V.relations r.store = .empty)
    {Readable : ProjectRow V.C → Prop} (calls : List (Tick × Call))
    (hlooksUp : LooksUp V.relations V.M Readable (r.after calls)) :
    NamesKept V.relations V.M Readable HasIds r calls := by
  have hgood := good_after hV hr calls
  have hlimits : (r.after calls).limits = r.limits := (becomes_after hV hr calls).1
  have hkeys := keys_after hV hr hempty calls
  have hcontains (p : Int32) : (V.relations (r.after calls).store).projects.contains p = true ↔
      p ∈ createdIds calls (r.answers calls) := by
    rw [← hkeys, Table.mem_keys_iff]
  refine ⟨namesUnique_after hV hr hempty calls, fun {p row} hrow => ?_,
    fun h => retired_of_removeProject hV hgood (Prod.ext h rfl),
    fun later h => retired_after hV hgood h later,
    ⟨?_, hcontains⟩, fun {tick} name description creator htick hids => ?_, ?_, hlooksUp⟩
  · obtain ⟨hname, hdescription⟩ := withinLimits_after hV hr hempty calls p row hrow
    obtain ⟨hblank, hlong⟩ := Limits.checkName_eq_ok_iff.1 hname
    exact ⟨hblank, hlong, Limits.checkDescription_eq_ok_iff.1 hdescription⟩
  · rw [← hkeys, Table.keys, List.pairwise_map]
    exact (V.relations (r.after calls).store).projects.ordered.imp of_decide_eq_true
  · rw [exists_createProject_iff, hlimits]
    exact hC hgood hids htick r.limits name description creator
  · intro tick name description creator reply hreply
    obtain ⟨-, -, cs, ⟨q, rfl, rfl⟩, hfit, hrelations⟩ :=
      (perform_journals hV hgood tick (.createProject name description creator)).of_ok
        (Prod.ext hreply rfl)
    have hfit := Change.allFit_singleton.1 hfit
    refine ⟨q, (ProjectRow.new name description creator tick.now).write V.M, rfl,
      fun p hp => hfit.2.2.2 p ((hcontains p).2 hp), ?_, rfl, rfl, rfl⟩
    rw [hrelations]
    exact Table.find?_insert_self _ _ _

end Registry

/-- Names are kept apart and looked up alike in memory and in a database; a database hands out the
projects whose settings it can read. -/
theorem names_kept_apart (limits : Limits) (root : Files.Path) (files : Files.FileTree)
    (calls : List (Tick × Call)) :
    Registry.NamesKept Memory.relations .values (fun _ => True) Memory.HasIds
        (Registry.start limits root files Memory.empty) calls ∧
      ((∀ c ∈ calls, c.1.now.OnCalendar) →
        Registry.NamesKept Database.relations .cells ProjectRow.Legible Database.HasIds
          (Registry.start limits root files Database.empty) calls) :=
  ⟨Registry.namesKept (r := .start limits root files Memory.empty) Memory.lawful Memory.creates
      Memory.good_empty rfl calls (Memory.looksUp_after limits root files calls),
    fun hclock => Registry.namesKept (r := .start limits root files Database.empty)
      Database.lawful Database.creates Database.good_empty rfl calls
      (Database.looksUp_after limits root files hclock)⟩

/-- A run that creates a project, removes it, and creates another one of the same name. -/
def renewedRun : List (Tick × Call) :=
  [(.first, .createProject "flows" "" "ann"),
    (.first, .removeProject (.new 1 "flows" "" "ann" .epoch) "ann"),
    (.first, .createProject "flows" "" "bob")]

/-- The second project of that run, with settings that no database reads back. -/
def sealedProject : Project :=
  (Project.new 2 "flows" "" "bob" .epoch).withSettings
    (Settings.empty.withMetadata "deep" (.nested 125))

theorem renewedRun_names :
    (∀ c ∈ renewedRun, c.1.now.OnCalendar) ∧
      (let start := Registry.start {} (.ofText "root") .empty Database.empty
      createdIds renewedRun (start.answers renewedRun) = [1, 2] ∧
        (∃ q, (Registry.perform .first (.projectByName "flows") (start.after renewedRun)).1 =
          .ok (.project q) ∧ q.id = 2 ∧ q.active = true) ∧
        ¬ (start.after renewedRun).store.relations.Admits {} "flows" "") ∧
      let calls := renewedRun ++ [(.first, .configure sealedProject)]
      (∀ c ∈ calls, c.1.now.OnCalendar) ∧
        (Registry.perform .first .activeProjects
          ((Registry.start {} (.ofText "root") .empty Database.empty).after calls)).1 =
            .error .malformedJson := by
  have hclock : ∀ c ∈ renewedRun, c.1.now.OnCalendar := by decide +kernel
  have hclock' : ∀ c ∈ renewedRun ++ [(.first, .configure sealedProject)],
      c.1.now.OnCalendar := by decide +kernel
  have hkept := (names_kept_apart {} (.ofText "root") .empty renewedRun).2 hclock
  have hsealed := (names_kept_apart {} (.ofText "root") .empty
    (renewedRun ++ [(.first, .configure sealedProject)])).2 hclock'
  refine ⟨hclock, ⟨by decide +kernel, ?_, ?_⟩, hclock', ?_⟩
  · have hrow : (((Registry.start {} (.ofText "root") .empty Database.empty).after
        renewedRun).store.relations.projects.find? 2).map (fun row => (row.name, row.active)) =
        some ("flows", true) := by decide +kernel
    obtain ⟨row, hrow, hvalues⟩ := Option.map_eq_some_iff.1 hrow
    obtain ⟨hname, hactive⟩ := Prod.mk.inj hvalues
    have hands := hkept.looksUp.byName .first ⟨hrow, hname, .inl hactive⟩
    have hanswer : (Registry.perform .first (.projectByName "flows")
        ((Registry.start {} (.ofText "root") .empty Database.empty).after
          renewedRun)).1.isOk = true := by decide +kernel
    by_cases hlegible : row.Legible
    · obtain ⟨q, hq, hshown⟩ := hands.project hlegible
      exact ⟨q, hq, hshown.id, hshown.active.trans hactive⟩
    · rw [hands.malformed hlegible] at hanswer
      cases hanswer
  · have hrefused : (Registry.perform .first (.createProject "flows" "" "bob")
        ((Registry.start {} (.ofText "root") .empty Database.empty).after
          renewedRun)).1.isOk = false := by decide +kernel
    intro hadmits
    obtain ⟨reply, hreply⟩ := (hkept.creates "flows" "" "bob"
      (hclock (.first, .createProject "flows" "" "ann") List.mem_cons_self)
      (by unfold Database.HasIds; decide +kernel)).2 hadmits
    rw [hreply] at hrefused
    cases hrefused
  · have hgood := Registry.good_after (r := .start {} (.ofText "root") .empty Database.empty)
      Database.lawful Database.good_empty renewedRun
    have hexact : sealedProject.settings.Exact := by
      intro e he
      rw [List.mem_singleton.1 he]
      exact Json.Value.exact_nested 125
    have hactive : ((Registry.start {} (.ofText "root") .empty Database.empty).after
        renewedRun).store.relations.isActive sealedProject.id = true := by decide +kernel
    have hdeep : ¬ sealedProject.settings.Shallow := by decide +kernel
    obtain ⟨e, he, hillegible⟩ := Relations.exists_illegible
      (Registry.configure_deep hgood .first hactive hexact hdeep).2
    rw [← Registry.after_snoc] at he
    exact hsealed.looksUp.actives_malformed .first ⟨e, he, hillegible⟩

end ProjectRegistry
