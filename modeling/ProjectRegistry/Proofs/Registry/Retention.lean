import ProjectRegistry.Proofs.Registry.Readings
import ProjectRegistry.Proofs.Registry.Sweeps

/-!
# What a sweep retains

After a sweep each active project has its newest versions and the current one, and nothing else is
different: no project, no grant, no version of a retired project. The log tells of every project
that lost versions, and a second sweep finds nothing to do.

In memory this holds of every state that calls can reach. A database has to read all active projects
before the first of them gets its turn, and it does not read settings that are nested too deep, so
one project with such settings keeps all others from being swept.
-/

namespace ProjectRegistry

variable {C : Columns}

namespace Relations

variable {M : Medium C} {r : Relations C}

/-- What a sweep makes of relations, but for the log: outdated versions of active projects are gone
with all that belongs to them, and everything else is as it was. -/
structure Swept (M : Medium C) (retained : Nat) (r r' : Relations C) : Prop where
  projects : r'.projects = r.projects
  grants : r'.grants = r.grants
  version (p v : Int32) : r'.versions.find? (p, v) =
    if r.isActive p && r.isOutdated M retained p v then none else r.versions.find? (p, v)
  bundle (p v : Int32) (path : String) : r'.bundles.find? (p, v, path) =
    if r.isActive p && r.isOutdated M retained p v then none else r.bundles.find? (p, v, path)
  flow (p v : Int32) (id : String) : r'.flows.find? (p, v, id) =
    if r.isActive p && r.isOutdated M retained p v then none else r.flows.find? (p, v, id)

/-- Whether the log of each active project that lost versions got one event more, which names them
in ascending order, and no other log did. -/
def LogsPurges (M : Medium C) (retained : Nat) (now : Time.Instant) (r r' : Relations C) : Prop :=
  ∀ p, (r.outdatedOf M retained p).Pairwise (· < ·) ∧
    r'.eventsOf p = r.eventsOf p ++
      (if r.isActive p then (r.purgeOf M retained now p).toList else []).map (EventRow.write M)

theorem outdatedIn_actives (retained : Nat) (p v : Int32) :
    r.outdatedIn M retained (r.actives.map (·.1)) p v =
      (r.isActive p && r.isOutdated M retained p v) := by
  rw [outdatedIn, Bool.eq_iff_iff]
  simp only [Bool.and_eq_true, decide_eq_true_eq, isActive_iff]

theorem swept_without (retained : Nat) (es : List (EventRow live)) :
    r.Swept M retained
      ((r.without (r.outdatedIn M retained (r.actives.map (·.1)))).logging M es) where
  projects := rfl
  grants := rfl
  version p v := by
    rw [← outdatedIn_actives]
    exact find?_versions_without _ p v
  bundle p v path := by
    rw [← outdatedIn_actives]
    exact find?_bundles_without _ p v path
  flow p v id := by
    rw [← outdatedIn_actives]
    exact find?_flows_without _ p v id

theorem project_of_purgeOf {retained : Nat} {now : Time.Instant} {p : Int32} {e : EventRow live}
    (h : r.purgeOf M retained now p = some e) : e.project = p := by
  unfold purgeOf at h
  split at h
  · cases h
    rfl
  · cases h

/-- Of what is posted of distinct projects, each of them finds its own in its log. -/
theorem filter_purges (retained : Nat) (now : Time.Instant) {ps : List Int32} (h : ps.Nodup)
    (p : Int32) :
    (ps.filterMap (r.purgeOf M retained now)).filter (fun e => e.project = p) =
      if p ∈ ps then (r.purgeOf M retained now p).toList else [] := by
  induction ps with
  | nil => rfl
  | cons q ps ih =>
    obtain ⟨hq, hps⟩ := List.nodup_cons.1 h
    cases hpurge : r.purgeOf M retained now q with
    | none =>
      rw [List.filterMap_cons_none hpurge, ih hps]
      by_cases hp : p = q
      · subst hp
        simp [hq, hpurge]
      · simp [hp]
    | some e =>
      have he := project_of_purgeOf hpurge
      rw [List.filterMap_cons_some hpurge, List.filter_cons, ih hps, he]
      by_cases hp : p = q
      · subst hp
        simp [hq, hpurge]
      · simp [hp, Ne.symm hp]

theorem logsPurges_without (retained : Nat) (now : Time.Instant) (gone : Int32 → Int32 → Bool) :
    r.LogsPurges M retained now ((r.without gone).logging M
      ((r.actives.map (·.1)).filterMap (r.purgeOf M retained now))) := by
  intro p
  refine ⟨(r.numbersOf_ascending p).filter _, ?_⟩
  rw [eventsOf_logging, filter_purges retained now r.actives_nodup]
  simp only [← isActive_iff]
  rfl

end Relations

/-! ## Sweeps that are answered -/

namespace Registry

variable {σ : Type} [Store σ] {V : View σ} {R : Reader V.C} {r : Registry σ}

/-- What a sweep is answered and what it leaves. -/
structure Retains (relations : σ → Relations C) (M : Medium C) (tick : Tick) (retained : Nat)
    (r : Registry σ) (report : SweepReport) (r' : Registry σ) : Prop where
  answer : perform tick (.sweep retained) r = (.ok (.swept report), r')
  scanned : report.scanned = (relations r.store).actives.length
  removed : report.removed + (relations r'.store).versions.entries.length =
    (relations r.store).versions.entries.length
  failures : report.failures = 0
  swept : (relations r.store).Swept M retained (relations r'.store)
  /-- A second sweep removes nothing and changes nothing at all. -/
  again (later : Tick) :
    perform later (.sweep retained) r' = (.ok (.swept ⟨report.scanned, 0, 0⟩), r')

/-- A sweep is answered as soon as the active projects can be read. Where their versions can be read
as well, all turns are. -/
theorem retains_of_readable (hV : V.Lawful) (hA : V.Answers R) (hr : V.Good r.store)
    {ps : List Project}
    (hprojects : R.projects (V.relations r.store) V.M (V.relations r.store).actives = .ok ps)
    (hversions : ∀ p, ∃ vs, R.versions p ((V.relations r.store).versionsOf p) = .ok vs)
    (tick : Tick) (retained : Nat) :
    ∃ report r', Retains V.relations V.M tick retained r report r' ∧
      ∀ {Room : Nat → σ → Prop}, V.Logs Room →
        Room (V.relations r.store).actives.length r.store →
          (V.relations r.store).LogsPurges V.M retained tick.now (V.relations r'.store) := by
  have hids : ps.map Project.id = (V.relations r.store).actives.map (·.1) :=
    Reader.ids_of_projects hprojects
  have hdistinct : (ps.map Project.id).Nodup := hids ▸ (V.relations r.store).actives_nodup
  have hlength : ps.length = (V.relations r.store).actives.length := by
    simpa using congrArg List.length hids
  obtain ⟨removed, r', hturns, hpurged⟩ :=
    sweepAll_purged hV hA tick.now retained ps hr hversions hdistinct
  rw [hids] at hpurged
  obtain ⟨es, hrelations, hposted⟩ := hpurged.relations
  refine ⟨⟨ps.length, removed, 0⟩, r', ⟨?_, hlength, hpurged.count, rfl, ?_, ?_⟩, ?_⟩
  · rw [perform_sweep, hA.activeProjects hr, hprojects]
    simp only [hturns]
  · rw [hrelations]
    exact Relations.swept_without retained es
  · intro later
    have hprojects' : R.projects (V.relations r'.store) V.M (V.relations r'.store).actives =
        .ok ps := by
      rw [hrelations]
      exact hprojects
    obtain ⟨removed', r'', hturns', hpurged'⟩ :=
      sweepAll_purged hV hA later.now retained ps hpurged.good (hpurged.exists_versions hversions)
        hdistinct
    obtain ⟨rfl, rfl⟩ := hpurged'.idle fun p hp => by
      rw [hrelations]
      exact (V.relations r.store).outdatedOf_without_outdatedIn retained (hids ▸ hp)
    rw [perform_sweep, hA.activeProjects hpurged.good, hprojects']
    simp only [hturns']
  · intro Room hL hroom
    have hlength : ((V.relations r.store).actives.map (·.1)).length =
        (V.relations r.store).actives.length := List.length_map _
    obtain ⟨rfl, -⟩ := hposted 0 hL (by rwa [hlength])
    rw [hrelations]
    exact Relations.logsPurges_without retained tick.now _

end Registry

namespace Registry

/-! ## Retention -/

/-- What a sweep of a database comes to. -/
structure RetainsIfRead (tick : Tick) (retained : Nat) (r : Registry Database) : Prop where
  answer_iff : (∃ reply, (perform tick (.sweep retained) r).1 = .ok reply) ↔
    r.store.relations.SettingsRead
  retains : r.store.relations.SettingsRead →
    ∃ report r', Retains Database.relations .cells tick retained r report r' ∧
      (r.store.HasRoom r.store.relations.actives.length →
        r.store.relations.LogsPurges .cells retained tick.now r'.store.relations)
  /-- Settings that are nested too deep are accepted, and then no project is swept. -/
  blocked (before : Tick) {p : Project} :
    r.store.relations.isActive p.id = true → p.settings.Exact → ¬ p.settings.Shallow →
      (perform before (.configure p) r).1 = .ok .done ∧
        ∃ e, perform tick (.sweep retained) (perform before (.configure p) r).2 =
          (.error e, (perform before (.configure p) r).2)

/-- A project with unreadable settings is enough for a sweep to fail, and to change nothing. -/
theorem sweep_of_unread {r : Registry Database} (hr : r.store.Good)
    (h : ¬ r.store.relations.SettingsRead) (tick : Tick) (retained : Nat) :
    ∃ e, perform tick (.sweep retained) r = (.error e, r) := by
  have hquery : Store.activeProjects r.store =
      Reader.cells.projects r.store.relations .cells r.store.relations.actives :=
    Database.answers.activeProjects hr
  rw [perform_sweep, hquery]
  cases hprojects : Reader.cells.projects r.store.relations .cells r.store.relations.actives with
  | error e => exact ⟨e, rfl⟩
  | ok ps => exact absurd (Relations.settingsRead_of_projects hprojects) h

theorem settingsRead_of_sweep {r : Registry Database} (hr : r.store.Good) {tick : Tick}
    {retained : Nat} {reply : Reply} (h : (perform tick (.sweep retained) r).1 = .ok reply) :
    r.store.relations.SettingsRead := by
  by_contra hunread
  obtain ⟨e, he⟩ := sweep_of_unread hr hunread tick retained
  rw [he] at h
  cases h

theorem retainsIfRead {r : Registry Database} {l : Relations live}
    (h : Records Database.view r l) (htimed : l.ProjectsTimed) (tick : Tick) (retained : Nat) :
    RetainsIfRead tick retained r := by
  obtain ⟨hgood, hl, hversions⟩ := h
  have hl : r.store.relations = l.write .cells := hl
  have hprojects (hread : r.store.relations.SettingsRead) :
      ∃ ps, Reader.cells.projects r.store.relations .cells r.store.relations.actives = .ok ps := by
    rw [hl] at hread ⊢
    exact Relations.exists_projects htimed hread
  have hretains (hread : r.store.relations.SettingsRead) :
      ∃ report r', Retains Database.relations .cells tick retained r report r' ∧
        (r.store.HasRoom r.store.relations.actives.length →
          r.store.relations.LogsPurges .cells retained tick.now r'.store.relations) := by
    obtain ⟨ps, hps⟩ := hprojects hread
    obtain ⟨report, r', hretains, hlogs⟩ := retains_of_readable (r := r) Database.lawful
      Database.answers hgood hps (fun p => by
        show ∃ vs, Reader.cells.versions p (r.store.relations.versionsOf p) = .ok vs
        rw [hl]
        exact Relations.exists_versions hversions p) tick retained
    exact ⟨report, r', hretains, fun hroom => hlogs Database.logs hroom⟩
  refine ⟨⟨fun ⟨reply, hreply⟩ => settingsRead_of_sweep hgood hreply, fun hread => ?_⟩, hretains,
    fun before p hp hexact hdeep => ?_⟩
  · obtain ⟨report, r', hretains, -⟩ := hretains hread
    exact ⟨_, congrArg Prod.fst hretains.answer⟩
  · obtain ⟨haccepted, hunread⟩ := configure_deep hgood before hp hexact hdeep
    have hgood' := (becomes_perform (V := Database.view) Database.lawful hgood before
      (.configure p)).2.1
    exact ⟨haccepted, sweep_of_unread hgood' hunread tick retained⟩

end Registry

/-- From an empty memory, every sweep retains of each active project the newest versions and the
current one, says so, and changes nothing else. From an empty database every sweep does the same
that is answered at all, which is if the settings of all active projects can be read. -/
theorem sweep_retains_newest (limits : Limits) (root : Files.Path) (files : Files.FileTree)
    (calls : List (Tick × Call)) (tick : Tick) (retained : Nat) :
    (∃ report r', Registry.Retains Memory.relations .values tick retained
        ((Registry.start limits root files Memory.empty).after calls) report r' ∧
      ((Registry.start limits root files Memory.empty).after calls).store.relations.LogsPurges
        .values retained tick.now r'.store.relations) ∧
    ((∀ c ∈ calls, c.1.now.OnCalendar) → Registry.RetainsIfRead tick retained
      ((Registry.start limits root files Database.empty).after calls)) := by
  constructor
  · have hgood := Registry.good_after (r := .start limits root files Memory.empty) Memory.lawful
      Memory.good_empty calls
    obtain ⟨report, r', hretains, hlogs⟩ := Registry.retains_of_readable Memory.lawful
      Memory.answers hgood (loadAll_ok fun _ _ => rfl) (fun p => ⟨_, loadAll_ok fun _ _ => rfl⟩)
      tick retained
    exact ⟨report, r', hretains, hlogs Memory.logs trivial⟩
  · intro hclock
    obtain ⟨l, hl, htimed⟩ := Registry.records_after limits root files calls hclock
    exact Registry.retainsIfRead hl htimed tick retained

def addCall (p n : Int32) : Tick × Call :=
  (.first, .addVersion p n (.ofText "a.zip") "ann" keptVersion.digest "a")

/-- A run that leaves a project with three versions, of which the first is current. -/
def sparseRun : List (Tick × Call) :=
  [(.first, .createProject "flows" "" "ann"), addCall 1 1, addCall 1 2, addCall 1 5]

/-- Arrays, one inside the other. -/
def Json.Value.nested : Nat → Json.Value
  | 0 => .array []
  | n + 1 => .array [nested n]

theorem Json.Value.exact_nested (n : Nat) : (nested n).Exact := by
  induction n with
  | zero => exact ⟨trivial, trivial⟩
  | succ n ih => exact ⟨⟨ih.1, trivial⟩, ih.2, trivial⟩

def deepProject : Project :=
  (Project.new 1 "flows" "" "ann" .epoch).withSettings
    (Settings.empty.withMetadata "deep" (.nested 125))

theorem sparseRun_retains :
    (∀ c ∈ sparseRun, c.1.now.OnCalendar) ∧
      (∃ report r', Registry.Retains Database.relations .cells .first 1
        ((Registry.start {} (.ofText "root") .empty Database.empty).after sparseRun) report r' ∧
        r'.store.relations.versions.find? (1, 2) = none) ∧
      ∃ e r', Registry.perform .first (.sweep 1) (Registry.perform .first (.configure deepProject)
        ((Registry.start {} (.ofText "root") .empty Database.empty).after sparseRun)).2 =
          (.error e, r') := by
  have hclock : ∀ c ∈ sparseRun, c.1.now.OnCalendar := by decide +kernel
  have hanswer : (Registry.perform .first (.sweep 1)
      ((Registry.start {} (.ofText "root") .empty Database.empty).after sparseRun)).1.isOk =
        true := by decide +kernel
  have hactive : ((Registry.start {} (.ofText "root") .empty Database.empty).after
      sparseRun).store.relations.isActive deepProject.id = true := by decide +kernel
  have hexact : deepProject.settings.Exact := by
    intro e he
    rw [List.mem_singleton.1 he]
    exact Json.Value.exact_nested 125
  have hdeep : ¬ deepProject.settings.Shallow := by decide +kernel
  have hdatabase := (sweep_retains_newest {} (.ofText "root") .empty sparseRun .first 1).2 hclock
  refine ⟨hclock, ?_, ?_⟩
  · cases hreply : (Registry.perform .first (.sweep 1)
      ((Registry.start {} (.ofText "root") .empty Database.empty).after sparseRun)).1 with
    | error e =>
      rw [hreply] at hanswer
      cases hanswer
    | ok reply =>
      obtain ⟨report, r', hretains, -⟩ :=
        hdatabase.retains (hdatabase.answer_iff.1 ⟨reply, hreply⟩)
      refine ⟨report, r', hretains, ?_⟩
      rw [hretains.swept.version, if_pos (by decide +kernel)]
  · obtain ⟨-, e, he⟩ := hdatabase.blocked .first hactive hexact hdeep
    exact ⟨e, _, he⟩

/-! ## Counting from the highest number -/

namespace Registry

variable {σ : Type} [Store σ] {V : View σ} {R : Reader V.C} {r : Registry σ}

end Registry

end ProjectRegistry
