import ProjectRegistry.Proofs.Registry.Numbers
import ProjectRegistry.Proofs.Store.Answers
import ProjectRegistry.Proofs.Store.Readable

/-!
# What a database reads after a run

Of what calls at times of the calendar write to a database, versions are always read back, and
projects are as far as their settings are. Settings are written however deep they are nested and
read only to a limit, so a project can be left with settings that nobody reads any more.
-/

namespace ProjectRegistry

/-! ## Rows -/

/-- Whether the settings of all active projects can be read. -/
def Relations.SettingsRead (r : Relations stored) : Prop :=
  ∀ e ∈ r.actives, ∃ s, readSettings e.2.settings = .ok s

theorem ProjectRow.settings_of_load {row : ProjectRow stored} {p : ProjectRow live}
    (h : row.load = .ok p) : readSettings row.settings = .ok p.settings := by
  obtain ⟨pointer, -, h⟩ := exists_of_bind_ok h
  obtain ⟨settings, hsettings, h⟩ := exists_of_bind_ok h
  obtain ⟨createdAt, -, h⟩ := exists_of_bind_ok h
  obtain ⟨lastModifiedAt, -, h⟩ := exists_of_bind_ok h
  cases h
  exact hsettings

/-- Of what was stored of a project only the settings may be unreadable. -/
theorem ProjectRow.exists_load_store {p : ProjectRow live} (hcreated : p.createdAt.OnCalendar)
    (hmodified : p.lastModifiedAt.OnCalendar) {s : Settings}
    (h : readSettings p.settings.toText = .ok s) : ∃ row, p.store.load = .ok row := by
  simp only [load, store, readNumber?_toInt, h, readTime_millis hcreated, readTime_millis hmodified]
  exact ⟨_, rfl⟩

theorem Relations.settingsRead_of_projects {r : Relations stored} {ps : List Project}
    (h : Reader.cells.projects r .cells r.actives = .ok ps) : r.SettingsRead := by
  intro e he
  obtain ⟨p, hp⟩ := exists_of_loadAll_ok h e he
  obtain ⟨row, hrow, -⟩ := exists_of_map_ok hp
  exact ⟨row.settings, ProjectRow.settings_of_load hrow⟩

/-- What calls at times of the calendar write is read back, unless settings are in the way. -/
theorem Relations.exists_projects {l : Relations live} (htimed : l.ProjectsTimed)
    (h : (l.write .cells).SettingsRead) :
    ∃ ps, Reader.cells.projects (l.write .cells) .cells (l.write .cells).actives = .ok ps := by
  refine loadAll_eq_ok fun e he => ?_
  obtain ⟨s, hs⟩ := h e he
  have hrow := Table.find?_eq_some_iff.2 (List.mem_filter.1 he).1
  rw [find?_projects_write] at hrow
  obtain ⟨row, hrow, hwritten⟩ := Option.map_eq_some_iff.1 hrow
  obtain ⟨hcreated, hmodified⟩ := htimed e.1 row hrow
  rw [ProjectRow.write_cells] at hwritten
  rw [← hwritten] at hs
  obtain ⟨p, hp⟩ := ProjectRow.exists_load_store hcreated hmodified hs
  refine ⟨p.toProject e.1 ((l.write .cells).grantList .cells e.1), ?_⟩
  rw [← hwritten]
  show (ProjectRow.load row.store).map _ = _
  rw [hp]
  rfl

theorem Relations.exists_versions {l : Relations live} (htimed : l.VersionsTimed) (p : Int32) :
    ∃ vs, Reader.cells.versions p ((l.write .cells).versionsOf p) = .ok vs := by
  refine loadAll_eq_ok fun e he => ?_
  rw [versionsOf_write] at he
  obtain ⟨d, hd, rfl⟩ := List.mem_map.1 he
  have htime := htimed _ _ (mem_versionsOf_iff.1 hd)
  exact ⟨_, by
    show (VersionRow.load d.2.store).map _ = _
    rw [VersionRow.load_store htime]
    rfl⟩

theorem readSettings_deep {s : Settings} (h : s.InRange) (hdeep : ¬ s.Shallow) :
    readSettings s.toText = .error .malformedJson := by
  rw [readSettings, Settings.ofText?_eq h, if_neg (mt And.left hdeep)]

/-! ## Runs -/

theorem Call.Makes.timesProjects {σ : Type} {r : Registry σ} {tick : Tick} {call : Call}
    {reply : Reply} {cs : List Change} (h : call.Makes r tick reply cs)
    (htick : tick.now.OnCalendar) : ∀ c ∈ cs, c.TimesProjects := by
  cases call
  case sweep retained =>
    intro c hc
    have hupkeep := h c hc
    cases c <;> trivial
  case setRights p principal isGroup rights =>
    simp only [Call.Makes] at h
    split at h <;> simp [h, Change.TimesProjects]
  case postEvent p kind user message =>
    simp only [Call.Makes] at h
    split at h <;> simp [h, Change.TimesProjects]
  case removeProject p user => rcases h with h | h <;> simp [h, Change.TimesProjects, htick]
  case configure p =>
    obtain ⟨noted, hnoted, h⟩ := h
    rcases hnoted with rfl | rfl <;> simp [h, Change.TimesProjects, htick]
  case createProject | addVersion | uploadFile | putBundle | putBundles =>
    obtain ⟨_, _, h⟩ := h
    simp [h, Change.TimesProjects, htick]
  all_goals
    simp only [Call.Makes] at h
    simp [h, Change.TimesProjects, htick]

namespace Registry

variable {σ : Type} [Store σ] {V : View σ} {r : Registry σ}

theorem Records.run_timed (hV : V.Lawful) {l : Relations live} (h : Records V r l)
    (htimed : l.ProjectsTimed) (calls : List (Tick × Call))
    (hclock : ∀ c ∈ calls, c.1.now.OnCalendar) :
    ∃ l', Records V (r.after calls) l' ∧ l'.ProjectsTimed := by
  induction calls generalizing r l with
  | nil => exact ⟨l, h, htimed⟩
  | cons c rest ih =>
    have htick := hclock c List.mem_cons_self
    obtain ⟨cs, -, hstep, hcs⟩ := h.step hV htick c.2
    refine ih hstep (Change.projectsTimed_applyAll htimed ?_)
      fun d hd => hclock d (List.mem_cons_of_mem c hd)
    cases hanswer : (perform c.1 c.2 r).1 with
    | error e =>
      rw [hanswer] at hcs
      simp [hcs]
    | ok reply =>
      rw [hanswer] at hcs
      exact hcs.timesProjects htick

/-- A run of a database at times of the calendar, as live relations. -/
theorem records_after (limits : Limits) (root : Files.Path) (files : Files.FileTree)
    (calls : List (Tick × Call)) (hclock : ∀ c ∈ calls, c.1.now.OnCalendar) :
    ∃ l, Records Database.view ((start limits root files Database.empty).after calls) l ∧
      l.ProjectsTimed := by
  have hstart : Records Database.view (start limits root files Database.empty) .empty :=
    ⟨Database.good_empty, rfl, fun k row h => by simp [Relations.empty] at h⟩
  exact hstart.run_timed Database.lawful (fun id row h => by simp [Relations.empty] at h) calls
    hclock

/-- A database takes settings for every project that is there. -/
theorem perform_configure {r : Registry Database} (hr : r.store.Good) (tick : Tick) {p : Project}
    (hp : r.store.relations.projects.contains p.id = true) :
    perform tick (.configure p) r = (.ok .done, { r with store := { r.store with
      relations := (Change.configure p.id p.settings (some tick.now)).apply .cells
        r.store.relations } }) := by
  have hplan : Plan.configure (some tick.now) p r.store.relations =
      .ok [.configure p.id p.settings (some tick.now)] := if_pos hp
  have hconfigure : Store.configure tick.now p r.store = r.store.settle (.ok
      [.configure p.id p.settings (some tick.now)]) :=
    hplan ▸ Database.configure_eq hr.isOpen tick.now p
  rw [perform, Step.map_apply, onStore_apply, hconfigure, Database.settle_of_silent _ rfl]
  rfl

/-- It takes those as well that it cannot read back. -/
theorem configure_unread {r : Registry Database} (hr : r.store.Good) (tick : Tick) {p : Project}
    (hp : r.store.relations.isActive p.id = true)
    (hunread : ¬ ∃ s, readSettings p.settings.toText = .ok s) :
    (perform tick (.configure p) r).1 = .ok .done ∧
      ¬ (perform tick (.configure p) r).2.store.relations.SettingsRead := by
  rw [Relations.isActive, Option.any_eq_true] at hp
  obtain ⟨row, hrow, hactive⟩ := hp
  rw [perform_configure hr tick (Table.contains_of_find? hrow)]
  refine ⟨rfl, fun hread => hunread ?_⟩
  have hfind : ((Change.configure p.id p.settings (some tick.now)).apply .cells
      r.store.relations).projects.find? p.id = some { row with
        settings := p.settings.toText
        lastModifiedAt := tick.now.millis } := by
    simp [Change.apply, Change.onProjects, Table.find?_modify, hrow, Medium.cells]
  obtain ⟨s, hs⟩ := hread _ (List.mem_filter.2 ⟨Table.find?_eq_some_iff.1 hfind, hactive⟩)
  exact ⟨s, hs⟩

theorem configure_deep {r : Registry Database} (hr : r.store.Good) (tick : Tick) {p : Project}
    (hp : r.store.relations.isActive p.id = true) (hexact : p.settings.Exact)
    (hdeep : ¬ p.settings.Shallow) :
    (perform tick (.configure p) r).1 = .ok .done ∧
      ¬ (perform tick (.configure p) r).2.store.relations.SettingsRead := by
  refine configure_unread hr tick hp ?_
  rintro ⟨s, hs⟩
  cases (readSettings_deep hexact.inRange hdeep).symm.trans hs

end Registry

end ProjectRegistry
