import ProjectRegistry.Proofs.Registry.Readings
import ProjectRegistry.Proofs.Store.Lookups

/-!
# What look-ups answer

A look-up that finds the row of a project hands the project out with what the row says and with all
its grants. In a database it does so as far as the settings of the row can be read; where they
cannot, the whole answer is the failure to read them, and one such row among the active projects is
enough for the list of all of them to fail.
-/

namespace ProjectRegistry

variable {C : Columns}

/-- What a project that is handed out has of its row, with the full list of its grants. -/
structure Relations.Shows (M : Medium C) (r : Relations C) (p : Int32) (row : ProjectRow C)
    (q : Project) : Prop where
  id : q.id = p
  name : q.name = row.name
  description : q.description = row.description
  active : q.active = row.active
  grants : q.grants = r.grantList M p

/-- A reader for which a test tells the rows that can be read from those with malformed settings. -/
structure Reader.Divides (R : Reader C) (M : Medium C) (r : Relations C)
    (Readable : ProjectRow C → Prop) : Prop where
  shows {p : Int32} {row : ProjectRow C} : r.projects.find? p = some row → Readable row →
    ∃ q, R.projectAt r M p row = .ok q ∧ r.Shows M p row q
  malformed {p : Int32} {row : ProjectRow C} : r.projects.find? p = some row → ¬ Readable row →
    R.projectAt r M p row = .error .malformedJson

/-- Whether the settings of a stored project can be read. -/
def ProjectRow.Legible (row : ProjectRow stored) : Prop := ∃ s, readSettings row.settings = .ok s

theorem Relations.exists_illegible {r : Relations stored} (h : ¬ r.SettingsRead) :
    ∃ e ∈ r.actives, ¬ e.2.Legible := by
  refine Classical.byContradiction fun hall => h fun e he => ?_
  exact Classical.byContradiction fun hillegible => hall ⟨e, he, hillegible⟩

theorem readSettings_eq_malformed {text : String} (h : ¬ ∃ s, readSettings text = .ok s) :
    readSettings text = .error .malformedJson := by
  cases hs : Settings.ofText? text with
  | some s => exact absurd ⟨s, by rw [readSettings, hs]⟩ h
  | none => rw [readSettings, hs]

theorem Memory.divides (r : Relations live) :
    Reader.values.Divides .values r fun _ => True where
  shows _ _ := ⟨_, rfl, rfl, rfl, rfl, rfl, rfl⟩
  malformed _ h := absurd trivial h

/-- What calls at times of the calendar wrote of a project is read as far as its settings are. -/
theorem Database.divides {l : Relations live} (htimed : l.ProjectsTimed) :
    Reader.cells.Divides .cells (l.write .cells) ProjectRow.Legible where
  shows {p row} hrow hlegible := by
    rw [Relations.find?_projects_write] at hrow
    obtain ⟨row', hrow', rfl⟩ := Option.map_eq_some_iff.1 hrow
    obtain ⟨hcreated, hmodified⟩ := htimed p row' hrow'
    obtain ⟨s, hs⟩ := hlegible
    have hread : row'.store.load = .ok { row'.write .millis with settings := s } := by
      have hs : readSettings row'.settings.toText = .ok s := hs
      simp only [ProjectRow.load, ProjectRow.store, readNumber?_toInt, hs,
        readTime_millis hcreated, readTime_millis hmodified]
      simp [ProjectRow.write, Medium.millis, Medium.ofTimes]
      rfl
    refine ⟨({ row'.write .millis with settings := s } : ProjectRow live).toProject p
      ((l.write .cells).grantList .cells p), ?_, rfl, rfl, rfl, rfl, rfl⟩
    show (ProjectRow.load row'.store).map _ = _
    rw [hread]
    rfl
  malformed {p row} hrow hillegible := by
    rw [Relations.find?_projects_write] at hrow
    obtain ⟨row', -, rfl⟩ := Option.map_eq_some_iff.1 hrow
    have hs : readSettings row'.settings.toText = .error .malformedJson :=
      readSettings_eq_malformed hillegible
    have hread : row'.store.load = .error .malformedJson := by
      simp only [ProjectRow.load, ProjectRow.store, readNumber?_toInt, hs]
      rfl
    show (ProjectRow.load row'.store).map _ = _
    rw [hread]
    rfl

/-! ## Lists -/

namespace Reader.Divides

variable {R : Reader C} {M : Medium C} {r : Relations C} {Readable : ProjectRow C → Prop}

theorem projects_ok (h : R.Divides M r Readable) (hread : ∀ e ∈ r.actives, Readable e.2) :
    ∃ qs, R.projects r M r.actives = .ok qs ∧
      ∀ q ∈ qs, ∃ row, r.projects.find? q.id = some row ∧ row.active = true ∧
        r.Shows M q.id row q := by
  have hshows (e : Int32 × ProjectRow C) (he : e ∈ r.actives) :
      ∃ q, R.projectAt r M e.1 e.2 = .ok q ∧ r.Shows M e.1 e.2 q :=
    h.shows (Table.find?_eq_some_iff.2 (List.mem_filter.1 he).1) (hread e he)
  obtain ⟨qs, hqs⟩ := loadAll_eq_ok fun e he => (hshows e he).imp fun _ hq => hq.1
  refine ⟨qs, hqs, fun q hq => ?_⟩
  obtain ⟨e, he, hload⟩ := mem_of_loadAll_ok hqs hq
  obtain ⟨q', hload', hshown⟩ := hshows e he
  cases hload.symm.trans hload'
  obtain ⟨hmem, hactive⟩ := List.mem_filter.1 he
  rw [hshown.id]
  exact ⟨e.2, Table.find?_eq_some_iff.2 hmem, hactive, hshown⟩

theorem projects_error (h : R.Divides M r Readable) {e : Int32 × ProjectRow C}
    (he : e ∈ r.actives) (hread : ¬ Readable e.2) :
    R.projects r M r.actives = .error .malformedJson := by
  have hfind {e : Int32 × ProjectRow C} (he : e ∈ r.actives) :
      r.projects.find? e.1 = some e.2 :=
    Table.find?_eq_some_iff.2 (List.mem_filter.1 he).1
  refine loadAll_eq_error (fun d hd => ?_) he (h.malformed (hfind he) hread)
  by_cases hd' : Readable d.2
  · obtain ⟨q, hq, -⟩ := h.shows (hfind hd) hd'
    exact .inl ⟨q, hq⟩
  · exact .inr (h.malformed (hfind hd) hd')

end Reader.Divides

/-! ## Answers -/

namespace Registry

variable {σ : Type} [Store σ]

/-- The answer to a look-up that found a row: the project, if the row can be read. -/
structure Hands (M : Medium C) (r : Relations C) (Readable : ProjectRow C → Prop) (p : Int32)
    (row : ProjectRow C) (answer : Except Failure Reply) : Prop where
  project : Readable row → ∃ q, answer = .ok (.project q) ∧ r.Shows M p row q
  malformed : ¬ Readable row → answer = .error .malformedJson

/-- What a registry answers to the look-ups of projects. -/
structure LooksUp (relations : σ → Relations C) (M : Medium C) (Readable : ProjectRow C → Prop)
    (r : Registry σ) : Prop where
  byId (tick : Tick) {p : Int32} {row : ProjectRow C} :
    (relations r.store).projects.find? p = some row →
      Hands M (relations r.store) Readable p row (perform tick (.projectById p) r).1
  byId_none (tick : Tick) {p : Int32} : (relations r.store).projects.contains p = false →
    (perform tick (.projectById p) r).1 = .error (.noProject p)
  byName (tick : Tick) {name : String} {p : Int32} {row : ProjectRow C} :
    (relations r.store).StandsFor name p row →
      Hands M (relations r.store) Readable p row (perform tick (.projectByName name) r).1
  byName_none (tick : Tick) {name : String} :
    (∀ p row, (relations r.store).projects.find? p = some row → row.name ≠ name) →
      (perform tick (.projectByName name) r).1 = .error (.notFound .project name)
  /-- The list has exactly the active projects, in ascending order of their ids. -/
  actives (tick : Tick) : (∀ e ∈ (relations r.store).actives, Readable e.2) →
    ∃ qs, (perform tick .activeProjects r).1 = .ok (.projects qs) ∧
      (qs.map Project.id).Pairwise (· < ·) ∧
      (∀ p, p ∈ qs.map Project.id ↔ (relations r.store).isActive p = true) ∧
      ∀ q ∈ qs, ∃ row, (relations r.store).projects.find? q.id = some row ∧ row.active = true ∧
        (relations r.store).Shows M q.id row q
  actives_malformed (tick : Tick) : (∃ e ∈ (relations r.store).actives, ¬ Readable e.2) →
    (perform tick .activeProjects r).1 = .error .malformedJson

variable {V : View σ} {R : Reader V.C} {r : Registry σ} {Readable : ProjectRow V.C → Prop}

omit [Store σ] in
theorem hands_of_divides (h : R.Divides V.M (V.relations r.store) Readable) {p : Int32}
    {row : ProjectRow V.C} (hrow : (V.relations r.store).projects.find? p = some row) :
    Hands V.M (V.relations r.store) Readable p row
      ((R.projectAt (V.relations r.store) V.M p row).map Reply.project) where
  project hread := by
    obtain ⟨q, hq, hshown⟩ := h.shows hrow hread
    exact ⟨q, by rw [hq]; rfl, hshown⟩
  malformed hread := by
    rw [h.malformed hrow hread]
    rfl

theorem looksUp (hA : V.Answers R) (hF : V.Finds R) (hr : V.Good r.store)
    (hnames : (V.relations r.store).NamesUnique)
    (hR : R.Divides V.M (V.relations r.store) Readable) :
    LooksUp V.relations V.M Readable r where
  byId tick {p row} hrow := by
    rw [perform, ask_map, hF.projectById hr, Relations.rowAt?, hrow]
    exact hands_of_divides hR hrow
  byId_none tick {p} hp := by
    rw [perform, ask_map, hF.projectById hr, Relations.rowAt?,
      Table.find?_eq_none_of_not_contains hp]
    rfl
  byName tick {name p row} h := by
    rw [perform, ask_map, hF.projectByName hr hnames, (Relations.rowNamed?_eq_some_iff hnames).2 h]
    exact hands_of_divides hR h.1
  byName_none tick {name} h := by
    rw [perform, ask_map, hF.projectByName hr hnames, Relations.rowNamed?_eq_none_iff.2 h]
    rfl
  actives tick hread := by
    obtain ⟨qs, hqs, hshows⟩ := hR.projects_ok hread
    have hids := Reader.ids_of_projects hqs
    refine ⟨qs, ?_, ?_, fun p => ?_, hshows⟩
    · rw [perform, ask_map, hA.activeProjects hr, hqs]
      rfl
    · rw [hids, List.pairwise_map]
      exact ((V.relations r.store).projects.ordered.filter _).imp of_decide_eq_true
    · rw [hids, Relations.isActive_iff]
  actives_malformed tick := by
    rintro ⟨e, he, hread⟩
    rw [perform, ask_map, hA.activeProjects hr, hR.projects_error he hread]
    rfl

theorem namesUnique_after (hV : V.Lawful) (hr : V.Good r.store)
    (hempty : V.relations r.store = .empty) (calls : List (Tick × Call)) :
    (V.relations (r.after calls).store).NamesUnique := by
  obtain ⟨cs, hfit, hrelations⟩ := relations_after hV hr hempty calls
  rw [hrelations]
  exact Change.namesUnique_applyAll Relations.namesUnique_empty hfit

end Registry

/-- Whatever was asked of it before, memory hands out every project that is there. -/
theorem Memory.looksUp_after (limits : Limits) (root : Files.Path) (files : Files.FileTree)
    (calls : List (Tick × Call)) :
    Registry.LooksUp Memory.relations .values (fun _ => True)
      ((Registry.start limits root files Memory.empty).after calls) :=
  Registry.looksUp (V := Memory.view) answers finds
    (Registry.good_after (r := .start limits root files Memory.empty) lawful good_empty calls)
    (Registry.namesUnique_after (r := .start limits root files Memory.empty) lawful good_empty rfl
      calls)
    (divides _)

/-- A database hands out those whose settings can be read. -/
theorem Database.looksUp_after (limits : Limits) (root : Files.Path) (files : Files.FileTree)
    {calls : List (Tick × Call)} (hclock : ∀ c ∈ calls, c.1.now.OnCalendar) :
    Registry.LooksUp Database.relations .cells ProjectRow.Legible
      ((Registry.start limits root files Database.empty).after calls) := by
  obtain ⟨l, ⟨hgood, hl, -⟩, htimed⟩ := Registry.records_after limits root files calls hclock
  refine Registry.looksUp (V := Database.view) answers finds hgood
    (Registry.namesUnique_after (r := .start limits root files Database.empty) lawful good_empty
      rfl calls) ?_
  rw [hl]
  exact divides htimed

end ProjectRegistry
