import ProjectRegistry.Proofs.Registry.Lookups
import ProjectRegistry.Proofs.Registry.Retention

/-!
# Settings that were accepted

Every project takes the settings it is given, and a database stores the text of the last ones. What
it answers afterwards depends on these texts alone: a project is handed out if its own text can be
read, and all active projects are listed, and swept, if the text of each of them can. Versions are
always read.

Settings can be read exactly if no value of their metadata is nested too deep and none of its
objects stands for a text that cannot be read, whatever numbers are in it. Nobody notices when
others are accepted; the next listing of the active projects fails, and with it the sweep of all of
them.
-/

namespace ProjectRegistry

variable {C : Columns} {M : Medium C} {limits : Limits} {r : Relations C}

/-! ## The settings that a run leaves -/

/-- Whether settings are read from the text under which they are stored. -/
def Settings.ComesBack (s : Settings) : Prop := ∃ s', Settings.ofText? s.toText = some s'

/-- Only the nesting of their metadata and texts that stand for values in it keep settings from
being read. -/
theorem Settings.comesBack_iff {s : Settings} (h : s.InRange) :
    s.ComesBack ↔ s.Shallow ∧ s.Unfolds := by
  rw [ComesBack, Settings.ofText?_eq h]
  by_cases hread : s.Shallow ∧ s.Unfolds <;> simp [hread]

/-- The settings that a change gives a project. -/
def Change.settingsFor? (p : Int32) : Change → Option Settings
  | .create id _ _ _ _ => if id = p then some .empty else none
  | .configure id settings _ => if id = p then some settings else none
  | _ => none

/-- The settings that a call that was answered gives a project. A new project has none. -/
def Call.settingsFor? (p : Int32) (reply : Reply) : Call → Option Settings
  | .createProject .. =>
    match reply with
    | .project q => if q.id = p then some .empty else none
    | _ => none
  | .configure q => if q.id = p then some q.settings else none
  | _ => none

/-- The last settings that a run gave a project, which has some as soon as it is there. -/
def lastSettings? (p : Int32) (calls : List (Tick × Call))
    (answers : List (Except Failure Reply)) : Option Settings :=
  (Registry.answered (fun call reply => call.settingsFor? p reply) calls answers).getLast?

theorem Call.Makes.settingsFor? {σ : Type} {r : Registry σ} {tick : Tick} {call : Call}
    {reply : Reply} {cs : List Change} (h : call.Makes r tick reply cs) (p : Int32) :
    cs.filterMap (Change.settingsFor? p) = (call.settingsFor? p reply).toList := by
  cases call
  case sweep retained =>
    refine List.filterMap_eq_nil_iff.2 fun c hc => ?_
    have hupkeep := h c hc
    cases c <;> first | rfl | cases hupkeep
  case createProject name description creator =>
    obtain ⟨q, rfl, rfl⟩ := h
    by_cases hq : q.id = p <;> simp [Change.settingsFor?, Call.settingsFor?, hq]
  case configure q =>
    obtain ⟨noted, -, rfl⟩ := h
    by_cases hq : q.id = p <;> simp [Change.settingsFor?, Call.settingsFor?, hq]
  case setRights q principal isGroup rights =>
    simp only [Call.Makes] at h
    split at h <;> simp [h, Change.settingsFor?, Call.settingsFor?]
  case postEvent q kind user message =>
    simp only [Call.Makes] at h
    split at h <;> simp [h, Change.settingsFor?, Call.settingsFor?]
  case removeProject q user => rcases h with rfl | rfl <;> rfl
  case addVersion | uploadFile | putBundle | putBundles =>
    obtain ⟨_, _, rfl⟩ := h
    rfl
  all_goals
    simp only [Call.Makes] at h
    simp [h, Change.settingsFor?, Call.settingsFor?]

def Relations.settingsAt (r : Relations C) (p : Int32) : Option C.Settings :=
  (r.projects.find? p).map (·.settings)

/-- The settings of a project that stays are its own, whatever else of it is changed. -/
theorem Relations.settings_of_modify {t : Table Int32 (ProjectRow C)} {id : Int32}
    {f : ProjectRow C → ProjectRow C} (hf : ∀ row, (f row).settings = row.settings) (p : Int32) :
    ((t.modify id f).find? p).map (·.settings) = (t.find? p).map (·.settings) := by
  rw [Table.find?_modify]
  split
  · rw [Option.map_map]
    exact congrArg (Option.map · _) (funext hf)
  · rfl

namespace Change

theorem settingsAt_apply {c : Change} (hfit : c.Fits M limits r) (p : Int32) :
    (c.apply M r).settingsAt p =
      (c.settingsFor? p).toList.foldl (fun _ s => some (M.settings s)) (r.settingsAt p) := by
  cases c with
  | create id name description creator now =>
    show ((r.projects.insert id _).find? p).map (·.settings) = _
    rw [Table.find?_insert]
    by_cases hid : id = p
    · simp [settingsFor?, hid, ProjectRow.new, ProjectRow.write]
    · simp [settingsFor?, hid, Relations.settingsAt]
  | configure id settings noted =>
    show ((r.projects.modify id _).find? p).map (·.settings) = _
    rw [Table.find?_modify]
    by_cases hid : id = p
    · obtain ⟨row, hrow⟩ := Table.contains_iff.1 hfit
      rw [hid] at hrow
      simp [settingsFor?, hid, hrow]
    · simp [settingsFor?, hid, Ne.symm hid, Relations.settingsAt]
  | retire | describe | register | point =>
    show ((r.projects.modify _ _).find? p).map _ = (r.projects.find? p).map _
    refine Relations.settings_of_modify ?_ p
    exact fun _ => rfl
  | grant | revoke | log | clean | putBundles | putFlows => rfl

theorem settingsAt_applyAll {cs : List Change} (hfit : AllFit M limits cs r) (p : Int32) :
    (applyAll M cs r).settingsAt p =
      (cs.filterMap (settingsFor? p)).foldl (fun _ s => some (M.settings s)) (r.settingsAt p) := by
  induction cs generalizing r with
  | nil => rfl
  | cons c cs ih =>
    rw [applyAll_cons, ih hfit.2, settingsAt_apply hfit.1, List.filterMap_cons]
    cases c.settingsFor? p <;> rfl

end Change

/-- What is overwritten time and again is what was written last. -/
theorem foldl_overwrite {α β : Type} (f : α → β) (as : List α) (b : Option β) :
    as.foldl (fun _ a => some (f a)) b = (as.getLast?.map f).or b := by
  induction as generalizing b with
  | nil => rfl
  | cons a as ih =>
    rw [List.foldl_cons, ih, List.getLast?_cons]
    cases as.getLast? <;> rfl

namespace Registry

variable {σ : Type} [Store σ] {V : View σ} {r : Registry σ}

/-- A store keeps the last settings of each project. -/
theorem settingsAt_after (hV : V.Lawful) (hr : V.Good r.store)
    (hempty : V.relations r.store = .empty) (calls : List (Tick × Call)) (p : Int32) :
    (V.relations (r.after calls).store).settingsAt p =
      (lastSettings? p calls (r.answers calls)).map V.M.settings := by
  have hrun := foldl_answered hV (fun call reply => call.settingsFor? p reply)
    (fun _ s => some (V.M.settings s)) (fun rs : Relations V.C => rs.settingsAt p)
    (fun hcs hfit => by rw [Change.settingsAt_applyAll hfit, hcs.settingsFor? p]) calls hr
  rw [hrun, foldl_overwrite, hempty]
  exact Option.or_none

/-! ## What is answered -/

/-- An answer that is given if something holds, and is the failure to read settings otherwise. -/
structure AnsweredIf (condition : Prop) (answer : Except Failure Reply) : Prop where
  ok : condition → ∃ reply, answer = .ok reply
  malformed : ¬ condition → answer = .error .malformedJson

theorem AnsweredIf.congr {P Q : Prop} {answer : Except Failure Reply} (h : AnsweredIf P answer)
    (hPQ : P ↔ Q) : AnsweredIf Q answer :=
  ⟨fun hQ => h.ok (hPQ.2 hQ), fun hQ => h.malformed fun hP => hQ (hPQ.1 hP)⟩

theorem Hands.answeredIf {M : Medium C} {rs : Relations C} {Readable : ProjectRow C → Prop}
    {p : Int32} {row : ProjectRow C} {answer : Except Failure Reply}
    (h : Hands M rs Readable p row answer) : AnsweredIf (Readable row) answer :=
  ⟨fun hread => let ⟨_, hq, _⟩ := h.project hread; ⟨_, hq⟩, h.malformed⟩

/-- A sweep is answered if the active projects are listed. -/
theorem AnsweredIf.sweep {P : Prop} {tick : Tick}
    (h : AnsweredIf P (perform tick .activeProjects r).1) (later : Tick) (retained : Nat) :
    AnsweredIf P (perform later (.sweep retained) r).1 := by
  rw [perform, ask_map] at h
  rw [perform_sweep]
  cases hx : Store.activeProjects r.store with
  | error e =>
    rw [hx] at h
    refine ⟨fun hP => ?_, h.malformed⟩
    obtain ⟨reply, hreply⟩ := h.ok hP
    cases hreply
  | ok projects =>
    rw [hx] at h
    exact ⟨fun _ => ⟨_, rfl⟩, fun hP => by cases h.malformed hP⟩

/-- Whether the settings of all active projects can be read, where each project has settings. -/
def AllComeBack (r : Registry Database) (settings : Int32 → Option Settings) : Prop :=
  ∀ p s, r.store.relations.isActive p = true → settings p = some s → s.ComesBack

/-- What a database answers about projects that have some settings. -/
structure ReadsBack (r : Registry Database) (settings : Int32 → Option Settings) : Prop where
  exists_iff (p : Int32) :
    r.store.relations.projects.contains p = true ↔ ∃ s, settings p = some s
  versions (tick : Tick) (p : Int32) : ∃ vs, (perform tick (.versions p) r).1 = .ok (.versions vs)
  byId (tick : Tick) {p : Int32} {s : Settings} : settings p = some s →
    AnsweredIf s.ComesBack (perform tick (.projectById p) r).1
  byName (tick : Tick) {name : String} {p : Int32} {row : ProjectRow stored} {s : Settings} :
    r.store.relations.StandsFor name p row → settings p = some s →
      AnsweredIf s.ComesBack (perform tick (.projectByName name) r).1
  actives (tick : Tick) : AnsweredIf (AllComeBack r settings) (perform tick .activeProjects r).1
  sweep (tick : Tick) (retained : Nat) :
    AnsweredIf (AllComeBack r settings) (perform tick (.sweep retained) r).1
  /-- Settings are taken for every project that is there, whether they come back or not. -/
  accepts (tick : Tick) {q : Project} : r.store.relations.projects.contains q.id = true →
    (perform tick (.configure q) r).1 = .ok .done

theorem exists_readSettings_iff {s : Settings} :
    (∃ s', readSettings s.toText = .ok s') ↔ s.ComesBack := by
  refine exists_congr fun s' => ?_
  rw [readSettings]
  cases Settings.ofText? s.toText <;> simp

theorem legible_iff {row : ProjectRow stored} {s : Settings} (h : row.settings = s.toText) :
    row.Legible ↔ s.ComesBack := by
  rw [ProjectRow.Legible, h, exists_readSettings_iff]

section Stored

variable {r : Registry Database} {settings : Int32 → Option Settings}
  (hstored : ∀ p, r.store.relations.settingsAt p = (settings p).map (·.toText))

include hstored

theorem find?_of_settings {p : Int32} {s : Settings} (hs : settings p = some s) :
    ∃ row, r.store.relations.projects.find? p = some row ∧ row.settings = s.toText := by
  have hat := hstored p
  rw [hs] at hat
  exact Option.map_eq_some_iff.1 hat

theorem settings_of_find? {p : Int32} {row : ProjectRow stored}
    (hrow : r.store.relations.projects.find? p = some row) :
    ∃ s, settings p = some s ∧ row.settings = s.toText := by
  have hat := hstored p
  rw [Relations.settingsAt, hrow] at hat
  obtain ⟨s, hs, htext⟩ := Option.map_eq_some_iff.1 hat.symm
  exact ⟨s, hs, htext.symm⟩

theorem allComeBack_iff :
    (∀ e ∈ r.store.relations.actives, e.2.Legible) ↔ AllComeBack r settings := by
  constructor
  · intro hread p s hactive hs
    obtain ⟨row, hrow, htext⟩ := find?_of_settings hstored hs
    rw [Relations.isActive, hrow] at hactive
    exact (legible_iff htext).1
      (hread (p, row) (List.mem_filter.2 ⟨Table.find?_eq_some_iff.1 hrow, hactive⟩))
  · intro hback e he
    obtain ⟨hmem, hactive⟩ := List.mem_filter.1 he
    have hrow := Table.find?_eq_some_iff.2 hmem
    obtain ⟨s, hs, htext⟩ := settings_of_find? hstored hrow
    refine (legible_iff htext).2 (hback e.1 s ?_ hs)
    rw [Relations.isActive, hrow]
    exact hactive

theorem readsBack {l : Relations live} (h : Records Database.view r l)
    (hL : LooksUp Database.relations .cells ProjectRow.Legible r) : ReadsBack r settings := by
  obtain ⟨hgood, hl, htimed⟩ := h
  have hl : r.store.relations = l.write .cells := hl
  have hlisted (tick : Tick) :
      AnsweredIf (AllComeBack r settings) (perform tick .activeProjects r).1 := by
    refine AnsweredIf.congr ⟨fun hread => ?_, fun hread => ?_⟩ (allComeBack_iff hstored)
    · obtain ⟨qs, hqs, -⟩ := hL.actives tick hread
      exact ⟨_, hqs⟩
    · exact hL.actives_malformed tick (Relations.exists_illegible hread)
  refine ⟨fun p => ?_, fun tick p => ?_, fun tick p s hs => ?_,
    fun tick name p row s hname hs => ?_, hlisted,
    fun tick retained => (hlisted tick).sweep tick retained,
    fun tick q hq => congrArg Prod.fst (perform_configure hgood tick hq)⟩
  · rw [Table.contains_iff]
    exact ⟨fun ⟨row, hrow⟩ => (settings_of_find? hstored hrow).imp fun _ hs => hs.1,
      fun ⟨s, hs⟩ => (find?_of_settings hstored hs).imp fun _ hrow => hrow.1⟩
  · obtain ⟨vs, hvs⟩ := Relations.exists_versions htimed p
    refine ⟨vs, ?_⟩
    rw [perform, ask_map, show Store.versions p r.store = _ from
      Database.answers.versions hgood p]
    show (Reader.cells.versions p (r.store.relations.versionsOf p)).map _ = _
    rw [hl, hvs]
    rfl
  · obtain ⟨row, hrow, htext⟩ := find?_of_settings hstored hs
    exact (hL.byId tick hrow).answeredIf.congr (legible_iff htext)
  · obtain ⟨s', hs', htext⟩ := settings_of_find? hstored hname.1
    rw [hs, Option.some.injEq] at hs'
    rw [← hs'] at htext
    exact (hL.byName tick hname).answeredIf.congr (legible_iff htext)

end Stored

end Registry

/-! ## Whole runs -/

/-- What a run leaves of the reading of a database: all depends on the last settings of the
projects. -/
structure Registry.SettingsDecide (start : Registry Database) (calls : List (Tick × Call)) :
    Prop where
  reads : ReadsBack (start.after calls) fun p => lastSettings? p calls (start.answers calls)
  /-- Settings that do not come back are accepted, and then neither are the projects listed nor is
  any of them swept. -/
  blocks (before later : Tick) {q : Project} (retained : Nat) : before.now.OnCalendar →
    (start.after calls).store.relations.isActive q.id = true → ¬ q.settings.ComesBack →
      (perform before (.configure q) (start.after calls)).1 = .ok .done ∧
        (perform later .activeProjects
          (perform before (.configure q) (start.after calls)).2).1 = .error .malformedJson ∧
        (perform later (.sweep retained)
          (perform before (.configure q) (start.after calls)).2).1 = .error .malformedJson

/-- Of a database only the settings of projects can be unreadable after a run, but these can be left
so by every call that configures a project. They are if a value of the metadata is nested too deep,
or if an object in it has the reserved key in front and not a readable text alone behind it. -/
theorem settings_decide_reads (limits : Limits) (root : Files.Path) (files : Files.FileTree)
    {calls : List (Tick × Call)} (hclock : ∀ c ∈ calls, c.1.now.OnCalendar) :
    (Registry.start limits root files Database.empty).SettingsDecide calls ∧
      ∀ s : Settings, s.InRange → (s.ComesBack ↔ s.Shallow ∧ s.Unfolds) := by
  obtain ⟨l, hrecords, -⟩ := Registry.records_after limits root files calls hclock
  refine ⟨⟨Registry.readsBack (fun p => ?_) hrecords
    (Database.looksUp_after limits root files hclock),
    fun before later q retained hbefore hq hunread => ?_⟩, fun s => Settings.comesBack_iff⟩
  · exact Registry.settingsAt_after (r := .start limits root files Database.empty) Database.lawful
      Database.good_empty rfl calls p
  · have hclock' : ∀ c ∈ calls ++ [(before, .configure q)], c.1.now.OnCalendar := by
      intro c hc
      rcases List.mem_append.1 hc with hc | hc
      · exact hclock c hc
      · rw [List.mem_singleton.1 hc]
        exact hbefore
    have hL := Database.looksUp_after limits root files hclock'
    rw [Registry.after_snoc] at hL
    obtain ⟨haccepted, hblocked⟩ := Registry.configure_unread hrecords.1 before hq
      (mt Registry.exists_readSettings_iff.1 hunread)
    have hlisted := hL.actives_malformed later (Relations.exists_illegible hblocked)
    exact ⟨haccepted, hlisted, (Registry.AnsweredIf.sweep (P := False)
      ⟨False.elim, fun _ => hlisted⟩ later retained).malformed id⟩

/-- A run that leaves a project with the settings that it started with. -/
def plainRun : List (Tick × Call) := [(.first, .createProject "flows" "" "ann")]

theorem plainRun_reads :
    (∀ c ∈ plainRun, c.1.now.OnCalendar) ∧
      let r := (Registry.start {} (.ofText "root") .empty Database.empty).after plainRun
      (∃ vs, (Registry.perform .first (.versions 1) r).1 = .ok (.versions vs)) ∧
        (Registry.perform .first (.configure deepProject) r).1 = .ok .done ∧
        (Registry.perform .first (.sweep 1)
          (Registry.perform .first (.configure deepProject) r).2).1 = .error .malformedJson := by
  have hclock : ∀ c ∈ plainRun, c.1.now.OnCalendar := by decide +kernel
  obtain ⟨hdecide, hnesting⟩ := settings_decide_reads {} (.ofText "root") .empty hclock
  have hexact : deepProject.settings.Exact := by
    intro e he
    rw [List.mem_singleton.1 he]
    exact Json.Value.exact_nested 125
  have hdeep : ¬ deepProject.settings.ComesBack := by
    rw [hnesting _ hexact.inRange]
    decide +kernel
  obtain ⟨haccepted, -, hswept⟩ := hdecide.blocks .first .first 1
    (hclock _ List.mem_cons_self) (by decide +kernel) hdeep
  exact ⟨hclock, hdecide.reads.versions .first 1, haccepted, hswept⟩

end ProjectRegistry
