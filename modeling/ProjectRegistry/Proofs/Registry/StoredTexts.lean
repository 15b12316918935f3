import ProjectRegistry.Proofs.Registry.Pointer
import ProjectRegistry.Proofs.Registry.Settings
import ProjectRegistry.Proofs.Store.Flows

/-!
# Free JSON in a database

Graphs and settings are taken as they are and kept as texts. Whatever is called after that, they are
answered as they were put until others take their place; if they are nested too deep to be read, the
answers say so. An object with the reserved key in front is taken as well, but what is answered then
is never what was put.

The limit is the same for both, but two of its levels are spent on the settings that metadata is in.
-/

namespace ProjectRegistry

open Json (nestingLimit)

variable {C : Columns} {M : Medium C} {limits : Limits} {r : Relations C}

/-! ## What takes the place of a text -/

def Change.Configures (p : Int32) : Change → Prop
  | .configure id _ _ => id = p
  | _ => False

/-- Whether a call puts a flow under an id into a version. -/
def Call.PutsFlow (p v : Int32) (id : String) : Call → Prop
  | .putFlow q w f | .updateFlow q w f => q.id = p ∧ w = v ∧ f.id = id
  | .putFlows q w fs => q.id = p ∧ w = v ∧ ∃ f ∈ fs, f.id = id
  | _ => False

def Call.Configures (p : Int32) : Call → Prop
  | .configure q => q.id = p
  | _ => False

theorem Call.Makes.puts {σ : Type} {r : Registry σ} {tick : Tick} {call : Call} {reply : Reply}
    {cs : List Change} (h : call.Makes r tick reply cs) (p : Int32) :
    ∀ c ∈ cs, (∀ v id, c.PutsFlow p v id → call.PutsFlow p v id) ∧
      (c.Configures p → call.Configures p) := by
  cases call
  case sweep retained =>
    intro c hc
    have hupkeep := h c hc
    cases c <;> first | exact ⟨fun _ _ => False.elim, False.elim⟩ | cases hupkeep
  case setRights q principal isGroup rights =>
    simp only [Call.Makes] at h
    split at h <;> simp [h, Change.PutsFlow, Change.Configures]
  case postEvent q kind user message =>
    simp only [Call.Makes] at h
    split at h <;> simp [h, Change.PutsFlow, Change.Configures]
  case removeProject q user =>
    rcases h with rfl | rfl <;> simp [Change.PutsFlow, Change.Configures]
  case configure q =>
    obtain ⟨_, -, rfl⟩ := h
    simp [Change.PutsFlow, Change.Configures, Call.Configures]
  case createProject | addVersion | uploadFile | putBundle | putBundles =>
    obtain ⟨_, _, rfl⟩ := h
    simp [Change.PutsFlow, Change.Configures]
  all_goals
    simp only [Call.Makes] at h
    simp [h, Change.PutsFlow, Change.Configures, Call.PutsFlow]

namespace Change

/-- The settings of a project that is there are only changed by configuring it. -/
theorem settingsAt_apply_of_quiet {c : Change} (hfit : c.Fits M limits r) {p : Int32}
    (hp : r.projects.contains p = true) (hquiet : ¬ c.Configures p) :
    (c.apply M r).settingsAt p = r.settingsAt p := by
  have hnone : c.settingsFor? p = none := by
    cases c
    case create id name description creator now =>
      refine if_neg ?_
      rintro rfl
      rw [not_contains_of_fits_create hfit] at hp
      cases hp
    case configure => exact if_neg hquiet
    all_goals rfl
  rw [settingsAt_apply hfit, hnone]
  rfl

theorem settingsAt_applyAll_of_quiet {cs : List Change} (hfit : AllFit M limits cs r) {p : Int32}
    (hp : r.projects.contains p = true) (hquiet : ∀ c ∈ cs, ¬ c.Configures p) :
    (applyAll M cs r).settingsAt p = r.settingsAt p := by
  induction cs generalizing r with
  | nil => rfl
  | cons c cs ih =>
    rw [applyAll_cons, ih hfit.2 (contains_apply_of_contains c hp)
      fun d hd => hquiet d (List.mem_cons_of_mem c hd)]
    exact settingsAt_apply_of_quiet hfit.1 hp (hquiet c List.mem_cons_self)

end Change

namespace Registry

section Runs

variable {σ : Type} [Store σ] {V : View σ} {r : Registry σ} {calls : List (Tick × Call)}
  {p v : Int32} {id : String}

/-- A flow of a version that stays is the same after calls that do not put it. -/
theorem find?_flows_run (hV : V.Lawful) (hr : V.Good r.store)
    (hquiet : ∀ c ∈ calls, ¬ c.2.PutsFlow p v id)
    (hv : (V.relations r.store).hasVersion p v = true)
    (hstays : (V.relations (r.after calls).store).hasVersion p v = true) :
    (V.relations (r.after calls).store).flows.find? (p, v, id) =
      (V.relations r.store).flows.find? (p, v, id) := by
  have hbecomes : Becomes V (fun d => ¬ d.PutsFlow p v id) r (r.after calls) :=
    becomes_run hV hr fun c hc _ _ _ hmakes d hd hputs =>
      hquiet c hc ((hmakes.puts p d hd).1 v id hputs)
  obtain ⟨-, -, cs, hcs, hfit, hrelations⟩ := hbecomes
  rw [hrelations] at hstays ⊢
  exact Change.find?_flows_applyAll (hV.sound hr) hfit hcs hv hstays

theorem settingsAt_run (hV : V.Lawful) (hr : V.Good r.store)
    (hquiet : ∀ c ∈ calls, ¬ c.2.Configures p)
    (hp : (V.relations r.store).projects.contains p = true) :
    (V.relations (r.after calls).store).settingsAt p = (V.relations r.store).settingsAt p := by
  have hbecomes : Becomes V (fun d => ¬ d.Configures p) r (r.after calls) :=
    becomes_run hV hr fun c hc _ _ _ hmakes d hd hsets =>
      hquiet c hc ((hmakes.puts p d hd).2 hsets)
  obtain ⟨-, -, cs, hcs, hfit, hrelations⟩ := hbecomes
  rw [hrelations]
  exact Change.settingsAt_applyAll_of_quiet hfit hp hcs

end Runs

variable {r : Registry Database}

/-! ## Graphs of the current version -/

theorem perform_currentVersion_iff (hr : r.store.Good) {tick : Tick} {q : Project} {v : Int32} :
    (perform tick (.currentVersion q) r).1 = .ok (.number (some v)) ↔
      r.store.relations.projects.contains q.id = true ∧
        r.store.relations.currentOf .cells q.id = some v :=
  currentVersion_answered_iff Database.answers hr

/-- What is asked about the current version is asked about its number. -/
theorem atCurrent_of_perform {α : Type} (hr : r.store.Good) {tick : Tick} {q : Project} {v : Int32}
    (h : (perform tick (.currentVersion q) r).1 = .ok (.number (some v)))
    (answer : Int32 → Except Failure α) :
    r.store.relations.atCurrent .cells q.id answer = answer v := by
  obtain ⟨hq, hv⟩ := (perform_currentVersion_iff hr).1 h
  rw [Relations.atCurrent, if_pos hq, hv]

/-- The current version is there. -/
theorem hasVersion_of_perform (hr : r.store.Good) {tick : Tick} {q : Project} {v : Int32}
    (h : (perform tick (.currentVersion q) r).1 = .ok (.number (some v))) :
    r.store.relations.hasVersion q.id v = true := by
  have hsound : r.store.relations.Sound .cells := hr.sound
  have hpointer : r.store.relations.pointerOf .cells q.id = some v.toInt := by
    rw [pointerOf_eq_currentOf hsound, ((perform_currentVersion_iff hr).1 h).2]
    rfl
  obtain ⟨w, hw, hkept⟩ := hsound.pointer_some hpointer
  rwa [Int32.toInt_inj.1 hw] at hkept

/-- A database takes flows for every version that is there. -/
theorem perform_putFlows (hr : r.store.Good) (tick : Tick) {p : Project} {v : Int32}
    (hv : r.store.relations.hasVersion p.id v = true) (fs : List Flow) :
    perform tick (.putFlows p v fs) r = (.ok .done, { r with store := { r.store with
      relations := (Change.putFlows p.id v fs).apply .cells r.store.relations } }) := by
  have hput := Database.writesFlows.putFlows hr hv fs
  rw [perform, Step.map_apply, onStore_apply, hput]
  rfl

/-- The last graph under an id stays in its version until another one is put there. -/
theorem find?_flows_after (hr : r.store.Good) (tick : Tick) {p : Project} {v : Int32}
    {fs : List Flow} {f : Flow} {between : List (Tick × Call)}
    (hv : r.store.relations.hasVersion p.id v = true) (hlast : lastFlow? f.id fs = some f)
    (hquiet : ∀ c ∈ between, ¬ c.2.PutsFlow p.id v f.id)
    (hstays : (r.after ((tick, .putFlows p v fs) :: between)).store.relations.hasVersion p.id v =
      true) :
    (r.after ((tick, .putFlows p v fs) :: between)).store.relations.flows.find? (p.id, v, f.id) =
      some f.graph.toText := by
  have hgood := (becomes_perform Database.lawful hr tick (.putFlows p v fs)).2.1
  rw [after_cons] at hstays ⊢
  rw [perform_putFlows hr tick hv fs] at hgood hstays ⊢
  refine (find?_flows_run Database.lawful hgood hquiet hv hstays).trans ?_
  refine (Change.find?_flows_putFlows p.id v fs p.id v f.id).trans ?_
  rw [if_pos ⟨rfl, rfl⟩, hlast]
  rfl

/-- What is answered about a flow of the current version of a project: it is the flow of its id, and
one of those that are listed, unless its graph is nested too deep or has an object with the reserved
key in front. -/
structure TellsFlow (q : Project) (f : Flow) (r : Registry Database) : Prop where
  flow (tick : Tick) : (perform tick (.flow q f.id) r).1 = .ok (.flow f) ↔
    f.graph.nesting ≤ nestingLimit ∧ f.graph.Unreserved
  deep (tick : Tick) : ¬ f.graph.nesting ≤ nestingLimit →
    (perform tick (.flow q f.id) r).1 = .error .malformedJson
  flows (tick : Tick) :
    (∃ gs, (perform tick (.flows q) r).1 = .ok (.flows gs) ∧ f.graph.nesting ≤ nestingLimit ∧
      (f ∈ gs ↔ f.graph.Unreserved)) ∨ (perform tick (.flows q) r).1 = .error .malformedJson

theorem tellsFlow (hr : r.store.Good) {tick : Tick} {q : Project} {v : Int32} {f : Flow}
    (hcurrent : (perform tick (.currentVersion q) r).1 = .ok (.number (some v)))
    (hregular : f.graph.Regular)
    (hfind : r.store.relations.flows.find? (q.id, v, f.id) = some f.graph.toText) :
    r.TellsFlow q f := by
  have hflow (tick : Tick) : (perform tick (.flow q f.id) r).1 =
      (Reader.cells.flowAt r.store.relations q.id v f.id).map .flow := by
    rw [perform_flow, show Store.flow q f.id r.store = _ from Database.answers.flow hr q f.id]
    exact congrArg (Except.map _) (atCurrent_of_perform hr hcurrent _)
  have hflows (tick : Tick) : (perform tick (.flows q) r).1 =
      (Reader.cells.flowsAt r.store.relations q.id v).map .flows := by
    rw [perform_flows, show Store.flows q r.store = _ from Database.answers.flows hr q]
    exact congrArg (Except.map _) (atCurrent_of_perform hr hcurrent _)
  refine ⟨fun tick => ?_, fun tick hdeep => ?_, fun tick => ?_⟩
  · rw [hflow, ← Reader.flowAt_eq_ok_iff hregular hfind]
    exact map_eq_ok_iff fun _ _ => Reply.flow.inj
  · rw [hflow, Reader.flowAt_deep hregular hfind hdeep]
    rfl
  · rw [hflows]
    rcases Reader.flowsAt_cases r.store.relations q.id v with ⟨gs, hread⟩ | hread
    · exact .inl ⟨gs, by rw [hread]; rfl, Reader.mem_of_flowsAt hregular hfind hread⟩
    · exact .inr (by rw [hread]; rfl)

/-- What holds of flows that are put into a version that is there: they are taken, and the last one
of an id is told of from then on, whenever its version is current and until others take its place.
-/
structure KeepsFlows (r : Registry Database) : Prop where
  putFlows (tick : Tick) {p : Project} {v : Int32} (fs : List Flow) :
    r.store.relations.hasVersion p.id v = true → (perform tick (.putFlows p v fs) r).1 = .ok .done
  tells (tick later : Tick) {p q : Project} {v : Int32} {fs : List Flow} {f : Flow}
    (between : List (Tick × Call)) :
    r.store.relations.hasVersion p.id v = true → lastFlow? f.id fs = some f → f.graph.Regular →
    (∀ c ∈ between, ¬ c.2.PutsFlow p.id v f.id) → q.id = p.id →
    (perform later (.currentVersion q) (r.after ((tick, .putFlows p v fs) :: between))).1 =
        .ok (.number (some v)) →
      (r.after ((tick, .putFlows p v fs) :: between)).TellsFlow q f

theorem keepsFlows (hr : r.store.Good) : r.KeepsFlows where
  putFlows tick p v fs hv := congrArg Prod.fst (perform_putFlows hr tick hv fs)
  tells tick later p q v fs f between hv hlast hregular hquiet hq hcurrent := by
    have hgood := good_after Database.lawful hr ((tick, .putFlows p v fs) :: between)
    have hstays := hasVersion_of_perform hgood hcurrent
    rw [hq] at hstays
    have hfind := find?_flows_after hr tick hv hlast hquiet hstays
    rw [← hq] at hfind
    exact tellsFlow hgood hcurrent hregular hfind

/-! ## Settings -/

/-- An answer with a project that has some settings, if these come back, and the failure to read
them if they are nested too deep. -/
structure AnswersSettings (s : Settings) (answer : Except Failure Reply) : Prop where
  told : (∃ q, answer = .ok (.project q) ∧ q.settings = s) ↔ s.Shallow ∧ s.Unreserved
  deep : ¬ s.Shallow → answer = .error .malformedJson

/-- What is answered about a project that has some settings. -/
structure TellsSettings (p : Int32) (s : Settings) (r : Registry Database) : Prop where
  byId (tick : Tick) : AnswersSettings s (perform tick (.projectById p) r).1
  byName (tick : Tick) {name : String} {row : ProjectRow stored} :
    r.store.relations.StandsFor name p row →
      AnswersSettings s (perform tick (.projectByName name) r).1
  actives (tick : Tick) {qs : List Project} :
    (perform tick .activeProjects r).1 = .ok (.projects qs) →
      ∀ q ∈ qs, q.id = p → (q.settings = s ↔ s.Unreserved)
  actives_deep (tick : Tick) : r.store.relations.isActive p = true → ¬ s.Shallow →
    (perform tick .activeProjects r).1 = .error .malformedJson

section Row

variable {l : Relations stored} {p : Int32} {row : ProjectRow stored} {s : Settings}
  (hregular : s.Regular) (htext : row.settings = s.toText)

include hregular htext

theorem not_legible_of_deep (hdeep : ¬ s.Shallow) : ¬ row.Legible := by
  rintro ⟨s', hs'⟩
  rw [htext, readSettings_deep hregular.inRange hdeep] at hs'
  cases hs'

/-- Settings that are read from the text of others are these unless the reserved key is in the way.
-/
theorem settings_of_projectAt {q : Project} (h : Reader.cells.projectAt l .cells p row = .ok q) :
    s.Shallow ∧ (q.settings = s ↔ s.Unreserved) := by
  obtain ⟨read, hload, rfl⟩ := exists_of_map_ok h
  have hread := ProjectRow.settings_of_load hload
  rw [htext, readSettings, Settings.ofText?_eq hregular.inRange] at hread
  by_cases hs : s.Shallow ∧ s.Unfolds
  · rw [if_pos hs] at hread
    have hsettings : (read.toProject p (l.grantList .cells p)).settings = s.reread :=
      (Except.ok.inj hread).symm
    rw [hsettings, ← hregular.reread_eq_iff]
    exact ⟨hs.1, fun h => ⟨hs.2, h⟩, And.right⟩
  · rw [if_neg hs] at hread
    cases hread

theorem answersSettings (hD : Reader.cells.Divides .cells l ProjectRow.Legible)
    (hrow : l.projects.find? p = some row) :
    AnswersSettings s ((Reader.cells.projectAt l .cells p row).map .project) where
  told := by
    constructor
    · rintro ⟨q, hq, hsettings⟩
      obtain ⟨q', hread, hsame⟩ := exists_of_map_ok hq
      cases hsame
      have htold := settings_of_projectAt hregular htext hread
      exact ⟨htold.1, htold.2.1 hsettings⟩
    · rintro ⟨hs, hfree⟩
      have hexact := Settings.exact_iff.2 ⟨hregular, hfree⟩
      have hlegible : row.Legible := ⟨s, by rw [htext, readSettings_toText hexact hs]⟩
      obtain ⟨q, hq, -⟩ := hD.shows hrow hlegible
      exact ⟨q, by rw [hq]; rfl, (settings_of_projectAt hregular htext hq).2.2 hfree⟩
  deep hs := by
    rw [hD.malformed hrow (not_legible_of_deep hregular htext hs)]
    rfl

end Row

theorem tellsSettings (hr : r.store.Good) (hnames : r.store.relations.NamesUnique)
    (hD : Reader.cells.Divides .cells r.store.relations ProjectRow.Legible) {p : Int32}
    {s : Settings} (hregular : s.Regular) (hat : r.store.relations.settingsAt p = some s.toText) :
    r.TellsSettings p s := by
  obtain ⟨row, hrow, htext⟩ := Option.map_eq_some_iff.1 hat
  have hanswer := answersSettings hregular htext hD hrow
  refine ⟨fun tick => ?_, fun tick name row' hname => ?_, fun tick qs hqs q hq hid => ?_,
    fun tick hactive hdeep => ?_⟩
  · rw [perform, ask_map, show Store.projectById p r.store = _ from Database.finds.projectById hr p]
    show AnswersSettings s ((Reader.cells.found r.store.relations .cells (.noProject p)
      (r.store.relations.rowAt? p)).map .project)
    rw [Relations.rowAt?, hrow]
    exact hanswer
  · rw [perform, ask_map, show Store.projectByName name r.store = _ from
      Database.finds.projectByName hr hnames name]
    show AnswersSettings s ((Reader.cells.found r.store.relations .cells (.notFound .project name)
      (r.store.relations.rowNamed? name)).map .project)
    rw [(Relations.rowNamed?_eq_some_iff hnames).2 hname]
    cases hrow.symm.trans hname.1
    exact hanswer
  · rw [perform, ask_map, show Store.activeProjects r.store = _ from
      Database.answers.activeProjects hr] at hqs
    obtain ⟨qs', hread, hsame⟩ := exists_of_map_ok hqs
    cases hsame
    have hread : Reader.cells.projects r.store.relations .cells r.store.relations.actives =
        .ok qs := hread
    obtain ⟨e, he, hload⟩ := mem_of_loadAll_ok hread hq
    have hfind := Table.find?_eq_some_iff.2 (List.mem_filter.1 he).1
    rw [← (Reader.of_projectAt_ok hload).1, hid, hrow, Option.some.injEq] at hfind
    rw [hfind] at htext
    exact (settings_of_projectAt hregular htext hload).2
  · have hmem : (p, row) ∈ r.store.relations.actives := by
      rw [Relations.isActive, hrow] at hactive
      exact List.mem_filter.2 ⟨Table.find?_eq_some_iff.1 hrow, hactive⟩
    rw [perform, ask_map, show Store.activeProjects r.store = _ from
      Database.answers.activeProjects hr]
    show (Reader.cells.projects r.store.relations .cells r.store.relations.actives).map _ = _
    rw [hD.projects_error hmem (not_legible_of_deep hregular htext hdeep)]
    rfl

/-- What holds of settings that are given to a project that is there, at times of the calendar: they
are taken, and told of until others take their place. -/
structure KeepsSettings (r : Registry Database) : Prop where
  configure (tick : Tick) {p : Project} : r.store.relations.projects.contains p.id = true →
    (perform tick (.configure p) r).1 = .ok .done
  tells (tick : Tick) {p : Project} (between : List (Tick × Call)) :
    r.store.relations.projects.contains p.id = true → p.settings.Regular → tick.now.OnCalendar →
    (∀ c ∈ between, c.1.now.OnCalendar ∧ ¬ c.2.Configures p.id) →
      (r.after ((tick, .configure p) :: between)).TellsSettings p.id p.settings

/-- The last settings of a project stay until it is configured again. -/
theorem settingsAt_configured (hr : r.store.Good) (tick : Tick) {p : Project}
    {between : List (Tick × Call)} (hp : r.store.relations.projects.contains p.id = true)
    (hquiet : ∀ c ∈ between, ¬ c.2.Configures p.id) :
    (r.after ((tick, .configure p) :: between)).store.relations.settingsAt p.id =
      some p.settings.toText := by
  have hgood := (becomes_perform Database.lawful hr tick (.configure p)).2.1
  have hfit : (Change.configure p.id p.settings (some tick.now)).Fits .cells r.limits
    r.store.relations := hp
  rw [after_cons]
  rw [perform_configure hr tick hp] at hgood ⊢
  refine (settingsAt_run Database.lawful hgood hquiet
    (Change.contains_apply_of_contains _ hp)).trans ?_
  refine (Change.settingsAt_apply hfit p.id).trans ?_
  rw [Change.settingsFor?, if_pos rfl]
  rfl

theorem keepsSettings (limits : Limits) (root : Files.Path) (files : Files.FileTree)
    {calls : List (Tick × Call)} (hclock : ∀ c ∈ calls, c.1.now.OnCalendar) :
    ((start limits root files Database.empty).after calls).KeepsSettings := by
  have hr : ((start limits root files Database.empty).after calls).store.Good :=
    good_after (r := start limits root files Database.empty) Database.lawful Database.good_empty
      calls
  refine ⟨fun tick p hp => congrArg Prod.fst (perform_configure hr tick hp),
    fun tick p between hp hregular htick hbetween => ?_⟩
  have hat := settingsAt_configured hr tick hp fun c hc => (hbetween c hc).2
  rw [← after_append] at hat ⊢
  have hclock' : ∀ c ∈ calls ++ (tick, .configure p) :: between, c.1.now.OnCalendar := by
    intro c hc
    rcases List.mem_append.1 hc with hc | hc
    · exact hclock c hc
    · rcases List.mem_cons.1 hc with rfl | hc
      · exact htick
      · exact (hbetween c hc).1
  obtain ⟨l, ⟨hgood, hl, -⟩, htimed⟩ := records_after limits root files _ hclock'
  have hnames := namesUnique_after (r := start limits root files Database.empty) Database.lawful
    Database.good_empty rfl (calls ++ (tick, .configure p) :: between)
  refine tellsSettings hgood hnames ?_ hregular hat
  rw [show Database.relations _ = _ from hl]
  exact Database.divides htimed

end Registry

/-- In every state that calls lead a database to, graphs are taken for every version and settings
for every project that is there. They are answered as they were put, the last of each, exactly if
they are not nested too deep and no object in them has the reserved key in front; if they are nested
too deep, the answer is that they cannot be read. -/
theorem stored_json_comes_back (limits : Limits) (root : Files.Path) (files : Files.FileTree)
    (calls : List (Tick × Call)) :
    ((Registry.start limits root files Database.empty).after calls).KeepsFlows ∧
      ((∀ c ∈ calls, c.1.now.OnCalendar) →
        ((Registry.start limits root files Database.empty).after calls).KeepsSettings) :=
  ⟨Registry.keepsFlows (Registry.good_after (r := .start limits root files Database.empty)
    Database.lawful Database.good_empty calls), Registry.keepsSettings limits root files⟩

theorem Json.Value.nesting_nested (n : Nat) : (nested n).nesting = n + 1 := by
  induction n with
  | zero => rfl
  | succ n ih => simp [nested, nesting, nestingOfValues, ih]

theorem Settings.exact_nested (key : String) (n : Nat) :
    (Settings.empty.withMetadata key (.nested n)).Exact := by
  intro e he
  rw [List.mem_singleton.1 he]
  exact Json.Value.exact_nested n

/-- A copy of a project with the deepest arrays that metadata can hold and be read. -/
def shallowProject : Project :=
  (Project.new 1 "flows" "" "ann" .epoch).withSettings
    (Settings.empty.withMetadata "deep" (.nested 124))

/-- A call that puts a graph under an id. -/
def putGraph (g : Json.Value) : Tick × Call := (.first, .putFlows deepProject 1 [⟨"main", g⟩])

def reservedGraph : Json.Value := .object [(Json.embeddingKey, .null)]

theorem sparseRun_keeps_json :
    (∀ c ∈ sparseRun, c.1.now.OnCalendar) ∧
      let r := (Registry.start {} (.ofText "root") .empty Database.empty).after sparseRun
      (Registry.perform .first (.flow deepProject "main") (r.after [putGraph (.nested 126)])).1 =
          .ok (.flow ⟨"main", .nested 126⟩) ∧
        (Registry.perform .first (.flow deepProject "main") (r.after [putGraph (.nested 127)])).1 =
          .error .malformedJson ∧
        (Registry.perform .first (.flow deepProject "main") (r.after [putGraph reservedGraph])).1 ≠
          .ok (.flow ⟨"main", reservedGraph⟩) ∧
        (∃ q, (Registry.perform .first (.projectById 1)
          (r.after [(.first, .configure shallowProject)])).1 = .ok (.project q) ∧
            q.settings = shallowProject.settings) ∧
        (Registry.perform .first (.projectById 1)
          (r.after [(.first, .configure deepProject)])).1 = .error .malformedJson := by
  have hclock : ∀ c ∈ sparseRun, c.1.now.OnCalendar := by decide +kernel
  obtain ⟨hflows, hsettings⟩ := stored_json_comes_back {} (.ofText "root") .empty sparseRun
  have hgood := Registry.good_after (r := .start {} (.ofText "root") .empty Database.empty)
    Database.lawful Database.good_empty sparseRun
  have hversion : ((Registry.start {} (.ofText "root") .empty Database.empty).after
      sparseRun).store.relations.hasVersion 1 1 = true := by decide +kernel
  have hproject := (hgood.sound.version hversion).1
  have hlast (g : Json.Value) :
      lastFlow? "main" [⟨"main", g⟩] = some (⟨"main", g⟩ : Flow) := rfl
  have hflow {g : Json.Value} (hregular : g.Regular) (hp) (hcurrent) :=
    hflows.tells .first .first (p := deepProject) (q := deepProject) (f := ⟨"main", g⟩) []
      hversion (hlast g) hregular (by simp) rfl
      ((Registry.perform_currentVersion_iff (Registry.good_after Database.lawful hgood _)).2
        ⟨hp, hcurrent⟩)
  have hnested (n : Nat) := Json.Value.exact_nested n
  refine ⟨hclock, ?_, ?_, ?_, ?_, ?_⟩
  · refine ((hflow (hnested 126).1 (by decide +kernel) (by decide +kernel)).flow .first).2
      ⟨?_, (hnested 126).2⟩
    rw [Json.Value.nesting_nested]
    decide
  · refine (hflow (hnested 127).1 (by decide +kernel) (by decide +kernel)).deep .first ?_
    rw [Json.Value.nesting_nested]
    decide
  · have hregular : reservedGraph.Regular := ⟨List.pairwise_singleton _ _, trivial, trivial⟩
    intro htold
    have htold := ((hflow hregular (by decide +kernel) (by decide +kernel)).flow .first).1 htold
    exact htold.2.1 rfl
  · have hexact := Settings.exact_iff.1 (Settings.exact_nested "deep" 124)
    have htold := (hsettings hclock).tells .first (p := shallowProject) [] hproject hexact.1
      (by decide +kernel) (by simp)
    exact (htold.byId .first).told.2 ⟨by decide +kernel, hexact.2⟩
  · have hexact := Settings.exact_iff.1 (Settings.exact_nested "deep" 125)
    have htold := (hsettings hclock).tells .first (p := deepProject) [] hproject hexact.1
      (by decide +kernel) (by simp)
    exact (htold.byId .first).deep (by decide +kernel)

end ProjectRegistry
