import ProjectRegistry.Proofs.Registry.Journal
import ProjectRegistry.Proofs.Registry.Integrity
import ProjectRegistry.Proofs.Store.Parts

/-!
# Projects kept apart

A call that is about one project changes nothing that can be asked about another one, whether it is
answered or fails, and a new project changes nothing that can be asked about those before it.

What carries this is that changes stay within the part of their project and that a query by an id
looks at the part of that id alone. A new id is above all that are there, so it is the id of none of
them.
-/

namespace ProjectRegistry

/-- The project that a call is to change, if it is about one. -/
def Call.changes? : Call → Option Int32
  | .removeProject p _ | .describe p .. | .configure p | .setRights p .. | .dropRights p .. |
    .postEvent p .. | .changeVersion p .. | .putBundle p _ | .putBundles p _ | .putFlow p .. |
    .putFlows p .. | .updateFlow p .. => some p.id
  | .addVersion p .. | .uploadFile p .. | .clean p _ => some p
  | _ => none

/-- The project that a call asks about by its id, if it is a query of that kind. -/
def Call.asks? : Call → Option Int32
  | .projectById p | .grants p | .version p _ | .versions p | .bundleAt p .. | .bundles p _ =>
    some p
  | .events p .. | .currentVersion p | .bundle p _ | .flow p _ | .flows p => some p.id
  | _ => none

theorem Call.project_of_record? {σ : Type} {r : Registry σ} {tick : Tick} {call : Call}
    {v : Version} {p : Int32} (h : call.record? r tick = some v) (hp : call.changes? = some p) :
    v.project = p := by
  cases call
  case addVersion =>
    cases h
    exact Option.some.inj hp
  case uploadFile =>
    simp only [record?] at h
    split at h
    · cases h
      exact Option.some.inj hp
    · cases h
  all_goals cases h

/-- The changes of a call are about the project of the call. -/
theorem Call.Makes.project {σ : Type} {r : Registry σ} {tick : Tick} {call : Call} {reply : Reply}
    {cs : List Change} {p : Int32} (h : call.Makes r tick reply cs) (hp : call.changes? = some p) :
    ∀ c ∈ cs, c.project = p := by
  intro c hc
  cases call
  case addVersion | uploadFile =>
    obtain ⟨v, hv, rfl⟩ := h
    obtain rfl := List.mem_singleton.1 hc
    exact project_of_record? hv hp
  case removeProject q user =>
    rcases h with rfl | rfl
    · cases hc
    · obtain rfl := List.mem_singleton.1 hc
      exact Option.some.inj hp
  case configure | putBundle | putBundles =>
    obtain ⟨_, _, rfl⟩ := h
    obtain rfl := List.mem_singleton.1 hc
    exact Option.some.inj hp
  case postEvent q kind user message =>
    simp only [Makes] at h
    subst h
    split at hc
    · obtain rfl := List.mem_singleton.1 hc
      exact Option.some.inj hp
    · cases hc
  case setRights q principal isGroup rights =>
    simp only [Makes] at h
    subst h
    obtain rfl := List.mem_singleton.1 hc
    split <;> exact Option.some.inj hp
  case describe | dropRights | changeVersion | clean | putFlow | putFlows | updateFlow =>
    simp only [Makes] at h
    subst h
    obtain rfl := List.mem_singleton.1 hc
    exact Option.some.inj hp
  all_goals cases hp

namespace Registry

variable {σ : Type} [Store σ] {V : View σ} {r r' : Registry σ} {p q : Int32}

/-! ## The parts of other projects -/

/-- Nothing that is held of other projects is changed by a call about one. -/
theorem part_perform (hV : V.Lawful) (hr : V.Good r.store) (tick : Tick) {call : Call}
    (hp : call.changes? = some p) (hne : q ≠ p) :
    (V.relations (perform tick call r).2.store).part q = (V.relations r.store).part q := by
  have hjournal := perform_journals hV hr tick call
  rcases hx : perform tick call r with ⟨e | reply, r'⟩
  · rw [(hjournal.of_error hx).2]
  · obtain ⟨-, -, cs, hcs, -, hrelations⟩ := hjournal.of_ok hx
    rw [hrelations]
    refine Change.part_applyAll (fun c hc => ?_) _
    rw [hcs.project hp c hc]
    exact Ne.symm hne

/-- A new project takes nothing from those that are there. -/
theorem part_createProject (hV : V.Lawful) (hr : V.Good r.store) (tick : Tick)
    (name description creator : String) (hq : (V.relations r.store).projects.contains q = true) :
    (V.relations (perform tick (.createProject name description creator) r).2.store).part q =
      (V.relations r.store).part q := by
  have hjournal := perform_journals hV hr tick (.createProject name description creator)
  rcases hx : perform tick (.createProject name description creator) r with ⟨e | reply, r'⟩
  · rw [(hjournal.of_error hx).2]
  · obtain ⟨-, -, cs, ⟨created, -, rfl⟩, hfit, hrelations⟩ := hjournal.of_ok hx
    rw [hrelations]
    refine Change.part_applyAll (fun c hc => ?_) _
    obtain rfl := List.mem_singleton.1 hc
    intro hsame
    have hnew := Change.not_contains_of_fits_create hfit.1
    rw [show created.id = q from hsame, hq] at hnew
    cases hnew

/-! ## Queries by id -/

/-- A query by an id has the same answer where the stores answer alike about that id. -/
theorem perform_of_sameAbout {query : Call} (hq : query.asks? = some q)
    (h : Store.SameAbout q r.store r'.store) (tick : Tick) :
    (perform tick query r').1 = (perform tick query r).1 := by
  have hask {α : Type} {ask : σ → Except Failure α} (f : α → Reply)
      (hsame : ask r'.store = ask r.store) :
      ((Registry.ask ask >>= fun a => pure (f a)) r').1 =
        ((Registry.ask ask >>= fun a => pure (f a)) r).1 := by
    rw [ask_map, ask_map, hsame]
  cases query
  case projectById => exact hask _ ((Option.some.inj hq) ▸ h.projectById)
  case grants => exact hask _ ((Option.some.inj hq) ▸ h.grants)
  case versions => exact hask _ ((Option.some.inj hq) ▸ h.versions)
  case bundleAt project number path => exact hask _ ((Option.some.inj hq) ▸ h.bundleAt number path)
  case bundles project number => exact hask _ ((Option.some.inj hq) ▸ h.bundles number)
  case events limit offset => exact hask _ (h.events (Option.some.inj hq) limit offset)
  case currentVersion => exact hask _ (h.currentVersion? (Option.some.inj hq))
  case bundle path => exact hask _ (h.bundle (Option.some.inj hq) path)
  case flow id => exact hask _ (h.flow (Option.some.inj hq) id)
  case flows => exact hask _ (h.flows (Option.some.inj hq))
  case version project number =>
    obtain rfl : project = q := Option.some.inj hq
    have hread : version? project number r' = version? project number r := by
      rw [version?, version?, h.version? number]
    rw [perform, Step.map_apply, Step.map_apply, Step.read_apply, Step.read_apply, hread]
  all_goals cases hq

/-! ## Along every run -/

/-- What calls leave as it is: every answer about a project that they are not about. -/
structure KeepsApart {C : Columns} (relations : σ → Relations C) (r : Registry σ) : Prop where
  call (tick later : Tick) {call query : Call} {p q : Int32} : call.changes? = some p →
    query.asks? = some q → q ≠ p →
      (perform later query (perform tick call r).2).1 = (perform later query r).1
  create (tick later : Tick) (name description creator : String) {query : Call} {q : Int32} :
    query.asks? = some q → (relations r.store).projects.contains q = true →
      (perform later query (perform tick (.createProject name description creator) r).2).1 =
        (perform later query r).1

theorem keepsApart (hV : V.Lawful) (hL : V.Localizes) (hr : V.Good r.store) :
    r.KeepsApart V.relations where
  call tick later call query p q hcall hquery hne := by
    have hgood := (becomes_perform hV hr tick call).2.1
    exact perform_of_sameAbout hquery (hL hr hgood (part_perform hV hr tick hcall hne)) later
  create tick later name description creator query q hquery hq := by
    have hgood := (becomes_perform hV hr tick (.createProject name description creator)).2.1
    exact perform_of_sameAbout hquery
      (hL hr hgood (part_createProject hV hr tick name description creator hq)) later

end Registry

/-- In every state that calls lead to, in memory and in a database alike, a call about one project
changes no answer about another, and creating a project changes no answer about those that were
there. -/
theorem projects_are_isolated (limits : Limits) (root : Files.Path) (files : Files.FileTree)
    (calls : List (Tick × Call)) :
    ((Registry.start limits root files Memory.empty).after calls).KeepsApart Memory.relations ∧
      ((Registry.start limits root files Database.empty).after calls).KeepsApart
        Database.relations := by
  constructor
  · exact Registry.keepsApart Memory.lawful Memory.localizes
      (Registry.good_after (r := .start limits root files Memory.empty) Memory.lawful
        Memory.good_empty calls)
  · exact Registry.keepsApart Database.lawful Database.localizes
      (Registry.good_after (r := .start limits root files Database.empty) Database.lawful
        Database.good_empty calls)

end ProjectRegistry
