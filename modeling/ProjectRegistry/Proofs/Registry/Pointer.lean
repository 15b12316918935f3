import ProjectRegistry.Proofs.Registry.Atomicity
import ProjectRegistry.Proofs.Registry.Numbers
import ProjectRegistry.Proofs.Store.Answers

/-!
# The current version of a project

The pointer of a project is where it was last sent; before it is sent anywhere, it is at the first
version that was registered. Nothing else moves it.

What is asked about the current version is answered for the version that the pointer names then,
whatever version the caller's copy holds. What is uploaded goes to the version that the copy holds,
wherever the pointer is.
-/

namespace ProjectRegistry

variable {C : Columns} {M : Medium C} {limits : Limits} {l : Relations C}

/-- Where a call sends the pointer of a project. -/
def Call.movesTo? (p : Int32) : Call → Option Int32
  | .changeVersion q number _ => if q.id = p then some number else none
  | _ => none

/-- Where the pointer of a project was sent, in the order of the calls. -/
def moves (p : Int32) (calls : List (Tick × Call)) (answers : List (Except Failure Reply)) :
    List Int32 :=
  (calls.zip answers).filterMap fun c =>
    match c.2 with
    | .ok _ => c.1.2.movesTo? p
    | .error _ => none

/-! ## What calls do to pointers -/

theorem Change.pointerOf_applyAll {cs : List Change} (hfit : AllFit M limits cs l) (p : Int32) :
    (applyAll M cs l).pointerOf M p =
      cs.foldl (fun pointer c => c.pointerAfter p pointer) (l.pointerOf M p) := by
  induction cs generalizing l with
  | nil => rfl
  | cons c cs ih => rw [applyAll_cons, ih hfit.2, pointerOf_apply hfit.1, List.foldl_cons]

theorem Change.foldl_pointerAfter_of_upkeep {cs : List Change} (h : ∀ c ∈ cs, c.IsUpkeep)
    (p : Int32) (pointer : Option Int) :
    cs.foldl (fun pointer c => c.pointerAfter p pointer) pointer = pointer := by
  induction cs with
  | nil => rfl
  | cons c cs ih =>
    have hc : c.pointerAfter p pointer = pointer := by
      have hupkeep := h c List.mem_cons_self
      cases c <;> first | rfl | cases hupkeep
    rw [List.foldl_cons, hc, ih fun d hd => h d (List.mem_cons_of_mem c hd)]

/-- A call that is answered sends a pointer to a version, or registers a version for a pointer that
names none, or leaves it where it is. -/
theorem Call.Makes.pointerAfter {σ : Type} {r : Registry σ} {tick : Tick} {call : Call}
    {reply : Reply} {cs : List Change} (h : call.Makes r tick reply cs) (p : Int32)
    (pointer : Option Int32) :
    cs.foldl (fun pointer c => c.pointerAfter p pointer) (pointer.map Int32.toInt) =
      (((call.movesTo? p).or (pointer.or (call.numberFor? p))).map Int32.toInt) := by
  cases call
  case addVersion | uploadFile =>
    obtain ⟨v, hv, rfl⟩ := h
    rw [Call.numberFor?_of_record? hv]
    simp only [List.foldl_cons, List.foldl_nil, Change.pointerAfter, Call.movesTo?, Option.none_or]
    split <;> cases pointer <;> rfl
  case changeVersion q number user =>
    simp only [Call.Makes] at h
    subst h
    simp only [List.foldl_cons, List.foldl_nil, Change.pointerAfter, Call.movesTo?,
      Call.numberFor?]
    split <;> simp
  case sweep retained =>
    rw [Change.foldl_pointerAfter_of_upkeep h]
    simp [Call.movesTo?, Call.numberFor?]
  case setRights q principal isGroup rights =>
    simp only [Call.Makes] at h
    subst h
    split <;> simp [Change.pointerAfter, Call.movesTo?, Call.numberFor?]
  case postEvent q kind user message =>
    simp only [Call.Makes] at h
    split at h <;> simp [h, Change.pointerAfter, Call.movesTo?, Call.numberFor?]
  case removeProject q user =>
    rcases h with rfl | rfl <;> simp [Change.pointerAfter, Call.movesTo?, Call.numberFor?]
  case createProject | configure | putBundle | putBundles =>
    obtain ⟨_, _, rfl⟩ := h
    simp [Change.pointerAfter, Call.movesTo?, Call.numberFor?]
  all_goals
    simp only [Call.Makes] at h
    subst h
    simp [Change.pointerAfter, Call.movesTo?, Call.numberFor?]

namespace Registry

variable {σ : Type} [Store σ] {V : View σ} {R : Reader V.C} {r : Registry σ}

theorem pointerOf_perform_ok (hV : V.Lawful) (hr : V.Good r.store) {tick : Tick} {call : Call}
    {reply : Reply} {r' : Registry σ} (h : perform tick call r = (.ok reply, r')) (p : Int32)
    {pointer : Option Int32}
    (hpointer : (V.relations r.store).pointerOf V.M p = pointer.map Int32.toInt) :
    (V.relations r'.store).pointerOf V.M p =
      ((call.movesTo? p).or (pointer.or (call.numberFor? p))).map Int32.toInt := by
  obtain ⟨-, -, cs, hcs, hfit, hrelations⟩ := (perform_journals hV hr tick call).of_ok h
  rw [hrelations, Change.pointerOf_applyAll hfit, hpointer, hcs.pointerAfter]

/-- Along a run from a registry whose pointer is known. -/
theorem pointerOf_run (hV : V.Lawful) (p : Int32) (calls : List (Tick × Call)) {r : Registry σ}
    (hr : V.Good r.store) {pointer : Option Int32}
    (hpointer : (V.relations r.store).pointerOf V.M p = pointer.map Int32.toInt) :
    (V.relations (r.after calls).store).pointerOf V.M p =
      ((moves p calls (r.answers calls)).getLast?.or
        (pointer.or (registered p calls (r.answers calls)).head?)).map Int32.toInt := by
  induction calls generalizing r pointer with
  | nil =>
    rw [after_nil, hpointer]
    cases pointer <;> rfl
  | cons c rest ih =>
    rcases hx : perform c.1 c.2 r with ⟨e | reply, r'⟩
    · have hstore := ((perform_journals hV hr c.1 c.2).of_error hx).2
      have hmoves : moves p (c :: rest) (r.answers (c :: rest)) =
          moves p rest (r'.answers rest) := by
        simp [moves, answers, hx]
      have hregistered : registered p (c :: rest) (r.answers (c :: rest)) =
          registered p rest (r'.answers rest) := by
        simp [registered, answers, hx]
      rw [hmoves, hregistered, after_cons, hx]
      exact ih (hstore ▸ hr) (by rw [hstore]; exact hpointer)
    · obtain ⟨-, hgood, -⟩ := (perform_journals hV hr c.1 c.2).of_ok hx
      have hmoves : moves p (c :: rest) (r.answers (c :: rest)) =
          (c.2.movesTo? p).toList ++ moves p rest (r'.answers rest) := by
        simp only [moves, answers, hx, List.zip_cons_cons, List.filterMap_cons]
        cases c.2.movesTo? p <;> rfl
      have hregistered : registered p (c :: rest) (r.answers (c :: rest)) =
          (c.2.numberFor? p).toList ++ registered p rest (r'.answers rest) := by
        simp only [registered, answers, hx, List.zip_cons_cons, List.filterMap_cons]
        cases c.2.numberFor? p <;> rfl
      rw [hmoves, hregistered, after_cons, hx,
        ih hgood (pointerOf_perform_ok hV hr hx p hpointer)]
      -- the last move counts; of registrations only the first, where there was no pointer
      have hlast : (c.2.movesTo? p).toList.getLast? = c.2.movesTo? p := by
        cases c.2.movesTo? p <;> rfl
      have hfirst : (c.2.numberFor? p).toList.head? = c.2.numberFor? p := by
        cases c.2.numberFor? p <;> rfl
      rw [List.getLast?_append, List.head?_append, hlast, hfirst]
      simp only [Option.or_assoc]

theorem currentOf_of_pointerOf {C : Columns} {M : Medium C} {l : Relations C} {p : Int32}
    {pointer : Option Int32} (h : l.pointerOf M p = pointer.map Int32.toInt) :
    l.currentOf M p = pointer := by
  rw [Relations.currentOf, h]
  cases pointer <;> simp

theorem pointerOf_eq_currentOf {C : Columns} {M : Medium C} {l : Relations C} (h : l.Sound M)
    (p : Int32) : l.pointerOf M p = (l.currentOf M p).map Int32.toInt := by
  cases hp : l.pointerOf M p with
  | none => simp [Relations.currentOf, hp]
  | some n =>
    obtain ⟨v, rfl, -⟩ := h.pointer_some hp
    simp [Relations.currentOf, hp]

/-! ## Questions about the current version -/

theorem perform_currentVersion (tick : Tick) (p : Project) (r : Registry σ) :
    perform tick (.currentVersion p) r = ((Store.currentVersion? p r.store).map .number, r) :=
  Step.map_apply _ _ r

theorem currentVersion_answered_iff (hA : V.Answers R) (hr : V.Good r.store) {tick : Tick}
    {p : Project} {n : Option Int32} :
    (perform tick (.currentVersion p) r).1 = .ok (.number n) ↔
      (V.relations r.store).projects.contains p.id = true ∧
        (V.relations r.store).currentOf V.M p.id = n := by
  rw [perform_currentVersion, hA.currentVersion? hr]
  cases (V.relations r.store).projects.contains p.id <;> simp [Except.map]

theorem perform_bundle (tick : Tick) (p : Project) (path : String) (r : Registry σ) :
    perform tick (.bundle p path) r = ((Store.bundle p path r.store).map .bundle, r) :=
  Step.map_apply _ _ r

theorem perform_flow (tick : Tick) (p : Project) (id : String) (r : Registry σ) :
    perform tick (.flow p id) r = ((Store.flow p id r.store).map .flow, r) :=
  Step.map_apply _ _ r

theorem perform_flows (tick : Tick) (p : Project) (r : Registry σ) :
    perform tick (.flows p) r = ((Store.flows p r.store).map .flows, r) :=
  Step.map_apply _ _ r

/-! ## Uploads of bundles -/

/-- What an upload of bundles comes to: they are in the version that the copy holds and nothing else
is different, or that version is not there and nothing is different at all. -/
inductive Uploads {C : Columns} (relations : σ → Relations C) (M : Medium C) (p : Project)
    (bundles : List Bundle) (r : Registry σ) : Except Failure Reply × Registry σ → Prop
  | stored {v : Int32} {r' : Registry σ} (hversion : p.version = some v)
      (hv : (relations r.store).hasVersion p.id v = true)
      (hrelations : relations r'.store = { relations r.store with
        bundles := (relations r.store).bundles.insertAll
          (bundles.map fun b => ((p.id, v, b.path), M.properties b.properties)) }) :
      Uploads relations M p bundles r (.ok .done, r')
  | refused {e : Failure}
      (hversion : ∀ v, p.version = some v → (relations r.store).hasVersion p.id v = false) :
      Uploads relations M p bundles r (.error e, r)

theorem target_eq_ok_iff {p : Project} {v : Int32} : p.target = .ok v ↔ p.version = some v := by
  rw [Project.target]
  cases p.version <;> simp

theorem uploads_putBundles (hV : V.Lawful) (hA : V.Answers R) (hσ : Store.IsAtomic σ)
    (hr : V.Good r.store) (p : Project) (bundles : List Bundle) :
    Uploads V.relations V.M p bundles r
      ((onStore (Store.putBundles p bundles) >>= fun _ => pure .done) r) := by
  have hjournal := hV.putBundles hr r.limits p bundles
  have hatomic := hσ.putBundles p bundles r.store
  rw [Step.map_apply, onStore_apply]
  rcases hx : Store.putBundles p bundles r.store with ⟨e | _, s⟩
  · obtain rfl : s = r.store := by
      rw [hx] at hatomic
      exact hatomic e rfl
    refine .refused fun v hversion => ?_
    cases hv : (V.relations r.store).hasVersion p.id v with
    | false => rfl
    | true =>
      have hanswer := hA.putBundles hr (target_eq_ok_iff.2 hversion) hv bundles
      rw [hx] at hanswer
      cases hanswer
  · obtain ⟨-, cs, ⟨v, htarget, rfl⟩, hfit, hrelations⟩ := hjournal.of_ok hx
    refine .stored (target_eq_ok_iff.1 htarget) (Change.allFit_singleton.1 hfit) ?_
    show V.relations s = _
    rw [hrelations, Change.applyAll_cons, Change.applyAll_nil, Change.apply_of_silent _ rfl]
    rfl

/-- Where the pointers of projects are after a run, and what counts of the version that a copy
holds. -/
structure PointerKept {C : Columns} (relations : σ → Relations C) (M : Medium C) (R : Reader C)
    (start : Registry σ) (calls : List (Tick × Call)) : Prop where
  /-- The current version is the last to which the pointer was sent, or else the first that was
  registered. -/
  current (tick : Tick) (p : Project) :
    perform tick (.currentVersion p) (start.after calls) =
      (if (relations (start.after calls).store).projects.contains p.id then
        .ok (.number ((moves p.id calls (start.answers calls)).getLast?.or
          (registered p.id calls (start.answers calls)).head?))
      else .error (.noProject p.id), start.after calls)
  /-- Along a further run the pointer stays until it is sent elsewhere, unless there was none. -/
  later (calls' : List (Tick × Call)) (p : Int32) :
    let r := start.after calls
    (relations (r.after calls').store).currentOf M p =
      (moves p calls' (r.answers calls')).getLast?.or
        (((relations r.store).currentOf M p).or (registered p calls' (r.answers calls')).head?)
  bundle (tick : Tick) (p : Project) (path : String) :
    let r := start.after calls
    perform tick (.bundle p path) r =
      (((relations r.store).atCurrent M p.id fun v =>
        R.bundleAt (relations r.store) p.id v path).map .bundle, r)
  flow (tick : Tick) (p : Project) (id : String) :
    let r := start.after calls
    perform tick (.flow p id) r =
      (((relations r.store).atCurrent M p.id fun v =>
        R.flowAt (relations r.store) p.id v id).map .flow, r)
  flows (tick : Tick) (p : Project) :
    let r := start.after calls
    perform tick (.flows p) r =
      (((relations r.store).atCurrent M p.id fun v =>
        R.flowsAt (relations r.store) p.id v).map .flows, r)
  putBundle (tick : Tick) (p : Project) (b : Bundle) :
    Uploads relations M p [b] (start.after calls)
      (perform tick (.putBundle p b) (start.after calls))
  putBundles (tick : Tick) (p : Project) (bundles : List Bundle) :
    Uploads relations M p bundles (start.after calls)
      (perform tick (.putBundles p bundles) (start.after calls))

theorem pointerKept (hV : V.Lawful) (hA : V.Answers R) (hσ : Store.IsAtomic σ)
    (hr : V.Good r.store) (hempty : V.relations r.store = .empty) (calls : List (Tick × Call)) :
    PointerKept V.relations V.M R r calls := by
  have hgood := good_after hV hr calls
  have hstart (p : Int32) : (V.relations r.store).pointerOf V.M p =
      (none : Option Int32).map Int32.toInt := by
    rw [hempty]
    rfl
  refine ⟨fun tick p => ?_, fun calls' p => ?_, fun tick p path => ?_, fun tick p id => ?_,
    fun tick p => ?_, fun tick p b => uploads_putBundles hV hA hσ hgood p [b],
    fun tick p bundles => uploads_putBundles hV hA hσ hgood p bundles⟩
  · have hcurrent := currentOf_of_pointerOf (pointerOf_run hV p.id calls hr (hstart p.id))
    rw [perform_currentVersion, hA.currentVersion? hgood, hcurrent]
    cases (V.relations (r.after calls).store).projects.contains p.id <;> rfl
  · exact currentOf_of_pointerOf
      (pointerOf_run hV p calls' hgood (pointerOf_eq_currentOf (hV.sound hgood) p))
  · simp only [perform_bundle, hA.bundle hgood]
  · simp only [perform_flow, hA.flow hgood]
  · simp only [perform_flows, hA.flows hgood]

end Registry

/-- From empty stores, in memory and in a database alike, the pointer of a project follows from the
calls that were answered, questions are answered for the version it names, and bundles go where the
copy says. -/
theorem pointer_follows_history (limits : Limits) (root : Files.Path) (files : Files.FileTree)
    (calls : List (Tick × Call)) :
    (Registry.start limits root files Memory.empty).PointerKept Memory.relations .values .values
        calls ∧
      (Registry.start limits root files Database.empty).PointerKept Database.relations .cells .cells
        calls := by
  constructor
  · exact Registry.pointerKept (r := .start limits root files Memory.empty) Memory.lawful
      Memory.answers Memory.isAtomic Memory.good_empty rfl calls
  · exact Registry.pointerKept (r := .start limits root files Database.empty) Database.lawful
      Database.answers Database.isAtomic Database.good_empty rfl calls

end ProjectRegistry
