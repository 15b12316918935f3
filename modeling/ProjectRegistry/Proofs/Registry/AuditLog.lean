import ProjectRegistry.Proofs.Registry.Integrity
import ProjectRegistry.Proofs.Registry.Sweeps
import ProjectRegistry.Proofs.Store.Names

/-!
# The audit log

The log of a project only ever grows at its end. It grows by one event with each call that says so:
a project is created or retired, a description or the current version is changed, or an event is
posted. A call that fails, and one that finds nothing to do, leaves all logs as they are.

A sweep takes versions away first and tries to post that afterwards. Whether it could depends on the
state at that moment, in which other projects have had their turns already.
-/

namespace ProjectRegistry

variable {C : Columns}

/-- What a call and its answer add to the log, if anything. Sweeps are not looked at here. -/
def Call.eventFor? (r : Relations C) (tick : Tick) :
    Call → Except Failure Reply → Option (EventRow live)
  | .createProject name _ creator, .ok (.project q) =>
    some ⟨q.id, .created, creator, createdMessage name, tick.now⟩
  | .removeProject p user, .ok _ =>
    if r.isActive p.id then some ⟨p.id, .deleted, user, removedMessage p.name, tick.now⟩ else none
  | .describe p description user, .ok _ =>
    some ⟨p.id, .description, user, describedMessage description, tick.now⟩
  | .changeVersion p number user, .ok _ =>
    some ⟨p.id, .versionChanged, user, versionChangedMessage number, tick.now⟩
  | .postEvent p kind user message, .ok (.posted true) =>
    some ⟨p.id, kind, user, message, tick.now⟩
  | _, _ => none

def Call.isSweep : Call → Bool
  | .sweep _ => true
  | _ => false

/-! ## What calls log -/

theorem Call.Makes.logged {σ : Type} {registry : Registry σ} {tick : Tick} {call : Call}
    {reply : Reply} {cs : List Change} (h : call.Makes registry tick reply cs) (r : Relations C)
    (hsweep : call.isSweep = false) (hremoval : ∀ p user, call ≠ .removeProject p user) :
    Change.logged cs = (call.eventFor? r tick (.ok reply)).toList := by
  cases call
  case sweep retained => cases hsweep
  case removeProject p user => exact absurd rfl (hremoval p user)
  case createProject name description creator =>
    obtain ⟨q, rfl, rfl⟩ := h
    rfl
  case postEvent p kind user message =>
    simp only [Call.Makes] at h
    subst h
    cases reply
    case posted posted => cases posted <;> rfl
    all_goals rfl
  case setRights p principal isGroup rights =>
    simp only [Call.Makes] at h
    subst h
    split <;> rfl
  case configure | addVersion | uploadFile | putBundle | putBundles =>
    obtain ⟨_, _, rfl⟩ := h
    rfl
  all_goals
    simp only [Call.Makes] at h
    subst h
    rfl

theorem logged_of_retire {r : Relations C} {tick : Tick} {p : Project} {user : String}
    {cs : List Change} (h : Plan.retire tick.now p user r = .ok cs) (reply : Reply) :
    Change.logged cs = ((Call.removeProject p user).eventFor? r tick (.ok reply)).toList := by
  unfold Plan.retire at h
  split at h
  · cases h
  · next row hrow =>
    cases h
    simp only [Call.eventFor?, Relations.isActive, hrow, Option.any_some]
    cases row.active <;> rfl

namespace Registry

variable {σ : Type} [Store σ] {V : View σ} {R : Reader V.C} {r r' : Registry σ}

theorem journals_removeProject (hV : V.Lawful) (hr : V.Good r.store) (tick : Tick) (p : Project)
    (user : String) :
    Journals V r (fun _ cs => Plan.retire tick.now p user (V.relations r.store) = .ok cs)
      (perform tick (.removeProject p user) r) :=
  (journals_onStore (hV.removeProject hr r.limits tick.now p user)).map fun _ _ h => h

theorem eventFor?_of_error {C : Columns} (l : Relations C) (tick : Tick) (call : Call)
    (e : Failure) : call.eventFor? l tick (.error e) = none := by
  cases call <;> rfl

/-- A call adds its entry to the log and nothing else. -/
theorem events_perform (hV : V.Lawful) (hr : V.Good r.store) (tick : Tick) {call : Call}
    (hsweep : call.isSweep = false) :
    (V.relations (perform tick call r).2.store).events = (V.relations r.store).events ++
      (call.eventFor? (V.relations r.store) tick (perform tick call r).1).toList.map
        (EventRow.write V.M) := by
  have hjournal := perform_journals hV hr tick call
  rcases hx : perform tick call r with ⟨e | reply, r'⟩
  · rw [eventFor?_of_error]
    show (V.relations r'.store).events = _
    rw [(hjournal.of_error hx).2]
    exact (List.append_nil _).symm
  · by_cases hremoval : ∃ p user, call = .removeProject p user
    · obtain ⟨p, user, rfl⟩ := hremoval
      obtain ⟨-, -, cs, hcs, -, hrelations⟩ := (journals_removeProject hV hr tick p user).of_ok hx
      show (V.relations r'.store).events = _
      rw [hrelations, Change.events_applyAll, logged_of_retire hcs reply]
    · obtain ⟨-, -, cs, hcs, -, hrelations⟩ := hjournal.of_ok hx
      show (V.relations r'.store).events = _
      rw [hrelations, Change.events_applyAll, hcs.logged (V.relations r.store) hsweep
        fun p user he => hremoval ⟨p, user, he⟩]

/-- Along a run the log of a project grows at its end. -/
theorem eventsOf_after (hV : V.Lawful) (hr : V.Good r.store) (calls : List (Tick × Call))
    (p : Int32) :
    (V.relations r.store).eventsOf p <+: (V.relations (r.after calls).store).eventsOf p := by
  obtain ⟨-, -, cs, -, -, hrelations⟩ := becomes_after hV hr calls
  rw [hrelations, Relations.eventsOf, Relations.eventsOf, Change.events_applyAll]
  exact (List.prefix_append _ _).filter _

end Registry

/-! ## What sweeps log -/

/-- Relations in which the versions, the pointer and the log of a project are the same. -/
structure Relations.SameAt (M : Medium C) (p : Int32) (r r' : Relations C) : Prop where
  numbers : r'.numbersOf p = r.numbersOf p
  pointer : r'.pointerOf M p = r.pointerOf M p
  events : r'.eventsOf p = r.eventsOf p

namespace Relations.SameAt

variable {M : Medium C} {p : Int32} {r r' r'' : Relations C}

theorem refl : r.SameAt M p r := ⟨rfl, rfl, rfl⟩

theorem trans (h : r.SameAt M p r') (h' : r'.SameAt M p r'') : r.SameAt M p r'' :=
  ⟨h'.numbers.trans h.numbers, h'.pointer.trans h.pointer, h'.events.trans h.events⟩

theorem newestOf (h : r.SameAt M p r') : r'.newestOf p = r.newestOf p :=
  congrArg List.max? h.numbers

theorem isOutdated (h : r.SameAt M p r') (retained : Nat) :
    r'.isOutdated M retained p = r.isOutdated M retained p := by
  funext v
  rw [Relations.isOutdated, Relations.isOutdated, h.newestOf, h.pointer]

theorem purgeOf (h : r.SameAt M p r') (retained : Nat) (now : Time.Instant) :
    r'.purgeOf M retained now p = r.purgeOf M retained now p := by
  have houtdated : r'.outdatedOf M retained p = r.outdatedOf M retained p := by
    rw [outdatedOf, outdatedOf, h.isOutdated, h.numbers]
  rw [Relations.purgeOf, Relations.purgeOf, h.newestOf, houtdated]

/-- A turn of another project. -/
theorem of_turn (r : Relations C) (retained : Nat) {q : Int32} (hq : q ≠ p)
    (es : List (EventRow live)) (hes : ∀ e ∈ es, e.project = q) :
    r.SameAt M p ((r.without (r.outdatedIn M retained [q])).logging M es) where
  numbers := r.numbersOf_without_outdatedIn retained (by simpa using Ne.symm hq)
  pointer := rfl
  events := by
    have hnone : es.filter (fun e => e.project = p) = [] := by
      rw [List.filter_eq_nil_iff]
      intro e he
      simp [hes e he, hq]
    rw [eventsOf_logging, hnone]
    exact List.append_nil _

end Relations.SameAt

namespace Registry

variable {σ : Type} [Store σ] {V : View σ} {R : Reader V.C} {r r' : Registry σ} {retained : Nat}
  {now : Time.Instant}

/-- What becomes of a project that loses versions in its turn, which starts from a registry `m`.
What is outdated is gone, and the log tells of it if it can be posted in the state that cleaning up
leaves. -/
def Purges (relations : σ → Relations C) (M : Medium C) (now : Time.Instant) (retained : Nat)
    (p : Project) (m r r' : Registry σ) : Prop :=
  ∃ e newest bound, (relations r.store).purgeOf M retained now p.id = some e ∧
    (relations r.store).newestOf p.id = some newest ∧
    bound.toInt = newest.toInt - (max retained 1 : Nat) + 1 ∧
    (relations r'.store).numbersOf p.id = ((relations r.store).numbersOf p.id).filter
      (fun v => !(relations r.store).isOutdated M retained p.id v) ∧
    (relations r'.store).eventsOf p.id = (relations r.store).eventsOf p.id ++
      if (Store.postEvent now p .purge sweeper e.message (Store.clean p.id bound m.store).2).1
      then [e.write M] else []

theorem Purges.of_same {p : Project} {m r₁ r₂ : Registry σ}
    (h : (V.relations r.store).SameAt V.M p.id (V.relations r₁.store))
    (hpurges : Purges V.relations V.M now retained p m r₁ r₂)
    (h' : (V.relations r₂.store).SameAt V.M p.id (V.relations r'.store)) :
    Purges V.relations V.M now retained p m r r' := by
  obtain ⟨e, newest, bound, hentry, hnewest, hbound, hnumbers, hevents⟩ := hpurges
  refine ⟨e, newest, bound, ?_, ?_, hbound, ?_, ?_⟩
  · rw [← h.purgeOf, hentry]
  · rw [← h.newestOf, hnewest]
  · rw [h'.numbers, hnumbers, h.numbers, h.isOutdated]
  · rw [h'.events, hevents, h.events]

theorem SweepTurn.same (hV : V.Lawful) {p : Project} {o : Except Failure Nat × Registry σ}
    (h : SweepTurn V R now retained p r o) {q : Int32} (hq : p.id ≠ q) :
    (V.relations r.store).SameAt V.M q (V.relations o.2.store) := by
  cases h with
  | failed _ => exact .refl
  | idle _ _ => exact .refl
  | @swept _ removed _ bound cleaned _ _ _ _ _ _ hgood _ hrelations =>
    show (V.relations r.store).SameAt V.M q (V.relations (Store.postEvent now p .purge sweeper
      (purgeMessage removed bound) cleaned.store).2)
    rw [relations_postEvent hV hgood, hrelations]
    exact .of_turn _ retained hq _ (by split <;> simp)

theorem SweepTurn.purges (hV : V.Lawful) {p : Project} {o : Except Failure Nat × Registry σ}
    (h : SweepTurn V R now retained p r o) :
    (V.relations r.store).SameAt V.M p.id (V.relations o.2.store) ∨
      Purges V.relations V.M now retained p r r o.2 := by
  cases h with
  | failed _ => exact .inl .refl
  | idle _ _ => exact .inl .refl
  | @swept _ removed newest bound cleaned _ hnewest hbound hremoved hsome _ hgood hstore
      hrelations =>
    have hposted := relations_postEvent hV hgood now p .purge sweeper (purgeMessage removed bound)
    have hmessage : purgeMessage removed bound =
        purgeText ((V.relations r.store).outdatedOf V.M retained p.id)
          (newest.toInt - (max retained 1 : Nat) + 1) := by
      rw [purgeMessage_eq, hremoved, hbound]
    rw [hrelations] at hposted
    refine .inr ⟨_, newest, bound, Relations.purgeOf_of_outdated hnewest hsome, hnewest, hbound,
      ?_, ?_⟩
    · rw [hposted]
      refine (Relations.numbersOf_without _ _ p.id).trans ?_
      simp [Relations.outdatedIn]
    · rw [hposted, Relations.eventsOf_logging, hstore, hmessage]
      split
      · simp
        rfl
      · rfl

/-- What a project finds in its log after all turns: nothing more, or what its own turn posted. -/
theorem sweepAll_logs (hV : V.Lawful) (hA : V.Answers R) (now : Time.Instant) (retained : Nat)
    (ps : List Project) {r : Registry σ} (hr : V.Good r.store)
    (hdistinct : (ps.map Project.id).Nodup) (q : Int32) :
    (V.relations r.store).SameAt V.M q (V.relations (sweepAll now retained ps r).2.store) ∨
      ∃ before p after, ps = before ++ p :: after ∧ p.id = q ∧
        Purges V.relations V.M now retained p (sweepAll now retained before r).2 r
          (sweepAll now retained ps r).2 := by
  induction ps generalizing r with
  | nil => exact .inl .refl
  | cons p rest ih =>
    obtain ⟨hp, hrest⟩ := List.nodup_cons.1 hdistinct
    have hturn := sweepProject_turn hV hA hr now retained p
    have hgood := (becomes_sweepProject hV hr now retained p).2.1
    rw [sweepAll_cons]
    by_cases hq : p.id = q
    · subst hq
      -- the turns of the rest are those of other projects
      have hlater : (V.relations (sweepProject now retained p r).2.store).SameAt V.M p.id
          (V.relations (sweepAll now retained rest (sweepProject now retained p r).2).2.store) := by
        rcases ih hgood hrest with hsame | ⟨before, p', after, rfl, hp', -⟩
        · exact hsame
        · exact absurd (List.mem_map.2 ⟨p', by simp, hp'⟩) hp
      rcases hturn.purges hV with hsame | hpurges
      · exact .inl (hsame.trans hlater)
      · exact .inr ⟨[], p, rest, rfl, rfl, .of_same .refl hpurges hlater⟩
    · have hsame := hturn.same hV hq
      rcases ih hgood hrest with hlater | ⟨before, p', after, rfl, rfl, hpurges⟩
      · exact .inl (hsame.trans hlater)
      · refine .inr ⟨p :: before, p', after, rfl, rfl, ?_⟩
        rw [sweepAll_cons]
        exact .of_same hsame hpurges .refl

/-! ## Removals -/

theorem retired_perform (hV : V.Lawful) (hr : V.Good r.store) {p : Int32}
    (h : (V.relations r.store).IsRetired p) (tick : Tick) (call : Call) :
    (V.relations (perform tick call r).2.store).IsRetired p := by
  obtain ⟨-, -, cs, -, hfit, hrelations⟩ := becomes_perform hV hr tick call
  rw [hrelations]
  exact Change.retired_applyAll h hfit

theorem retired_of_removeProject (hV : V.Lawful) (hr : V.Good r.store) {tick : Tick} {p : Project}
    {user : String} {reply : Reply} (h : perform tick (.removeProject p user) r = (.ok reply, r')) :
    (V.relations r'.store).IsRetired p.id := by
  obtain ⟨-, -, cs, hcs, hfit, hrelations⟩ := (journals_removeProject hV hr tick p user).of_ok h
  unfold Plan.retire at hcs
  split at hcs
  · cases hcs
  · next row hrow =>
    cases hcs
    rw [hrelations]
    cases hactive : row.active with
    | false => exact ⟨row, hrow, hactive⟩
    | true =>
      refine ⟨{ row with
        active := false
        lastModifiedBy := user
        lastModifiedAt := V.M.time tick.now }, ?_, rfl⟩
      simp [Change.apply, Change.onProjects, Table.find?_modify, hrow]

/-- Whether a call removes a project that is active and is answered. -/
def Retires (relations : σ → Relations C) (p : Int32) (r : Registry σ) (c : Tick × Call) : Bool :=
  match c.2 with
  | .removeProject q _ => decide (q.id = p) && (relations r.store).isActive p &&
    (perform c.1 c.2 r).1.isOk
  | _ => false

/-- How many calls of a run remove a project that is active. -/
def removals (relations : σ → Relations C) (p : Int32) : Registry σ → List (Tick × Call) → Nat
  | _, [] => 0
  | r, c :: rest =>
    (if Retires relations p r c then 1 else 0) + removals relations p (perform c.1 c.2 r).2 rest

theorem removals_of_retired (hV : V.Lawful) {p : Int32} (calls : List (Tick × Call))
    {r : Registry σ} (hr : V.Good r.store) (h : (V.relations r.store).IsRetired p) :
    removals V.relations p r calls = 0 := by
  induction calls generalizing r with
  | nil => rfl
  | cons c rest ih =>
    have hinactive : (V.relations r.store).isActive p = false := by
      obtain ⟨row, hrow, hretired⟩ := h
      rw [Relations.isActive, hrow, Option.any_some, hretired]
    have hnot : Retires V.relations p r c = false := by
      unfold Retires
      split
      · rw [hinactive, Bool.and_false, Bool.false_and]
      · rfl
    rw [removals, hnot, ih (becomes_perform hV hr c.1 c.2).2.1 (retired_perform hV hr h c.1 c.2)]
    rfl

/-- A project is retired once at most. -/
theorem removals_le_one (hV : V.Lawful) (p : Int32) (calls : List (Tick × Call)) {r : Registry σ}
    (hr : V.Good r.store) : removals V.relations p r calls ≤ 1 := by
  induction calls generalizing r with
  | nil => exact Nat.zero_le 1
  | cons c rest ih =>
    have hgood := (becomes_perform hV hr c.1 c.2).2.1
    rw [removals]
    cases hretires : Retires V.relations p r c with
    | false =>
      rw [if_neg Bool.false_ne_true, Nat.zero_add]
      exact ih hgood
    | true =>
      have hretired : (V.relations (perform c.1 c.2 r).2.store).IsRetired p := by
        obtain ⟨tick, call⟩ := c
        unfold Retires at hretires
        split at hretires
        · next q user hcall =>
          simp only at hcall
          subst hcall
          simp only [Bool.and_eq_true, decide_eq_true_eq] at hretires
          obtain ⟨⟨rfl, -⟩, hok⟩ := hretires
          rcases hx : perform tick (.removeProject q user) r with ⟨e | reply, r'⟩
          · rw [hx] at hok
            cases hok
          · exact retired_of_removeProject hV hr hx
        · cases hretires
      rw [removals_of_retired hV rest hgood hretired]
      exact Nat.le_refl 1

/-! ## The log along every run -/

/-- What calls and sweeps add to the log of a registry. -/
structure LogKept {C : Columns} (relations : σ → Relations C) (M : Medium C) (r : Registry σ) :
    Prop where
  call (tick : Tick) {call : Call} : call.isSweep = false →
    (relations (perform tick call r).2.store).events = (relations r.store).events ++
      (call.eventFor? (relations r.store) tick (perform tick call r).1).toList.map
        (EventRow.write M)
  /-- A project that loses versions in a sweep finds that in its log, if it could be posted; any
  other keeps both its versions and its log. -/
  sweep (tick : Tick) (retained : Nat) :
    (∃ e, perform tick (.sweep retained) r = (.error e, r)) ∨
    ∃ ps report r', Store.activeProjects r.store = .ok ps ∧
      perform tick (.sweep retained) r = (.ok (.swept report), r') ∧
      ∀ p, (relations r.store).SameAt M p (relations r'.store) ∨
        ∃ before q after, ps = before ++ q :: after ∧ q.id = p ∧
          Purges relations M tick.now retained q (sweepAll tick.now retained before r).2 r r'
  grows (calls : List (Tick × Call)) (p : Int32) :
    (relations r.store).eventsOf p <+: (relations (r.after calls).store).eventsOf p
  /-- A project that is retired already can be removed again, which changes nothing at all. -/
  repeated (tick : Tick) (p : Project) (user : String) : (relations r.store).IsRetired p.id →
    perform tick (.removeProject p user) r = (.ok .done, r)

theorem logKept (hV : V.Lawful) (hA : V.Answers R) (hr : V.Good r.store) :
    LogKept V.relations V.M r where
  call tick _ hsweep := events_perform hV hr tick hsweep
  sweep tick retained := by
    rw [perform_sweep]
    cases hprojects : Store.activeProjects r.store with
    | error e => exact .inl ⟨e, rfl⟩
    | ok ps =>
      have hids : ps.map Project.id = (V.relations r.store).actives.map (·.1) :=
        Reader.ids_of_projects ((hA.activeProjects hr).symm.trans hprojects)
      have hdistinct : (ps.map Project.id).Nodup := hids ▸ (V.relations r.store).actives_nodup
      exact .inr ⟨ps, _, _, rfl, rfl, sweepAll_logs hV hA tick.now retained ps hr hdistinct⟩
  grows calls p := eventsOf_after hV hr calls p
  repeated tick p user h := by
    obtain ⟨row, hrow, hretired⟩ := h
    have hidle : Store.removeProject tick.now p user r.store = (.ok (), r.store) := by
      refine hA.removeProject_idle hr tick.now user (Table.contains_of_find? hrow) ?_
      rw [Relations.isActive, hrow, Option.any_some, hretired]
    rw [perform, Step.map_apply, onStore_apply, hidle]
    rfl

end Registry

/-- From empty stores, in memory and in a database alike, the log of each project grows at its end,
with the calls that say so and never else. -/
theorem log_grows_with_calls (limits : Limits) (root : Files.Path) (files : Files.FileTree)
    (calls : List (Tick × Call)) :
    (((Registry.start limits root files Memory.empty).after calls).LogKept Memory.relations
        .values ∧
      ∀ p, Registry.removals Memory.relations p (.start limits root files Memory.empty) calls ≤ 1) ∧
    (((Registry.start limits root files Database.empty).after calls).LogKept Database.relations
        .cells ∧
      ∀ p, Registry.removals Database.relations p (.start limits root files Database.empty)
        calls ≤ 1) := by
  refine ⟨⟨?_, fun p => ?_⟩, ?_, fun p => ?_⟩
  · exact Registry.logKept Memory.lawful Memory.answers
      (Registry.good_after (r := .start limits root files Memory.empty) Memory.lawful
        Memory.good_empty calls)
  · exact Registry.removals_le_one (V := Memory.view) Memory.lawful p calls Memory.good_empty
  · exact Registry.logKept Database.lawful Database.answers
      (Registry.good_after (r := .start limits root files Database.empty) Database.lawful
        Database.good_empty calls)
  · exact Registry.removals_le_one (V := Database.view) Database.lawful p calls
      Database.good_empty

end ProjectRegistry
