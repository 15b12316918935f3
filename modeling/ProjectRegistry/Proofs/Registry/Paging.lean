import ProjectRegistry.Proofs.Registry.AuditLog
import ProjectRegistry.Proofs.Registry.Equivalence
import ProjectRegistry.Proofs.Store.RowIds

/-!
# Pages of a log

Under a clock that does not go back, a log is in the order of its times, because every call logs at
its own time and at the end. So the latest events of a project are the last ones that were
committed, those of one time included, and a page of its log is a part of the log from the end.

A database sorts by milliseconds and takes no count beyond the largest row id for more than that.
Neither changes a page: times cut to milliseconds keep their order, and no log is that long.
-/

namespace ProjectRegistry

open Time (Instant)

/-! ## Logs in the order of their times -/

section Clocks

variable {times later : List Instant} {now : Instant}

theorem Chronological.of_append (h : Chronological (times ++ later)) : Chronological times :=
  ⟨fun t ht => h.ordinary t (List.mem_append_left later ht), (List.pairwise_append.1 h.inOrder).1⟩

/-- A time on a clock may be shown any number of times. -/
theorem Chronological.repeated {shown : List Instant} (h : Chronological (times ++ now :: later))
    (hshown : ∀ t ∈ shown, t = now) : Chronological (times ++ shown ++ later) where
  ordinary t ht := by
    rw [List.append_assoc, List.mem_append, List.mem_append] at ht
    rcases ht with ht | ht | ht
    · exact h.ordinary t (List.mem_append_left _ ht)
    · rw [hshown t ht]
      exact h.ordinary now (List.mem_append_right _ List.mem_cons_self)
    · exact h.ordinary t (List.mem_append_right _ (List.mem_cons_of_mem now ht))
  inOrder := by
    obtain ⟨htimes, hrest, hbefore⟩ := List.pairwise_append.1 h.inOrder
    obtain ⟨hnow, hlater⟩ := List.pairwise_cons.1 hrest
    have hrepeated : shown.Pairwise fun s t => s.atMost t = true :=
      List.pairwise_of_forall_mem_list fun s hs t ht => by
        rw [hshown s hs, hshown t ht]
        exact Instant.atMost_refl now
    rw [List.append_assoc]
    refine List.pairwise_append.2 ⟨htimes, List.pairwise_append.2 ⟨hrepeated, hlater, ?_⟩, ?_⟩
    · intro s hs t ht
      rw [hshown s hs]
      exact hnow t ht
    · intro s hs t ht
      rcases List.mem_append.1 ht with ht | ht
      · rw [hshown t ht]
        exact hbefore s hs now List.mem_cons_self
      · exact hbefore s hs t (List.mem_cons_of_mem now ht)

end Clocks

namespace Registry

variable {σ : Type} [Store σ] {V : View σ} {R : Reader V.C} {r r' r'' : Registry σ}
  {now : Instant}

/-- A registry whose log has grown by events of one time. -/
def LogsAt (V : View σ) (now : Instant) (r r' : Registry σ) : Prop :=
  ∃ es : List (EventRow live), (∀ e ∈ es, e.time = now) ∧
    (V.relations r'.store).events = (V.relations r.store).events ++ es.map (EventRow.write V.M)

omit [Store σ] in
theorem LogsAt.refl : LogsAt V now r r := ⟨[], by simp, (List.append_nil _).symm⟩

omit [Store σ] in
theorem LogsAt.trans (h : LogsAt V now r r') (h' : LogsAt V now r' r'') : LogsAt V now r r'' := by
  obtain ⟨es, hes, hevents⟩ := h
  obtain ⟨fs, hfs, hevents'⟩ := h'
  refine ⟨es ++ fs, fun e he => (List.mem_append.1 he).elim (hes e) (hfs e), ?_⟩
  rw [hevents', hevents, List.map_append, List.append_assoc]

theorem SweepTurn.logsAt (hV : V.Lawful) {retained : Nat} {p : Project}
    {o : Except Failure Nat × Registry σ} (h : SweepTurn V R now retained p r o) :
    LogsAt V now r o.2 := by
  cases h with
  | failed _ => exact .refl
  | idle _ _ => exact .refl
  | @swept _ removed _ bound cleaned _ _ _ _ _ _ hgood _ hrelations =>
    have hposted := relations_postEvent hV hgood now p .purge sweeper (purgeMessage removed bound)
    refine ⟨_, ?_, (congrArg Relations.events hposted).trans (by rw [hrelations]; rfl)⟩
    intro e he
    split at he
    · rw [List.mem_singleton.1 he]
    · cases he

theorem logsAt_sweepAll (hV : V.Lawful) (hA : V.Answers R) (retained : Nat) (ps : List Project)
    {r : Registry σ} (hr : V.Good r.store) : LogsAt V now r (sweepAll now retained ps r).2 := by
  induction ps generalizing r with
  | nil => exact .refl
  | cons p rest ih =>
    have hturn := (sweepProject_turn hV hA hr now retained p).logsAt hV
    rw [sweepAll_cons]
    exact hturn.trans (ih (becomes_sweepProject hV hr now retained p).2.1)

theorem time_of_eventFor? {C : Columns} {l : Relations C} {tick : Tick} {call : Call}
    {answer : Except Failure Reply} {e : EventRow live}
    (h : call.eventFor? l tick answer = some e) : e.time = tick.now := by
  unfold Call.eventFor? at h
  split at h
  · cases h; rfl
  · split at h
    · cases h; rfl
    · cases h
  · cases h; rfl
  · cases h; rfl
  · cases h; rfl
  · cases h

/-- What a call logs, it logs at its own time. -/
theorem logsAt_perform (hV : V.Lawful) (hA : V.Answers R) (hr : V.Good r.store) (tick : Tick)
    (call : Call) : LogsAt V tick.now r (perform tick call r).2 := by
  cases hsweep : call.isSweep with
  | false =>
    refine ⟨_, fun e he => ?_, events_perform hV hr tick hsweep⟩
    exact time_of_eventFor? (Option.mem_toList.1 he)
  | true =>
    cases call with
    | sweep retained =>
      rw [perform_sweep]
      cases Store.activeProjects r.store with
      | error e => exact .refl
      | ok ps => exact logsAt_sweepAll hV hA retained ps hr
    | _ => cases hsweep

/-- Along a run under a clock that does not go back, the log is in the order of its times. What is
carried along is that its times and those still to come are the times of such a clock. -/
theorem chronological_after (hV : V.Lawful) (hA : V.Answers R) (calls : List (Tick × Call))
    {r : Registry σ} (hr : V.Good r.store) (es : List (EventRow live))
    (hevents : (V.relations r.store).events = es.map (EventRow.write V.M))
    (hclock : Chronological (es.map EventRow.time ++ calls.map fun c => c.1.now)) :
    ∃ es' : List (EventRow live),
      (V.relations (r.after calls).store).events = es'.map (EventRow.write V.M) ∧
        Chronological (es'.map EventRow.time) := by
  induction calls generalizing r es with
  | nil => exact ⟨es, hevents, hclock.of_append⟩
  | cons c rest ih =>
    obtain ⟨new, hnew, hgrown⟩ := logsAt_perform hV hA hr c.1 c.2
    refine ih (becomes_perform hV hr c.1 c.2).2.1 (es ++ new) ?_ ?_
    · rw [hgrown, hevents, List.map_append]
    · rw [List.map_append]
      refine hclock.repeated fun t ht => ?_
      obtain ⟨e, he, rfl⟩ := List.mem_map.1 ht
      exact hnew e he

/-! ## Pages -/

theorem perform_events (tick : Tick) (p : Project) (limit offset : Nat) (r : Registry σ) :
    perform tick (.events p limit offset) r =
      ((Store.events p limit offset r.store).map .events, r) :=
  Step.map_apply _ _ r

/-- The log of a project in the order in which it was committed, in the words of a medium. -/
def logOf (M : Medium live) (es : List (EventRow live)) (p : Int32) : List Event :=
  (es.filter fun e => e.project = p).map fun e => (e.write M).toEvent

/-- What pages of the log of a project are: parts of it, read from its end. -/
structure PagesLog (log : Int32 → List Event) (r : Registry σ) : Prop where
  own {p : Int32} {e : Event} : e ∈ log p → e.project = p
  page (tick : Tick) (p : Project) (limit offset : Nat) :
    perform tick (.events p limit offset) r =
      (.ok (.events (((log p.id).reverse.drop offset).take limit)), r)
  /-- Enough pages of one size hold every event once and in order. -/
  pages (tick : Tick) (p : Project) (size n : Nat) : (log p.id).length ≤ n * size →
    ∃ pages : List (List Event),
      ((List.range n).map fun i => (perform tick (.events p size (i * size)) r).1) =
          pages.map (fun es => .ok (.events es)) ∧
        pages.flatten = (log p.id).reverse

theorem pagesLog (M : Medium live) {es : List (EventRow live)}
    (h : ∀ (p : Project) (limit offset : Nat), Store.events p limit offset r.store =
      .ok ((page limit offset (es.filter fun e => e.project = p.id).reverse).map
        fun e => (e.write M).toEvent)) : PagesLog (logOf M es) r := by
  have hpage (tick : Tick) (p : Project) (limit offset : Nat) :
      perform tick (.events p limit offset) r =
        (.ok (.events (page limit offset (logOf M es p.id).reverse)), r) := by
    rw [perform_events, h, logOf, ← List.map_reverse, page_map]
    rfl
  refine ⟨fun {p e} he => ?own, hpage, fun tick p size n hn => ?pages⟩
  case own =>
    obtain ⟨d, hd, rfl⟩ := List.mem_map.1 he
    exact of_decide_eq_true (List.mem_filter.1 hd).2
  case pages =>
    refine ⟨(List.range n).map fun i => page size (i * size) (logOf M es p.id).reverse, ?_, ?_⟩
    · simp only [hpage, List.map_map]
      rfl
    · rw [flatten_pages, List.take_of_length_le (by rwa [List.length_reverse])]

end Registry

/-- Under a clock that does not go back, in memory and in a database alike, a page of the log of a
project is what is left of it from the end after an offset, up to a limit, whatever these are; and
pages of one size that follow each other make up the log. -/
theorem pages_make_up_the_log (limits : Limits) (root : Files.Path) (files : Files.FileTree)
    {calls : List (Tick × Call)} (hclock : Chronological (calls.map fun c => c.1.now)) :
    ((Registry.start limits root files Memory.empty).after calls).PagesLog
        (Registry.logOf .values
          ((Registry.start limits root files Memory.empty).after calls).store.relations.events) ∧
      ∃ es, ((Registry.start limits root files Database.empty).after calls).store.relations.events =
          es.map (EventRow.write .cells) ∧
        ((Registry.start limits root files Database.empty).after calls).PagesLog
          (Registry.logOf .millis es) := by
  constructor
  · obtain ⟨es, hevents, htimes⟩ := Registry.chronological_after Memory.lawful Memory.answers calls
      (r := .start limits root files Memory.empty) Memory.good_empty [] rfl hclock
    have hevents : ((Registry.start limits root files Memory.empty).after
        calls).store.relations.events = es := hevents.trans (List.map_id es)
    refine Registry.pagesLog .values fun p limit offset => congrArg Except.ok ?_
    refine Memory.events_eq ?_ p limit offset
    rw [hevents]
    exact List.pairwise_map.1 htimes.inOrder
  · obtain ⟨hgood, hcounts⟩ := Registry.good_after (V := Database.countingView)
      (r := .start limits root files Database.empty) Database.lawful_counting
      ⟨Database.good_empty, Database.countsEvents_empty⟩ calls
    obtain ⟨es, hevents, htimes⟩ := Registry.chronological_after Database.lawful Database.answers
      calls (r := .start limits root files Database.empty) Database.good_empty [] rfl hclock
    have hevents : ((Registry.start limits root files Database.empty).after
        calls).store.relations.events = es.map (EventRow.write .cells) := hevents
    refine ⟨es, hevents, Registry.pagesLog .millis fun p limit offset => ?_⟩
    have hlength : (es.length : Int) ≤ Database.lastRowId := by
      have hcount := hcounts.sequence ▸ hcounts.fits
      rwa [hevents, List.length_map] at hcount
    exact Database.events_eq hgood.isOpen hevents
      (fun e he => htimes.ordinary e.time (List.mem_map_of_mem he))
      (List.pairwise_map.1 htimes.inOrder) hlength p limit offset

/-- Events of two projects, some of them at one time and all within one millisecond. -/
def crowdedRun : List (Tick × Call) :=
  let tick (nanos : Nat) : Tick := ⟨⟨0, nanos⟩, .ofNat 0⟩
  let first := Project.new 1 "flows" "" "ann" .epoch
  let second := Project.new 2 "other" "" "ann" .epoch
  [(tick 0, .createProject "flows" "" "ann"), (tick 0, .createProject "other" "" "ann"),
    (tick 100, .postEvent first .schedule "ann" "a"),
    (tick 100, .postEvent second .schedule "ann" "b"),
    (tick 100, .postEvent first .sla "ann" "c"), (tick 200, .postEvent first .error "ann" "d")]

/-- The middle of the log of the first project, on a page that begins after the latest event. -/
theorem crowdedRun_pages :
    Chronological (crowdedRun.map fun c => c.1.now) ∧
      (Registry.perform .first (.events (Project.new 1 "flows" "" "ann" .epoch) 2 1)
          ((Registry.start {} (.ofText "root") .empty Memory.empty).after crowdedRun)).1 =
        .ok (.events [⟨1, .sla, "ann", "c", ⟨0, 100⟩⟩, ⟨1, .schedule, "ann", "a", ⟨0, 100⟩⟩]) ∧
      ∃ es : List (EventRow live), es.length = 6 ∧
        ((Registry.start {} (.ofText "root") .empty Database.empty).after crowdedRun).PagesLog
          (Registry.logOf .millis es) := by
  have hclock : Chronological (crowdedRun.map fun c => c.1.now) := by decide +kernel
  obtain ⟨hmemory, es, hevents, hdatabase⟩ :=
    pages_make_up_the_log {} (.ofText "root") .empty hclock
  have hlog : Registry.logOf .values ((Registry.start {} (.ofText "root") .empty
      Memory.empty).after crowdedRun).store.relations.events 1 =
        [⟨1, .created, "ann", createdMessage "flows", ⟨0, 0⟩⟩,
          ⟨1, .schedule, "ann", "a", ⟨0, 100⟩⟩, ⟨1, .sla, "ann", "c", ⟨0, 100⟩⟩,
          ⟨1, .error, "ann", "d", ⟨0, 200⟩⟩] := by decide +kernel
  have hlength : ((Registry.start {} (.ofText "root") .empty Database.empty).after
      crowdedRun).store.relations.events.length = 6 := by decide +kernel
  refine ⟨hclock, ?_, es, by rwa [hevents, List.length_map] at hlength, hdatabase⟩
  rw [hmemory.page, show (Project.new 1 "flows" "" "ann" .epoch).id = 1 from rfl, hlog]
  rfl

end ProjectRegistry
