import Mathlib.Data.List.Basic
import ProjectRegistry.Proofs.Registry.Twins
import ProjectRegistry.Proofs.Store.Retention

/-!
# Turns of a sweep

A sweep gives each active project its turn. A turn fails, before it changes anything, if the
versions of the project cannot be read; it changes nothing at all if no version is outdated; or it
takes away what is outdated and then tries to write that to the log. It touches nothing that belongs
to another project, so turns do not get in each other's way.
-/

namespace ProjectRegistry

variable {C : Columns}

/-- The text that tells of the versions that a sweep removed from a project. -/
def purgeText (numbers : List Int32) (threshold : Int) : String :=
  "Removed versions " ++
    String.ofList (Text.joinWith [',', ' '] (numbers.map fun v => Text.decimalOf v.toInt)) ++
    " below retention threshold " ++ Text.numeralText threshold

namespace Relations

/-- What a sweep writes to the log about a project, if it takes versions away. -/
def purgeOf (M : Medium C) (retained : Nat) (now : Time.Instant) (r : Relations C) (p : Int32) :
    Option (EventRow live) :=
  match r.newestOf p, r.outdatedOf M retained p with
  | some n, v :: vs =>
    some ⟨p, .purge, Registry.sweeper,
      purgeText (v :: vs) (n.toInt - (max retained 1 : Nat) + 1), now⟩
  | _, _ => none

/-- Relations with some more events at the end of the log. -/
def logging (M : Medium C) (r : Relations C) (es : List (EventRow live)) : Relations C :=
  { r with events := r.events ++ es.map (EventRow.write M) }

variable {M : Medium C} {r : Relations C} {retained : Nat} {now : Time.Instant}

@[simp] theorem logging_nil (r : Relations C) : r.logging M [] = r := by simp [logging]

theorem logging_logging (r : Relations C) (es fs : List (EventRow live)) :
    (r.logging M es).logging M fs = r.logging M (es ++ fs) := by
  simp [logging]

theorem eventsOf_logging (r : Relations C) (es : List (EventRow live)) (p : Int32) :
    (r.logging M es).eventsOf p =
      r.eventsOf p ++ (es.filter fun e => e.project = p).map (EventRow.write M) := by
  rw [eventsOf, logging, List.filter_append, List.filter_map]
  rfl

theorem purgeOf_of_idle {p : Int32} (h : r.outdatedOf M retained p = []) :
    r.purgeOf M retained now p = none := by
  rw [purgeOf, h]
  cases r.newestOf p <;> rfl

theorem purgeOf_of_outdated {p n : Int32} (hn : r.newestOf p = some n)
    (h : r.outdatedOf M retained p ≠ []) :
    r.purgeOf M retained now p =
      some ⟨p, .purge, Registry.sweeper,
        purgeText (r.outdatedOf M retained p) (n.toInt - (max retained 1 : Nat) + 1), now⟩ := by
  rw [purgeOf, hn]
  cases hout : r.outdatedOf M retained p with
  | nil => exact absurd hout h
  | cons v vs => rfl

end Relations

namespace Registry

/-! ## Thresholds -/

theorem newest?_eq_max? (vs : List Version) : newest? vs = (vs.map Version.number).max? := by
  have hfold (vs : List Version) (a : Int32) :
      vs.foldl (fun largest v => some
        ((largest.map fun n => if n < v.number then v.number else n).getD v.number)) (some a) =
      some ((vs.map Version.number).foldl max a) := by
    induction vs generalizing a with
    | nil => rfl
    | cons v rest ih =>
      have hmax : (if a < v.number then v.number else a) = max a v.number := by
        show _ = if a ≤ v.number then v.number else a
        by_cases hlt : a < v.number
        · rw [if_pos hlt, if_pos (Int32.le_of_lt hlt)]
        · rw [if_neg hlt]
          split
          · next hle => exact Int32.le_antisymm hle (Int32.not_lt.1 hlt)
          · rfl
      rw [List.foldl_cons, List.map_cons, List.foldl_cons, ← ih]
      simp only [Option.map_some, Option.getD_some, hmax]
  cases vs with
  | nil => rfl
  | cons v rest => exact hfold rest v.number

/-- No bound is needed where all numbers from 1 on are among those retained. -/
theorem threshold?_eq_none {retained : Nat} {newest : Int32}
    (h : threshold? retained newest = none) :
    newest.toInt - (max retained 1 : Nat) < 1 := by
  simp only [threshold?] at h
  split at h
  · omega
  · cases h

theorem threshold?_eq_some {retained : Nat} {newest bound : Int32}
    (h : threshold? retained newest = some bound) :
    bound.toInt = newest.toInt - (max retained 1 : Nat) + 1 := by
  simp only [threshold?] at h
  split at h
  · cases h
  · have hle := newest.toInt_le
    have hmax : Int32.maxValue.toInt = 2147483647 := by decide
    cases h
    -- at least one version is retained, so the bound is at most the newest number
    exact Int32.toInt_ofInt_of_le (by omega) (by omega)

theorem purgeMessage_eq (removed : List Version) (threshold : Int32) :
    purgeMessage removed threshold =
      purgeText (removed.map Version.number) threshold.toInt := by
  have hnumbers : (removed.map Version.number).map (fun n => Text.decimalOf n.toInt) =
      removed.map fun v => Text.decimalOf v.number.toInt := by
    rw [List.map_map]
    rfl
  unfold purgeMessage purgeText
  rw [hnumbers]

/-! ## One turn -/

variable {σ : Type} [Store σ] {V : View σ} {R : Reader V.C} {retained : Nat}
  {now : Time.Instant} {p : Project} {r : Registry σ}

/-- Posting puts an event at the end of the log, or does nothing. -/
theorem relations_postEvent (hV : V.Lawful) {s : σ} (hs : V.Good s) (now : Time.Instant)
    (p : Project) (kind : EventKind) (user message : String) :
    V.relations (Store.postEvent now p kind user message s).2 =
      (V.relations s).logging V.M (if (Store.postEvent now p kind user message s).1
        then [⟨p.id, kind, user, message, now⟩] else []) := by
  have hpost := hV.postEvent hs {} now p kind user message
  obtain ⟨-, cs, hcs, -, hposted⟩ := hpost.of_ok rfl
  rw [hposted, hcs]
  split
  · rfl
  · exact (Relations.logging_nil _).symm

/-- What the turn of a project comes to. -/
inductive SweepTurn (V : View σ) (R : Reader V.C) (now : Time.Instant) (retained : Nat)
    (p : Project) (r : Registry σ) : Except Failure Nat × Registry σ → Prop
  /-- A version cannot be read. -/
  | failed {e : Failure}
      (hread : R.versions p.id ((V.relations r.store).versionsOf p.id) = .error e) :
      SweepTurn V R now retained p r (.error e, r)
  | idle {vs : List Version}
      (hread : R.versions p.id ((V.relations r.store).versionsOf p.id) = .ok vs)
      (hidle : (V.relations r.store).outdatedOf V.M retained p.id = []) :
      SweepTurn V R now retained p r (.ok 0, r)
  /-- Versions are removed, which leaves a registry that posts them. -/
  | swept {vs removed : List Version} {newest bound : Int32} {cleaned : Registry σ}
      (hread : R.versions p.id ((V.relations r.store).versionsOf p.id) = .ok vs)
      (hnewest : (V.relations r.store).newestOf p.id = some newest)
      (hbound : bound.toInt = newest.toInt - (max retained 1 : Nat) + 1)
      (hremoved :
        removed.map Version.number = (V.relations r.store).outdatedOf V.M retained p.id)
      (hsome : (V.relations r.store).outdatedOf V.M retained p.id ≠ [])
      (hlimits : cleaned.limits = r.limits)
      (hgood : V.Good cleaned.store)
      (hstore : cleaned.store = (Store.clean p.id bound r.store).2)
      (hrelations : V.relations cleaned.store =
        (V.relations r.store).without
          ((V.relations r.store).outdatedIn V.M retained [p.id])) :
      SweepTurn V R now retained p r
        (.ok removed.length, { cleaned with
          store := (Store.postEvent now p .purge sweeper (purgeMessage removed bound)
            cleaned.store).2 })

/-- Nothing is outdated where the bound would be 1 or less. -/
theorem outdatedOf_eq_nil_of_low {C : Columns} {M : Medium C} {l : Relations C} (h : l.Sound M)
    {retained : Nat} {p : Int32}
    (hlow : ∀ n, l.newestOf p = some n → n.toInt - (max retained 1 : Nat) < 1) :
    l.outdatedOf M retained p = [] := by
  rw [List.eq_nil_iff_forall_not_mem]
  intro v hv
  obtain ⟨hversion, hout⟩ := Relations.mem_outdatedOf_iff.1 hv
  obtain ⟨⟨n, hn, hle⟩, -⟩ := Relations.isOutdated_iff.1 hout
  have := hlow n hn
  have := (h.version hversion).2.1
  omega

/-- What cleaning up below a bound does to a registry, where the bound is right below the versions
to retain. -/
theorem clean_of_bound (hV : V.Lawful) (hA : V.Answers R) (hr : V.Good r.store) {p newest bound :
    Int32} {vs : List Version}
    (hread : R.versions p ((V.relations r.store).versionsOf p) = .ok vs)
    (hnewest : (V.relations r.store).newestOf p = some newest)
    (hbound : bound.toInt = newest.toInt - (max retained 1 : Nat) + 1) :
    ∃ removed cleaned, clean p bound r = (.ok removed, cleaned) ∧
      removed.map Version.number = (V.relations r.store).outdatedOf V.M retained p ∧
      cleaned.limits = r.limits ∧ V.Good cleaned.store ∧
      cleaned.store = (Store.clean p bound r.store).2 ∧
      V.relations cleaned.store =
        (V.relations r.store).without ((V.relations r.store).outdatedIn V.M retained [p]) ∧
      (removed = [] → cleaned = r) := by
  have hversion := (Relations.newestOf_eq_some_iff.1 hnewest).1
  have hproject := ((hV.sound hr).version hversion).1
  have hdoomed : (V.relations r.store).isDoomed V.M p bound =
      (V.relations r.store).isOutdated V.M retained p :=
    funext (Relations.isDoomed_eq_isOutdated hnewest hbound)
  obtain ⟨removed, hremoved⟩ := Reader.versions_filter hread
    fun e => (V.relations r.store).isDoomed V.M p bound e.1
  have hanswer : (Store.clean p bound r.store).1 = .ok removed :=
    (hA.clean hr hproject bound).trans hremoved
  have hjournal := hV.clean hr r.limits p bound
  obtain ⟨hgood, cs, rfl, -, hrelations⟩ := hjournal.of_ok (Prod.ext hanswer rfl)
  have hnumbers : removed.map Version.number =
      (V.relations r.store).outdatedOf V.M retained p := by
    rw [Reader.numbers_of_versions hremoved, Relations.outdatedOf, Relations.numbersOf,
      List.filter_map, hdoomed]
    rfl
  have hclean : clean p bound r = (.ok removed,
      removed.foldl (fun r v => r.discard v.resourceId)
        { r with store := (Store.clean p bound r.store).2 }) := by
    rw [clean_eq, show Store.clean p bound r.store =
      (.ok removed, (Store.clean p bound r.store).2) from Prod.ext hanswer rfl]
  obtain ⟨hstore, hlimits⟩ := foldl_discard removed
    { r with store := (Store.clean p bound r.store).2 }
  refine ⟨removed, _, hclean, hnumbers, hlimits, hstore ▸ hgood, hstore, ?_, fun hnone => ?_⟩
  · rw [hstore, hrelations, Change.applyAll_cons, Change.applyAll_nil, Change.clean_apply]
    congr 1
    funext q v
    simp only [Relations.outdatedIn, List.mem_singleton]
    by_cases hq : q = p
    · rw [hq, hdoomed]
    · simp [hq]
  · subst hnone
    have hidle : (V.relations r.store).doomedOf V.M p bound = [] := by
      have hnil := Reader.numbers_of_versions hremoved
      simpa [Relations.doomedOf] using hnil.symm
    rw [hA.clean_idle hr hidle]
    rfl

theorem sweepProject_turn (hV : V.Lawful) (hA : V.Answers R) (hr : V.Good r.store)
    (now : Time.Instant) (retained : Nat) (p : Project) :
    SweepTurn V R now retained p r (sweepProject now retained p r) := by
  rw [sweepProject_eq, hA.versions hr]
  cases hread : R.versions p.id ((V.relations r.store).versionsOf p.id) with
  | error e => exact .failed hread
  | ok vs =>
    have hnewest : newest? vs = (V.relations r.store).newestOf p.id := by
      rw [newest?_eq_max?, Reader.numbers_of_versions hread]
      rfl
    simp only [hnewest]
    cases hthreshold :
      ((V.relations r.store).newestOf p.id).bind (threshold? retained) with
    | none =>
      refine .idle hread (outdatedOf_eq_nil_of_low (hV.sound hr) fun n hn => ?_)
      rw [hn, Option.bind_some] at hthreshold
      exact threshold?_eq_none hthreshold
    | some bound =>
      obtain ⟨newest, hn, ht⟩ := Option.bind_eq_some_iff.1 hthreshold
      have hbound := threshold?_eq_some ht
      obtain ⟨removed, cleaned, hclean, hremoved, hlimits, hgood, hstore, hrelations, hsame⟩ :=
        clean_of_bound hV hA hr hread hn hbound
      simp only [hclean]
      cases hempty : removed.isEmpty with
      | true =>
        have hnil := List.isEmpty_iff.1 hempty
        rw [if_pos rfl, hsame hnil]
        exact .idle hread (by rw [← hremoved, hnil]; rfl)
      | false =>
        refine .swept hread hn hbound hremoved (fun hnone => ?_) hlimits hgood hstore hrelations
        rw [hnone, List.map_eq_nil_iff] at hremoved
        simp [hremoved] at hempty

/-! ## Turns that are answered -/

/-- What turns of some projects come to that are all answered: what was outdated is gone, and the
log may tell of it. It does tell where there is room for an event of each project. -/
structure Purged (V : View σ) (now : Time.Instant) (retained : Nat) (ps : List Int32)
    (r : Registry σ) (removed : Nat) (r' : Registry σ) : Prop where
  limits : r'.limits = r.limits
  good : V.Good r'.store
  count : removed + (V.relations r'.store).versions.entries.length =
    (V.relations r.store).versions.entries.length
  relations : ∃ es,
    V.relations r'.store =
      ((V.relations r.store).without ((V.relations r.store).outdatedIn V.M retained ps)).logging
        V.M es ∧
    ∀ {Room : Nat → σ → Prop} (n : Nat), V.Logs Room → Room (ps.length + n) r.store →
      es = ps.filterMap ((V.relations r.store).purgeOf V.M retained now) ∧ Room n r'.store
  idle : (∀ p ∈ ps, (V.relations r.store).outdatedOf V.M retained p = []) →
    removed = 0 ∧ r' = r

theorem Purged.refl (hr : V.Good r.store) : Purged V now retained [] r 0 r where
  limits := rfl
  good := hr
  count := Nat.zero_add _
  relations := by
    have hnone : (V.relations r.store).outdatedIn V.M retained [] = fun _ _ => false := by
      funext q v
      simp [Relations.outdatedIn]
    have hsame : (V.relations r.store).without
        ((V.relations r.store).outdatedIn V.M retained []) = V.relations r.store := by
      rw [hnone, Relations.without_nothing]
    refine ⟨[], by rw [hsame, Relations.logging_nil], fun n _ hroom => ⟨rfl, ?_⟩⟩
    rwa [List.length_nil, Nat.zero_add] at hroom
  idle _ := ⟨rfl, rfl⟩

/-- What is posted of a project does not depend on whether others had their turns. -/
theorem purgeOf_of_turn {C : Columns} {M : Medium C} (l : Relations C) {p q : Int32}
    (h : q ≠ p) (es : List (EventRow live)) :
    ((l.without (l.outdatedIn M retained [p])).logging M es).purgeOf M retained now q =
      l.purgeOf M retained now q := by
  have hnumbers : (l.without (l.outdatedIn M retained [p])).numbersOf q = l.numbersOf q :=
    l.numbersOf_without_outdatedIn retained (by simpa using h)
  have hnewest : ((l.without (l.outdatedIn M retained [p])).logging M es).newestOf q =
      l.newestOf q := congrArg List.max? hnumbers
  have hisOutdated : ((l.without (l.outdatedIn M retained [p])).logging M es).isOutdated M
      retained q = l.isOutdated M retained q :=
    funext (Relations.isOutdated_without Relations.isOutdated_of_outdatedIn q)
  have houtdated : ((l.without (l.outdatedIn M retained [p])).logging M es).outdatedOf M
      retained q = l.outdatedOf M retained q := by
    rw [Relations.outdatedOf, hisOutdated]
    exact congrArg (List.filter (l.isOutdated M retained q)) hnumbers
  rw [Relations.purgeOf, Relations.purgeOf, hnewest, houtdated]

/-- A turn and then those of other projects. -/
theorem Purged.cons {p : Int32} {ps : List Int32} {n m : Nat} {r' r'' : Registry σ}
    (hp : p ∉ ps) (h : Purged V now retained [p] r n r') (h' : Purged V now retained ps r' m r'') :
    Purged V now retained (p :: ps) r (n + m) r'' := by
  obtain ⟨es, hrelations, hposts⟩ := h.relations
  obtain ⟨fs, hrelations', hposts'⟩ := h'.relations
  refine ⟨h'.limits.trans h.limits, h'.good, ?_, ⟨es ++ fs, ?_, ?_⟩, ?_⟩
  · have := h.count
    have := h'.count
    omega
  · rw [← Relations.logging_logging, ← Relations.without_outdatedIn_cons, hrelations', hrelations]
    rfl
  · intro Room k hL hroom
    have hlength : [p].length + (ps.length + k) = (p :: ps).length + k := by
      simp only [List.length_cons, List.length_nil]
      omega
    obtain ⟨hes, hroom⟩ := hposts (ps.length + k) hL (hlength ▸ hroom)
    obtain ⟨hfs, hroom⟩ := hposts' k hL hroom
    refine ⟨?_, hroom⟩
    have hrest : ps.filterMap ((V.relations r'.store).purgeOf V.M retained now) =
        ps.filterMap ((V.relations r.store).purgeOf V.M retained now) := by
      refine List.filterMap_congr fun q hq => ?_
      have hne : q ≠ p := by
        rintro rfl
        exact hp hq
      rw [hrelations]
      exact purgeOf_of_turn _ hne es
    rw [hes, hfs, hrest, ← List.filterMap_append, List.singleton_append]
  · intro hidle
    obtain ⟨rfl, rfl⟩ := h.idle fun q hq => hidle q (by simp [List.mem_singleton.1 hq])
    obtain ⟨rfl, rfl⟩ := h'.idle fun q hq => hidle q (List.mem_cons_of_mem p hq)
    exact ⟨rfl, rfl⟩

/-- Versions can still be read after some are gone. -/
theorem Purged.exists_versions {ps : List Int32} {n : Nat} {r' : Registry σ}
    (h : Purged V now retained ps r n r')
    (hread : ∀ q, ∃ vs, R.versions q ((V.relations r.store).versionsOf q) = .ok vs) (q : Int32) :
    ∃ vs, R.versions q ((V.relations r'.store).versionsOf q) = .ok vs := by
  obtain ⟨vs, hvs⟩ := hread q
  obtain ⟨es, hrelations, -⟩ := h.relations
  rw [hrelations]
  show ∃ vs, R.versions q ((Relations.without _ _).versionsOf q) = .ok vs
  rw [Relations.versionsOf_without]
  exact Reader.versions_filter hvs _

theorem purged_of_idle (hV : V.Lawful) (hr : V.Good r.store) {p : Int32}
    (h : (V.relations r.store).outdatedOf V.M retained p = []) :
    Purged V now retained [p] r 0 r where
  limits := rfl
  good := hr
  count := Nat.zero_add _
  relations := by
    refine ⟨[], ?_, fun {Room} n hL hroom => ⟨?_, ?_⟩⟩
    · rw [Relations.without_outdatedIn_idle (hV.sound hr) (by simpa using h),
        Relations.logging_nil]
    · rw [List.filterMap_cons_none (Relations.purgeOf_of_idle h)]
      rfl
    · rw [List.length_singleton, Nat.add_comm] at hroom
      exact hL.fewer hroom
  idle _ := ⟨rfl, rfl⟩

/-- A turn fails only where a version cannot be read. -/
theorem SweepTurn.purged (hV : V.Lawful) (hr : V.Good r.store)
    {o : Except Failure Nat × Registry σ} (h : SweepTurn V R now retained p r o)
    {vs : List Version} (hread : R.versions p.id ((V.relations r.store).versionsOf p.id) = .ok vs) :
    ∃ n r', o = (.ok n, r') ∧ Purged V now retained [p.id] r n r' := by
  cases h with
  | failed hfailed =>
    rw [hread] at hfailed
    cases hfailed
  | idle _ hidle => exact ⟨0, r, rfl, purged_of_idle hV hr hidle⟩
  | @swept _ removed newest bound cleaned _ hnewest hbound hremoved hsome hlimits hgood hstore
      hrelations =>
    have hposted := relations_postEvent hV hgood now p .purge sweeper (purgeMessage removed bound)
    rw [hrelations] at hposted
    refine ⟨_, _, rfl, hlimits, ?_, ?_, ⟨_, hposted, fun {Room} n hL hroom => ?_⟩, fun hidle => ?_⟩
    · exact ((hV.postEvent hgood r.limits now p .purge sweeper _).of_ok rfl).1
    · have hsplit := (V.relations r.store).versions_length_without
        ((V.relations r.store).outdatedIn V.M retained [p.id])
      rw [Relations.length_outdatedIn, ← hremoved, List.length_map] at hsplit
      rw [hposted]
      exact hsplit
    · rw [List.length_singleton, Nat.add_comm] at hroom
      have hcleaned := hL.clean hr hroom p.id bound
      rw [← hstore] at hcleaned
      obtain ⟨hyes, hleft⟩ := hL.post hgood hcleaned now p .purge sweeper
        (purgeMessage removed bound)
      refine ⟨?_, hleft⟩
      rw [hyes, if_pos rfl, purgeMessage_eq, hremoved, hbound,
        List.filterMap_cons_some (Relations.purgeOf_of_outdated hnewest hsome)]
      rfl
    · exact absurd (hidle p.id List.mem_cons_self) hsome

/-! ## All turns -/

/-- Where the versions of all projects can be read, every turn is answered. -/
theorem sweepAll_purged (hV : V.Lawful) (hA : V.Answers R) (now : Time.Instant) (retained : Nat)
    (ps : List Project) {r : Registry σ} (hr : V.Good r.store)
    (hread : ∀ p, ∃ vs, R.versions p ((V.relations r.store).versionsOf p) = .ok vs)
    (hdistinct : (ps.map Project.id).Nodup) :
    ∃ removed r', sweepAll now retained ps r = (⟨ps.length, removed, 0⟩, r') ∧
      Purged V now retained (ps.map Project.id) r removed r' := by
  induction ps generalizing r with
  | nil => exact ⟨0, r, rfl, .refl hr⟩
  | cons p rest ih =>
    obtain ⟨hp, hrest⟩ := List.nodup_cons.1 hdistinct
    obtain ⟨vs, hvs⟩ := hread p.id
    obtain ⟨n, r₁, hturn, hpurged⟩ :=
      (sweepProject_turn hV hA hr now retained p).purged hV hr hvs
    obtain ⟨m, r₂, hall, hpurged'⟩ := ih hpurged.good (hpurged.exists_versions hread) hrest
    refine ⟨n + m, r₂, ?_, hpurged.cons hp hpurged'⟩
    rw [sweepAll_cons, hturn]
    simp only [hall, SweepReport.count, List.length_cons]

/-- A sweep is answered if the active projects can be read. -/
theorem perform_sweep (tick : Tick) (retained : Nat) (r : Registry σ) :
    perform tick (.sweep retained) r =
      match Store.activeProjects r.store with
      | .error e => (.error e, r)
      | .ok projects =>
        (.ok (.swept (sweepAll tick.now retained projects r).1),
          (sweepAll tick.now retained projects r).2) := by
  rw [perform, Step.map_apply, sweep_eq]
  cases Store.activeProjects r.store <;> rfl

end Registry

end ProjectRegistry
