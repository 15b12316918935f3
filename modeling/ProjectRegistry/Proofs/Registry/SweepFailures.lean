import ProjectRegistry.Proofs.Registry.Retention
import ProjectRegistry.Proofs.Store.Damage
import ProjectRegistry.Store.Database.Edit

/-!
# Sweeps in which projects fail

A sweep of an open database gives each active project its turn, whatever the versions hold. A turn
fails before it changes anything if a version of the project cannot be read. Any other turn takes
from its project what it would have taken without the others, since it looks at nothing but the part
of that project and leaves the parts of all others alone.

The log alone is shared: the ids of events may be used up in the middle of a sweep, and the turns
after that take their versions away without a word.
-/

namespace ProjectRegistry.Registry

open Database (takes loadVersion lastRowId)

variable {now : Time.Instant} {retained : Nat} {r r' : Registry Database} {p : Project} {q : Int32}

/-! ## One turn -/

/-- What the turn of a project comes to: why it fails, or what it takes, if there is a bound. -/
def removalOf (retained : Nat) (p : Int32) (l : Relations stored) :
    Except Failure (Option Removal) :=
  match loadAll (loadVersion p) (l.versionsOf p) with
  | .error e => .error e
  | .ok vs =>
    match (newest? vs).bind (threshold? retained) with
    | none => .ok none
    | some bound => (Database.removalBelow p bound l).map some

theorem removalOf_of_part {l l' : Relations stored} (h : l'.part q = l.part q) :
    removalOf retained q l' = removalOf retained q l := by
  simp only [removalOf, Relations.versionsOf_of_part h, Database.removalBelow_of_part h]

/-- What a turn that took versions away can post: nothing if no row id is left. -/
def posts (now : Time.Instant) (p : Project) (x : Removal) (d : Database) :
    List (EventRow live) :=
  if x.versions.isEmpty || decide (lastRowId ≤ d.eventSequence) then []
  else [⟨p.id, .purge, sweeper, purgeMessage x.versions x.bound, now⟩]

/-- A database after a turn that took versions away. -/
def settled (now : Time.Instant) (p : Project) (x : Removal) (d : Database) : Database :=
  { d with
    relations := (d.relations.without (takes x p.id)).logging .cells (posts now p x d)
    eventSequence := d.eventSequence + (posts now p x d).length }

/-- The database after a turn. -/
def afterTurn (now : Time.Instant) (retained : Nat) (p : Project) (d : Database) : Database :=
  match removalOf retained p.id d.relations with
  | .ok (some x) => settled now p x d
  | _ => d

theorem settled_eq {d : Database} (hopen : d.isOpen = true) (x : Removal) :
    settled now p x d =
      if x.versions.isEmpty then { d with relations := d.relations.without (takes x p.id) }
      else (Database.postEvent now p .purge sweeper (purgeMessage x.versions x.bound)
        { d with relations := d.relations.without (takes x p.id) }).2 := by
  have hpost := Database.postEvent_eq
    (d := { d with relations := d.relations.without (takes x p.id) }) hopen now p .purge sweeper
      (purgeMessage x.versions x.bound)
  rw [hpost, settled, posts]
  cases x.versions.isEmpty with
  | true => simp
  | false =>
    by_cases hroom : d.eventSequence < lastRowId
    · have hleft : ¬ lastRowId ≤ d.eventSequence := by omega
      simp only [hroom, hleft, decide_false, Bool.or_false, Bool.false_eq_true, if_false, if_true]
      rfl
    · have hfull : lastRowId ≤ d.eventSequence := by omega
      simp [hroom, hfull]

/-- Files apart, cleaning up does to a registry what it does to its database. -/
theorem exists_clean (hopen : r.store.isOpen = true) {bound : Int32} {x : Removal}
    (h : Database.removalBelow q bound r.store.relations = .ok x) :
    ∃ cleaned, clean q bound r = (.ok x.versions, cleaned) ∧
      cleaned.store = { r.store with relations := r.store.relations.without (takes x q) } := by
  have hclean : Store.clean q bound r.store =
      (.ok x.versions, { r.store with relations := r.store.relations.without (takes x q) }) := by
    show Database.clean q bound r.store = _
    rw [Database.clean_apply hopen, h]
  refine ⟨_, by rw [clean_eq, hclean], ?_⟩
  exact (foldl_discard x.versions _).1

variable (now retained p) in
theorem sweepProject_apply (hopen : r.store.isOpen = true) :
    (sweepProject now retained p r).1 =
        (removalOf retained p.id r.store.relations).map
          (fun x => (x.map fun x => x.versions.length).getD 0) ∧
      (sweepProject now retained p r).2.store = afterTurn now retained p r.store := by
  have hversions : Store.versions p.id r.store =
      loadAll (loadVersion p.id) (r.store.relations.versionsOf p.id) := by
    show Database.versions p.id r.store = _
    rw [Database.versions, Database.query_apply hopen]
  rw [sweepProject_eq, afterTurn, removalOf, hversions]
  cases loadAll (loadVersion p.id) (r.store.relations.versionsOf p.id) with
  | error e => exact ⟨rfl, rfl⟩
  | ok vs =>
    simp only
    cases (newest? vs).bind (threshold? retained) with
    | none => exact ⟨rfl, rfl⟩
    | some bound =>
      simp only
      cases hremoval : Database.removalBelow p.id bound r.store.relations with
      | error e =>
        have hclean : Store.clean p.id bound r.store = (.error e, r.store) := by
          show Database.clean p.id bound r.store = _
          rw [Database.clean_apply hopen, hremoval]
        simp only [clean_eq, hclean]
        exact ⟨rfl, rfl⟩
      | ok x =>
        obtain ⟨cleaned, hclean, hstore⟩ := exists_clean hopen hremoval
        simp only [hclean, Except.map, Option.map_some, Option.getD_some, settled_eq hopen]
        cases hempty : x.versions.isEmpty with
        | true => exact ⟨by rw [List.isEmpty_iff.1 hempty]; rfl, hstore⟩
        | false =>
          refine ⟨rfl, ?_⟩
          rw [if_neg Bool.false_ne_true, if_neg Bool.false_ne_true, ← hstore,
            Database.bound_of_removalBelow hremoval]
          rfl

/-! ## What a turn leaves alone -/

section AfterTurn

variable {d d' : Database}

theorem isOpen_afterTurn (d : Database) : (afterTurn now retained p d).isOpen = d.isOpen := by
  unfold afterTurn
  split <;> rfl

variable (now retained p) in
theorem eventSequence_afterTurn (d : Database) :
    d.eventSequence ≤ (afterTurn now retained p d).eventSequence ∧
      (afterTurn now retained p d).eventSequence ≤ d.eventSequence + 1 := by
  unfold afterTurn
  split
  · next x _ =>
    have hlength : (posts now p x d).length ≤ 1 := by
      unfold posts
      split <;> simp
    simp only [settled]
    omega
  · omega

theorem part_logging_other {l : Relations stored} {es : List (EventRow live)}
    (h : ∀ e ∈ es, e.project ≠ q) : (l.logging .cells es).part q = l.part q := by
  have hnone : es.filter (fun e => e.project = q) = [] := by
    rw [List.filter_eq_nil_iff]
    intro e he
    simpa using h e he
  have hevents : (l.logging .cells es).eventsOf q = l.eventsOf q := by
    rw [Relations.eventsOf_logging, hnone, List.map_nil, List.append_nil]
  exact Relations.part_eq_of_unlogged rfl hevents

theorem part_logging {l : Relations stored} {es : List (EventRow live)}
    (h : ∀ e ∈ es, e.project = q) :
    (l.logging .cells es).part q = (l.part q).logging .cells es := by
  have hall : es.filter (fun e => e.project = q) = es :=
    List.filter_eq_self.2 fun e he => decide_eq_true (h e he)
  have hevents : (l.logging .cells es).eventsOf q =
      l.eventsOf q ++ es.map (EventRow.write .cells) := by
    rw [Relations.eventsOf_logging, hall]
  show { l.part q with events := (l.logging .cells es).eventsOf q } = _
  rw [hevents]
  rfl

theorem project_of_mem_posts {x : Removal} {e : EventRow live} (he : e ∈ posts now p x d) :
    e.project = p.id := by
  unfold posts at he
  split at he
  · cases he
  · rw [List.mem_singleton.1 he]

/-- A turn leaves the parts of all other projects as they are. -/
theorem part_afterTurn_other (h : q ≠ p.id) (d : Database) :
    (afterTurn now retained p d).relations.part q = d.relations.part q := by
  unfold afterTurn
  split
  · next x _ =>
    refine (part_logging_other fun e he => ?_).trans
      (Relations.part_without_other (Database.takes_other x h) d.relations)
    rw [project_of_mem_posts he]
    exact Ne.symm h
  · rfl

theorem part_afterTurn (d : Database) :
    (afterTurn now retained p d).relations.part p.id =
      match removalOf retained p.id d.relations with
      | .ok (some x) =>
        ((d.relations.part p.id).without (takes x p.id)).logging .cells (posts now p x d)
      | _ => d.relations.part p.id := by
  unfold afterTurn
  split
  · next x _ =>
    refine (part_logging fun e he => project_of_mem_posts he).trans ?_
    rw [Relations.part_without]
  · rfl

/-! ## What a turn depends on -/

variable (now retained) in
/-- What a turn takes from a project depends on the part of that project alone. -/
theorem unlogged_afterTurn_of_part (h : d'.relations.part p.id = d.relations.part p.id) :
    ((afterTurn now retained p d').relations.part p.id).unlogged =
      ((afterTurn now retained p d).relations.part p.id).unlogged := by
  rw [part_afterTurn, part_afterTurn, removalOf_of_part h, h]
  split <;> rfl

/-- What it says depends on the log besides, but only on whether that is full. -/
theorem part_afterTurn_of_part (h : d'.relations.part p.id = d.relations.part p.id)
    (hroom : lastRowId ≤ d'.eventSequence ↔ lastRowId ≤ d.eventSequence) :
    (afterTurn now retained p d').relations.part p.id =
      (afterTurn now retained p d).relations.part p.id := by
  rw [part_afterTurn, part_afterTurn, removalOf_of_part h, h]
  simp only [posts, hroom]

/-- A turn that finds the log full says nothing. -/
theorem eventsOf_afterTurn_of_full (hfull : lastRowId ≤ d.eventSequence) :
    (afterTurn now retained p d).relations.eventsOf p.id = d.relations.eventsOf p.id := by
  show ((afterTurn now retained p d).relations.part p.id).events = _
  rw [part_afterTurn]
  split
  · simp only [posts, decide_eq_true hfull, Bool.or_true, if_true, Relations.logging_nil]
    rfl
  · rfl

variable (now) in
/-- A turn that reports some versions takes as many. -/
theorem length_versionsOf_afterTurn {o : Option Removal}
    (h : removalOf retained p.id d.relations = .ok o) :
    (o.map fun x => x.versions.length).getD 0 +
        ((afterTurn now retained p d).relations.versionsOf p.id).length =
      (d.relations.versionsOf p.id).length := by
  rw [afterTurn, h]
  cases o with
  | none => exact Nat.zero_add _
  | some x =>
    unfold removalOf at h
    split at h
    · cases h
    · split at h
      · cases h
      · obtain ⟨y, hy, hsome⟩ := exists_of_map_ok h
        cases hsome
        exact Database.length_of_removalBelow hy

variable (retained) in
theorem exists_error_removalOf {l : Relations stored} (h : l.readsVersions q = false) :
    ∃ e, removalOf retained q l = .error e := by
  unfold removalOf
  cases hread : loadAll (loadVersion q) (l.versionsOf q) with
  | error e => exact ⟨e, rfl⟩
  | ok vs =>
    rw [Database.exists_versions_iff.1 ⟨vs, hread⟩] at h
    cases h

variable (retained) in
theorem exists_ok_removalOf {l : Relations stored} (hpointer : l.ReadsPointer q)
    (h : l.readsVersions q = true) : ∃ o, removalOf retained q l = .ok o := by
  obtain ⟨vs, hread⟩ := Database.exists_versions_iff.2 h
  unfold removalOf
  rw [hread]
  simp only
  cases (newest? vs).bind (threshold? retained) with
  | none => exact ⟨none, rfl⟩
  | some bound =>
    obtain ⟨x, hx⟩ := Database.exists_removalBelow hpointer h bound
    exact ⟨some x, by simp only [hx, Except.map]⟩

end AfterTurn

/-! ## All turns -/

/-- The database after turns of some projects, one after the other. -/
def afterTurns (now : Time.Instant) (retained : Nat) (ps : List Project) (d : Database) :
    Database :=
  ps.foldl (fun d p => afterTurn now retained p d) d

section AfterTurns

variable {ps : List Project} {d : Database}

variable (now retained) in
theorem eventSequence_afterTurns (ps : List Project) (d : Database) :
    d.eventSequence ≤ (afterTurns now retained ps d).eventSequence ∧
      (afterTurns now retained ps d).eventSequence ≤ d.eventSequence + ps.length := by
  induction ps generalizing d with
  | nil => exact ⟨Int.le_refl _, Int.le_of_eq (Int.add_zero _).symm⟩
  | cons p rest ih =>
    obtain ⟨hlow, hhigh⟩ := eventSequence_afterTurn now retained p d
    obtain ⟨hlow', hhigh'⟩ := ih (afterTurn now retained p d)
    rw [List.length_cons]
    simp only [afterTurns, List.foldl_cons] at *
    omega

variable (now retained) in
theorem part_afterTurns_other (h : q ∉ ps.map Project.id) (d : Database) :
    (afterTurns now retained ps d).relations.part q = d.relations.part q := by
  induction ps generalizing d with
  | nil => rfl
  | cons p rest ih =>
    simp only [List.map_cons, List.mem_cons, not_or] at h
    exact (ih h.2 _).trans (part_afterTurn_other h.1 d)

variable (now retained) in
/-- Each project has its turn in a database that holds the same of it as the one before all turns,
and with a log that grew by one event of each other project at most. -/
theorem part_afterTurns (hdistinct : (ps.map Project.id).Nodup) (hp : p ∈ ps) (d : Database) :
    ∃ d', d'.relations.part p.id = d.relations.part p.id ∧
      d.eventSequence ≤ d'.eventSequence ∧ d'.eventSequence < d.eventSequence + ps.length ∧
      (afterTurns now retained ps d).relations.part p.id =
        (afterTurn now retained p d').relations.part p.id := by
  obtain ⟨before, after, rfl⟩ := List.append_of_mem hp
  have hother : p.id ∉ before.map Project.id ∧ p.id ∉ after.map Project.id := by
    rw [List.map_append, List.map_cons, List.nodup_append, List.nodup_cons] at hdistinct
    obtain ⟨-, ⟨hafter, -⟩, hbefore⟩ := hdistinct
    exact ⟨fun h => hbefore p.id h p.id List.mem_cons_self rfl, hafter⟩
  obtain ⟨hlow, hhigh⟩ := eventSequence_afterTurns now retained before d
  refine ⟨afterTurns now retained before d, part_afterTurns_other now retained hother.1 d, hlow, ?_,
    ?_⟩
  · rw [List.length_append, List.length_cons]
    omega
  · have hsplit : afterTurns now retained (before ++ p :: after) d = afterTurns now retained after
        (afterTurn now retained p (afterTurns now retained before d)) := by
      rw [afterTurns, List.foldl_append]
      rfl
    rw [hsplit, part_afterTurns_other now retained hother.2]

end AfterTurns

variable (now retained) in
theorem store_sweepAll (ps : List Project) (hopen : r.store.isOpen = true) :
    (sweepAll now retained ps r).2.store = afterTurns now retained ps r.store := by
  induction ps generalizing r with
  | nil => rfl
  | cons p rest ih =>
    have hstore := (sweepProject_apply now retained p hopen).2
    have hopen' : (sweepProject now retained p r).2.store.isOpen = true := by
      rw [hstore, isOpen_afterTurn, hopen]
    rw [sweepAll_cons, ih hopen', hstore]
    rfl

/-! ## What is reported -/

theorem scanned_sweepAll (now : Time.Instant) (retained : Nat) (ps : List Project)
    (r : Registry Database) : (sweepAll now retained ps r).1.scanned = ps.length := by
  induction ps generalizing r with
  | nil => rfl
  | cons p rest ih =>
    rw [sweepAll_cons, List.length_cons, ← ih (sweepProject now retained p r).2]
    cases (sweepProject now retained p r).1 <;> rfl

theorem readsVersions_of_part {l l' : Relations stored} (h : l'.part q = l.part q) :
    l'.readsVersions q = l.readsVersions q := by
  rw [Relations.readsVersions, Relations.readsVersions, Relations.versionsOf_of_part h]

theorem readsPointer_of_part {l l' : Relations stored} (h : l'.part q = l.part q)
    (hl : l.ReadsPointer q) : l'.ReadsPointer q := by
  rw [Relations.ReadsPointer, Relations.find?_projects_of_part h]
  exact hl

/-- How many versions a project lost. -/
def lost (p : Int32) (l l' : Relations stored) : Nat :=
  (l.versionsOf p).length - (l'.versionsOf p).length

variable (now retained) in
/-- Projects whose versions can all be read are answered, and no others. -/
theorem report_sweepAll {ps : List Project} (hopen : r.store.isOpen = true)
    (hdistinct : (ps.map Project.id).Nodup)
    (hpointers : ∀ p ∈ ps, r.store.relations.ReadsPointer p.id) :
    (sweepAll now retained ps r).1.failures =
        (ps.filter fun p => !r.store.relations.readsVersions p.id).length ∧
      (sweepAll now retained ps r).1.removed =
        ((ps.filter fun p => r.store.relations.readsVersions p.id).map fun p =>
          lost p.id r.store.relations (sweepAll now retained ps r).2.store.relations).sum := by
  induction ps generalizing r with
  | nil => exact ⟨rfl, rfl⟩
  | cons p rest ih =>
    obtain ⟨hp, hrest⟩ := List.nodup_cons.1 hdistinct
    obtain ⟨hanswer, hstore⟩ := sweepProject_apply now retained p hopen
    have hopen' : (sweepProject now retained p r).2.store.isOpen = true := by
      rw [hstore, isOpen_afterTurn, hopen]
    have hpart : ∀ q ∈ rest, (sweepProject now retained p r).2.store.relations.part q.id =
        r.store.relations.part q.id := by
      intro q hq
      rw [hstore]
      refine part_afterTurn_other (fun he => hp ?_) r.store
      exact he ▸ List.mem_map_of_mem hq
    obtain ⟨hfailures, hremoved⟩ := ih hopen' hrest fun q hq =>
      readsPointer_of_part (hpart q hq) (hpointers q (List.mem_cons_of_mem p hq))
    have hfailing : (rest.filter fun q => !(sweepProject now retained p
        r).2.store.relations.readsVersions q.id) =
        rest.filter fun q => !r.store.relations.readsVersions q.id :=
      List.filter_congr fun q hq => by rw [readsVersions_of_part (hpart q hq)]
    have hreading : (rest.filter fun q => (sweepProject now retained p
        r).2.store.relations.readsVersions q.id) =
        rest.filter fun q => r.store.relations.readsVersions q.id :=
      List.filter_congr fun q hq => readsVersions_of_part (hpart q hq)
    have hlost : ((rest.filter fun q => r.store.relations.readsVersions q.id).map fun q =>
        lost q.id (sweepProject now retained p r).2.store.relations
          (sweepAll now retained rest (sweepProject now retained p r).2).2.store.relations) =
        (rest.filter fun q => r.store.relations.readsVersions q.id).map fun q =>
          lost q.id r.store.relations
            (sweepAll now retained rest (sweepProject now retained p r).2).2.store.relations := by
      refine List.map_congr_left fun q hq => ?_
      rw [lost, lost, Relations.versionsOf_of_part (hpart q (List.mem_filter.1 hq).1)]
    rw [hfailing] at hfailures
    rw [hreading, hlost] at hremoved
    rw [sweepAll_cons]
    cases hread : r.store.relations.readsVersions p.id with
    | false =>
      obtain ⟨e, he⟩ := exists_error_removalOf retained hread
      rw [he] at hanswer
      simp only [hanswer, Except.map, SweepReport.count, List.filter_cons, hread, Bool.not_false,
        if_true, Bool.false_eq_true, if_false, List.length_cons]
      exact ⟨congrArg (· + 1) hfailures, hremoved⟩
    | true =>
      obtain ⟨o, ho⟩ := exists_ok_removalOf retained (hpointers p List.mem_cons_self) hread
      -- the turns of the rest take nothing from this project
      have hlength := length_versionsOf_afterTurn now ho
      have hlast := part_afterTurns_other now retained hp
        (sweepProject now retained p r).2.store
      rw [← store_sweepAll now retained rest hopen', hstore] at hlast
      rw [ho] at hanswer
      simp only [hanswer, Except.map, SweepReport.count, List.filter_cons, hread, Bool.not_true,
        if_true, Bool.false_eq_true, if_false, List.map_cons, List.sum_cons]
      refine ⟨hfailures, ?_⟩
      rw [hremoved, lost, Relations.versionsOf_of_part hlast]
      omega

/-! ## Sweeps of any open database -/

/-- What a sweep of some projects comes to: each of them ends as it would alone. -/
structure SweptApart (now : Time.Instant) (retained : Nat) (ps : List Project)
    (r : Registry Database) (report : SweepReport) (r' : Registry Database) : Prop where
  scanned : report.scanned = ps.length
  failures :
    report.failures = (ps.filter fun p => !r.store.relations.readsVersions p.id).length
  removed : report.removed =
    ((ps.filter fun p => r.store.relations.readsVersions p.id).map fun p =>
      lost p.id r.store.relations r'.store.relations).sum
  /-- A project with a version that cannot be read fails, and keeps all its rows and its log. -/
  failed {p : Project} : p ∈ ps → r.store.relations.readsVersions p.id = false →
    (∃ e, (sweepProject now retained p r).1 = .error e) ∧
      r'.store.relations.part p.id = r.store.relations.part p.id
  /-- Any other project has the rows that it would have if it were swept alone. -/
  alone {p : Project} : p ∈ ps → r.store.relations.readsVersions p.id = true →
    (sweepProject now retained p r).1 = .ok (lost p.id r.store.relations r'.store.relations) ∧
      (r'.store.relations.part p.id).unlogged =
        ((sweepProject now retained p r).2.store.relations.part p.id).unlogged
  /-- Its log is that of being swept alone, or as it was before if row ids are used up. -/
  log {p : Project} : p ∈ ps →
    r'.store.relations.eventsOf p.id = r.store.relations.eventsOf p.id ∨
      r'.store.relations.eventsOf p.id =
        (sweepProject now retained p r).2.store.relations.eventsOf p.id
  /-- Where there are row ids for all events, or for none, it is the same in its log too. -/
  whole {p : Project} : p ∈ ps →
    r.store.HasRoom ps.length ∨ lastRowId ≤ r.store.eventSequence →
      r'.store.relations.part p.id =
        (sweepProject now retained p r).2.store.relations.part p.id
  others {q : Int32} : q ∉ ps.map Project.id →
    r'.store.relations.part q = r.store.relations.part q

theorem sweptApart {ps : List Project} (hopen : r.store.isOpen = true)
    (hdistinct : (ps.map Project.id).Nodup)
    (hpointers : ∀ p ∈ ps, r.store.relations.ReadsPointer p.id) :
    SweptApart now retained ps r (sweepAll now retained ps r).1
      (sweepAll now retained ps r).2 := by
  have hstore := store_sweepAll now retained ps hopen
  have hturn (p : Project) := sweepProject_apply now retained p hopen
  obtain ⟨hfailures, hremoved⟩ :=
    report_sweepAll now retained hopen hdistinct hpointers
  -- the state in which a project had its turn
  have hat {p : Project} (hp : p ∈ ps) :=
    part_afterTurns now retained hdistinct hp r.store
  refine ⟨scanned_sweepAll now retained ps r, hfailures, hremoved, fun {p} hp hread => ?_,
    fun {p} hp hread => ?_, fun {p} hp => ?_, fun {p} hp hroom => ?_, fun {q} hq => ?_⟩
  · obtain ⟨e, he⟩ := exists_error_removalOf retained hread
    obtain ⟨d', hpart, -, -, hafter⟩ := hat hp
    refine ⟨⟨e, by rw [(hturn p).1, he]; rfl⟩, ?_⟩
    rw [hstore, hafter, part_afterTurn, removalOf_of_part hpart, he, hpart]
  · obtain ⟨o, ho⟩ := exists_ok_removalOf retained (hpointers p hp) hread
    obtain ⟨d', hpart, -, -, hafter⟩ := hat hp
    have hrows := unlogged_afterTurn_of_part now retained hpart
    rw [← hafter] at hrows
    have hlength := length_versionsOf_afterTurn now ho
    rw [← Relations.versionsOf_of_unlogged hrows] at hlength
    refine ⟨?_, by rw [hstore, hrows, (hturn p).2]⟩
    rw [(hturn p).1, ho, lost, hstore]
    simp only [Except.map, Except.ok.injEq]
    omega
  · obtain ⟨d', hpart, hlow, -, hafter⟩ := hat hp
    have hevents := Relations.eventsOf_of_part hafter
    rw [hstore, (hturn p).2, hevents]
    by_cases hfull : lastRowId ≤ d'.eventSequence
    · left
      rw [eventsOf_afterTurn_of_full hfull, Relations.eventsOf_of_part hpart]
    · right
      exact Relations.eventsOf_of_part (part_afterTurn_of_part hpart (by omega))
  · obtain ⟨d', hpart, hlow, hhigh, hafter⟩ := hat hp
    rw [hstore, hafter, (hturn p).2]
    refine part_afterTurn_of_part hpart ?_
    simp only [Database.HasRoom] at hroom
    omega
  · rw [hstore, part_afterTurns_other now retained hq]

end ProjectRegistry.Registry

namespace ProjectRegistry

/-- In an open database a sweep is answered if the active projects can be listed, whatever their
versions hold: those that cannot be read are counted and left as they are, and every other project
ends as if it had been swept alone. -/
theorem sweep_isolates_failures {r : Registry Database} {ps : List Project}
    (hopen : r.store.isOpen = true) (hlisted : Store.activeProjects r.store = .ok ps) (tick : Tick)
    (retained : Nat) :
    ∃ report r', Registry.perform tick (.sweep retained) r = (.ok (.swept report), r') ∧
      ps.map Project.id = r.store.relations.actives.map (·.1) ∧
      Registry.SweptApart tick.now retained ps r report r' := by
  obtain ⟨hids, hpointers⟩ := Database.readsPointer_of_activeProjects hopen hlisted
  have hdistinct : (ps.map Project.id).Nodup := hids ▸ r.store.relations.actives_nodup
  refine ⟨_, _, ?_, hids, Registry.sweptApart hopen hdistinct hpointers⟩
  rw [Registry.perform_sweep, hlisted]

/-- A run that leaves three projects with versions, and the first of those of the second project
damaged: its digest is cut to one byte. -/
def damagedRegistry : Registry Database :=
  let r := (Registry.start {} (.ofText "root") .empty Database.empty).after
    [(.first, .createProject "flows" "" "ann"), addCall 1 1, addCall 1 2, addCall 1 3,
      (.first, .createProject "jobs" "" "ann"), addCall 2 1, addCall 2 2,
      (.first, .createProject "tasks" "" "ann"), addCall 3 1, addCall 3 4, addCall 3 5]
  { r with store := ((Edit.digest 2 1 [0]).apply r.store).2 }

def sweptReport? : Except Failure Reply → Option Registry.SweepReport
  | .ok (.swept report) => some report
  | _ => none

theorem damagedRegistry_swept :
    damagedRegistry.store.isOpen = true ∧ (Store.activeProjects damagedRegistry.store).isOk ∧
      ∃ ps report r', Registry.perform .first (.sweep 1) damagedRegistry =
          (.ok (.swept report), r') ∧
        Registry.SweptApart Tick.first.now 1 ps damagedRegistry report r' ∧
        report = ⟨3, 2, 1⟩ := by
  have hopen : damagedRegistry.store.isOpen = true := by decide +kernel
  have hlisted : (Store.activeProjects damagedRegistry.store).isOk := by decide +kernel
  refine ⟨hopen, hlisted, ?_⟩
  cases hprojects : Store.activeProjects damagedRegistry.store with
  | error e =>
    rw [hprojects] at hlisted
    cases hlisted
  | ok ps =>
    obtain ⟨report, r', hanswer, -, hswept⟩ :=
      sweep_isolates_failures hopen hprojects .first 1
    refine ⟨ps, report, r', hanswer, hswept, ?_⟩
    have hreport : sweptReport? (Registry.perform .first (.sweep 1) damagedRegistry).1 =
        some ⟨3, 2, 1⟩ := by decide +kernel
    rw [hanswer] at hreport
    exact Option.some.inj hreport

end ProjectRegistry
