import Mathlib.Data.List.Basic
import ProjectRegistry.Proofs.Store.Lookups
import ProjectRegistry.Proofs.Store.Parts

/-!
# Databases with damaged cells

The cells of a database can be changed past the registry, and then nothing is known of them: a
pointer may name no version, and a cell may hold what cannot be read. Cleaning up such a database
still does one of two things. It fails and changes nothing, or it takes versions away together with
what belongs to them; which of the two, and which versions, is read off the part of the project that
is cleaned up.
-/

namespace ProjectRegistry

variable {C : Columns} {r r' : Relations C} {p : Int32}

namespace Relations

/-- Relations without their log. -/
def unlogged (r : Relations C) : Relations C := { r with events := [] }

theorem part_without (gone : Int32 → Int32 → Bool) (p : Int32) (r : Relations C) :
    (r.without gone).part p = (r.part p).without gone := by
  simp only [part, without, Table.filter_filter, Bool.and_comm]
  rfl

/-- What is taken from other projects does not touch the part of a project. -/
theorem part_without_other {gone : Int32 → Int32 → Bool} (h : ∀ v, gone p v = false)
    (r : Relations C) : (r.without gone).part p = r.part p := by
  have hversions : ∀ k : Int32 × Int32, decide (k.1 = p) = true → (!gone k.1 k.2) = true := by
    intro k hk
    rw [of_decide_eq_true hk, h]
    rfl
  have hmembers : ∀ k : Int32 × Int32 × String, decide (k.1 = p) = true →
      (!gone k.1 k.2.1) = true := by
    intro k hk
    rw [of_decide_eq_true hk, h]
    rfl
  simp only [part, without, Table.filterKeys_filterKeys hversions,
    Table.filterKeys_filterKeys hmembers]
  rfl

theorem part_eq_of_unlogged (h : (r'.part p).unlogged = (r.part p).unlogged)
    (hevents : r'.eventsOf p = r.eventsOf p) : r'.part p = r.part p := by
  have hparts : (r'.part p) = { (r'.part p).unlogged with events := r'.eventsOf p } := rfl
  rw [hparts, h, hevents]
  rfl

theorem versionsOf_of_unlogged (h : (r'.part p).unlogged = (r.part p).unlogged) :
    r'.versionsOf p = r.versionsOf p := by
  have hversions : (r'.part p).unlogged.versionsOf p = (r.part p).unlogged.versionsOf p := by rw [h]
  exact ((versionsOf_part p r').symm.trans hversions).trans (versionsOf_part p r)

/-- Whether all versions of a project can be read. -/
def readsVersions (r : Relations stored) (p : Int32) : Bool :=
  (r.versionsOf p).all fun e => e.2.load.isOk

/-- Relations with a row for a project, of which the pointer can be read. -/
def ReadsPointer (r : Relations stored) (p : Int32) : Prop :=
  ∃ row pointer, r.projects.find? p = some row ∧
    readNumber? .single row.pointer = .ok pointer

end Relations

/-- What cleaning up takes from a project: the versions below a bound, except one that is kept. -/
structure Removal where
  versions : List Version
  bound : Int32
  keep : Int32

namespace Database

variable {d : Database}

/-- Whether a version is one of those that are taken from a project. -/
def takes (x : Removal) (p : Int32) : Int32 → Int32 → Bool := isSuperseded p x.bound x.keep

theorem takes_other (x : Removal) {p q : Int32} (h : q ≠ p) (v : Int32) :
    takes x p q v = false := by
  simp [takes, isSuperseded, h]

/-- What cleaning up a project below a bound comes to: the pointer of the project is read, and then
the versions that go. -/
def removalBelow (p bound : Int32) (r : Relations stored) : Except Failure Removal :=
  match r.projects.find? p with
  | none => .error (.noProject p)
  | some row =>
    match readNumber? .single row.pointer with
    | .error e => .error e
    | .ok pointer =>
      let keep := pointer.getD 0
      (loadAll (loadVersion p)
        ((r.versionsOf p).filter fun v => isSuperseded p bound keep p v.1)).map
          fun removed => ⟨removed, bound, keep⟩

/-- Nothing outside the part of the project counts. -/
theorem removalBelow_of_part {r r' : Relations stored} (h : r'.part p = r.part p) (bound : Int32) :
    removalBelow p bound r' = removalBelow p bound r := by
  rw [removalBelow, removalBelow, Relations.find?_projects_of_part h,
    Relations.versionsOf_of_part h]

theorem bound_of_removalBelow {r : Relations stored} {bound : Int32} {x : Removal}
    (h : removalBelow p bound r = .ok x) : x.bound = bound := by
  unfold removalBelow at h
  split at h
  · cases h
  · split at h
    · cases h
    · obtain ⟨removed, -, rfl⟩ := exists_of_map_ok h
      rfl

/-- Cleaning up an open database, whatever its cells hold. -/
theorem clean_apply (hopen : d.isOpen = true) (p bound : Int32) :
    clean p bound d =
      match removalBelow p bound d.relations with
      | .error e => (.error e, d)
      | .ok x => (.ok x.versions, { d with relations := d.relations.without (takes x p) }) := by
  unfold clean removalBelow
  rw [transaction_apply hopen, Step.allOrNone, Step.bind_apply, lockProject_apply, Table.contains]
  cases hrow : d.relations.projects.find? p with
  | none => rfl
  | some row =>
    simp only [Option.isSome_some, if_true, Step.bind_apply, select_apply, Step.lift_apply, hrow,
      Option.bind_some]
    cases readNumber? .single row.pointer with
    | error e => rfl
    | ok pointer =>
      simp only
      cases loadAll (loadVersion p) ((d.relations.versionsOf p).filter fun v =>
        isSuperseded p bound (pointer.getD 0) p v.1) with
      | error e => rfl
      | ok removed => rfl

theorem exists_versions_iff {r : Relations stored} {p : Int32} :
    (∃ vs, loadAll (loadVersion p) (r.versionsOf p) = .ok vs) ↔ r.readsVersions p = true := by
  have hrow (e : Int32 × VersionRow stored) :
      (∃ v, loadVersion p e = .ok v) ↔ e.2.load.isOk = true := by
    rw [loadVersion_eq]
    cases e.2.load <;> simp [Except.map, Except.isOk, Except.toBool]
  rw [Relations.readsVersions, List.all_eq_true]
  constructor
  · rintro ⟨vs, hvs⟩ e he
    exact (hrow e).1 (exists_of_loadAll_ok hvs e he)
  · intro h
    exact loadAll_eq_ok fun e he => (hrow e).2 (h e he)

/-- Where the pointer and the versions of a project can be read, it can be cleaned up. -/
theorem exists_removalBelow {r : Relations stored} (hpointer : r.ReadsPointer p)
    (hversions : r.readsVersions p = true) (bound : Int32) :
    ∃ x, removalBelow p bound r = .ok x := by
  obtain ⟨row, pointer, hrow, hread⟩ := hpointer
  obtain ⟨vs, hvs⟩ := exists_versions_iff.2 hversions
  have hsome : ∀ e ∈ (r.versionsOf p).filter
      (fun v => isSuperseded p bound (pointer.getD 0) p v.1), ∃ v, loadVersion p e = .ok v :=
    fun e he => exists_of_loadAll_ok hvs e (List.mem_filter.1 he).1
  obtain ⟨removed, hremoved⟩ := loadAll_eq_ok hsome
  refine ⟨⟨removed, bound, pointer.getD 0⟩, ?_⟩
  simp only [removalBelow, hrow, hread, hremoved, Except.map]

/-- As many versions are reported as are taken. -/
theorem length_of_removalBelow {r : Relations stored} {bound : Int32} {x : Removal}
    (h : removalBelow p bound r = .ok x) :
    x.versions.length + ((r.without (takes x p)).versionsOf p).length =
      (r.versionsOf p).length := by
  unfold removalBelow at h
  split at h
  · cases h
  · split at h
    · cases h
    · next pointer _ =>
      obtain ⟨removed, hremoved, rfl⟩ := exists_of_map_ok h
      have hlength := congrArg List.length (map_of_loadAll_ok (f := fun _ => ()) (g := fun _ => ())
        (fun _ _ _ => rfl) hremoved)
      rw [List.length_map, List.length_map] at hlength
      rw [Relations.versionsOf_without, hlength]
      exact (List.length_eq_length_filter_add _).symm

/-- Which cell is spelled in a failure makes no difference to what can be read. -/
theorem readNumber?_of_ok {cell : Cell} {n : Option Int} {v : Option Int32}
    (h : readNumber? cell n = .ok v) (cell' : Cell) : readNumber? cell' n = .ok v := by
  cases n with
  | none => exact h
  | some n =>
    simp only [readNumber?, readNumber] at h ⊢
    by_cases hlow : n < Int32.minValue.toInt
    · rw [if_pos hlow] at h
      cases h
    · by_cases hhigh : Int32.maxValue.toInt < n
      · rw [if_neg hlow, if_pos hhigh] at h
        cases h
      · rw [if_neg hlow, if_neg hhigh] at h ⊢
        exact h

/-- The pointer of a project is read with the project. -/
theorem readsPointer_of_load {r : Relations stored} {row : ProjectRow stored}
    (hrow : r.projects.find? p = some row) {q : Project} (h : loadProject r p row = .ok q) :
    r.ReadsPointer p := by
  obtain ⟨read, hread, -⟩ := exists_of_bind_ok h
  obtain ⟨pointer, hpointer, -⟩ := exists_of_bind_ok hread
  exact ⟨row, pointer, hrow, readNumber?_of_ok hpointer .single⟩

/-- What a list of the active projects says of each of them. -/
theorem readsPointer_of_activeProjects (hopen : d.isOpen = true) {ps : List Project}
    (h : Store.activeProjects d = .ok ps) :
    ps.map Project.id = d.relations.actives.map (·.1) ∧
      ∀ q ∈ ps, d.relations.ReadsPointer q.id := by
  have hlist : loadAll (fun e => loadProject d.relations e.1 e.2) d.relations.actives = .ok ps := by
    rw [← h]
    show _ = Database.activeProjects d
    rw [Database.activeProjects, query_apply hopen]
    rfl
  refine ⟨map_of_loadAll_ok (fun e q hq => id_of_loadProject hq) hlist, fun q hq => ?_⟩
  obtain ⟨e, he, hload⟩ := mem_of_loadAll_ok hlist hq
  have hrow := Table.find?_eq_some_iff.2 (List.mem_filter.1 he).1
  rw [id_of_loadProject hload]
  exact readsPointer_of_load hrow hload

end Database

end ProjectRegistry
