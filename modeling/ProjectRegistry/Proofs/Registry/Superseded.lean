import Mathlib.Data.List.Perm.Basic
import ProjectRegistry.Proofs.Registry.Cleanup
import ProjectRegistry.Proofs.Registry.Retention
import ProjectRegistry.Proofs.Store.InPlace

/-!
# Superseded versions

Cleaning up a project below a bound answers, in the order of their numbers, the versions below it
without the current one. These go, with their bundles and flows, and nothing else does.

What is superseded depends on the bound and on the pointer, and cleaning up leaves the pointer where
it is. So two bounds, one after the other, take away what the higher one takes away alone, and each
version is answered once.
-/

namespace ProjectRegistry

variable {C : Columns} {M : Medium C} {r : Relations C}

/-! ## What a bound supersedes -/

namespace Relations

/-- Whether a number is below a bound and not that of the current version of a project. -/
def isSuperseded (M : Medium C) (r : Relations C) (p bound v : Int32) : Bool :=
  decide (v < bound ∧ r.currentOf M p ≠ some v)

theorem isDoomed_eq_isSuperseded (h : r.Sound M) (p bound v : Int32) :
    r.isDoomed M p bound v = r.isSuperseded M p bound v := by
  have hcurrent : r.pointerOf M p = some v.toInt ↔ r.currentOf M p = some v := by
    rw [Registry.pointerOf_eq_currentOf h]
    cases r.currentOf M p <;> simp [Int32.toInt_inj]
  simp [isDoomed, isSuperseded, hcurrent]

/-- The higher of two bounds supersedes what both do. -/
theorem isSuperseded_max (p a b v : Int32) :
    r.isSuperseded M p (max a b) v = (r.isSuperseded M p a v || r.isSuperseded M p b v) := by
  have hmax : v < max a b ↔ v < a ∨ v < b := by
    show v < (if a ≤ b then b else a) ↔ _
    simp only [Int32.lt_iff_toInt_lt]
    split
    · next h =>
      rw [Int32.le_iff_toInt_le] at h
      omega
    · next h =>
      rw [Int32.le_iff_toInt_le] at h
      omega
  rw [Bool.eq_iff_iff]
  simp only [isSuperseded, hmax, Bool.or_eq_true, decide_eq_true_eq, or_and_right]

theorem isSuperseded_without (gone : Int32 → Int32 → Bool) (p bound v : Int32) :
    (r.without gone).isSuperseded M p bound v = r.isSuperseded M p bound v := rfl

/-- Relations without the versions of a project that a bound supersedes. -/
def withoutSuperseded (M : Medium C) (r : Relations C) (p bound : Int32) : Relations C :=
  r.without fun q v => decide (q = p) && r.isSuperseded M p bound v

theorem clean_apply (h : r.Sound M) (p bound : Int32) :
    (Change.clean p bound).apply M r = r.withoutSuperseded M p bound := by
  rw [Change.clean_apply, withoutSuperseded]
  simp only [isDoomed_eq_isSuperseded h]

theorem withoutSuperseded_twice (p a b : Int32) :
    (r.withoutSuperseded M p a).withoutSuperseded M p b = r.withoutSuperseded M p (max a b) := by
  simp only [withoutSuperseded, isSuperseded_without, without_without, isSuperseded_max,
    Bool.and_or_distrib_left]

end Relations

/-- Of versions that can be read, those of some numbers are read as these versions. -/
theorem Reader.versions_filterNumbers {R : Reader C} {p : Int32}
    {es : List (Int32 × VersionRow C)} {vs : List Version} (h : R.versions p es = .ok vs)
    (keep : Int32 → Bool) :
    R.versions p (es.filter fun e => keep e.1) = .ok (vs.filter fun v => keep v.number) := by
  induction es generalizing vs with
  | nil =>
    cases h
    rfl
  | cons e rest ih =>
    obtain ⟨v, ws, hv, hrest, rfl⟩ := loadAll_cons_ok h
    have hnumber : v.number = e.1 := by
      obtain ⟨row, -, rfl⟩ := exists_of_map_ok hv
      rfl
    have hkept := ih hrest
    rw [versions] at hkept ⊢
    cases hkeep : keep e.1 with
    | true =>
      rw [List.filter_cons_of_pos (by simpa using hkeep),
        List.filter_cons_of_pos (by simpa [hnumber] using hkeep), loadAll, hv, hkept]
    | false =>
      rw [List.filter_cons_of_neg (by simp [hkeep]),
        List.filter_cons_of_neg (by simp [hnumber, hkeep]), hkept]

namespace Registry

variable {σ : Type} [Store σ] {V : View σ} {R : Reader V.C} {put : Relations V.C → σ → σ}
  {r : Registry σ}

omit [Store σ] in
theorem foldl_discard_eq (vs : List Version) (r : Registry σ) :
    vs.foldl (fun r v => r.discard v.resourceId) r = { r with
      files := (vs.map (·.resourceId)).foldl (fun t id => (r.artifacts.delete id t).2)
        r.files } := by
  induction vs generalizing r with
  | nil => rfl
  | cons v vs ih =>
    rw [List.foldl_cons, ih]
    rfl

/-- What a registry is after cleaning up, given the versions of the project before. -/
def withoutSuperseded (V : View σ) (put : Relations V.C → σ → σ) (p bound : Int32)
    (vs : List Version) (r : Registry σ) : Registry σ :=
  { r with
    store := put ((V.relations r.store).withoutSuperseded V.M p bound) r.store
    files := ((vs.filter fun v => (V.relations r.store).isSuperseded V.M p bound v.number).map
      (·.resourceId)).foldl (fun t id => (r.artifacts.delete id t).2) r.files }

theorem perform_clean (hV : V.Lawful) (hA : V.Answers R) (hplace : V.ActsInPlace put)
    (hr : V.Good r.store) {p : Int32} (hp : (V.relations r.store).projects.contains p = true)
    {vs : List Version} (hvs : Store.versions p r.store = .ok vs) (tick : Tick) (bound : Int32) :
    perform tick (.clean p bound) r =
      (.ok (.versions
        (vs.filter fun v => (V.relations r.store).isSuperseded V.M p bound v.number)),
        r.withoutSuperseded V put p bound vs) := by
  have hsound := hV.sound hr
  have hanswer : (Store.clean p bound r.store).1 = .ok
      (vs.filter fun v => (V.relations r.store).isSuperseded V.M p bound v.number) := by
    rw [hA.versions hr] at hvs
    rw [hA.clean hr hp, Relations.doomedOf]
    simp only [Relations.isDoomed_eq_isSuperseded hsound]
    exact Reader.versions_filterNumbers hvs _
  have hstore := hplace.clean hr hanswer
  rw [Relations.clean_apply hsound] at hstore
  rw [show perform tick (.clean p bound) r = _ from Step.map_apply _ _ r, clean_eq]
  rcases hx : Store.clean p bound r.store with ⟨answer, store⟩
  rw [hx] at hanswer hstore
  obtain rfl := hanswer
  obtain rfl := hstore
  simp only [foldl_discard_eq]
  rfl

/-- Versions that a bound supersedes, and those that a second one supersedes of the rest, are those
that the higher one supersedes. -/
theorem superseded_perm {M : Medium C} (rs : Relations C) (p a b : Int32) (vs : List Version) :
    (vs.filter (fun v => rs.isSuperseded M p a v.number) ++
      (vs.filter fun v => !rs.isSuperseded M p a v.number).filter
        fun v => rs.isSuperseded M p b v.number).Perm
      (vs.filter fun v => rs.isSuperseded M p (max a b) v.number) := by
  refine .trans (.of_eq ?_) (List.filter_append_perm (fun v => rs.isSuperseded M p a v.number) _)
  rw [List.filter_filter, List.filter_filter, List.filter_filter]
  simp only [Relations.isSuperseded_max]
  congr 1
  · apply List.filter_congr
    intro v _
    cases rs.isSuperseded M p a v.number <;> rfl
  · apply List.filter_congr
    intro v _
    cases rs.isSuperseded M p a v.number <;> cases rs.isSuperseded M p b v.number <;> rfl

theorem withoutSuperseded_twice (hplace : V.ActsInPlace put) (p a b : Int32) (vs : List Version) :
    (r.withoutSuperseded V put p a vs).withoutSuperseded V put p b
        (vs.filter fun v => !(V.relations r.store).isSuperseded V.M p a v.number) =
      r.withoutSuperseded V put p (max a b) vs := by
  have hperm := (superseded_perm (M := V.M) (V.relations r.store) p a b vs).map (·.resourceId)
  have hfiles := r.artifacts.foldl_delete_of_perm hperm r.files
  rw [List.map_append, List.foldl_append] at hfiles
  simp only [withoutSuperseded, hplace.relations_put, hplace.put_put,
    Relations.withoutSuperseded_twice, ← hfiles]
  rfl

/-! ## Along every run -/

/-- What cleaning up a project takes away, and answers, once and with a second bound after it. -/
structure RemovesSuperseded (V : View σ) (r : Registry σ) : Prop where
  once (tick : Tick) {p : Int32} (bound : Int32) :
    (V.relations r.store).projects.contains p = true →
      ∃ vs r', Store.versions p r.store = .ok vs ∧
        vs.map Version.number = (V.relations r.store).numbersOf p ∧
        (vs.map Version.number).Pairwise (· < ·) ∧
        perform tick (.clean p bound) r = (.ok (.versions
          (vs.filter fun v => (V.relations r.store).isSuperseded V.M p bound v.number)), r') ∧
        V.relations r'.store = (V.relations r.store).withoutSuperseded V.M p bound
  /-- Two bounds leave the same registry as the higher one, and answer each version once. -/
  twice (tick later : Tick) {p : Int32} (a b : Int32) :
    (V.relations r.store).projects.contains p = true →
      ∃ xs ys zs r₁ r₂, perform tick (.clean p a) r = (.ok (.versions xs), r₁) ∧
        perform later (.clean p b) r₁ = (.ok (.versions ys), r₂) ∧
        perform tick (.clean p (max a b)) r = (.ok (.versions zs), r₂) ∧
        (xs ++ ys).Perm zs ∧ (zs.map Version.number).Nodup

theorem removesSuperseded (hV : V.Lawful) (hA : V.Answers R) (hplace : V.ActsInPlace put)
    (hr : V.Good r.store)
    (hread : ∀ p, ∃ vs, R.versions p ((V.relations r.store).versionsOf p) = .ok vs) :
    r.RemovesSuperseded V := by
  have hnumbers {p : Int32} {vs : List Version} (hvs : Store.versions p r.store = .ok vs) :
      vs.map Version.number = (V.relations r.store).numbersOf p :=
    Reader.numbers_of_versions ((hA.versions hr p).symm.trans hvs)
  have hascending {p : Int32} {vs : List Version} (hvs : Store.versions p r.store = .ok vs) :
      (vs.map Version.number).Pairwise (· < ·) := by
    rw [hnumbers hvs]
    exact Relations.numbersOf_ascending _ p
  constructor
  · intro tick p bound hp
    obtain ⟨vs, hvs⟩ := hread p
    rw [← hA.versions hr] at hvs
    exact ⟨vs, _, hvs, hnumbers hvs, hascending hvs,
      perform_clean hV hA hplace hr hp hvs tick bound, hplace.relations_put _ _⟩
  · intro tick later p a b hp
    obtain ⟨vs, hvs⟩ := hread p
    have hrest := Reader.versions_filterNumbers hvs
      fun v => !(V.relations r.store).isSuperseded V.M p a v
    rw [← hA.versions hr] at hvs
    have hfirst := perform_clean hV hA hplace hr hp hvs tick a
    have hgood := (becomes_perform hV hr tick (.clean p a)).2.1
    rw [hfirst] at hgood
    -- the versions that the first bound leaves
    have hleft : Store.versions p (r.withoutSuperseded V put p a vs).store =
        .ok (vs.filter fun v => !(V.relations r.store).isSuperseded V.M p a v.number) := by
      rw [hA.versions hgood, ← hrest, withoutSuperseded, hplace.relations_put,
        Relations.withoutSuperseded, Relations.versionsOf_without]
      simp
    have hp' : (V.relations (r.withoutSuperseded V put p a vs).store).projects.contains p =
        true := by
      rw [withoutSuperseded, hplace.relations_put]
      exact hp
    have hsecond := perform_clean hV hA hplace hgood hp' hleft later b
    rw [withoutSuperseded_twice hplace] at hsecond
    refine ⟨_, _, _, _, _, hfirst, hsecond, perform_clean hV hA hplace hr hp hvs tick (max a b), ?_,
      ?_⟩
    · simp only [withoutSuperseded, hplace.relations_put]
      exact superseded_perm _ p a b vs
    · rw [List.Nodup, List.pairwise_map]
      exact ((List.pairwise_map.1 (hascending hvs)).filter _).imp Int32.ne_of_lt

/-- The numbers that are answered, and those that are left. -/
theorem RemovesSuperseded.numbers (h : r.RemovesSuperseded V) (tick : Tick) {p : Int32}
    (bound : Int32) (hp : (V.relations r.store).projects.contains p = true) :
    ∃ removed r', perform tick (.clean p bound) r = (.ok (.versions removed), r') ∧
      removed.map Version.number =
        ((V.relations r.store).numbersOf p).filter
          ((V.relations r.store).isSuperseded V.M p bound) ∧
      (V.relations r'.store).numbersOf p =
        ((V.relations r.store).numbersOf p).filter fun v =>
          !(V.relations r.store).isSuperseded V.M p bound v := by
  obtain ⟨vs, r', -, hnumbers, -, hanswer, hrelations⟩ := h.once tick bound hp
  refine ⟨_, r', hanswer, ?_, ?_⟩
  · rw [← hnumbers, List.filter_map]
    rfl
  · rw [hrelations, Relations.withoutSuperseded, Relations.numbersOf_without]
    simp

end Registry

/-- In every state that calls lead to, in memory and in a database alike, cleaning up takes away the
versions below the bound without the current one, with all that belongs to them, and answers them in
order; two bounds one after the other are as good as the higher one. -/
theorem cleaning_removes_superseded (limits : Limits) (root : Files.Path) (files : Files.FileTree)
    (calls : List (Tick × Call)) :
    ((Registry.start limits root files Memory.empty).after calls).RemovesSuperseded Memory.view ∧
      ((∀ c ∈ calls, c.1.now.OnCalendar) →
        ((Registry.start limits root files Database.empty).after calls).RemovesSuperseded
          Database.view) := by
  constructor
  · exact Registry.removesSuperseded Memory.lawful Memory.answers Memory.actsInPlace
      (Registry.good_after (r := .start limits root files Memory.empty) Memory.lawful
        Memory.good_empty calls)
      fun p => ⟨_, loadAll_ok fun _ _ => rfl⟩
  · intro hclock
    obtain ⟨l, ⟨hgood, hl, hversions⟩, -⟩ :=
      Registry.records_after limits root files calls hclock
    refine Registry.removesSuperseded (V := Database.view) Database.lawful Database.answers
      Database.actsInPlace hgood fun p => ?_
    rw [hl]
    exact Relations.exists_versions hversions p

/-- The highest bound takes away all versions but the current one. -/
theorem sparseRun_loses_superseded :
    (∀ c ∈ sparseRun, c.1.now.OnCalendar) ∧
      ∃ removed r', Registry.perform .first (.clean 1 Int32.maxValue)
          ((Registry.start {} (.ofText "root") .empty Database.empty).after sparseRun) =
            (.ok (.versions removed), r') ∧
        removed.map Version.number = [2, 5] ∧ r'.store.relations.numbersOf 1 = [1] := by
  have hclock : ∀ c ∈ sparseRun, c.1.now.OnCalendar := by decide +kernel
  obtain ⟨removed, r', hanswer, hremoved, hleft⟩ :=
    ((cleaning_removes_superseded {} (.ofText "root") .empty sparseRun).2 hclock).numbers .first
      Int32.maxValue (p := 1) (by decide +kernel)
  refine ⟨hclock, removed, r', hanswer, ?_, ?_⟩
  · exact hremoved.trans (by decide +kernel)
  · exact hleft.trans (by decide +kernel)

end ProjectRegistry
