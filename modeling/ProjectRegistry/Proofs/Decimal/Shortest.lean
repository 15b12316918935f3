import ProjectRegistry.Decimal.Shortest
import ProjectRegistry.Proofs.Decimal.Rounding

/-!
# What the shortest decimal is worth

A decimal that reads back as a magnitude is at most half the distance to the next one above it, and
it is never zero. The grids that are tried have seventeen digits at most.
-/

namespace ProjectRegistry.Decimal.Binary64

variable {x : Binary64} {s : Scientific}

/-! ## Digits of a magnitude -/

theorem digitCount_pos {n : Nat} (h : 0 < n) : 0 < digitCount n := by
  rw [digitCount, if_neg (Nat.ne_of_gt h)]
  exact Nat.length_toDigits_pos

theorem lt_pow_digitCount (n : Nat) : n < Nat.pow 10 (digitCount n) := by
  rcases Nat.eq_zero_or_pos n with rfl | h
  · decide
  · have hpos := digitCount_pos h
    rw [digitCount, if_neg (Nat.ne_of_gt h)] at hpos ⊢
    exact (Nat.length_toDigits_le_iff (by decide) hpos).1 (Nat.le_refl _)

theorem pow_digitCount_le {n : Nat} (h : 0 < n) : Nat.pow 10 (digitCount n - 1) ≤ n := by
  have hpos := digitCount_pos h
  rcases Nat.eq_or_lt_of_le (Nat.succ_le_of_lt hpos) with hone | hmore
  · rw [← hone]
    exact h
  · rw [digitCount, if_neg (Nat.ne_of_gt h)] at hmore ⊢
    refine Nat.le_of_not_lt fun hlt => ?_
    have hle := (Nat.length_toDigits_le_iff (by decide) (Nat.sub_pos_of_lt hmore)).2 hlt
    have hlength : (Text.digitsOf 10 n).length ≤ (Text.digitsOf 10 n).length - 1 := hle
    omega

theorem leadingExponent_eq (x : Binary64) :
    x.leadingExponent =
      if one ≤ x.scaled then (digitCount (x.scaled / one) : Int) - 1
      else -(digitCount ((one - 1) / x.scaled) : Int) := by
  unfold leadingExponent one
  rfl

/-- A magnitude is below the power of ten after its first digit. -/
theorem scaled_lt_leading (x : Binary64) :
    x.scaled * Nat.pow 10 (-(x.leadingExponent + 1)).toNat <
      one * Nat.pow 10 (x.leadingExponent + 1).toNat := by
  rw [leadingExponent_eq]
  split
  · next hlarge =>
    have hlt := lt_pow_digitCount (x.scaled / one)
    have hup : ((digitCount (x.scaled / one) : Int) - 1 + 1).toNat =
        digitCount (x.scaled / one) := by
      omega
    have hdown : (-((digitCount (x.scaled / one) : Int) - 1 + 1)).toNat = 0 := by omega
    rw [hup, hdown, Nat.mul_comm one]
    have hmul := (Nat.div_lt_iff_lt_mul one_pos).1 hlt
    exact (Nat.mul_one _).symm ▸ hmul
  · next hsmall =>
    rcases Nat.eq_zero_or_pos x.scaled with hzero | hpos
    · rw [hzero, Nat.zero_mul]
      exact Nat.mul_pos one_pos (Nat.pow_pos (by decide))
    · have hone := one_pos
      have hquotient : 0 < (one - 1) / x.scaled := Nat.div_pos (by omega) hpos
      have hcount := digitCount_pos hquotient
      have hle := pow_digitCount_le hquotient
      generalize digitCount ((one - 1) / x.scaled) = n at *
      have hup : (-(n : Int) + 1).toNat = 0 := by omega
      have hdown : (-(-(n : Int) + 1)).toNat = n - 1 := by omega
      rw [hup, hdown]
      have hmul := (Nat.le_div_iff_mul_le hpos).1 hle
      rw [Nat.mul_comm] at hmul
      show x.scaled * Nat.pow 10 (n - 1) < one * 1
      omega

/-! ## Decimals that read back -/

theorem neighbours_eq (x : Binary64) (e : Int) :
    x.neighbours e =
      let a := x.scaled * Nat.pow 10 (-e).toNat
      let d := one * Nat.pow 10 e.toNat
      if roundedDiv a d = a / d then [⟨a / d, e⟩, ⟨a / d + 1, e⟩]
      else [⟨a / d + 1, e⟩, ⟨a / d, e⟩] := by
  unfold neighbours one
  rfl

theorem reads_eq (x : Binary64) (s : Scientific) :
    x.reads s =
      let value := s.coefficient * Nat.pow 10 s.exponent.toNat * (4 * one)
      let low := x.interval.1 * Nat.pow 10 (-s.exponent).toNat
      let high := x.interval.2 * Nat.pow 10 (-s.exponent).toNat
      if x.significand % 2 = 0 then low ≤ value && value ≤ high
      else low < value && value < high := by
  unfold reads one
  rfl

/-- Both decimals around a magnitude are on the grid, the upper one beside the quotient. -/
theorem of_mem_neighbours {e : Int} (h : s ∈ x.neighbours e) :
    s.exponent = e ∧
      s.coefficient ≤ x.scaled * Nat.pow 10 (-e).toNat / (one * Nat.pow 10 e.toNat) + 1 := by
  rw [neighbours_eq] at h
  dsimp only at h
  split at h
  all_goals
    simp only [List.mem_cons, List.not_mem_nil, or_false] at h
    rcases h with rfl | rfl
  all_goals exact ⟨rfl, by simp only; omega⟩

/-- On the grid of the digit that comes `k` after the first one, there are `k + 1` digits. -/
theorem coefficient_le {k : Nat} (h : s ∈ x.neighbours (x.leadingExponent - k)) :
    s.coefficient ≤ Nat.pow 10 (k + 1) := by
  obtain ⟨-, hle⟩ := of_mem_neighbours h
  have hlead := scaled_lt_leading x
  generalize hgrid : x.leadingExponent - k = e at hle
  generalize hnext : x.leadingExponent + 1 = e' at hlead
  have hpowers : Nat.pow 10 (-e).toNat * Nat.pow 10 e'.toNat =
      Nat.pow 10 (-e').toNat * (Nat.pow 10 e.toNat * Nat.pow 10 (k + 1)) := by
    have hsum : (-e).toNat + e'.toNat = (-e').toNat + (e.toNat + (k + 1)) := by omega
    simp only [Nat.pow_eq, ← Nat.pow_add, hsum]
  have hpos : 0 < Nat.pow 10 e'.toNat := Nat.pow_pos (by decide)
  have hfine : 0 < Nat.pow 10 e.toNat * Nat.pow 10 (k + 1) :=
    Nat.mul_pos (Nat.pow_pos (by decide)) (Nat.pow_pos (by decide))
  refine Nat.le_trans hle (Nat.succ_le_of_lt ((Nat.div_lt_iff_lt_mul
    (Nat.mul_pos one_pos (Nat.pow_pos (by decide)))).2 ?_))
  refine Nat.lt_of_mul_lt_mul_right (a := Nat.pow 10 e'.toNat) ?_
  calc x.scaled * Nat.pow 10 (-e).toNat * Nat.pow 10 e'.toNat
      = x.scaled * Nat.pow 10 (-e').toNat * (Nat.pow 10 e.toNat * Nat.pow 10 (k + 1)) := by
        rw [Nat.mul_assoc, hpowers, Nat.mul_assoc]
    _ < one * Nat.pow 10 e'.toNat * (Nat.pow 10 e.toNat * Nat.pow 10 (k + 1)) :=
        Nat.mul_lt_mul_of_pos_right hlead hfine
    _ = Nat.pow 10 (k + 1) * (one * Nat.pow 10 e.toNat) * Nat.pow 10 e'.toNat := by ring

theorem reads_le (h : x.reads s = true) :
    4 * (s.coefficient * Nat.pow 10 s.exponent.toNat * one) ≤
      (4 * x.scaled + 2 * Nat.pow 2 x.power) * Nat.pow 10 (-s.exponent).toNat := by
  have hhigh : x.interval.2 = 4 * x.scaled + 2 * Nat.pow 2 x.power := rfl
  rw [reads_eq] at h
  dsimp only at h
  rw [Nat.mul_left_comm, ← hhigh]
  split at h
  all_goals
    simp only [Bool.and_eq_true, decide_eq_true_eq] at h
  · exact h.2
  · exact Nat.le_of_lt h.2

/-- Zeros at the end of the digits can be moved into the exponent. -/
theorem moved_le {w zeros e : Nat} (h : x.reads s = true)
    (hw : s.coefficient = w * Nat.pow 10 zeros) (he : s.exponent + zeros = e) :
    4 * (w * Nat.pow 10 e * one) ≤ 4 * x.scaled + 2 * Nat.pow 2 x.power := by
  have hle := reads_le h
  have hpowers : Nat.pow 10 e * Nat.pow 10 (-s.exponent).toNat =
      Nat.pow 10 zeros * Nat.pow 10 s.exponent.toNat := by
    have hsum : e + (-s.exponent).toNat = zeros + s.exponent.toNat := by omega
    simp only [Nat.pow_eq, ← Nat.pow_add, hsum]
  have hpos : 0 < Nat.pow 10 (-s.exponent).toNat := Nat.pow_pos (by decide)
  refine Nat.le_of_mul_le_mul_right ?_ hpos
  calc 4 * (w * Nat.pow 10 e * one) * Nat.pow 10 (-s.exponent).toNat
      = 4 * (w * (Nat.pow 10 e * Nat.pow 10 (-s.exponent).toNat) * one) := by ring
    _ = 4 * (s.coefficient * Nat.pow 10 s.exponent.toNat * one) := by
        rw [hpowers, hw, ← Nat.mul_assoc w]
    _ ≤ _ := hle

/-- Zero is not among the numbers that round to a positive magnitude. -/
theorem coefficient_pos (hx : 0 < x.significand) (h : x.reads s = true) : 0 < s.coefficient := by
  refine Nat.pos_of_ne_zero fun hzero => ?_
  have hunit : Nat.pow 2 x.power ≤ x.scaled := Nat.le_mul_of_pos_left _ hx
  have hpower : 0 < Nat.pow 2 x.power := Nat.pow_pos (by decide)
  have hlow : 0 < x.interval.1 := by
    simp only [interval]
    split <;> omega
  have hpos := Nat.mul_pos hlow (Nat.pow_pos (n := (-s.exponent).toNat) (a := 10) (by decide))
  rw [reads_eq, hzero] at h
  dsimp only at h
  rw [Nat.zero_mul, Nat.zero_mul] at h
  split at h
  all_goals
    simp only [Bool.and_eq_true, decide_eq_true_eq] at h
  · exact absurd h.1 (Nat.not_le_of_lt hpos)
  · exact absurd h.1 (Nat.not_lt_zero _)

theorem firstThatReads_cases (n : Nat) (e : Int) :
    x.firstThatReads n e = ⟨0, 0⟩ ∨
      ∃ k : Nat, k < n ∧ x.firstThatReads n e ∈ x.neighbours (e - k) ∧
        x.reads (x.firstThatReads n e) = true := by
  induction n generalizing e with
  | zero => exact .inl rfl
  | succ n ih =>
    rw [firstThatReads]
    cases hfind : (x.neighbours e).find? x.reads with
    | some s =>
      refine .inr ⟨0, Nat.zero_lt_succ n, ?_, List.find?_some hfind⟩
      rw [Int.natCast_zero, Int.sub_zero]
      exact List.mem_of_find?_eq_some hfind
    | none =>
      rcases ih (e - 1) with hzero | ⟨k, hk, hmem, hreads⟩
      · exact .inl hzero
      · refine .inr ⟨k + 1, Nat.succ_lt_succ hk, ?_, hreads⟩
        rwa [show e - ((k + 1 : Nat) : Int) = e - 1 - (k : Int) by omega]

/-- The shortest decimal of a positive magnitude, if one is found, has seventeen digits at most, is
not zero, and reads back. -/
theorem shortest_cases (hx : 0 < x.significand) :
    x.shortest = ⟨0, 0⟩ ∨
      (0 < x.shortest.coefficient ∧ x.shortest.coefficient ≤ Nat.pow 10 17 ∧
        x.reads x.shortest = true) := by
  rcases firstThatReads_cases (x := x) 17 x.leadingExponent with hzero | ⟨k, hk, hmem, hreads⟩
  · exact .inl hzero
  · exact .inr ⟨coefficient_pos hx hreads,
      Nat.le_trans (coefficient_le hmem) (Nat.pow_le_pow_right (by decide) hk), hreads⟩

end ProjectRegistry.Decimal.Binary64
