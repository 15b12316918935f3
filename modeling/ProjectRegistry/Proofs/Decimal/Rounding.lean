import Mathlib.Tactic.Ring
import ProjectRegistry.Decimal.Binary64

/-!
# Rounding to doubles

What is known of a rounded result without rounding: it is within a factor of two of the exact one,
of a whole number it is off by one part in 2⁵³ at most, and it is there as long as the exact one
stays below the halfway point above the greatest double.
-/

namespace ProjectRegistry.Decimal.Binary64

/-- The magnitudes that doubles can have. -/
def IsFinite (x : Binary64) : Prop := x.significand < Nat.pow 2 53 ∧ x.power ≤ 2045

/-! ## Rounded quotients -/

theorem le_roundedDiv (a d : Nat) : a / d ≤ roundedDiv a d := by
  simp only [roundedDiv]
  split <;> omega

theorem roundedDiv_le (a d : Nat) : roundedDiv a d ≤ a / d + 1 := by
  simp only [roundedDiv]
  split <;> omega

theorem roundedDiv_one (a : Nat) : roundedDiv a 1 = a := by
  simp [roundedDiv, Nat.mod_one]

/-- A rounded quotient is half a divisor too large at most. -/
theorem two_mul_roundedDiv_mul_le (a d : Nat) : 2 * (roundedDiv a d * d) ≤ 2 * a + d := by
  have hdivision := Nat.div_add_mod' a d
  simp only [roundedDiv]
  split
  · omega
  · next hround =>
    rw [Nat.add_mul, Nat.one_mul]
    have hrest : ¬ 2 * (a % d) < d := fun h => hround (.inl h)
    omega

/-- What is below the middle between two numbers is not rounded to the upper one. -/
theorem roundedDiv_lt {a d n : Nat} (h : 2 * a < (2 * n - 1) * d) : roundedDiv a d < n := by
  have hd : 0 < d := Nat.pos_of_ne_zero fun hd => by simp [hd] at h
  have hn : 0 < n := Nat.pos_of_ne_zero fun hn => by simp [hn] at h
  have hlt : a / d < n := by
    rw [Nat.div_lt_iff_lt_mul hd]
    have hle : (2 * n - 1) * d ≤ 2 * (n * d) := by
      rw [← Nat.mul_assoc]
      exact Nat.mul_le_mul_right d (Nat.sub_le _ _)
    omega
  simp only [roundedDiv]
  split
  · exact hlt
  · next hround =>
    rcases Nat.lt_or_ge (a / d + 1) n with hlow | hhigh
    · exact hlow
    · -- the quotient is the last number below, so its rest would have to be below a half
      exfalso
      obtain ⟨m, rfl⟩ : ∃ m, n = m + 1 := ⟨n - 1, by omega⟩
      have hq : a / d = m := by omega
      have hdivision := Nat.div_add_mod' a d
      rw [hq] at hdivision
      have hsplit : (2 * (m + 1) - 1) * d = 2 * (m * d) + d := by
        rw [show 2 * (m + 1) - 1 = 2 * m + 1 by omega]
        ring
      exact hround (.inl (by omega))

/-! ## Rounded magnitudes -/

/-- The power of two that a quotient is rounded to. -/
def gridOf (a d : Nat) : Nat := Nat.log2 (a / d) + 1 - 53

/-- The nearest magnitude, be it finite or not. -/
def nearest (a d : Nat) : Binary64 :=
  let m := roundedDiv a (d * Nat.pow 2 (gridOf a d))
  if m = Nat.pow 2 53 then ⟨Nat.pow 2 52, gridOf a d + 1⟩ else ⟨m, gridOf a d⟩

theorem ofUnits_eq (a d : Nat) :
    ofUnits a d = if (nearest a d).power ≤ 2045 then some (nearest a d) else none := rfl

theorem eq_nearest_of_ofUnits {a d : Nat} {x : Binary64} (h : ofUnits a d = some x) :
    x = nearest a d := by
  rw [ofUnits_eq] at h
  split at h
  · exact (Option.some.inj h).symm
  · cases h

theorem scaled_nearest (a d : Nat) :
    (nearest a d).scaled =
      roundedDiv a (d * Nat.pow 2 (gridOf a d)) * Nat.pow 2 (gridOf a d) := by
  simp only [nearest]
  split
  · next hm =>
    rw [hm, scaled]
    simp only [Nat.pow_eq]
    rw [Nat.pow_succ]
    ring
  · rfl

/-- A quotient reaches the grid, unless that is the finest. -/
theorem grid_cases (a d : Nat) :
    Nat.pow 2 (gridOf a d) = 1 ∨ Nat.pow 2 52 * Nat.pow 2 (gridOf a d) ≤ a / d := by
  rcases Nat.eq_zero_or_pos (gridOf a d) with hzero | hpos
  · rw [hzero]
    exact .inl rfl
  · have hlog : Nat.log2 (a / d) = 52 + gridOf a d := by
      unfold gridOf at hpos ⊢
      omega
    have hne : a / d ≠ 0 := by
      intro hzero
      rw [hzero] at hlog
      simp at hlog
      omega
    refine .inr ?_
    simp only [Nat.pow_eq]
    rw [← Nat.pow_add, ← hlog]
    exact Nat.log2_self_le hne

theorem nearest_le (a d : Nat) : (nearest a d).scaled ≤ 2 * (a / d) + 1 := by
  have hround := roundedDiv_le a (d * Nat.pow 2 (gridOf a d))
  rw [← Nat.div_div_eq_div_mul] at hround
  have hgrid := grid_cases a d
  rw [scaled_nearest]
  generalize Nat.pow 2 (gridOf a d) = g at *
  have hmul := Nat.mul_le_mul_right g hround
  rw [Nat.add_mul, Nat.one_mul] at hmul
  have hfloor := Nat.div_mul_le_self (a / d) g
  rw [show Nat.pow 2 52 = 4503599627370496 from rfl] at hgrid
  rcases hgrid with rfl | hgrid <;> omega

theorem le_nearest (a d : Nat) : a / d ≤ 2 * (nearest a d).scaled := by
  have hround := le_roundedDiv a (d * Nat.pow 2 (gridOf a d))
  rw [← Nat.div_div_eq_div_mul] at hround
  have hgrid := grid_cases a d
  have hpos : 0 < Nat.pow 2 (gridOf a d) := Nat.pow_pos Nat.zero_lt_two
  rw [scaled_nearest]
  generalize Nat.pow 2 (gridOf a d) = g at *
  have hmul := Nat.mul_le_mul_right g hround
  have hfloor := Nat.lt_div_mul_add (a := a / d) hpos
  rw [show Nat.pow 2 52 = 4503599627370496 from rfl] at hgrid
  rcases hgrid with rfl | hgrid <;> omega

theorem log2_div_lt {a d i j : Nat} (hi : 0 < i)
    (h : 2 * a < (2 * Nat.pow 2 i - 1) * (d * Nat.pow 2 j)) : Nat.log2 (a / d) < i + j := by
  rcases Nat.eq_zero_or_pos (a / d) with hzero | hpos
  · rw [hzero, show Nat.log2 0 = 0 from rfl]
    omega
  · have hd : 0 < d := Nat.pos_of_ne_zero fun hd => by simp [hd] at hpos
    refine (Nat.log2_lt (Nat.ne_of_gt hpos)).2 ((Nat.div_lt_iff_lt_mul hd).2 ?_)
    have hle : (2 * Nat.pow 2 i - 1) * (d * Nat.pow 2 j) ≤ 2 * (2 ^ (i + j) * d) :=
      calc (2 * Nat.pow 2 i - 1) * (d * Nat.pow 2 j)
          ≤ 2 * Nat.pow 2 i * (d * Nat.pow 2 j) := Nat.mul_le_mul_right _ (Nat.sub_le _ _)
        _ = 2 * (2 ^ (i + j) * d) := by
          rw [Nat.pow_add, Nat.pow_eq, Nat.pow_eq]
          ring
    exact Nat.lt_of_mul_lt_mul_left (Nat.lt_of_lt_of_le h hle)

/-- Rounding takes the next grid only from the last halfway point on. -/
theorem power_nearest_le {a d j : Nat}
    (h : 2 * a < (2 * Nat.pow 2 53 - 1) * (d * Nat.pow 2 j)) : (nearest a d).power ≤ j := by
  have hlog := log2_div_lt (by decide) h
  have hgrid : gridOf a d ≤ j := by
    unfold gridOf
    omega
  simp only [nearest]
  split
  · next hm =>
    rcases Nat.lt_or_eq_of_le hgrid with hlow | htop
    · exact hlow
    · rw [htop] at hm
      exact absurd hm (Nat.ne_of_lt (roundedDiv_lt h))
  · exact hgrid

/-! ## Where nothing overflows

The large powers are sealed: only closed comparisons of them are ever evaluated. -/

/-- The number one, in units. -/
@[irreducible] def one : Nat := Nat.pow 2 1074

/-- The distance between the greatest doubles, in units. -/
@[irreducible] def top : Nat := Nat.pow 2 2045

@[irreducible] def tenTo (n : Nat) : Nat := Nat.pow 10 n

theorem pow_le_tenTo {i j : Nat} (h : i ≤ j) : Nat.pow 10 i ≤ tenTo j := by
  unfold tenTo
  exact Nat.pow_le_pow_right (by decide) h

theorem tenTo_le_pow {i j : Nat} (h : i ≤ j) : tenTo i ≤ Nat.pow 10 j := by
  unfold tenTo
  exact Nat.pow_le_pow_right (by decide) h

theorem pow_le_top {i : Nat} (h : i ≤ 2045) : Nat.pow 2 i ≤ top := by
  unfold top
  apply Nat.pow_le_pow_right Nat.zero_lt_two
  exact h

/-- All doubles but the three greatest are four steps below the end of the doubles. -/
theorem four_mul_scaled_le {x : Binary64} (h : x.IsFinite)
    (hbelow : x.power = 2045 → x.significand ≤ Nat.pow 2 53 - 4) :
    4 * x.scaled + 2 * Nat.pow 2 x.power ≤ (Nat.pow 2 55 - 14) * top := by
  have hsum : 4 * x.scaled + 2 * Nat.pow 2 x.power =
      (4 * x.significand + 2) * Nat.pow 2 x.power := by
    rw [scaled]
    ring
  rw [hsum]
  obtain ⟨hm, hp⟩ := h
  rw [show Nat.pow 2 53 = 9007199254740992 from rfl] at hm hbelow
  rw [show Nat.pow 2 55 = 36028797018963968 from rfl]
  rcases Nat.eq_or_lt_of_le hp with htop | hlow
  · have hm := hbelow htop
    exact Nat.mul_le_mul (by omega) (pow_le_top hp)
  · have hpower : 2 * Nat.pow 2 x.power ≤ top := by
      have hdouble : Nat.pow 2 (x.power + 1) = 2 * Nat.pow 2 x.power := Nat.mul_comm _ 2
      rw [← hdouble]
      exact pow_le_top hlow
    calc (4 * x.significand + 2) * Nat.pow 2 x.power
        ≤ 18014398509481983 * (2 * Nat.pow 2 x.power) := by
          rw [← Nat.mul_assoc]
          exact Nat.mul_le_mul_right _ (by omega)
      _ ≤ 18014398509481983 * top := Nat.mul_le_mul_left _ hpower
      _ ≤ (36028797018963968 - 14) * top := Nat.mul_le_mul_right top (by decide)

theorem ofNat_eq (n : Nat) : ofNat n = ofUnits (n * one) 1 := by
  unfold ofNat one
  rfl

theorem mul_eq (x y : Binary64) : x.mul y = ofUnits (x.scaled * y.scaled) one := by
  unfold mul one
  rfl

theorem div_eq (x y : Binary64) : x.div y = ofUnits (x.scaled * one) y.scaled := by
  unfold div one
  rfl

/-- What stays below the halfway point above the greatest double is rounded to a double. -/
theorem exists_ofUnits {a d : Nat} (h : 2 * a < (2 * Nat.pow 2 53 - 1) * (d * top)) :
    ∃ x, ofUnits a d = some x := by
  unfold top at h
  exact ⟨nearest a d, (ofUnits_eq a d).trans (if_pos (power_nearest_le h))⟩

theorem exists_ofNat {n : Nat} (h : n ≤ tenTo 308) : ∃ x, ofNat n = some x := by
  have hroom : 2 * (tenTo 308 * one) < (2 * Nat.pow 2 53 - 1) * (1 * top) := by decide +kernel
  rw [ofNat_eq]
  exact exists_ofUnits (Nat.lt_of_le_of_lt
    (Nat.mul_le_mul_left 2 (Nat.mul_le_mul_right one h)) hroom)

theorem le_scaled_of_ofNat {n : Nat} {x : Binary64} (h : ofNat n = some x) :
    n * one ≤ 2 * x.scaled := by
  rw [ofNat_eq] at h
  have hle := le_nearest (n * one) 1
  rwa [← eq_nearest_of_ofUnits h, Nat.div_one] at hle

/-- A whole number is rounded to one that is larger by one part in 2⁵³ at most. -/
theorem scaled_ofNat_le {n : Nat} {x : Binary64} (h : ofNat n = some x) :
    Nat.pow 2 53 * x.scaled ≤ (Nat.pow 2 53 + 1) * (n * one) := by
  rw [ofNat_eq] at h
  rw [eq_nearest_of_ofUnits h]
  generalize n * one = a
  have hround := two_mul_roundedDiv_mul_le a (1 * Nat.pow 2 (gridOf a 1))
  have hgrid := grid_cases a 1
  rw [scaled_nearest]
  generalize Nat.pow 2 (gridOf a 1) = g at *
  rw [Nat.one_mul] at hround ⊢
  rw [Nat.div_one, show Nat.pow 2 52 = 4503599627370496 from rfl] at hgrid
  rw [show Nat.pow 2 53 = 9007199254740992 from rfl]
  rcases hgrid with rfl | hgrid
  · rw [roundedDiv_one]
    omega
  · omega

/-! ## Small numbers -/

variable {x y z : Binary64}

/-- Numbers of which no product and no quotient with a power of ten overflows. -/
def IsSmall (x : Binary64) : Prop := x.scaled ≤ Nat.pow 2 70 * one

theorem isSmall_zero : zero.IsSmall := Nat.zero_le _

theorem one_pos : 0 < one := by decide +kernel

/-- A number below 2⁶⁴ is small. -/
theorem isSmall_of_ofNat {n : Nat} (hn : n < Nat.pow 2 64) (h : ofNat n = some x) : x.IsSmall := by
  rw [ofNat_eq] at h
  have hle := nearest_le (n * one) 1
  rw [← eq_nearest_of_ofUnits h, Nat.div_one] at hle
  have hmul : n * one ≤ Nat.pow 2 64 * one := Nat.mul_le_mul_right one (Nat.le_of_lt hn)
  have hone := one_pos
  unfold IsSmall
  rw [show Nat.pow 2 64 = 18446744073709551616 from rfl] at hmul
  rw [show Nat.pow 2 70 = 1180591620717411303424 from rfl]
  omega

theorem exists_mul (hx : x.IsSmall) (hy : y.IsSmall) : ∃ z, x.mul y = some z := by
  have hroom : 2 * (Nat.pow 2 70 * one * (Nat.pow 2 70 * one)) <
      (2 * Nat.pow 2 53 - 1) * (one * top) := by decide +kernel
  rw [mul_eq]
  exact exists_ofUnits (Nat.lt_of_le_of_lt (Nat.mul_le_mul_left 2 (Nat.mul_le_mul hx hy)) hroom)

theorem exists_div (hx : x.IsSmall) (hy : one ≤ 2 * y.scaled) : ∃ z, x.div y = some z := by
  have hroom : 2 * (2 * (Nat.pow 2 70 * one * one)) <
      (2 * Nat.pow 2 53 - 1) * (one * top) := by decide +kernel
  rw [div_eq]
  refine exists_ofUnits (Nat.lt_of_mul_lt_mul_left (a := 2) ?_)
  calc 2 * (2 * (x.scaled * one)) ≤ 2 * (2 * (Nat.pow 2 70 * one * one)) :=
        Nat.mul_le_mul_left 2 (Nat.mul_le_mul_left 2 (Nat.mul_le_mul_right one hx))
    _ < (2 * Nat.pow 2 53 - 1) * (one * top) := hroom
    _ ≤ (2 * Nat.pow 2 53 - 1) * (2 * y.scaled * top) :=
        Nat.mul_le_mul_left _ (Nat.mul_le_mul_right top hy)
    _ = 2 * ((2 * Nat.pow 2 53 - 1) * (y.scaled * top)) := by ring

/-- What is divided by four or more is small again. -/
theorem isSmall_of_div (hx : x.IsSmall) (hy : 4 * one ≤ y.scaled) (h : x.div y = some z) :
    z.IsSmall := by
  rw [div_eq] at h
  have hle := nearest_le (x.scaled * one) y.scaled
  rw [← eq_nearest_of_ofUnits h] at hle
  have hquotient : x.scaled * one / y.scaled ≤ x.scaled / 4 :=
    calc x.scaled * one / y.scaled ≤ x.scaled * one / (4 * one) :=
          Nat.div_le_div_left hy (Nat.mul_pos (by decide) one_pos)
      _ = x.scaled / 4 := Nat.mul_div_mul_right _ _ one_pos
  have hone := one_pos
  unfold IsSmall at hx ⊢
  rw [show Nat.pow 2 70 = 1180591620717411303424 from rfl] at hx ⊢
  omega

end ProjectRegistry.Decimal.Binary64
