import ProjectRegistry.Json.Number
import ProjectRegistry.Proofs.Decimal.Shortest
import ProjectRegistry.Proofs.Json.Reader

/-!
# Doubles in texts

Every finite double is written as a number, and that number is read. It need not be read as the
double that was written: its digits are rounded to a double, and so is the power of ten, before the
one is multiplied with or divided by the other.

An overflow is what could refuse it. Digits with a negative exponent stay far below the end of the
doubles. The others are worth at most half a step more than the double that they were written for,
and the two roundings add a few steps, so that only the three greatest doubles have to be read one
by one.
-/

namespace ProjectRegistry.Json.Number

open Decimal (Binary64 Scientific)
open Decimal.Binary64

/-! ## What digits are worth -/

/-- Dividing small numbers by 10³⁰⁸ never fails and leaves a small number, and an exponent that is
still not positive. -/
theorem exists_scaleDown {big : Binary64} (hbig : 4 * one ≤ big.scaled) (n : Nat) {x : Binary64}
    (hx : x.IsSmall) {e : Int} (he : e < 0) :
    ∃ y e', scaleDown big n x e = some (y, e') ∧ y.IsSmall ∧ -308 ≤ e' ∧ e' ≤ 0 := by
  induction n generalizing x e with
  | zero => exact ⟨_, _, rfl, isSmall_zero, by decide, by decide⟩
  | succ n ih =>
    rw [scaleDown]
    split
    · split
      · exact ⟨_, _, rfl, isSmall_zero, by decide, by decide⟩
      · obtain ⟨y, hy⟩ := exists_div (y := big) hx (by omega)
        rw [hy, Option.bind_some]
        exact ih (isSmall_of_div hx hbig hy) (by omega)
    · exact ⟨x, e, rfl, hx, by omega, by omega⟩

theorem exists_powerOfTen {n : Nat} (hn : n ≤ 308) :
    ∃ x, powerOfTen? n = some x ∧ Nat.pow 10 n * one ≤ 2 * x.scaled := by
  obtain ⟨x, hx⟩ := exists_ofNat (pow_le_tenTo hn)
  exact ⟨x, hx, le_scaled_of_ofNat hx⟩

theorem magnitude?_eq {w : Nat} {e e' : Int} {x y big : Binary64} (hw : w ≠ 0) (he : e ≤ 308)
    (hx : Binary64.ofNat w = some x) (hbig : powerOfTen? 308 = some big)
    (hscale : scaleDown big 4 x e = some (y, e')) :
    magnitude? w e = timesPowerOfTen? y e' := by
  rw [magnitude?, if_neg hw, if_neg (Int.not_lt.2 he), hx, Option.bind_some, hbig,
    Option.bind_some, hscale, Option.bind_some]

theorem exists_of_lt {w : Nat} (hw : w < Nat.pow 2 64) :
    ∃ x, Binary64.ofNat w = some x ∧ x.IsSmall := by
  have hroom : Nat.pow 2 64 ≤ tenTo 308 := by decide +kernel
  obtain ⟨x, hx⟩ := exists_ofNat (Nat.le_of_lt (Nat.lt_of_lt_of_le hw hroom))
  exact ⟨x, hx, isSmall_of_ofNat hw hx⟩

theorem exists_big : ∃ big, powerOfTen? 308 = some big ∧ 4 * one ≤ big.scaled := by
  obtain ⟨big, hbig, hle⟩ := exists_powerOfTen (Nat.le_refl 308)
  have hlarge {t : Nat} (ht : 8 ≤ t) (hle : t * one ≤ 2 * big.scaled) : 4 * one ≤ big.scaled := by
    have hmul := Nat.mul_le_mul_right one ht
    omega
  exact ⟨big, hbig, hlarge (by decide +kernel) hle⟩

/-- Digits with a negative exponent are worth some double. -/
theorem exists_magnitude_of_neg {w : Nat} (hw : w < Nat.pow 2 64) {e : Int} (he : e < 0) :
    ∃ x, magnitude? w e = some x := by
  by_cases hzero : w = 0
  · exact ⟨_, by rw [magnitude?, if_pos hzero]⟩
  obtain ⟨big, hbig, hlarge⟩ := exists_big
  obtain ⟨x, hx, hsmall⟩ := exists_of_lt hw
  obtain ⟨y, e', hscale, hy, hlow, hhigh⟩ := exists_scaleDown hlarge 4 hsmall he
  rw [magnitude?_eq hzero (by omega) hx hbig hscale, timesPowerOfTen?]
  obtain ⟨ten, hten, hle⟩ := exists_powerOfTen (n := e'.natAbs) (by omega)
  rw [hten, Option.bind_some]
  split
  · obtain rfl : e' = 0 := by omega
    exact exists_mul hy (isSmall_of_ofNat (by decide) hten)
  · have hone : one ≤ Nat.pow 10 e'.natAbs * one :=
      Nat.le_mul_of_pos_left one (Nat.pow_pos (by decide))
    exact exists_div hy (Nat.le_trans hone hle)

/-- A number and a power of ten are rounded once each before they are multiplied. -/
theorem exists_mul_of_le {w : Nat} {e : Nat} {x ten : Binary64}
    (hx : Binary64.ofNat w = some x) (hten : powerOfTen? e = some ten)
    (h : 4 * (w * Nat.pow 10 e * one) ≤ (Nat.pow 2 55 - 14) * top) : ∃ y, x.mul ten = some y := by
  have hone := one_pos
  have htop : 0 < top := by decide +kernel
  have hxle := scaled_ofNat_le hx
  have htenle := scaled_ofNat_le hten
  rw [mul_eq]
  refine exists_ofUnits (Nat.lt_of_not_le fun hover => ?_)
  have hproduct : Nat.pow 2 106 * (4 * (x.scaled * ten.scaled)) ≤
      (Nat.pow 2 53 + 1) * (Nat.pow 2 53 + 1) * (Nat.pow 2 55 - 14) * (one * top) :=
    calc Nat.pow 2 106 * (4 * (x.scaled * ten.scaled))
        = 4 * (Nat.pow 2 53 * x.scaled * (Nat.pow 2 53 * ten.scaled)) := by
          rw [show Nat.pow 2 106 = Nat.pow 2 53 * Nat.pow 2 53 from rfl]
          ring
      _ ≤ 4 * ((Nat.pow 2 53 + 1) * (w * one) * ((Nat.pow 2 53 + 1) * (Nat.pow 10 e * one))) :=
          Nat.mul_le_mul_left 4 (Nat.mul_le_mul hxle htenle)
      _ = (Nat.pow 2 53 + 1) * (Nat.pow 2 53 + 1) * one * (4 * (w * Nat.pow 10 e * one)) := by ring
      _ ≤ (Nat.pow 2 53 + 1) * (Nat.pow 2 53 + 1) * one * ((Nat.pow 2 55 - 14) * top) :=
          Nat.mul_le_mul_left _ h
      _ = (Nat.pow 2 53 + 1) * (Nat.pow 2 53 + 1) * (Nat.pow 2 55 - 14) * (one * top) := by ring
  have hratio : Nat.pow 2 107 * (2 * Nat.pow 2 53 - 1) * (one * top) ≤
      (Nat.pow 2 53 + 1) * (Nat.pow 2 53 + 1) * (Nat.pow 2 55 - 14) * (one * top) :=
    calc Nat.pow 2 107 * (2 * Nat.pow 2 53 - 1) * (one * top)
        = Nat.pow 2 107 * ((2 * Nat.pow 2 53 - 1) * (one * top)) := Nat.mul_assoc _ _ _
      _ ≤ Nat.pow 2 107 * (2 * (x.scaled * ten.scaled)) := Nat.mul_le_mul_left _ hover
      _ = Nat.pow 2 106 * (4 * (x.scaled * ten.scaled)) := by
          rw [show Nat.pow 2 107 = Nat.pow 2 106 * 2 from rfl]
          ring
      _ ≤ _ := hproduct
  exact absurd (Nat.le_of_mul_le_mul_right hratio (Nat.mul_pos hone htop)) (by decide +kernel)

/-- Digits with an exponent that is not negative are worth some double, if they are below the four
greatest ones. -/
theorem exists_magnitude_of_le {w : Nat} (hw : w < Nat.pow 2 64) {e : Nat} (he : e ≤ 308)
    (h : 4 * (w * Nat.pow 10 e * one) ≤ (Nat.pow 2 55 - 14) * top) :
    ∃ x, magnitude? w (e : Int) = some x := by
  by_cases hzero : w = 0
  · exact ⟨_, by rw [magnitude?, if_pos hzero]⟩
  obtain ⟨big, hbig, -⟩ := exists_big
  obtain ⟨x, hx, -⟩ := exists_of_lt hw
  obtain ⟨ten, hten, -⟩ := exists_powerOfTen he
  have hscale : scaleDown big 4 x (e : Int) = some (x, (e : Int)) := by
    rw [scaleDown, if_neg (by omega)]
  rw [magnitude?_eq hzero (by omega) hx hbig hscale, timesPowerOfTen?, Int.natAbs_natCast, hten,
    Option.bind_some, if_pos (by omega)]
  exact exists_mul_of_le hx hten h

theorem le_of_scaled_le {w e : Nat} (hw : 0 < w)
    (h : 4 * (w * Nat.pow 10 e * one) ≤ (Nat.pow 2 55 - 14) * top) : e ≤ 308 := by
  have hroom : (Nat.pow 2 55 - 14) * top < 4 * (tenTo 309 * one) := by decide +kernel
  refine Nat.le_of_not_lt fun hlarge => Nat.lt_irrefl _ (Nat.lt_of_lt_of_le hroom ?_)
  have hpow : tenTo 309 ≤ w * Nat.pow 10 e :=
    Nat.le_trans (tenTo_le_pow hlarge) (Nat.le_mul_of_pos_left _ hw)
  exact Nat.le_trans (Nat.mul_le_mul_left 4 (Nat.mul_le_mul_right one hpow)) h

/-! ## Gathering digits -/

theorem le_ofDigitChars (ds : List Char) (n : Nat) : n ≤ Nat.ofDigitChars 10 ds n := by
  rw [Nat.ofDigitChars_eq_ofDigitChars_zero]
  exact Nat.le_trans (Nat.le_mul_of_pos_left n (Nat.pow_pos (by decide))) (Nat.le_add_right _ _)

/-- As long as digits fit, all of them are taken. -/
theorem foldl_take {shift lost : Int} {ds : List Char} {g : Gathered} (hfull : g.full = false)
    (hfit : Nat.ofDigitChars 10 ds g.significand < UInt64.size) :
    ds.foldl (fun g c => g.take (figure c) shift lost) g =
      ⟨Nat.ofDigitChars 10 ds g.significand, g.shift + ds.length * shift, false⟩ := by
  induction ds generalizing g with
  | nil =>
    obtain ⟨significand, shift', full⟩ := g
    obtain rfl : full = false := hfull
    simp [Nat.ofDigitChars_nil]
  | cons c ds ih =>
    have hfigure : 10 * g.significand + (c.toNat - '0'.toNat) = g.significand * 10 + figure c := by
      rw [Nat.mul_comm]
      rfl
    rw [Nat.ofDigitChars_cons, hfigure] at hfit ⊢
    have hroom : ¬ (g.full = true ∨ UInt64.size ≤ g.significand * 10 + figure c) := by
      have hle := le_ofDigitChars ds (g.significand * 10 + figure c)
      simp only [hfull, Bool.false_eq_true, false_or]
      omega
    have hrest := ih (g := ⟨g.significand * 10 + figure c, g.shift + shift, g.full⟩) hfull hfit
    rw [List.foldl_cons, Gathered.take, if_neg hroom, hrest, List.length_cons]
    simp only [Gathered.mk.injEq, true_and, and_true]
    push_cast
    ring

/-- The digits of a number without their point. -/
def significandOf (n : Numeral) : Nat := Nat.ofDigitChars 10 (n.whole ++ n.fraction) 0

/-- The power of ten that the digits of a number are multiplied with. -/
def scaleOf (n : Numeral) : Int := writtenExponent n.exponent - n.fraction.length

/-- Whether digits are worth a number. -/
def IsRead (n : Numeral) : Prop := ∃ x, ofNumeral? n = some x

theorem isRead_of_magnitude {n : Numeral} (hfit : significandOf n < UInt64.size)
    (h : ∃ x, magnitude? (significandOf n) (scaleOf n) = some x) : IsRead n := by
  obtain ⟨x, hx⟩ := h
  rw [significandOf, Nat.ofDigitChars_append] at hfit hx
  have hwhole : gatherWhole n.whole = { significand := Nat.ofDigitChars 10 n.whole 0 } := by
    rw [gatherWhole, foldl_take rfl (Nat.lt_of_le_of_lt (le_ofDigitChars n.fraction _) hfit)]
    simp
  have hall : gatherFraction (gatherWhole n.whole) n.fraction =
      ⟨Nat.ofDigitChars 10 n.fraction (Nat.ofDigitChars 10 n.whole 0), -n.fraction.length,
        false⟩ := by
    rw [hwhole, gatherFraction, foldl_take rfl hfit]
    simp
  rw [IsRead, ofNumeral?, hall]
  dsimp only
  split
  · exact ⟨_, rfl⟩
  · rw [scaleOf, sub_eq_neg_add] at hx
    rw [hx]
    exact ⟨_, rfl⟩

/-! ## How doubles are written -/

/-- Digits as they stand in front of a double, without a zero in front. -/
structure IsLeading (ds : List Char) : Prop where
  ne : ds ≠ []
  digit : ∀ c ∈ ds, c.isDigit = true
  head : ds.head? ≠ some '0'

theorem isDigit_of_mem_zeros {n : Nat} {c : Char} (h : c ∈ List.replicate n '0') :
    c.isDigit = true := by
  rw [List.eq_of_mem_replicate h]
  decide

theorem head?_take {ds : List Char} {n : Nat} (hn : 0 < n) : (ds.take n).head? = ds.head? := by
  obtain ⟨n, rfl⟩ := Nat.exists_eq_succ_of_ne_zero (Nat.ne_of_gt hn)
  cases ds <;> rfl

variable {ds : List Char}

theorem wellFormed_pointed (h : IsLeading ds) (negative : Bool) (point : Int) :
    (pointed negative ds point).WellFormed := by
  have hhead {rest : List Char} {P : Prop} (hrest : rest.head? = ds.head?) :
      rest.head? = some '0' → P := fun hzero => absurd (hrest.symm.trans hzero) h.head
  rw [pointed]
  split
  · -- after a zero and the point
    refine ⟨List.cons_ne_nil _ _, fun hc => ?_, fun _ => rfl, fun hc => ?_, fun he => nomatch he⟩
    · rw [List.mem_singleton.1 hc]
      decide
    · rcases List.mem_append.1 hc with hc | hc
      · exact isDigit_of_mem_zeros hc
      · exact h.digit _ hc
  · split
    · next hpoint =>
      dsimp only
      split
      · -- in front of the point, with zeros behind
        refine ⟨List.append_ne_nil_of_left_ne_nil h.ne _, fun hc => ?_, hhead ?_, fun hc => ?_,
          fun he => nomatch he⟩
        · rcases List.mem_append.1 hc with hc | hc
          · exact h.digit _ hc
          · exact isDigit_of_mem_zeros hc
        · rw [List.head?_append, Option.or_of_isSome (List.isSome_head?.2 h.ne)]
        · rw [List.mem_singleton.1 hc]
          decide
      · -- on both sides of the point
        have hne : ds.take point.toNat ≠ [] := by
          simp only [ne_eq, List.take_eq_nil_iff, h.ne, or_false]
          omega
        exact ⟨hne, fun hc => h.digit _ (List.mem_of_mem_take hc), hhead (head?_take (by omega)),
          fun hc => h.digit _ (List.mem_of_mem_drop hc), fun he => nomatch he⟩
    · -- one digit in front of the point, and an exponent
      have hne : ds.take 1 ≠ [] := by simp [h.ne]
      refine ⟨hne, fun hc => h.digit _ (List.mem_of_mem_take hc), hhead (head?_take (by decide)),
        fun hc => h.digit _ (List.mem_of_mem_drop hc), fun he => ?_⟩
      obtain ⟨-, rfl⟩ := Prod.mk.inj (Option.some.inj he)
      exact ⟨Text.digitsOf_ne_nil _, fun _ => Text.isDigit_of_mem_digitsOf⟩

theorem writtenExponent_digitsOf (e : Int) :
    writtenExponent (some (decide (e < 0), Text.digitsOf 10 e.natAbs)) = e := by
  rw [writtenExponent, Text.digitsAfter?_digitsOf (by decide) (by decide)]
  dsimp only [Option.getD_some]
  split
  · next hneg =>
    have hneg := of_decide_eq_true hneg
    omega
  · next hpos =>
    have hpos : ¬ e < 0 := fun h => hpos (decide_eq_true h)
    omega

/-- The digits that a double is written with and their power of ten are as before, except that whole
numbers are written with zeros up to the point and one behind it. -/
theorem pointed_cases (h : IsLeading ds) (negative : Bool) (point : Int) :
    (significandOf (pointed negative ds point) = Nat.ofDigitChars 10 ds 0 ∧
        scaleOf (pointed negative ds point) = point - ds.length) ∨
      (significandOf (pointed negative ds point) < Nat.pow 10 17 ∧
        scaleOf (pointed negative ds point) = -1) := by
  have hjoin (n : Nat) :
      Nat.ofDigitChars 10 (ds.take n ++ ds.drop n) 0 = Nat.ofDigitChars 10 ds 0 :=
    congrArg (Nat.ofDigitChars 10 · 0) (List.take_append_drop n ds)
  have hlength : 0 < ds.length := List.length_pos_iff.2 h.ne
  rw [pointed]
  split
  · next hpoint =>
    refine .inl ⟨?_, ?_⟩
    · rw [significandOf, Nat.ofDigitChars_append, Nat.ofDigitChars_append,
        Nat.ofDigitChars_replicate_zero]
      rfl
    · simp only [scaleOf, writtenExponent, List.length_append, List.length_replicate]
      omega
  · split
    · next hpoint =>
      dsimp only
      split
      · next hfit =>
        refine .inr ⟨?_, rfl⟩
        refine Nat.lt_of_lt_of_le (Text.ofDigitChars_lt fun c hc => ?_) ?_
        · rcases List.mem_append.1 hc with hc | hc
          · rcases List.mem_append.1 hc with hc | hc
            · exact h.digit c hc
            · exact isDigit_of_mem_zeros hc
          · rw [List.mem_singleton.1 hc]
            decide
        · refine Nat.pow_le_pow_right (by decide) ?_
          simp only [List.length_append, List.length_replicate, List.length_singleton]
          omega
      · refine .inl ⟨hjoin _, ?_⟩
        simp only [scaleOf, writtenExponent, List.length_drop]
        omega
    · refine .inl ⟨hjoin 1, ?_⟩
      simp only [scaleOf, writtenExponent_digitsOf, List.length_drop]
      omega

/-! ## Reading doubles back -/

theorem withoutTrailingZeros_append (ds : List Char) :
    (withoutTrailingZeros ds).1 ++ List.replicate (withoutTrailingZeros ds).2 '0' = ds := by
  have hsplit : (ds.reverse.dropWhile (· = '0')).reverse ++
      (ds.reverse.takeWhile (· = '0')).reverse = ds := by
    rw [← List.reverse_append, List.takeWhile_append_dropWhile, List.reverse_reverse]
  have hzeros : (ds.reverse.takeWhile (· = '0')).reverse =
      List.replicate (ds.length - (ds.reverse.dropWhile (· = '0')).reverse.length) '0' := by
    refine List.eq_replicate_iff.2 ⟨?_, fun c hc => ?_⟩
    · have hlength := congrArg List.length hsplit
      rw [List.length_append] at hlength
      omega
    · exact of_decide_eq_true (List.all_eq_true.1 List.all_takeWhile c (List.mem_reverse.1 hc))
  rw [withoutTrailingZeros, ← hzeros]
  exact hsplit

theorem isLeading_digitsOf {n : Nat} (hn : 0 < n) :
    IsLeading (withoutTrailingZeros (Text.digitsOf 10 n)).1 := by
  have hdigits := withoutTrailingZeros_append (Text.digitsOf 10 n)
  have hhead := Text.head_digitsOf_ne hn
  generalize withoutTrailingZeros (Text.digitsOf 10 n) = kept at hdigits ⊢
  have hne : kept.1 ≠ [] := by
    intro hnil
    rw [hnil, List.nil_append] at hdigits
    cases hzeros : kept.2 with
    | zero =>
      rw [hzeros] at hdigits
      exact Text.digitsOf_ne_nil n hdigits.symm
    | succ zeros =>
      rw [hzeros] at hdigits
      rw [← hdigits] at hhead
      exact hhead rfl
  refine ⟨hne, fun c hc => Text.isDigit_of_mem_digitsOf (n := n) ?_, ?_⟩
  · rw [← hdigits]
    exact List.mem_append_left _ hc
  · rwa [← hdigits, List.head?_append, Option.or_of_isSome (List.isSome_head?.2 hne)] at hhead

theorem eq_mul_withoutTrailingZeros (n : Nat) :
    n = Nat.ofDigitChars 10 (withoutTrailingZeros (Text.digitsOf 10 n)).1 0 *
      Nat.pow 10 (withoutTrailingZeros (Text.digitsOf 10 n)).2 := by
  have hdigits : Nat.ofDigitChars 10 (Text.digitsOf 10 n) 0 = n :=
    Nat.ofDigitChars_toDigits (by decide) (by decide)
  rw [← withoutTrailingZeros_append (Text.digitsOf 10 n), Nat.ofDigitChars_append,
    Nat.ofDigitChars_replicate_zero] at hdigits
  rw [Nat.mul_comm]
  exact hdigits.symm

theorem ofShortest_eq (negative : Bool) (s : Scientific) :
    ofShortest negative s =
      pointed negative (withoutTrailingZeros (Text.digitsOf 10 s.coefficient)).1
        (s.exponent + (withoutTrailingZeros (Text.digitsOf 10 s.coefficient)).2 +
          (withoutTrailingZeros (Text.digitsOf 10 s.coefficient)).1.length) := rfl

/-- Zero as doubles are written. -/
def writtenZero (negative : Bool) : Numeral := ⟨negative, ['0'], ['0'], none⟩

theorem ofShortest_zero (negative : Bool) : ofShortest negative ⟨0, 0⟩ = writtenZero negative := by
  cases negative <;> decide

theorem wellFormed_writtenZero (negative : Bool) : (writtenZero negative).WellFormed := by
  have hdigit {c : Char} (hc : c ∈ ['0']) : c.isDigit = true := by
    rw [List.mem_singleton.1 hc]
    decide
  exact ⟨List.cons_ne_nil _ _, hdigit, fun _ => rfl, hdigit, fun he => nomatch he⟩

theorem isRead_writtenZero (negative : Bool) : IsRead (writtenZero negative) :=
  have hfit : 0 < UInt64.size := by decide
  isRead_of_magnitude hfit ⟨.zero, if_pos rfl⟩

theorem wellFormed_double (negative : Bool) (x : Binary64) :
    (toNumeral (.double negative x)).WellFormed := by
  rw [toNumeral]
  split
  · exact wellFormed_writtenZero negative
  · next hx =>
    rcases shortest_cases (Nat.pos_of_ne_zero hx) with hzero | ⟨hpos, -, -⟩
    · rw [hzero, ofShortest_zero]
      exact wellFormed_writtenZero negative
    · rw [ofShortest_eq]
      exact wellFormed_pointed (isLeading_digitsOf hpos) negative _

/-- A decimal that reads back as a double below the three greatest is worth some double, and stays
so when zeros are moved from its digits into the exponent. -/
theorem exists_magnitude_of_reads {x : Binary64} {s : Scientific} {w zeros : Nat}
    (hx : 4 * x.scaled + 2 * Nat.pow 2 x.power ≤ (Nat.pow 2 55 - 14) * top)
    (hreads : x.reads s = true) (hpos : 0 < s.coefficient)
    (hw : s.coefficient = w * Nat.pow 10 zeros) (hfit : w < Nat.pow 2 64) :
    ∃ y, magnitude? w (s.exponent + zeros) = some y := by
  rcases Int.lt_or_le (s.exponent + zeros) 0 with hneg | hnonneg
  · exact exists_magnitude_of_neg hfit hneg
  · obtain ⟨e, he⟩ := Int.eq_ofNat_of_zero_le hnonneg
    have hwpos : 0 < w := by
      refine Nat.pos_of_ne_zero fun hzero => ?_
      rw [hw, hzero, Nat.zero_mul] at hpos
      exact Nat.lt_irrefl 0 hpos
    have hbound := Nat.le_trans (moved_le hreads hw he) hx
    rw [he]
    exact exists_magnitude_of_le hfit (le_of_scaled_le hwpos hbound) hbound

theorem isRead_ofShortest {x : Binary64} {s : Scientific}
    (hx : 4 * x.scaled + 2 * Nat.pow 2 x.power ≤ (Nat.pow 2 55 - 14) * top)
    (hreads : x.reads s = true) (hpos : 0 < s.coefficient) (hle : s.coefficient ≤ Nat.pow 10 17)
    (negative : Bool) : IsRead (ofShortest negative s) := by
  have hw := eq_mul_withoutTrailingZeros s.coefficient
  have hcases := pointed_cases (isLeading_digitsOf hpos) negative
    (s.exponent + (withoutTrailingZeros (Text.digitsOf 10 s.coefficient)).2 +
      (withoutTrailingZeros (Text.digitsOf 10 s.coefficient)).1.length)
  rw [ofShortest_eq]
  generalize withoutTrailingZeros (Text.digitsOf 10 s.coefficient) = kept at hw hcases ⊢
  have hsize : Nat.pow 10 17 < UInt64.size := by decide
  rcases hcases with ⟨hsignificand, hscale⟩ | ⟨hsignificand, hscale⟩
  · rw [Int.add_sub_cancel] at hscale
    generalize Nat.ofDigitChars 10 kept.1 0 = w at hw hsignificand
    have hwle : w ≤ w * Nat.pow 10 kept.2 := Nat.le_mul_of_pos_right w (Nat.pow_pos (by decide))
    have hfit : w < UInt64.size := Nat.lt_of_le_of_lt (hwle.trans (hw ▸ hle)) hsize
    refine isRead_of_magnitude (hsignificand ▸ hfit) ?_
    rw [hsignificand, hscale]
    exact exists_magnitude_of_reads hx hreads hpos hw hfit
  · have hfit := Nat.lt_trans hsignificand hsize
    refine isRead_of_magnitude hfit ?_
    rw [hscale]
    exact exists_magnitude_of_neg hfit (by decide)

/-- The three greatest doubles are as close to the end of the doubles as the rounding of a product
is coarse. -/
theorem isRead_greatest (negative : Bool) {m : Nat} (hlow : Nat.pow 2 53 - 4 < m)
    (hhigh : m < Nat.pow 2 53) : IsRead (toNumeral (.double negative ⟨m, 2045⟩)) := by
  have hall : ∀ negative : Bool, ∀ k < 3,
      (ofNumeral? (toNumeral (.double negative ⟨Nat.pow 2 53 - 3 + k, 2045⟩))).isSome = true := by
    decide +kernel
  obtain ⟨k, rfl⟩ : ∃ k, m = Nat.pow 2 53 - 3 + k := Nat.exists_eq_add_of_le (by omega)
  exact Option.isSome_iff_exists.1 (hall negative k (by omega))

theorem isRead_double (negative : Bool) {x : Binary64} (hx : x.IsFinite) :
    IsRead (toNumeral (.double negative x)) := by
  by_cases hbelow : x.power = 2045 → x.significand ≤ Nat.pow 2 53 - 4
  · rw [toNumeral]
    split
    · exact isRead_writtenZero negative
    · next hne =>
      rcases shortest_cases (Nat.pos_of_ne_zero hne) with hzero | ⟨hpos, hle, hreads⟩
      · rw [hzero, ofShortest_zero]
        exact isRead_writtenZero negative
      · exact isRead_ofShortest (four_mul_scaled_le hx hbelow) hreads hpos hle negative
  · obtain ⟨m, p⟩ := x
    obtain ⟨rfl, hlarge⟩ : p = 2045 ∧ ¬ m ≤ Nat.pow 2 53 - 4 := Classical.not_imp.1 hbelow
    exact isRead_greatest negative (Nat.lt_of_not_le hlarge) hx.1

end ProjectRegistry.Json.Number
