import Mathlib.Data.List.Forall2
import ProjectRegistry.Text.Digits

/-!
# Digits of numbers

How the digits of a number are built from those of a smaller one, and what a row of digits is read
as. Different numbers are written differently, and a number is read from its spellings alone: digits
of any case after at most one plus sign.
-/

namespace ProjectRegistry.Text

/-- The digits of a number below ten, or those of its tenth and one more. -/
theorem digitsOf_ten (n : Nat) :
    digitsOf 10 n =
      if n < 10 then [n.digitChar] else digitsOf 10 (n / 10) ++ [(n % 10).digitChar] :=
  Nat.toDigits_eq_if (by decide)

theorem digitsOf_ne_nil (n : Nat) : digitsOf 10 n ≠ [] := Nat.toDigits_ne_nil

theorem isDigit_of_mem_digitsOf {n : Nat} {c : Char} (h : c ∈ digitsOf 10 n) : c.isDigit = true :=
  Nat.isDigit_of_mem_toDigits (by decide) (by decide) h

/-- Only the digits of zero begin with a zero. -/
theorem head_digitsOf_ne {n : Nat} (h : 0 < n) : (digitsOf 10 n).head? ≠ some '0' := by
  induction n using Nat.strongRecOn with
  | ind n ih =>
    rw [digitsOf_ten]
    split
    · next hlt =>
      have hdigit : ∀ d, d < 10 → 0 < d → d.digitChar ≠ '0' := by decide
      simpa using hdigit n hlt h
    · next hge =>
      have hrest := ih (n / 10) (by omega) (by omega)
      rwa [List.head?_append, Option.or_of_isSome (List.isSome_head?.2 (digitsOf_ne_nil _))]

theorem digitsOf_zero : digitsOf 10 0 = ['0'] := by decide

theorem digitsOf_injective {m n : Nat} (h : digitsOf 10 m = digitsOf 10 n) : m = n := by
  have hback (n : Nat) : Nat.ofDigitChars 10 (digitsOf 10 n) 0 = n :=
    Nat.ofDigitChars_toDigits (by decide) (by decide)
  rw [← hback m, h, hback]

theorem toNat_of_isDigit {c : Char} (h : c.isDigit = true) : 48 ≤ c.toNat ∧ c.toNat ≤ 57 :=
  Char.isDigit_iff_toNat.1 h

theorem digit?_digitChar {base d : Nat} (hbase : base ≤ 16) (h : d < base) :
    digit? base d.digitChar = some d := by
  have hall : ∀ base, base ≤ 16 → ∀ d, d < base → digit? base d.digitChar = some d := by decide
  exact hall base hbase d h

theorem digitsAfter?_append (base n : Nat) (as bs : List Char) :
    digitsAfter? base n (as ++ bs) =
      (digitsAfter? base n as).bind fun m => digitsAfter? base m bs := by
  induction as generalizing n with
  | nil => rfl
  | cons c as ih =>
    rw [List.cons_append, digitsAfter?, digitsAfter?]
    cases digit? base c with
    | none => rfl
    | some d => exact ih (n * base + d)

theorem exists_of_mem_digitsOf {base n : Nat} (h : 1 < base) {c : Char}
    (hc : c ∈ digitsOf base n) : ∃ d < base, c = d.digitChar := by
  induction n using Nat.strongRecOn with
  | ind n ih =>
    rw [digitsOf, Nat.toDigits_eq_if h] at hc
    split at hc
    · next hn => exact ⟨n, hn, List.mem_singleton.1 hc⟩
    · next hn =>
      rcases List.mem_append.1 hc with hc | hc
      · exact ih (n / base) (Nat.div_lt_self (by omega) h) hc
      · exact ⟨n % base, Nat.mod_lt n (by omega), List.mem_singleton.1 hc⟩

/-- The digits of a number are read as the number. -/
theorem digitsAfter?_digitsOf {base : Nat} (h : 1 < base) (hbase : base ≤ 16) (n : Nat) :
    digitsAfter? base 0 (digitsOf base n) = some n := by
  induction n using Nat.strongRecOn with
  | ind n ih =>
    have hlast := digit?_digitChar hbase (Nat.mod_lt n (show 0 < base by omega))
    rw [digitsOf, Nat.toDigits_eq_if h]
    split
    · next hn =>
      have hdigit := digit?_digitChar hbase hn
      simp only [digitsAfter?, hdigit, Nat.zero_mul, Nat.zero_add]
    · next hn =>
      have hrest := ih (n / base) (Nat.div_lt_self (by omega) h)
      rw [digitsOf] at hrest
      simp only [digitsAfter?_append, hrest, Option.bind_some, digitsAfter?, hlast,
        Nat.div_add_mod' n base]

theorem ofDigitChars_lt {ds : List Char} (h : ∀ c ∈ ds, c.isDigit = true) :
    Nat.ofDigitChars 10 ds 0 < Nat.pow 10 ds.length := by
  induction ds with
  | nil => decide
  | cons c ds ih =>
    have hrest := ih fun d hd => h d (List.mem_cons_of_mem c hd)
    have hdigit : c.toNat - '0'.toNat ≤ 9 := by
      have hhigh := (toNat_of_isDigit (h c List.mem_cons_self)).2
      have hzero : '0'.toNat = 48 := rfl
      omega
    have hmul := Nat.mul_le_mul_left (Nat.pow 10 ds.length) hdigit
    have hpow : Nat.pow 10 (ds.length + 1) = Nat.pow 10 ds.length * 10 := rfl
    rw [Nat.ofDigitChars_cons, Nat.ofDigitChars_eq_ofDigitChars_zero, Nat.mul_zero, Nat.zero_add,
      List.length_cons, hpow, ← Nat.pow_eq]
    omega

/-! ## Numbers in fields -/

theorem length_padded {width n : Nat} (hwidth : 0 < width) (h : n < Nat.pow 10 width) :
    (padded width n).length = width := by
  have hlength : (digitsOf 10 n).length ≤ width :=
    (Nat.length_toDigits_le_iff (by decide) hwidth).2 h
  rw [padded, List.length_append, List.length_replicate]
  omega

theorem isDigit_of_mem_padded {width n : Nat} {c : Char} (h : c ∈ padded width n) :
    c.isDigit = true := by
  rcases List.mem_append.1 h with h | h
  · rw [(List.mem_replicate.1 h).2]
    decide
  · exact isDigit_of_mem_digitsOf h

/-- Zeros in front of a number say nothing. -/
theorem digitsAfter?_padded (width n : Nat) : digitsAfter? 10 0 (padded width n) = some n := by
  have hzeros (k : Nat) : digitsAfter? 10 0 (List.replicate k '0') = some 0 := by
    induction k with
    | zero => rfl
    | succ k ih =>
      have hzero : digit? 10 '0' = some 0 := by decide
      rw [List.replicate_succ, digitsAfter?]
      simp only [hzero]
      exact ih
  rw [padded, digitsAfter?_append, hzeros, Option.bind_some,
    digitsAfter?_digitsOf (by decide) (by decide)]

/-! ## Spellings of a number -/

/-- Whether a character is the digit of a value: a figure, or a letter of either case. -/
def IsDigit (base : Nat) (c : Char) (d : Nat) : Prop :=
  d < base ∧ (c = d.digitChar ∨ c = d.digitChar.toUpper)

theorem digit?_eq_some_iff {base d : Nat} (hbase : base ≤ 16) {c : Char} :
    digit? base c = some d ↔ IsDigit base c d := by
  have hlower : ∀ d < 16, d.digitChar.toNat = if d < 10 then 48 + d else 87 + d := by decide
  have hupper : ∀ d < 16, d.digitChar.toUpper.toNat = if d < 10 then 48 + d else 55 + d := by decide
  have hread : digit? base c = some d ↔
      d < base ∧ (c.toNat = (if d < 10 then 48 + d else 87 + d) ∨
        c.toNat = if d < 10 then 48 + d else 55 + d) := by
    simp only [digit?, Option.ite_none_right_eq_some, Option.some.injEq, Bool.and_eq_true,
      decide_eq_true_eq]
    split_ifs <;> omega
  rw [hread, IsDigit]
  refine and_congr_right fun hd => ?_
  rw [← hlower d (by omega), ← hupper d (by omega), Char.toNat_inj, Char.toNat_inj]

/-- A row of digits is read as its value in the base. -/
theorem digitsAfter?_eq_some_iff {base : Nat} (hbase : base ≤ 16) {n m : Nat} {cs : List Char} :
    digitsAfter? base n cs = some m ↔
      ∃ ds, List.Forall₂ (IsDigit base) cs ds ∧ m = ds.foldl (fun n d => n * base + d) n := by
  induction cs generalizing n with
  | nil =>
    refine ⟨fun h => ⟨[], .nil, (Option.some.inj h).symm⟩, ?_⟩
    rintro ⟨ds, hds, rfl⟩
    cases hds
    rfl
  | cons c cs ih =>
    rw [digitsAfter?]
    cases hc : digit? base c with
    | none =>
      refine iff_of_false (by simp) ?_
      rintro ⟨ds, hds, -⟩
      cases hds with
      | cons hd _ => simp [(digit?_eq_some_iff hbase).2 hd] at hc
    | some d =>
      have hd := (digit?_eq_some_iff hbase).1 hc
      refine ih.trans ⟨?_, ?_⟩
      · rintro ⟨ds, hds, rfl⟩
        exact ⟨d :: ds, .cons hd hds, rfl⟩
      · rintro ⟨ds, hds, rfl⟩
        cases hds with
        | cons he hds =>
          rw [(digit?_eq_some_iff hbase).2 he, Option.some.injEq] at hc
          subst hc
          exact ⟨_, hds, rfl⟩

/-- How an unsigned number is spelled in a base: perhaps one plus sign, then one digit or more. -/
def Spells (base : Nat) (cs : List Char) (n : Nat) : Prop :=
  ∃ ds values, (cs = ds ∨ cs = '+' :: ds) ∧ ds ≠ [] ∧ List.Forall₂ (IsDigit base) ds values ∧
    n = values.foldl (fun n d => n * base + d) 0

theorem not_isDigit_plus {base d : Nat} (hbase : base ≤ 16) : ¬IsDigit base '+' d := by
  intro h
  have hvalue : ∀ d < 16, '+' ≠ d.digitChar ∧ '+' ≠ d.digitChar.toUpper := by decide
  have hd := hvalue d (Nat.lt_of_lt_of_le h.1 hbase)
  exact h.2.elim hd.1 hd.2

theorem digits?_eq_some_iff {base : Nat} (hbase : base ≤ 16) {cs : List Char} {n : Nat} :
    digits? base cs = some n ↔ cs ≠ [] ∧
      ∃ ds, List.Forall₂ (IsDigit base) cs ds ∧ n = ds.foldl (fun n d => n * base + d) 0 := by
  rw [← digitsAfter?_eq_some_iff hbase]
  cases cs <;> simp [digits?]

theorem unsigned?_plus (base bound : Nat) (ds : List Char) : unsigned? base bound ('+' :: ds) =
    (digits? base ds).bind fun n => if n < bound then some n else none := by
  rw [unsigned?]
  cases digits? base ds <;> rfl

theorem unsigned?_plain (base bound : Nat) {cs : List Char} (h : ∀ ds, cs ≠ '+' :: ds) :
    unsigned? base bound cs =
      (digits? base cs).bind fun n => if n < bound then some n else none := by
  rw [unsigned?]
  · cases digits? base cs <;> rfl
  · exact h

/-- Reading an unsigned number accepts its spellings, and no other text. -/
theorem unsigned?_eq_some_iff {base bound : Nat} (hbase : base ≤ 16) {cs : List Char} {n : Nat} :
    unsigned? base bound cs = some n ↔ Spells base cs n ∧ n < bound := by
  have hbound (m? : Option Nat) : (m?.bind fun m => if m < bound then some m else none) = some n ↔
      m? = some n ∧ n < bound := by
    cases m? <;> grind
  by_cases hsign : ∃ ds, cs = '+' :: ds
  · obtain ⟨ds, rfl⟩ := hsign
    rw [unsigned?_plus, hbound, digits?_eq_some_iff hbase]
    refine and_congr_left fun _ => ⟨?_, ?_⟩
    · rintro ⟨hne, values, hds, hn⟩
      exact ⟨ds, values, .inr rfl, hne, hds, hn⟩
    · rintro ⟨ds', values, rfl | heq, hne, hds, hn⟩
      · -- a plus sign that is left is no digit
        cases hds with
        | cons hd _ => exact absurd hd (not_isDigit_plus hbase)
      · cases heq
        exact ⟨hne, values, hds, hn⟩
  · have hplain : ∀ ds, cs ≠ '+' :: ds := fun ds heq => hsign ⟨ds, heq⟩
    rw [unsigned?_plain base bound hplain, hbound, digits?_eq_some_iff hbase]
    refine and_congr_left fun _ => ⟨?_, ?_⟩
    · rintro ⟨hne, values, hds, hn⟩
      exact ⟨cs, values, .inl rfl, hne, hds, hn⟩
    · rintro ⟨ds, values, rfl | rfl, hne, hds, hn⟩
      · exact ⟨hne, values, hds, hn⟩
      · exact absurd rfl (hplain ds)

theorem spells_digitsOf {base : Nat} (h : 1 < base) (hbase : base ≤ 16) (n : Nat) :
    Spells base (digitsOf base n) n := by
  obtain ⟨values, hdigits, hn⟩ :=
    (digitsAfter?_eq_some_iff hbase).1 (digitsAfter?_digitsOf h hbase n)
  exact ⟨_, values, .inl rfl, Nat.toDigits_ne_nil, hdigits, hn⟩

/-! ## Signed numbers -/

theorem digitsOf_ne_minus (n : Nat) (ds : List Char) : digitsOf 10 n ≠ '-' :: ds := by
  intro h
  have hminus : '-' ∈ digitsOf 10 n := h ▸ List.mem_cons_self
  exact absurd (isDigit_of_mem_digitsOf hminus) (by decide)

theorem decimalOf_injective {m n : Int} (h : decimalOf m = decimalOf n) : m = n := by
  cases m with
  | ofNat m =>
    cases n with
    | ofNat n => rw [digitsOf_injective h]
    | negSucc n => exact absurd h (digitsOf_ne_minus m _)
  | negSucc m =>
    cases n with
    | ofNat n => exact absurd h.symm (digitsOf_ne_minus n _)
    | negSucc n =>
      have hdigits := digitsOf_injective (List.cons.inj h).2
      rw [Nat.add_right_cancel hdigits]

theorem numeralText_injective {m n : Int} (h : numeralText m = numeralText n) : m = n :=
  decimalOf_injective (String.ofList_injective h)

/-- A number is written with digits, and perhaps a minus in front. -/
theorem isDigit_or_minus {n : Int} {c : Char} (h : c ∈ decimalOf n) :
    c.isDigit = true ∨ c = '-' := by
  cases n with
  | ofNat n => exact .inl (isDigit_of_mem_digitsOf h)
  | negSucc n =>
    rcases List.mem_cons.1 h with rfl | h
    · exact .inr rfl
    · exact .inl (isDigit_of_mem_digitsOf h)

theorem decimalOf_ne_nil (n : Int) : decimalOf n ≠ [] := by
  cases n with
  | ofNat n => exact digitsOf_ne_nil n
  | negSucc n => exact List.cons_ne_nil _ _

end ProjectRegistry.Text
