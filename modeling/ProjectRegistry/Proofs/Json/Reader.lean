import Mathlib.Data.List.TakeWhile
import ProjectRegistry.Proofs.Json.Spelling

/-!
# Reading what was spelled

The reader gives back every tree from each of its spellings, and so from the text that is printed
for it. What is left behind a value matters only behind a number, which would go on with more
digits; behind the whole it may be blanks and nothing else.

Nothing else is read: a text that is read as a tree is a spelling of it.
-/

namespace ProjectRegistry.Json

/-! ## Numbers -/

/-- Whether a text does not go on with digits. -/
def EndsDigits (cs : List Char) : Prop := ∀ c, cs.head? = some c → c.isDigit = false

/-- Whether a text does not go on with what can belong to a number. -/
def EndsNumber (cs : List Char) : Prop :=
  ∀ c, cs.head? = some c → c.isDigit = false ∧ c ≠ '.' ∧ c ≠ 'e' ∧ c ≠ 'E'

theorem EndsNumber.endsDigits {cs : List Char} (h : EndsNumber cs) : EndsDigits cs :=
  fun c hc => (h c hc).1

theorem endsDigits_cons {c : Char} (h : c.isDigit = false) (cs : List Char) :
    EndsDigits (c :: cs) := by
  intro d hd
  rw [List.head?_cons, Option.some.injEq] at hd
  rwa [← hd]

theorem takeWhile_isDigit {ds rest : List Char} (hds : ∀ c ∈ ds, c.isDigit = true)
    (hrest : EndsDigits rest) :
    (ds ++ rest).takeWhile Char.isDigit = ds := by
  rw [List.takeWhile_append_of_pos hds]
  cases rest with
  | nil => simp
  | cons c cs => simp [hrest c rfl]

theorem dropWhile_isDigit {ds rest : List Char} (hds : ∀ c ∈ ds, c.isDigit = true)
    (hrest : EndsDigits rest) :
    (ds ++ rest).dropWhile Char.isDigit = rest := by
  rw [List.dropWhile_append_of_pos hds]
  cases rest with
  | nil => rfl
  | cons c cs => simp [hrest c rfl]

theorem digitRun_append {ds rest : List Char} (hne : ds ≠ []) (hds : ∀ c ∈ ds, c.isDigit = true)
    (hrest : EndsDigits rest) : digitRun (ds ++ rest) = some (ds, rest) := by
  simp only [digitRun, takeWhile_isDigit hds hrest, dropWhile_isDigit hds hrest]
  rw [if_neg (by simp [hne])]

theorem wholePart_append {n : Numeral} (h : n.WellFormed) {rest : List Char}
    (hrest : EndsDigits rest) :
    wholePart (n.whole ++ rest) = some (n.whole, rest) := by
  have hzero : ¬(n.whole.head? = some '0' ∧ n.whole ≠ ['0']) :=
    fun hhead => hhead.2 (h.head hhead.1)
  simp only [wholePart, digitRun_append h.whole_ne (fun _ => h.whole) hrest, if_neg hzero]

theorem fractionPart_append {n : Numeral} (h : n.WellFormed) {rest : List Char}
    (hrest : EndsDigits rest) (hpoint : rest.head? ≠ some '.') :
    fractionPart (n.printFraction ++ rest) = some (n.fraction, rest) := by
  unfold Numeral.printFraction
  cases hfraction : n.fraction with
  | nil =>
    cases rest with
    | nil => rfl
    | cons c cs =>
      have hc : c ≠ '.' := by simpa using hpoint
      simp only [List.isEmpty_nil, if_true, List.nil_append]
      unfold fractionPart
      split
      · next heq => exact absurd (List.cons.inj heq).1 hc
      · rfl
  | cons d ds =>
    have hds : ∀ c ∈ d :: ds, c.isDigit = true := fun c hc => h.fraction (hfraction ▸ hc)
    exact digitRun_append (List.cons_ne_nil d ds) hds hrest

/-- An exponent without a sign begins with a digit, which is taken for no sign. -/
theorem exponentSign_digits {ds rest : List Char} (hne : ds ≠ [])
    (hds : ∀ c ∈ ds, c.isDigit = true) :
    exponentSign (ds ++ rest) = (false, ds ++ rest) := by
  obtain ⟨d, ds, rfl⟩ := List.exists_cons_of_ne_nil hne
  have hd := hds d List.mem_cons_self
  rw [List.cons_append]
  unfold exponentSign
  split
  · next heq =>
    rw [(List.cons.inj heq).1] at hd
    exact absurd hd (by decide)
  · next heq =>
    rw [(List.cons.inj heq).1] at hd
    exact absurd hd (by decide)
  · rfl

theorem exponentPart_spelled {exponent : Option (Bool × List Char)} {text rest : List Char}
    (h : ExponentSpelled exponent text)
    (hdigits : ∀ {minus ds}, exponent = some (minus, ds) → ds ≠ [] ∧ ∀ c ∈ ds, c.isDigit = true)
    (hrest : EndsNumber rest) :
    exponentPart (text ++ rest) = some (exponent, rest) := by
  cases h with
  | absent =>
    cases rest with
    | nil => rfl
    | cons c cs =>
      obtain ⟨_, _, he, hE⟩ := hrest c rfl
      simp [exponentPart, he, hE]
  | minus he | plus he =>
    obtain ⟨hne, hds⟩ := hdigits rfl
    simp [exponentPart, he, exponentSign, digitRun_append hne hds hrest.endsDigits]
  | plain he =>
    obtain ⟨hne, hds⟩ := hdigits rfl
    simp [exponentPart, he, exponentSign_digits hne hds,
      digitRun_append hne hds hrest.endsDigits]

theorem endsDigits_exponent {exponent : Option (Bool × List Char)} {text rest : List Char}
    (h : ExponentSpelled exponent text) (hrest : EndsNumber rest) :
    EndsDigits (text ++ rest) ∧ (text ++ rest).head? ≠ some '.' := by
  cases h with
  | absent => exact ⟨hrest.endsDigits, fun h => (hrest '.' h).2.1 rfl⟩
  | minus he | plus he | plain he =>
    rcases he with rfl | rfl
    · exact ⟨endsDigits_cons (by decide) _, by simp⟩
    · exact ⟨endsDigits_cons (by decide) _, by simp⟩

theorem endsDigits_fraction {n : Numeral} {rest : List Char} (hrest : EndsDigits rest) :
    EndsDigits (n.printFraction ++ rest) := by
  unfold Numeral.printFraction
  split
  · exact hrest
  · exact endsDigits_cons (by decide) _

theorem numeralAfterSign_append {n : Numeral} (h : n.WellFormed) {exponent rest : List Char}
    (hexponent : ExponentSpelled n.exponent exponent) (hrest : EndsNumber rest) :
    numeralAfterSign n.negative (n.whole ++ (n.printFraction ++ (exponent ++ rest))) =
      some (n, rest) := by
  obtain ⟨hends, hpoint⟩ := endsDigits_exponent hexponent hrest
  simp only [numeralAfterSign, wholePart_append h (endsDigits_fraction hends),
    fractionPart_append h hends hpoint, exponentPart_spelled hexponent h.exponent hrest]

theorem numeral_spelled {n : Numeral} {text : List Char} (h : n.Spelled text) {rest : List Char}
    (hrest : EndsNumber rest) :
    numeral (text ++ rest) = some (n, rest) := by
  obtain ⟨hn, exponent, hexponent, rfl⟩ := h
  have hread := numeralAfterSign_append hn hexponent hrest
  simp only [List.append_assoc]
  cases hsign : n.negative with
  | true =>
    rw [hsign] at hread
    exact hread
  | false =>
    rw [hsign] at hread
    obtain ⟨c, cs, hwhole⟩ := List.exists_cons_of_ne_nil hn.whole_ne
    have hc : c ≠ '-' := by
      have hdigit : c.isDigit = true := hn.whole (hwhole ▸ List.mem_cons_self)
      rintro rfl
      revert hdigit
      decide
    simp only [hwhole, List.cons_append] at hread ⊢
    unfold numeral
    split
    · next heq => exact absurd (List.cons.inj heq).1 hc
    · exact hread

/-! ## Strings -/

theorem pieces_spelled {ps : List Piece} {body : List Char} (h : PiecesSpelled ps body)
    (rest : List Char) : pieces (body ++ '"' :: rest) = some (ps, rest) := by
  induction h with
  | nil =>
    rw [List.nil_append, pieces.eq_def]
    rfl
  | cons hp _ ih =>
    rw [List.append_assoc]
    cases hp with
    | plain hquote hbackslash hprintable =>
      rw [List.cons_append, List.nil_append, pieces.eq_def]
      simp [hquote, hbackslash, hprintable, ih, Piece.before]
    | @named e c hnamed =>
      have hu : e ≠ 'u' := by
        rintro rfl
        cases hnamed
      simp only [List.cons_append, List.nil_append]
      rw [pieces.eq_def]
      simp [hu, hnamed, ih, Piece.before]
    | unit hfigures =>
      simp only [List.cons_append, List.nil_append]
      rw [pieces.eq_def]
      simp [hfigures, ih, Piece.before]

theorem isHighUnit_iff {n : Nat} : isHighUnit n = true ↔ 0xD800 ≤ n ∧ n ≤ 0xDBFF := by
  simp [isHighUnit]

theorem isLowUnit_iff {n : Nat} : isLowUnit n = true ↔ 0xDC00 ≤ n ∧ n ≤ 0xDFFF := by
  simp [isLowUnit]

theorem not_surrogate (c : Char) : ¬isHighUnit c.toNat ∧ ¬isLowUnit c.toNat := by
  have hbounds := toNat_bounds c
  rw [isHighUnit_iff, isLowUnit_iff]
  omega

theorem assemble_unit {n : Nat} (hhigh : ¬isHighUnit n) (hlow : ¬isLowUnit n) (ps : List Piece) :
    assemble (.unit n :: ps) = (assemble ps).map (Char.ofNat n :: ·) := by
  rcases ps with _ | ⟨_ | _, ps⟩ <;> simp [assemble, hhigh, hlow]

theorem assemble_of_denotes {ps : List Piece} {cs : List Char} (h : Denotes ps cs) :
    assemble ps = some cs := by
  induction h with
  | nil => rfl
  | char c _ ih => rw [assemble, ih, Option.map_some]
  | unit c _ _ ih =>
    obtain ⟨hhigh, hlow⟩ := not_surrogate c
    rw [assemble_unit hhigh hlow, ih, Option.map_some, Char.ofNat_toNat]
  | pair c hc _ ih =>
    have hbounds := toNat_bounds c
    have hhigh : isHighUnit (0xD800 + (c.toNat - 0x10000) / 0x400) = true :=
      isHighUnit_iff.2 (by omega)
    have hlow : isLowUnit (0xDC00 + (c.toNat - 0x10000) % 0x400) = true :=
      isLowUnit_iff.2 (by omega)
    have hnumber : 0x10000 + (0xD800 + (c.toNat - 0x10000) / 0x400 - 0xD800) * 0x400 +
        (0xDC00 + (c.toNat - 0x10000) % 0x400 - 0xDC00) = c.toNat := by omega
    rw [assemble, if_pos hhigh, if_pos hlow, ih, hnumber, Char.ofNat_toNat, Option.map_some]

theorem toNat_ofNat {n : Nat} (h : n.isValidChar) : (Char.ofNat n).toNat = n := by
  rw [Char.ofNat, dif_pos h]
  rfl

theorem Denotes.of_unit {n : Nat} {ps : List Piece} {cs : List Char} (hn : n < 0x10000)
    (hhigh : ¬isHighUnit n) (hlow : ¬isLowUnit n) (h : Denotes ps cs) :
    Denotes (.unit n :: ps) (Char.ofNat n :: cs) := by
  rw [isHighUnit_iff] at hhigh
  rw [isLowUnit_iff] at hlow
  have hvalid : n.isValidChar := by
    unfold Nat.isValidChar
    omega
  have hnumber := toNat_ofNat hvalid
  have hunit := Denotes.unit (Char.ofNat n) (by omega) h
  rwa [hnumber] at hunit

theorem Denotes.of_pair {hi lo : Nat} {ps : List Piece} {cs : List Char}
    (hhigh : isHighUnit hi = true) (hlow : isLowUnit lo = true) (h : Denotes ps cs) :
    Denotes (.unit hi :: .unit lo :: ps)
      (Char.ofNat (0x10000 + (hi - 0xD800) * 0x400 + (lo - 0xDC00)) :: cs) := by
  rw [isHighUnit_iff] at hhigh
  rw [isLowUnit_iff] at hlow
  generalize hn : 0x10000 + (hi - 0xD800) * 0x400 + (lo - 0xDC00) = n
  have hvalid : n.isValidChar := by
    unfold Nat.isValidChar
    omega
  have hnumber := toNat_ofNat hvalid
  have hpair := Denotes.pair (Char.ofNat n) (by omega) h
  have hhi : 0xD800 + (n - 0x10000) / 0x400 = hi := by omega
  have hlo : 0xDC00 + (n - 0x10000) % 0x400 = lo := by omega
  rwa [hnumber, hhi, hlo] at hpair

/-- What is assembled from units of sixteen bits is what they denote. -/
theorem denotes_of_assemble {ps : List Piece} (hunits : ∀ n, .unit n ∈ ps → n < 0x10000)
    {cs : List Char} (h : assemble ps = some cs) : Denotes ps cs := by
  induction ps using assemble.induct generalizing cs with
  | case1 =>
    cases h
    exact .nil
  | case2 c ps ih =>
    rw [assemble, Option.map_eq_some_iff] at h
    obtain ⟨cs, hcs, rfl⟩ := h
    exact .char c (ih (fun n hn => hunits n (List.mem_cons_of_mem _ hn)) hcs)
  | case3 hi lo ps hhigh hlow ih =>
    rw [assemble, if_pos hhigh, if_pos hlow, Option.map_eq_some_iff] at h
    obtain ⟨cs, hcs, rfl⟩ := h
    exact .of_pair hhigh hlow (ih (fun n hn => hunits n (by simp [hn])) hcs)
  | case4 hi lo ps hhigh hlow =>
    rw [assemble, if_pos hhigh, if_neg hlow] at h
    cases h
  | case5 hi lo ps hhigh hlow =>
    rw [assemble, if_neg hhigh, if_pos hlow] at h
    cases h
  | case6 hi lo ps hhigh hlow ih =>
    rw [assemble_unit hhigh hlow, Option.map_eq_some_iff] at h
    obtain ⟨cs, hcs, rfl⟩ := h
    exact .of_unit (hunits hi List.mem_cons_self) hhigh hlow
      (ih (fun n hn => hunits n (List.mem_cons_of_mem _ hn)) hcs)
  | case7 n ps hps hhalf =>
    rw [assemble.eq_def] at h
    simp [hhalf] at h
  | case8 n ps hps hwhole ih =>
    obtain ⟨hhigh, hlow⟩ : ¬isHighUnit n ∧ ¬isLowUnit n := by simpa using hwhole
    rw [assemble_unit hhigh hlow, Option.map_eq_some_iff] at h
    obtain ⟨cs, hcs, rfl⟩ := h
    exact .of_unit (hunits n List.mem_cons_self) hhigh hlow
      (ih (fun n hn => hunits n (List.mem_cons_of_mem _ hn)) hcs)

theorem fourFigures?_lt {p q r s : Char} {n : Nat} (h : fourFigures? p q r s = some n) :
    n < 0x10000 := by
  obtain ⟨-, ds, hds, rfl⟩ := (Text.digits?_eq_some_iff (by decide)).1 h
  have hlt {c : Char} {d : Nat} (hd : Text.IsDigit 16 c d) : d < 16 := hd.1
  cases hds with
  | cons ha hds => cases hds with
  | cons hb hds => cases hds with
  | cons hc hds => cases hds with
  | cons hd hds =>
    cases hds
    have ha := hlt ha
    have hb := hlt hb
    have hc := hlt hc
    have hd := hlt hd
    simp only [List.foldl_cons, List.foldl_nil]
    omega

theorem PiecesSpelled.units_lt {ps : List Piece} {body : List Char} (h : PiecesSpelled ps body) :
    ∀ n, .unit n ∈ ps → n < 0x10000 := by
  induction h with
  | nil => exact fun n hn => absurd hn List.not_mem_nil
  | cons hp _ ih =>
    intro n hn
    rcases List.mem_cons.1 hn with rfl | hn
    · cases hp with
      | unit hfigures => exact fourFigures?_lt hfigures
    · exact ih n hn

/-- What is read behind the opening quote of a string. -/
theorem stringBody_spelled {s : Option String} {text : List Char} (h : StringSpelled s text) :
    ∃ body, text = '"' :: body ∧ ∀ rest, stringBody (body ++ rest) = some (s, rest) := by
  cases h with
  | @text s ps body hps hs =>
    refine ⟨_, rfl, fun rest => ?_⟩
    rw [List.append_assoc, stringBody, List.singleton_append, pieces_spelled hps]
    simp [assemble_of_denotes hs]
  | @torn ps body hps hs =>
    have hnone : assemble ps = none := by
      by_contra hsome
      obtain ⟨cs, hcs⟩ := Option.ne_none_iff_exists'.1 hsome
      exact hs cs (denotes_of_assemble hps.units_lt hcs)
    refine ⟨_, rfl, fun rest => ?_⟩
    rw [List.append_assoc, stringBody, List.singleton_append, pieces_spelled hps]
    simp [hnone]

/-! ## Blanks -/

theorem skip_cons {c : Char} (h : isSpace c = false) (cs : List Char) :
    skip (c :: cs) = c :: cs := by
  simp [skip, h]

theorem skip_spaces {before : List Char} (h : Spaces before) (cs : List Char) :
    skip (before ++ cs) = skip cs :=
  List.dropWhile_append_of_pos h

/-- A sign of punctuation is found behind blanks. -/
theorem skip_to {before : List Char} (h : Spaces before) {c : Char} (hc : isSpace c = false)
    (cs : List Char) : skip (before ++ c :: cs) = c :: cs := by
  rw [skip_spaces h, skip_cons hc]

theorem value_spaces {before : List Char} (h : Spaces before) (fuel : Nat) (cs : List Char) :
    value fuel (before ++ cs) = value fuel cs := by
  cases fuel with
  | zero => rw [value, value]
  | succ fuel => rw [value, value, skip_spaces h]

theorem exists_spaces (cs : List Char) : ∃ before, Spaces before ∧ cs = before ++ skip cs :=
  ⟨cs.takeWhile isSpace, fun _ => List.mem_takeWhile_imp, List.takeWhile_append_dropWhile.symm⟩

theorem items_skip (fuel : Nat) (cs : List Char) : items fuel (skip cs) = items fuel cs := by
  obtain ⟨before, hbefore, hcs⟩ := exists_spaces cs
  conv_rhs => rw [hcs]
  cases fuel with
  | zero => rw [items, items]
  | succ fuel => rw [items, items, value_spaces hbefore]

theorem members_skip (fuel : Nat) (cs : List Char) : members fuel (skip cs) = members fuel cs := by
  obtain ⟨before, hbefore, hcs⟩ := exists_spaces cs
  conv_rhs => rw [hcs]
  cases fuel with
  | zero => rw [members, members]
  | succ fuel => rw [members, members, skip_spaces hbefore]

theorem skip_eq_nil_iff {cs : List Char} : skip cs = [] ↔ Spaces cs :=
  List.dropWhile_eq_nil_iff

theorem endsNumber_nil : EndsNumber [] := fun _ h => by cases h

theorem endsNumber_cons {c : Char} (h : c = ',' ∨ c = ']' ∨ c = '\x7d') (cs : List Char) :
    EndsNumber (c :: cs) := by
  intro d hd
  cases hd
  rcases h with rfl | rfl | rfl <;> decide

theorem endsNumber_spaces {after : List Char} (h : Spaces after) {rest : List Char}
    (hrest : EndsNumber rest) : EndsNumber (after ++ rest) := by
  cases after with
  | nil => exact hrest
  | cons c after =>
    intro d hd
    cases hd
    have hspace := h c List.mem_cons_self
    simp only [isSpace, Bool.or_eq_true, decide_eq_true_eq] at hspace
    rcases hspace with ((rfl | rfl) | rfl) | rfl <;> decide

/-! ## Values -/

theorem ne_of_numeral {c d : Char} (h : c = '-' ∨ c.isDigit = true) (hsign : d ≠ '-')
    (hdigit : d.isDigit = false) :
    c ≠ d := by
  rintro rfl
  rcases h with h | h
  · exact hsign h
  · rw [hdigit] at h
    cases h

theorem isSpace_of_numeral {c : Char} (h : c = '-' ∨ c.isDigit = true) : isSpace c = false := by
  have h₁ : c ≠ ' ' := ne_of_numeral h (by decide) (by decide)
  have h₂ : c ≠ '\n' := ne_of_numeral h (by decide) (by decide)
  have h₃ : c ≠ '\t' := ne_of_numeral h (by decide) (by decide)
  have h₄ : c ≠ '\r' := ne_of_numeral h (by decide) (by decide)
  simp [isSpace, h₁, h₂, h₃, h₄]

theorem Numeral.Spelled.head {n : Numeral} {text : List Char} (h : n.Spelled text) :
    ∃ c cs, text = c :: cs ∧ (c = '-' ∨ c.isDigit = true) := by
  obtain ⟨hn, exponent, -, rfl⟩ := h
  cases n.negative with
  | true => exact ⟨'-', _, rfl, .inl rfl⟩
  | false =>
    obtain ⟨c, cs, hwhole⟩ := List.exists_cons_of_ne_nil hn.whole_ne
    refine ⟨c, cs ++ (n.printFraction ++ exponent), ?_,
      .inr (hn.whole (hwhole ▸ List.mem_cons_self))⟩
    rw [hwhole]
    rfl

/-- What begins like a number is read as a number or not at all, whatever comes behind it. -/
theorem value_numeral {n : Numeral} {text : List Char} (h : n.Spelled text) (fuel : Nat)
    (rest : List Char) :
    value (fuel + 1) (text ++ rest) =
      (numeral (text ++ rest)).map fun (n, rest) => (.number n, rest) := by
  obtain ⟨c, cs, rfl, hc⟩ := h.head
  have h₁ : c ≠ '"' := ne_of_numeral hc (by decide) (by decide)
  have h₂ : c ≠ '[' := ne_of_numeral hc (by decide) (by decide)
  have h₃ : c ≠ '\x7b' := ne_of_numeral hc (by decide) (by decide)
  have h₄ : c ≠ 'n' := ne_of_numeral hc (by decide) (by decide)
  have h₅ : c ≠ 't' := ne_of_numeral hc (by decide) (by decide)
  have h₆ : c ≠ 'f' := ne_of_numeral hc (by decide) (by decide)
  rw [List.cons_append]
  simp only [value, skip_cons (isSpace_of_numeral hc), h₁, h₂, h₃, h₄, h₅, h₆, if_false]

theorem value_string {s : Option String} {text : List Char} (h : StringSpelled s text) (fuel : Nat)
    (rest : List Char) :
    value (fuel + 1) (text ++ rest) = some (.string s, rest) := by
  obtain ⟨body, rfl, hread⟩ := stringBody_spelled h
  rw [List.cons_append, value, skip_cons (by decide)]
  simp [hread]

/-- Nothing is read where an array is closed. -/
theorem value_opens {fuel : Nat} {cs : List Char} {r : Tree × List Char}
    (h : value fuel cs = some r) : ∃ c rest, skip cs = c :: rest ∧ c ≠ ']' := by
  cases fuel with
  | zero => rw [value] at h; cases h
  | succ fuel =>
    rw [value] at h
    cases hskip : skip cs with
    | nil => rw [hskip] at h; cases h
    | cons c rest =>
      refine ⟨c, rest, rfl, ?_⟩
      rintro rfl
      rw [hskip] at h
      simp [numeral, numeralAfterSign, wholePart, digitRun] at h

theorem items_opens {fuel : Nat} {cs : List Char} {r : List Tree × List Char}
    (h : items fuel cs = some r) : ∃ c rest, skip cs = c :: rest ∧ c ≠ ']' := by
  cases fuel with
  | zero => rw [items] at h; cases h
  | succ fuel =>
    rw [items] at h
    cases hvalue : value fuel cs with
    | none => rw [hvalue] at h; cases h
    | some r => exact value_opens hvalue

theorem items_last {t : Tree} {fuel : Nat} {cs after rest : List Char} (hafter : Spaces after)
    (hvalue : value fuel cs = some (t, after ++ ']' :: rest)) :
    items (fuel + 1) cs = some ([t], rest) := by
  simp [items, hvalue, skip_to hafter (show isSpace ']' = false by decide)]

theorem items_more {t : Tree} {ts : List Tree} {fuel : Nat} {cs after more rest : List Char}
    (hafter : Spaces after) (hvalue : value fuel cs = some (t, after ++ ',' :: more))
    (hitems : items fuel more = some (ts, rest)) :
    items (fuel + 1) cs = some (t :: ts, rest) := by
  simp [items, hvalue, skip_to hafter (show isSpace ',' = false by decide), hitems]

theorem value_array {ts : List Tree} {fuel : Nat} {cs rest : List Char}
    (hitems : items fuel cs = some (ts, rest)) :
    value (fuel + 1) ('[' :: cs) = some (.array ts, rest) := by
  obtain ⟨c, more, hskip, hc⟩ := items_opens hitems
  rw [← items_skip, hskip] at hitems
  simp [value, skip_cons (show isSpace '[' = false by decide), hskip, hc, hitems]

theorem member_spelled {k : Option String} {t : Tree} {fuel : Nat}
    {key after more rest : List Char} (hkey : StringSpelled k key) (hafter : Spaces after)
    (hvalue : value fuel more = some (t, rest)) :
    member (fuel + 1) (key ++ (after ++ ':' :: more)) = some ((k, t), rest) := by
  obtain ⟨body, rfl, hread⟩ := stringBody_spelled hkey
  rw [List.cons_append, member]
  simp [hread, skip_to hafter (show isSpace ':' = false by decide), hvalue]

/-- Nothing but a string is read as the key of a member. -/
theorem member_opens {fuel : Nat} {cs : List Char} {r : (Option String × Tree) × List Char}
    (h : member fuel cs = some r) : ∃ rest, cs = '"' :: rest := by
  cases fuel with
  | zero => rw [member] at h; cases h
  | succ fuel =>
    rw [member.eq_def] at h
    cases cs with
    | nil => cases h
    | cons c rest =>
      by_cases hc : c = '"'
      · exact ⟨rest, hc ▸ rfl⟩
      · simp [hc] at h

theorem members_last {m : Option String × Tree} {fuel : Nat} {cs after rest : List Char}
    (hafter : Spaces after)
    (hmember : member fuel (skip cs) = some (m, after ++ '\x7d' :: rest)) :
    members (fuel + 1) cs = some ([m], rest) := by
  simp [members, hmember, skip_to hafter (show isSpace '\x7d' = false by decide)]

theorem members_more {m : Option String × Tree} {ms : List (Option String × Tree)} {fuel : Nat}
    {cs after more rest : List Char} (hafter : Spaces after)
    (hmember : member fuel (skip cs) = some (m, after ++ ',' :: more))
    (hmembers : members fuel more = some (ms, rest)) :
    members (fuel + 1) cs = some (m :: ms, rest) := by
  simp [members, hmember, skip_to hafter (show isSpace ',' = false by decide), hmembers]

theorem members_opens {fuel : Nat} {cs : List Char}
    {r : List (Option String × Tree) × List Char} (h : members fuel cs = some r) :
    ∃ rest, skip cs = '"' :: rest := by
  cases fuel with
  | zero => rw [members] at h; cases h
  | succ fuel =>
    rw [members] at h
    cases hmember : member fuel (skip cs) with
    | none => rw [hmember] at h; cases h
    | some r => exact member_opens hmember

theorem value_object {ms : List (Option String × Tree)} {fuel : Nat} {cs rest : List Char}
    (hmembers : members fuel cs = some (ms, rest)) :
    value (fuel + 1) ('\x7b' :: cs) = some (.object ms, rest) := by
  obtain ⟨more, hskip⟩ := members_opens hmembers
  rw [← members_skip, hskip] at hmembers
  simp [value, skip_cons (show isSpace '\x7b' = false by decide), hskip, hmembers]

/-- A key with blanks around it is found behind them. -/
theorem skip_key {k : Option String} {before key : List Char} (hbefore : Spaces before)
    (hkey : StringSpelled k key) (cs : List Char) : skip (before ++ (key ++ cs)) = key ++ cs := by
  obtain ⟨body, rfl, -⟩ := stringBody_spelled hkey
  exact skip_to hbefore (by decide) _

mutual

/-- A spelled value is read, given two units of fuel for each of its characters. -/
theorem value_spelled :
    ∀ (t : Tree) {text : List Char}, t.Spelled text → ∀ (fuel : Nat) (rest : List Char),
      2 * text.length ≤ fuel + 1 → (∀ n, t = .number n → EndsNumber rest) →
        value fuel (text ++ rest) = some (t, rest)
  | .null, _, rfl, fuel, rest, hfuel, _ => by
    obtain ⟨fuel, rfl⟩ : ∃ n, fuel = n + 1 := ⟨fuel - 1, by simp [Tree.print] at hfuel; omega⟩
    rfl
  | .bool true, _, rfl, fuel, rest, hfuel, _ => by
    obtain ⟨fuel, rfl⟩ : ∃ n, fuel = n + 1 := ⟨fuel - 1, by simp [Tree.print] at hfuel; omega⟩
    rfl
  | .bool false, _, rfl, fuel, rest, hfuel, _ => by
    obtain ⟨fuel, rfl⟩ : ∃ n, fuel = n + 1 := ⟨fuel - 1, by simp [Tree.print] at hfuel; omega⟩
    rfl
  | .number n, text, h, fuel, rest, hfuel, hrest => by
    obtain ⟨c, cs, rfl, -⟩ := Numeral.Spelled.head h
    obtain ⟨fuel, rfl⟩ : ∃ n, fuel = n + 1 :=
      ⟨fuel - 1, by rw [List.length_cons] at hfuel; omega⟩
    rw [value_numeral h, numeral_spelled h (hrest n rfl), Option.map_some]
  | .string s, text, h, fuel, rest, hfuel, _ => by
    obtain ⟨body, rfl, -⟩ := stringBody_spelled h
    obtain ⟨fuel, rfl⟩ : ∃ n, fuel = n + 1 :=
      ⟨fuel - 1, by rw [List.length_cons] at hfuel; omega⟩
    exact value_string h fuel rest
  | .array [], text, h, fuel, rest, hfuel, _ => by
    obtain ⟨inner, hinner, rfl⟩ := h
    obtain ⟨fuel, rfl⟩ : ∃ n, fuel = n + 1 :=
      ⟨fuel - 1, by rw [List.length_cons] at hfuel; omega⟩
    simp [value, skip_cons (show isSpace '[' = false by decide),
      skip_to hinner (show isSpace ']' = false by decide)]
  | .array (t :: ts), text, h, fuel, rest, hfuel, _ => by
    obtain ⟨inner, ⟨item, more, hitem, hmore, rfl⟩, rfl⟩ := h
    simp only [List.length_cons, List.length_append, List.length_nil] at hfuel
    obtain ⟨fuel, rfl⟩ : ∃ n, fuel = n + 1 := ⟨fuel - 1, by omega⟩
    have hitems := items_spelled t ts hitem hmore fuel rest (by omega)
    simpa using value_array hitems
  | .object [], text, h, fuel, rest, hfuel, _ => by
    obtain ⟨inner, hinner, rfl⟩ := h
    obtain ⟨fuel, rfl⟩ : ∃ n, fuel = n + 1 :=
      ⟨fuel - 1, by rw [List.length_cons] at hfuel; omega⟩
    simp [value, skip_cons (show isSpace '\x7b' = false by decide),
      skip_to hinner (show isSpace '\x7d' = false by decide)]
  | .object ((k, t) :: ms), text, h, fuel, rest, hfuel, _ => by
    obtain ⟨inner, ⟨key, item, more, hkey, hitem, hmore, rfl⟩, rfl⟩ := h
    simp only [List.length_cons, List.length_append, List.length_nil] at hfuel
    obtain ⟨fuel, rfl⟩ : ∃ n, fuel = n + 1 := ⟨fuel - 1, by omega⟩
    have hmembers := members_spelled k t ms hkey hitem hmore fuel rest (by omega)
    simpa using value_object hmembers
termination_by t => sizeOf t

theorem items_spelled :
    ∀ (t : Tree) (ts : List Tree) {item more : List Char}, Padded t.Spelled item →
      moreItemsSpelled ts more → ∀ (fuel : Nat) (rest : List Char),
        2 * (item.length + more.length + 1) ≤ fuel →
          items fuel (item ++ (more ++ ']' :: rest)) = some (t :: ts, rest)
  | t, [], item, more, hitem, hmore, fuel, rest, hfuel => by
    obtain ⟨before, text, after, hbefore, htext, hafter, rfl⟩ := hitem
    cases hmore
    simp only [List.length_append, List.length_nil] at hfuel
    obtain ⟨fuel, rfl⟩ : ∃ n, fuel = n + 1 := ⟨fuel - 1, by omega⟩
    have hvalue := value_spelled t htext fuel (after ++ ']' :: rest) (by omega)
      fun _ _ => endsNumber_spaces hafter (endsNumber_cons (.inr (.inl rfl)) rest)
    rw [← value_spaces hbefore] at hvalue
    simpa using items_last hafter hvalue
  | t, t' :: ts, item, more, hitem, hmore, fuel, rest, hfuel => by
    obtain ⟨before, text, after, hbefore, htext, hafter, rfl⟩ := hitem
    obtain ⟨item, more, hitem, hmore, rfl⟩ := hmore
    simp only [List.length_append, List.length_cons] at hfuel
    obtain ⟨fuel, rfl⟩ : ∃ n, fuel = n + 1 := ⟨fuel - 1, by omega⟩
    have hitems := items_spelled t' ts hitem hmore fuel rest (by omega)
    have hvalue := value_spelled t htext fuel (after ++ ',' :: (item ++ (more ++ ']' :: rest)))
      (by omega) fun _ _ => endsNumber_spaces hafter (endsNumber_cons (.inl rfl) _)
    rw [← value_spaces hbefore] at hvalue
    simpa using items_more hafter hvalue hitems
termination_by t ts => 1 + sizeOf t + sizeOf ts

theorem members_spelled :
    ∀ (k : Option String) (t : Tree) (ms : List (Option String × Tree)) {key item more : List Char},
      Padded (StringSpelled k) key → Padded t.Spelled item → moreMembersSpelled ms more →
        ∀ (fuel : Nat) (rest : List Char),
          2 * (key.length + item.length + more.length + 1) ≤ fuel →
            members fuel (key ++ ':' :: (item ++ (more ++ '\x7d' :: rest))) =
              some ((k, t) :: ms, rest)
  | k, t, [], key, item, more, hkey, hitem, hmore, fuel, rest, hfuel => by
    obtain ⟨b, key, a, hb, hkey, ha, rfl⟩ := hkey
    obtain ⟨before, text, after, hbefore, htext, hafter, rfl⟩ := hitem
    cases hmore
    simp only [List.length_append, List.length_nil] at hfuel
    obtain ⟨fuel, rfl⟩ : ∃ n, fuel = n + 2 := ⟨fuel - 2, by omega⟩
    have hvalue := value_spelled t htext fuel (after ++ '\x7d' :: rest) (by omega)
      fun _ _ => endsNumber_spaces hafter (endsNumber_cons (.inr (.inr rfl)) rest)
    rw [← value_spaces hbefore] at hvalue
    have hmember := member_spelled hkey ha hvalue
    rw [← skip_key hb hkey] at hmember
    simpa using members_last hafter hmember
  | k, t, (k', t') :: ms, key, item, more, hkey, hitem, hmore, fuel, rest, hfuel => by
    obtain ⟨b, key, a, hb, hkey, ha, rfl⟩ := hkey
    obtain ⟨before, text, after, hbefore, htext, hafter, rfl⟩ := hitem
    obtain ⟨key', item, more, hkey', hitem, hmore, rfl⟩ := hmore
    simp only [List.length_append, List.length_cons] at hfuel
    obtain ⟨fuel, rfl⟩ : ∃ n, fuel = n + 2 := ⟨fuel - 2, by omega⟩
    have hmembers := members_spelled k' t' ms hkey' hitem hmore (fuel + 1) rest (by omega)
    have hvalue := value_spelled t htext fuel
      (after ++ ',' :: (key' ++ ':' :: (item ++ (more ++ '\x7d' :: rest)))) (by omega)
      fun _ _ => endsNumber_spaces hafter (endsNumber_cons (.inl rfl) _)
    rw [← value_spaces hbefore] at hvalue
    have hmember := member_spelled hkey ha hvalue
    rw [← skip_key hb hkey] at hmember
    simpa using members_more hafter hmember hmembers
termination_by _ t ms => 1 + sizeOf t + sizeOf ms

end

/-! ## Texts -/

/-- A spelled text is read as what it spells, whatever blanks are around it. -/
theorem Tree.SpelledBy.ofText? {t : Tree} {s : String} (h : t.SpelledBy s) :
    Tree.ofText? s = some t := by
  obtain ⟨before, text, after, hbefore, htext, hafter, hs⟩ := h
  have hends : EndsNumber after := List.append_nil after ▸ endsNumber_spaces hafter endsNumber_nil
  have hread := value_spelled t htext (2 * s.toList.length + 1) after
    (by rw [hs]; simp only [List.length_append]; omega) fun _ _ => hends
  rw [← value_spaces hbefore, ← hs] at hread
  rw [Tree.ofText?, ofChars?, hread]
  simp [skip_eq_nil_iff.2 hafter]

/-- Behind a value, anything but blanks makes a text unreadable, unless it goes on with a number. -/
theorem Tree.ofText?_of_rest {t : Tree} {s : String} {before text rest : List Char}
    (hs : s.toList = before ++ (text ++ rest)) (hbefore : Spaces before) (htext : t.Spelled text)
    (hrest : ¬Spaces rest) :
    Tree.ofText? s = none ∨ ∃ n, Tree.ofText? s = some (.number n) := by
  rw [Tree.ofText?, ofChars?]
  by_cases hnumber : ∃ n, t = .number n
  · obtain ⟨n, rfl⟩ := hnumber
    rw [hs, value_spaces hbefore, value_numeral htext]
    rcases numeral (text ++ rest) with _ | ⟨n', rest'⟩
    · exact .inl rfl
    · by_cases hend : (skip rest').isEmpty
      · exact .inr ⟨n', by simp [hend]⟩
      · exact .inl (by simp [hend])
  · have hread := value_spelled t htext (2 * s.toList.length + 1) rest
      (by rw [hs]; simp only [List.length_append]; omega) fun n hn => absurd ⟨n, hn⟩ hnumber
    rw [← value_spaces hbefore, ← hs] at hread
    rw [hread]
    exact .inl (by simp [skip_eq_nil_iff, hrest])

/-- The text of a tree is read as the tree. -/
theorem Tree.ofText?_toText {t : Tree} (h : t.WellFormed) : Tree.ofText? t.toText = some t := by
  have hspelled := Padded.of_bare (Tree.spelled_print h)
  refine SpelledBy.ofText? ?_
  rwa [SpelledBy, toText, String.toList_ofList]

end ProjectRegistry.Json
