import Mathlib.Data.List.Induction
import ProjectRegistry.Proofs.Text.Digits
import ProjectRegistry.Proofs.Text.Utf8
import ProjectRegistry.Text.Hex

/-!
# Rows of hexadecimal figures

A row of figures is read two at a time, whichever case they have, and what was read is written with
the same figures in lower case. So a text is read exactly if it is an even number of figures, and no
other text is written like what was read. Where a byte is no figure, all bytes before it are, for
each pair was read before the next one.
-/

namespace ProjectRegistry.Text.Hex

/-- The figures of hexadecimal numbers, in either case. -/
def IsFigure (c : Char) : Prop :=
  '0' ≤ c ∧ c ≤ '9' ∨ 'a' ≤ c ∧ c ≤ 'f' ∨ 'A' ≤ c ∧ c ≤ 'F'

instance : DecidablePred IsFigure := fun _ => inferInstanceAs (Decidable (_ ∨ _))

/-- The character that a byte stands for by itself. -/
def charOf (b : UInt8) : Char := Char.ofNat b.toNat

theorem isFigure_iff_toNat {c : Char} : IsFigure c ↔
    48 ≤ c.toNat ∧ c.toNat ≤ 57 ∨ 97 ≤ c.toNat ∧ c.toNat ≤ 102 ∨ 65 ≤ c.toNat ∧ c.toNat ≤ 70 :=
  Iff.rfl

theorem isFigure_iff {c : Char} : IsFigure c ↔ ∃ d, IsDigit 16 c d := by
  have hread : (∃ d, digit? 16 c = some d) ↔ IsFigure c := by
    simp only [isFigure_iff_toNat, digit?, Bool.and_eq_true, decide_eq_true_eq,
      Option.ite_none_right_eq_some, Option.some.injEq, exists_and_left, exists_eq', and_true]
    split_ifs <;> omega
  rw [← hread]
  exact exists_congr fun d => digit?_eq_some_iff (Nat.le_refl 16)

theorem toNat_charOf (b : UInt8) : (charOf b).toNat = b.toNat := by
  have hvalid : b.toNat.isValidChar := .inl (Nat.lt_trans b.toNat_lt (by decide))
  rw [charOf, Char.ofNat, dif_pos hvalid]
  rfl

theorem figure?_eq_some_iff {b : UInt8} {d : Nat} :
    figure? b = some d ↔ IsDigit 16 (charOf b) d :=
  digit?_eq_some_iff (Nat.le_refl 16)

theorem figure?_eq_none_iff {b : UInt8} : figure? b = none ↔ ¬IsFigure (charOf b) := by
  rw [isFigure_iff, Option.eq_none_iff_forall_ne_some, not_exists]
  exact forall_congr' fun d => not_congr figure?_eq_some_iff

theorem exists_figure {b : UInt8} (h : IsFigure (charOf b)) :
    ∃ d, figure? b = some d ∧ d < 16 ∧ (charOf b).toLower = d.digitChar := by
  have hlower : ∀ d < 16, d.digitChar.toLower = d.digitChar ∧
      d.digitChar.toUpper.toLower = d.digitChar := by decide
  obtain ⟨d, hdigit⟩ := isFigure_iff.1 h
  refine ⟨d, figure?_eq_some_iff.2 hdigit, hdigit.1, ?_⟩
  rcases hdigit.2 with hc | hc
  · rw [hc, (hlower d hdigit.1).1]
  · rw [hc, (hlower d hdigit.1).2]

theorem ofByte_of_values {x y : Nat} (hx : x < 16) (hy : y < 16) :
    ofByte (UInt8.ofNat (x * 16 + y)) = [x.digitChar, y.digitChar] := by
  have hbyte : (UInt8.ofNat (x * 16 + y)).toNat = x * 16 + y := by
    rw [UInt8.toNat_ofNat', Nat.mod_eq_of_lt]
    omega
  rw [ofByte, hbyte, show (x * 16 + y) / 16 = x by omega, show (x * 16 + y) % 16 = y by omega]

/-- Pairs of figures are all read, and what was read is written in lower case. -/
theorem pairsFrom_figures {bytes : List UInt8} (heven : bytes.length % 2 = 0)
    (h : ∀ b ∈ bytes, IsFigure (charOf b)) (position : Nat) :
    ∃ read, pairsFrom position bytes = .ok read ∧
      read.flatMap ofByte = bytes.map fun b => (charOf b).toLower := by
  induction bytes using List.twoStepInduction generalizing position with
  | nil => exact ⟨[], rfl, rfl⟩
  | singleton b => cases heven
  | cons_cons b b' rest ih _ =>
    obtain ⟨x, hx, hx16, hxlower⟩ := exists_figure (h b List.mem_cons_self)
    obtain ⟨y, hy, hy16, hylower⟩ := exists_figure (h b' (by simp))
    obtain ⟨read, hread, hwritten⟩ := ih (by simpa [Nat.add_assoc] using heven)
      (fun c hc => h c (by simp [hc])) (position + 2)
    refine ⟨UInt8.ofNat (x * 16 + y) :: read, ?_, ?_⟩
    · simp only [pairsFrom, hx, hy, hread]
    · rw [List.flatMap_cons, ofByte_of_values hx16 hy16, hwritten, List.map_cons, List.map_cons,
        hxlower, hylower]
      rfl

/-- The first byte that is no figure is the one that is refused. -/
theorem pairsFrom_of_first {before after : List UInt8} {b : UInt8}
    (heven : (before ++ b :: after).length % 2 = 0) (hbefore : ∀ c ∈ before, IsFigure (charOf c))
    (hb : ¬IsFigure (charOf b)) (position : Nat) :
    pairsFrom position (before ++ b :: after) =
      .error (.badByte b (position + before.length)) := by
  have hnone := figure?_eq_none_iff.2 hb
  induction before using List.twoStepInduction generalizing position with
  | nil =>
    cases after with
    | nil => cases heven
    | cons c after => simp only [List.nil_append, pairsFrom, hnone, List.length_nil, Nat.add_zero]
  | singleton c =>
    obtain ⟨x, hx, -⟩ := exists_figure (hbefore c List.mem_cons_self)
    simp only [List.singleton_append, pairsFrom, hx, hnone, List.length_singleton]
  | cons_cons c c' rest ih _ =>
    obtain ⟨x, hx, -⟩ := exists_figure (hbefore c List.mem_cons_self)
    obtain ⟨y, hy, -⟩ := exists_figure (hbefore c' (by simp))
    have hrest := ih (by simp only [List.length_append, List.length_cons] at heven ⊢; omega)
      (fun d hd => hbefore d (by simp [hd])) (position + 2)
    simp only [List.cons_append, pairsFrom, hx, hy, hrest, List.length_cons]
    rw [show position + 2 + rest.length = position + (rest.length + 1 + 1) by omega]

/-! ## Texts -/

/-- Whether a text is made of figures alone. -/
def IsRow (s : String) : Prop := ∀ c ∈ s.toList, IsFigure c

theorem toList_toLower (s : String) : s.toLower.toList = s.toList.map Char.toLower :=
  String.toList_map

theorem toNat_lt_of_isFigure {c : Char} (h : IsFigure c) : c.toNat < 128 := by
  rw [isFigure_iff_toNat] at h
  omega

/-- Figures are bytes of their own. -/
theorem utf8_of_isRow {s : String} (h : IsRow s) :
    utf8 s = s.toList.map fun c => UInt8.ofNat c.toNat := by
  rw [List.map_eq_flatMap, utf8, List.flatMap_def, List.flatMap_def]
  exact congrArg List.flatten (List.map_congr_left fun c hc =>
    utf8EncodeChar_of_lt (toNat_lt_of_isFigure (h c hc)))

theorem charOf_ofNat {c : Char} (h : c.toNat < 128) : charOf (UInt8.ofNat c.toNat) = c := by
  rw [charOf, toNat_ofNat_of_lt h, Char.ofNat_toNat]

/-- A text is made of figures if its bytes are. -/
theorem isRow_iff_utf8 {s : String} : IsRow s ↔ ∀ b ∈ utf8 s, IsFigure (charOf b) := by
  constructor
  · intro h b hb
    rw [utf8_of_isRow h] at hb
    obtain ⟨c, hc, rfl⟩ := List.mem_map.1 hb
    rw [charOf_ofNat (toNat_lt_of_isFigure (h c hc))]
    exact h c hc
  · intro h c hc
    obtain ⟨b, bs, hbytes⟩ := List.exists_cons_of_ne_nil (String.utf8EncodeChar_ne_nil (c := c))
    have hb : b ∈ String.utf8EncodeChar c := hbytes ▸ List.mem_cons_self
    have hfigure := h b (List.mem_flatMap.2 ⟨c, hc, hb⟩)
    have hsmall : b.toNat < 128 := toNat_charOf b ▸ toNat_lt_of_isFigure hfigure
    have hsame : c = charOf b := by
      rw [← Char.toNat_inj, toNat_charOf, toNat_of_mem_utf8EncodeChar hb hsmall]
    rwa [hsame]

/-- Why a text is no row of bytes: it has an odd number of bytes, or else its first byte that is no
figure. -/
inductive Flawed (s : String) : Fault → Prop where
  | oddLength : (utf8 s).length % 2 = 1 → Flawed s .oddLength
  | badByte {before after : List UInt8} {b : UInt8} : (utf8 s).length % 2 = 0 →
    utf8 s = before ++ b :: after → (∀ c ∈ before, IsFigure (charOf c)) →
    ¬IsFigure (charOf b) → Flawed s (.badByte b before.length)

theorem decode_of_flawed {s : String} {fault : Fault} (h : Flawed s fault) :
    decode s = .error fault := by
  cases h with
  | oddLength hodd => exact if_pos hodd
  | badByte heven hbytes hbefore hb =>
    rw [hbytes] at heven
    rw [decode, hbytes, if_neg (by omega), pairsFrom_of_first heven hbefore hb, Nat.zero_add]

theorem decode_of_isRow {s : String} (h : IsRow s) (heven : s.length % 2 = 0) :
    ∃ bytes, decode s = .ok bytes ∧ encode bytes = s.toLower := by
  have hbytes := utf8_of_isRow h
  have heven' : (utf8 s).length % 2 = 0 := by
    rwa [hbytes, List.length_map, String.length_toList]
  obtain ⟨bytes, hread, hwritten⟩ := pairsFrom_figures heven' (isRow_iff_utf8.1 h) 0
  refine ⟨bytes, by rw [decode, if_neg (by omega), hread], String.toList_injective ?_⟩
  rw [encode, String.toList_ofList, hwritten, hbytes, List.map_map, toList_toLower]
  exact List.map_congr_left fun c hc =>
    congrArg Char.toLower (charOf_ofNat (toNat_lt_of_isFigure (h c hc)))

/-- Each text is a row of bytes or has a flaw. -/
theorem isRow_or_flawed (s : String) :
    (IsRow s ∧ s.length % 2 = 0) ∨ ∃ fault, Flawed s fault := by
  rcases Nat.mod_two_eq_zero_or_one (utf8 s).length with heven | hodd
  · cases hfirst : (utf8 s).find? fun b => ¬IsFigure (charOf b) with
    | none =>
      have hrow : IsRow s := isRow_iff_utf8.2 (by simpa using hfirst)
      rw [utf8_of_isRow hrow, List.length_map, String.length_toList] at heven
      exact .inl ⟨hrow, heven⟩
    | some b =>
      obtain ⟨hb, before, after, hbytes, hbefore⟩ := List.find?_eq_some_iff_append.1 hfirst
      exact .inr ⟨_, .badByte heven hbytes (by simpa using hbefore) (by simpa using hb)⟩
  · exact .inr ⟨_, .oddLength hodd⟩

theorem decode_eq_error_iff {s : String} {fault : Fault} :
    decode s = .error fault ↔ Flawed s fault := by
  refine ⟨fun h => ?_, decode_of_flawed⟩
  rcases isRow_or_flawed s with ⟨hrow, heven⟩ | ⟨fault', hflaw⟩
  · obtain ⟨bytes, hread, -⟩ := decode_of_isRow hrow heven
    cases hread.symm.trans h
  · cases (decode_of_flawed hflaw).symm.trans h
    exact hflaw

theorem ofByte_injective {a b : UInt8} (h : ofByte a = ofByte b) : a = b := by
  have hdigit : ∀ m, m < 16 → ∀ n, n < 16 → m.digitChar = n.digitChar → m = n := by decide
  simp only [ofByte, List.cons.injEq, and_true] at h
  have ha := a.toNat_lt
  have hb := b.toNat_lt
  have hhigh := hdigit _ (by omega) _ (by omega) h.1
  have hlow := hdigit _ (by omega) _ (by omega) h.2
  rw [← UInt8.toNat_inj]
  omega

theorem flatMap_ofByte_injective {as bs : List UInt8}
    (h : as.flatMap ofByte = bs.flatMap ofByte) : as = bs := by
  induction as generalizing bs with
  | nil =>
    cases bs with
    | nil => rfl
    | cons b bs => simp [ofByte] at h
  | cons a as ih =>
    cases bs with
    | nil => simp [ofByte] at h
    | cons b bs =>
      rw [List.flatMap_cons, List.flatMap_cons] at h
      obtain ⟨hhead, htail⟩ := List.append_inj h rfl
      rw [ofByte_injective hhead, ih htail]

theorem encode_injective {as bs : List UInt8} (h : encode as = encode bs) : as = bs :=
  flatMap_ofByte_injective (String.ofList_injective h)

theorem decode_eq_ok_iff {s : String} {bytes : List UInt8} :
    decode s = .ok bytes ↔ IsRow s ∧ s.length % 2 = 0 ∧ encode bytes = s.toLower := by
  constructor
  · intro h
    rcases isRow_or_flawed s with ⟨hrow, heven⟩ | ⟨fault, hflaw⟩
    · obtain ⟨_, hread, hwritten⟩ := decode_of_isRow hrow heven
      cases hread.symm.trans h
      exact ⟨hrow, heven, hwritten⟩
    · cases (decode_of_flawed hflaw).symm.trans h
  · rintro ⟨hrow, heven, hwritten⟩
    obtain ⟨_, hread, hwritten'⟩ := decode_of_isRow hrow heven
    rw [hread, encode_injective (hwritten.trans hwritten'.symm)]

theorem length_flatMap_ofByte (bytes : List UInt8) :
    (bytes.flatMap ofByte).length = 2 * bytes.length := by
  induction bytes with
  | nil => rfl
  | cons b bytes ih =>
    rw [List.flatMap_cons, List.length_append, ih, List.length_cons]
    exact Nat.add_comm 2 _

theorem exists_of_mem_flatMap_ofByte {bytes : List UInt8} {c : Char}
    (h : c ∈ bytes.flatMap ofByte) : ∃ d, d < 16 ∧ c = d.digitChar := by
  obtain ⟨b, -, hb⟩ := List.mem_flatMap.1 h
  have hlt := b.toNat_lt
  simp only [ofByte, List.mem_cons, List.not_mem_nil, or_false] at hb
  rcases hb with rfl | rfl
  · exact ⟨_, by omega, rfl⟩
  · exact ⟨_, by omega, rfl⟩

theorem length_encode (bytes : List UInt8) : (encode bytes).length = 2 * bytes.length := by
  rw [encode, ← String.length_toList, String.toList_ofList, length_flatMap_ofByte]

/-- Each byte takes two figures of the text that it is read from. -/
theorem length_of_encode {bytes : List UInt8} {s : String} (h : encode bytes = s.toLower) :
    2 * bytes.length = s.length := by
  rw [← length_encode, h]
  exact String.length_map

/-- Bytes are written with figures that lower case leaves as they are. -/
theorem mem_encode {bytes : List UInt8} {c : Char} (h : c ∈ (encode bytes).toList) :
    IsFigure c ∧ c.toLower = c := by
  have hall : ∀ d < 16, IsFigure d.digitChar ∧ d.digitChar.toLower = d.digitChar := by decide
  rw [encode, String.toList_ofList] at h
  obtain ⟨d, hd, rfl⟩ := exists_of_mem_flatMap_ofByte h
  exact hall d hd

theorem decode_encode (bytes : List UInt8) : decode (encode bytes) = .ok bytes := by
  refine decode_eq_ok_iff.2 ⟨fun c hc => (mem_encode hc).1, ?_, String.toList_injective ?_⟩
  · rw [length_encode, Nat.mul_mod_right]
  · rw [toList_toLower, List.map_congr_left fun c hc => (mem_encode hc).2, List.map_id']

end ProjectRegistry.Text.Hex
