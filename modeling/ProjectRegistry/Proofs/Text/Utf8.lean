import ProjectRegistry.Text.Split
import ProjectRegistry.Text.Utf8

/-!
# Texts and their bytes

Texts compare by their code points as they compare by their bytes: of two characters the greater one
has the greater bytes, whatever comes behind them. So two texts with the same bytes are the same.

A byte of ASCII stands for itself, in a text that is written and in bytes that are read, be they
UTF-8 or not. So it does not matter whether a text is cut at a character of ASCII before or after it
is written, nor whether bytes are cut at such a byte before or after they are read.
-/

namespace ProjectRegistry.Text

theorem val_toNat_lt (c : Char) : c.val.toNat < 1114112 := by
  rcases c.valid with hc | hc
  · exact Nat.lt_trans hc (by decide)
  · exact hc.2

/-- Of two characters the greater one has the greater bytes, and neither has only the beginning of
the bytes of the other. -/
theorem utf8EncodeChar_append_lt {c d : Char} (h : c < d) (xs ys : List UInt8) :
    String.utf8EncodeChar c ++ xs < String.utf8EncodeChar d ++ ys := by
  have hlt : c.val.toNat < d.val.toNat := h
  have hmax := val_toNat_lt d
  -- One goal for each pair of lengths, decided at the first byte in which the two differ.
  simp only [String.utf8EncodeChar]
  repeat' split
  all_goals
    simp (disch := omega) only [List.cons_append, List.nil_append, List.cons_lt_cons_iff,
      UInt8.lt_iff_toNat_lt, ← UInt8.toNat_inj, UInt8.toNat_ofNat', Nat.mod_eq_of_lt]
    omega

theorem flatMap_utf8EncodeChar_lt {cs ds : List Char} (h : cs < ds) :
    cs.flatMap String.utf8EncodeChar < ds.flatMap String.utf8EncodeChar := by
  induction cs generalizing ds with
  | nil =>
    cases ds with
    | nil => exact absurd h (List.lt_irrefl _)
    | cons d ds =>
      rw [List.flatMap_nil, List.flatMap_cons]
      obtain ⟨b, bs, hb⟩ := List.exists_cons_of_ne_nil (String.utf8EncodeChar_ne_nil (c := d))
      rw [hb]
      exact List.nil_lt_cons _ _
  | cons c cs ih =>
    cases ds with
    | nil => exact absurd h (List.not_lt_nil _)
    | cons d ds =>
      rw [List.flatMap_cons, List.flatMap_cons]
      rcases List.cons_lt_cons_iff.1 h with hlt | ⟨rfl, hrest⟩
      · exact utf8EncodeChar_append_lt hlt _ _
      · exact List.append_left_lt (ih hrest)

theorem utf8_lt_of_lt {s t : String} (h : s < t) : utf8 s < utf8 t :=
  flatMap_utf8EncodeChar_lt h

theorem utf8_injective {s t : String} (h : utf8 s = utf8 t) : s = t := by
  have hnot {a b : String} (he : utf8 a = utf8 b) : ¬a < b := by
    intro hlt
    have hbytes := utf8_lt_of_lt hlt
    rw [he] at hbytes
    exact List.lt_irrefl _ hbytes
  exact String.le_antisymm (String.not_lt.1 (hnot h.symm)) (String.not_lt.1 (hnot h))

/-! ## Bytes of ASCII -/

/-- A byte of ASCII is the whole of its character. -/
theorem toNat_of_mem_utf8EncodeChar {c : Char} {b : UInt8} (h : b ∈ String.utf8EncodeChar c)
    (hb : b.toNat < 128) : c.toNat = b.toNat := by
  have hmax := val_toNat_lt c
  show c.val.toNat = b.toNat
  simp only [String.utf8EncodeChar] at h
  repeat' split at h
  all_goals
    simp only [List.mem_cons, List.not_mem_nil, or_false, ← UInt8.toNat_inj,
      UInt8.toNat_ofNat'] at h
    omega

/-- A character of ASCII is written as one byte. -/
theorem utf8EncodeChar_of_lt {c : Char} (h : c.toNat < 128) :
    String.utf8EncodeChar c = [UInt8.ofNat c.toNat] :=
  if_pos (Nat.le_of_lt_succ h)

theorem toNat_ofNat_of_lt {c : Char} (h : c.toNat < 128) :
    (UInt8.ofNat c.toNat).toNat = c.toNat := by
  rw [UInt8.toNat_ofNat', Nat.mod_eq_of_lt]
  omega

theorem head?_utf8 {a : Char} (ha : a.toNat < 128) (s : String) :
    (utf8 s).head? = some (UInt8.ofNat a.toNat) ↔ s.toList.head? = some a := by
  rw [utf8]
  cases s.toList with
  | nil => simp
  | cons c cs =>
    obtain ⟨b, bs, hb⟩ := List.exists_cons_of_ne_nil (String.utf8EncodeChar_ne_nil (c := c))
    simp only [List.flatMap_cons, hb, List.cons_append, List.head?_cons, Option.some.injEq]
    constructor
    · rintro rfl
      have hnat := toNat_ofNat_of_lt ha
      have hsame := toNat_of_mem_utf8EncodeChar (hb ▸ List.mem_cons_self) (by omega)
      exact Char.toNat_inj.1 (hsame.trans hnat)
    · rintro rfl
      rw [utf8EncodeChar_of_lt ha] at hb
      exact (List.cons.inj hb).1.symm

theorem exists_of_mem_utf8 {s : String} {b : UInt8} (h : b ∈ utf8 s) (hb : b.toNat < 128) :
    ∃ c ∈ s.toList, c.toNat = b.toNat := by
  obtain ⟨c, hc, hmem⟩ := List.mem_flatMap.1 h
  exact ⟨c, hc, toNat_of_mem_utf8EncodeChar hmem hb⟩

/-- A character under way that comes out above ASCII, whatever bytes it goes on with. -/
def Pending.IsHigh (p : Pending) : Prop :=
  128 ≤ p.low.toNat ∧ 128 ≤ (p.bits * 64 + (p.low.toNat - 128)) * Nat.pow 64 p.owed

theorem isHigh_of_start {b : UInt8} {p : Pending} (h : Lead.ofByte b = .start p) : p.IsHigh := by
  simp only [Lead.ofByte] at h
  repeat' split at h
  all_goals
    cases h
  all_goals
    constructor
    · simp
    · simp
      try omega

theorem isHigh_step {p : Pending} (hp : p.IsHigh) {b : UInt8} (hb : p.low ≤ b) {n : Nat}
    (howed : p.owed = n + 1) :
    Pending.IsHigh { owed := n, bits := p.bits * 64 + (b.toNat - 0x80) } := by
  obtain ⟨hlow, hbits⟩ := hp
  have hb : p.low.toNat ≤ b.toNat := hb
  refine ⟨by simp, ?_⟩
  have hpow : Nat.pow 64 (n + 1) = 64 * Nat.pow 64 n := Nat.mul_comm _ _
  rw [howed, hpow, ← Nat.mul_assoc] at hbits
  refine Nat.le_trans hbits (Nat.mul_le_mul_right _ ?_)
  simp
  omega

/-- A number from 128 on is no character of ASCII, unless it is none at all. -/
theorem toNat_ofNat_of_high {n : Nat} (h : 128 ≤ n) :
    (Char.ofNat n).toNat = 0 ∨ 128 ≤ (Char.ofNat n).toNat := by
  by_cases hvalid : n.isValidChar
  · rw [Char.ofNat, dif_pos hvalid]
    exact .inr h
  · rw [Char.ofNat, dif_neg hvalid]
    exact .inl rfl

theorem toNat_of_ofByte_whole {b : UInt8} {c : Char} (h : Lead.ofByte b = .whole c) :
    c.toNat = b.toNat := by
  simp only [Lead.ofByte] at h
  repeat' split at h
  all_goals cases h
  next hb =>
    have hvalid : b.toNat.isValidChar := .inl (by omega)
    rw [Char.ofNat, dif_pos hvalid]
    rfl

/-- The last byte of a sequence makes no character of ASCII. -/
theorem toNat_last_of_high {p : Pending} (hp : p.IsHigh) {b : UInt8} (hb : p.low ≤ b)
    (howed : p.owed = 0) :
    (Char.ofNat (p.bits * 64 + (b.toNat - 128))).toNat = 0 ∨
      128 ≤ (Char.ofNat (p.bits * 64 + (b.toNat - 128))).toNat := by
  obtain ⟨-, hbits⟩ := hp
  have hb : p.low.toNat ≤ b.toNat := hb
  have hpow : Nat.pow 64 0 = 1 := rfl
  rw [howed, hpow, Nat.mul_one] at hbits
  exact toNat_ofNat_of_high
    (Nat.le_trans hbits (Nat.add_le_add_left (Nat.sub_le_sub_right hb 128) _))

/-- Whether a character is read from bytes only if it is one of them. -/
def OnlyFrom (c : Char) (bytes : List UInt8) : Prop :=
  ∀ p? : Option Pending, (∀ p, p? = some p → p.IsHigh) → c ∈ decodeFrom p? bytes →
    ∃ b ∈ bytes, b.toNat = c.toNat

theorem OnlyFrom.cons {c : Char} {rest : List UInt8} (h : OnlyFrom c rest) (b : UInt8)
    {p? : Option Pending} (hp? : ∀ p, p? = some p → p.IsHigh) (hc : c ∈ decodeFrom p? rest) :
    ∃ d ∈ b :: rest, d.toNat = c.toNat := by
  obtain ⟨d, hd, he⟩ := h p? hp? hc
  exact ⟨d, List.mem_cons_of_mem b hd, he⟩

theorem OnlyFrom.emit {c : Char} (hreplacement : c ≠ replacement) {rest : List UInt8}
    (h : OnlyFrom c rest) {b : UInt8}
    (hc : c ∈ (Lead.ofByte b).emit fun p => decodeFrom p rest) :
    ∃ d ∈ b :: rest, d.toNat = c.toNat := by
  cases hb : Lead.ofByte b with
  | whole d =>
    rw [hb, Lead.emit, List.mem_cons] at hc
    rcases hc with rfl | hc
    · exact ⟨b, List.mem_cons_self, (toNat_of_ofByte_whole hb).symm⟩
    · exact h.cons b (by simp) hc
  | start p =>
    rw [hb] at hc
    exact h.cons b (by simpa using isHigh_of_start hb) hc
  | broken =>
    rw [hb, Lead.emit, List.mem_cons] at hc
    exact h.cons b (by simp) (hc.resolve_left hreplacement)

/-- A character of ASCII that is read from bytes is one of them. -/
theorem onlyFrom {c : Char} (hpos : 0 < c.toNat) (hc : c.toNat < 128) (bytes : List UInt8) :
    OnlyFrom c bytes := by
  have hreplacement : c ≠ replacement := by
    rintro rfl
    exact absurd hc (by decide)
  induction bytes with
  | nil =>
    intro p? _ h
    cases p? with
    | none => cases h
    | some p => exact absurd (List.mem_singleton.1 h) hreplacement
  | cons b rest ih =>
    intro p? hp h
    cases p? with
    | none => exact ih.emit hreplacement h
    | some p =>
      have hhigh := hp p rfl
      rw [decodeFrom] at h
      split at h
      · next hrange =>
        simp only at h
        split at h
        · next howed =>
          rcases List.mem_cons.1 h with hread | h
          · rw [hread] at hpos hc
            rcases toNat_last_of_high hhigh hrange.1 howed with hzero | hlarge
            · exact absurd hzero (Nat.ne_of_gt hpos)
            · exact absurd hc (Nat.not_lt.2 hlarge)
          · exact ih.cons b (by simp) h
        · next n howed => exact ih.cons b (by simpa using isHigh_step hhigh hrange.1 howed) h
      · exact ih.emit hreplacement ((List.mem_cons.1 h).resolve_left hreplacement)

/-- Bytes are read as a text without a character of ASCII that is not one of them. -/
theorem not_mem_decodeLossy {bytes : List UInt8} {b : UInt8} {c : Char} (hpos : 0 < b.toNat)
    (hb : b.toNat < 128) (hc : c.toNat = b.toNat) (h : b ∉ bytes) :
    c ∉ (decodeLossy bytes).toList := by
  intro hmem
  rw [decodeLossy, String.toList_ofList] at hmem
  obtain ⟨d, hd, hd'⟩ := onlyFrom (by omega) (by omega) bytes none (by simp) hmem
  rw [UInt8.toNat_inj.1 (hd'.trans hc)] at hd
  exact h hd

/-- Bytes that are read as text and written again have no byte of ASCII that was not there. -/
theorem not_mem_utf8_decodeLossy {bytes : List UInt8} {b : UInt8} (hpos : 0 < b.toNat)
    (hb : b.toNat < 128) (h : b ∉ bytes) : b ∉ utf8 (decodeLossy bytes) := by
  intro hmem
  obtain ⟨c, hc, he⟩ := exists_of_mem_utf8 hmem hb
  exact not_mem_decodeLossy hpos hb he h hc

/-! ## Cutting -/

theorem splitAt_flatMap_utf8EncodeChar {a : Char} (ha : a.toNat < 128) (cs : List Char) :
    splitAt (UInt8.ofNat a.toNat) (cs.flatMap String.utf8EncodeChar) =
      (splitAt a cs).map fun part => part.flatMap String.utf8EncodeChar := by
  induction cs with
  | nil => rfl
  | cons c cs ih =>
    rw [List.flatMap_cons]
    by_cases hc : c = a
    · rw [hc, utf8EncodeChar_of_lt ha, List.singleton_append, splitAt, if_pos rfl, splitAt,
        if_pos rfl, ih]
      rfl
    · have hnat := toNat_ofNat_of_lt ha
      have hbyte : UInt8.ofNat a.toNat ∉ String.utf8EncodeChar c := by
        intro hmem
        have hsame := toNat_of_mem_utf8EncodeChar hmem (by omega)
        exact hc (Char.toNat_inj.1 (hsame.trans hnat))
      obtain ⟨part, parts, hparts, hsplit⟩ := splitAt_cons_of_ne hc cs
      rw [hsplit, splitAt_append_of_not_mem hbyte (ih.trans (by rw [hparts, List.map_cons]))]
      rfl

/-- A text is cut at a character of ASCII before or after it is written. -/
theorem splitAt_utf8 {a : Char} (ha : a.toNat < 128) (s : String) :
    splitAt (UInt8.ofNat a.toNat) (utf8 s) =
      (splitAt a s.toList).map fun part => utf8 (String.ofList part) := by
  simp only [utf8, String.toList_ofList]
  exact splitAt_flatMap_utf8EncodeChar ha s.toList

theorem ofByte_of_lt {b : UInt8} (h : b.toNat < 128) :
    Lead.ofByte b = .whole (Char.ofNat b.toNat) :=
  if_pos h

/-- Whether bytes are read up to a byte of ASCII as they are without what follows it. -/
def IsCutAt (b : UInt8) (rest bytes : List UInt8) : Prop :=
  ∀ p? : Option Pending, (∀ p, p? = some p → p.IsHigh) →
    decodeFrom p? (bytes ++ b :: rest) =
      decodeFrom p? bytes ++ Char.ofNat b.toNat :: decodeFrom none rest

theorem IsCutAt.emit {b : UInt8} {rest bytes : List UInt8} (h : IsCutAt b rest bytes) (a : UInt8) :
    ((Lead.ofByte a).emit fun p => decodeFrom p (bytes ++ b :: rest)) =
      ((Lead.ofByte a).emit fun p => decodeFrom p bytes) ++
        Char.ofNat b.toNat :: decodeFrom none rest := by
  cases ha : Lead.ofByte a with
  | whole c => simp only [Lead.emit, h none (by simp), List.cons_append]
  | start p => simp only [Lead.emit, h (some p) (by simpa using isHigh_of_start ha)]
  | broken => simp only [Lead.emit, h none (by simp), List.cons_append]

theorem isCutAt {b : UInt8} (hb : b.toNat < 128) (rest bytes : List UInt8) :
    IsCutAt b rest bytes := by
  induction bytes with
  | nil =>
    intro p? hp
    cases p? with
    | none => simp only [List.nil_append, decodeFrom, ofByte_of_lt hb, Lead.emit]
    | some p =>
      have hrange : ¬(p.low ≤ b ∧ b ≤ p.high) := fun hrange =>
        absurd (Nat.le_trans (hp p rfl).1 (UInt8.le_iff_toNat_le.1 hrange.1)) (Nat.not_le.2 hb)
      simp only [List.nil_append, decodeFrom, if_neg hrange, ofByte_of_lt hb, Lead.emit,
        List.cons_append]
  | cons a bytes ih =>
    intro p? hp
    cases p? with
    | none => exact ih.emit a
    | some p =>
      rw [List.cons_append, decodeFrom, decodeFrom]
      split
      · next hrange =>
        cases howed : p.owed with
        | zero => simp only [ih none (by simp), List.cons_append]
        | succ n => exact ih _ (by simpa using isHigh_step (hp p rfl) hrange.1 howed)
      · rw [ih.emit a, List.cons_append]

/-- Bytes are cut at a byte of ASCII before or after they are read, be they UTF-8 or not. -/
theorem decodeLossy_append_cons {b : UInt8} (hb : b.toNat < 128) (bytes rest : List UInt8) :
    decodeLossy (bytes ++ b :: rest) =
      decodeLossy bytes ++ String.singleton (Char.ofNat b.toNat) ++ decodeLossy rest := by
  apply String.toList_injective
  simp only [decodeLossy, String.toList_append, String.toList_ofList, String.toList_singleton,
    isCutAt hb rest bytes none (by simp), List.append_assoc, List.singleton_append]

theorem decodeFrom_ne_nil {p? : Option Pending} {bytes : List UInt8}
    (h : p? ≠ none ∨ bytes ≠ []) : decodeFrom p? bytes ≠ [] := by
  induction bytes generalizing p? with
  | nil =>
    cases p? with
    | none => simp at h
    | some p => exact List.cons_ne_nil _ _
  | cons b bytes ih =>
    cases p? with
    | none =>
      rw [decodeFrom]
      cases Lead.ofByte b with
      | whole c => exact List.cons_ne_nil _ _
      | start p => exact ih (.inl (Option.some_ne_none p))
      | broken => exact List.cons_ne_nil _ _
    | some p =>
      rw [decodeFrom]
      split
      · cases p.owed with
        | zero => exact List.cons_ne_nil _ _
        | succ n => exact ih (.inl (Option.some_ne_none _))
      · exact List.cons_ne_nil _ _

theorem decodeLossy_ne_empty {bytes : List UInt8} (h : bytes ≠ []) : decodeLossy bytes ≠ "" := by
  intro hempty
  have hlist := congrArg String.toList hempty
  rw [decodeLossy, String.toList_ofList] at hlist
  exact decodeFrom_ne_nil (.inr h) hlist

end ProjectRegistry.Text
