import ProjectRegistry.Proofs.Text.Digits
import ProjectRegistry.Text.Blank
import ProjectRegistry.Text.Split

/-!
# Blanks around what was written

What begins with a figure has no blanks to be left out. A row of words that was joined by bars with
blanks around them is cut at the bars again, and without blanks the parts are the words.
-/

namespace ProjectRegistry.Text

/-! ## Blanks in front -/

theorem isBlank_of_isDigit {c : Char} (h : c.isDigit = true) : isBlank c = false := by
  obtain ⟨hlow, hhigh⟩ := toNat_of_isDigit h
  simp only [isBlank, Bool.or_eq_false_iff, Bool.and_eq_false_iff, decide_eq_false_iff_not,
    beq_eq_false_iff_ne]
  omega

theorem trimStart_cons {c : Char} (h : isBlank c = false) (cs : List Char) :
    trimStart (c :: cs) = c :: cs := by
  simp [trimStart, h]

theorem trimStart_blank {c : Char} (h : isBlank c = true) (cs : List Char) :
    trimStart (c :: cs) = trimStart cs := by
  simp [trimStart, h]

/-- A field of digits has no blanks in front. -/
theorem trimStart_padded {width n : Nat} (hwidth : 0 < width) (h : n < Nat.pow 10 width)
    (rest : List Char) : trimStart (padded width n ++ rest) = padded width n ++ rest := by
  obtain ⟨c, cs, hfield⟩ : ∃ c cs, padded width n = c :: cs :=
    List.exists_cons_of_length_pos (by rw [length_padded hwidth h]; exact hwidth)
  have hc : c.isDigit = true := isDigit_of_mem_padded (hfield ▸ List.mem_cons_self)
  rw [hfield, List.cons_append, trimStart_cons (isBlank_of_isDigit hc)]

theorem mem_trimStart {c : Char} {cs : List Char} (hc : c ∈ cs) (h : isBlank c = false) :
    c ∈ trimStart cs := by
  induction cs with
  | nil => cases hc
  | cons d cs ih =>
    cases hd : isBlank d with
    | false =>
      rw [trimStart_cons hd]
      exact hc
    | true =>
      rw [trimStart_blank hd]
      rcases List.mem_cons.1 hc with rfl | hc
      · rw [h] at hd
        cases hd
      · exact ih hc

/-- A text that is not blank is not blank without the blanks at its ends. -/
theorem trim_ne_nil {c : Char} {cs : List Char} (hc : c ∈ cs) (h : isBlank c = false) :
    trim cs ≠ [] := by
  have hmem : c ∈ trim cs :=
    List.mem_reverse.2 (mem_trimStart (List.mem_reverse.2 (mem_trimStart hc h)) h)
  intro hnil
  rw [hnil] at hmem
  cases hmem

theorem trim_eq_nil_iff {cs : List Char} : trim cs = [] ↔ ∀ c ∈ cs, isBlank c = true := by
  constructor
  · intro h c hc
    cases hblank : isBlank c with
    | true => rfl
    | false => exact absurd h (trim_ne_nil hc hblank)
  · intro h
    have hstart : trimStart cs = [] := by
      induction cs with
      | nil => rfl
      | cons c cs ih =>
        rw [trimStart_blank (h c List.mem_cons_self)]
        exact ih fun d hd => h d (List.mem_cons_of_mem c hd)
    rw [trim, hstart]
    rfl
/-! ## Words between bars -/

/-- A word that is neither empty nor has a blank or a bar in it. -/
structure IsWord (w : List Char) : Prop where
  ne_nil : w ≠ []
  plain {c : Char} : c ∈ w → isBlank c = false ∧ c ≠ '|'

namespace IsWord

variable {w : List Char}

theorem trimStart_append (h : IsWord w) (rest : List Char) :
    trimStart (w ++ rest) = w ++ rest := by
  obtain ⟨c, cs, rfl⟩ := List.exists_cons_of_ne_nil h.ne_nil
  exact trimStart_cons (h.plain List.mem_cons_self).1 _

theorem reverse (h : IsWord w) : IsWord w.reverse :=
  ⟨by simpa using h.ne_nil, fun hc => h.plain (List.mem_reverse.1 hc)⟩

theorem trimStart_eq (h : IsWord w) : trimStart w = w := by
  have happend := h.trimStart_append []
  rwa [List.append_nil] at happend

theorem trim_eq (h : IsWord w) : trim w = w := by
  rw [trim, h.trimStart_eq, h.reverse.trimStart_eq, List.reverse_reverse]

theorem trim_blank (h : IsWord w) : trim (w ++ [' ']) = w := by
  have hblank : isBlank ' ' = true := by decide
  rw [trim, h.trimStart_append, List.reverse_append, List.reverse_singleton,
    List.singleton_append, trimStart_blank hblank, h.reverse.trimStart_eq, List.reverse_reverse]

theorem not_mem (h : IsWord w) : '|' ∉ w := fun hc => (h.plain hc).2 rfl

end IsWord

/-- Words that were joined by bars are read between the bars. -/
theorem map_trim_splitAt_joinWith {ws : List (List Char)} (hne : ws ≠ [])
    (h : ∀ w ∈ ws, IsWord w) :
    (splitAt '|' (joinWith [' ', '|', ' '] ws)).map trim = ws := by
  induction ws with
  | nil => exact absurd rfl hne
  | cons w ws ih =>
    have hw := h w List.mem_cons_self
    cases ws with
    | nil =>
      rw [joinWith, splitAt_of_not_mem hw.not_mem, List.map_singleton, hw.trim_eq]
    | cons v ws =>
      have hrest := ih (List.cons_ne_nil v ws) fun u hu => h u (List.mem_cons_of_mem w hu)
      have hjoin : joinWith [' ', '|', ' '] (w :: v :: ws) =
          (w ++ [' ']) ++ '|' :: (' ' :: joinWith [' ', '|', ' '] (v :: ws)) := by
        simp [joinWith]
      have hbar : '|' ∉ w ++ [' '] := by simpa using hw.not_mem
      obtain ⟨part, parts, hsplit, hsplit'⟩ :=
        splitAt_cons_of_ne (show ' ' ≠ '|' by decide) (joinWith [' ', '|', ' '] (v :: ws))
      have htrim : trim (' ' :: part) = trim part := by
        rw [trim, trimStart_blank (by decide), trim]
      rw [hsplit] at hrest
      rw [hjoin, splitAt_append, splitAt_of_not_mem hbar, hsplit', List.singleton_append,
        List.map_cons, List.map_cons, hw.trim_blank, htrim, ← hrest, List.map_cons]

theorem trim_joinWith_ne_nil {w : List Char} (hw : IsWord w) (separator : List Char)
    (ws : List (List Char)) : trim (joinWith separator (w :: ws)) ≠ [] := by
  obtain ⟨c, cs, rfl⟩ := List.exists_cons_of_ne_nil hw.ne_nil
  refine trim_ne_nil (c := c) ?_ (hw.plain List.mem_cons_self).1
  cases ws with
  | nil => exact List.mem_cons_self
  | cons v ws => exact List.mem_cons_self

end ProjectRegistry.Text
