import ProjectRegistry.Proofs.Text.Hex
import ProjectRegistry.Version

/-!
# Digests as texts

A digest is read from thirty-two figures of either case and written with these figures in lower
case. Every other text is refused for one reason: an odd number of bytes, or else the first byte
that is no figure, or else the number of its figures.
-/

namespace ProjectRegistry.Digest

open Text.Hex (IsRow Flawed)

/-- Why a text is no digest. -/
inductive RefusedFor (s : String) : Violation → Prop where
  | text {fault : Text.Hex.Fault} : Flawed s fault → RefusedFor s (.digestText s fault)
  | size : IsRow s → s.length % 2 = 0 → s.length ≠ 32 → RefusedFor s (.digestSize s)

theorem ofBytes?_eq_some_iff {bytes : List UInt8} {d : Digest} :
    ofBytes? bytes = some d ↔ bytes = d.bytes := by
  unfold ofBytes?
  split
  · obtain ⟨_, _⟩ := d
    simp
  · next h =>
    refine iff_of_false (by simp) ?_
    rintro rfl
    exact h d.size

theorem ofText_eq_ok_iff {s : String} {d : Digest} :
    ofText s = .ok d ↔ (s.length = 32 ∧ IsRow s) ∧ d.hex = s.toLower := by
  have hread : ofText s = .ok d ↔ Text.Hex.decode s = .ok d.bytes := by
    unfold ofText
    cases Text.Hex.decode s with
    | error fault => simp
    | ok bytes =>
      rw [Except.ok.injEq, ← ofBytes?_eq_some_iff]
      simp only
      cases ofBytes? bytes <;> simp
  rw [hread, Text.Hex.decode_eq_ok_iff]
  constructor
  · rintro ⟨hrow, -, hwritten⟩
    have hlength := Text.Hex.length_of_encode hwritten
    rw [d.size] at hlength
    exact ⟨⟨hlength.symm, hrow⟩, hwritten⟩
  · rintro ⟨⟨hlength, hrow⟩, hwritten⟩
    exact ⟨hrow, by rw [hlength], hwritten⟩

theorem exists_ofText {s : String} (hlength : s.length = 32) (hrow : IsRow s) :
    ∃ d, ofText s = .ok d := by
  obtain ⟨bytes, hread, hwritten⟩ := Text.Hex.decode_of_isRow hrow (by rw [hlength])
  have hsize := Text.Hex.length_of_encode hwritten
  exact ⟨⟨bytes, by omega⟩, ofText_eq_ok_iff.2 ⟨⟨hlength, hrow⟩, hwritten⟩⟩

theorem ofText_of_refusedFor {s : String} {cause : Violation} (h : RefusedFor s cause) :
    ofText s = .error (.violation cause) := by
  cases h with
  | text hflaw => rw [ofText, Text.Hex.decode_of_flawed hflaw]
  | size hrow heven hlength =>
    obtain ⟨bytes, hread, hwritten⟩ := Text.Hex.decode_of_isRow hrow heven
    have hsize := Text.Hex.length_of_encode hwritten
    rw [ofText, hread]
    simp only [ofBytes?, dif_neg (show bytes.length ≠ 16 by omega)]

theorem ofText_eq_error_iff {s : String} {e : Failure} :
    ofText s = .error e ↔ ∃ cause, RefusedFor s cause ∧ e = .violation cause := by
  constructor
  · intro h
    have hcause : ∃ cause, RefusedFor s cause := by
      cases hread : Text.Hex.decode s with
      | error fault => exact ⟨_, .text (Text.Hex.decode_eq_error_iff.1 hread)⟩
      | ok bytes =>
        obtain ⟨hrow, heven, -⟩ := Text.Hex.decode_eq_ok_iff.1 hread
        refine ⟨_, .size hrow heven fun hlength => ?_⟩
        obtain ⟨d, hd⟩ := exists_ofText hlength hrow
        cases hd.symm.trans h
    obtain ⟨cause, hcause⟩ := hcause
    exact ⟨cause, hcause, Except.error.inj (h.symm.trans (ofText_of_refusedFor hcause))⟩
  · rintro ⟨cause, hcause, rfl⟩
    exact ofText_of_refusedFor hcause

theorem ofText_hex (d : Digest) : ofText d.hex = .ok d := by
  have hbytes : ofBytes? d.bytes = some d := ofBytes?_eq_some_iff.2 rfl
  rw [ofText, hex, Text.Hex.decode_encode]
  simp only [hbytes]

/-- What reading a text as a digest gives. -/
structure ReadsFigures (s : String) : Prop where
  accepts : (∃ d, ofText s = .ok d) ↔ s.length = 32 ∧ IsRow s
  lowers {d : Digest} : ofText s = .ok d → d.hex = s.toLower
  refuses {e : Failure} :
    ofText s = .error e ↔ ∃ cause, RefusedFor s cause ∧ e = .violation cause

theorem readsFigures (s : String) : ReadsFigures s where
  accepts := by
    constructor
    · rintro ⟨d, hd⟩
      exact (ofText_eq_ok_iff.1 hd).1
    · rintro ⟨hlength, hrow⟩
      exact exists_ofText hlength hrow
  lowers h := (ofText_eq_ok_iff.1 h).2
  refuses := ofText_eq_error_iff

/-- A text is read as a digest if it is thirty-two figures, and the digest is written with them in
lower case; each other text is refused for its flaw, and each digest is read back. -/
theorem digests_are_rows_of_figures :
    (∀ s, ReadsFigures s) ∧ ∀ d : Digest, ofText d.hex = .ok d :=
  ⟨readsFigures, ofText_hex⟩

example : ofText "a\u00e90" = .error (.violation (.digestText "a\u00e90" (.badByte 0xC3 1))) := rfl

end ProjectRegistry.Digest
