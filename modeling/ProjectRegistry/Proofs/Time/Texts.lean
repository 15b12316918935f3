import ProjectRegistry.Proofs.Text.Blank
import ProjectRegistry.Proofs.Time.Calendar
import ProjectRegistry.Time.Instant

/-!
# Instants in texts

An instant is read back from its text to the nanosecond, if its year has four digits and it is not
within a leap second. The parts of the text are read one after the other, and each ends where its
field does.
-/

namespace ProjectRegistry.Time.Instant

open Text (padded)

/-! ## Fields -/

section Fields

variable {width n : Nat} {rest : List Char}

/-- A field is read as its number, if it is as long as fields may be or no digit follows. -/
theorem readDigits_padded {most : Nat} (hwidth : 0 < width) (hn : n < Nat.pow 10 width)
    (hmost : width ≤ most) (hrest : width = most ∨ ∀ c, rest.head? = some c → c.isDigit = false) :
    readDigits most (padded width n ++ rest) = some (n, rest) := by
  have hlength := Text.length_padded hwidth hn
  have hdigits : ((padded width n ++ rest).take most).takeWhile Char.isDigit = padded width n := by
    rw [List.take_append, hlength, List.take_of_length_le (by omega),
      List.takeWhile_append_of_pos fun c hc => Text.isDigit_of_mem_padded hc]
    have hnone : (rest.take (most - width)).takeWhile Char.isDigit = [] := by
      rcases hrest with heq | hends
      · rw [heq, Nat.sub_self]
        rfl
      · cases rest with
        | nil => simp
        | cons c cs =>
          have hc := hends c rfl
          cases most - width with
          | zero => rfl
          | succ k => simp [hc]
    rw [hnone, List.append_nil]
  have hne : (padded width n).isEmpty = false := by
    rw [List.isEmpty_eq_false_iff_exists_mem]
    obtain ⟨c, cs, hfield⟩ := List.exists_cons_of_length_pos (hlength ▸ hwidth)
    exact ⟨c, hfield ▸ List.mem_cons_self⟩
  simp only [readDigits, hdigits, hne, Bool.false_eq_true, if_false, Text.digitsAfter?_padded,
    Option.getD_some, hlength]
  rw [List.drop_append_of_le_length (by omega), List.drop_of_length_le (by omega), List.nil_append]

theorem readTwo_padded (hn : n < 100) : readTwo (padded 2 n ++ rest) = some (n, rest) := by
  rw [readTwo, Text.trimStart_padded (by decide) hn]
  exact readDigits_padded (by decide) hn (Nat.le_refl 2) (.inl rfl)

theorem readMark_cons {mark : Char} (h : Text.isBlank mark = false) :
    readMark mark (mark :: rest) = some rest := by
  rw [readMark, Text.trimStart_cons h]
  exact if_pos rfl

theorem readYear_printYear {y : Int} (h : 0 ≤ y) (h' : y ≤ 9999) :
    readYear (printYear y ++ rest) = some (y, rest) := by
  have hy : y.toNat < Nat.pow 10 4 := show y.toNat < 10000 by omega
  obtain ⟨c, cs, hfield⟩ : ∃ c cs, padded 4 y.toNat = c :: cs :=
    List.exists_cons_of_length_pos (by rw [Text.length_padded (by decide) hy]; decide)
  have hc : c.isDigit = true := Text.isDigit_of_mem_padded (hfield ▸ List.mem_cons_self)
  have hminus : c ≠ '-' := by
    rintro rfl
    cases hc
  have hplus : c ≠ '+' := by
    rintro rfl
    cases hc
  have hread : readDigits 4 (padded 4 y.toNat ++ rest) = some (y.toNat, rest) :=
    readDigits_padded (by decide) hy (Nat.le_refl 4) (.inl rfl)
  rw [readYear, printYear, if_pos ⟨h, h'⟩, Text.trimStart_padded (by decide) hy]
  rw [hfield, List.cons_append] at hread ⊢
  simp only [hminus, hplus, if_false, hread, Option.map_some, Option.some.injEq, Prod.mk.injEq,
    and_true]
  omega

/-- A fraction is read back from as many digits as it was given. -/
theorem readFraction_field (hwidth : 0 < width) (hmost : width ≤ 9) (hn : n < Nat.pow 10 width) :
    readFraction ('.' :: padded width n ++ ['Z']) = some (n * Nat.pow 10 (9 - width), ['Z']) := by
  have hread : readDigits 9 (padded width n ++ ['Z']) = some (n, ['Z']) :=
    readDigits_padded hwidth hn hmost (.inr (by simp))
  have hlength : (padded width n ++ ['Z']).length - ['Z'].length = width := by
    rw [List.length_append, Text.length_padded hwidth hn, Nat.add_sub_cancel]
  rw [List.cons_append, readFraction, if_pos rfl, hread, Option.map_some]
  dsimp only
  rw [hlength]
  rfl

theorem readFraction_printFraction (hn : n < 1000000000) :
    readFraction (printFraction n ++ ['Z']) = some (n, ['Z']) := by
  unfold printFraction
  split
  · next hzero =>
    rw [hzero]
    rfl
  · split
    · next hmillis =>
      have hvalue : n / 1000000 * Nat.pow 10 (9 - 3) = n := show n / 1000000 * 1000000 = n by omega
      rw [readFraction_field (by decide) (by decide) (show n / 1000000 < 1000 by omega), hvalue]
    · split
      · next hmicros =>
        have hvalue : n / 1000 * Nat.pow 10 (9 - 6) = n := show n / 1000 * 1000 = n by omega
        rw [readFraction_field (by decide) (by decide) (show n / 1000 < 1000000 by omega), hvalue]
      · have hvalue : n * Nat.pow 10 (9 - 9) = n := Nat.mul_one n
        rw [readFraction_field (by decide) (by decide) hn, hvalue]

end Fields

/-! ## Dates and times of day -/

theorem readDate_append {date : Date} (hvalid : date.IsValid) (h : 0 ≤ date.year)
    (h' : date.year ≤ 9999) (rest : List Char) :
    readDate (printYear date.year ++
      '-' :: (padded 2 date.month ++ '-' :: (padded 2 date.day ++ rest))) = some (date, rest) := by
  obtain ⟨-, hmonth, -, hday⟩ := hvalid
  have hdays : daysInMonth date.year date.month ≤ 31 := by
    unfold daysInMonth
    split
    · split <;> decide
    · split <;> decide
  have hmark : Text.isBlank '-' = false := by decide
  simp only [readDate, readYear_printYear h h', readMark_cons hmark, Option.bind_some,
    readTwo_padded (show date.month < 100 by omega), readTwo_padded (show date.day < 100 by omega)]

theorem readClock_append {hour minute second nanos : Nat} (hhour : hour < 24)
    (hminute : minute < 60) (hsecond : second < 60) (hnanos : nanos < 1000000000) :
    readClock (padded 2 hour ++ ':' :: (padded 2 minute ++ ':' :: (padded 2 second ++
      (printFraction nanos ++ ['Z'])))) = some ((hour, minute, second, nanos), ['Z']) := by
  have hmark : Text.isBlank ':' = false := by decide
  simp only [readClock, readTwo_padded (show hour < 100 by omega), readMark_cons hmark,
    Option.bind_some, readTwo_padded (show minute < 100 by omega),
    readTwo_padded (show second < 100 by omega), readFraction_printFraction hnanos]

/-! ## Instants -/

/-- An instant of a year of four digits that is not within a leap second. -/
structure Plain (t : Instant) : Prop where
  first : 0 ≤ (Date.ofDayNumber (t.seconds / 86400)).year
  last : (Date.ofDayNumber (t.seconds / 86400)).year ≤ 9999
  nanos : t.nanos < 1000000000

theorem print_eq {t : Instant} (hnanos : t.nanos < 1000000000) :
    t.print =
      let date := Date.ofDayNumber (t.seconds / 86400)
      let second := (t.seconds % 86400).toNat
      printYear date.year ++ '-' :: (padded 2 date.month ++ '-' :: (padded 2 date.day ++
        'T' :: (padded 2 (second / 3600) ++ ':' :: (padded 2 (second / 60 % 60) ++
          ':' :: (padded 2 (second % 60) ++ (printFraction t.nanos ++ ['Z'])))))) := by
  have hleap : t.nanos / 1000000000 = 0 := by omega
  have hmod : t.nanos % 1000000000 = t.nanos := by omega
  simp only [print, hleap, hmod, Nat.add_zero, List.append_assoc, List.cons_append]

theorem ofParts?_parts {t : Instant} (h : t.Plain) :
    let second := (t.seconds % 86400).toNat
    ofParts? (Date.ofDayNumber (t.seconds / 86400)) (second / 3600) (second / 60 % 60)
      (second % 60) t.nanos 0 = some t := by
  intro second
  have hbounds := Date.bounds_of_year h.first h.last
  have hfirst : firstDay ≤ -1000000 := by decide
  have hlast : 3000000 ≤ lastDay := by decide
  have hleap : second % 60 / 60 = 0 := by omega
  have hseconds : t.seconds / 86400 * 86400 +
      ((second / 3600 * 3600 + second / 60 % 60 * 60 + (second % 60 - 0) : Nat) : Int) - 0 =
        t.seconds := by omega
  have hclock : second / 3600 < 24 ∧ second / 60 % 60 < 60 ∧ second % 60 ≤ 60 := by omega
  simp only [ofParts?, Date.dayNumber_ofDayNumber, hleap, hseconds]
  rw [if_pos ⟨Date.isValid_ofDayNumber _, hclock⟩, if_pos (by omega)]
  simp

theorem ofText?_toText {t : Instant} (h : t.Plain) : ofText? t.toText = some t := by
  have hdate := readDate_append (Date.isValid_ofDayNumber _) h.first h.last
  have hclock := readClock_append
    (show (t.seconds % 86400).toNat / 3600 < 24 by omega)
    (show (t.seconds % 86400).toNat / 60 % 60 < 60 by omega)
    (show (t.seconds % 86400).toNat % 60 < 60 by omega) h.nanos
  have hoffset : readOffset (Text.trimStart ['Z']) = some (0, []) := by decide
  rw [toText, ofText?, String.toList_ofList, print_eq h.nanos, ofChars?]
  simp only [hdate, hclock, hoffset]
  exact ofParts?_parts h

end ProjectRegistry.Time.Instant
