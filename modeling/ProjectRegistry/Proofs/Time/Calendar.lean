import ProjectRegistry.Time.Calendar

/-!
# Dates and days

Every day has a date of the calendar, and the number of that date is the day again. A date is found
from the era of a day, the year of the era and the day of that year, which begins in March. What
takes an argument is the year: the days that leap years add before it are counted by blocks of days
that do not quite agree with years.
-/

namespace ProjectRegistry.Time.Date

/-! ## The years of an era -/

/-- The year of an era that a day of the era is in. -/
def yearOfEra (d : Int) : Int := (d - d / 1460 + d / 36524 - d / 146096) / 365

/-- The first day of a year of an era. -/
def yearStart (y : Int) : Int := 365 * y + y / 4 - y / 100

section YearOfEra

variable {d : Int}

theorem yearOfEra_bounds (h : 0 ≤ d) (h' : d < 146096) :
    365 * yearOfEra d ≤ d - d / 1460 + d / 36524 ∧
      d - d / 1460 + d / 36524 < 365 * (yearOfEra d + 1) := by
  unfold yearOfEra
  omega

theorem yearOfEra_div (h : 0 ≤ d) (h' : d < 146096) : yearOfEra d / 100 = d / 36524 := by
  have hcentury : d / 36524 = 0 ∨ d / 36524 = 1 ∨ d / 36524 = 2 ∨ d / 36524 = 3 := by omega
  obtain ⟨hlow, hhigh⟩ := yearOfEra_bounds h h'
  rcases hcentury with hc | hc | hc | hc <;> omega

/-- A day is not before the first day of its year, and before that of the next one. -/
theorem yearStart_yearOfEra (h : 0 ≤ d) (h' : d < 146096) :
    yearStart (yearOfEra d) ≤ d ∧ d < yearStart (yearOfEra d + 1) := by
  have hcentury := yearOfEra_div h h'
  obtain ⟨hlow, hhigh⟩ := yearOfEra_bounds h h'
  have hfew : d / 36524 ≤ d / 1460 := by omega
  have hleap : yearOfEra d / 4 ≤ d / 1460 := by omega
  have hnext : d / 1460 ≤ (yearOfEra d + 1) / 4 := by omega
  unfold yearStart
  generalize yearOfEra d = y at *
  omega

end YearOfEra

/-- A year of an era and a day of that year, which is the last of a leap year at most. -/
structure InEra (y dayOfYear : Int) : Prop where
  year : 0 ≤ y ∧ y ≤ 399
  day : 0 ≤ dayOfYear ∧ dayOfYear ≤ 365
  leap : dayOfYear = 365 → (y + 1) % 4 = 0 ∧ ((y + 1) % 100 ≠ 0 ∨ (y + 1) % 400 = 0)

theorem inEra_of_day {d : Int} (h : 0 ≤ d) (h' : d < 146097) :
    InEra (yearOfEra d) (d - yearStart (yearOfEra d)) := by
  by_cases hlast : d = 146096
  · -- the leap day of the last year, which the blocks do not count
    subst hlast
    exact ⟨by decide, by decide, by decide⟩
  · have hyear : 0 ≤ yearOfEra d ∧ yearOfEra d ≤ 399 := by
      unfold yearOfEra
      omega
    obtain ⟨hlow, hhigh⟩ := yearStart_yearOfEra h (by omega)
    generalize yearOfEra d = y at *
    have hfour : (y + 1) / 4 ≤ y / 4 + 1 := by omega
    have hcentury : y / 100 ≤ (y + 1) / 100 := by omega
    unfold yearStart at *
    refine ⟨hyear, by omega, fun hd => ?_⟩
    have hfour' : (y + 1) / 4 = y / 4 + 1 := by omega
    have hcentury' : (y + 1) / 100 = y / 100 := by omega
    omega

/-! ## Months from March on -/

/-- The date of a day of a month, where months count from March. -/
def ofMarch (year month day : Int) : Date :=
  let m := if month < 10 then month + 3 else month - 9
  ⟨year + (if m ≤ 2 then 1 else 0), m.toNat, day.toNat⟩

theorem ofDayNumber_eq (n : Int) :
    ∃ era y dayOfYear month, InEra y dayOfYear ∧
      n = era * 146097 + yearStart y + dayOfYear - 719468 ∧ month = (5 * dayOfYear + 2) / 153 ∧
      ofDayNumber n = ofMarch (y + era * 400) month (dayOfYear - (153 * month + 2) / 5 + 1) := by
  have hday : InEra _ _ := inEra_of_day (d := (n + 719468) % 146097) (by omega) (by omega)
  exact ⟨(n + 719468) / 146097, _, _, _, hday, by omega, rfl, rfl⟩

section OfMarch

variable {year month day : Int}

theorem dayNumber_ofMarch (hmonth : 0 ≤ month ∧ month ≤ 11) (hday : 0 ≤ day) :
    (ofMarch year month day).dayNumber =
      year / 400 * 146097 +
        (yearStart (year % 400) + ((153 * month + 2) / 5 + day - 1)) - 719468 := by
  have hday' : (day.toNat : Int) = day := by omega
  simp only [ofMarch, dayNumber, yearStart, hday']
  by_cases hm : month < 10
  · have hlate : ¬ (month + 3).toNat ≤ 2 := by omega
    have hlate' : ¬ month + 3 ≤ 2 := by omega
    have hmonth' : (((month + 3).toNat : Int) + 9) % 12 = month := by omega
    simp only [hm, if_true, hlate, hlate', if_false, hmonth']
    omega
  · have hearly : (month - 9).toNat ≤ 2 := by omega
    have hearly' : month - 9 ≤ 2 := by omega
    have hmonth' : (((month - 9).toNat : Int) + 9) % 12 = month := by omega
    simp only [hm, if_true, hearly, hearly', if_false, hmonth']
    omega

/-- The months from March to January have as many days as their starts are apart; February has what
is left of the year. -/
theorem isValid_ofMarch (hmonth : 0 ≤ month ∧ month ≤ 11) (hfirst : 1 ≤ day)
    (hlast : day ≤ (153 * (month + 1) + 2) / 5 - (153 * month + 2) / 5)
    (hfebruary : month = 11 → day ≤ if isLeapYear (year + 1) then 29 else 28) :
    (ofMarch year month day).IsValid := by
  have hcases : month = 0 ∨ month = 1 ∨ month = 2 ∨ month = 3 ∨ month = 4 ∨ month = 5 ∨
      month = 6 ∨ month = 7 ∨ month = 8 ∨ month = 9 ∨ month = 10 ∨ month = 11 := by omega
  have hday : 1 ≤ day.toNat := by omega
  rcases hcases with rfl | rfl | rfl | rfl | rfl | rfl | rfl | rfl | rfl | rfl | rfl | rfl
  case inr.inr.inr.inr.inr.inr.inr.inr.inr.inr.inr =>
    have hlimit := hfebruary rfl
    refine ⟨by simp [ofMarch], by simp [ofMarch], hday, ?_⟩
    simp only [ofMarch, daysInMonth]
    cases hleap : isLeapYear (year + 1) with
    | true =>
      rw [hleap] at hlimit
      simpa [hleap] using hlimit
    | false =>
      rw [hleap] at hlimit
      simpa [hleap] using hlimit
  all_goals
    refine ⟨by simp [ofMarch], by simp [ofMarch], hday, ?_⟩
    simp [ofMarch, daysInMonth]
    omega

end OfMarch

/-! ## Days and their dates -/

theorem dayNumber_ofDayNumber (n : Int) : (ofDayNumber n).dayNumber = n := by
  obtain ⟨era, y, dayOfYear, month, ⟨hy, hd, -⟩, hn, hmonth, hdate⟩ := ofDayNumber_eq n
  have hyear : (y + era * 400) / 400 = era ∧ (y + era * 400) % 400 = y := by omega
  rw [hdate, dayNumber_ofMarch (by omega) (by omega), hyear.1, hyear.2]
  omega

theorem isValid_ofDayNumber (n : Int) : (ofDayNumber n).IsValid := by
  obtain ⟨era, y, dayOfYear, month, ⟨hy, hd, hleap⟩, hn, hmonth, hdate⟩ := ofDayNumber_eq n
  rw [hdate]
  refine isValid_ofMarch (by omega) (by omega) (by omega) fun hfebruary => ?_
  cases hyear : isLeapYear (y + era * 400 + 1) with
  | true =>
    rw [if_pos rfl]
    omega
  | false =>
    have hshort : dayOfYear ≠ 365 := by
      intro hlast
      obtain ⟨hfour, hcentury⟩ := hleap hlast
      simp only [isLeapYear, Bool.and_eq_false_iff, Bool.or_eq_false_iff, decide_eq_false_iff_not,
        ne_eq, Decidable.not_not] at hyear
      omega
    rw [if_neg (by decide)]
    omega

/-- A day of a year of four digits is not far from the start of the count. -/
theorem bounds_of_year {n : Int} (h : 0 ≤ (ofDayNumber n).year)
    (h' : (ofDayNumber n).year ≤ 9999) : -1000000 ≤ n ∧ n ≤ 3000000 := by
  obtain ⟨era, y, dayOfYear, month, ⟨hy, hd, -⟩, hn, -, hdate⟩ := ofDayNumber_eq n
  rw [hdate] at h h'
  have hyear : y + era * 400 ≤ (ofMarch (y + era * 400) month
      (dayOfYear - (153 * month + 2) / 5 + 1)).year ∧
      (ofMarch (y + era * 400) month (dayOfYear - (153 * month + 2) / 5 + 1)).year ≤
        y + era * 400 + 1 := by
    simp only [ofMarch]
    constructor <;> split <;> omega
  have hera : -1 ≤ era ∧ era ≤ 24 := by omega
  unfold yearStart at hn
  omega

end ProjectRegistry.Time.Date
