import ProjectRegistry.Time.Instant

/-!
# Stored times

A database stores milliseconds. What comes back is the same instant without what is below a
millisecond, if its day is one of the calendar.
-/

namespace ProjectRegistry.Time.Instant

/-- Whether the millisecond of an instant lies on a day of the calendar. A clock shows no other. -/
def OnCalendar (t : Instant) : Prop :=
  firstDay ≤ t.millis / 86400000 ∧ t.millis / 86400000 ≤ lastDay

instance (t : Instant) : Decidable t.OnCalendar := inferInstanceAs (Decidable (_ ∧ _))

/-- The start of 1970, which stands in where a time does not matter. -/
def epoch : Instant := ⟨0, 0⟩

/-- An instant without what is below a millisecond. -/
def truncated (t : Instant) : Instant := ⟨t.millis / 1000, (t.millis % 1000).toNat * 1000000⟩

theorem ofMillis?_millis {t : Instant} (h : t.OnCalendar) :
    ofMillis? t.millis = some t.truncated := by
  obtain ⟨hfirst, hlast⟩ := h
  rw [ofMillis?, if_pos ⟨hfirst, hlast⟩]
  rfl

theorem atMost_iff {s t : Instant} :
    s.atMost t = true ↔ s.seconds < t.seconds ∨ (s.seconds = t.seconds ∧ s.nanos ≤ t.nanos) := by
  simp [atMost]

theorem atMost_refl (t : Instant) : t.atMost t = true := atMost_iff.2 (.inr ⟨rfl, Nat.le_refl _⟩)

theorem atMost_trans {s t u : Instant} (h : s.atMost t = true) (g : t.atMost u = true) :
    s.atMost u = true := by
  rw [atMost_iff] at *
  omega

/-- An instant that a clock can show and a database can store: on the calendar and not within a leap
second. -/
structure Ordinary (t : Instant) : Prop where
  onCalendar : t.OnCalendar
  nanos : t.nanos < 1000000000

instance (t : Instant) : Decidable t.Ordinary :=
  decidable_of_iff (t.OnCalendar ∧ t.nanos < 1000000000)
    ⟨fun h => ⟨h.1, h.2⟩, fun h => ⟨h.onCalendar, h.nanos⟩⟩

/-- Times keep their order when they are stored, unless one is within a leap second. -/
theorem millis_le {s t : Instant} (hs : s.Ordinary) (h : s.atMost t = true) :
    s.millis ≤ t.millis := by
  have hnanos := hs.nanos
  rw [atMost_iff] at h
  simp only [millis]
  omega

end ProjectRegistry.Time.Instant
