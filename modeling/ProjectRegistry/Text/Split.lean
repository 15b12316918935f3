/-!
# Splitting at a separator

The parts of a list between the places where a separator stands. There is one part more than there
are separators, and parts may be empty.
-/

namespace ProjectRegistry.Text

def splitAt {α : Type} [DecidableEq α] (separator : α) : List α → List (List α)
  | [] => [[]]
  | a :: rest =>
    if a = separator then [] :: splitAt separator rest
    else match splitAt separator rest with
      | [] => [[a]]
      | part :: parts => (a :: part) :: parts

def joinWith {α : Type} (separator : List α) : List (List α) → List α
  | [] => []
  | [part] => part
  | part :: parts => part ++ separator ++ joinWith separator parts

theorem splitAt_ne_nil {α : Type} [DecidableEq α] (separator : α) (as : List α) :
    splitAt separator as ≠ [] := by
  induction as with
  | nil => simp [splitAt]
  | cons a rest ih =>
    simp only [splitAt]
    split
    · simp
    · split <;> simp

theorem splitAt_cons_of_ne {α : Type} [DecidableEq α] {separator a : α} (h : a ≠ separator)
    (as : List α) : ∃ part parts, splitAt separator as = part :: parts ∧
      splitAt separator (a :: as) = (a :: part) :: parts := by
  cases hp : splitAt separator as with
  | nil => exact absurd hp (splitAt_ne_nil separator as)
  | cons part parts => exact ⟨part, parts, rfl, by rw [splitAt, if_neg h, hp]⟩

theorem splitAt_append {α : Type} [DecidableEq α] (separator : α) (as bs : List α) :
    splitAt separator (as ++ separator :: bs) = splitAt separator as ++ splitAt separator bs := by
  induction as with
  | nil => simp [splitAt]
  | cons a rest ih =>
    by_cases h : a = separator
    · simp [splitAt, h, ih]
    · obtain ⟨part, parts, hp, hsplit⟩ := splitAt_cons_of_ne h rest
      rw [hsplit, List.cons_append, splitAt, if_neg h, ih, hp]
      rfl

/-- What has no separator in it goes to the first part of the rest. -/
theorem splitAt_append_of_not_mem {α : Type} [DecidableEq α] {separator : α}
    {as bs part : List α} {parts : List (List α)} (has : separator ∉ as)
    (hbs : splitAt separator bs = part :: parts) :
    splitAt separator (as ++ bs) = (as ++ part) :: parts := by
  induction as with
  | nil => exact hbs
  | cons a rest ih =>
    rw [List.mem_cons, not_or] at has
    rw [List.cons_append, splitAt, if_neg (Ne.symm has.1), ih has.2]
    rfl

/-- No part has a separator in it. -/
theorem not_mem_of_mem_splitAt {α : Type} [DecidableEq α] {separator : α} {as part : List α}
    (h : part ∈ splitAt separator as) : separator ∉ part := by
  induction as generalizing part with
  | nil => simp [List.mem_singleton.1 h]
  | cons a rest ih =>
    by_cases ha : a = separator
    · rw [splitAt, if_pos ha] at h
      rcases List.mem_cons.1 h with rfl | h
      · simp
      · exact ih h
    · obtain ⟨first, parts, hp, hsplit⟩ := splitAt_cons_of_ne ha rest
      rw [hsplit] at h
      rcases List.mem_cons.1 h with rfl | h
      · have hfirst : separator ∉ first := ih (hp ▸ List.mem_cons_self)
        simp [Ne.symm ha, hfirst]
      · exact ih (hp ▸ List.mem_cons_of_mem first h)

theorem splitAt_of_not_mem {α : Type} [DecidableEq α] {separator : α} {as : List α}
    (h : separator ∉ as) : splitAt separator as = [as] := by
  induction as with
  | nil => rfl
  | cons a rest ih =>
    rw [List.mem_cons, not_or] at h
    rw [splitAt, if_neg (Ne.symm h.1), ih h.2]

end ProjectRegistry.Text
