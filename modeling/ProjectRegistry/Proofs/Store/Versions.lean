import ProjectRegistry.Proofs.Store.Journal

/-!
# What becomes of versions

The row of a version is written when the version is registered and stays the same from then on. Only
cleaning up takes it away, and only below the bound. It does not come back, because its number is
then used up.

What goes with a version are its bundles and flows, and nothing else.
-/

namespace ProjectRegistry

variable {C : Columns} {M : Medium C} {limits : Limits} {r : Relations C}

namespace Change

def registers : Change → Bool
  | .register _ => true
  | _ => false

theorem numberFor?_of_not_registers {c : Change} (h : c.registers = false) (p : Int32) :
    c.numberFor? p = none := by
  cases c <;> simp_all [registers, numberFor?]

theorem markOf_applyAll {cs : List Change} (h : ∀ c ∈ cs, c.registers = false)
    (hfit : AllFit M limits cs r) (p : Int32) : (applyAll M cs r).markOf M p = r.markOf M p := by
  induction cs generalizing r with
  | nil => rfl
  | cons c cs ih =>
    obtain ⟨hc, hcs⟩ := hfit
    rw [applyAll_cons, ih (fun d hd => h d (List.mem_cons_of_mem c hd)) hcs, markOf_apply hc,
      numberFor?_of_not_registers (h c List.mem_cons_self)]
    rfl

theorem find?_versions_apply (c : Change) (p n : Int32) :
    (c.apply M r).versions.find? (p, n) =
      match c with
      | .register v =>
        if (v.project, v.number) = (p, n) then some ((VersionRow.ofVersion v).write M)
        else r.versions.find? (p, n)
      | .clean id bound =>
        if !(decide (p = id) && r.isDoomed M id bound n) then r.versions.find? (p, n) else none
      | _ => r.versions.find? (p, n) := by
  cases c <;> simp only [apply, onVersions, Table.find?_insert, Table.find?_filterKeys]

/-- Whether a change cleans up a project below a bound that a number is under. -/
def CleansUp (p n : Int32) : Change → Prop
  | .clean id bound => id = p ∧ n < bound
  | _ => False

theorem find?_versions_apply_cases {c : Change} (hfit : c.Fits M limits r) {p n : Int32}
    {row : VersionRow C} (h : r.versions.find? (p, n) = some row) :
    (c.apply M r).versions.find? (p, n) = some row ∨
      (c.apply M r).versions.find? (p, n) = none ∧ c.CleansUp p n := by
  rw [find?_versions_apply]
  cases c
  case register v =>
    obtain ⟨_, hnew, _⟩ := hfit
    have hne : (v.project, v.number) ≠ (p, n) := by
      intro he
      cases he
      rw [Relations.hasVersion, Table.contains_of_find? h] at hnew
      cases hnew
    exact .inl (by simp only [if_neg hne, h])
  case clean id bound =>
    cases hdoomed : decide (p = id) && r.isDoomed M id bound n with
    | false => exact .inl (by simp [hdoomed, h])
    | true =>
      refine .inr ⟨by simp [hdoomed], ?_⟩
      simp only [Relations.isDoomed, Bool.and_eq_true, decide_eq_true_eq] at hdoomed
      exact ⟨hdoomed.1.symm, hdoomed.2.1⟩
  all_goals exact .inl h

theorem markOf_le_apply {c : Change} (hfit : c.Fits M limits r) (p : Int32) :
    r.markOf M p ≤ (c.apply M r).markOf M p := by
  rw [markOf_apply hfit]
  cases c
  case register v =>
    obtain ⟨_, _, _, hmark⟩ := hfit
    simp only [numberFor?]
    split
    · next hp =>
      subst hp
      exact Int.le_of_lt hmark
    · exact Int.le_refl _
  all_goals exact Int.le_refl _

end Change

/-- Whether a number is used up: no version has it, and the highest number is not below it. -/
def Relations.Spent (M : Medium C) (r : Relations C) (p n : Int32) : Prop :=
  r.versions.find? (p, n) = none ∧ n.toInt ≤ r.markOf M p

namespace Change

theorem spent_apply {c : Change} (hfit : c.Fits M limits r) {p n : Int32} (h : r.Spent M p n) :
    (c.apply M r).Spent M p n := by
  obtain ⟨hnone, hn⟩ := h
  refine ⟨?_, Int.le_trans hn (markOf_le_apply hfit p)⟩
  rw [find?_versions_apply]
  cases c
  case register v =>
    obtain ⟨_, _, _, hmark⟩ := hfit
    have hne : (v.project, v.number) ≠ (p, n) := by
      intro he
      cases he
      omega
    simp only [if_neg hne, hnone]
  case clean id bound => simp only [hnone, ite_self]
  all_goals exact hnone

theorem spent_applyAll {cs : List Change} (hfit : AllFit M limits cs r) {p n : Int32}
    (h : r.Spent M p n) :
    (applyAll M cs r).Spent M p n :=
  applyAll_induct (fun _ _ hspent hc => spent_apply hc hspent) h hfit

/-- A row that changes take away was cleaned up by one of them, and its number is used up. -/
theorem find?_versions_applyAll {cs : List Change} (hfit : AllFit M limits cs r) {p n : Int32}
    {row : VersionRow C} (h : r.versions.find? (p, n) = some row) (hn : n.toInt ≤ r.markOf M p) :
    (applyAll M cs r).versions.find? (p, n) = some row ∨
      (applyAll M cs r).Spent M p n ∧ ∃ c ∈ cs, c.CleansUp p n := by
  induction cs generalizing r with
  | nil => exact .inl h
  | cons c cs ih =>
    obtain ⟨hc, hcs⟩ := hfit
    have hmark := Int.le_trans hn (markOf_le_apply hc p)
    rw [applyAll_cons]
    rcases find?_versions_apply_cases hc h with hkept | ⟨hgone, hclean⟩
    · rcases ih hcs hkept hmark with hkept | ⟨hspent, d, hd, hclean⟩
      · exact .inl hkept
      · exact .inr ⟨hspent, d, List.mem_cons_of_mem c hd, hclean⟩
    · exact .inr ⟨spent_applyAll hcs ⟨hgone, hmark⟩, c, List.mem_cons_self, hclean⟩

theorem versionsTimed_applyAll {l : Relations live} (h : l.VersionsTimed) {cs : List Change}
    (htime : ∀ v, .register v ∈ cs → v.uploadTime.OnCalendar) :
    (applyAll .values cs l).VersionsTimed := by
  induction cs generalizing l with
  | nil => exact h
  | cons c cs ih =>
    rw [applyAll_cons]
    refine ih (fun k row hrow => ?_) fun v hv => htime v (List.mem_cons_of_mem c hv)
    rw [find?_versions_apply] at hrow
    split at hrow
    · next v =>
      split at hrow
      · cases hrow
        exact htime v List.mem_cons_self
      · exact h k row hrow
    · split at hrow
      · exact h k row hrow
      · cases hrow
    · exact h k row hrow

end Change

/-! ## Taking versions away -/

namespace Relations

/-- Relations without some versions and what belongs to them. -/
def without (r : Relations C) (gone : Int32 → Int32 → Bool) : Relations C := { r with
  versions := r.versions.filter fun k _ => !gone k.1 k.2
  bundles := r.bundles.filter fun k _ => !gone k.1 k.2.1
  flows := r.flows.filter fun k _ => !gone k.1 k.2.1 }

theorem find?_versions_without (gone : Int32 → Int32 → Bool) (p v : Int32) :
    (r.without gone).versions.find? (p, v) =
      if gone p v then none else r.versions.find? (p, v) := by
  rw [without, Table.find?_filterKeys]
  cases gone p v <;> rfl

theorem find?_bundles_without (gone : Int32 → Int32 → Bool) (p v : Int32) (path : String) :
    (r.without gone).bundles.find? (p, v, path) =
      if gone p v then none else r.bundles.find? (p, v, path) := by
  rw [without, Table.find?_filterKeys]
  cases gone p v <;> rfl

theorem find?_flows_without (gone : Int32 → Int32 → Bool) (p v : Int32) (id : String) :
    (r.without gone).flows.find? (p, v, id) =
      if gone p v then none else r.flows.find? (p, v, id) := by
  rw [without, Table.find?_filterKeys]
  cases gone p v <;> rfl

theorem hasVersion_without (gone : Int32 → Int32 → Bool) (p v : Int32) :
    (r.without gone).hasVersion p v = (!gone p v && r.hasVersion p v) := by
  rw [hasVersion, without, Table.contains_filterKeys]
  rfl

theorem versionsOf_without (gone : Int32 → Int32 → Bool) (p : Int32) :
    (r.without gone).versionsOf p = (r.versionsOf p).filter fun e => !gone p e.1 := by
  simp only [versionsOf, without, Table.filter, List.filter_filter, List.filter_map]
  congr 1
  apply List.filter_congr
  intro e _
  by_cases hp : e.1.1 = p <;> simp [hp]

theorem without_without (f g : Int32 → Int32 → Bool) :
    (r.without f).without g = r.without fun p v => f p v || g p v := by
  simp only [without, Table.filter_filter]
  simp only [← Bool.not_or]

/-- Whatever belongs to versions that are not there is not there either. -/
theorem without_congr (h : r.Sound M) {f g : Int32 → Int32 → Bool}
    (hfg : ∀ p v, r.hasVersion p v = true → f p v = g p v) : r.without f = r.without g := by
  have hversions := Table.filterKeys_congr (t := r.versions) fun k hk =>
    congrArg (!·) (hfg k.1 k.2 hk)
  have hbundles := Table.filterKeys_congr (t := r.bundles) fun k hk =>
    congrArg (!·) (hfg k.1 k.2.1 (h.bundle hk))
  have hflows := Table.filterKeys_congr (t := r.flows) fun k hk =>
    congrArg (!·) (hfg k.1 k.2.1 (h.flow hk))
  simp only [without, hversions, hbundles, hflows]

theorem without_nothing : (r.without fun _ _ => false) = r := by
  simp only [without, Table.filterKeys_eq_self fun _ _ => Bool.not_false]

end Relations

theorem Change.clean_apply (p bound : Int32) :
    (Change.clean p bound).apply M r =
      r.without fun q v => decide (q = p) && r.isDoomed M p bound v :=
  Change.apply_of_silent M rfl r

theorem Change.clean_apply_idle (h : r.Sound M) {p bound : Int32}
    (hidle : r.doomedOf M p bound = []) : (Change.clean p bound).apply M r = r := by
  rw [Change.clean_apply, Relations.without_congr h (g := fun _ _ => false) fun q v hv => ?_]
  · exact Relations.without_nothing
  · obtain ⟨row, hrow⟩ := Table.contains_iff.1 hv
    by_cases hq : q = p
    · subst hq
      have hnot := List.filter_eq_nil_iff.1 hidle (v, row) (Relations.mem_versionsOf_iff.2 hrow)
      simpa using hnot
    · simp [hq]

end ProjectRegistry
