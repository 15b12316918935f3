import ProjectRegistry.Proofs.Store.Soundness

/-!
# Names of active projects

No two active projects ever have one name: a project is only created under a name that no active one
holds, and no change makes a project active again or gives it another name. Names and descriptions
keep to the limits that they were checked against.

Projects are created in the order of their ids, and none ever goes.
-/

namespace ProjectRegistry

variable {C : Columns} {M : Medium C} {limits : Limits}

/-- Whether no two active projects have one name. -/
def Relations.NamesUnique (r : Relations C) : Prop :=
  ∀ p q row row', r.projects.find? p = some row → r.projects.find? q = some row' →
    row.active = true →
    row'.active = true → row.name = row'.name → p = q

theorem Relations.namesUnique_empty : (Relations.empty : Relations C).NamesUnique := by
  intro p q row row' h
  cases h

theorem Relations.ne_of_not_holdsName {r : Relations C} {name : String}
    (h : r.holdsName name = false) {p : Int32} {row : ProjectRow C}
    (hrow : r.projects.find? p = some row) (hactive : row.active = true) : row.name ≠ name := by
  intro he
  have hholds : r.holdsName name = true :=
    Table.any_rows_iff.2 ⟨p, row, hrow, by simp [hactive, he]⟩
  rw [h] at hholds
  cases hholds

namespace Change

private theorem old_of_modify {t : Table Int32 (ProjectRow C)} {id p : Int32}
    {f : ProjectRow C → ProjectRow C} {row : ProjectRow C}
    (hrow : (t.modify id f).find? p = some row) (hname : ∀ old, (f old).name = old.name)
    (hactive : ∀ old, (f old).active = true → old.active = true) :
    ∃ old, t.find? p = some old ∧ old.name = row.name ∧
      (row.active = true → old.active = true) := by
  rw [Table.find?_modify] at hrow
  split at hrow
  · obtain ⟨old, hold, rfl⟩ := Option.map_eq_some_iff.1 hrow
    exact ⟨old, hold, (hname old).symm, hactive old⟩
  · exact ⟨row, hrow, rfl, fun h => h⟩

/-- A change that creates no project gives none another name and makes none active. -/
theorem old_of_apply {r : Relations C} {c : Change} (hold : c.newProject? = none) {p : Int32}
    {row : ProjectRow C} (hrow : (c.apply M r).projects.find? p = some row) :
    ∃ old, r.projects.find? p = some old ∧ old.name = row.name ∧
      (row.active = true → old.active = true) := by
  cases c with
  | create id name description creator now => cases hold
  | retire id name user now => exact old_of_modify hrow (fun _ => rfl) fun _ h => by cases h
  | describe | configure | register | point => exact old_of_modify hrow (fun _ => rfl) fun _ h => h
  | grant | revoke | log | clean | putBundles | putFlows => exact ⟨row, hrow, rfl, fun h => h⟩

theorem namesUnique_create {r : Relations C} (h : r.NamesUnique) {id : Int32}
    {name description creator : String} {now : Time.Instant}
    (hfit : (create id name description creator now).Fits M limits r) :
    ((create id name description creator now).apply M r).NamesUnique := by
  have hfree := hfit.2.2.1
  intro p q row row' hp hq ha ha' hn
  simp only [apply, onProjects, Table.find?_insert] at hp hq
  split at hp <;> split at hq
  · next hid hid' => exact hid.symm.trans hid'
  · cases hp
    exact absurd hn.symm (Relations.ne_of_not_holdsName hfree hq ha')
  · cases hq
    exact absurd hn (Relations.ne_of_not_holdsName hfree hp ha)
  · exact h p q row row' hp hq ha ha' hn

theorem namesUnique_of_old {r : Relations C} (h : r.NamesUnique) {c : Change}
    (hold : c.newProject? = none) : (c.apply M r).NamesUnique := by
  intro p q row row' hp hq ha ha' hn
  obtain ⟨old, hold₁, hname₁, hactive₁⟩ := old_of_apply hold hp
  obtain ⟨old', hold₂, hname₂, hactive₂⟩ := old_of_apply hold hq
  exact h p q old old' hold₁ hold₂ (hactive₁ ha) (hactive₂ ha') (by rw [hname₁, hname₂, hn])

theorem namesUnique_apply {r : Relations C} (h : r.NamesUnique) {c : Change}
    (hfit : c.Fits M limits r) :
    (c.apply M r).NamesUnique := by
  cases c
  case create id name description creator now => exact namesUnique_create h hfit
  all_goals exact namesUnique_of_old h rfl

theorem namesUnique_applyAll {r : Relations C} (h : r.NamesUnique) {cs : List Change}
    (hfit : AllFit M limits cs r) : (applyAll M cs r).NamesUnique :=
  applyAll_induct (fun _ _ hr hc => namesUnique_apply hr hc) h hfit

end Change

/-! ## Retired projects -/

/-- Whether a project is there and not active. -/
def Relations.IsRetired (r : Relations C) (p : Int32) : Prop :=
  ∃ row, r.projects.find? p = some row ∧ row.active = false

namespace Change

theorem retired_of_old {r : Relations C} {p : Int32} (h : r.IsRetired p) {c : Change}
    (hold : c.newProject? = none) : (c.apply M r).IsRetired p := by
  obtain ⟨row, hrow, hretired⟩ := h
  obtain ⟨row', hrow'⟩ := Table.contains_iff.1
    (contains_apply_of_contains (M := M) c (Table.contains_of_find? hrow))
  obtain ⟨old, hrow₁, -, hactive⟩ := old_of_apply hold hrow'
  cases hrow.symm.trans hrow₁
  refine ⟨row', hrow', ?_⟩
  rw [Bool.eq_false_iff]
  intro h
  rw [hactive h] at hretired
  cases hretired

/-- A project that is retired stays so. -/
theorem retired_apply {r : Relations C} {p : Int32} (h : r.IsRetired p) {c : Change}
    (hfit : c.Fits M limits r) : (c.apply M r).IsRetired p := by
  cases c
  case create id name description creator now =>
    obtain ⟨row, hrow, hretired⟩ := h
    have hne : id ≠ p := by
      rintro rfl
      have hnew := not_contains_of_fits_create hfit
      rw [Table.contains_of_find? hrow] at hnew
      cases hnew
    exact ⟨row, by simp [apply, onProjects, Table.find?_insert, hne, hrow], hretired⟩
  all_goals exact retired_of_old h rfl

theorem retired_applyAll {r : Relations C} {p : Int32} (h : r.IsRetired p) {cs : List Change}
    (hfit : AllFit M limits cs r) : (applyAll M cs r).IsRetired p :=
  applyAll_induct (fun _ _ hr hc => retired_apply hr hc) h hfit

end Change

/-! ## Texts within their limits -/

namespace Limits

theorem checkName_eq_ok_iff {l : Limits} {name : String} :
    l.checkName name = .ok () ↔ isBlankName name = false ∧ name.length ≤ l.name := by
  unfold checkName
  split
  · next hblank => simp [hblank]
  · next hblank =>
    split
    · next hlong => simp [Nat.not_le.2 hlong]
    · next hshort => simp [Nat.not_lt.1 hshort, hblank]

theorem checkDescription_eq_ok_iff {l : Limits} {description : String} :
    l.checkDescription description = .ok () ↔ description.length ≤ l.description := by
  unfold checkDescription
  split
  · next hlong => simp [Nat.not_le.2 hlong]
  · next hshort => simp [Nat.not_lt.1 hshort]

end Limits

/-- Whether all names and descriptions are within some limits. -/
def Relations.WithinLimits (limits : Limits) (r : Relations C) : Prop :=
  ∀ p row, r.projects.find? p = some row →
    limits.checkName row.name = .ok () ∧ limits.checkDescription row.description = .ok ()

namespace Change

theorem withinLimits_apply {r : Relations C} (h : r.WithinLimits limits) {c : Change}
    (hfit : c.Fits M limits r) : (c.apply M r).WithinLimits limits := by
  have hmodify {id : Int32} {f : ProjectRow C → ProjectRow C}
      (hf : ∀ old, limits.checkName old.name = .ok () →
        limits.checkDescription old.description = .ok () →
        limits.checkName (f old).name = .ok () ∧
          limits.checkDescription (f old).description = .ok ())
      (p : Int32) (row : ProjectRow C) (hrow : (r.projects.modify id f).find? p = some row) :
      limits.checkName row.name = .ok () ∧ limits.checkDescription row.description = .ok () := by
    rw [Table.find?_modify] at hrow
    split at hrow
    · obtain ⟨old, hold, rfl⟩ := Option.map_eq_some_iff.1 hrow
      exact hf old (h p old hold).1 (h p old hold).2
    · exact h p row hrow
  cases c with
  | create id name description creator now =>
    intro p row hrow
    simp only [apply, onProjects, Table.find?_insert] at hrow
    split at hrow
    · cases hrow
      exact ⟨hfit.1, hfit.2.1⟩
    · exact h p row hrow
  | describe id description user now => exact hmodify fun _ hname _ => ⟨hname, hfit.1⟩
  | retire | configure | register | point => exact hmodify fun _ hname hold => ⟨hname, hold⟩
  | grant | revoke | log | clean | putBundles | putFlows => exact h

theorem withinLimits_applyAll {r : Relations C} (h : r.WithinLimits limits) {cs : List Change}
    (hfit : AllFit M limits cs r) : (applyAll M cs r).WithinLimits limits :=
  applyAll_induct (fun _ _ hr hc => withinLimits_apply hr hc) h hfit

/-! ## Ids in their order -/

/-- A project that is created comes behind all others. -/
theorem keys_apply {r : Relations C} {c : Change} (hfit : c.Fits M limits r) :
    (c.apply M r).projects.keys = r.projects.keys ++ c.newProject?.toList := by
  cases c with
  | create id name description creator now =>
    exact Table.keys_insert_last (fun p hp => decide_eq_true (hfit.2.2.2 p hp)) _
  | retire | describe | configure | register | point =>
    exact (Table.keys_modify _ _ _).trans (List.append_nil _).symm
  | grant | revoke | log | clean | putBundles | putFlows => exact (List.append_nil _).symm

theorem keys_applyAll {r : Relations C} {cs : List Change} (hfit : AllFit M limits cs r) :
    (applyAll M cs r).projects.keys = r.projects.keys ++ cs.filterMap newProject? := by
  induction cs generalizing r with
  | nil => exact (List.append_nil _).symm
  | cons c cs ih =>
    rw [applyAll_cons, ih hfit.2, keys_apply hfit.1, List.filterMap_cons, List.append_assoc]
    cases c.newProject? <;> rfl

end Change

end ProjectRegistry
