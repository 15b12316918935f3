import ProjectRegistry.Proofs.Store.Change

/-!
# Sound relations

Relations are sound when nothing in them hangs in the air: what belongs to a project or to a version
belongs to one that is there, the numbers of versions lie between 1 and the highest that their
project ever had, and the pointer of a project is missing before its first version and names one of
its versions from then on.

Every change that fits keeps relations sound. The parts depend on each other: cleaning up is
harmless because it spares the version that the pointer names, and bundles and flows are only put
where there is a version.
-/

namespace ProjectRegistry

variable {C : Columns} {M : Medium C} {limits : Limits} {r : Relations C}

structure Relations.Sound (M : Medium C) (r : Relations C) : Prop where
  version {p v : Int32} : r.hasVersion p v = true →
    r.projects.contains p = true ∧ 1 ≤ v.toInt ∧ v.toInt ≤ r.markOf M p
  grant {p : Int32} {isGroup : Bool} {name : String} {rights : C.Rights} :
    r.grants.find? (p, isGroup, name) = some rights →
      r.projects.contains p = true ∧ (M.rightsOf rights).isEmpty = false
  bundle {p v : Int32} {path : String} :
    r.bundles.contains (p, v, path) = true → r.hasVersion p v = true
  flow {p v : Int32} {id : String} : r.flows.contains (p, v, id) = true → r.hasVersion p v = true
  /-- The highest number is one of 32 bits, whatever the column could hold. -/
  mark (p : Int32) : ∃ n : Int32, r.markOf M p = n.toInt
  pointer_none (p : Int32) : r.pointerOf M p = none ↔ r.markOf M p = 0
  pointer_some {p : Int32} {n : Int} :
    r.pointerOf M p = some n → ∃ v : Int32, v.toInt = n ∧ r.hasVersion p v = true

theorem Relations.sound_empty : (Relations.empty : Relations C).Sound M where
  version h := by simp [hasVersion, empty] at h
  grant h := by simp [empty] at h
  bundle h := by simp [empty] at h
  flow h := by simp [empty] at h
  mark p := ⟨0, rfl⟩
  pointer_none p := by simp [pointerOf, markOf, empty]
  pointer_some h := by simp [pointerOf, empty] at h

namespace Change

/-- The number under which a change registers a version of a project. -/
def numberFor? (p : Int32) : Change → Option Int32
  | .register v => if v.project = p then some v.number else none
  | _ => none

/-- The pointer of a project after a change. -/
def pointerAfter (p : Int32) (pointer : Option Int) : Change → Option Int
  | .register v => if v.project = p then some (pointer.getD v.number.toInt) else pointer
  | .point id version _ _ => if id = p then some version.toInt else pointer
  | _ => pointer

/-- Whether a version is there after a change. -/
def keepsVersion (M : Medium C) (r : Relations C) (p v : Int32) : Change → Bool
  | .register w => decide ((w.project, w.number) = (p, v)) || r.hasVersion p v
  | .clean id bound => !(decide (p = id) && r.isDoomed M id bound v) && r.hasVersion p v
  | _ => r.hasVersion p v

theorem hasVersion_apply (c : Change) (p v : Int32) :
    (c.apply M r).hasVersion p v = c.keepsVersion M r p v := by
  cases c <;> simp only [Relations.hasVersion, apply, onVersions, keepsVersion,
    Table.contains_insert, Table.contains_filterKeys]

def newProject? : Change → Option Int32
  | .create id .. => some id
  | _ => none

theorem contains_apply (c : Change) (p : Int32) :
    (c.apply M r).projects.contains p =
      (r.projects.contains p || decide (c.newProject? = some p)) := by
  cases c <;> simp [apply, onProjects, newProject?, Table.contains_insert, Bool.or_comm]

theorem contains_apply_of_contains (c : Change) {p : Int32} (h : r.projects.contains p = true) :
    (c.apply M r).projects.contains p = true := by
  rw [contains_apply, h, Bool.true_or]

theorem contains_applyAll_of_old {cs : List Change} (h : ∀ c ∈ cs, c.newProject? = none)
    (p : Int32) :
    (applyAll M cs r).projects.contains p = r.projects.contains p := by
  induction cs generalizing r with
  | nil => rfl
  | cons c cs ih =>
    rw [applyAll_cons, ih fun d hd => h d (List.mem_cons_of_mem c hd), contains_apply,
      h c List.mem_cons_self]
    simp

theorem not_contains_of_fits_create {id : Int32} {name description creator : String}
    {now : Time.Instant} (h : (Change.create id name description creator now).Fits M limits r) :
    r.projects.contains id = false := by
  cases hc : r.projects.contains id with
  | false => rfl
  | true => exact absurd (h.2.2.2 id hc) Int32.lt_irrefl

private theorem markOf_modify {t : Table Int32 (ProjectRow C)} {id : Int32}
    {f : ProjectRow C → ProjectRow C} (hf : ∀ row, (f row).lastVersion = row.lastVersion)
    (p : Int32) :
    ((t.modify id f).find? p).map (fun row => M.value row.lastVersion) =
      (t.find? p).map fun row => M.value row.lastVersion := by
  rw [Table.find?_modify]
  split
  · simp [Function.comp_def, hf]
  · rfl

private theorem pointerOf_modify {t : Table Int32 (ProjectRow C)} {id : Int32}
    {f : ProjectRow C → ProjectRow C} (hf : ∀ row, (f row).pointer = row.pointer) (p : Int32) :
    (((t.modify id f).find? p).bind fun row => row.pointer.map M.value) =
      (t.find? p).bind fun row => row.pointer.map M.value := by
  rw [Table.find?_modify]
  split
  · cases t.find? p <;> simp [hf]
  · rfl

/-- The highest number of a project rises when a version is registered and never else. -/
theorem markOf_apply {c : Change} (hfit : c.Fits M limits r) (p : Int32) :
    (c.apply M r).markOf M p = ((c.numberFor? p).map Int32.toInt).getD (r.markOf M p) := by
  cases c <;> simp only [Relations.markOf, apply, onProjects, numberFor?, Option.map_none,
    Option.getD_none]
  case create id name description creator now =>
    rw [Table.find?_insert]
    split
    · next h =>
      subst h
      rw [Table.find?_eq_none_of_not_contains (not_contains_of_fits_create hfit)]
      simp [ProjectRow.write, ProjectRow.new]
    · rfl
  case retire | describe | configure | point =>
    rw [markOf_modify]
    intro row
    rfl
  case register v =>
    obtain ⟨hproject, _⟩ := hfit
    obtain ⟨row, hrow⟩ := Table.contains_iff.1 hproject
    rw [Table.find?_modify]
    by_cases h : p = v.project
    · subst h
      simp [hrow]
    · simp [h, Ne.symm h]

/-- The pointer of a project moves to the first version and where it is sent, and never else. -/
theorem pointerOf_apply {c : Change} (hfit : c.Fits M limits r) (p : Int32) :
    (c.apply M r).pointerOf M p = c.pointerAfter p (r.pointerOf M p) := by
  cases c <;> simp only [Relations.pointerOf, apply, onProjects, pointerAfter]
  case create id name description creator now =>
    rw [Table.find?_insert]
    split
    · next h =>
      subst h
      rw [Table.find?_eq_none_of_not_contains (not_contains_of_fits_create hfit)]
      rfl
    · rfl
  case retire | describe | configure =>
    rw [pointerOf_modify]
    intro row
    rfl
  case register v =>
    obtain ⟨hproject, _⟩ := hfit
    obtain ⟨row, hrow⟩ := Table.contains_iff.1 hproject
    rw [Table.find?_modify]
    by_cases h : p = v.project
    · subst h
      rcases hp : row.pointer with _ | n <;> simp [hrow, hp]
    · simp [h, Ne.symm h]
  case point id version user now =>
    obtain ⟨hproject, _⟩ := hfit
    obtain ⟨row, hrow⟩ := Table.contains_iff.1 hproject
    rw [Table.find?_modify]
    by_cases h : p = id
    · subst h
      simp [hrow]
    · simp [h, Ne.symm h]

end Change

namespace Relations.Sound

open Change

theorem toInt_ne_zero (h : r.Sound M) {p v : Int32} (hv : r.hasVersion p v = true) :
    v.toInt ≠ 0 := by
  have := (h.version hv).2.1
  omega

theorem isDoomed_pointer (h : r.pointerOf M p = some v.toInt) (bound : Int32) :
    r.isDoomed M p bound v = false := by
  simp [isDoomed, h]

theorem apply_version (h : r.Sound M) {c : Change} (hfit : c.Fits M limits r) {p v : Int32}
    (hv : (c.apply M r).hasVersion p v = true) :
    (c.apply M r).projects.contains p = true ∧ 1 ≤ v.toInt ∧
      v.toInt ≤ (c.apply M r).markOf M p := by
  rw [hasVersion_apply] at hv
  rw [markOf_apply hfit]
  have hold (hv : r.hasVersion p v = true)
      (hmark : r.markOf M p ≤ ((c.numberFor? p).map Int32.toInt).getD (r.markOf M p)) :
      (c.apply M r).projects.contains p = true ∧ 1 ≤ v.toInt ∧
        v.toInt ≤ ((c.numberFor? p).map Int32.toInt).getD (r.markOf M p) := by
    obtain ⟨hp, hlow, hhigh⟩ := h.version hv
    exact ⟨contains_apply_of_contains c hp, hlow, by omega⟩
  cases c
  case register w =>
    obtain ⟨hproject, _, hpos, hmark⟩ := hfit
    simp only [keepsVersion, Bool.or_eq_true, decide_eq_true_eq, Prod.mk.injEq] at hv
    rcases hv with ⟨rfl, rfl⟩ | hv
    · exact ⟨contains_apply_of_contains _ hproject, hpos, by simp [numberFor?]⟩
    · refine hold hv ?_
      simp only [numberFor?]
      split
      · next he =>
        subst he
        simp only [Option.map_some, Option.getD_some]
        omega
      · exact Int.le_refl _
  case clean id bound =>
    simp only [keepsVersion, Bool.and_eq_true] at hv
    exact hold hv.2 (Int.le_refl _)
  all_goals exact hold hv (Int.le_refl _)

theorem apply_grant (h : r.Sound M) {c : Change} (hfit : c.Fits M limits r) {p : Int32}
    {isGroup : Bool} {name : String} {rights : C.Rights}
    (hg : (c.apply M r).grants.find? (p, isGroup, name) = some rights) :
    (c.apply M r).projects.contains p = true ∧ (M.rightsOf rights).isEmpty = false := by
  have hold (hg : r.grants.find? (p, isGroup, name) = some rights) :
      (c.apply M r).projects.contains p = true ∧ (M.rightsOf rights).isEmpty = false :=
    ⟨contains_apply_of_contains c (h.grant hg).1, (h.grant hg).2⟩
  cases c
  case create id _ _ creator _ =>
    simp only [apply, onGrants, Table.find?_insert] at hg
    split at hg
    · next he =>
      cases he
      cases hg
      refine ⟨by simp [contains_apply, newProject?], ?_⟩
      rw [M.rightsOf_rights]
      decide
    · exact hold hg
  case grant id isGroup' principal given =>
    obtain ⟨hproject, hgiven⟩ := hfit
    simp only [apply, onGrants, Table.find?_insert] at hg
    split at hg
    · next he =>
      cases he
      cases hg
      exact ⟨contains_apply_of_contains _ hproject, by rw [M.rightsOf_rights]; exact hgiven⟩
    · exact hold hg
  case revoke id isGroup' principal =>
    simp only [apply, onGrants, Table.find?_erase] at hg
    split at hg
    · cases hg
    · exact hold hg
  all_goals exact hold hg

theorem hasVersion_of_spared {c : Change} {p v : Int32} (hv : r.hasVersion p v = true)
    (hspared : ∀ id bound, c = .clean id bound →
      (decide (p = id) && r.isDoomed M id bound v) = false) :
    (c.apply M r).hasVersion p v = true := by
  rw [hasVersion_apply]
  cases c
  case register w => simp [keepsVersion, hv]
  case clean id bound => simp only [keepsVersion, hspared id bound rfl, hv, Bool.not_false,
    Bool.and_self]
  all_goals exact hv

theorem apply_bundle (h : r.Sound M) {c : Change} (hfit : c.Fits M limits r) {p v : Int32}
    {path : String} (hb : (c.apply M r).bundles.contains (p, v, path) = true) :
    (c.apply M r).hasVersion p v = true := by
  cases c
  case clean id bound =>
    simp only [Change.apply, onBundles, Table.contains_filterKeys, Bool.and_eq_true,
      Bool.not_eq_true'] at hb
    refine hasVersion_of_spared (h.bundle hb.2) ?_
    intro id' bound' he
    cases he
    exact hb.1
  case putBundles id version bundles =>
    simp only [Change.apply, onBundles, Table.contains_insertAll, List.mem_map] at hb
    refine hasVersion_of_spared ?_ (by simp)
    rcases hb with hb | ⟨_, ⟨b, _, rfl⟩, he⟩
    · exact h.bundle hb
    · cases he
      exact hfit
  all_goals exact hasVersion_of_spared (h.bundle hb) (by simp)

theorem apply_flow (h : r.Sound M) {c : Change} (hfit : c.Fits M limits r) {p v : Int32}
    {id : String} (hf : (c.apply M r).flows.contains (p, v, id) = true) :
    (c.apply M r).hasVersion p v = true := by
  cases c
  case clean id bound =>
    simp only [Change.apply, onFlows, Table.contains_filterKeys, Bool.and_eq_true,
      Bool.not_eq_true'] at hf
    refine hasVersion_of_spared (h.flow hf.2) ?_
    intro id' bound' he
    cases he
    exact hf.1
  case putFlows id version flows =>
    simp only [Change.apply, onFlows, Table.contains_insertAll, List.mem_map] at hf
    refine hasVersion_of_spared ?_ (by simp)
    rcases hf with hf | ⟨_, ⟨f, _, rfl⟩, he⟩
    · exact h.flow hf
    · cases he
      exact hfit
  all_goals exact hasVersion_of_spared (h.flow hf) (by simp)

theorem apply_mark (h : r.Sound M) {c : Change} (hfit : c.Fits M limits r) (p : Int32) :
    ∃ n : Int32, (c.apply M r).markOf M p = n.toInt := by
  rw [markOf_apply hfit]
  cases c.numberFor? p with
  | none => exact h.mark p
  | some n => exact ⟨n, rfl⟩

theorem apply_pointer_none (h : r.Sound M) {c : Change} (hfit : c.Fits M limits r) (p : Int32) :
    (c.apply M r).pointerOf M p = none ↔ (c.apply M r).markOf M p = 0 := by
  rw [pointerOf_apply hfit, markOf_apply hfit]
  cases c
  case register v =>
    obtain ⟨_, _, hpos, _⟩ := hfit
    simp only [pointerAfter, numberFor?]
    split
    · simp only [Option.map_some, Option.getD_some, reduceCtorEq, false_iff]
      omega
    · exact h.pointer_none p
  case point id version user now =>
    obtain ⟨_, hv⟩ := hfit
    simp only [pointerAfter, numberFor?]
    split
    · next he =>
      subst he
      have := h.version hv
      simp only [Option.map_none, Option.getD_none, reduceCtorEq, false_iff]
      omega
    · exact h.pointer_none p
  all_goals exact h.pointer_none p

theorem apply_pointer_some (h : r.Sound M) {c : Change} (hfit : c.Fits M limits r) {p : Int32}
    {n : Int} (hn : (c.apply M r).pointerOf M p = some n) :
    ∃ v : Int32, v.toInt = n ∧ (c.apply M r).hasVersion p v = true := by
  rw [pointerOf_apply hfit] at hn
  simp only [hasVersion_apply]
  cases c
  case register w =>
    simp only [pointerAfter] at hn
    split at hn
    · next he =>
      cases hp : r.pointerOf M p with
      | none =>
        rw [hp] at hn
        cases hn
        exact ⟨w.number, rfl, by simp [keepsVersion, he]⟩
      | some m =>
        obtain ⟨v, hv, hkept⟩ := h.pointer_some hp
        rw [hp] at hn
        cases hn
        exact ⟨v, hv, by simp [keepsVersion, hkept]⟩
    · obtain ⟨v, hv, hkept⟩ := h.pointer_some hn
      exact ⟨v, hv, by simp [keepsVersion, hkept]⟩
  case clean id bound =>
    obtain ⟨v, rfl, hkept⟩ := h.pointer_some hn
    refine ⟨v, rfl, ?_⟩
    -- the version that the pointer names is the one that is spared
    by_cases he : p = id
    · subst he
      simp [keepsVersion, isDoomed_pointer hn, hkept]
    · simp [keepsVersion, he, hkept]
  case point id version user now =>
    obtain ⟨_, hv⟩ := hfit
    simp only [pointerAfter] at hn
    split at hn
    · next he =>
      cases hn
      exact ⟨version, rfl, he ▸ hv⟩
    · exact h.pointer_some hn
  all_goals exact h.pointer_some hn

theorem apply (h : r.Sound M) {c : Change} (hfit : c.Fits M limits r) : (c.apply M r).Sound M where
  version := h.apply_version hfit
  grant := h.apply_grant hfit
  bundle := h.apply_bundle hfit
  flow := h.apply_flow hfit
  mark := h.apply_mark hfit
  pointer_none := h.apply_pointer_none hfit
  pointer_some := h.apply_pointer_some hfit

theorem applyAll (h : r.Sound M) {cs : List Change} (hfit : AllFit M limits cs r) :
    (Change.applyAll M cs r).Sound M :=
  applyAll_induct (fun _ _ hr hc => hr.apply hc) h hfit

end Relations.Sound

end ProjectRegistry
