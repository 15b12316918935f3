import ProjectRegistry.Proofs.Registry.Journal
import ProjectRegistry.Proofs.Store.DatabaseJournal
import ProjectRegistry.Proofs.Store.MemoryJournal

/-!
# Referential integrity

Whatever is asked of a registry that starts out empty, in whatever order and with whatever handles,
nothing that it keeps hangs in the air. Failed calls and sweeps are part of the run like any others.
-/

namespace ProjectRegistry

variable {C : Columns}

/-- What belongs to a project or to a version belongs to one that is there, the numbers of versions
are between 1 and the highest, the pointer names a version unless there was never one, and no grant
is empty. -/
structure Relations.Integral (M : Medium C) (r : Relations C) : Prop where
  version {p v : Int32} : r.versions.contains (p, v) = true → r.projects.contains p = true
  grant {p : Int32} {isGroup : Bool} {name : String} :
    r.grants.contains (p, isGroup, name) = true → r.projects.contains p = true
  bundle {p v : Int32} {path : String} :
    r.bundles.contains (p, v, path) = true →
      r.projects.contains p = true ∧ r.versions.contains (p, v) = true
  flow {p v : Int32} {id : String} :
    r.flows.contains (p, v, id) = true →
      r.projects.contains p = true ∧ r.versions.contains (p, v) = true
  number {p v : Int32} {row : ProjectRow C} :
    r.projects.find? p = some row → r.versions.contains (p, v) = true →
      1 ≤ v.toInt ∧ v.toInt ≤ M.value row.lastVersion
  pointer_none {p : Int32} {row : ProjectRow C} :
    r.projects.find? p = some row → (row.pointer = none ↔ M.value row.lastVersion = 0)
  pointer_some {p : Int32} {row : ProjectRow C} {n : C.Number} :
    r.projects.find? p = some row → row.pointer = some n →
      ∃ v : Int32, v.toInt = M.value n ∧ r.versions.contains (p, v) = true
  rights {k : Int32 × Bool × String} {rights : C.Rights} :
    r.grants.find? k = some rights → (M.rightsOf rights).isEmpty = false

theorem Relations.Sound.integral {M : Medium C} {r : Relations C} (h : r.Sound M) :
    r.Integral M where
  version hv := (h.version hv).1
  grant hg := by
    obtain ⟨rights, hrights⟩ := Table.contains_iff.1 hg
    exact (h.grant hrights).1
  bundle hb := ⟨(h.version (h.bundle hb)).1, h.bundle hb⟩
  flow hf := ⟨(h.version (h.flow hf)).1, h.flow hf⟩
  number {p v row} hrow hv := by
    have hmark : r.markOf M p = M.value row.lastVersion := by simp [markOf, hrow]
    rw [← hmark]
    exact (h.version hv).2
  pointer_none {p row} hrow := by
    have hmark : r.markOf M p = M.value row.lastVersion := by simp [markOf, hrow]
    have hpointer : r.pointerOf M p = none ↔ row.pointer = none := by simp [pointerOf, hrow]
    rw [← hmark, ← hpointer]
    exact h.pointer_none p
  pointer_some {p row n} hrow hn := h.pointer_some (by simp [pointerOf, hrow, hn])
  rights hk := (h.grant hk).2

def Registry.start {σ : Type} (limits : Limits) (root : Files.Path) (files : Files.FileTree)
    (store : σ) : Registry σ :=
  ⟨limits, ⟨root⟩, files, store⟩

/-- The start of 1970, and an identifier of zeros. -/
def Tick.first : Tick := ⟨⟨0, 0⟩, .ofNat 0⟩

/-- Every run from an empty store, in memory or in a database, ends with integrity. -/
theorem integral_after_run (limits : Limits) (root : Files.Path) (files : Files.FileTree)
    (calls : List (Tick × Call)) :
    ((Registry.start limits root files Memory.empty).after calls).store.relations.Integral .values ∧
      ((Registry.start limits root files Database.empty).after calls).store.relations.Integral
        .cells := by
  constructor
  · have hgood :=
      Registry.good_after (r := .start limits root files Memory.empty) Memory.lawful
        Memory.good_empty calls
    exact (Memory.lawful.sound hgood).integral
  · have hgood := Registry.good_after (r := .start limits root files Database.empty) Database.lawful
      Database.good_empty calls
    exact (Database.lawful.sound hgood).integral

end ProjectRegistry
