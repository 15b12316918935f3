import ProjectRegistry.Proofs.Store.InPlace

/-!
# Bundles that are put and read

Bundles come back from a store as they were put, texts and order included, since what is written of
a map of texts can always be read. Of the bundles that one operation puts under a path the last one
counts, so putting some bundles is the same as putting them one after the other.
-/

namespace ProjectRegistry

variable {C : Columns} {M : Medium C}

/-- The last bundle of a list that has a path. -/
def lastBundle? (path : String) (bs : List Bundle) : Option Bundle :=
  bs.reverse.find? fun b => b.path = path

theorem path_of_lastBundle? {path : String} {bs : List Bundle} {b : Bundle}
    (h : lastBundle? path bs = some b) : b.path = path := by
  simpa using List.find?_some h

namespace Relations

/-! ## Bundles of live relations -/

variable (l : Relations live) (p v : Int32)

def bundleAt (path : String) : Except Failure Bundle :=
  match l.bundles.find? (p, v, path) with
  | some properties => .ok ⟨path, properties⟩
  | none => .error (.noBundle p v path)

/-- The bundles of a version, by their paths. -/
def bundleList : List Bundle := (l.bundlesOf p v).map fun b => ⟨b.1, b.2⟩

variable {l p v}

theorem mem_bundleList_iff {b : Bundle} :
    b ∈ l.bundleList p v ↔ l.bundles.find? (p, v, b.path) = some b.properties := by
  rw [← Table.mem_named_iff, bundleList, List.mem_map]
  constructor
  · rintro ⟨e, he, rfl⟩
    exact he
  · intro he
    exact ⟨_, he, rfl⟩

/-- No path has two bundles. -/
theorem bundleList_ascending (l : Relations live) (p v : Int32) :
    ((l.bundleList p v).map Bundle.path).Pairwise (· < ·) := by
  rw [bundleList, bundlesOf, List.map_map, List.map_map, List.pairwise_map]
  exact l.bundles.names_ascending p v

end Relations

/-! ## What putting changes -/

namespace Change

variable {r : Relations C} {p v : Int32}

/-- The last bundle of a path takes the place of what was there; no other key is touched. -/
theorem find?_bundles_putBundles (bs : List Bundle) (q w : Int32) (path : String) :
    ((putBundles p v bs).apply M r).bundles.find? (q, w, path) =
      if q = p ∧ w = v then
        ((lastBundle? path bs).map fun b => M.properties b.properties).or
          (r.bundles.find? (q, w, path))
      else r.bundles.find? (q, w, path) := by
  rw [apply, onBundles, lastBundle?]
  exact Table.find?_insertAll_named _ p v Bundle.path (fun b => M.properties b.properties) bs q w
    path

theorem putBundles_nil : (putBundles p v []).apply M r = r :=
  apply_of_silent M rfl r

theorem putBundles_cons (b : Bundle) (bs : List Bundle) :
    (putBundles p v bs).apply M ((putBundles p v [b]).apply M r) =
      (putBundles p v (b :: bs)).apply M r := by
  simp only [apply_of_silent M (c := putBundles _ _ _) rfl]
  rfl

end Change

/-! ## Stores -/

/-- A store that answers bundles as they were put. -/
structure View.TellsBundles {σ : Type} [Store σ] (V : View σ) : Prop where
  bundleAt {s : σ} {l : Relations live} (hs : V.Good s) (hl : V.relations s = l.write V.M)
    (p v : Int32) (path : String) : Store.bundleAt p v path s = l.bundleAt p v path
  bundles {s : σ} {l : Relations live} (hs : V.Good s) (hl : V.relations s = l.write V.M)
    (p v : Int32) : Store.bundles p v s = .ok (l.bundleList p v)

theorem Memory.tellsBundles : Memory.view.TellsBundles where
  bundleAt {m l} _ hl p v path := by
    obtain rfl : m.relations = l := hl.trans l.write_values
    rfl
  bundles {m l} _ hl p v := by
    obtain rfl : m.relations = l := hl.trans l.write_values
    rfl

theorem Database.tellsBundles : Database.view.TellsBundles where
  bundleAt {d l} hd hl p v path := by
    have hfind : d.relations.bundles.find? (p, v, path) =
        (l.bundles.find? (p, v, path)).map Properties.toText := by
      rw [show d.relations = l.write .cells from hl]
      exact Table.find?_mapRows _ _ _
    show Database.bundleAt p v path d = _
    rw [Database.bundleAt, query_apply hd.isOpen, hfind, Relations.bundleAt]
    cases l.bundles.find? (p, v, path) with
    | none => rfl
    | some properties =>
      simp only [Option.map_some, loadBundle_eq, readProperties_toText]
      rfl
  bundles {d l} hd hl p v := by
    show Database.bundles p v d = _
    rw [Database.bundles, query_apply hd.isOpen, show d.relations = l.write .cells from hl,
      Relations.bundlesOf_write, loadAll_map]
    refine loadAll_ok fun e _ => ?_
    simp only [loadBundle_eq, Medium.cells, readProperties_toText]
    rfl

end ProjectRegistry
