import ProjectRegistry.Proofs.Registry.Integrity
import ProjectRegistry.Proofs.Store.Bundles

/-!
# Bundles of a version

Whoever holds a copy that is aimed at a version that is there can put any bundles into it. From then
on each of their paths answers the last bundle that was put under it, text by text, and every other
path of every version answers what it answered before.

Bundles are put at once or one after the other, and nobody can tell which.
-/

namespace ProjectRegistry

namespace Registry

variable {σ : Type} [Store σ] {V : View σ} {put : Relations V.C → σ → σ} {r : Registry σ}

/-! ## Asking for bundles -/

theorem perform_bundleAt (tick : Tick) (p v : Int32) (path : String) (r : Registry σ) :
    perform tick (.bundleAt p v path) r = ((Store.bundleAt p v path r.store).map .bundle, r) :=
  Step.map_apply _ _ r

theorem perform_bundles (tick : Tick) (p v : Int32) (r : Registry σ) :
    perform tick (.bundles p v) r = ((Store.bundles p v r.store).map .bundles, r) :=
  Step.map_apply _ _ r

/-! ## Putting bundles -/

/-- What it is for bundles to have been put into a version: what is asked for by path and what is
listed are the last bundle of each path, and else what was there before. -/
structure HasPut (p v : Int32) (bs : List Bundle) (r r' : Registry σ) : Prop where
  bundleAt (tick : Tick) (path : String) :
    (perform tick (.bundleAt p v path) r').1 =
      match lastBundle? path bs with
      | some b => .ok (.bundle b)
      | none => (perform tick (.bundleAt p v path) r).1
  elsewhere (tick : Tick) {q w : Int32} (path : String) : ¬ (q = p ∧ w = v) →
    (perform tick (.bundleAt q w path) r').1 = (perform tick (.bundleAt q w path) r).1
  bundles (tick : Tick) : ∃ before after,
    (perform tick (.bundles p v) r).1 = .ok (.bundles before) ∧
      (perform tick (.bundles p v) r').1 = .ok (.bundles after) ∧
      (after.map Bundle.path).Pairwise (· < ·) ∧
      ∀ b, b ∈ after ↔
        lastBundle? b.path bs = some b ∨ lastBundle? b.path bs = none ∧ b ∈ before

/-- A registry with bundles in a version. -/
def withBundles (V : View σ) (put : Relations V.C → σ → σ) (p v : Int32) (bs : List Bundle)
    (r : Registry σ) : Registry σ :=
  { r with store := put ((Change.putBundles p v bs).apply V.M (V.relations r.store)) r.store }

theorem perform_putBundles (hplace : V.ActsInPlace put) (hr : V.Good r.store) (tick : Tick)
    {p : Project} {v : Int32} (hversion : p.version = some v)
    (hv : (V.relations r.store).hasVersion p.id v = true) (bs : List Bundle) :
    perform tick (.putBundles p bs) r = (.ok .done, r.withBundles V put p.id v bs) := by
  have htarget : p.target = .ok v := by rw [Project.target, hversion]
  rw [show perform tick (.putBundles p bs) r = _ from Step.map_apply _ _ r, onStore_apply,
    hplace.putBundles hr htarget hv]
  rfl

theorem hasPut_withBundles (hplace : V.ActsInPlace put) (htells : V.TellsBundles)
    (hr : V.Good r.store) {p v : Int32} {bs : List Bundle}
    (hgood : V.Good (r.withBundles V put p v bs).store) {l : Relations live}
    (hl : V.relations r.store = l.write V.M) : HasPut p v bs r (r.withBundles V put p v bs) := by
  have hl' : V.relations (r.withBundles V put p v bs).store =
      ((Change.putBundles p v bs).apply .values l).write V.M := by
    rw [withBundles, hplace.relations_put, hl, Change.apply_write]
  have hfind := Change.find?_bundles_putBundles (M := .values) (r := l) (p := p) (v := v) bs
  constructor
  · intro tick path
    rw [perform_bundleAt, perform_bundleAt, htells.bundleAt hr hl, htells.bundleAt hgood hl',
      Relations.bundleAt, Relations.bundleAt, hfind, if_pos ⟨rfl, rfl⟩]
    cases hlast : lastBundle? path bs with
    | none => rfl
    | some b =>
      obtain rfl := path_of_lastBundle? hlast
      rfl
  · intro tick q w path hother
    rw [perform_bundleAt, perform_bundleAt, htells.bundleAt hr hl, htells.bundleAt hgood hl',
      Relations.bundleAt, Relations.bundleAt, hfind, if_neg hother]
  · intro tick
    refine ⟨_, _, by rw [perform_bundles, htells.bundles hr hl]; rfl,
      by rw [perform_bundles, htells.bundles hgood hl']; rfl, Relations.bundleList_ascending _ p v,
      fun b => ?_⟩
    rw [Relations.mem_bundleList_iff, Relations.mem_bundleList_iff, hfind, if_pos ⟨rfl, rfl⟩]
    cases hlast : lastBundle? b.path bs with
    | none => simp
    | some d =>
      have hsame : d = b ↔ d.properties = b.properties := by
        have hpath := path_of_lastBundle? hlast
        cases b
        cases d
        rw [Bundle.mk.injEq]
        exact ⟨And.right, fun h => ⟨hpath, h⟩⟩
      simp [hsame, Medium.values, Medium.ofTimes]

theorem withBundles_nil (hplace : V.ActsInPlace put) (p v : Int32) :
    r.withBundles V put p v [] = r := by
  rw [withBundles, Change.putBundles_nil, hplace.put_relations]

theorem withBundles_cons (hplace : V.ActsInPlace put) (p v : Int32) (b : Bundle)
    (bs : List Bundle) :
    (r.withBundles V put p v [b]).withBundles V put p v bs = r.withBundles V put p v (b :: bs) := by
  simp only [withBundles, hplace.relations_put, hplace.put_put, Change.putBundles_cons]

/-- Bundles that are put one after the other are put. -/
theorem run_putBundle (hV : V.Lawful) (hplace : V.ActsInPlace put) (hr : V.Good r.store)
    {p : Project} {v : Int32} (hversion : p.version = some v)
    (hv : (V.relations r.store).hasVersion p.id v = true) (cs : List (Tick × Bundle)) :
    r.after (cs.map fun c => (c.1, .putBundle p c.2)) =
        r.withBundles V put p.id v (cs.map (·.2)) ∧
      r.answers (cs.map fun c => (c.1, .putBundle p c.2)) = cs.map fun _ => .ok .done := by
  induction cs generalizing r with
  | nil => exact ⟨(withBundles_nil hplace p.id v).symm, rfl⟩
  | cons c rest ih =>
    have hstep : perform c.1 (.putBundle p c.2) r = (.ok .done, r.withBundles V put p.id v [c.2]) :=
      perform_putBundles hplace hr c.1 hversion hv [c.2]
    have hgood := (becomes_perform hV hr c.1 (.putBundle p c.2)).2.1
    rw [hstep] at hgood
    have hv' : (V.relations (r.withBundles V put p.id v [c.2]).store).hasVersion p.id v = true := by
      rw [withBundles, hplace.relations_put]
      exact hv
    obtain ⟨hafter, hanswers⟩ := ih hgood hv'
    rw [withBundles_cons hplace] at hafter
    simp only [List.map_cons, after_cons, answers, hstep]
    exact ⟨hafter, congrArg _ hanswers⟩

/-! ## Along every run -/

/-- What holds of putting bundles into a version that is there. -/
structure KeepsBundles (V : View σ) (r : Registry σ) : Prop where
  putBundles (tick : Tick) {p : Project} {v : Int32} (bs : List Bundle) : p.version = some v →
    (V.relations r.store).hasVersion p.id v = true →
      ∃ r', perform tick (.putBundles p bs) r = (.ok .done, r') ∧ HasPut p.id v bs r r'
  oneByOne (tick : Tick) {p : Project} {v : Int32} (cs : List (Tick × Bundle)) :
    p.version = some v → (V.relations r.store).hasVersion p.id v = true →
      r.after (cs.map fun c => (c.1, .putBundle p c.2)) =
          (perform tick (.putBundles p (cs.map (·.2))) r).2 ∧
        r.answers (cs.map fun c => (c.1, .putBundle p c.2)) = cs.map fun _ => .ok .done

theorem keepsBundles (hV : V.Lawful) (hplace : V.ActsInPlace put) (htells : V.TellsBundles)
    (hr : V.Good r.store) {l : Relations live} (hl : V.relations r.store = l.write V.M) :
    r.KeepsBundles V where
  putBundles tick p v bs hversion hv := by
    have hput := perform_putBundles hplace hr tick hversion hv bs
    have hgood := (becomes_perform hV hr tick (.putBundles p bs)).2.1
    rw [hput] at hgood
    exact ⟨_, hput, hasPut_withBundles hplace htells hr hgood hl⟩
  oneByOne tick p v cs hversion hv := by
    rw [perform_putBundles hplace hr tick hversion hv]
    exact run_putBundle hV hplace hr hversion hv cs

end Registry

/-- In every state that calls lead to, in memory and in a database alike, any bundles can be put
into a version that is there, at once or one by one, and are answered from then on as they were put
last. -/
theorem bundles_come_back (limits : Limits) (root : Files.Path) (files : Files.FileTree)
    (calls : List (Tick × Call)) :
    ((Registry.start limits root files Memory.empty).after calls).KeepsBundles Memory.view ∧
      ((Registry.start limits root files Database.empty).after calls).KeepsBundles
        Database.view := by
  constructor
  · have hgood := Registry.good_after (r := .start limits root files Memory.empty) Memory.lawful
      Memory.good_empty calls
    obtain ⟨l, hl⟩ := Registry.live_after (r := .start limits root files Memory.empty)
      Memory.lawful Memory.good_empty rfl calls
    exact Registry.keepsBundles Memory.lawful Memory.actsInPlace Memory.tellsBundles hgood hl
  · have hgood := Registry.good_after (r := .start limits root files Database.empty)
      Database.lawful Database.good_empty calls
    obtain ⟨l, hl⟩ := Registry.live_after (r := .start limits root files Database.empty)
      Database.lawful Database.good_empty rfl calls
    exact Registry.keepsBundles Database.lawful Database.actsInPlace Database.tellsBundles hgood hl

end ProjectRegistry
