import ProjectRegistry.Proofs.Store.Answers

/-!
# Operations that change relations only

A state of a store holds more than relations: the ids that were given out, and in a database whether
it is open. Cleaning up and putting bundles have no part in that, so what they leave is the state of
before with other relations in it. Several of them in a row come to one exchange of relations.
-/

namespace ProjectRegistry

/-- A store of which the relations can be exchanged, and in which some operations do just that. -/
structure View.ActsInPlace {σ : Type} [Store σ] (V : View σ) (put : Relations V.C → σ → σ) :
    Prop where
  relations_put (r : Relations V.C) (s : σ) : V.relations (put r s) = r
  put_put (r r' : Relations V.C) (s : σ) : put r (put r' s) = put r s
  put_relations (s : σ) : put (V.relations s) s = s
  clean {s : σ} (hs : V.Good s) {p bound : Int32} {removed : List Version}
    (h : (Store.clean p bound s).1 = .ok removed) :
    (Store.clean p bound s).2 = put ((Change.clean p bound).apply V.M (V.relations s)) s
  putBundles {s : σ} (hs : V.Good s) {p : Project} {v : Int32} (htarget : p.target = .ok v)
    (hv : (V.relations s).hasVersion p.id v = true) (bundles : List Bundle) :
    Store.putBundles p bundles s =
      (.ok (), put ((Change.putBundles p.id v bundles).apply V.M (V.relations s)) s)

namespace Memory

def withRelations (r : Relations live) (m : Memory) : Memory := { m with relations := r }

theorem actsInPlace : view.ActsInPlace withRelations where
  relations_put _ _ := rfl
  put_put _ _ _ := rfl
  put_relations _ := rfl
  clean {m} hm p bound removed h := by
    have h : (Memory.clean p bound m).1 = .ok removed := h
    show (Memory.clean p bound m).2 = _
    rw [m.clean_eq hm.sound] at h ⊢
    cases hplan : Plan.clean p bound m.relations with
    | error e =>
      rw [hplan] at h
      cases h
    | ok cs =>
      obtain rfl := Plan.onProject_ok hplan
      rfl
  putBundles _ _ _ htarget hv bundles := putBundles_of_hasVersion htarget hv bundles

end Memory

namespace Database

def withRelations (r : Relations stored) (d : Database) : Database := { d with relations := r }

theorem actsInPlace : view.ActsInPlace withRelations where
  relations_put _ _ := rfl
  put_put _ _ _ := rfl
  put_relations _ := rfl
  clean {d} hd p bound removed h := by
    have h : (Database.clean p bound d).1 = .ok removed := h
    show (Database.clean p bound d).2 = _
    rw [clean_eq hd.isOpen hd.sound] at h ⊢
    cases hplan : Plan.clean p bound d.relations with
    | error e =>
      rw [hplan] at h
      cases h
    | ok cs =>
      obtain rfl := Plan.onProject_ok hplan
      rw [hplan] at h
      simp only at h ⊢
      cases hload : loadAll (loadVersion p) (d.relations.doomedOf .cells p bound) with
      | error e =>
        rw [hload] at h
        cases h
      | ok vs => exact commit_of_silent d rfl
  putBundles hd _ _ htarget hv bundles := hd.putBundles_of_hasVersion htarget hv bundles

end Database

end ProjectRegistry
