import ProjectRegistry.Proofs.Store.Graphs
import ProjectRegistry.Proofs.Store.InPlace
import ProjectRegistry.Proofs.Store.Readable
import ProjectRegistry.Proofs.Text.Utf8

/-!
# Flows as a map

A store keeps the graphs of flows under a project, a version and an id. Two operations write to it,
and both exchange the relations of the state and nothing else: one puts flows into a version that is
there, whether their ids are new or not, the other takes the place of a flow that is there.

The flows of a version are listed by their ids, each once, in the order of the bytes of UTF-8.
-/

namespace ProjectRegistry

variable {C : Columns} {M : Medium C}

namespace Relations

/-! ## Flows of live relations -/

variable {l : Relations live} {p v : Int32}

/-- The flow of a version that has an id. -/
def flowAt (l : Relations live) (p v : Int32) (id : String) : Except Failure Flow :=
  match l.flows.find? (p, v, id) with
  | some graph => .ok ⟨id, graph⟩
  | none => .error (.noFlow p v id)

end Relations

namespace Reader

variable {R : Reader C} {l : Relations live} {p v : Int32}

end Reader

/-- A store in which flows are put and replaced by an exchange of relations. -/
structure View.WritesFlows {σ : Type} [Store σ] (V : View σ) (put : Relations V.C → σ → σ) :
    Prop where
  putFlows {s : σ} (hs : V.Good s) {p : Project} {v : Int32}
    (hv : (V.relations s).hasVersion p.id v = true) (flows : List Flow) :
    Store.putFlows p v flows s =
      (.ok (), put ((Change.putFlows p.id v flows).apply V.M (V.relations s)) s)
  putFlows_refused {s : σ} (hs : V.Good s) {p : Project} {v : Int32}
    (hv : (V.relations s).hasVersion p.id v = false) (flows : List Flow) :
    ∃ e, Store.putFlows p v flows s = (.error e, s)
  updateFlow {s : σ} (hs : V.Good s) {p : Project} {v : Int32} {f : Flow}
    (hf : (V.relations s).flows.contains (p.id, v, f.id) = true) :
    Store.updateFlow p v f s =
      (.ok (), put ((Change.putFlows p.id v [f]).apply V.M (V.relations s)) s)
  updateFlow_refused {s : σ} (hs : V.Good s) {p : Project} {v : Int32} {f : Flow}
    (hf : (V.relations s).flows.contains (p.id, v, f.id) = false) :
    Store.updateFlow p v f s = (.error (.noFlow p.id v f.id), s)

theorem Memory.writesFlows : Memory.view.WritesFlows Memory.withRelations where
  putFlows {m} _ p v hv flows := by
    have hv : m.relations.hasVersion p.id v = true := hv
    show Memory.putFlows p v flows m = _
    rw [Memory.putFlows_eq, Plan.putFlows, Plan.onVersion, if_pos hv]
    rfl
  putFlows_refused {m} _ p v hv flows := by
    have hv : m.relations.hasVersion p.id v = false := hv
    refine ⟨.noVersion p.id v, ?_⟩
    show Memory.putFlows p v flows m = _
    rw [Memory.putFlows_eq, Plan.putFlows, Plan.onVersion, if_neg (by simp [hv])]
    rfl
  updateFlow {m} _ p v f hf := by
    have hf : m.relations.flows.contains (p.id, v, f.id) = true := hf
    show Memory.updateFlow p v f m = _
    rw [Memory.updateFlow_eq, Plan.updateFlow, if_pos hf]
    rfl
  updateFlow_refused {m} _ p v f hf := by
    have hf : m.relations.flows.contains (p.id, v, f.id) = false := hf
    show Memory.updateFlow p v f m = _
    rw [Memory.updateFlow_eq, Plan.updateFlow, if_neg (by simp [hf])]
    rfl

theorem Database.writesFlows : Database.view.WritesFlows Database.withRelations where
  putFlows {d} hd p v hv flows := by
    have hv : d.relations.hasVersion p.id v = true := hv
    show Database.putFlows p v flows d = _
    rw [Database.putFlows_eq hd.isOpen, Plan.ofProject, if_pos (hd.sound.version hv).1,
      Plan.putFlows, Plan.onVersion, if_pos hv, Database.settle_of_silent _ rfl]
    rfl
  putFlows_refused {d} hd p v hv flows := by
    have hv : d.relations.hasVersion p.id v = false := hv
    show ∃ e, Database.putFlows p v flows d = _
    rw [Database.putFlows_eq hd.isOpen, Plan.ofProject, Plan.putFlows, Plan.onVersion,
      if_neg (by simp [hv] : ¬ d.relations.hasVersion p.id v = true)]
    split
    · exact ⟨_, rfl⟩
    · exact ⟨_, rfl⟩
  updateFlow {d} hd p v f hf := by
    have hf : d.relations.flows.contains (p.id, v, f.id) = true := hf
    show Database.updateFlow p v f d = _
    rw [Database.updateFlow_eq hd.isOpen, Plan.updateFlow, if_pos hf,
      Database.settle_of_silent _ rfl]
    rfl
  updateFlow_refused {d} hd p v f hf := by
    have hf : d.relations.flows.contains (p.id, v, f.id) = false := hf
    show Database.updateFlow p v f d = _
    rw [Database.updateFlow_eq hd.isOpen, Plan.updateFlow, if_neg (by simp [hf])]
    rfl

end ProjectRegistry
