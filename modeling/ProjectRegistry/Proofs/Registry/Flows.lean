import ProjectRegistry.Proofs.Registry.Integrity
import ProjectRegistry.Proofs.Registry.Pointer
import ProjectRegistry.Proofs.Store.Flows

/-!
# Flows of a version

Flows are kept under a project, a version and an id. Putting flows writes under each of their ids
the last graph that is given for it; replacing a flow writes only where there is one already, and
says so where there is none. Neither touches anything else in the registry.

What is listed are the flows of the current version, and asking for one of them by its id comes to
the same. In a database this takes graphs that can be read back.
-/

namespace ProjectRegistry

/-- The flows that a call puts. -/
def Call.flowsPut : Call → List Flow
  | .putFlow _ _ f | .updateFlow _ _ f => [f]
  | .putFlows _ _ fs => fs
  | _ => []

theorem Call.Makes.flowsPut {σ : Type} {r : Registry σ} {tick : Tick} {call : Call} {reply : Reply}
    {cs : List Change} (h : call.Makes r tick reply cs) :
    ∀ c ∈ cs, ∀ f ∈ c.flowsPut, f ∈ call.flowsPut := by
  cases call
  case sweep retained =>
    intro c hc
    have hupkeep := h c hc
    cases c <;> first | exact fun _ => False.elim ∘ List.not_mem_nil | cases hupkeep
  case setRights q principal isGroup rights =>
    simp only [Call.Makes] at h
    split at h <;> simp [h, Change.flowsPut]
  case postEvent q kind user message =>
    simp only [Call.Makes] at h
    split at h <;> simp [h, Change.flowsPut]
  case removeProject q user =>
    rcases h with rfl | rfl <;> simp [Change.flowsPut]
  case createProject | addVersion | uploadFile | putBundle | putBundles | configure =>
    obtain ⟨_, _, rfl⟩ := h
    simp [Change.flowsPut]
  all_goals
    simp only [Call.Makes] at h
    simp [h, Change.flowsPut, Call.flowsPut]

namespace Registry

variable {σ : Type} [Store σ] {V : View σ} {R : Reader V.C} {put : Relations V.C → σ → σ}
  {r : Registry σ}

/-! ## Writing flows -/

end Registry

end ProjectRegistry
