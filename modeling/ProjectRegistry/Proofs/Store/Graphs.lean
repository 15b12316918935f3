import ProjectRegistry.Proofs.Store.Answers

/-!
# Graphs that are put and read

Of the flows that one operation puts under an id the last one counts. The text of its graph stays
where it is as long as the version does, until flows are put under the same id again.

A graph is written however deep it is nested, but it is read to a limit only, and an object in it
that has the reserved key in front is read as another value or not at all.
-/

namespace ProjectRegistry

variable {C : Columns} {M : Medium C} {limits : Limits} {r : Relations C}

/-- The last flow of a list that has an id. -/
def lastFlow? (id : String) (fs : List Flow) : Option Flow :=
  fs.reverse.find? fun f => f.id = id

theorem lastFlow?_eq_none {id : String} {fs : List Flow} (h : ¬ ∃ f ∈ fs, f.id = id) :
    lastFlow? id fs = none := by
  rw [lastFlow?, List.find?_eq_none]
  intro f hf hid
  exact h ⟨f, List.mem_reverse.1 hf, by simpa using hid⟩

namespace Change

variable {p v : Int32} {id : String}

/-- Whether a change puts a flow under an id into a version. -/
def PutsFlow (p v : Int32) (id : String) : Change → Prop
  | .putFlows q w fs => q = p ∧ w = v ∧ ∃ f ∈ fs, f.id = id
  | _ => False

theorem find?_flows_putFlows (q w : Int32) (fs : List Flow) (p v : Int32) (id : String) :
    ((putFlows q w fs).apply M r).flows.find? (p, v, id) =
      if p = q ∧ v = w then
        ((lastFlow? id fs).map fun f => M.graph f.graph).or (r.flows.find? (p, v, id))
      else r.flows.find? (p, v, id) := by
  rw [apply, onFlows, lastFlow?]
  exact Table.find?_insertAll_named _ q w Flow.id (fun f => M.graph f.graph) fs p v id

/-! ## Flows of a version that stays -/

theorem find?_flows_apply {c : Change} (hquiet : ¬ c.PutsFlow p v id)
    (hstays : (c.apply M r).hasVersion p v = true) :
    (c.apply M r).flows.find? (p, v, id) = r.flows.find? (p, v, id) := by
  rw [hasVersion_apply] at hstays
  cases c
  case putFlows q w fs =>
    rw [find?_flows_putFlows]
    split
    · next hkey =>
      have hnone : lastFlow? id fs = none :=
        lastFlow?_eq_none fun hf => hquiet ⟨hkey.1.symm, hkey.2.symm, hf⟩
      rw [hnone]
      rfl
    · rfl
  case clean q bound =>
    have hspared := (Bool.and_eq_true_iff.1 hstays).1
    exact (Table.find?_filterKeys _ _ _).trans (if_pos hspared)
  all_goals rfl

/-- A version that is there before some changes and after them is there after the first. -/
theorem hasVersion_apply_of_stays (hsound : r.Sound M) {c : Change} {cs : List Change}
    (hfit : AllFit M limits (c :: cs) r) (hv : r.hasVersion p v = true)
    (hstays : (applyAll M (c :: cs) r).hasVersion p v = true) :
    (c.apply M r).hasVersion p v = true := by
  obtain ⟨hc, hcs⟩ := hfit
  obtain ⟨row, hrow⟩ := Table.contains_iff.1 hv
  obtain ⟨-, -, hmark⟩ := hsound.version hv
  rcases find?_versions_apply_cases hc hrow with hkept | ⟨hgone, -⟩
  · exact Table.contains_of_find? hkept
  · -- its number would be used up, and then it could not be there in the end
    have hspent := spent_applyAll hcs ⟨hgone, Int.le_trans hmark (markOf_le_apply hc p)⟩
    obtain ⟨row', hrow'⟩ := Table.contains_iff.1 hstays
    cases hspent.1.symm.trans hrow'

theorem find?_flows_applyAll (hsound : r.Sound M) {cs : List Change} (hfit : AllFit M limits cs r)
    (hquiet : ∀ c ∈ cs, ¬ c.PutsFlow p v id) (hv : r.hasVersion p v = true)
    (hstays : (applyAll M cs r).hasVersion p v = true) :
    (applyAll M cs r).flows.find? (p, v, id) = r.flows.find? (p, v, id) := by
  induction cs generalizing r with
  | nil => rfl
  | cons c cs ih =>
    have hv' := hasVersion_apply_of_stays hsound hfit hv hstays
    rw [applyAll_cons, ih (hsound.apply hfit.1) hfit.2
      (fun d hd => hquiet d (List.mem_cons_of_mem c hd)) hv' hstays]
    exact find?_flows_apply (hquiet c List.mem_cons_self) hv'

end Change

/-! ## Reading flows -/

theorem readGraph_cases (text : String) :
    (∃ g, readGraph text = .ok g) ∨ readGraph text = .error .malformedJson := by
  rw [readGraph]
  cases Json.Value.ofText? text with
  | none => exact .inr rfl
  | some g => exact .inl ⟨g, rfl⟩

theorem readGraph_eq_ok_iff {g : Json.Value} (h : g.Regular) :
    readGraph g.toText = .ok g ↔ g.nesting ≤ Json.nestingLimit ∧ g.Unreserved := by
  rw [← Json.Value.ofText?_toText_eq_some_iff h, readGraph]
  cases Json.Value.ofText? g.toText <;> simp

theorem readGraph_deep {g : Json.Value} (h : g.Regular)
    (hdeep : ¬ g.nesting ≤ Json.nestingLimit) : readGraph g.toText = .error .malformedJson := by
  rw [readGraph, Json.Value.ofText?_toText_eq h.inRange, if_neg (mt And.left hdeep)]

namespace Reader

/-- One graph that cannot be read keeps all flows of its version from being listed. -/
theorem flowsAt_cases (l : Relations stored) (p v : Int32) :
    (∃ gs, cells.flowsAt l p v = .ok gs) ∨ cells.flowsAt l p v = .error .malformedJson := by
  refine loadAll_cases fun e _ => ?_
  rcases readGraph_cases e.2 with ⟨g, hg⟩ | he
  · exact .inl ⟨⟨e.1, g⟩, by rw [show cells.graph e.2 = _ from hg]; rfl⟩
  · exact .inr (by rw [show cells.graph e.2 = _ from he]; rfl)

variable {l : Relations stored} {p v : Int32} {f : Flow} (hregular : f.graph.Regular)
  (hf : l.flows.find? (p, v, f.id) = some f.graph.toText)

include hf

theorem flowAt_toText :
    cells.flowAt l p v f.id = (readGraph f.graph.toText).map (Flow.mk f.id) := by
  rw [flowAt, hf]
  rfl

include hregular

theorem flowAt_eq_ok_iff : cells.flowAt l p v f.id = .ok f ↔
    f.graph.nesting ≤ Json.nestingLimit ∧ f.graph.Unreserved := by
  rw [flowAt_toText hf, ← readGraph_eq_ok_iff hregular]
  exact map_eq_ok_iff fun _ _ h => (Flow.mk.inj h).2

theorem flowAt_deep (hdeep : ¬ f.graph.nesting ≤ Json.nestingLimit) :
    cells.flowAt l p v f.id = .error .malformedJson := by
  rw [flowAt_toText hf, readGraph_deep hregular hdeep]
  rfl

/-- If flows are listed, one that was put is among them unless its graph is read as another. -/
theorem mem_of_flowsAt {gs : List Flow} (h : cells.flowsAt l p v = .ok gs) :
    f.graph.nesting ≤ Json.nestingLimit ∧ (f ∈ gs ↔ f.graph.Unreserved) := by
  obtain ⟨g, hg, hread⟩ := exists_mem_of_loadAll_ok h _ (Table.mem_named_iff.2 hf)
  have hroom : f.graph.nesting ≤ Json.nestingLimit := by
    by_contra hdeep
    rw [show cells.graph f.graph.toText = _ from readGraph_deep hregular hdeep] at hread
    cases hread
  refine ⟨hroom, fun hmem => ?_, fun hfree => ?_⟩
  · obtain ⟨e, he, hload⟩ := mem_of_loadAll_ok h hmem
    obtain ⟨graph, hgraph, rfl⟩ := exists_of_map_ok hload
    have htext := (Table.mem_named_iff.1 he).symm.trans hf
    rw [Option.some_inj.1 htext] at hgraph
    exact ((readGraph_eq_ok_iff hregular).1 hgraph).2
  · rw [show cells.graph f.graph.toText = _ from
      (readGraph_eq_ok_iff hregular).2 ⟨hroom, hfree⟩] at hread
    cases hread
    exact hg

end Reader

end ProjectRegistry
