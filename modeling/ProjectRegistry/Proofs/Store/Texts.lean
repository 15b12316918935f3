import ProjectRegistry.Bundle
import ProjectRegistry.Project
import ProjectRegistry.Proofs.Json.Records

/-!
# Settings and properties in texts

Properties always come back from the text under which they are stored. Settings come back as far as
nothing in their metadata is nested too deep or stands for a text that cannot be read; two of the
levels of a text are spent on the settings themselves.
-/

namespace ProjectRegistry

open Json (Tree Returns nestingLimit)

namespace Properties

theorem putPair_eq_append {k v : String} {ps : List (String × String)} (h : k ∉ ps.map (·.1)) :
    putPair k v ps = ps ++ [(k, v)] := by
  induction ps with
  | nil => rfl
  | cons p rest ih =>
    simp only [List.map_cons, List.mem_cons, not_or] at h
    rw [putPair, if_neg (Ne.symm h.1), ih h.2, List.cons_append]

theorem foldl_put {ps : List (String × String)} {acc : Properties}
    (h : ((acc.pairs ++ ps).map (·.1)).Nodup) :
    (ps.foldl (fun p e => p.put e.1 e.2) acc).pairs = acc.pairs ++ ps := by
  induction ps generalizing acc with
  | nil => simp
  | cons e rest ih =>
    have hnew : e.1 ∉ acc.pairs.map (·.1) := by
      intro hmem
      rw [List.map_append, List.nodup_append] at h
      exact h.2.2 e.1 hmem e.1 (by simp) rfl
    have hpairs : (acc.put e.1 e.2).pairs = acc.pairs ++ [e] := putPair_eq_append hnew
    rw [List.foldl_cons, ih (by rw [hpairs]; simpa using h), hpairs, List.append_assoc]
    rfl

theorem ofList_pairs (p : Properties) : ofList p.pairs = p := by
  apply ext
  rw [ofList, foldl_put (by simpa [empty] using p.distinct)]
  rfl

theorem returns (p : Properties) : Returns toTree ofTree? p := by
  have hpairs := Json.returns_members p.pairs fun e _ => Json.returns_text e.2
  refine ⟨hpairs.wellFormed, fun hroom => ?_⟩
  rw [ofTree?]
  exact (congrArg (Option.map ofList) (hpairs.read_eq hroom)).trans (congrArg some p.ofList_pairs)

theorem ofText?_toText (p : Properties) : ofText? p.toText = some p := by
  have hnesting : p.toTree.nesting ≤ nestingLimit :=
    Tree.nesting_record_le.2 ⟨by decide, List.forall_mem_map.2 fun _ _ => Nat.zero_le _⟩
  exact p.returns.ofText?_toText hnesting

end Properties

namespace Settings

/-- Whether all numbers in the metadata are whole, and all objects have their keys in order. -/
def Regular (s : Settings) : Prop := ∀ e ∈ s.metadata.entries, e.2.Regular

/-- Whether no object in the metadata has the reserved key in front. -/
def Unreserved (s : Settings) : Prop := ∀ e ∈ s.metadata.entries, e.2.Unreserved

/-- Whether all values of the metadata come back from their texts if there is room for them. -/
def Exact (s : Settings) : Prop := ∀ e ∈ s.metadata.entries, e.2.Exact

/-- Whether all numbers in the metadata are in range. -/
def InRange (s : Settings) : Prop := ∀ e ∈ s.metadata.entries, e.2.InRange

theorem exact_iff {s : Settings} : s.Exact ↔ s.Regular ∧ s.Unreserved := forall₂_and

theorem Regular.inRange {s : Settings} (h : s.Regular) : s.InRange := fun e he => (h e he).inRange

theorem Exact.inRange {s : Settings} (h : s.Exact) : s.InRange := (exact_iff.1 h).1.inRange

/-- Whether no value of the metadata is nested deeper than it can be read inside the settings. -/
def Shallow (s : Settings) : Prop := ∀ e ∈ s.metadata.entries, e.2.nesting ≤ nestingLimit - 2

instance (s : Settings) : Decidable s.Shallow := inferInstanceAs (Decidable (∀ e ∈ _, _))

/-- Whether each object in the metadata that stands for a text has one that can be read. -/
def Unfolds (s : Settings) : Prop := ∀ e ∈ s.metadata.entries, e.2.unfolds = true

instance (s : Settings) : Decidable s.Unfolds := inferInstanceAs (Decidable (∀ e ∈ _, _))

theorem Exact.unfolds {s : Settings} (h : s.Exact) : s.Unfolds := fun e he => (h e he).unfolds

theorem wellFormed_toTree (s : Settings) : s.toTree.WellFormed := by
  refine ⟨Json.treesWellFormed_iff.2 fun t ht => ?_, Json.membersWellFormed_iff.2 fun m hm => ?_,
    trivial⟩
  · obtain ⟨u, _, rfl⟩ := List.mem_map.1 ht
    trivial
  · simp only [List.map_map, List.mem_map] at hm
    obtain ⟨e, _, rfl⟩ := hm
    exact e.2.wellFormed_toTree

theorem array?_proxyUsers (s : Settings) (room : Nat) (hroom : 0 < room) :
    (Tree.array (s.proxyUsers.keys.map .text)).array? room (fun _ => Tree.text?) =
      some s.proxyUsers.keys := by
  have hnesting : (Tree.array (s.proxyUsers.keys.map .text)).nesting ≤ room :=
    Tree.nesting_array_le.2 ⟨hroom, List.forall_mem_map.2 fun _ _ => Nat.zero_le _⟩
  exact (Json.returns_array s.proxyUsers.keys fun u _ => Json.returns_text u).read_eq hnesting

theorem members?_metadata {s : Settings} (h : s.InRange) {room : Nat} (hroom : 0 < room) :
    (Tree.record (s.metadata.entries.map fun e => (e.1, e.2.toTree))).members? room
      Json.Value.ofTree? =
      if (∀ e ∈ s.metadata.entries, e.2.nesting ≤ room - 1) ∧ s.Unfolds then
        some (s.metadata.entries.map fun e => (e.1, e.2.reread))
      else none := by
  have hboth : (∀ e ∈ s.metadata.entries, e.2.nesting ≤ room - 1) ∧ s.Unfolds ↔
      ∀ e ∈ s.metadata.entries, e.2.nesting ≤ room - 1 ∧ e.2.unfolds = true := forall₂_and.symm
  rw [Json.members?_record hroom, List.mapM_map, if_congr hboth rfl rfl]
  refine Json.mapM_eq_ite (f := fun e : String × Json.Value => (e.1, e.2.reread))
    (p := fun e : String × Json.Value => e.2.nesting ≤ room - 1 ∧ e.2.unfolds = true)
    fun e he => ?_
  have hread := e.2.ofTreeBy_toTree (h e he) (room - 1)
  show (Json.Value.ofTreeBy Json.Value.ofText? (room - 1) e.2.toTree).map (fun v => (e.1, v)) = _
  rw [hread]
  by_cases hfits : e.2.nesting ≤ room - 1 ∧ e.2.unfolds = true
  · rw [if_pos hfits, if_pos hfits]
    rfl
  · rw [if_neg hfits, if_neg hfits]
    rfl

theorem ofList_proxyUsers (s : Settings) :
    Table.ofList (s.proxyUsers.keys.map fun u => (u, ())) = s.proxyUsers := by
  have hid : ((fun u => (u, ())) ∘ fun e : String × Unit => e.1) = id := rfl
  rw [Table.keys, List.map_map, hid, List.map_id, Table.ofList_entries]

/-- Settings as they are read from their text. -/
def reread (s : Settings) : Settings :=
  { s with metadata := .ofList (s.metadata.entries.map fun e => (e.1, e.2.reread)) }

/-- What is read of settings where there is room for them and for their users. -/
theorem ofTree?_toTree {s : Settings} (h : s.InRange) {room : Nat} (hroom : 1 < room) :
    ofTree? room s.toTree =
      if (∀ e ∈ s.metadata.entries, e.2.nesting ≤ room - 2) ∧ s.Unfolds then some s.reread
      else none := by
  have hinside : 0 < room - 1 := Nat.sub_pos_of_lt hroom
  have husers := s.array?_proxyUsers (room - 1) hinside
  have hmetadata := members?_metadata h hinside
  rw [Nat.sub_sub] at hmetadata
  have hfields : Json.fields? ["proxyUsers", "metadata"] room s.toTree = some (_, room - 1) :=
    Json.fields?_record _ (by omega) (.refl _) (by decide)
  unfold ofTree?
  rw [hfields]
  show ((Tree.array (s.proxyUsers.keys.map .text)).array? (room - 1) fun _ => Tree.text?).bind
    (fun users =>
      ((Tree.record (s.metadata.entries.map fun e => (e.1, e.2.toTree))).members? (room - 1)
        Json.Value.ofTree?).bind fun metadata =>
          some (Settings.mk (.ofList (users.map fun u => (u, ()))) (.ofList metadata))) = _
  rw [husers, hmetadata, Option.bind_some, ofList_proxyUsers]
  split <;> rfl

/-- What is read from the text of settings. -/
theorem ofText?_eq {s : Settings} (h : s.InRange) :
    ofText? s.toText = if s.Shallow ∧ s.Unfolds then some s.reread else none := by
  rw [ofText?, toText, Tree.ofText?_toText s.wellFormed_toTree, Option.bind_some,
    ofTree?_toTree h (by decide)]
  rfl

theorem reread_of_exact {s : Settings} (h : s.Exact) : s.reread = s := by
  have hentries : s.metadata.entries.map (fun e => (e.1, e.2.reread)) = s.metadata.entries := by
    refine (List.map_congr_left fun e he => ?_).trans (List.map_id _)
    rw [(h e he).reread_eq]
    rfl
  rw [reread, hentries, Table.ofList_entries]

theorem ofText?_toText {s : Settings} (h : s.Exact) :
    ofText? s.toText = if s.Shallow then some s else none := by
  rw [ofText?_eq h.inRange, reread_of_exact h]
  simp only [h.unfolds, and_true]

/-- Settings are read as they were written exactly if the reserved key is in front nowhere. -/
theorem Regular.reread_eq_iff {s : Settings} (h : s.Regular) :
    s.Unfolds ∧ s.reread = s ↔ s.Unreserved := by
  constructor
  · rintro ⟨hunfolds, hreread⟩ e he
    have hordered : (s.metadata.entries.map fun e => (e.1, e.2.reread)).Pairwise
        fun a b => Key.before a.1 b.1 = true := List.pairwise_map.2 s.metadata.ordered
    have hentries := congrArg (fun s : Settings => s.metadata.entries) hreread
    rw [show s.reread.metadata.entries = _ from Table.entries_ofList hordered] at hentries
    have hsame := List.map_inj_left.1 (hentries.trans (List.map_id _).symm) e he
    exact (h e he).unreserved (hunfolds e he) (congrArg Prod.snd hsame)
  · intro hfree
    have hexact := exact_iff.2 ⟨h, hfree⟩
    exact ⟨hexact.unfolds, reread_of_exact hexact⟩

theorem ofTree?_toTree_eq_some_iff {s : Settings} (h : s.Regular) {room : Nat}
    (hroom : 1 < room) : ofTree? room s.toTree = some s ↔
      (∀ e ∈ s.metadata.entries, e.2.nesting ≤ room - 2) ∧ s.Unreserved := by
  rw [ofTree?_toTree h.inRange hroom, ← h.reread_eq_iff, Option.ite_none_right_eq_some,
    Option.some_inj, and_assoc]

end Settings

end ProjectRegistry
