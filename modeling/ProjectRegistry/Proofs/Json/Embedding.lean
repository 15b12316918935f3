import ProjectRegistry.Json.Value
import ProjectRegistry.Proofs.Json.Grammar

/-!
# Texts that stand in texts

A string that stands in a text is shorter than the text, whatever escapes it is written with. So a
reader of trees asks only for shorter texts than the one that it reads, and the bound on how often
texts stand in one another is never met: the value in a text is that of its tree, with the texts in
the tree read in the same way.
-/

namespace ProjectRegistry.Json

/-! ## Lengths -/

/-- No piece stands for more than one character. -/
theorem Denotes.length_le {ps : List Piece} {cs : List Char} (h : Denotes ps cs) :
    cs.length ≤ ps.length := by
  induction h with
  | nil => exact Nat.le_refl 0
  | char _ _ ih | unit _ _ _ ih => exact Nat.succ_le_succ ih
  | pair _ _ _ ih => exact Nat.le_succ_of_le (Nat.succ_le_succ ih)

theorem Piece.Spelled.length_pos {p : Piece} {text : List Char} (h : p.Spelled text) :
    0 < text.length := by
  cases h <;> exact Nat.succ_pos _

theorem PiecesSpelled.length_le {ps : List Piece} {body : List Char} (h : PiecesSpelled ps body) :
    ps.length ≤ body.length := by
  induction h with
  | nil => exact Nat.le_refl 0
  | cons hp _ ih =>
    have hpos := hp.length_pos
    rw [List.length_cons, List.length_append]
    omega

theorem StringSpelled.length_lt {s : String} {cs : List Char} (h : StringSpelled (some s) cs) :
    s.toList.length < cs.length := by
  cases h with
  | text hps hs =>
    have hpieces := hps.length_le
    have hchars := hs.length_le
    rw [List.length_cons, List.length_append]
    omega

theorem Padded.exists_length_le {spelled : List Char → Prop} {cs : List Char}
    (h : Padded spelled cs) : ∃ text, spelled text ∧ text.length ≤ cs.length := by
  obtain ⟨before, text, after, -, htext, -, rfl⟩ := h
  refine ⟨text, htext, ?_⟩
  rw [List.length_append, List.length_append]
  omega

/-! ## Readers that agree on shorter texts -/

theorem embedded?_eq_none_iff {ms : List (Option String × Tree)} :
    embedded? ms = none ↔ ms.head?.map (·.1) ≠ some (some embeddingKey) := by
  obtain _ | ⟨⟨_ | k, t⟩, rest⟩ := ms
  · simp [embedded?]
  · simp [embedded?]
  · by_cases hk : k = embeddingKey
    · cases t <;> cases rest <;> simp [embedded?, hk]
    · simp [embedded?, hk]

/-- An object that stands for a text holds nothing else. -/
theorem eq_of_embedded? {ms : List (Option String × Tree)} {s : String}
    (h : embedded? ms = some (some s)) : ms = [(some embeddingKey, .text s)] := by
  unfold embedded? at h
  split at h
  · split at h
    · next hk =>
      split at h
      · cases h
        rw [hk]
        rfl
      · cases h
    · cases h
  · cases h

section Agree

variable {read read' : String → Option Value} {n : Nat}

mutual

/-- Readers that agree on all texts that are shorter than the text of a tree give it one value. -/
theorem ofTreeBy_congr (hread : ∀ s : String, s.toList.length < n → read s = read' s) :
    ∀ {t : Tree} {cs : List Char} (room : Nat), t.Spelled cs → cs.length ≤ n →
      Value.ofTreeBy read room t = Value.ofTreeBy read' room t
  | .null, _, _, _, _ => rfl
  | .bool _, _, _, _, _ => rfl
  | .number _, _, _, _, _ => rfl
  | .string _, _, _, _, _ => rfl
  | .array ts, _, room, h, hn => by
    obtain ⟨inner, hinner, rfl⟩ := h
    have hlength : inner.length ≤ n := by
      rw [List.length_cons, List.length_append] at hn
      omega
    rw [Value.ofTreeBy, Value.ofTreeBy,
      valuesOfTreesBy_congr hread (room - 1) (.inl hinner) hlength]
  | .object ms, _, room, h, hn => by
    obtain ⟨inner, hinner, rfl⟩ := h
    have hlength : inner.length ≤ n := by
      rw [List.length_cons, List.length_append] at hn
      omega
    have hmembers := membersOfTreesBy_congr hread (room - 1) (.inl hinner) hlength
    rw [Value.ofTreeBy, Value.ofTreeBy]
    split
    · rfl
    · split
      · next s hs =>
        cases s with
        | none => rfl
        | some s =>
          -- the text is the only member, so it is spelled within the object
          obtain rfl := eq_of_embedded? hs
          obtain ⟨key, item, more, -, hitem, -, rfl⟩ := hinner
          obtain ⟨text, htext, htextLength⟩ := hitem.exists_length_le
          have hshorter := StringSpelled.length_lt htext
          refine hread s ?_
          rw [List.length_append, List.length_cons, List.length_append] at hlength
          omega
      · rw [hmembers]

theorem valuesOfTreesBy_congr (hread : ∀ s : String, s.toList.length < n → read s = read' s) :
    ∀ {ts : List Tree} {cs : List Char} (room : Nat),
      itemsSpelled ts cs ∨ moreItemsSpelled ts cs → cs.length ≤ n →
      valuesOfTreesBy read room ts = valuesOfTreesBy read' room ts
  | [], _, _, _, _ => rfl
  | t :: ts, cs, room, h, hn => by
    obtain ⟨item, more, hitem, hmore, hlength⟩ : ∃ item more, Padded t.Spelled item ∧
        moreItemsSpelled ts more ∧ item.length + more.length ≤ cs.length := by
      obtain ⟨item, more, hitem, hmore, rfl⟩ | ⟨item, more, hitem, hmore, rfl⟩ := h
      · exact ⟨item, more, hitem, hmore, by rw [List.length_append]⟩
      · exact ⟨item, more, hitem, hmore, by rw [List.length_cons, List.length_append]; omega⟩
    obtain ⟨text, htext, htextLength⟩ := hitem.exists_length_le
    rw [valuesOfTreesBy, valuesOfTreesBy, ofTreeBy_congr hread room htext (by omega),
      valuesOfTreesBy_congr hread room (.inr hmore) (by omega)]

theorem membersOfTreesBy_congr (hread : ∀ s : String, s.toList.length < n → read s = read' s) :
    ∀ {ms : List (Option String × Tree)} {cs : List Char} (room : Nat),
      membersSpelled ms cs ∨ moreMembersSpelled ms cs → cs.length ≤ n →
      membersOfTreesBy read room ms = membersOfTreesBy read' room ms
  | [], _, _, _, _ => rfl
  | (k, t) :: ms, cs, room, h, hn => by
    obtain ⟨item, more, hitem, hmore, hlength⟩ : ∃ item more, Padded t.Spelled item ∧
        moreMembersSpelled ms more ∧ item.length + more.length ≤ cs.length := by
      obtain ⟨key, item, more, -, hitem, hmore, rfl⟩ | ⟨key, item, more, -, hitem, hmore, rfl⟩ := h
      · refine ⟨item, more, hitem, hmore, ?_⟩
        rw [List.length_append, List.length_cons, List.length_append]
        omega
      · refine ⟨item, more, hitem, hmore, ?_⟩
        rw [List.length_cons, List.length_append, List.length_cons, List.length_append]
        omega
    obtain ⟨text, htext, htextLength⟩ := hitem.exists_length_le
    rw [membersOfTreesBy.eq_def, membersOfTreesBy.eq_def read']
    simp only [ofTreeBy_congr hread room htext (by omega),
      membersOfTreesBy_congr hread room (.inr hmore) (by omega)]

end

end Agree

/-! ## Texts -/

theorem Tree.SpelledBy.ofTreeBy_congr {t : Tree} {s : String} (h : t.SpelledBy s)
    {read read' : String → Option Value} (room : Nat)
    (hread : ∀ s' : String, s'.toList.length < s.toList.length → read s' = read' s') :
    Value.ofTreeBy read room t = Value.ofTreeBy read' room t := by
  obtain ⟨text, htext, hlength⟩ := h.exists_length_le
  exact Json.ofTreeBy_congr hread room htext hlength

/-- The induction is on the first bound; each text that stands in another is shorter. -/
theorem Value.ofTextWithin_eq {depth depth' : Nat} {s : String} (h : s.toList.length < depth)
    (h' : s.toList.length < depth') : ofTextWithin depth s = ofTextWithin depth' s := by
  induction depth generalizing depth' s with
  | zero => exact absurd h (Nat.not_lt_zero _)
  | succ depth ih =>
    cases depth' with
    | zero => exact absurd h' (Nat.not_lt_zero _)
    | succ depth' =>
      rw [ofTextWithin, ofTextWithin]
      cases ht : Tree.ofText? s with
      | none => rfl
      | some t =>
        refine (Tree.ofText?_eq_some_iff.1 ht).ofTreeBy_congr nestingLimit fun s' hs' => ?_
        exact ih (by omega) (by omega)

/-- The value in a text is that of its tree. -/
theorem Value.ofText?_eq (s : String) :
    ofText? s = (Tree.ofText? s).bind (ofTree? nestingLimit) := by
  rw [ofText?, ofTextWithin]
  cases ht : Tree.ofText? s with
  | none => rfl
  | some t =>
    refine (Tree.ofText?_eq_some_iff.1 ht).ofTreeBy_congr nestingLimit fun s' hs' => ?_
    exact ofTextWithin_eq hs' (Nat.lt_succ_self _)

end ProjectRegistry.Json
