import ProjectRegistry.Proofs.Json.Doubles
import ProjectRegistry.Proofs.Json.Embedding
import ProjectRegistry.Proofs.Tables

/-!
# Free JSON in texts

A value is read from its text if it is not nested too deep: the reader counts the arrays and objects
that it enters, and refuses the first that is one too many. No number stands in the way, as long as
it is one that a value can have, but an object does that has the reserved key in front: unless it
holds a text that can be read, and only this, it is refused.

A value whose numbers are whole comes back as itself exactly if it is read and the reserved key
stands in front nowhere. Doubles may come back as others, since they are not read as the nearest
ones, and an object with the reserved key in front comes back as the value in its text, which is
never that object again: nothing is read as an object that has the reserved key alone.
-/

namespace ProjectRegistry.Json

/-! ## Numbers -/

/-- A whole number of the signed or the unsigned 64-bit range. -/
def Number.IsWhole : Number → Prop
  | .integer n => Int64.minValue.toInt ≤ n ∧ n < UInt64.size
  | .double _ _ => False

/-- A whole number of the signed or the unsigned 64-bit range, or a finite double. -/
def Number.InRange : Number → Prop
  | .integer n => Int64.minValue.toInt ≤ n ∧ n < UInt64.size
  | .double _ x => x.IsFinite

namespace Number

theorem gatherWhole_digitsOf {n : Nat} (h : n < UInt64.size) :
    gatherWhole (Text.digitsOf 10 n) = { significand := n } := by
  have hdigits : Nat.ofDigitChars 10 (Text.digitsOf 10 n) 0 = n :=
    Nat.ofDigitChars_toDigits (by decide) (by decide)
  rw [gatherWhole, foldl_take rfl (hdigits.symm ▸ h), hdigits, Int.mul_zero]
  rfl

theorem ofNumeral?_toNumeral {n : Number} (h : n.IsWhole) : ofNumeral? n.toNumeral = some n := by
  cases n with
  | double negative x => exact h.elim
  | integer n =>
    obtain ⟨hlow, hhigh⟩ := h
    have hmin : Int64.minValue.toInt = -9223372036854775808 := by decide
    have hsize : UInt64.size = 18446744073709551616 := rfl
    have hgather := gatherWhole_digitsOf (n := n.natAbs) (by omega)
    simp only [ofNumeral?, toNumeral, hgather]
    by_cases hsign : n < 0
    · rw [if_pos (by simp [hsign]; omega)]
      simp only [hsign, decide_true, if_true, Option.some.injEq, integer.injEq]
      omega
    · rw [if_pos (by simp [hsign])]
      simp only [hsign, decide_false, Bool.false_eq_true, if_false, Option.some.injEq,
        integer.injEq]
      omega

theorem IsWhole.inRange {n : Number} (h : n.IsWhole) : n.InRange := by
  cases n with
  | integer n => exact h
  | double negative x => exact h.elim

theorem wellFormed_toNumeral (n : Number) : n.toNumeral.WellFormed := by
  cases n with
  | double negative x => exact wellFormed_double negative x
  | integer n =>
    refine ⟨Text.digitsOf_ne_nil _, Text.isDigit_of_mem_digitsOf, fun hhead => ?_, fun hc => ?_,
      fun he => ?_⟩
    · have hzero : n.natAbs = 0 :=
        Nat.eq_zero_of_not_pos fun hpos => Text.head_digitsOf_ne hpos hhead
      show Text.digitsOf 10 n.natAbs = ['0']
      rw [hzero, Text.digitsOf_zero]
    · cases hc
    · cases he

/-- What is read of a number that was written. -/
def reread (n : Number) : Number := (ofNumeral? n.toNumeral).getD n

theorem reread_of_isWhole {n : Number} (h : n.IsWhole) : n.reread = n := by
  rw [reread, ofNumeral?_toNumeral h, Option.getD_some]

theorem ofNumeral?_eq_reread {n : Number} (h : n.InRange) :
    ofNumeral? n.toNumeral = some n.reread := by
  have hread : IsRead n.toNumeral := by
    cases n with
    | integer n => exact ⟨_, ofNumeral?_toNumeral (n := .integer n) h⟩
    | double negative x => exact isRead_double negative h
  obtain ⟨m, hm⟩ := hread
  rw [reread, hm, Option.getD_some]

end Number

/-! ## Values -/

mutual

/-- How many arrays and objects are inside one another in a value. -/
def Value.nesting : Value → Nat
  | .null => 0
  | .bool _ => 0
  | .number _ => 0
  | .string _ => 0
  | .array vs => nestingOfValues vs + 1
  | .object ms => nestingOfMembers ms + 1

def nestingOfValues : List Value → Nat
  | [] => 0
  | v :: rest => max v.nesting (nestingOfValues rest)

def nestingOfMembers : List (String × Value) → Nat
  | [] => 0
  | (_, v) :: rest => max v.nesting (nestingOfMembers rest)

end

mutual

/-- Whether all numbers in a value are whole, and all its objects have their keys in order, each
once. -/
def Value.Regular : Value → Prop
  | .null => True
  | .bool _ => True
  | .number n => n.IsWhole
  | .string _ => True
  | .array vs => valuesRegular vs
  | .object ms => (ms.Pairwise fun a b => a.1 < b.1) ∧ membersRegular ms

def valuesRegular : List Value → Prop
  | [] => True
  | v :: rest => v.Regular ∧ valuesRegular rest

def membersRegular : List (String × Value) → Prop
  | [] => True
  | (_, v) :: rest => v.Regular ∧ membersRegular rest

end

mutual

/-- Whether no object in a value has the reserved key in front. -/
def Value.Unreserved : Value → Prop
  | .null => True
  | .bool _ => True
  | .number _ => True
  | .string _ => True
  | .array vs => valuesUnreserved vs
  | .object ms => ms.head?.map (·.1) ≠ some embeddingKey ∧ membersUnreserved ms

def valuesUnreserved : List Value → Prop
  | [] => True
  | v :: rest => v.Unreserved ∧ valuesUnreserved rest

def membersUnreserved : List (String × Value) → Prop
  | [] => True
  | (_, v) :: rest => v.Unreserved ∧ membersUnreserved rest

end

/-- Whether a value is one that comes back from its text if there is room for it. -/
def Value.Exact (v : Value) : Prop := v.Regular ∧ v.Unreserved

mutual

/-- Whether all numbers in a value are in range. -/
def Value.InRange : Value → Prop
  | .null => True
  | .bool _ => True
  | .number n => n.InRange
  | .string _ => True
  | .array vs => valuesInRange vs
  | .object ms => membersInRange ms

def valuesInRange : List Value → Prop
  | [] => True
  | v :: rest => v.InRange ∧ valuesInRange rest

def membersInRange : List (String × Value) → Prop
  | [] => True
  | (_, v) :: rest => v.InRange ∧ membersInRange rest

end

mutual

/-- Whether each object in a value that stands for a text when it is written has one that can be
read. -/
def Value.unfolds : Value → Bool
  | .null => true
  | .bool _ => true
  | .number _ => true
  | .string _ => true
  | .array vs => valuesUnfold vs
  | .object ms =>
    match embedded? (treesOfMembers ms) with
    | some s => (s.bind Value.ofText?).isSome
    | none => membersUnfold ms

def valuesUnfold : List Value → Bool
  | [] => true
  | v :: rest => v.unfolds && valuesUnfold rest

def membersUnfold : List (String × Value) → Bool
  | [] => true
  | (_, v) :: rest => v.unfolds && membersUnfold rest

end

mutual

/-- What is read of a value that was written, if it can be read. -/
def Value.reread : Value → Value
  | .null => .null
  | .bool b => .bool b
  | .number n => .number n.reread
  | .string s => .string s
  | .array vs => .array (rereadValues vs)
  | .object ms =>
    match embedded? (treesOfMembers ms) with
    | some s => (s.bind Value.ofText?).getD (.object ms)
    | none => .ofMembers (rereadMembers ms)

def rereadValues : List Value → List Value
  | [] => []
  | v :: rest => v.reread :: rereadValues rest

def rereadMembers : List (String × Value) → List (String × Value)
  | [] => []
  | (k, v) :: rest => (k, v.reread) :: rereadMembers rest

end

theorem putMember_eq_insertEntry (k : String) (v : Value) (ms : List (String × Value)) :
    putMember k v ms = Table.insertEntry k v ms := by
  induction ms with
  | nil => rfl
  | cons m rest ih => simp [putMember, Table.insertEntry, Key.before, ih]

theorem ofMembers_eq {ms : List (String × Value)} (h : ms.Pairwise fun a b => a.1 < b.1) :
    Value.ofMembers ms = .object ms := by
  have hordered : ([] ++ ms).Pairwise fun a b : String × Value => Key.before a.1 b.1 = true :=
    h.imp fun hab => decide_eq_true hab
  simp only [Value.ofMembers, putMember_eq_insertEntry]
  rw [Table.foldl_insertEntry hordered, List.nil_append]

theorem embedded?_treesOfMembers {ms : List (String × Value)} :
    embedded? (treesOfMembers ms) = none ↔ ms.head?.map (·.1) ≠ some embeddingKey := by
  rw [embedded?_eq_none_iff]
  cases ms with
  | nil => simp [treesOfMembers]
  | cons m rest => simp [treesOfMembers]

/-- An object that stands for a text has no arrays and objects inside. -/
theorem nestingOfMembers_of_embedded? {ms : List (String × Value)} {s : String}
    (h : embedded? (treesOfMembers ms) = some (some s)) : nestingOfMembers ms = 0 := by
  have htrees := eq_of_embedded? h
  obtain _ | ⟨⟨k, v⟩, _ | _⟩ := ms
  · rfl
  · cases v with
    | array | object => simp [treesOfMembers, Value.toTree, Tree.text] at htrees
    | _ => rfl
  · simp [treesOfMembers] at htrees

mutual

theorem Value.Regular.inRange : ∀ {v : Value}, v.Regular → v.InRange
  | .null, _ => trivial
  | .bool _, _ => trivial
  | .number _, h => Number.IsWhole.inRange h
  | .string _, _ => trivial
  | .array _, h => inRange_of_valuesRegular h
  | .object _, h => inRange_of_membersRegular h.2

theorem inRange_of_valuesRegular : ∀ {vs : List Value}, valuesRegular vs → valuesInRange vs
  | [], _ => trivial
  | _ :: _, h => ⟨h.1.inRange, inRange_of_valuesRegular h.2⟩

theorem inRange_of_membersRegular :
    ∀ {ms : List (String × Value)}, membersRegular ms → membersInRange ms
  | [], _ => trivial
  | (_, _) :: _, h => ⟨h.1.inRange, inRange_of_membersRegular h.2⟩

end

theorem Value.Exact.inRange {v : Value} (h : v.Exact) : v.InRange := h.1.inRange

mutual

theorem Value.Unreserved.unfolds : ∀ {v : Value}, v.Unreserved → v.unfolds = true
  | .null, _ => rfl
  | .bool _, _ => rfl
  | .number _, _ => rfl
  | .string _, _ => rfl
  | .array _, h => valuesUnfold_of_unreserved h
  | .object _, h => by
    rw [Value.unfolds, embedded?_treesOfMembers.2 h.1]
    exact membersUnfold_of_unreserved h.2

theorem valuesUnfold_of_unreserved :
    ∀ {vs : List Value}, valuesUnreserved vs → valuesUnfold vs = true
  | [], _ => rfl
  | _ :: _, h => Bool.and_eq_true_iff.2 ⟨h.1.unfolds, valuesUnfold_of_unreserved h.2⟩

theorem membersUnfold_of_unreserved :
    ∀ {ms : List (String × Value)}, membersUnreserved ms → membersUnfold ms = true
  | [], _ => rfl
  | (_, _) :: _, h => Bool.and_eq_true_iff.2 ⟨h.1.unfolds, membersUnfold_of_unreserved h.2⟩

end

theorem Value.Exact.unfolds {v : Value} (h : v.Exact) : v.unfolds = true := h.2.unfolds

mutual

theorem Value.Unreserved.reread_eq : ∀ {v : Value}, v.Unreserved → v.Regular → v.reread = v
  | .null, _, _ => rfl
  | .bool _, _, _ => rfl
  | .number _, _, h => congrArg Value.number (Number.reread_of_isWhole h)
  | .string _, _, _ => rfl
  | .array _, h, hregular => congrArg Value.array (rereadValues_of_unreserved h hregular)
  | .object _, h, hregular => by
    rw [Value.reread, embedded?_treesOfMembers.2 h.1]
    show Value.ofMembers (rereadMembers _) = _
    rw [rereadMembers_of_unreserved h.2 hregular.2, ofMembers_eq hregular.1]

theorem rereadValues_of_unreserved :
    ∀ {vs : List Value}, valuesUnreserved vs → valuesRegular vs → rereadValues vs = vs
  | [], _, _ => rfl
  | _ :: _, h, hregular => by
    rw [rereadValues, h.1.reread_eq hregular.1, rereadValues_of_unreserved h.2 hregular.2]

theorem rereadMembers_of_unreserved :
    ∀ {ms : List (String × Value)}, membersUnreserved ms → membersRegular ms →
      rereadMembers ms = ms
  | [], _, _ => rfl
  | (_, _) :: _, h, hregular => by
    rw [rereadMembers, h.1.reread_eq hregular.1, rereadMembers_of_unreserved h.2 hregular.2]

end

theorem Value.Exact.reread_eq {v : Value} (h : v.Exact) : v.reread = v := h.2.reread_eq h.1

mutual

theorem Value.wellFormed_toTree : ∀ v : Value, v.toTree.WellFormed
  | .null => trivial
  | .bool _ => trivial
  | .number n => n.wellFormed_toNumeral
  | .string _ => trivial
  | .array vs => wellFormed_treesOfValues vs
  | .object ms => wellFormed_treesOfMembers ms

theorem wellFormed_treesOfValues : ∀ vs : List Value, treesWellFormed (treesOfValues vs)
  | [] => trivial
  | v :: rest => ⟨v.wellFormed_toTree, wellFormed_treesOfValues rest⟩

theorem wellFormed_treesOfMembers :
    ∀ ms : List (String × Value), membersWellFormed (treesOfMembers ms)
  | [] => trivial
  | (_, v) :: rest => ⟨v.wellFormed_toTree, wellFormed_treesOfMembers rest⟩

end

mutual

/-- A value is read if there is room for its arrays and objects and all texts in it that stand for
values can be read, and refused otherwise. -/
theorem Value.ofTreeBy_toTree : ∀ v : Value, v.InRange → ∀ room,
    Value.ofTreeBy Value.ofText? room v.toTree =
      if v.nesting ≤ room ∧ v.unfolds then some v.reread else none
  | .null, _, room => rfl
  | .bool _, _, room => rfl
  | .number n, h, room => by
    rw [Value.toTree, Value.ofTreeBy, Number.ofNumeral?_eq_reread h]
    rfl
  | .string _, _, room => rfl
  | .array vs, h, room => by
    rw [Value.toTree, Value.ofTreeBy, Value.nesting, Value.unfolds]
    cases room with
    | zero => simp
    | succ room =>
      rw [if_neg (by omega), Nat.add_sub_cancel, valuesOfTreesBy_toTree vs h room]
      simp only [Nat.add_le_add_iff_right]
      split <;> rfl
  | .object ms, h, room => by
    rw [Value.toTree, Value.ofTreeBy, Value.nesting, Value.unfolds, Value.reread]
    cases room with
    | zero => simp
    | succ room =>
      rw [if_neg (by omega), Nat.add_sub_cancel, membersOfTreesBy_toTree ms h room]
      simp only [Nat.add_le_add_iff_right]
      rcases hs : embedded? (treesOfMembers ms) with _ | _ | s
      · by_cases hread : nestingOfMembers ms ≤ room ∧ membersUnfold ms = true
        · simp [hread]
        · simp only [if_neg hread, Option.map_none]
      · simp
      · have hnesting := nestingOfMembers_of_embedded? hs
        cases hread : Value.ofText? s <;> simp [hnesting, hread]

theorem valuesOfTreesBy_toTree : ∀ vs : List Value, valuesInRange vs → ∀ room,
    valuesOfTreesBy Value.ofText? room (treesOfValues vs) =
      if nestingOfValues vs ≤ room ∧ valuesUnfold vs then some (rereadValues vs) else none
  | [], _, room => (if_pos ⟨Nat.zero_le room, rfl⟩).symm
  | v :: rest, h, room => by
    have hboth : max v.nesting (nestingOfValues rest) ≤ room ∧
        (v.unfolds && valuesUnfold rest) = true ↔
          (v.nesting ≤ room ∧ v.unfolds = true) ∧
            nestingOfValues rest ≤ room ∧ valuesUnfold rest = true := by
      rw [Nat.max_le, Bool.and_eq_true, and_and_and_comm]
    rw [treesOfValues, valuesOfTreesBy, v.ofTreeBy_toTree h.1 room,
      valuesOfTreesBy_toTree rest h.2 room, nestingOfValues, valuesUnfold, rereadValues]
    simp only [hboth]
    by_cases hv : v.nesting ≤ room ∧ v.unfolds = true <;>
      by_cases hrest : nestingOfValues rest ≤ room ∧ valuesUnfold rest = true <;>
      simp [hv, hrest]

theorem membersOfTreesBy_toTree : ∀ ms : List (String × Value), membersInRange ms → ∀ room,
    membersOfTreesBy Value.ofText? room (treesOfMembers ms) =
      if nestingOfMembers ms ≤ room ∧ membersUnfold ms then some (rereadMembers ms) else none
  | [], _, room => (if_pos ⟨Nat.zero_le room, rfl⟩).symm
  | (k, v) :: rest, h, room => by
    have hboth : max v.nesting (nestingOfMembers rest) ≤ room ∧
        (v.unfolds && membersUnfold rest) = true ↔
          (v.nesting ≤ room ∧ v.unfolds = true) ∧
            nestingOfMembers rest ≤ room ∧ membersUnfold rest = true := by
      rw [Nat.max_le, Bool.and_eq_true, and_and_and_comm]
    rw [treesOfMembers, membersOfTreesBy.eq_def, nestingOfMembers, membersUnfold, rereadMembers]
    simp only [hboth, v.ofTreeBy_toTree h.1 room, membersOfTreesBy_toTree rest h.2 room]
    by_cases hv : v.nesting ≤ room ∧ v.unfolds = true <;>
      by_cases hrest : nestingOfMembers rest ≤ room ∧ membersUnfold rest = true <;>
      simp [hv, hrest]

end

/-- What is read of a value from its text. -/
theorem Value.ofText?_toText_eq {v : Value} (h : v.InRange) :
    Value.ofText? v.toText =
      if v.nesting ≤ nestingLimit ∧ v.unfolds then some v.reread else none := by
  rw [ofText?_eq, toText, Tree.ofText?_toText v.wellFormed_toTree, Option.bind_some, ofTree?,
    v.ofTreeBy_toTree h]

theorem Value.ofText?_toText {v : Value} (h : v.Exact) :
    Value.ofText? v.toText = if v.nesting ≤ nestingLimit then some v else none := by
  rw [ofText?_toText_eq h.inRange, h.reread_eq]
  simp only [h.unfolds, and_true]

/-! ## What does not come back -/

theorem ofMembers_ne_of_head {ms : List (String × Value)} {v : Value}
    (h : ms.head?.map (·.1) ≠ some embeddingKey) :
    Value.ofMembers ms ≠ .object [(embeddingKey, v)] := by
  intro heq
  simp only [Value.ofMembers, putMember_eq_insertEntry, Value.object.injEq] at heq
  cases ms with
  | nil => cases heq
  | cons m rest =>
    have hfound : (Table.lookupEntry m.1
        ((m :: rest).foldl (fun t e => Table.insertEntry e.1 e.2 t) [])).isSome = true :=
      Table.isSome_lookupEntry_foldl (.inr ⟨m, List.mem_cons_self, rfl⟩)
    rw [heq, Table.lookupEntry, if_neg fun hkey => h (congrArg some hkey.symm)] at hfound
    cases hfound

/-- Members that are read as such do not have the reserved key in front. -/
theorem head_of_membersOfTreesBy {read : String → Option Value} {room : Nat}
    {ms : List (Option String × Tree)} {vs : List (String × Value)} (hms : embedded? ms = none)
    (h : membersOfTreesBy read room ms = some vs) : vs.head?.map (·.1) ≠ some embeddingKey := by
  obtain _ | ⟨⟨_ | k, t⟩, rest⟩ := ms
  · cases h
    simp
  · simp [membersOfTreesBy] at h
  · rw [membersOfTreesBy.eq_def] at h
    simp only at h
    split at h
    · next hkey _ _ =>
      cases hkey
      cases h
      simpa using embedded?_eq_none_iff.1 hms
    · cases h

theorem Value.ofTreeBy_ne {read : String → Option Value} {v : Value}
    (hread : ∀ s, read s ≠ some (.object [(embeddingKey, v)])) (room : Nat) (t : Tree) :
    Value.ofTreeBy read room t ≠ some (.object [(embeddingKey, v)]) := by
  intro h
  cases t with
  | object ms =>
    rw [Value.ofTreeBy] at h
    split at h
    · cases h
    · split at h
      · obtain ⟨s, -, hs⟩ := Option.bind_eq_some_iff.1 h
        exact hread s hs
      · next hms =>
        obtain ⟨vs, hvs, heq⟩ := Option.map_eq_some_iff.1 h
        exact ofMembers_ne_of_head (head_of_membersOfTreesBy hms hvs) heq
  | _ => simp [Value.ofTreeBy] at h

theorem Value.ofTextWithin_ne (depth : Nat) (s : String) (v : Value) :
    ofTextWithin depth s ≠ some (.object [(embeddingKey, v)]) := by
  induction depth generalizing s with
  | zero => exact (Option.some_ne_none _).symm
  | succ depth ih =>
    intro h
    obtain ⟨t, -, ht⟩ := Option.bind_eq_some_iff.1 h
    exact ofTreeBy_ne ih nestingLimit t ht

/-- Nothing is read as an object that has the reserved key alone. -/
theorem Value.ofTree?_ne (room : Nat) (t : Tree) (v : Value) :
    ofTree? room t ≠ some (.object [(embeddingKey, v)]) :=
  ofTreeBy_ne (fun s => ofTextWithin_ne _ s v) room t

theorem keys_rereadMembers (ms : List (String × Value)) :
    (rereadMembers ms).map (·.1) = ms.map (·.1) := by
  induction ms with
  | nil => rfl
  | cons m rest ih => exact congrArg (List.cons m.1) ih

mutual

/-- What is read as it was written has the reserved key in front nowhere. -/
theorem Value.Regular.unreserved :
    ∀ {v : Value}, v.Regular → v.unfolds = true → v.reread = v → v.Unreserved
  | .null, _, _, _ => trivial
  | .bool _, _, _, _ => trivial
  | .number _, _, _, _ => trivial
  | .string _, _, _, _ => trivial
  | .array _, h, hunfolds, hreread =>
    valuesUnreserved_of_reread h hunfolds (Value.array.inj hreread)
  | .object ms, h, hunfolds, hreread => by
    rw [Value.unfolds] at hunfolds
    rw [Value.reread] at hreread
    rcases hs : embedded? (treesOfMembers ms) with _ | s
    · rw [hs] at hunfolds hreread
      have hkeys : (rereadMembers ms).Pairwise fun a b => a.1 < b.1 := by
        have hms := List.pairwise_map.2 h.1
        rw [← keys_rereadMembers] at hms
        exact List.pairwise_map.1 hms
      have hsame := (ofMembers_eq hkeys).symm.trans hreread
      exact ⟨embedded?_treesOfMembers.1 hs,
        membersUnreserved_of_reread h.2 hunfolds (Value.object.inj hsame)⟩
    · -- the text that the object stands for would have to give the object itself
      rw [hs] at hunfolds hreread
      obtain ⟨v, hv⟩ := Option.isSome_iff_exists.1 hunfolds
      change (s.bind Value.ofText?).getD (.object ms) = .object ms at hreread
      rw [hv] at hreread
      cases hreread
      obtain ⟨s, rfl, hread⟩ := Option.bind_eq_some_iff.1 hv
      have hmembers := eq_of_embedded? hs
      obtain _ | ⟨⟨k, v⟩, _ | _⟩ := ms
      · cases hmembers
      · obtain ⟨rfl, -⟩ : k = embeddingKey ∧ v.toTree = .text s := by
          simpa [treesOfMembers] using hmembers
        exact absurd hread (Value.ofTextWithin_ne _ _ _)
      · simp [treesOfMembers] at hmembers

theorem valuesUnreserved_of_reread : ∀ {vs : List Value}, valuesRegular vs →
    valuesUnfold vs = true → rereadValues vs = vs → valuesUnreserved vs
  | [], _, _, _ => trivial
  | _ :: _, h, hunfolds, hreread =>
    have hboth := Bool.and_eq_true_iff.1 hunfolds
    have hsame := List.cons.inj hreread
    ⟨h.1.unreserved hboth.1 hsame.1, valuesUnreserved_of_reread h.2 hboth.2 hsame.2⟩

theorem membersUnreserved_of_reread : ∀ {ms : List (String × Value)}, membersRegular ms →
    membersUnfold ms = true → rereadMembers ms = ms → membersUnreserved ms
  | [], _, _, _ => trivial
  | (_, _) :: _, h, hunfolds, hreread =>
    have hboth := Bool.and_eq_true_iff.1 hunfolds
    have hsame := List.cons.inj hreread
    ⟨h.1.unreserved hboth.1 (Prod.mk.inj hsame.1).2,
      membersUnreserved_of_reread h.2 hboth.2 hsame.2⟩

end

theorem Value.Regular.reread_eq_iff {v : Value} (h : v.Regular) :
    v.unfolds = true ∧ v.reread = v ↔ v.Unreserved :=
  ⟨fun hread => h.unreserved hread.1 hread.2, fun hfree => ⟨hfree.unfolds, hfree.reread_eq h⟩⟩

/-- Of the values with whole numbers and ordered keys, those come back that there is room for and
that have the reserved key in front nowhere. -/
theorem Value.ofTree?_toTree_eq_some_iff {v : Value} (h : v.Regular) {room : Nat} :
    Value.ofTree? room v.toTree = some v ↔ v.nesting ≤ room ∧ v.Unreserved := by
  rw [ofTree?, v.ofTreeBy_toTree h.inRange, ← h.reread_eq_iff, Option.ite_none_right_eq_some,
    Option.some_inj, and_assoc]

theorem Value.ofText?_toText_eq_some_iff {v : Value} (h : v.Regular) :
    Value.ofText? v.toText = some v ↔ v.nesting ≤ nestingLimit ∧ v.Unreserved := by
  rw [ofText?_eq, toText, Tree.ofText?_toText v.wellFormed_toTree, Option.bind_some,
    ofTree?_toTree_eq_some_iff h]

end ProjectRegistry.Json
