import ProjectRegistry.Table

/-!
# What operations do to a table

Which keys are there after an operation, and that changing every row of a table in place can be done
before or after it. The second kind of fact carries a statement about live rows over to stored ones.
-/

namespace ProjectRegistry.Table

variable {κ α β γ : Type} [Key κ]

/-- Changes the rows of a table by their content alone. -/
abbrev mapRows (f : α → β) (t : Table κ α) : Table κ β := t.map fun _ a => f a

theorem mapRows_filterKeys (f : α → β) (t : Table κ α) (p : κ → Bool) :
    (t.filter fun k _ => p k).mapRows f = (t.mapRows f).filter fun k _ => p k := by
  apply ext
  simp only [filter, map, List.filter_map]
  rfl

theorem filter_filter (t : Table κ α) (p q : κ → α → Bool) :
    (t.filter p).filter q = t.filter fun k a => p k a && q k a := by
  apply ext
  simp only [filter, List.filter_filter]
  exact List.filter_congr fun e _ => Bool.and_comm _ _

theorem mapRows_mapRows (f : α → β) (g : β → γ) (t : Table κ α) :
    (t.mapRows f).mapRows g = t.mapRows fun a => g (f a) := by
  apply ext
  simp [map]

variable [DecidableEq κ]

/-! ## Keys -/

theorem contains_iff {t : Table κ α} {k : κ} : t.contains k = true ↔ ∃ a, t.find? k = some a :=
  Option.isSome_iff_exists

theorem contains_of_find? {t : Table κ α} {k : κ} {a : α} (h : t.find? k = some a) :
    t.contains k = true :=
  contains_iff.2 ⟨a, h⟩

theorem find?_eq_none_of_not_contains {t : Table κ α} {k : κ} (h : t.contains k = false) :
    t.find? k = none := by
  simpa [contains] using h

@[simp] theorem contains_empty (k : κ) : (empty : Table κ α).contains k = false := rfl

theorem contains_insert (t : Table κ α) (k k' : κ) (a : α) :
    (t.insert k a).contains k' = (decide (k = k') || t.contains k') := by
  simp only [contains, find?_insert]
  split <;> simp_all

@[simp] theorem contains_modify (t : Table κ α) (k k' : κ) (f : α → α) :
    (t.modify k f).contains k' = t.contains k' := by
  simp only [contains, find?_modify]
  split <;> simp

@[simp] theorem contains_map (t : Table κ α) (f : κ → α → β) (k : κ) :
    (t.map f).contains k = t.contains k := by
  simp [contains, find?_map]

theorem find?_filterKeys (t : Table κ α) (p : κ → Bool) (k : κ) :
    (t.filter fun k _ => p k).find? k = if p k then t.find? k else none := by
  rw [find?_filter]
  cases t.find? k <;> simp [Option.filter]

theorem contains_filterKeys (t : Table κ α) (p : κ → Bool) (k : κ) :
    (t.filter fun k _ => p k).contains k = (p k && t.contains k) := by
  simp only [contains, find?_filterKeys]
  split <;> simp_all

theorem filterKeys_congr {t : Table κ α} {p q : κ → Bool}
    (h : ∀ k, t.contains k = true → p k = q k) :
    (t.filter fun k _ => p k) = t.filter fun k _ => q k := by
  apply ext
  apply List.filter_congr
  intro e he
  exact h e.1 (contains_of_find? (find?_eq_some_iff.2 he))

theorem filterKeys_eq_self {t : Table κ α} {p : κ → Bool}
    (h : ∀ k, t.contains k = true → p k = true) : (t.filter fun k _ => p k) = t := by
  apply ext
  refine List.filter_eq_self.2 ?_
  intro e he
  exact h e.1 (contains_of_find? (find?_eq_some_iff.2 he))

theorem mem_keys_iff {t : Table κ α} {k : κ} : k ∈ t.keys ↔ t.contains k = true := by
  simp only [keys, List.mem_map, contains_iff]
  constructor
  · rintro ⟨e, he, rfl⟩
    exact ⟨e.2, find?_eq_some_iff.2 he⟩
  · rintro ⟨a, ha⟩
    exact ⟨(k, a), find?_eq_some_iff.1 ha, rfl⟩

theorem any_rows_iff {t : Table κ α} {p : α → Bool} :
    t.rows.any p = true ↔ ∃ k a, t.find? k = some a ∧ p a = true := by
  simp only [rows, List.any_map, List.any_eq_true, Function.comp_apply]
  constructor
  · rintro ⟨e, he, hp⟩
    exact ⟨e.1, e.2, find?_eq_some_iff.2 he, hp⟩
  · rintro ⟨k, a, ha, hp⟩
    exact ⟨(k, a), find?_eq_some_iff.1 ha, hp⟩

theorem eq_of_find? {s t : Table κ α} (h : ∀ k, s.find? k = t.find? k) : s = t := by
  apply ext
  have hmem : ∀ e, e ∈ s.entries ↔ e ∈ t.entries := by
    intro e
    rw [← find?_eq_some_iff (t := s), ← find?_eq_some_iff (t := t), h]
  have hasymm : ∀ a ∈ s.entries, ∀ b ∈ t.entries, Key.before a.1 b.1 = true →
      Key.before b.1 a.1 = true → a = b := by
    intro a _ b _ hab hba
    simp [Key.before_asymm hab] at hba
  have hs : s.entries.Nodup :=
    s.ordered.imp fun hab he => Key.ne_of_before hab (congrArg Prod.fst he)
  have ht : t.entries.Nodup :=
    t.ordered.imp fun hab he => Key.ne_of_before hab (congrArg Prod.fst he)
  exact List.Perm.eq_of_pairwise (fun a b ha hb => hasymm a ha b hb) s.ordered t.ordered
    ((List.perm_ext_iff_of_nodup hs ht).2 hmem)

/-! ## Putting several rows -/

/-- Puts rows under keys one after the other. -/
def insertAll (t : Table κ α) (es : List (κ × α)) : Table κ α :=
  es.foldl (fun t e => t.insert e.1 e.2) t

@[simp] theorem insertAll_nil (t : Table κ α) : t.insertAll [] = t := rfl

@[simp] theorem insertAll_cons (t : Table κ α) (e : κ × α) (es : List (κ × α)) :
    t.insertAll (e :: es) = (t.insert e.1 e.2).insertAll es := rfl

theorem contains_insertAll {t : Table κ α} {es : List (κ × α)} {k : κ} :
    (t.insertAll es).contains k = true ↔ t.contains k = true ∨ ∃ e ∈ es, e.1 = k := by
  induction es generalizing t with
  | nil => simp
  | cons e rest ih =>
    rw [insertAll_cons, ih, contains_insert]
    simp only [Bool.or_eq_true, decide_eq_true_eq, List.mem_cons, exists_eq_or_imp]
    constructor
    · rintro ((h | h) | h)
      · exact .inr (.inl h)
      · exact .inl h
      · exact .inr (.inr h)
    · rintro (h | h | h)
      · exact .inl (.inr h)
      · exact .inl (.inl h)
      · exact .inr h

theorem find?_insertAll {t : Table κ α} {es : List (κ × α)} {k : κ} {a : α}
    (h : (t.insertAll es).find? k = some a) :
    t.find? k = some a ∨ (k, a) ∈ es := by
  induction es generalizing t with
  | nil => exact .inl h
  | cons e rest ih =>
    rcases ih h with h | h
    · rw [find?_insert] at h
      split at h
      · next hk =>
        cases h
        exact .inr (hk ▸ List.mem_cons_self)
      · exact .inl h
    · exact .inr (List.mem_cons_of_mem e h)

/-- Of the rows put under a key the last one stays. -/
theorem find?_insertAll_eq (t : Table κ α) (es : List (κ × α)) (k : κ) :
    (t.insertAll es).find? k =
      ((es.reverse.find? fun e => e.1 = k).map (·.2)).or (t.find? k) := by
  induction es generalizing t with
  | nil => rfl
  | cons e rest ih =>
    rw [insertAll_cons, ih, find?_insert, List.reverse_cons, List.find?_append, Option.map_or,
      Option.or_assoc]
    congr 1
    by_cases hk : e.1 = k
    · simp [hk]
    · simp [hk]

/-- Rows put under names that two numbers stand before. -/
theorem find?_insertAll_named (t : Table (Int32 × Int32 × String) α) (p v : Int32)
    (name : β → String) (row : β → α) (bs : List β) (q w : Int32) (n : String) :
    (t.insertAll (bs.map fun b => ((p, v, name b), row b))).find? (q, w, n) =
      if q = p ∧ w = v then ((bs.reverse.find? fun b => name b = n).map row).or (t.find? (q, w, n))
      else t.find? (q, w, n) := by
  rw [find?_insertAll_eq, ← List.map_reverse, List.find?_map, Option.map_map]
  by_cases hkey : q = p ∧ w = v
  · obtain ⟨rfl, rfl⟩ := hkey
    simp [Function.comp_def]
  · have hother : bs.reverse.find? ((fun e : (Int32 × Int32 × String) × α =>
        decide (e.1 = (q, w, n))) ∘ fun b => ((p, v, name b), row b)) = none := by
      rw [List.find?_eq_none]
      intro b _
      simp only [Function.comp_apply, Prod.mk.injEq, decide_eq_true_eq]
      rintro ⟨rfl, rfl, -⟩
      exact hkey ⟨rfl, rfl⟩
    rw [hother, if_neg hkey]
    rfl

/-! ## Rows under names -/

/-- The rows of two numbers stand in the order of their names. -/
theorem names_ascending (t : Table (Int32 × Int32 × String) α) (p v : Int32) :
    (t.entries.filter fun e => e.1.1 = p ∧ e.1.2.1 = v).Pairwise fun a b => a.1.2.2 < b.1.2.2 := by
  refine (t.ordered.filter _).imp_of_mem ?_
  intro a b ha hb hab
  obtain ⟨hp, hv⟩ := of_decide_eq_true (List.mem_filter.1 ha).2
  obtain ⟨hp', hv'⟩ := of_decide_eq_true (List.mem_filter.1 hb).2
  simpa [Key.before, hp, hv, hp', hv'] using hab

theorem mem_named_iff {t : Table (Int32 × Int32 × String) α} {p v : Int32} {n : String} {a : α} :
    (n, a) ∈ (t.entries.filter fun e => e.1.1 = p ∧ e.1.2.1 = v).map (fun e => (e.1.2.2, e.2)) ↔
      t.find? (p, v, n) = some a := by
  rw [find?_eq_some_iff]
  simp only [List.mem_map, List.mem_filter, decide_eq_true_eq, Prod.mk.injEq]
  constructor
  · rintro ⟨_, ⟨he, rfl, rfl⟩, rfl, rfl⟩
    exact he
  · intro he
    exact ⟨_, ⟨he, rfl, rfl⟩, rfl, rfl⟩

theorem find?_of_filterKeys {t : Table κ α} {p : κ → Bool} {k : κ} {a : α}
    (h : (t.filter fun k _ => p k).find? k = some a) : t.find? k = some a := by
  rw [find?_filterKeys] at h
  split at h
  · exact h
  · cases h

omit [DecidableEq κ] in
theorem length_map (f : κ → α → β) (t : Table κ α) : (t.map f).entries.length = t.entries.length :=
  List.length_map _

theorem length_insert {t : Table κ α} {k : κ} (h : t.contains k = false) (a : α) :
    (t.insert k a).entries.length = t.entries.length + 1 := by
  have hentry : ∀ es : List (κ × α), lookupEntry k es = none →
      (insertEntry k a es).length = es.length + 1 := by
    intro es hes
    induction es with
    | nil => rfl
    | cons e rest ih =>
      rw [lookupEntry] at hes
      split at hes
      · cases hes
      · next hne =>
        rw [insertEntry, if_neg (Ne.symm hne)]
        split
        · rfl
        · rw [List.length_cons, ih hes, List.length_cons]
  exact hentry _ (find?_eq_none_of_not_contains h)

theorem insertEntry_eq_append {k : κ} {a : α} {es : List (κ × α)}
    (h : ∀ e ∈ es, Key.before e.1 k = true) :
    insertEntry k a es = es ++ [(k, a)] := by
  induction es with
  | nil => rfl
  | cons e rest ih =>
    have he := h e List.mem_cons_self
    have hne : k ≠ e.1 := (Key.ne_of_before he).symm
    rw [insertEntry, if_neg hne, if_neg (by simp [Key.before_asymm he]),
      ih fun d hd => h d (List.mem_cons_of_mem e hd), List.cons_append]

/-- A row under a key behind all others comes last. -/
theorem keys_insert_last {t : Table κ α} {k : κ}
    (h : ∀ k', t.contains k' = true → Key.before k' k = true) (a : α) :
    (t.insert k a).keys = t.keys ++ [k] := by
  have hlast : ∀ e ∈ t.entries, Key.before e.1 k = true := fun e he =>
    h e.1 (mem_keys_iff.1 (List.mem_map_of_mem he))
  have hentries : (t.insert k a).entries = t.entries ++ [(k, a)] := insertEntry_eq_append hlast
  rw [keys, hentries, List.map_append]
  rfl

theorem keys_modify (t : Table κ α) (k : κ) (f : α → α) : (t.modify k f).keys = t.keys := by
  simp [keys, modify, map]

/-- Rows that are put in their order stay in that order. -/
theorem foldl_insertEntry {es acc : List (κ × α)}
    (h : (acc ++ es).Pairwise fun a b => Key.before a.1 b.1 = true) :
    es.foldl (fun t e => insertEntry e.1 e.2 t) acc = acc ++ es := by
  induction es generalizing acc with
  | nil => simp
  | cons e rest ih =>
    have hafter : ∀ d ∈ acc, Key.before d.1 e.1 = true := fun d hd =>
      (List.pairwise_append.1 h).2.2 d hd e List.mem_cons_self
    rw [List.foldl_cons, insertEntry_eq_append hafter, ih (by simpa using h), List.append_assoc]
    rfl

/-- What rows are put under is there afterwards. -/
theorem isSome_lookupEntry_foldl {k : κ} {es acc : List (κ × α)}
    (h : (lookupEntry k acc).isSome = true ∨ ∃ e ∈ es, e.1 = k) :
    (lookupEntry k (es.foldl (fun t e => insertEntry e.1 e.2 t) acc)).isSome = true := by
  induction es generalizing acc with
  | nil => exact h.resolve_right (by simp)
  | cons e rest ih =>
    refine ih ?_
    rw [lookupEntry_insertEntry]
    by_cases hk : e.1 = k
    · exact .inl (by rw [if_pos hk]; rfl)
    · rw [if_neg hk]
      exact h.imp_right fun ⟨d, hd, hdk⟩ =>
        ⟨d, (List.mem_cons.1 hd).resolve_left (by rintro rfl; exact hk hdk), hdk⟩

theorem entries_foldl_insert (es : List (κ × α)) (t : Table κ α) :
    (es.foldl (fun t e => t.insert e.1 e.2) t).entries =
      es.foldl (fun t e => insertEntry e.1 e.2 t) t.entries := by
  induction es generalizing t with
  | nil => rfl
  | cons e rest ih => exact ih _

theorem entries_ofList {es : List (κ × α)}
    (h : es.Pairwise fun a b => Key.before a.1 b.1 = true) : (ofList es).entries = es := by
  have hordered : ([] ++ es).Pairwise fun a b : κ × α => Key.before a.1 b.1 = true := h
  rw [ofList, entries_foldl_insert]
  exact foldl_insertEntry hordered

theorem ofList_entries (t : Table κ α) : ofList t.entries = t := ext (entries_ofList t.ordered)

/-! ## Some of the keys -/

section FilterKeys

variable {t : Table κ α} {p : κ → Bool} {k : κ}

/-- Tables with the same rows under some keys are the same as far as these keys go. -/
theorem filterKeys_eq_of_find? {s : Table κ α} (h : ∀ k, p k = true → s.find? k = t.find? k) :
    (s.filter fun k _ => p k) = t.filter fun k _ => p k := by
  apply eq_of_find?
  intro k
  rw [find?_filterKeys, find?_filterKeys]
  split
  · next hk => exact h k hk
  · rfl

theorem filterKeys_insert (h : p k = false) (a : α) :
    ((t.insert k a).filter fun k _ => p k) = t.filter fun k _ => p k := by
  refine filterKeys_eq_of_find? fun k' hk' => find?_insert_of_ne t a ?_
  rintro rfl
  rw [h] at hk'
  cases hk'

theorem filterKeys_insertAll {es : List (κ × α)} (h : ∀ e ∈ es, p e.1 = false) :
    ((t.insertAll es).filter fun k _ => p k) = t.filter fun k _ => p k := by
  induction es generalizing t with
  | nil => rfl
  | cons e rest ih =>
    rw [insertAll_cons, ih fun d hd => h d (List.mem_cons_of_mem e hd),
      filterKeys_insert (h e List.mem_cons_self)]

theorem filterKeys_erase (h : p k = false) :
    ((t.erase k).filter fun k _ => p k) = t.filter fun k _ => p k := by
  refine filterKeys_eq_of_find? fun k' hk' => ?_
  rw [find?_erase, if_neg]
  rintro rfl
  rw [h] at hk'
  cases hk'

theorem filterKeys_modify (h : p k = false) (f : α → α) :
    ((t.modify k f).filter fun k _ => p k) = t.filter fun k _ => p k := by
  refine filterKeys_eq_of_find? fun k' hk' => ?_
  rw [find?_modify, if_neg]
  rintro rfl
  rw [h] at hk'
  cases hk'

theorem filterKeys_filterKeys {q : κ → Bool} (h : ∀ k, p k = true → q k = true) :
    ((t.filter fun k _ => q k).filter fun k _ => p k) = t.filter fun k _ => p k := by
  refine filterKeys_eq_of_find? fun k hk => ?_
  rw [find?_filterKeys, if_pos (h k hk)]

end FilterKeys

/-! ## Changing every row -/

theorem insertEntry_map (f : α → β) (k : κ) (a : α) (es : List (κ × α)) :
    insertEntry k (f a) (es.map fun e => (e.1, f e.2)) =
      (insertEntry k a es).map fun e => (e.1, f e.2) := by
  induction es with
  | nil => rfl
  | cons e rest ih =>
    simp only [List.map_cons, insertEntry]
    split
    · simp
    · split
      · simp
      · simp [ih]

theorem find?_mapRows (f : α → β) (t : Table κ α) (k : κ) :
    (t.mapRows f).find? k = (t.find? k).map f :=
  find?_map t _ k

theorem mapRows_insert (f : α → β) (t : Table κ α) (k : κ) (a : α) :
    (t.insert k a).mapRows f = (t.mapRows f).insert k (f a) :=
  ext (insertEntry_map f k a t.entries).symm

theorem mapRows_insertAll (f : α → β) (t : Table κ α) (es : List (κ × α)) :
    (t.insertAll es).mapRows f = (t.mapRows f).insertAll (es.map fun e => (e.1, f e.2)) := by
  induction es generalizing t with
  | nil => rfl
  | cons e rest ih => rw [insertAll_cons, ih, mapRows_insert, List.map_cons, insertAll_cons]

theorem mapRows_erase (f : α → β) (t : Table κ α) (k : κ) :
    (t.erase k).mapRows f = (t.mapRows f).erase k :=
  mapRows_filterKeys f t _

theorem mapRows_modify {f : α → β} {g : α → α} {g' : β → β} (h : ∀ a, f (g a) = g' (f a))
    (t : Table κ α) (k : κ) :
    (t.modify k g).mapRows f = (t.mapRows f).modify k g' := by
  apply ext
  simp only [modify, map, List.map_map]
  apply List.map_congr_left
  intro e _
  simp only [Function.comp_apply]
  split <;> simp [h]

/-- Only what becomes of the row of the key counts. -/
theorem modify_congr {t : Table κ α} {k : κ} {f g : α → α}
    (h : ∀ a, t.find? k = some a → f a = g a) : t.modify k f = t.modify k g := by
  apply eq_of_find?
  intro k'
  rw [find?_modify, find?_modify]
  by_cases hk : k' = k
  · subst hk
    rw [if_pos rfl, if_pos rfl]
    exact Option.map_congr h
  · rw [if_neg hk, if_neg hk]

theorem modify_id (t : Table κ α) (k : κ) : t.modify k id = t := by
  apply eq_of_find?
  intro k'
  rw [find?_modify, Option.map_id, id, ite_self]

theorem modify_modify (t : Table κ α) (k : κ) (f g : α → α) :
    (t.modify k f).modify k g = t.modify k fun a => g (f a) := by
  apply ext
  simp only [modify, map, List.map_map]
  apply List.map_congr_left
  intro e _
  simp only [Function.comp_apply]
  split <;> rfl

end ProjectRegistry.Table
