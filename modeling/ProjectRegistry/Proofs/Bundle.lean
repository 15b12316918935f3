import Mathlib.Data.Finset.Card
import ProjectRegistry.Proofs.Spellings

/-!
# Bundles as ordered maps

A key that is put for the first time comes last, and one that is there keeps its place. So a bundle
holds each key once, in the order of the first puttings and with the values of the last ones. These
laws leave nothing open: only one bundle follows from some puttings.

A text lists pairs if it is an object of texts, in whatever spelling, with keys repeated or not. It
is read by putting its pairs in their order; no other text is read.
-/

namespace ProjectRegistry

open Json (Tree nestingLimit)

/-! ## Puttings -/

/-- The keys of pairs, each as often as it comes. -/
def keysOf (es : List (String × String)) : List String := es.map (·.1)

/-- The value that a key was put with last. -/
def lastPut? (k : String) (puts : List (String × String)) : Option String :=
  (puts.reverse.find? fun e => e.1 = k).map (·.2)

theorem lastPut?_append_singleton (k k' v : String) (puts : List (String × String)) :
    lastPut? k' (puts ++ [(k, v)]) = if k' = k then some v else lastPut? k' puts := by
  rw [lastPut?, lastPut?, List.reverse_append, List.reverse_singleton, List.singleton_append,
    List.find?_cons]
  by_cases hk : k' = k
  · simp [hk]
  · simp [hk, Ne.symm hk]

section Order

variable {ks keys : List String} {k : String}

/-- Keys that stand in the order in which they first come in a list do so when it goes on. -/
theorem ascending_append (hknown : ∀ a ∈ keys, a ∈ ks)
    (h : keys.Pairwise fun a b => ks.idxOf a < ks.idxOf b) :
    keys.Pairwise fun a b => (ks ++ [k]).idxOf a < (ks ++ [k]).idxOf b := by
  refine h.imp_of_mem fun ha hb hab => ?_
  rwa [List.idxOf_append_of_mem (hknown _ ha), List.idxOf_append_of_mem (hknown _ hb)]

/-- A key that comes for the first time stands behind all others. -/
theorem ascending_append_new (hknown : ∀ a ∈ keys, a ∈ ks) (hnew : k ∉ ks)
    (h : keys.Pairwise fun a b => ks.idxOf a < ks.idxOf b) :
    (keys ++ [k]).Pairwise fun a b => (ks ++ [k]).idxOf a < (ks ++ [k]).idxOf b := by
  refine List.pairwise_append.2 ⟨ascending_append hknown h, List.pairwise_singleton _ _, ?_⟩
  intro a ha b hb
  obtain rfl := List.mem_singleton.1 hb
  have hlast : (ks ++ [b]).idxOf b = ks.length := by
    rw [List.idxOf_append_of_notMem hnew, List.idxOf_cons_self, Nat.add_zero]
  rw [hlast, List.idxOf_append_of_mem (hknown a ha)]
  exact List.idxOf_lt_length_of_mem (hknown a ha)

end Order

namespace Properties

variable {p q : Properties} {puts : List (String × String)}

theorem lookup_putPair (k v k' : String) (es : List (String × String)) :
    (putPair k v es).lookup k' = if k' = k then some v else es.lookup k' := by
  induction es with
  | nil => exact Json.lookup_cons_eq_ite k k' v []
  | cons e rest ih =>
    obtain ⟨k₀, v₀⟩ := e
    rw [putPair, Json.lookup_cons_eq_ite]
    split
    · next hplace =>
      obtain rfl : k₀ = k := hplace
      rw [Json.lookup_cons_eq_ite]
      split <;> rfl
    · next hplace =>
      rw [Json.lookup_cons_eq_ite, ih]
      by_cases hk : k' = k
      · have hne : k' ≠ k₀ := fun h => hplace (h.symm.trans hk)
        rw [if_neg hne, if_pos hk, if_pos hk]
      · rw [if_neg hk, if_neg hk]

theorem get?_put (p : Properties) (k v k' : String) :
    (p.put k v).get? k' = if k' = k then some v else p.get? k' :=
  lookup_putPair k v k' p.pairs

theorem mem_iff_lookup {es : List (String × String)} (h : (keysOf es).Nodup) {k v : String} :
    (k, v) ∈ es ↔ es.lookup k = some v := by
  induction es with
  | nil => simp
  | cons e rest ih =>
    obtain ⟨k₀, v₀⟩ := e
    obtain ⟨hnew, hrest⟩ := List.nodup_cons.1 h
    rw [List.mem_cons, Prod.mk.injEq, Json.lookup_cons_eq_ite]
    by_cases hk : k = k₀
    · subst hk
      have habsent : (k, v) ∉ rest := fun hmem => hnew (List.mem_map.2 ⟨_, hmem, rfl⟩)
      simp [habsent, eq_comm]
    · simp [hk, ih hrest]

theorem mem_pairs_iff {k v : String} : (k, v) ∈ p.pairs ↔ p.get? k = some v :=
  mem_iff_lookup p.distinct

theorem keys_put_of_mem {k : String} (h : k ∈ keysOf p.pairs) (v : String) :
    keysOf (p.put k v).pairs = keysOf p.pairs :=
  (keys_putPair k v p.pairs).trans (if_pos h)

theorem keys_put_of_not_mem {k : String} (h : k ∉ keysOf p.pairs) (v : String) :
    keysOf (p.put k v).pairs = keysOf p.pairs ++ [k] :=
  (keys_putPair k v p.pairs).trans (if_neg h)

/-- What each putting keeps between properties and all that was put into them. -/
structure Follows (p : Properties) (puts : List (String × String)) : Prop where
  known (k : String) : k ∈ keysOf p.pairs ↔ k ∈ keysOf puts
  order : (keysOf p.pairs).Pairwise fun a b => (keysOf puts).idxOf a < (keysOf puts).idxOf b
  get? (k : String) : p.get? k = lastPut? k puts

theorem follows_empty : empty.Follows [] where
  known _ := .rfl
  order := .nil
  get? _ := rfl

theorem Follows.put (h : p.Follows puts) (k v : String) :
    (p.put k v).Follows (puts ++ [(k, v)]) := by
  have hputs : keysOf (puts ++ [(k, v)]) = keysOf puts ++ [k] := List.map_append
  have hsub : ∀ a ∈ keysOf p.pairs, a ∈ keysOf puts := fun a => (h.known a).1
  have hget (k' : String) : (p.put k v).get? k' = lastPut? k' (puts ++ [(k, v)]) := by
    rw [get?_put, lastPut?_append_singleton, h.get?]
  by_cases hk : k ∈ keysOf p.pairs
  · refine ⟨fun a => ?_, ?_, hget⟩
    · rw [keys_put_of_mem hk, hputs, List.mem_append, List.mem_singleton, h.known]
      exact ⟨.inl, fun ha => ha.elim id fun ha => ha ▸ hsub k hk⟩
    · rw [keys_put_of_mem hk, hputs]
      exact ascending_append hsub h.order
  · have hnew : k ∉ keysOf puts := fun hmem => hk ((h.known k).2 hmem)
    refine ⟨fun a => ?_, ?_, hget⟩
    · rw [keys_put_of_not_mem hk, hputs, List.mem_append, List.mem_append, h.known]
    · rw [keys_put_of_not_mem hk, hputs]
      exact ascending_append_new hsub hnew h.order

/-- The induction is on what is still to be put; `puts` is what was put before. -/
theorem Follows.foldl_put (h : p.Follows puts) (more : List (String × String)) :
    (more.foldl (fun p e => p.put e.1 e.2) p).Follows (puts ++ more) := by
  induction more generalizing p puts with
  | nil => rwa [List.append_nil]
  | cons e rest ih =>
    rw [List.foldl_cons, List.append_cons]
    exact ih (h.put e.1 e.2)

theorem follows_ofList (puts : List (String × String)) : (ofList puts).Follows puts :=
  follows_empty.foldl_put puts

/-- Nothing else follows from the same puttings. -/
theorem Follows.unique (hp : p.Follows puts) (hq : q.Follows puts) : p = q := by
  have hmem (e : String × String) : e ∈ p.pairs ↔ e ∈ q.pairs := by
    rw [← Prod.eta e, mem_pairs_iff, mem_pairs_iff, hp.get?, hq.get?]
  have hperm : p.pairs.Perm q.pairs :=
    (List.perm_ext_iff_of_nodup (.of_map _ p.distinct) (.of_map _ q.distinct)).2 hmem
  have hpOrder := List.pairwise_map.1 hp.order
  have hqOrder := List.pairwise_map.1 hq.order
  exact ext (hperm.eq_of_pairwise (fun a b _ _ hab hba => absurd hba (Nat.lt_asymm hab))
    hpOrder hqOrder)

end Properties

namespace Bundle

variable {b : Bundle} {path : String} {puts : List (String × String)}

/-- Puts pairs one after the other. -/
def putAll (b : Bundle) (puts : List (String × String)) : Bundle :=
  puts.foldl (fun b e => b.put e.1 e.2) b

theorem putAll_eq (b : Bundle) (puts : List (String × String)) :
    b.putAll puts = ⟨b.path, puts.foldl (fun p e => p.put e.1 e.2) b.properties⟩ := by
  induction puts generalizing b with
  | nil => rfl
  | cons e rest ih => exact ih (b.put e.1 e.2)

theorem putAll_new (path : String) (puts : List (String × String)) :
    (new path).putAll puts = ⟨path, .ofList puts⟩ :=
  putAll_eq _ puts

/-- What a bundle holds after puttings: each key once, in the order in which keys were put first,
with the value that it was put with last. -/
structure HoldsLast (b : Bundle) (path : String) (puts : List (String × String)) : Prop where
  path_eq : b.path = path
  once : (keysOf b.properties.pairs).Nodup
  known (k : String) : k ∈ keysOf b.properties.pairs ↔ k ∈ keysOf puts
  order : (keysOf b.properties.pairs).Pairwise fun k k' =>
    (keysOf puts).idxOf k < (keysOf puts).idxOf k'
  value (k v : String) : (k, v) ∈ b.properties.pairs ↔ lastPut? k puts = some v
  size : b.size = (keysOf puts).toFinset.card
  get? (k : String) : b.get? k = lastPut? k puts

theorem HoldsLast.follows (h : b.HoldsLast path puts) : b.properties.Follows puts :=
  ⟨h.known, h.order, h.get?⟩

theorem holdsLast_of_follows {p : Properties} (h : p.Follows puts) :
    (Bundle.mk path p).HoldsLast path puts where
  path_eq := rfl
  once := p.distinct
  known := h.known
  order := h.order
  value k v := by rw [Properties.mem_pairs_iff, h.get?]
  size := by
    have hkeys : (keysOf puts).toFinset = (keysOf p.pairs).toFinset := by
      ext k
      rw [List.mem_toFinset, List.mem_toFinset, h.known]
    rw [hkeys, List.toFinset_card_of_nodup (show (keysOf p.pairs).Nodup from p.distinct)]
    exact (List.length_map _).symm
  get? := h.get?

theorem putAll_new_eq_iff : (new path).putAll puts = b ↔ b.HoldsLast path puts := by
  rw [putAll_new]
  constructor
  · rintro rfl
    exact holdsLast_of_follows (Properties.follows_ofList puts)
  · intro h
    obtain ⟨path', p⟩ := b
    obtain rfl : path' = path := h.path_eq
    rw [(Properties.follows_ofList puts).unique h.follows]

end Bundle

/-! ## Texts that list pairs -/

/-- The object of texts that has pairs for its members. -/
def listing (es : List (String × String)) : Tree := .record (es.map fun e => (e.1, .text e.2))

/-- Whether a text lists pairs, in whatever spelling of their object. -/
def Lists (text : String) (es : List (String × String)) : Prop := (listing es).SpelledBy text

/-- Members of which each is read as a key and a text are these and no others. -/
theorem eq_map_of_mapM {ms : List (Option String × Tree)} {es : List (String × String)}
    (h : (ms.mapM fun m => m.1.bind fun k => m.2.text?.map fun v => (k, v)) = some es) :
    ms = es.map fun e => (some e.1, .text e.2) := by
  induction ms generalizing es with
  | nil =>
    cases h
    rfl
  | cons m rest ih =>
    rw [List.mapM_cons] at h
    obtain ⟨e, he, h⟩ := Option.bind_eq_some_iff.1 h
    obtain ⟨es', hrest, h⟩ := Option.bind_eq_some_iff.1 h
    obtain rfl := Option.some.inj h
    obtain ⟨k, hk, he⟩ := Option.bind_eq_some_iff.1 he
    obtain ⟨v, hv, rfl⟩ := Option.map_eq_some_iff.1 he
    have hm : m = (some k, .text v) := Prod.ext hk (Tree.text?_eq_some_iff.1 hv)
    rw [hm, ih hrest, List.map_cons]

/-- An object of texts is read with its members in their order, and nothing else is. -/
theorem members?_eq_some_iff {t : Tree} {room : Nat} (hroom : 0 < room)
    {es : List (String × String)} :
    t.members? room (fun _ => Tree.text?) = some es ↔ t = listing es := by
  constructor
  · intro h
    cases t with
    | object ms =>
      rw [Tree.members?, if_neg (by omega)] at h
      rw [eq_map_of_mapM h, listing, Tree.record, List.map_map]
      rfl
    | _ => cases h
  · rintro rfl
    have hnesting : (listing es).nesting ≤ room :=
      Json.Tree.nesting_record_le.2 ⟨hroom, List.forall_mem_map.2 fun _ _ => Nat.zero_le _⟩
    exact Json.accepts_text.members (Json.givesMembers_record fun _ _ => rfl) hnesting

/-- The pairs that a text lists. -/
def listed? (text : String) : Option (List (String × String)) :=
  (Tree.ofText? text).bind fun t => t.members? nestingLimit fun _ => Tree.text?

theorem listed?_eq_some_iff {text : String} {es : List (String × String)} :
    listed? text = some es ↔ Lists text es := by
  rw [listed?, Lists, ← Tree.ofText?_eq_some_iff, Option.bind_eq_some_iff]
  simp only [members?_eq_some_iff (show 0 < nestingLimit by decide)]
  exact ⟨fun ⟨_, hread, ht⟩ => ht ▸ hread, fun hread => ⟨_, hread, rfl⟩⟩

instance (text : String) (es : List (String × String)) : Decidable (Lists text es) :=
  decidable_of_iff _ listed?_eq_some_iff

namespace Properties

theorem ofText?_eq_some_iff {text : String} {p : Properties} :
    ofText? text = some p ↔ ∃ es, Lists text es ∧ ofList es = p := by
  have hread : ofText? text = (listed? text).map ofList := by
    rw [ofText?, listed?, Option.map_bind]
    rfl
  rw [hread, Option.map_eq_some_iff]
  simp only [listed?_eq_some_iff]

/-- What is printed lists what is held. -/
theorem lists_toText (p : Properties) : Lists p.toText p.pairs :=
  Tree.ofText?_eq_some_iff.1 (Tree.ofText?_toText p.returns.wellFormed)

end Properties

end ProjectRegistry
