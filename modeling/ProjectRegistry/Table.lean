/-!
# Ordered tables

A table keeps rows under distinct keys, in ascending order of the key. The order is part of the
type, so two tables with the same rows are equal, and whatever is read off a table in order needs no
sorting. All relations of the registry are tables, and so are the sorted sets and maps inside a
project's settings.
-/

namespace ProjectRegistry

/-- A key type with a decidable strict total order. -/
class Key (κ : Type) where
  before : κ → κ → Bool
  before_irrefl (a : κ) : before a a = false
  before_trans {a b c : κ} : before a b = true → before b c = true → before a c = true
  before_total {a b : κ} : a ≠ b → before a b = true ∨ before b a = true

namespace Key

theorem before_asymm {κ : Type} [Key κ] {a b : κ} (h : before a b = true) : before b a = false := by
  cases hba : before b a with
  | false => rfl
  | true => simpa [before_irrefl] using before_trans h hba

theorem ne_of_before {κ : Type} [Key κ] {a b : κ} (h : before a b = true) : a ≠ b := by
  rintro rfl
  simp [before_irrefl] at h

end Key

instance : Key Int32 where
  before a b := decide (a < b)
  before_irrefl a := by simp
  before_trans h g := by simp only [decide_eq_true_eq] at *; exact Int32.lt_trans h g
  before_total {a b} h := by
    simp only [decide_eq_true_eq]
    rcases Int32.le_total a b with hab | hba
    · exact .inl (Int32.lt_of_le_of_ne hab h)
    · exact .inr (Int32.lt_of_le_of_ne hba (Ne.symm h))

instance : Key Bool where
  before a b := !a && b
  before_irrefl a := by cases a <;> rfl
  before_trans {a b c} := by cases a <;> cases b <;> cases c <;> decide
  before_total {a b} := by cases a <;> cases b <;> decide

/-- Strings are ordered by code point, which is also the order of their UTF-8 bytes. -/
instance : Key String where
  before a b := decide (a < b)
  before_irrefl a := decide_eq_false (String.lt_irrefl a)
  before_trans h g := by simp only [decide_eq_true_eq] at *; exact String.lt_trans h g
  before_total {a b} h := by
    simp only [decide_eq_true_eq]
    by_cases hab : a < b
    · exact .inl hab
    · refine .inr (Decidable.byContradiction fun hba => h ?_)
      exact String.le_antisymm (String.not_lt.1 hba) (String.not_lt.1 hab)

instance : Key UInt8 where
  before a b := decide (a < b)
  before_irrefl a := by simp
  before_trans h g := by simp only [decide_eq_true_eq] at *; exact UInt8.lt_trans h g
  before_total {a b} h := by
    simp only [decide_eq_true_eq, UInt8.lt_iff_toNat_lt]
    have : a.toNat ≠ b.toNat := fun e => h (UInt8.toNat_inj.1 e)
    omega

instance {κ μ : Type} [Key κ] [DecidableEq κ] [Key μ] : Key (κ × μ) where
  before a b := Key.before a.1 b.1 || (decide (a.1 = b.1) && Key.before a.2 b.2)
  before_irrefl a := by simp [Key.before_irrefl]
  before_trans {a b c} h g := by
    simp only [Bool.or_eq_true, Bool.and_eq_true, decide_eq_true_eq] at *
    rcases h with h | ⟨h, h'⟩ <;> rcases g with g | ⟨g, g'⟩
    · exact .inl (Key.before_trans h g)
    · exact .inl (g ▸ h)
    · exact .inl (h ▸ g)
    · exact .inr ⟨h.trans g, Key.before_trans h' g'⟩
  before_total {a b} h := by
    simp only [Bool.or_eq_true, Bool.and_eq_true, decide_eq_true_eq]
    by_cases h₁ : a.1 = b.1
    · have h₂ : a.2 ≠ b.2 := fun h₂ => h (Prod.ext h₁ h₂)
      rcases Key.before_total h₂ with g | g
      · exact .inl (.inr ⟨h₁, g⟩)
      · exact .inr (.inr ⟨h₁.symm, g⟩)
    · rcases Key.before_total h₁ with g | g
      · exact .inl (.inl g)
      · exact .inr (.inl g)

def listBefore {κ : Type} [Key κ] [DecidableEq κ] : List κ → List κ → Bool
  | _, [] => false
  | [], _ :: _ => true
  | a :: as, b :: bs => Key.before a b || (decide (a = b) && listBefore as bs)

instance {κ : Type} [Key κ] [DecidableEq κ] : Key (List κ) where
  before := listBefore
  before_irrefl as := by
    induction as with
    | nil => rfl
    | cons a as ih => simp [listBefore, Key.before_irrefl, ih]
  before_trans {as bs cs} := by
    induction as generalizing bs cs with
    | nil => cases bs <;> cases cs <;> simp [listBefore]
    | cons a as ih =>
      cases bs with
      | nil => simp [listBefore]
      | cons b bs =>
        cases cs with
        | nil => simp [listBefore]
        | cons c cs =>
          simp only [listBefore, Bool.or_eq_true, Bool.and_eq_true, decide_eq_true_eq]
          rintro (h | ⟨h, h'⟩) (g | ⟨g, g'⟩)
          · exact .inl (Key.before_trans h g)
          · exact .inl (g ▸ h)
          · exact .inl (h ▸ g)
          · exact .inr ⟨h.trans g, ih h' g'⟩
  before_total {as bs} := by
    induction as generalizing bs with
    | nil => cases bs <;> simp [listBefore]
    | cons a as ih =>
      cases bs with
      | nil => simp [listBefore]
      | cons b bs =>
        intro h
        simp only [listBefore, Bool.or_eq_true, Bool.and_eq_true, decide_eq_true_eq]
        by_cases hab : a = b
        · have : as ≠ bs := fun g => h (by rw [hab, g])
          rcases ih this with g | g
          · exact .inl (.inr ⟨hab, g⟩)
          · exact .inr (.inr ⟨hab.symm, g⟩)
        · rcases Key.before_total hab with g | g
          · exact .inl (.inl g)
          · exact .inr (.inl g)

/-- Rows under distinct keys in ascending order. -/
structure Table (κ α : Type) [Key κ] where
  entries : List (κ × α)
  ordered : entries.Pairwise fun a b => Key.before a.1 b.1 = true

namespace Table

variable {κ α β : Type} [Key κ]

@[ext] theorem ext {s t : Table κ α} (h : s.entries = t.entries) : s = t := by
  cases s; cases t; cases h; rfl

instance [DecidableEq κ] [DecidableEq α] : DecidableEq (Table κ α) := fun s t =>
  decidable_of_iff (s.entries = t.entries) ⟨ext, fun h => h ▸ rfl⟩

def empty : Table κ α := ⟨[], .nil⟩

instance : Inhabited (Table κ α) := ⟨empty⟩

def keys (t : Table κ α) : List κ := t.entries.map (·.1)

def rows (t : Table κ α) : List α := t.entries.map (·.2)

def filter (p : κ → α → Bool) (t : Table κ α) : Table κ α :=
  ⟨t.entries.filter fun e => p e.1 e.2, t.ordered.filter _⟩

def map (f : κ → α → β) (t : Table κ α) : Table κ β :=
  ⟨t.entries.map fun e => (e.1, f e.1 e.2), by
    rw [List.pairwise_map]
    exact t.ordered⟩

variable [DecidableEq κ]

/-- The row that a list of entries holds under a key. -/
def lookupEntry (k : κ) : List (κ × α) → Option α
  | [] => none
  | e :: rest => if e.1 = k then some e.2 else lookupEntry k rest

def find? (t : Table κ α) (k : κ) : Option α := lookupEntry k t.entries

def contains (t : Table κ α) (k : κ) : Bool := (t.find? k).isSome

/-- Puts an entry in its place, instead of one with the same key. -/
def insertEntry (k : κ) (a : α) : List (κ × α) → List (κ × α)
  | [] => [(k, a)]
  | e :: rest =>
    if k = e.1 then (k, a) :: rest
    else if Key.before k e.1 then (k, a) :: e :: rest
    else e :: insertEntry k a rest

theorem mem_insertEntry {k : κ} {a : α} {es : List (κ × α)} {e : κ × α}
    (h : e ∈ insertEntry k a es) : e = (k, a) ∨ e ∈ es := by
  induction es with
  | nil => simpa [insertEntry] using h
  | cons d rest ih =>
    simp only [insertEntry] at h
    split at h
    · rcases List.mem_cons.1 h with h | h
      · exact .inl h
      · exact .inr (List.mem_cons_of_mem _ h)
    · split at h
      · exact List.mem_cons.1 h
      · rcases List.mem_cons.1 h with h | h
        · exact .inr (h ▸ List.mem_cons_self)
        · rcases ih h with h | h
          · exact .inl h
          · exact .inr (List.mem_cons_of_mem _ h)

theorem ordered_insertEntry {k : κ} {a : α} {es : List (κ × α)}
    (h : es.Pairwise fun a b => Key.before a.1 b.1 = true) :
    (insertEntry k a es).Pairwise fun a b => Key.before a.1 b.1 = true := by
  induction es with
  | nil => exact List.pairwise_singleton _ _
  | cons d rest ih =>
    obtain ⟨hd, hrest⟩ := List.pairwise_cons.1 h
    simp only [insertEntry]
    split
    · next hk => exact List.pairwise_cons.2 ⟨fun e he => hk ▸ hd e he, hrest⟩
    · next hk =>
      split
      · next hb =>
        refine List.pairwise_cons.2 ⟨fun e he => ?_, h⟩
        rcases List.mem_cons.1 he with rfl | he
        · exact hb
        · exact Key.before_trans hb (hd e he)
      · next hb =>
        refine List.pairwise_cons.2 ⟨fun e he => ?_, ih hrest⟩
        rcases mem_insertEntry he with rfl | he
        · exact (Key.before_total hk).resolve_left hb
        · exact hd e he

def insert (t : Table κ α) (k : κ) (a : α) : Table κ α :=
  ⟨insertEntry k a t.entries, ordered_insertEntry t.ordered⟩

def erase (t : Table κ α) (k : κ) : Table κ α := t.filter fun k' _ => decide (k' ≠ k)

def modify (t : Table κ α) (k : κ) (f : α → α) : Table κ α :=
  t.map fun k' a => if k' = k then f a else a

/-- The table of a list of entries; of entries with one key the last stays. -/
def ofList (es : List (κ × α)) : Table κ α := es.foldl (fun t e => t.insert e.1 e.2) empty

/-! ## Reading back -/

theorem lookupEntry_eq_some_iff {es : List (κ × α)}
    (h : es.Pairwise fun a b => Key.before a.1 b.1 = true) {k : κ} {a : α} :
    lookupEntry k es = some a ↔ (k, a) ∈ es := by
  induction es with
  | nil => simp [lookupEntry]
  | cons d rest ih =>
    obtain ⟨hd, hrest⟩ := List.pairwise_cons.1 h
    simp only [lookupEntry, List.mem_cons]
    split
    · next hk =>
      constructor
      · rintro ⟨⟩
        exact .inl (hk ▸ rfl)
      · rintro (h | h)
        · rw [← h]
        · exact absurd hk (Key.ne_of_before (hd _ h))
    · next hk =>
      rw [ih hrest]
      constructor
      · exact .inr
      · rintro (h | h)
        · exact absurd (h ▸ rfl) hk
        · exact h

theorem find?_eq_some_iff {t : Table κ α} {k : κ} {a : α} :
    t.find? k = some a ↔ (k, a) ∈ t.entries :=
  lookupEntry_eq_some_iff t.ordered

@[simp] theorem find?_empty (k : κ) : (empty : Table κ α).find? k = none := rfl

theorem find?_eq_none_iff {t : Table κ α} {k : κ} :
    t.find? k = none ↔ ∀ a, (k, a) ∉ t.entries := by
  constructor
  · intro h a ha
    rw [find?_eq_some_iff.2 ha] at h
    cases h
  · intro h
    cases hk : t.find? k with
    | none => rfl
    | some a => exact absurd (find?_eq_some_iff.1 hk) (h a)

theorem lookupEntry_insertEntry (k : κ) (a : α) (es : List (κ × α)) (k' : κ) :
    lookupEntry k' (insertEntry k a es) = if k = k' then some a else lookupEntry k' es := by
  induction es with
  | nil => rfl
  | cons d rest ih =>
    simp only [insertEntry]
    split
    · next hk =>
      simp only [lookupEntry, hk]
      split <;> rfl
    · next hk =>
      split
      · rfl
      · simp only [lookupEntry, ih]
        by_cases hd : d.1 = k'
        · have : k ≠ k' := fun e => hk (e.trans hd.symm)
          simp [hd, this]
        · simp [hd]

theorem find?_insert (t : Table κ α) (k : κ) (a : α) (k' : κ) :
    (t.insert k a).find? k' = if k = k' then some a else t.find? k' :=
  lookupEntry_insertEntry k a t.entries k'

@[simp] theorem find?_insert_self (t : Table κ α) (k : κ) (a : α) :
    (t.insert k a).find? k = some a := by
  simp [find?_insert]

theorem find?_insert_of_ne (t : Table κ α) {k k' : κ} (a : α) (h : k ≠ k') :
    (t.insert k a).find? k' = t.find? k' := by
  simp [find?_insert, h]

theorem find?_map (t : Table κ α) (f : κ → α → β) (k : κ) :
    (t.map f).find? k = (t.find? k).map (f k) := by
  simp only [find?, map]
  induction t.entries with
  | nil => rfl
  | cons d rest ih =>
    simp only [List.map_cons, lookupEntry, ih]
    split
    · next hk => simp [hk]
    · rfl

theorem find?_filter (t : Table κ α) (p : κ → α → Bool) (k : κ) :
    (t.filter p).find? k = (t.find? k).filter (p k) := by
  cases h : t.find? k with
  | none =>
    rw [find?_eq_none_iff] at h
    simp only [Option.filter_none]
    exact find?_eq_none_iff.2 fun a ha => h a (List.mem_filter.1 ha).1
  | some a =>
    have hmem := find?_eq_some_iff.1 h
    simp only [Option.filter_some]
    split
    · next hp => exact find?_eq_some_iff.2 (List.mem_filter.2 ⟨hmem, hp⟩)
    · next hp =>
      refine find?_eq_none_iff.2 fun b hb => hp ?_
      obtain ⟨hb, hpb⟩ := List.mem_filter.1 hb
      have := (find?_eq_some_iff.2 hb).symm.trans h
      cases this
      exact hpb

theorem find?_erase (t : Table κ α) (k k' : κ) :
    (t.erase k).find? k' = if k' = k then none else t.find? k' := by
  rw [erase, find?_filter]
  by_cases h : k' = k
  · simp only [h, ne_eq, not_true_eq_false, decide_false, ↓reduceIte]
    cases t.find? k <;> rfl
  · simp only [h, ne_eq, not_false_eq_true, decide_true, ↓reduceIte]
    cases t.find? k' <;> rfl

theorem find?_modify (t : Table κ α) (k k' : κ) (f : α → α) :
    (t.modify k f).find? k' = if k' = k then (t.find? k').map f else t.find? k' := by
  rw [modify, find?_map]
  split
  · rfl
  · cases t.find? k' <;> rfl

end Table

end ProjectRegistry
