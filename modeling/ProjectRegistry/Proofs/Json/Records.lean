import ProjectRegistry.Json.Record
import ProjectRegistry.Proofs.Json.Value

/-!
# Records in texts

What is written as a tree comes back from its text if the tree is well-formed and can be read
wherever there is room for it. Both hold of single fields, of lists and maps of what they hold of,
and of records whose fields are found under their names.
-/

namespace ProjectRegistry.Json

/-! ## Nesting -/

mutual

/-- How many arrays and objects are inside one another in a tree. -/
def Tree.nesting : Tree → Nat
  | .null => 0
  | .bool _ => 0
  | .number _ => 0
  | .string _ => 0
  | .array ts => nestingOfTrees ts + 1
  | .object ms => nestingOfTreeMembers ms + 1

def nestingOfTrees : List Tree → Nat
  | [] => 0
  | t :: rest => max t.nesting (nestingOfTrees rest)

def nestingOfTreeMembers : List (Option String × Tree) → Nat
  | [] => 0
  | (_, t) :: rest => max t.nesting (nestingOfTreeMembers rest)

end

theorem nestingOfTrees_le {ts : List Tree} {n : Nat} :
    nestingOfTrees ts ≤ n ↔ ∀ t ∈ ts, t.nesting ≤ n := by
  induction ts with
  | nil => simp [nestingOfTrees]
  | cons t rest ih => simp [nestingOfTrees, ih]

theorem nestingOfTreeMembers_le {ms : List (Option String × Tree)} {n : Nat} :
    nestingOfTreeMembers ms ≤ n ↔ ∀ m ∈ ms, m.2.nesting ≤ n := by
  induction ms with
  | nil => simp [nestingOfTreeMembers]
  | cons m rest ih => simp [nestingOfTreeMembers, ih]

/-- There is room for an array if there is room for each item inside it. -/
theorem Tree.nesting_array_le {ts : List Tree} {room : Nat} :
    (Tree.array ts).nesting ≤ room ↔ 0 < room ∧ ∀ t ∈ ts, t.nesting ≤ room - 1 := by
  rw [nesting, ← nestingOfTrees_le]
  omega

theorem Tree.nesting_record_le {fs : List (String × Tree)} {room : Nat} :
    (Tree.record fs).nesting ≤ room ↔ 0 < room ∧ ∀ f ∈ fs, f.2.nesting ≤ room - 1 := by
  have hmembers : (∀ m ∈ fs.map fun f => (some f.1, f.2), m.2.nesting ≤ room - 1) ↔
      ∀ f ∈ fs, f.2.nesting ≤ room - 1 := List.forall_mem_map
  rw [record, nesting, ← hmembers, ← nestingOfTreeMembers_le]
  omega

/-! ## Single fields -/

theorem Tree.int_eq (n : Int) : Tree.int n = .number (Number.toNumeral (.integer n)) := by
  cases n with
  | ofNat n => rfl
  | negSucc n =>
    have hsign : Int.negSucc n < 0 := Int.negSucc_lt_zero n
    simp [int, Number.toNumeral, hsign]

theorem Tree.integer?_int {n : Int} (hlow : Int32.minValue.toInt ≤ n)
    (hhigh : n ≤ Int32.maxValue.toInt) : (Tree.int n).integer? = some n := by
  have hmin : Int64.minValue.toInt ≤ Int32.minValue.toInt := by decide
  have hmax : Int32.maxValue.toInt < UInt64.size := by decide
  have hwhole : (Number.integer n).IsWhole := ⟨by omega, by omega⟩
  rw [int_eq, integer?, Number.ofNumeral?_toNumeral hwhole]

theorem wellFormed_int (n : Int) : (Tree.int n).WellFormed := by
  rw [Tree.int_eq]
  exact Number.wellFormed_toNumeral _

@[simp] theorem Tree.int32?_ofInt32 (n : Int32) : (Tree.ofInt32 n).int32? = some n := by
  have hlow := n.minValue_le_toInt
  have hhigh := n.toInt_le
  rw [ofInt32, int32?, integer?_int hlow hhigh, Option.bind_some, if_pos ⟨hlow, hhigh⟩,
    Int32.ofInt_toInt]

theorem Tree.text?_eq_some_iff {t : Tree} {s : String} : t.text? = some s ↔ t = .text s := by
  cases t <;> simp [text?, text]

/-- What can be read and is not null can be read where null is allowed. -/
theorem Tree.nullable?_eq {α : Type} {read : Tree → Option α} {t : Tree} {a : α}
    (hnull : read .null = none) (h : read t = some a) : t.nullable? read = some (some a) := by
  cases t with
  | null =>
    rw [hnull] at h
    cases h
  | _ => simp [nullable?, h]

/-! ## What comes back -/

section Returns

variable {α β : Type} {write : α → Tree} {read : Nat → Tree → Option α}

/-- Whether a value is written as a well-formed tree and read from it wherever there is room. -/
structure Returns (write : α → Tree) (read : Nat → Tree → Option α) (a : α) : Prop where
  wellFormed : (write a).WellFormed
  read_eq {room : Nat} : (write a).nesting ≤ room → read room (write a) = some a

/-- What comes back from its tree comes back from its text. -/
theorem Returns.ofText?_toText {a : α} (h : Returns write read a)
    (hroom : (write a).nesting ≤ nestingLimit) :
    (Tree.ofText? (write a).toText).bind (read nestingLimit) = some a := by
  rw [Tree.ofText?_toText h.wellFormed, Option.bind_some, h.read_eq hroom]

theorem returns_text (s : String) : Returns .text (fun _ => Tree.text?) s := ⟨trivial, fun _ => rfl⟩

/-- What is written as something that comes back comes back with it. -/
theorem Returns.via {as : β → α} {back : α → Option β} {b : β} (h : Returns write read (as b))
    (hback : back (as b) = some b) :
    Returns (fun b => write (as b)) (fun room t => (read room t).bind back) b where
  wellFormed := h.wellFormed
  read_eq hroom := by rw [h.read_eq hroom, Option.bind_some, hback]

theorem returns_byte (b : UInt8) : Returns Tree.ofByte (fun _ => Tree.byte?) b := by
  refine ⟨wellFormed_int _, fun _ => ?_⟩
  have hb := b.toNat_lt
  have hmin : Int32.minValue.toInt ≤ 0 := by decide
  have hmax : 255 ≤ Int32.maxValue.toInt := by decide
  rw [Tree.ofByte, Tree.byte?, Tree.integer?_int (by omega) (by omega), Option.bind_some,
    if_pos (by omega), Int.toNat_natCast, UInt8.ofNat_toNat]

/-! ## Lists and maps -/

/-- Reading the items of a list one after the other, where a test says which can be read. -/
theorem mapM_eq_ite {read : α → Option β} {f : α → β} {p : α → Prop}
    [DecidablePred p] {as : List α} (h : ∀ a ∈ as, read a = if p a then some (f a) else none) :
    as.mapM read = if ∀ a ∈ as, p a then some (as.map f) else none := by
  induction as with
  | nil => simp
  | cons a rest ih =>
    have ha := h a List.mem_cons_self
    have hrest := ih fun b hb => h b (List.mem_cons_of_mem a hb)
    rw [List.mapM_cons, ha, hrest]
    by_cases hp : p a
    · by_cases hall : ∀ b ∈ rest, p b
      · rw [if_pos hp, if_pos hall, if_pos (by simpa using ⟨hp, hall⟩)]
        rfl
      · rw [if_pos hp, if_neg hall, if_neg (by simpa [hp] using hall)]
        rfl
    · rw [if_neg hp]
      exact (if_neg fun hall => hp (hall a List.mem_cons_self)).symm

theorem mapM_eq_some {read : α → Option β} {f : α → β} {as : List α}
    (h : ∀ a ∈ as, read a = some (f a)) : as.mapM read = some (as.map f) := by
  have hall := mapM_eq_ite (p := fun _ => True) fun a ha => (h a ha).trans (if_pos trivial).symm
  rw [hall, if_pos fun _ _ => trivial]

theorem returns_array (as : List α) (h : ∀ a ∈ as, Returns write read a) :
    Returns (fun as : List α => .array (as.map write)) (fun room => Tree.array? room read) as := by
  refine ⟨treesWellFormed_iff.2 (List.forall_mem_map.2 fun a ha => (h a ha).wellFormed), ?_⟩
  intro room hroom
  obtain ⟨hpos, hitems⟩ := Tree.nesting_array_le.1 hroom
  rw [Tree.array?, if_neg (by omega), List.mapM_map]
  refine (mapM_eq_some fun a ha => ?_).trans (congrArg some (List.map_id as))
  exact (h a ha).read_eq (hitems _ (List.mem_map_of_mem ha))

theorem members?_record {room : Nat} (hroom : 0 < room) (read : Nat → Tree → Option α)
    (fs : List (String × Tree)) :
    (Tree.record fs).members? room read =
      fs.mapM fun f => (read (room - 1) f.2).map fun v => (f.1, v) := by
  rw [Tree.record, Tree.members?, if_neg (by omega), List.mapM_map]
  rfl

theorem wellFormed_record {fs : List (String × Tree)} (h : ∀ f ∈ fs, f.2.WellFormed) :
    (Tree.record fs).WellFormed :=
  membersWellFormed_iff.2 (List.forall_mem_map.2 h)

theorem returns_members (es : List (String × α)) (h : ∀ e ∈ es, Returns write read e.2) :
    Returns (fun es : List (String × α) => .record (es.map fun e => (e.1, write e.2)))
      (fun room => Tree.members? room read) es := by
  refine ⟨wellFormed_record (List.forall_mem_map.2 fun e he => (h e he).wellFormed), ?_⟩
  intro room hroom
  obtain ⟨hpos, hmembers⟩ := Tree.nesting_record_le.1 hroom
  rw [members?_record hpos, List.mapM_map]
  refine (mapM_eq_some fun e he => ?_).trans (congrArg some (List.map_id es))
  have hread := (h e he).read_eq (hmembers (e.1, write e.2) (List.mem_map_of_mem he))
  rw [Function.comp, hread]
  rfl

end Returns

/-! ## Fields -/

theorem fieldsOfMembers?_record {names : List String} {fs : List (String × Tree)}
    (hnames : ∀ f ∈ fs, f.1 ∈ names) (hdistinct : (fs.map (·.1)).Nodup) :
    fieldsOfMembers? names (fs.map fun f => (some f.1, f.2)) = some fs := by
  induction fs with
  | nil => rfl
  | cons f rest ih =>
    obtain ⟨hnew, hdistinct⟩ := List.nodup_cons.1 hdistinct
    have hrest := ih (fun g hg => hnames g (List.mem_cons_of_mem f hg)) hdistinct
    have habsent : Fields.get? rest f.1 = none := by
      refine List.lookup_eq_none_iff.2 fun g hg => ?_
      have hne : f.1 ≠ g.1 := fun heq => hnew (List.mem_map.2 ⟨g, hg, heq.symm⟩)
      simpa using hne
    rw [List.map_cons, fieldsOfMembers?, hrest]
    simp only [habsent, if_pos (hnames f List.mem_cons_self)]
    rfl

/-- The fields of a record are found as they were written, if it has each of its names at most
once. -/
theorem fields?_record (names : List String) {fs : List (String × Tree)} {room : Nat}
    (hroom : 0 < room) (h : (fs.map (·.1)).Sublist names) (hdistinct : names.Nodup) :
    fields? names room (Tree.record fs) = some (fs, room - 1) := by
  have hnames : ∀ f ∈ fs, f.1 ∈ names := fun f hf => h.subset (List.mem_map_of_mem hf)
  rw [Tree.record, fields?, if_neg (by omega),
    fieldsOfMembers?_record hnames (hdistinct.sublist h), Option.map_some]

@[simp] theorem Fields.get?_nil {name : String} : Fields.get? [] name = none := rfl

theorem lookup_cons_eq_ite {α : Type} (k name : String) (a : α) (es : List (String × α)) :
    ((k, a) :: es).lookup name = if name = k then some a else es.lookup name := by
  rw [List.lookup_cons]
  by_cases h : name = k
  · rw [if_pos h, beq_iff_eq.2 h]
  · rw [if_neg h, beq_eq_false_iff_ne.2 h]

@[simp] theorem Fields.get?_cons {k name : String} {t : Tree} {fs : Fields} :
    Fields.get? ((k, t) :: fs) name = if name = k then some t else Fields.get? fs name :=
  lookup_cons_eq_ite k name t fs

end ProjectRegistry.Json
