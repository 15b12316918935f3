import ProjectRegistry.Proofs.Text.Blank
import ProjectRegistry.Rights

/-!
# Rights in texts

Rights are read back from their text, whatever their bits are. The flags that they contain and the
bits without a name make up all of them, because each flag is a single bit; and each part of the
text stands for its flag, or for the rest.

A text is read if it is blank or each of its parts stands for a flag or for a hexadecimal number,
and then as the union of these. What a part stands for is said apart from the reader.
-/

namespace ProjectRegistry.Rights

variable {a b c : Rights}

/-! ## Bits -/

theorem eq_of_bits (h : a.bits.toBitVec = b.bits.toBitVec) : a = b := by
  obtain ⟨a⟩ := a
  obtain ⟨b⟩ := b
  exact congrArg Rights.mk (UInt32.toBitVec_inj.1 h)

def meet (a b : Rights) : Rights := ⟨a.bits &&& b.bits⟩

theorem union_assoc (a b c : Rights) : (a.union b).union c = a.union (b.union c) :=
  congrArg Rights.mk (UInt32.or_assoc a.bits b.bits c.bits)

theorem union_none (a : Rights) : a.union none = a := congrArg Rights.mk UInt32.or_zero

theorem none_union (a : Rights) : none.union a = a := congrArg Rights.mk UInt32.zero_or

theorem meet_union (a b c : Rights) : a.meet (b.union c) = (a.meet b).union (a.meet c) := by
  refine eq_of_bits ?_
  simp only [meet, union, UInt32.toBitVec_and, UInt32.toBitVec_or, BitVec.and_or_distrib_left]

/-- What rights have of others and what they have of the rest are all of them. -/
theorem union_meet_compl (a b : Rights) : (a.meet b).union (a.meet ⟨~~~b.bits⟩) = a := by
  rw [← meet_union]
  refine eq_of_bits ?_
  simp only [meet, union, UInt32.toBitVec_and, UInt32.toBitVec_or, UInt32.toBitVec_not,
    BitVec.or_not_self, BitVec.and_allOnes]

/-- The union of some rights. -/
def unionAll (rs : List Rights) : Rights := rs.foldr union none

/-- Whether rights have the bit of a number. -/
def HasBit (a : Rights) (k : Nat) : Prop := a.bits.toNat.testBit k = true

theorem ext_hasBit (h : ∀ k, a.HasBit k ↔ b.HasBit k) : a = b := by
  obtain ⟨a⟩ := a
  obtain ⟨b⟩ := b
  refine congrArg Rights.mk (UInt32.toNat_inj.1 (Nat.eq_of_testBit_eq fun k => ?_))
  exact Bool.eq_iff_iff.2 (h k)

theorem hasBit_union {k : Nat} : (a.union b).HasBit k ↔ a.HasBit k ∨ b.HasBit k := by
  rw [HasBit, union, UInt32.toNat_or, Nat.testBit_or, Bool.or_eq_true]
  rfl

theorem hasBit_unionAll {rs : List Rights} {k : Nat} :
    (unionAll rs).HasBit k ↔ ∃ r ∈ rs, r.HasBit k := by
  induction rs with
  | nil => simp [HasBit, unionAll, none]
  | cons r rs ih =>
    have hunion : (unionAll (r :: rs)).HasBit k ↔ r.HasBit k ∨ (unionAll rs).HasBit k :=
      hasBit_union
    rw [hunion, ih, List.exists_mem_cons_iff]

/-! ## Flags -/

theorem bit_of_mem_flags {f : String × Rights} (h : f ∈ flags) :
    ∃ k, f.2.bits.toBitVec = BitVec.twoPow 32 k := by
  simp only [flags, List.mem_cons, List.not_mem_nil, or_false] at h
  rcases h with rfl | rfl | rfl | rfl | rfl | rfl | rfl
  · exact ⟨0, by decide⟩
  · exact ⟨1, by decide⟩
  · exact ⟨2, by decide⟩
  · exact ⟨3, by decide⟩
  · exact ⟨4, by decide⟩
  · exact ⟨27, by decide⟩
  · exact ⟨30, by decide⟩

/-- A flag is contained as a whole or not at all. -/
theorem meet_flag {f : String × Rights} (h : f ∈ flags) (a : Rights) :
    a.meet f.2 = if a.contains f.2 then f.2 else none := by
  split
  · next hcontains =>
    obtain ⟨_, f⟩ := f
    exact congrArg Rights.mk (of_decide_eq_true hcontains)
  · next hcontains =>
    obtain ⟨k, hk⟩ := bit_of_mem_flags h
    have hmeet := BitVec.and_twoPow a.bits.toBitVec k
    refine eq_of_bits ?_
    simp only [meet, UInt32.toBitVec_and, hk, hmeet]
    split
    · next hbit =>
      refine absurd (decide_eq_true ?_) hcontains
      refine UInt32.toBitVec_inj.1 ?_
      rw [UInt32.toBitVec_and, hk, hmeet, if_pos hbit]
    · rfl

theorem unionAll_contained (a : Rights) {fs : List (String × Rights)} (h : ∀ f ∈ fs, f ∈ flags) :
    unionAll ((fs.filter fun f => a.contains f.2).map (·.2)) =
      a.meet (unionAll (fs.map (·.2))) := by
  induction fs with
  | nil => exact congrArg Rights.mk UInt32.and_zero.symm
  | cons f fs ih =>
    have hrest := ih fun g hg => h g (List.mem_cons_of_mem f hg)
    have hflag := meet_flag (h f List.mem_cons_self) a
    show _ = a.meet (f.2.union (unionAll (fs.map (·.2))))
    rw [meet_union, hflag, ← hrest, List.filter_cons]
    cases a.contains f.2 with
    | true => rfl
    | false => exact (none_union _).symm

/-- The flags that rights contain and the bits without a name make up all of them. -/
theorem union_unnamed (a : Rights) :
    (unionAll ((flags.filter fun f => a.contains f.2).map (·.2))).union a.unnamed = a := by
  have hnamed : flags.foldl (fun r f => r.union f.2) none = unionAll (flags.map (·.2)) := by decide
  rw [unionAll_contained a fun _ hf => hf, unnamed, hnamed]
  exact a.union_meet_compl _

/-! ## Parts of a text -/

theorem ofPart?_flag {f : String × Rights} (h : f ∈ flags) : ofPart? f.1.toList = some f.2 := by
  have hall : ∀ f ∈ flags, ofPart? f.1.toList = some f.2 := by decide
  exact hall f h

/-- What a part of a text stands for: a flag by its name, or the bits of a hexadecimal number. -/
inductive Stands : List Char → Rights → Prop
  | flag {f : String × Rights} (h : f ∈ flags) : Stands f.1.toList f.2
  | bits {n : UInt32} {cs : List Char} (h : Text.Spells 16 cs n.toNat) :
      Stands ('0' :: 'x' :: cs) ⟨n⟩

theorem mem_flags_of_lookup {name : String} (h : flags.lookup name = some a) :
    (name, a) ∈ flags := by
  obtain ⟨before, after, hsplit, -⟩ := List.lookup_eq_some_iff.1 h
  rw [hsplit]
  exact List.mem_append_right before List.mem_cons_self

theorem ofPart?_eq_some_iff {part : List Char} : ofPart? part = some a ↔ Stands part a := by
  constructor
  · intro h
    rw [ofPart?.eq_def] at h
    split at h
    · next ds =>
      obtain ⟨n, hn, rfl⟩ := Option.map_eq_some_iff.1 h
      obtain ⟨hspells, hlt⟩ := (Text.unsigned?_eq_some_iff (Nat.le_refl 16)).1 hn
      refine .bits ?_
      rwa [UInt32.toNat_ofNat_of_lt' hlt]
    · have hflag := Stands.flag (mem_flags_of_lookup h)
      rwa [String.toList_ofList] at hflag
  · intro h
    cases h with
    | flag hf => exact ofPart?_flag hf
    | bits hspells =>
      have hread := (Text.unsigned?_eq_some_iff (Nat.le_refl 16)).2 ⟨hspells, UInt32.toNat_lt _⟩
      rw [ofPart?, hread, Option.map_some, UInt32.ofNat_toNat]

theorem isWord_flag {f : String × Rights} (h : f ∈ flags) : Text.IsWord f.1.toList := by
  have hne : ∀ f ∈ flags, f.1.toList ≠ [] := by decide
  -- over the characters of the names, since a statement about all characters would try each of them
  have hplain : (flags.all fun f => f.1.toList.all fun c => !Text.isBlank c && c != '|') =
      true := by decide
  refine ⟨hne f h, fun {c} hc => ?_⟩
  have hchar := List.all_eq_true.1 (List.all_eq_true.1 hplain f h) c hc
  simpa using hchar

theorem ofPart?_hex (a : Rights) :
    ofPart? ('0' :: 'x' :: Text.digitsOf 16 a.bits.toNat) = some a :=
  ofPart?_eq_some_iff.2 (.bits (Text.spells_digitsOf (by decide) (Nat.le_refl 16) _))

theorem isWord_hex (n : Nat) : Text.IsWord ('0' :: 'x' :: Text.digitsOf 16 n) := by
  have hfigure : ∀ d, d < 16 → Text.isBlank d.digitChar = false ∧ d.digitChar ≠ '|' := by decide
  refine ⟨List.cons_ne_nil _ _, fun hc => ?_⟩
  rcases List.mem_cons.1 hc with rfl | hc
  · decide
  · rcases List.mem_cons.1 hc with rfl | hc
    · decide
    · obtain ⟨d, hd, rfl⟩ := Text.exists_of_mem_digitsOf (by decide) hc
      exact hfigure d hd

theorem ofParts?_map {α : Type} {xs : List α} {text : α → List Char} {value : α → Rights}
    (h : ∀ x ∈ xs, ofPart? (text x) = some (value x)) :
    ofParts? (xs.map text) = some (unionAll (xs.map value)) := by
  induction xs with
  | nil => rfl
  | cons x xs ih =>
    rw [List.map_cons, ofParts?, h x List.mem_cons_self,
      ih fun y hy => h y (List.mem_cons_of_mem x hy)]
    rfl

theorem ofParts?_append {as bs : List (List Char)} (ha : ofParts? as = some a)
    (hb : ofParts? bs = some b) : ofParts? (as ++ bs) = some (a.union b) := by
  induction as generalizing a with
  | nil =>
    cases ha
    rw [List.nil_append, hb, none_union]
  | cons part as ih =>
    rw [ofParts?] at ha
    rw [List.cons_append, ofParts?]
    cases hpart : ofPart? part with
    | none => simp [hpart] at ha
    | some p =>
      cases has : ofParts? as with
      | none => simp [hpart, has] at ha
      | some q =>
        simp only [hpart, has, Option.some.injEq] at ha
        simp only [ih has]
        rw [← ha, union_assoc]

theorem ofParts?_parts (a : Rights) : ofParts? a.parts = some a := by
  have hnamed : ofParts? ((flags.filter fun f => a.contains f.2).map (·.1.toList)) =
      some (unionAll ((flags.filter fun f => a.contains f.2).map (·.2))) :=
    ofParts?_map fun f hf => ofPart?_flag (List.mem_filter.1 hf).1
  have hrest : ofParts? (if a.unnamed.isEmpty then []
      else ['0' :: 'x' :: Text.digitsOf 16 a.unnamed.bits.toNat]) = some a.unnamed := by
    split
    · next hempty =>
      exact congrArg (fun bits => some (Rights.mk bits)) (of_decide_eq_true hempty).symm
    · rw [ofParts?, ofPart?_hex]
      exact congrArg some (union_none _)
  rw [parts, ofParts?_append hnamed hrest, union_unnamed]

theorem isWord_of_mem_parts {part : List Char} (h : part ∈ a.parts) : Text.IsWord part := by
  rcases List.mem_append.1 h with h | h
  · obtain ⟨f, hf, rfl⟩ := List.mem_map.1 h
    exact isWord_flag (List.mem_filter.1 hf).1
  · split at h
    · cases h
    · rw [List.mem_singleton.1 h]
      exact isWord_hex _

theorem ofText?_toText (a : Rights) : ofText? a.toText = some a := by
  have hparts := a.ofParts?_parts
  have hwords : ∀ part ∈ a.parts, Text.IsWord part := fun _ => isWord_of_mem_parts
  rw [toText, ofText?, String.toList_ofList, print, ofChars?]
  cases hcases : a.parts with
  | nil =>
    rw [hcases] at hparts
    exact hparts
  | cons part parts =>
    rw [hcases] at hparts hwords
    have hne := Text.trim_joinWith_ne_nil (hwords part List.mem_cons_self) [' ', '|', ' '] parts
    rw [if_neg (by simpa using hne),
      Text.map_trim_splitAt_joinWith (List.cons_ne_nil part parts) hwords, hparts]

/-! ## Which texts are read -/

theorem ofParts?_eq_some_iff {ps : List (List Char)} :
    ofParts? ps = some a ↔ ∃ rs, List.Forall₂ Stands ps rs ∧ a = unionAll rs := by
  induction ps generalizing a with
  | nil =>
    refine ⟨fun h => ⟨[], .nil, (Option.some.inj h).symm⟩, ?_⟩
    rintro ⟨rs, hrs, rfl⟩
    cases hrs
    rfl
  | cons part ps ih =>
    constructor
    · intro h
      rw [ofParts?] at h
      split at h
      · next r b hpart hps =>
        obtain ⟨rs, hrs, rfl⟩ := ih.1 hps
        exact ⟨r :: rs, .cons (ofPart?_eq_some_iff.1 hpart) hrs, (Option.some.inj h).symm⟩
      · cases h
    · rintro ⟨rs, hrs, rfl⟩
      cases hrs with
      | cons hpart hps =>
        rw [ofParts?, ofPart?_eq_some_iff.2 hpart, ih.2 ⟨_, hps, rfl⟩]
        rfl

theorem forall₂_stands_iff {ps : List (List Char)} :
    (∃ rs, List.Forall₂ Stands ps rs) ↔ ∀ part ∈ ps, ∃ r, Stands part r := by
  induction ps with
  | nil => simp
  | cons part ps ih =>
    rw [List.forall_mem_cons, ← ih]
    constructor
    · rintro ⟨_, _ | ⟨hpart, hps⟩⟩
      exact ⟨⟨_, hpart⟩, _, hps⟩
    · rintro ⟨⟨r, hpart⟩, rs, hps⟩
      exact ⟨r :: rs, .cons hpart hps⟩

theorem Stands.unique {part : List Char} (ha : Stands part a) (hb : Stands part b) : a = b :=
  Option.some.inj ((ofPart?_eq_some_iff.2 ha).symm.trans (ofPart?_eq_some_iff.2 hb))

theorem exists_mem_of_forall₂ {ps : List (List Char)} {rs : List Rights}
    (h : List.Forall₂ Stands ps rs) {p : Rights → Prop} :
    (∃ r ∈ rs, p r) ↔ ∃ part ∈ ps, ∃ r, Stands part r ∧ p r := by
  induction h with
  | nil => simp
  | cons hpart hps ih =>
    rw [List.exists_mem_cons_iff, List.exists_mem_cons_iff, ih]
    refine or_congr_left ⟨fun hp => ⟨_, hpart, hp⟩, ?_⟩
    rintro ⟨r, hr, hp⟩
    rwa [hpart.unique hr]

/-- The parts of a text between its bars, without the blanks around them. -/
def partsOf (s : String) : List (List Char) := (Text.splitAt '|' s.toList).map Text.trim

def Blank (s : String) : Prop := ∀ c ∈ s.toList, Text.isBlank c = true

theorem ofText?_of_blank {s : String} (h : Blank s) : ofText? s = some none := by
  have htrim : Text.trim s.toList = [] := Text.trim_eq_nil_iff.2 h
  rw [ofText?, ofChars?, htrim]
  rfl

theorem ofText?_of_not_blank {s : String} (h : ¬Blank s) : ofText? s = ofParts? (partsOf s) := by
  have htrim : Text.trim s.toList ≠ [] := fun hnil => h (Text.trim_eq_nil_iff.1 hnil)
  rw [ofText?, ofChars?, if_neg (by simpa using htrim), partsOf]

/-- What reading a text as rights gives. -/
structure ReadsAsUnion (s : String) : Prop where
  accepts : (ofText? s).isSome = true ↔ Blank s ∨ ∀ part ∈ partsOf s, ∃ r, Stands part r
  blank : Blank s → ofText? s = some none
  union : ¬Blank s → ∀ a, ofText? s = some a →
    ∀ k, a.HasBit k ↔ ∃ part ∈ partsOf s, ∃ r, Stands part r ∧ r.HasBit k

theorem readsAsUnion (s : String) : ReadsAsUnion s := by
  by_cases hblank : Blank s
  · have hread := ofText?_of_blank hblank
    exact ⟨iff_of_true (by rw [hread]; rfl) (.inl hblank), fun _ => hread,
      fun hnot => absurd hblank hnot⟩
  · have hread := ofText?_of_not_blank hblank
    refine ⟨?accepts, fun h => absurd h hblank, fun _ a ha k => ?union⟩
    case accepts =>
      rw [hread, Option.isSome_iff_exists, or_iff_right hblank, ← forall₂_stands_iff]
      constructor
      · rintro ⟨a, ha⟩
        obtain ⟨rs, hrs, -⟩ := ofParts?_eq_some_iff.1 ha
        exact ⟨rs, hrs⟩
      · rintro ⟨rs, hrs⟩
        exact ⟨unionAll rs, ofParts?_eq_some_iff.2 ⟨rs, hrs, rfl⟩⟩
    case union =>
      obtain ⟨rs, hrs, rfl⟩ := ofParts?_eq_some_iff.1 (hread.symm.trans ha)
      rw [hasBit_unionAll, exists_mem_of_forall₂ hrs]

/-- Neither the order of the parts nor how often one stands there matters. -/
theorem ofText?_congr {s t : String} (hs : ¬Blank s) (ht : ¬Blank t)
    (h : ∀ part, part ∈ partsOf s ↔ part ∈ partsOf t) : ofText? s = ofText? t := by
  have hsome : (ofText? s).isSome = true ↔ (ofText? t).isSome = true := by
    rw [(readsAsUnion s).accepts, (readsAsUnion t).accepts, or_iff_right hs, or_iff_right ht]
    simp only [h]
  cases hread : ofText? s with
  | none =>
    rw [hread] at hsome
    exact (Option.isNone_iff_eq_none.1 (by simpa using hsome)).symm
  | some a =>
    obtain ⟨b, hb⟩ := Option.isSome_iff_exists.1 (hsome.1 (by rw [hread]; rfl))
    have hbits (k : Nat) : a.HasBit k ↔ b.HasBit k := by
      rw [(readsAsUnion s).union hs a hread, (readsAsUnion t).union ht b hb]
      simp only [h]
    rw [hb, ext_hasBit hbits]

/-! ## Which text is printed -/

/-- How rights are printed: the flags they contain by name and in order, then the other bits as one
hexadecimal number. -/
structure Printed (a : Rights) (named : List (String × Rights)) (rest : Rights) : Prop where
  inOrder : named.Sublist flags
  contained : ∀ f ∈ flags, f ∈ named ↔ a.contains f.2 = true
  unnamed : ∀ f ∈ flags, rest.meet f.2 = none
  all : (unionAll (named.map (·.2))).union rest = a
  text : a.toText = String.ofList (Text.joinWith [' ', '|', ' '] (named.map (·.1.toList) ++
    if rest = none then [] else ['0' :: 'x' :: Nat.toDigits 16 rest.bits.toNat]))

theorem meet_unnamed {f : String × Rights} (h : f ∈ flags) (a : Rights) :
    a.unnamed.meet f.2 = none := by
  have hall : ∀ f ∈ flags,
      ~~~(flags.foldl (fun r f => r.union f.2) none).bits &&& f.2.bits = 0 := by decide
  rw [meet, unnamed, UInt32.and_assoc, hall f h, UInt32.and_zero]
  rfl

theorem printed (a : Rights) :
    a.Printed (flags.filter fun f => a.contains f.2) a.unnamed where
  inOrder := List.filter_sublist
  contained f hf := by rw [List.mem_filter]; exact and_iff_right hf
  unnamed f hf := meet_unnamed hf a
  all := a.union_unnamed
  text := by
    have hempty : a.unnamed.isEmpty = true ↔ a.unnamed = none := by
      rw [isEmpty, decide_eq_true_eq]
      exact ⟨congrArg Rights.mk, congrArg Rights.bits⟩
    simp only [toText, print, parts, hempty, Text.digitsOf]

/-- A text is read as rights if it is blank or each of its parts stands for something, and is read
as the union of what they stand for; what is printed for some rights is read as these again. -/
theorem rights_are_unions_of_parts :
    (∀ s, ReadsAsUnion s) ∧
      (∀ s t, ¬Blank s → ¬Blank t → (∀ part, part ∈ partsOf s ↔ part ∈ partsOf t) →
        ofText? s = ofText? t) ∧
      ∀ a : Rights, (∃ named rest, a.Printed named rest) ∧ ofText? a.toText = some a :=
  ⟨readsAsUnion, fun _ _ hs ht h => ofText?_congr hs ht h,
    fun a => ⟨⟨_, _, a.printed⟩, a.ofText?_toText⟩⟩

/-- Parts in another order and one of them twice, and all thirty-two bits. -/
theorem shuffled_parts_are_read :
    ofText? "ADMIN|0x+8|\tREAD" = ofText? "READ | 0x+8|READ |ADMIN" ∧
      ofText? (Rights.mk 0xFFFFFFFF).toText = some ⟨0xFFFFFFFF⟩ := by
  obtain ⟨-, hshuffled, hprinted⟩ := rights_are_unions_of_parts
  have hparts : partsOf "ADMIN|0x+8|\tREAD" = ["ADMIN".toList, "0x+8".toList, "READ".toList] := by
    decide
  have hparts' : partsOf "READ | 0x+8|READ |ADMIN" =
      ["READ".toList, "0x+8".toList, "READ".toList, "ADMIN".toList] := by decide
  refine ⟨hshuffled _ _ ?_ ?_ fun part => ?_, (hprinted _).2⟩
  · exact fun h => absurd (h 'A' (by decide)) (by decide)
  · exact fun h => absurd (h 'R' (by decide)) (by decide)
  · rw [hparts, hparts']
    simp only [List.mem_cons, List.not_mem_nil, or_false]
    tauto

end ProjectRegistry.Rights
