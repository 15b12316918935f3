import ProjectRegistry.Files.Tree
import ProjectRegistry.Proofs.Text.Utf8

/-!
# Components of paths

A path is made of what its segments say: two dots go up and everything else is a name, except that
an empty segment and a single dot say nothing. In front of that stands at most one component more,
which tells where the path begins. So an inner path, which begins nowhere and never goes up, adds
its names to those of a root that it is joined to, and nothing else; and a file has the name that
the last segment gives it that says something.
-/

namespace ProjectRegistry.Files.Path

/-! ## Segments -/

/-- Whether a segment says something. -/
def Tells (s : List UInt8) : Prop := s ≠ [] ∧ s ≠ [dot]

instance : DecidablePred Tells := fun _ => inferInstanceAs (Decidable (_ ∧ _))

def spoken (s : List UInt8) : Component := if s = [dot, dot] then .up else .name s

theorem component?_of_tells {s : List UInt8} (h : Tells s) : component? s = some (spoken s) := by
  rw [component?, if_neg (by simpa [Tells] using h), spoken]
  split <;> rfl

theorem component?_of_not_tells {s : List UInt8} (h : ¬Tells s) : component? s = none := by
  by_cases hempty : s = []
  · exact if_pos (.inl hempty)
  · exact if_pos (.inr (Decidable.byContradiction fun hdot => h ⟨hempty, hdot⟩))

/-- The segments of a path that say something. -/
def telling (p : Path) : List (List UInt8) := p.segments.filter (Tells ·)

theorem filterMap_component? (ss : List (List UInt8)) :
    ss.filterMap component? = (ss.filter (Tells ·)).map spoken := by
  induction ss with
  | nil => rfl
  | cons s ss ih =>
    by_cases hs : Tells s
    · rw [List.filterMap_cons_some (component?_of_tells hs), ih,
        List.filter_cons_of_pos (by simpa using hs), List.map_cons]
    · rw [List.filterMap_cons_none (component?_of_not_tells hs), ih,
        List.filter_cons_of_neg (by simpa using hs)]

/-- Where a path begins, if it says so. -/
def opening (p : Path) : List Component :=
  if p.isAbsolute then [.root] else if p.segments.head? = some [dot] then [.here] else []

theorem opening_cases (p : Path) :
    p.opening = [.root] ∨ p.opening = [.here] ∨ p.opening = [] := by
  unfold opening
  split
  · exact .inl rfl
  · split
    · exact .inr (.inl rfl)
    · exact .inr (.inr rfl)

theorem components_eq (p : Path) : p.components = p.opening ++ p.telling.map spoken := by
  simp only [components, opening, telling, filterMap_component?]
  split
  · rfl
  · split <;> rfl

theorem segments_ne_nil (p : Path) : p.segments ≠ [] := Text.splitAt_ne_nil slash p.bytes

theorem slash_not_mem_of_telling {p : Path} {s : List UInt8} (h : s ∈ p.telling) : slash ∉ s :=
  Text.not_mem_of_mem_splitAt (List.mem_filter.1 h).1

/-- An absolute path has an empty segment in front. -/
theorem head?_segments_of_isAbsolute {p : Path} (h : p.isAbsolute = true) :
    p.segments.head? = some [] := by
  obtain ⟨bs, hbytes⟩ := List.head?_eq_some_iff.1 (of_decide_eq_true h)
  rw [segments, hbytes, Text.splitAt, if_pos rfl, List.head?_cons]

/-! ## Inner paths -/

/-- Whether a path begins nowhere and never goes up. -/
structure IsInner (p : Path) : Prop where
  relative : p.isAbsolute = false
  notHere : p.segments.head? ≠ some [dot]
  neverUp : [dot, dot] ∉ p.segments

variable {p : Path}

theorem IsInner.opening (h : p.IsInner) : p.opening = [] := by
  simp only [Path.opening, h.relative, Bool.false_eq_true, if_false, if_neg h.notHere]

theorem IsInner.components (h : p.IsInner) : p.components = p.telling.map .name := by
  rw [components_eq, h.opening, List.nil_append]
  refine List.map_congr_left fun s hs => if_neg ?_
  rintro rfl
  exact h.neverUp (List.mem_filter.1 hs).1

/-- The inner paths are those that have names alone for components. -/
theorem isInner_iff : p.IsInner ↔ ∀ c ∈ p.components, ∃ n, c = .name n := by
  constructor
  · intro h c hc
    rw [h.components] at hc
    obtain ⟨n, -, rfl⟩ := List.mem_map.1 hc
    exact ⟨n, rfl⟩
  · intro h
    rw [components_eq] at h
    refine ⟨?relative, fun hhead => ?notHere, fun hup => ?neverUp⟩
    case relative =>
      cases habsolute : p.isAbsolute with
      | false => rfl
      | true =>
        have hroot := h .root (List.mem_append_left _ (by simp [opening, habsolute]))
        simp at hroot
    case notHere =>
      have hrelative : p.isAbsolute ≠ true := by
        intro habsolute
        rw [head?_segments_of_isAbsolute habsolute] at hhead
        cases hhead
      have hhere := h .here (List.mem_append_left _ (by simp [opening, hrelative, hhead]))
      simp at hhere
    case neverUp =>
      have htelling : [dot, dot] ∈ p.telling := List.mem_filter.2 ⟨hup, by decide⟩
      have hspoken := h .up (List.mem_append_right _ (List.mem_map.2 ⟨_, htelling, rfl⟩))
      simp at hspoken

/-- How the segments of a path that is joined to a root come from both, up to one that says nothing.
-/
theorem join_segments (root : Path) (hp : p.isAbsolute = false) :
    (root.join p).isAbsolute = root.isAbsolute ∧
      ∃ ss, (root.join p).segments = ss ++ p.segments ∧
        (root.segments = ss ∨ root.segments = ss ++ [[]]) := by
  have hrelative : p.bytes.head? ≠ some slash := by simpa [isAbsolute] using hp
  by_cases hempty : root.bytes = []
  · refine ⟨?_, [], ?_, .inr ?_⟩
    · simp [join, hempty, isAbsolute, hrelative]
    · simp [segments, join, hp, hempty]
    · simp [segments, hempty, Text.splitAt]
  · have hstart (bs : List UInt8) : isAbsolute ⟨root.bytes ++ bs⟩ = root.isAbsolute := by
      rw [isAbsolute, isAbsolute, List.head?_append,
        Option.or_of_isSome (List.isSome_head?.2 hempty)]
    by_cases hlast : root.bytes.getLast? = some slash
    · obtain ⟨before, hbytes⟩ := List.getLast?_eq_some_iff.1 hlast
      have hjoin : root.join p = ⟨root.bytes ++ p.bytes⟩ := by simp [join, hp, hlast]
      refine ⟨by rw [hjoin, hstart], Text.splitAt slash before, ?_, .inr ?_⟩
      · rw [segments, hjoin, hbytes, List.append_assoc]
        exact Text.splitAt_append slash before p.bytes
      · rw [segments, hbytes]
        exact Text.splitAt_append slash before []
    · have hjoin : root.join p = ⟨root.bytes ++ slash :: p.bytes⟩ := by
        simp [join, hp, hempty, hlast]
      refine ⟨by rw [hjoin, hstart], root.segments, ?_, .inl rfl⟩
      rw [segments, hjoin]
      exact Text.splitAt_append slash root.bytes p.bytes

theorem telling_join (root : Path) (hp : p.isAbsolute = false) :
    (root.join p).telling = root.telling ++ p.telling := by
  obtain ⟨-, ss, hsegments, hroot | hroot⟩ := join_segments root hp
  · rw [telling, hsegments, List.filter_append, telling, hroot, telling]
  · have hempty : [([] : List UInt8)].filter (Tells ·) = [] := by decide
    rw [telling, hsegments, List.filter_append, telling, hroot, List.filter_append, hempty,
      List.append_nil, telling]

theorem opening_join (root : Path) (hp : p.IsInner) : (root.join p).opening = root.opening := by
  obtain ⟨habsolute, ss, hsegments, hroot⟩ := join_segments root hp.relative
  have hhere : (root.join p).segments.head? = some [dot] ↔ root.segments.head? = some [dot] := by
    rw [hsegments]
    cases ss with
    | nil =>
      -- an empty root says nothing, and neither does the path begin with a dot
      have hempty : root.segments = [[]] := hroot.resolve_left root.segments_ne_nil
      simp [hempty, hp.notHere]
    | cons s ss => rcases hroot with h | h <;> rw [h] <;> rfl
  simp only [opening, habsolute, hhere]

/-- An inner path that is joined to a root adds its names to the components of the root. -/
theorem components_join (root : Path) (hp : p.IsInner) :
    (root.join p).components = root.components ++ p.telling.map .name := by
  rw [components_eq, opening_join root hp, telling_join root hp.relative, List.map_append,
    ← List.append_assoc, ← components_eq, ← hp.components, components_eq p, hp.opening,
    List.nil_append]

/-! ## Plain paths -/

/-- A segment that leads to a name of its own. -/
def IsName (segment : List UInt8) : Prop := component? segment = some (.name segment)

theorem isName_of_head {b : UInt8} (h : b ≠ dot) (bs : List UInt8) : IsName (b :: bs) := by
  simp [IsName, component?, h]

/-- A text that does not begin with a dot is a name. -/
theorem isName_utf8 {s : String} {c : Char} (hs : s.toList.head? = some c) (hc : c.toNat ≠ 46) :
    IsName (Text.utf8 s) := by
  obtain ⟨cs, hcs⟩ := List.head?_eq_some_iff.1 hs
  obtain ⟨b, bs, hb⟩ := List.exists_cons_of_ne_nil (String.utf8EncodeChar_ne_nil (c := c))
  have hdot : b ≠ dot := by
    rintro rfl
    exact hc (Text.toNat_of_mem_utf8EncodeChar (hb ▸ List.mem_cons_self) (by decide))
  rw [Text.utf8, hcs, List.flatMap_cons, hb]
  exact isName_of_head hdot _

theorem IsName.tells {s : List UInt8} (h : IsName s) : Tells s := by
  refine Decidable.byContradiction fun hs => ?_
  rw [IsName, component?_of_not_tells hs] at h
  cases h

theorem not_isName_up : ¬IsName [dot, dot] := by simp [IsName, component?]

/-- Whether a path is made of names alone. -/
def IsPlain (p : Path) : Prop := ∀ s ∈ p.segments, IsName s

theorem IsPlain.telling (h : p.IsPlain) : p.telling = p.segments :=
  List.filter_eq_self.2 fun s hs => decide_eq_true (h s hs).tells

theorem IsPlain.isInner (h : p.IsPlain) : p.IsInner where
  relative := by
    cases habsolute : p.isAbsolute with
    | false => rfl
    | true =>
      have hempty := List.mem_of_head? (head?_segments_of_isAbsolute habsolute)
      exact absurd rfl (h [] hempty).tells.1
  notHere hhead := (h _ (List.mem_of_head? hhead)).tells.2 rfl
  neverUp hup := not_isName_up (h _ hup)

/-! ## Names of files -/

/-- The last segment that says something. -/
def lastTelling? (p : Path) : Option (List UInt8) := p.telling.getLast?

/-- A file has the name of the last segment that says something, unless that goes up. -/
theorem fileName?_eq (p : Path) : p.fileName? = p.lastTelling?.filter (· ≠ [dot, dot]) := by
  rw [fileName?, components_eq, List.getLast?_append, List.getLast?_map, lastTelling?]
  cases p.telling.getLast? with
  | none =>
    rcases p.opening_cases with h | h | h
    · rw [h]; rfl
    · rw [h]; rfl
    · rw [h]; rfl
  | some s =>
    simp only [Option.map_some, Option.some_or, spoken, Option.filter_some]
    by_cases hs : s = [dot, dot]
    · simp [hs]
    · simp [hs]

theorem slash_not_mem_fileName (p : Path) : slash ∉ p.fileName?.getD [] := by
  cases hname : p.fileName? with
  | none => simp
  | some name =>
    rw [fileName?_eq, Option.filter_eq_some_iff] at hname
    exact slash_not_mem_of_telling (List.mem_of_getLast? hname.1)

theorem takeWhile_reverse_append {after : List UInt8} (h : dot ∉ after) (rest : List UInt8) :
    (after.reverse ++ rest).takeWhile (· ≠ dot) =
      after.reverse ++ rest.takeWhile (· ≠ dot) := by
  refine List.takeWhile_append_of_pos fun b hb => ?_
  rw [decide_eq_true_eq]
  rintro rfl
  exact h (List.mem_reverse.1 hb)

theorem lastDot?_append {before after : List UInt8} (h : dot ∉ after) :
    lastDot? (before ++ dot :: after) = some (before, after) := by
  have hafter : ((before ++ dot :: after).reverse.takeWhile (· ≠ dot)).reverse = after := by
    rw [List.reverse_append, List.reverse_cons, List.append_assoc, takeWhile_reverse_append h,
      List.singleton_append, List.takeWhile_cons_of_neg (by simp), List.append_nil,
      List.reverse_reverse]
  have hlength : (before ++ dot :: after).length = before.length + 1 + after.length := by
    rw [List.length_append, List.length_cons]
    omega
  simp only [lastDot?, hafter, hlength]
  rw [if_neg (by omega), show before.length + 1 + after.length - after.length - 1 =
    before.length by omega, List.take_left]

theorem lastDot?_of_not_mem {name : List UInt8} (h : dot ∉ name) : lastDot? name = none := by
  have hafter := takeWhile_reverse_append h []
  rw [List.append_nil, List.takeWhile_nil, List.append_nil] at hafter
  rw [lastDot?, hafter, List.reverse_reverse]
  exact if_pos rfl

theorem exists_lastDot {name : List UInt8} (h : dot ∈ name) :
    ∃ before after, name = before ++ dot :: after ∧ dot ∉ after := by
  obtain ⟨as, bs, hreverse, has⟩ := List.eq_append_cons_of_mem (List.mem_reverse.2 h)
  refine ⟨bs.reverse, as.reverse, ?_, by simpa using has⟩
  rw [← List.reverse_reverse name, hreverse]
  simp

theorem lastDot?_eq_some_iff {name before after : List UInt8} :
    lastDot? name = some (before, after) ↔ dot ∉ after ∧ name = before ++ dot :: after := by
  constructor
  · intro h
    have hdot : dot ∈ name := by
      refine Decidable.byContradiction fun hnot => ?_
      rw [lastDot?_of_not_mem hnot] at h
      cases h
    obtain ⟨b, a, rfl, ha⟩ := exists_lastDot hdot
    cases (lastDot?_append ha).symm.trans h
    exact ⟨ha, rfl⟩
  · rintro ⟨hafter, rfl⟩
    exact lastDot?_append hafter

/-- The extension of a file is what follows the last dot of its name, unless that is in front. -/
theorem extension?_eq_some_iff {after : List UInt8} : p.extension? = some after ↔
    dot ∉ after ∧ ∃ before, before ≠ [] ∧ p.fileName? = some (before ++ dot :: after) := by
  have hcut (before : List UInt8) : p.fileName?.bind lastDot? = some (before, after) ↔
      dot ∉ after ∧ p.fileName? = some (before ++ dot :: after) := by
    simp only [Option.bind_eq_some_iff, lastDot?_eq_some_iff, and_left_comm (b := dot ∉ after),
      exists_and_left, exists_eq_right]
  rw [← exists_and_left]
  simp only [and_left_comm (a := dot ∉ after), ← hcut]
  unfold extension?
  rcases p.fileName?.bind lastDot? with _ | ⟨before, after'⟩
  · simp
  · simp only [Option.some.injEq, Prod.mk.injEq]
    constructor
    · intro h
      split at h
      · cases h
      · next hbefore => exact ⟨before, hbefore, rfl, Option.some.inj h⟩
    · rintro ⟨_, hbefore, rfl, rfl⟩
      exact if_neg hbefore

end ProjectRegistry.Files.Path
