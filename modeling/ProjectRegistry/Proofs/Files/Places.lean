import ProjectRegistry.Proofs.Files
import ProjectRegistry.Proofs.Files.Components

/-!
# Places

Where a path leads is read off its segments: if it can be followed at all, it leads there, whatever
else there is. An inner path leads from a root to a place at or below it, and it still does when
others change what is somewhere else, as long as they leave the way to the root.
-/

namespace ProjectRegistry.Files

namespace FileTree

/-- Where a segment leads from a directory. -/
def lead (l : Location) (segment : List UInt8) : Location :=
  match Path.component? segment with
  | none | some .root | some .here => l
  | some .up => above l
  | some (.name n) => l ++ [n]

end FileTree

open FileTree (lead start above)

def Path.place (p : Path) : Location := p.segments.foldl lead (start p)

namespace Path

theorem lead_of_tells {s : List UInt8} (h : Tells s) (hup : s ≠ [dot, dot]) (l : Location) :
    lead l s = l ++ [s] := by
  rw [lead, component?_of_tells h, spoken, if_neg hup]

theorem lead_of_not_tells {s : List UInt8} (h : ¬Tells s) (l : Location) : lead l s = l := by
  rw [lead, component?_of_not_tells h]

/-- Where nothing goes up, the segments that say something are the way. -/
theorem foldl_lead {ss : List (List UInt8)} (h : [dot, dot] ∉ ss) (l : Location) :
    ss.foldl lead l = l ++ ss.filter (Tells ·) := by
  induction ss generalizing l with
  | nil => exact (List.append_nil l).symm
  | cons s ss ih =>
    rw [List.mem_cons, not_or] at h
    rw [List.foldl_cons, ih h.2]
    by_cases hs : Tells s
    · rw [lead_of_tells hs (Ne.symm h.1), List.filter_cons_of_pos (by simpa using hs),
        List.append_assoc, List.singleton_append]
    · rw [lead_of_not_tells hs, List.filter_cons_of_neg (by simpa using hs)]

theorem start_join (root : Path) {p : Path} (hp : p.isAbsolute = false) :
    start (root.join p) = start root := by
  rw [start, start, (join_segments root hp).1]

theorem place_join (root : Path) {p : Path} (hp : p.isAbsolute = false) :
    (root.join p).place = p.segments.foldl lead root.place := by
  obtain ⟨-, ss, hsegments, hroot⟩ := join_segments root hp
  rw [place, place, start_join root hp, hsegments, List.foldl_append]
  rcases hroot with h | h
  · rw [h]
  · rw [h, List.foldl_append]
    rfl

theorem place_join_of_inner (root : Path) {p : Path} (hp : p.IsInner) :
    (root.join p).place = root.place ++ p.telling := by
  rw [place_join root hp.relative, foldl_lead hp.neverUp, telling]

theorem place_join_of_plain (root : Path) {p : Path} (hp : p.IsPlain) :
    (root.join p).place = root.place ++ p.segments := by
  rw [place_join_of_inner root hp.isInner, hp.telling]

end Path

namespace FileTree

variable {t t' : FileTree} {l l' : Location} {root p : Path}

theorem lead_of_follow {s : List UInt8} (h : t.follow l s = .ok l') : l' = lead l s := by
  rw [follow, directory_of_follow h] at h
  simp only at h
  unfold lead
  cases hs : Path.component? s with
  | none =>
    rw [hs] at h
    cases h
    rfl
  | some c =>
    rw [hs] at h
    cases c with
    | root => cases h; rfl
    | here => cases h; rfl
    | up => cases h; rfl
    | name n =>
      simp only at h
      split at h
      · cases h
      · cases h
        rfl

theorem followAll_append (ss ss' : List (List UInt8)) :
    t.followAll l (ss ++ ss') = (t.followAll l ss).bind fun l => t.followAll l ss' := by
  induction ss generalizing l with
  | nil => rfl
  | cons s ss ih =>
    rw [List.cons_append, followAll, followAll]
    cases t.follow l s with
    | error e => rfl
    | ok next => exact ih

theorem foldl_lead_of_followAll {ss : List (List UInt8)} (h : t.followAll l ss = .ok l') :
    l' = ss.foldl lead l := by
  induction ss generalizing l with
  | nil =>
    cases h
    rfl
  | cons s ss ih =>
    unfold followAll at h
    cases hs : t.follow l s with
    | error e => simp [hs] at h
    | ok next =>
      simp only [hs] at h
      rw [List.foldl_cons, ← lead_of_follow hs]
      exact ih h

/-- Whether a path can be followed segment by segment. -/
def Reaches (t : FileTree) (p : Path) : Prop := t.followAll (start p) p.segments = .ok p.place

theorem reaches_of_followAll (h : t.followAll (start p) p.segments = .ok l) :
    t.Reaches p ∧ l = p.place := by
  have hl : l = p.place := foldl_lead_of_followAll h
  exact ⟨by rw [Reaches, h, hl], hl⟩

theorem locate_ok_iff :
    t.locate p = .ok l ↔ checkPath p = .ok () ∧ t.Reaches p ∧ l = p.place := by
  unfold locate
  cases checkPath p with
  | error e => simp
  | ok _ =>
    simp only [true_and]
    exact ⟨reaches_of_followAll, fun ⟨h, hl⟩ => by rw [hl]; exact h⟩

/-- An empty segment asks for a directory, and so does every other one that follows. -/
theorem followAll_empty_cons (s : List UInt8) (ss : List (List UInt8)) :
    t.followAll l ([] :: s :: ss) = t.followAll l (s :: ss) := by
  cases hnode : t.node? l with
  | none => simp [followAll, follow, hnode]
  | some n => cases n <;> simp [followAll, follow, hnode, Path.component?]

/-- A path below a root is followed from where the root leads. -/
theorem followAll_join (t : FileTree) (root : Path) (hp : p.isAbsolute = false) :
    t.followAll (start (root.join p)) (root.join p).segments =
      (t.followAll (start root) root.segments).bind fun l => t.followAll l p.segments := by
  obtain ⟨-, ss, hsegments, hroot⟩ := Path.join_segments root hp
  obtain ⟨s, rest, hs⟩ := List.exists_cons_of_ne_nil p.segments_ne_nil
  rw [Path.start_join root hp, hsegments, ← followAll_append]
  rcases hroot with h | h
  · rw [h]
  · rw [h, hs, List.append_assoc, followAll_append, followAll_append]
    exact congrArg _ (funext fun l => (followAll_empty_cons s rest).symm)

/-- A path below a root is followed if the root is, and then it from there. -/
theorem reaches_join_iff (hp : p.isAbsolute = false) :
    t.Reaches (root.join p) ↔
      t.Reaches root ∧
        t.followAll root.place p.segments = .ok (p.segments.foldl lead root.place) := by
  rw [Reaches, followAll_join t root hp, Path.place_join root hp]
  constructor
  · intro h
    cases hfollow : t.followAll (start root) root.segments with
    | error e =>
      rw [hfollow] at h
      cases h
    | ok l =>
      rw [hfollow] at h
      obtain ⟨hreaches, rfl⟩ := reaches_of_followAll hfollow
      exact ⟨hreaches, h⟩
  · rintro ⟨hreaches, hrest⟩
    rw [show t.followAll (start root) root.segments = .ok root.place from hreaches]
    exact hrest

/-! ## What others change -/

theorem isBelow_append {ns : List (List UInt8)} (h : ∀ n ∈ ns, slash ∉ n) (l : Location) :
    isBelow l (l ++ ns) = true := by
  cases l with
  | nil =>
    cases ns with
    | nil => decide
    | cons n ns =>
      have hn : n ≠ [slash] := by
        rintro rfl
        exact h _ List.mem_cons_self List.mem_cons_self
      simp [isBelow, top, hn]
  | cons m l => simp [isBelow]

/-- Whether there is no file below a root. -/
def IsBareBelow (t : FileTree) (root : Path) : Prop :=
  ∀ l content, isBelow root.place l = true → t.node? l ≠ some (.file content)

/-- Whether others changed nothing below a root and left the way to it. -/
structure Spares (root : Path) (t t' : FileTree) : Prop where
  below {l : Location} : isBelow root.place l = true → t'.node? l = t.node? l
  way : t.Reaches root → t'.Reaches root

/-- Others may write a file that is not below a root. -/
theorem spares_write {c : List UInt8} (hp : isBelow root.place p.place = false)
    (h : t.write p c = .ok t') : Spares root t t' := by
  unfold write at h
  cases hlocate : t.locate p with
  | error e => simp [hlocate] at h
  | ok l =>
    obtain rfl := (locate_ok_iff.1 hlocate).2.2
    simp only [hlocate, writeAt] at h
    split at h
    · cases h
    · next hnode =>
      cases h
      refine ⟨fun hbelow => ?_, fun hreaches => ?_⟩
      · rw [node?_insert _ hnode, if_neg]
        rintro rfl
        rw [hp] at hbelow
        cases hbelow
      · exact (keepsDirectories_insert _ hnode).followAll hreaches

/-- What is followed from one directory to the next below a root is followed in the same way in
every tree that has the same directories there. -/
theorem followAll_below {at_ : Location} (h : ∀ l, isBelow at_ l = true → t'.node? l = t.node? l)
    {ns ss : List (List UInt8)} (hns : ∀ n ∈ ns, slash ∉ n) (hup : [dot, dot] ∉ ss)
    (hss : ∀ s ∈ ss, slash ∉ s) :
    t'.followAll (at_ ++ ns) ss = t.followAll (at_ ++ ns) ss := by
  induction ss generalizing ns with
  | nil => rfl
  | cons s ss ih =>
    rw [List.mem_cons, not_or] at hup
    rw [List.forall_mem_cons] at hss
    have hstep : t'.follow (at_ ++ ns) s = t.follow (at_ ++ ns) s := by
      rw [follow, follow, h _ (isBelow_append hns at_)]
    rw [followAll, followAll, hstep]
    cases hs : t.follow (at_ ++ ns) s with
    | error e => rfl
    | ok next =>
      rw [lead_of_follow hs]
      by_cases htells : Path.Tells s
      · rw [Path.lead_of_tells htells (Ne.symm hup.1), List.append_assoc]
        refine ih (fun n hn => ?_) hup.2 hss.2
        rcases List.mem_append.1 hn with hn | hn
        · exact hns n hn
        · rw [List.mem_singleton.1 hn]
          exact hss.1
      · rw [Path.lead_of_not_tells htells]
        exact ih hns hup.2 hss.2

/-- An inner path is followed below a root in the same way in every tree that has the same
directories there. -/
theorem followAll_inner (h : ∀ l, isBelow root.place l = true → t'.node? l = t.node? l)
    (hp : p.IsInner) : t'.followAll root.place p.segments = t.followAll root.place p.segments := by
  have hnames : ∀ n ∈ ([] : List (List UInt8)), slash ∉ n := by simp
  have hsame := followAll_below h hnames hp.neverUp fun s hs => Text.not_mem_of_mem_splitAt hs
  rwa [List.append_nil] at hsame

theorem isBelow_join (root : Path) (hp : p.IsInner) :
    isBelow root.place (root.join p).place = true := by
  rw [Path.place_join_of_inner root hp]
  exact isBelow_append (fun s hs => Path.slash_not_mem_of_telling hs) _

theorem Spares.locate (h : Spares root t t') (hp : p.IsInner)
    (hlocate : t.locate (root.join p) = .ok l) : t'.locate (root.join p) = .ok l := by
  obtain ⟨hcheck, hreaches, hl⟩ := locate_ok_iff.1 hlocate
  refine locate_ok_iff.2 ⟨hcheck, ?_, hl⟩
  obtain ⟨hroot, hrest⟩ := (reaches_join_iff hp.relative).1 hreaches
  refine (reaches_join_iff hp.relative).2 ⟨h.way hroot, ?_⟩
  rw [followAll_inner (fun _ => h.below) hp, hrest]

/-- Whether two trees differ neither at or below a root nor on the way to it. -/
structure AlikeBelow (root : Path) (t t' : FileTree) : Prop where
  below {l : Location} : isBelow root.place l = true → t'.node? l = t.node? l
  way : t'.followAll (start root) root.segments = t.followAll (start root) root.segments

/-- What an inner path finds below a root depends on nothing else. -/
theorem AlikeBelow.find (h : AlikeBelow root t t') (hp : p.IsInner) :
    t'.find (root.join p) = t.find (root.join p) := by
  have hlocate : t'.locate (root.join p) = t.locate (root.join p) := by
    rw [FileTree.locate, FileTree.locate, followAll_join t' root hp.relative,
      followAll_join t root hp.relative, h.way]
    cases hroot : t.followAll (start root) root.segments with
    | error e => rfl
    | ok l =>
      obtain ⟨-, rfl⟩ := reaches_of_followAll hroot
      simp only [Except.bind, followAll_inner (fun _ => h.below) hp]
  rw [FileTree.find, FileTree.find, hlocate]
  cases hl : t.locate (root.join p) with
  | error e => rfl
  | ok l =>
    obtain rfl := (locate_ok_iff.1 hl).2.2
    simp only [h.below (isBelow_join root hp)]

end FileTree

end ProjectRegistry.Files
