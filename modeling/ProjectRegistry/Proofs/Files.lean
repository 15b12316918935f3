import ProjectRegistry.Files.Tree
import ProjectRegistry.Proofs.Tables

/-!
# Files and directories

Making directories adds no file and takes none away, and whatever is done for an archive leaves the
directories there are; so a path that could be followed can be followed still. A file that was
copied to a place without one can be taken away again, and that brings back the tree as it was.
-/

namespace ProjectRegistry.Files.FileTree

/-- Two trees have the same files, with the same content, though maybe not the same directories. -/
def SameFiles (t t' : FileTree) : Prop :=
  ∀ l content, t'.node? l = some (.file content) ↔ t.node? l = some (.file content)

theorem SameFiles.refl (t : FileTree) : t.SameFiles t := fun _ _ => Iff.rfl

theorem SameFiles.trans {t t' t'' : FileTree} (h : t.SameFiles t') (h' : t'.SameFiles t'') :
    t.SameFiles t'' :=
  fun l content => (h' l content).trans (h l content)

variable {t t' : FileTree} {l : Location}

theorem node?_insert {at_ : Location} (n : Node) (hfree : t.node? at_ ≠ some .directory)
    (l : Location) :
    (FileTree.mk (t.nodes.insert at_ n)).node? l = if at_ = l then some n else t.node? l := by
  simp only [node?, Table.find?_insert]
  split
  · next hstart =>
    have hne : at_ ≠ l := by
      rintro rfl
      exact hfree (if_pos hstart)
    rw [if_neg hne]
  · rfl

theorem node?_erase {at_ : Location} (hfree : t.node? at_ ≠ some .directory) (l : Location) :
    (FileTree.mk (t.nodes.erase at_)).node? l = if at_ = l then none else t.node? l := by
  simp only [node?, Table.find?_erase]
  split
  · next hstart =>
    have hne : at_ ≠ l := by
      rintro rfl
      exact hfree (if_pos hstart)
    rw [if_neg hne]
  · simp only [eq_comm]

/-! ## Following what could be followed -/

def KeepsDirectories (t t' : FileTree) : Prop :=
  ∀ l, t.node? l = some .directory → t'.node? l = some .directory

theorem KeepsDirectories.refl (t : FileTree) : t.KeepsDirectories t := fun _ h => h

theorem KeepsDirectories.trans {t t' t'' : FileTree} (h : t.KeepsDirectories t')
    (h' : t'.KeepsDirectories t'') : t.KeepsDirectories t'' :=
  fun l hl => h' l (h l hl)

theorem keepsDirectories_insert {at_ : Location} (n : Node)
    (hfree : t.node? at_ ≠ some .directory) : t.KeepsDirectories ⟨t.nodes.insert at_ n⟩ := by
  intro l hl
  have hne : at_ ≠ l := by
    rintro rfl
    exact hfree hl
  rw [node?_insert n hfree, if_neg hne, hl]

/-- A segment is followed from a directory. -/
theorem directory_of_follow {s : List UInt8} {next : Location} (h : t.follow l s = .ok next) :
    t.node? l = some .directory := by
  unfold follow at h
  cases hnode : t.node? l with
  | none => simp [hnode] at h
  | some n =>
    cases n with
    | directory => rfl
    | file content => simp [hnode] at h

/-- Where a segment leads depends on nothing but whether it is followed from a directory. -/
theorem follow_eq {t' : FileTree} (h : t.node? l = some .directory)
    (h' : t'.node? l = some .directory) (s : List UInt8) : t'.follow l s = t.follow l s := by
  rw [follow, follow, h, h']

theorem KeepsDirectories.followAll (h : t.KeepsDirectories t') {segments : List (List UInt8)}
    {start stop : Location} (hfollow : t.followAll start segments = .ok stop) :
    t'.followAll start segments = .ok stop := by
  induction segments generalizing start with
  | nil => exact hfollow
  | cons s rest ih =>
    unfold FileTree.followAll at hfollow ⊢
    cases hstep : t.follow start s with
    | error e => simp [hstep] at hfollow
    | ok next =>
      have hdirectory := directory_of_follow hstep
      rw [follow_eq hdirectory (h start hdirectory), hstep]
      simp only [hstep] at hfollow
      exact ih hfollow

theorem KeepsDirectories.locate (h : t.KeepsDirectories t') {p : Path}
    (hlocate : t.locate p = .ok l) : t'.locate p = .ok l := by
  unfold FileTree.locate at hlocate ⊢
  cases hcheck : checkPath p with
  | error e => simp [hcheck] at hlocate
  | ok _ =>
    simp only [hcheck] at hlocate
    exact h.followAll hlocate

/-! ## Making directories -/

/-- Making directories leaves directories and files where they are. -/
theorem makeAlong_spares (segments : List (List UInt8)) (t : FileTree) (l : Location) :
    t.SameFiles (t.makeAlong l segments).2 ∧ t.KeepsDirectories (t.makeAlong l segments).2 := by
  induction segments generalizing t l with
  | nil => exact ⟨.refl t, .refl t⟩
  | cons s rest ih =>
    unfold makeAlong
    cases t.follow l s with
    | error e => exact ⟨.refl t, .refl t⟩
    | ok next =>
      cases hnode : t.node? next with
      | none =>
        simp only [hnode]
        have hfree : t.node? next ≠ some .directory := by simp [hnode]
        have hmade : t.SameFiles ⟨t.nodes.insert next .directory⟩ := fun l content => by
          rw [node?_insert .directory hfree]
          split
          · next hl => simp [← hl, hnode]
          · rfl
        obtain ⟨hfiles, hdirectories⟩ := ih ⟨t.nodes.insert next .directory⟩ next
        exact ⟨hmade.trans hfiles, (keepsDirectories_insert _ hfree).trans hdirectories⟩
      | some n =>
        cases n with
        | directory =>
          simp only [hnode]
          exact ih t next
        | file content =>
          simp only [hnode]
          exact ⟨.refl t, .refl t⟩

theorem makeDirectories_spares (t : FileTree) (p : Path) :
    t.SameFiles (t.makeDirectories p).2 ∧ t.KeepsDirectories (t.makeDirectories p).2 := by
  unfold makeDirectories
  split
  · exact ⟨.refl t, .refl t⟩
  · split
    · exact makeAlong_spares _ _ _
    · exact ⟨.refl t, .refl t⟩

theorem sameFiles_makeDirectories (t : FileTree) (p : Path) :
    t.SameFiles (t.makeDirectories p).2 :=
  (t.makeDirectories_spares p).1

/-! ## Copying a file and taking it away -/

theorem find_ok_iff {p : Path} {n : Node} :
    t.find p = .ok (l, n) ↔ t.locate p = .ok l ∧ t.node? l = some n := by
  unfold find
  cases t.locate p with
  | error e => simp
  | ok l' =>
    simp only [Except.ok.injEq]
    constructor
    · intro h
      split at h
      · next n' hn =>
        cases h
        exact ⟨rfl, hn⟩
      · cases h
    · rintro ⟨rfl, hn⟩
      rw [hn]

theorem read_ok_iff {p : Path} {content : List UInt8} :
    t.read p = .ok content ↔ ∃ l, t.find p = .ok (l, .file content) := by
  unfold read
  rcases t.find p with e | ⟨l, n⟩
  · simp
  · cases n <;> simp

/-- Where files and directories stay, a file that could be read has the same content. -/
theorem SameFiles.read (h : t.SameFiles t') (hdirectories : t.KeepsDirectories t') {p : Path}
    {content : List UInt8} (hread : t.read p = .ok content) : t'.read p = .ok content := by
  obtain ⟨l, hfind⟩ := read_ok_iff.1 hread
  obtain ⟨hlocate, hnode⟩ := find_ok_iff.1 hfind
  exact read_ok_iff.2 ⟨l, find_ok_iff.2 ⟨hdirectories.locate hlocate, (h l content).2 hnode⟩⟩

theorem copy_ok {source target : Path} (h : t.copy source target = .ok t') :
    ∃ l content, t.read source = .ok content ∧ t.locate target = .ok l ∧
      t.node? l ≠ some .directory ∧ t' = ⟨t.nodes.insert l (.file content)⟩ := by
  simp only [copy, write, writeAt] at h
  split at h
  · next content hfind =>
    cases hlocate : t.locate target with
    | error e => simp [hlocate] at h
    | ok l =>
      simp only [hlocate] at h
      split at h
      · cases h
      · next hplace =>
        cases h
        exact ⟨l, content, read_ok_iff.2 ⟨_, hfind⟩, rfl, hplace, rfl⟩
  · cases h
  · cases h

/-- A file that was copied to where no file was can be taken away, and then the tree is as before.
-/
theorem remove_copy {source target : Path} (h : t.copy source target = .ok t')
    (hfree : ∀ l content, t.locate target = .ok l → t.node? l ≠ some (.file content)) :
    t'.remove target = .ok t := by
  obtain ⟨l, content, -, hlocate, hplace, rfl⟩ := copy_ok h
  have hnone : t.node? l = none := by
    cases hnode : t.node? l with
    | none => rfl
    | some n =>
      cases n with
      | directory => exact absurd hnode hplace
      | file content => exact absurd hnode (hfree l content hlocate)
  have hrow : t.nodes.find? l = none := by
    unfold node? at hnone
    split at hnone
    · cases hnone
    · exact hnone
  have hback : (t.nodes.insert l (.file content)).erase l = t.nodes := by
    apply Table.eq_of_find?
    intro k
    rw [Table.find?_erase, Table.find?_insert]
    split
    · next hk => rw [hk, hrow]
    · next hk => rw [if_neg (Ne.symm hk)]
  rw [remove, find, (keepsDirectories_insert _ hplace).locate hlocate]
  simp only [node?_insert _ hplace, if_true, hback]

end ProjectRegistry.Files.FileTree
