import ProjectRegistry.Proofs.Artifacts

/-!
# Archives stay below their root

An id is a text from anywhere. It is accepted exactly if it begins nowhere and none of its segments
goes up, and then its path is that of the root with the names of the id behind it, however the
slashes and dots between them are spelled. So nothing that is fetched or deleted lies outside of the
root, and nothing outside of it matters but the way to it. The ids that archives are kept under are
accepted, whatever the file is called, and each leads three levels below the root.
-/

namespace ProjectRegistry.Artifacts

open Files (Component FileTree Path slash dot)

/-- The segments of an id between its slashes. -/
def segmentsOf (id : String) : List (List Char) := Text.splitAt '/' id.toList

/-- Whether an id begins nowhere and never goes up. -/
structure IsConfined (id : String) : Prop where
  relative : id.toList.head? ≠ some '/'
  neverUp : ['.', '.'] ∉ segmentsOf id
  notHere : (segmentsOf id).head? ≠ some ['.']

/-- The bytes of the segments that say something. -/
def namesOf (id : String) : List (List UInt8) :=
  ((segmentsOf id).filter fun s => s ≠ [] ∧ s ≠ ['.']).map fun s => Text.utf8 (String.ofList s)

theorem utf8_ofList_injective :
    Function.Injective fun s : List Char => Text.utf8 (String.ofList s) :=
  fun _ _ h => String.ofList_injective (Text.utf8_injective h)

theorem segments_ofText (id : String) :
    (Path.ofText id).segments = (segmentsOf id).map fun s => Text.utf8 (String.ofList s) :=
  Text.splitAt_utf8 (a := '/') (by decide) id

theorem isInner_ofText_iff {id : String} : (Path.ofText id).IsInner ↔ IsConfined id := by
  have hrelative : (Path.ofText id).isAbsolute = false ↔ id.toList.head? ≠ some '/' := by
    rw [Path.isAbsolute, decide_eq_false_iff_not]
    exact not_congr (Text.head?_utf8 (a := '/') (by decide) id)
  have hup : [dot, dot] ∉ (Path.ofText id).segments ↔ ['.', '.'] ∉ segmentsOf id := by
    rw [segments_ofText]
    exact not_congr (List.mem_map_of_injective utf8_ofList_injective (a := ['.', '.']))
  have hhere : (Path.ofText id).segments.head? ≠ some [dot] ↔
      (segmentsOf id).head? ≠ some ['.'] := by
    rw [segments_ofText, List.head?_map]
    exact not_congr ((Option.map_injective utf8_ofList_injective).eq_iff (b := some ['.']))
  constructor
  · intro h
    exact ⟨hrelative.1 h.relative, hup.1 h.neverUp, hhere.1 h.notHere⟩
  · intro h
    exact ⟨hrelative.2 h.relative, hhere.2 h.notHere, hup.2 h.neverUp⟩

theorem telling_ofText (id : String) : (Path.ofText id).telling = namesOf id := by
  rw [Path.telling, segments_ofText, List.filter_map, namesOf]
  refine congrArg _ (List.filter_congr fun s _ => decide_eq_decide.2 ?_)
  exact and_congr (not_congr (utf8_ofList_injective.eq_iff (b := [])))
    (not_congr (utf8_ofList_injective.eq_iff (b := ['.'])))

variable {a : Artifacts} {id : String} {path : Path}

theorem locate_ok_iff : a.locate id = .ok path ↔ IsConfined id ∧ path = a.pathOf id := by
  rw [← isInner_ofText_iff]
  by_cases hinner : (Path.ofText id).IsInner
  · rw [a.locate_of_isInner hinner, and_iff_right hinner, Except.ok.injEq, eq_comm]
  · rw [a.locate_of_not_isInner hinner]
    simp [hinner]

theorem locate_of_not_isConfined (a : Artifacts) (h : ¬IsConfined id) :
    a.locate id = .error (.violation (.resourceId id)) :=
  a.locate_of_not_isInner fun hinner => h (isInner_ofText_iff.1 hinner)

theorem components_pathOf (a : Artifacts) (h : IsConfined id) :
    (a.pathOf id).components = a.root.components ++ (namesOf id).map .name := by
  rw [pathOf, Path.components_join a.root (isInner_ofText_iff.2 h), telling_ofText]

/-- Only what is at or below the root is taken away. -/
theorem isBelow_of_deleted {files : FileTree} {l : Files.Location}
    (h : (a.delete id files).2.node? l ≠ files.node? l) :
    FileTree.isBelow a.root.place l = true := by
  rw [node?_delete_eq] at h
  have hfile : a.fileOf? files id = some l := by
    by_contra hother
    exact h (if_neg hother)
  obtain ⟨path, content, hpath, hl, -⟩ := fileOf?_eq_some_iff.1 hfile
  obtain ⟨hconfined, rfl⟩ := locate_ok_iff.1 hpath
  obtain rfl := (FileTree.locate_ok_iff.1 hl).2.2
  exact FileTree.isBelow_join a.root (isInner_ofText_iff.2 hconfined)

/-- What is outside of the root does not matter. -/
theorem answers_of_alikeBelow {files files' : FileTree}
    (h : FileTree.AlikeBelow a.root files files') :
    a.fetch id files' = a.fetch id files ∧ (a.delete id files').1 = (a.delete id files).1 := by
  by_cases hinner : (Path.ofText id).IsInner
  · have hfind : files'.find (a.pathOf id) = files.find (a.pathOf id) := h.find hinner
    have hlocate := a.locate_of_isInner hinner
    constructor
    · simp only [fetch, hlocate, FileTree.pathExists, hfind]
    · simp only [delete, hlocate, Step.lift_ok_bind, onFiles, FileTree.remove, hfind]
      rcases files.find (a.pathOf id) with e | ⟨l, _ | content⟩
      · cases e <;> rfl
      · rfl
      · rfl
  · have hlocate := a.locate_of_not_isInner hinner
    constructor
    · simp only [fetch, hlocate]
    · simp only [delete, hlocate]
      rfl

/-- What an id can lead to. -/
structure Confines (a : Artifacts) (id : String) : Prop where
  accepts : (∃ path, a.locate id = .ok path) ↔ IsConfined id
  components {path : Path} : a.locate id = .ok path →
    path.components = a.root.components ++ (namesOf id).map .name
  refuses (files : FileTree) : ¬IsConfined id →
    a.fetch id files = .error (.violation (.resourceId id)) ∧
      a.delete id files = (.error (.violation (.resourceId id)), files)
  fetches {files : FileTree} {path : Path} : a.fetch id files = .ok path → a.locate id = .ok path
  deletes {files : FileTree} {l : Files.Location} :
    (a.delete id files).2.node? l ≠ files.node? l → FileTree.isBelow a.root.place l = true
  looks {files files' : FileTree} : FileTree.AlikeBelow a.root files files' →
    a.fetch id files' = a.fetch id files ∧ (a.delete id files').1 = (a.delete id files).1

theorem confines (a : Artifacts) (id : String) : a.Confines id where
  accepts := by simp only [locate_ok_iff, exists_and_left, exists_eq, and_true]
  components h := by
    obtain ⟨hconfined, rfl⟩ := locate_ok_iff.1 h
    exact a.components_pathOf hconfined
  refuses files h := by
    have hlocate := a.locate_of_not_isConfined h
    exact ⟨by simp only [fetch, hlocate], by rw [delete, hlocate]; rfl⟩
  fetches h := (fetch_ok_iff.1 h).1
  deletes := isBelow_of_deleted
  looks := answers_of_alikeBelow

/-- Where the id of a project, a number, an identifier and a file leads to. -/
structure KeptThreeBelow (a : Artifacts) (p n : Int32) (u : Uuid) (source : Path) : Prop where
  located : ∃ path, a.locate (resourceId p n u (Version.fileNameOf source)) = .ok path ∧
    path.components = a.root.components ++ [.name (Text.utf8 (Text.numeralText p.toInt)),
      .name (Text.utf8 (Text.numeralText n.toInt)),
      .name (Text.utf8 (u.toText ++ "-" ++ Version.fileNameOf source))]
  stored {files : FileTree} {id : String} : (a.store u p n source files).1 = .ok id →
    id = resourceId p n u (Version.fileNameOf source)

theorem keptThreeBelow (a : Artifacts) (p n : Int32) (u : Uuid) (source : Path) :
    a.KeptThreeBelow p n u source where
  located := by
    have hslash := slash_not_mem_fileName source
    have hplain := isPlain_resourceId p n u hslash
    refine ⟨_, a.locate_of_isPlain hplain, ?_⟩
    rw [pathOf, Path.components_join a.root hplain.isInner, hplain.telling,
      segments_resourceId p n u hslash]
    rfl
  stored h := id_of_store (Prod.ext h rfl)

/-- Whatever id is asked for, its path lies at or below the root, and so does what is done there; an
id that could lead elsewhere is refused. Ids of kept archives lead three levels below the root. -/
theorem archives_stay_below_root (a : Artifacts) :
    (∀ id, a.Confines id) ∧ ∀ p n u source, a.KeptThreeBelow p n u source :=
  ⟨a.confines, a.keptThreeBelow⟩

example : (Artifacts.mk (.ofText "/r/.")).locate "a//./b/" = .ok (.ofText "/r/./a//./b/") := by
  decide +kernel

end ProjectRegistry.Artifacts
