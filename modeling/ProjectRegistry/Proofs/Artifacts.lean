import ProjectRegistry.Artifacts
import ProjectRegistry.Proofs.Files.Places
import ProjectRegistry.Proofs.Store.Steps
import ProjectRegistry.Proofs.Text.Digits
import ProjectRegistry.Proofs.Text.Hex

/-!
# Keeping archives

An archive is kept under an id that is known before anything is done to the files. Whatever the name
of the file, the id leads to a place below the root, and no two ids with different identifiers lead
to the same place. Keeping an archive adds one file, and taking it away removes that file.
-/

namespace ProjectRegistry

/-! ## Identifiers in texts -/

namespace Uuid

def figures (u : Uuid) (start count : Nat) : List Char :=
  ((u.bytes.drop start).take count).flatMap Text.Hex.ofByte

theorem toList_toText (u : Uuid) :
    u.toText.toList = u.figures 0 4 ++ '-' :: (u.figures 4 2 ++ '-' :: (u.figures 6 2 ++
      '-' :: (u.figures 8 2 ++ '-' :: u.figures 10 6))) := by
  simp [toText, Text.joinWith, figures]

theorem length_figures (u : Uuid) {start count : Nat} (h : start + count ≤ 16) :
    (u.figures start count).length = 2 * count := by
  rw [figures, Text.Hex.length_flatMap_ofByte, List.length_take, List.length_drop, u.size]
  omega

theorem bytes_eq_parts (u : Uuid) :
    u.bytes = (u.bytes.drop 0).take 4 ++ ((u.bytes.drop 4).take 2 ++ ((u.bytes.drop 6).take 2 ++
      ((u.bytes.drop 8).take 2 ++ (u.bytes.drop 10).take 6))) := by
  obtain ⟨bytes, hsize⟩ := u
  match bytes, hsize with
  | [_, _, _, _, _, _, _, _, _, _, _, _, _, _, _, _], _ => rfl

theorem toText_injective {u v : Uuid} (h : u.toText = v.toText) : u = v := by
  have hlength (start count : Nat) (hle : start + count ≤ 16) :
      (u.figures start count).length = (v.figures start count).length := by
    rw [u.length_figures hle, v.length_figures hle]
  have hlist := congrArg String.toList h
  rw [toList_toText, toList_toText] at hlist
  obtain ⟨h₀, hlist⟩ := List.append_inj hlist (hlength 0 4 (by omega))
  obtain ⟨h₁, hlist⟩ := List.append_inj (List.cons.inj hlist).2 (hlength 4 2 (by omega))
  obtain ⟨h₂, hlist⟩ := List.append_inj (List.cons.inj hlist).2 (hlength 6 2 (by omega))
  obtain ⟨h₃, hlist⟩ := List.append_inj (List.cons.inj hlist).2 (hlength 8 2 (by omega))
  have hbytes : u.bytes = v.bytes := by
    rw [u.bytes_eq_parts, v.bytes_eq_parts, Text.Hex.flatMap_ofByte_injective h₀,
      Text.Hex.flatMap_ofByte_injective h₁, Text.Hex.flatMap_ofByte_injective h₂,
      Text.Hex.flatMap_ofByte_injective h₃,
      Text.Hex.flatMap_ofByte_injective (List.cons.inj hlist).2]
  obtain ⟨us, _⟩ := u
  obtain ⟨vs, _⟩ := v
  cases hbytes
  rfl

theorem length_toText (u : Uuid) : u.toText.toList.length = 36 := by
  rw [toList_toText]
  simp [u.length_figures]

/-- An identifier is written with the figures of hexadecimal numbers, and with minuses. -/
theorem mem_toText {u : Uuid} {c : Char} (h : c ∈ u.toText.toList) :
    c = '-' ∨ ∃ m, m < 16 ∧ c = m.digitChar := by
  rw [toList_toText] at h
  simp only [List.mem_append, List.mem_cons] at h
  rcases h with h | h | h | h | h | h | h | h | h
  all_goals first | exact .inl h | exact .inr (Text.Hex.exists_of_mem_flatMap_ofByte h)

end Uuid

namespace Artifacts

open Files (FileTree Path slash)

/-! ## Resource ids -/

theorem utf8_append (s t : String) : Text.utf8 (s ++ t) = Text.utf8 s ++ Text.utf8 t := by
  rw [Text.utf8, String.toList_append, List.flatMap_append]
  rfl

/-- A text whose characters are all others has no slash among its bytes. -/
theorem slash_not_mem_utf8 {s : String} (h : ∀ c ∈ s.toList, c.toNat ≠ 47) :
    slash ∉ Text.utf8 s := by
  intro hslash
  obtain ⟨c, hc, hnat⟩ := Text.exists_of_mem_utf8 hslash (by decide)
  exact h c hc hnat

/-- The characters of numbers come neither before the minus nor between it and the figures. -/
theorem toNat_of_mem_numeral {n : Int} {c : Char} (h : c ∈ (Text.numeralText n).toList) :
    c.toNat ≠ 46 ∧ c.toNat ≠ 47 := by
  rw [Text.numeralText, String.toList_ofList] at h
  rcases Text.isDigit_or_minus h with hdigit | rfl
  · simp only [Char.isDigit, Bool.and_eq_true, decide_eq_true_eq] at hdigit
    have hlow : 48 ≤ c.toNat := hdigit.1
    omega
  · decide

theorem toNat_of_mem_uuid {u : Uuid} {c : Char} (h : c ∈ u.toText.toList) :
    c.toNat ≠ 46 ∧ c.toNat ≠ 47 := by
  have hfigure : ∀ m, m < 16 → m.digitChar.toNat ≠ 46 ∧ m.digitChar.toNat ≠ 47 := by decide
  rcases Uuid.mem_toText h with rfl | ⟨m, hm, rfl⟩
  · decide
  · exact hfigure m hm

/-- The three names of a resource id: a project, a number, and an identifier with a name. -/
theorem segments_resourceId (p n : Int32) (u : Uuid) {name : String}
    (hname : slash ∉ Text.utf8 name) :
    (Path.ofText (resourceId p n u name)).segments =
      [Text.utf8 (Text.numeralText p.toInt), Text.utf8 (Text.numeralText n.toInt),
        Text.utf8 (u.toText ++ "-" ++ name)] := by
  have hp := slash_not_mem_utf8 fun c (hc : c ∈ (Text.numeralText p.toInt).toList) =>
    (toNat_of_mem_numeral hc).2
  have hn := slash_not_mem_utf8 fun c (hc : c ∈ (Text.numeralText n.toInt).toList) =>
    (toNat_of_mem_numeral hc).2
  have hu := slash_not_mem_utf8 fun c (hc : c ∈ u.toText.toList) => (toNat_of_mem_uuid hc).2
  have hlast : slash ∉ Text.utf8 (u.toText ++ "-" ++ name) := by
    have hminus : slash ∉ Text.utf8 "-" := by decide
    rw [utf8_append, utf8_append, List.mem_append, List.mem_append]
    simp [hu, hminus, hname]
  have hbytes : Text.utf8 (resourceId p n u name) = Text.utf8 (Text.numeralText p.toInt) ++
      slash :: (Text.utf8 (Text.numeralText n.toInt) ++
        slash :: Text.utf8 (u.toText ++ "-" ++ name)) := by
    have hslash : Text.utf8 "/" = [slash] := by decide
    simp only [resourceId, utf8_append, hslash, List.append_assoc, List.cons_append]
    rfl
  rw [Path.segments, Path.ofText, hbytes, Text.splitAt_append, Text.splitAt_append,
    Text.splitAt_of_not_mem hp, Text.splitAt_of_not_mem hn, Text.splitAt_of_not_mem hlast]
  rfl

theorem isPlain_resourceId (p n : Int32) (u : Uuid) {name : String}
    (hname : slash ∉ Text.utf8 name) : (Path.ofText (resourceId p n u name)).IsPlain := by
  have hnumeral (n : Int) : Path.IsName (Text.utf8 (Text.numeralText n)) := by
    obtain ⟨c, cs, hcs⟩ := List.exists_cons_of_ne_nil (Text.decimalOf_ne_nil n)
    have hlist : (Text.numeralText n).toList = c :: cs := by rw [Text.numeralText, hcs]; simp
    refine Path.isName_utf8 (c := c) (by rw [hlist]; rfl) (toNat_of_mem_numeral (n := n) ?_).1
    rw [hlist]
    exact List.mem_cons_self
  have hlast : Path.IsName (Text.utf8 (u.toText ++ "-" ++ name)) := by
    obtain ⟨c, cs, hcs⟩ : ∃ c cs, u.toText.toList = c :: cs :=
      List.exists_cons_of_length_pos (by rw [u.length_toText]; decide)
    refine Path.isName_utf8 (c := c) ?_ (toNat_of_mem_uuid (u := u) ?_).1
    · rw [String.toList_append, String.toList_append, hcs]
      rfl
    · rw [hcs]
      exact List.mem_cons_self
  intro s hs
  rw [segments_resourceId p n u hname] at hs
  simp only [List.mem_cons, List.not_mem_nil, or_false] at hs
  rcases hs with rfl | rfl | rfl
  · exact hnumeral _
  · exact hnumeral _
  · exact hlast

/-- A name after a path has no slash. -/
theorem slash_not_mem_fileName (p : Path) : slash ∉ Text.utf8 (Version.fileNameOf p) :=
  Text.not_mem_utf8_decodeLossy (by decide) (by decide) p.slash_not_mem_fileName

/-- Where the archive of a resource id is. -/
def pathOf (a : Artifacts) (id : String) : Path := a.root.join (.ofText id)

/-- An id is located if its path is inner, and refused if not. -/
theorem locate_of_isInner (a : Artifacts) {id : String} (h : (Path.ofText id).IsInner) :
    a.locate id = .ok (a.pathOf id) := by
  refine if_pos ?_
  rw [h.components]
  simp

theorem locate_of_not_isInner (a : Artifacts) {id : String} (h : ¬(Path.ofText id).IsInner) :
    a.locate id = .error (.violation (.resourceId id)) := by
  refine if_neg fun hall => h (Path.isInner_iff.2 fun c hc => ?_)
  have hname := List.all_eq_true.1 hall c hc
  cases c with
  | name n => exact ⟨n, rfl⟩
  | root => cases hname
  | here => cases hname
  | up => cases hname

theorem locate_of_isPlain (a : Artifacts) {id : String} (h : (Path.ofText id).IsPlain) :
    a.locate id = .ok (a.pathOf id) :=
  a.locate_of_isInner h.isInner

/-- Archives at one place have one project, one number and one identifier. -/
theorem resourceId_of_place {a : Artifacts} {p n p' n' : Int32} {u u' : Uuid} {name name' : String}
    (hname : slash ∉ Text.utf8 name) (hname' : slash ∉ Text.utf8 name')
    (h : (a.pathOf (resourceId p n u name)).place =
      (a.pathOf (resourceId p' n' u' name')).place) :
    p = p' ∧ n = n' ∧ u = u' := by
  rw [pathOf, pathOf, Path.place_join_of_plain _ (isPlain_resourceId p n u hname),
    Path.place_join_of_plain _ (isPlain_resourceId p' n' u' hname'), List.append_cancel_left_eq,
    segments_resourceId p n u hname, segments_resourceId p' n' u' hname'] at h
  simp only [List.cons.injEq, and_true] at h
  obtain ⟨hp, hn, hlast⟩ := h
  have hnumber {m n : Int32} (hmn : Text.utf8 (Text.numeralText m.toInt) =
      Text.utf8 (Text.numeralText n.toInt)) : m = n :=
    Int32.toInt_inj.1 (Text.numeralText_injective (Text.utf8_injective hmn))
  refine ⟨hnumber hp, hnumber hn, Uuid.toText_injective ?_⟩
  have hlist := congrArg String.toList (Text.utf8_injective hlast)
  rw [String.toList_append, String.toList_append, String.toList_append, String.toList_append,
    List.append_assoc, List.append_assoc] at hlist
  exact String.toList_injective
    (List.append_inj hlist (by rw [u.length_toText, u'.length_toText])).1

/-! ## Keeping -/

variable {a : Artifacts} {fresh : Uuid} {project version : Int32} {source : Path}
    {files files' : FileTree}

theorem store_cases (a : Artifacts) (fresh : Uuid) (project version : Int32) (source : Path)
    (files : FileTree) :
    (∃ e, a.store fresh project version source files = (.error e, files)) ∨
      ∃ target, a.locate (resourceId project version fresh (Version.fileNameOf source)) =
        .ok target ∧
        let made := (files.makeDirectories target.parent).2
        (∃ e, a.store fresh project version source files = (.error e, made)) ∨
          ∃ kept, made.copy source target = .ok kept ∧
            a.store fresh project version source files =
              (.ok (resourceId project version fresh (Version.fileNameOf source)), kept) := by
  unfold store
  cases source.fileName?.isSome with
  | false => exact .inl ⟨_, rfl⟩
  | true =>
    rw [Step.require_true_bind]
    cases hlocate : a.locate (resourceId project version fresh (Version.fileNameOf source)) with
    | error e => exact .inl ⟨e, rfl⟩
    | ok target =>
      refine .inr ⟨target, rfl, ?_⟩
      rw [Step.lift_ok_bind, Step.bind_apply]
      simp only [onFiles]
      rcases hmade : files.makeDirectories target.parent with ⟨fault | _, made⟩
      · exact .inl ⟨_, rfl⟩
      · simp only [Step.bind_apply, replaceFiles, onFiles]
        cases hcopy : made.copy source target with
        | error fault => exact .inl ⟨_, rfl⟩
        | ok kept => exact .inr ⟨kept, rfl, rfl⟩

theorem id_of_store {id : String}
    (h : a.store fresh project version source files = (.ok id, files')) :
    id = resourceId project version fresh (Version.fileNameOf source) := by
  rcases a.store_cases fresh project version source files with
    ⟨e, he⟩ | ⟨target, _, ⟨e, he⟩ | ⟨kept, _, hkept⟩⟩
  · rw [h] at he
    cases he
  · rw [h] at he
    cases he
  · rw [h] at hkept
    cases hkept
    rfl

/-- An archive that was copied to where no file was can be taken away again. -/
theorem delete_copy {id : String} {target : Path} {kept : FileTree}
    (hlocate : a.locate id = .ok target) (hcopy : files.copy source target = .ok kept)
    (hfree : ∀ l content, files.locate target = .ok l → files.node? l ≠ some (.file content)) :
    a.delete id kept = (.ok (), files) := by
  unfold delete
  rw [hlocate, Step.lift_ok_bind, onFiles, FileTree.remove_copy hcopy hfree]

/-- An archive that is kept is one more file, with the content of its source. -/
theorem store_ok {id : String} {content : List UInt8} (hread : files.read source = .ok content)
    (h : a.store fresh project version source files = (.ok id, files')) :
    files.KeepsDirectories files' ∧
      files'.locate (a.pathOf id) = .ok (a.pathOf id).place ∧
      ∀ l c, files'.node? l = some (.file c) ↔
        if l = (a.pathOf id).place then c = content
        else files.node? l = some (.file c) := by
  have hid := id_of_store h
  have hplain : (Path.ofText id).IsPlain :=
    hid ▸ isPlain_resourceId project version fresh (slash_not_mem_fileName source)
  rcases a.store_cases fresh project version source files with
    ⟨e, he⟩ | ⟨target, hlocate, ⟨e, he⟩ | ⟨kept, hcopy, hkept⟩⟩
  · rw [h] at he
    cases he
  · rw [h] at he
    cases he
  · obtain ⟨-, rfl⟩ := Prod.mk.inj (h.symm.trans hkept)
    rw [← hid, locate_of_isPlain a hplain] at hlocate
    obtain rfl := Except.ok.inj hlocate
    obtain ⟨hfiles, hdirectories⟩ :=
      FileTree.makeDirectories_spares files (a.pathOf id).parent
    obtain ⟨l, content', hread', hl, hplace, rfl⟩ := FileTree.copy_ok hcopy
    obtain rfl := Except.ok.inj ((hfiles.read hdirectories hread).symm.trans hread')
    have hadded := FileTree.keepsDirectories_insert (.file content) hplace
    have hstay := hadded.locate hl
    obtain rfl := (FileTree.locate_ok_iff.1 hl).2.2
    refine ⟨hdirectories.trans hadded, hstay, fun l c => ?_⟩
    rw [FileTree.node?_insert _ hplace]
    by_cases hl : l = (a.pathOf id).place
    · rw [if_pos hl.symm, if_pos hl]
      simp [eq_comm]
    · rw [if_neg (Ne.symm hl), if_neg hl]
      exact hfiles l c

theorem store_error {e : Failure}
    (h : a.store fresh project version source files = (.error e, files')) :
    files.SameFiles files' ∧ files.KeepsDirectories files' := by
  rcases a.store_cases fresh project version source files with
    ⟨e, he⟩ | ⟨target, hlocate, ⟨e, he⟩ | ⟨kept, hcopy, hkept⟩⟩
  · cases h.symm.trans he
    exact ⟨.refl _, .refl _⟩
  · cases h.symm.trans he
    exact FileTree.makeDirectories_spares _ _
  · cases h.symm.trans hkept

/-! ## Taking away -/

/-- The place of the file that an id leads to, if there is one. -/
def fileOf? (a : Artifacts) (t : FileTree) (id : String) : Option Files.Location :=
  match a.locate id with
  | .error _ => none
  | .ok path =>
    match t.find path with
    | .ok (l, .file _) => some l
    | _ => none

theorem fileOf?_eq_some_iff {a : Artifacts} {t : FileTree} {id : String} {l : Files.Location} :
    a.fileOf? t id = some l ↔
      ∃ path content, a.locate id = .ok path ∧ t.locate path = .ok l ∧
        t.node? l = some (.file content) := by
  unfold fileOf?
  cases a.locate id with
  | error e => simp
  | ok path =>
    constructor
    · intro h
      simp only at h
      split at h
      · next l' content hfind =>
        cases h
        obtain ⟨hlocate, hnode⟩ := FileTree.find_ok_iff.1 hfind
        exact ⟨path, content, rfl, hlocate, hnode⟩
      · cases h
    · rintro ⟨_, content, hpath, hlocate, hnode⟩
      obtain rfl := Except.ok.inj hpath
      simp only [FileTree.find_ok_iff.2 ⟨hlocate, hnode⟩]

theorem delete_files (a : Artifacts) (id : String) (t : FileTree) :
    (a.delete id t).2 =
      match a.fileOf? t id with
      | some l => ⟨t.nodes.erase l⟩
      | none => t := by
  unfold delete fileOf?
  cases a.locate id with
  | error e => rfl
  | ok path =>
    simp only [Step.lift_ok_bind, onFiles, FileTree.remove]
    rcases t.find path with e | ⟨l, _ | _⟩
    · cases e <;> rfl
    · rfl
    · rfl

/-- The file of an id is taken away, if there is one, and nothing else. -/
theorem node?_delete_eq (a : Artifacts) (id : String) (t : FileTree) (l : Files.Location) :
    (a.delete id t).2.node? l = if a.fileOf? t id = some l then none else t.node? l := by
  rw [delete_files]
  cases hfile : a.fileOf? t id with
  | none => simp
  | some at_ =>
    obtain ⟨_, content, -, -, hnode⟩ := fileOf?_eq_some_iff.1 hfile
    simp only [FileTree.node?_erase (show t.node? at_ ≠ some .directory by simp [hnode]),
      Option.some.injEq]

theorem keepsDirectories_delete (a : Artifacts) (id : String) (files : FileTree) :
    files.KeepsDirectories (a.delete id files).2 := by
  intro l hl
  rw [node?_delete_eq, if_neg, hl]
  intro hfile
  obtain ⟨_, content, -, -, hnode⟩ := fileOf?_eq_some_iff.1 hfile
  rw [hl] at hnode
  cases hnode

/-- Taking an archive away makes no directory. -/
theorem directories_delete (a : Artifacts) (id : String) (files : FileTree) :
    (a.delete id files).2.KeepsDirectories files := by
  intro l hl
  rw [node?_delete_eq] at hl
  split at hl
  · cases hl
  · exact hl

theorem fileOf?_delete (a : Artifacts) (id id' : String) (t : FileTree) (l : Files.Location) :
    a.fileOf? (a.delete id t).2 id' = some l ↔
      a.fileOf? t id' = some l ∧ a.fileOf? t id ≠ some l := by
  rw [fileOf?_eq_some_iff, fileOf?_eq_some_iff]
  simp only [node?_delete_eq]
  constructor
  · rintro ⟨path, content, hpath, hlocate, hnode⟩
    split at hnode
    · cases hnode
    · next hother =>
      exact ⟨⟨path, content, hpath, (a.directories_delete id t).locate hlocate, hnode⟩, hother⟩
  · rintro ⟨⟨path, content, hpath, hlocate, hnode⟩, hother⟩
    exact ⟨path, content, hpath, (a.keepsDirectories_delete id t).locate hlocate,
      by rw [if_neg hother, hnode]⟩

/-- Of some ids, the files are taken away one after the other. -/
theorem node?_foldl_delete_eq (a : Artifacts) (ids : List String) (t : FileTree)
    (l : Files.Location) :
    (ids.foldl (fun t id => (a.delete id t).2) t).node? l =
      if ∃ id ∈ ids, a.fileOf? t id = some l then none else t.node? l := by
  induction ids generalizing t with
  | nil => simp
  | cons id ids ih =>
    rw [List.foldl_cons, ih, node?_delete_eq]
    simp only [fileOf?_delete, List.mem_cons, exists_eq_or_imp]
    by_cases hid : a.fileOf? t id = some l
    · simp [hid]
    · simp [hid]

/-- It does not matter of which of two ids the file is taken away first. -/
theorem delete_comm (a : Artifacts) (id id' : String) (t : FileTree) :
    (a.delete id' (a.delete id t).2).2 = (a.delete id (a.delete id' t).2).2 := by
  have hfind (id : String) (t : FileTree) (l : Files.Location) :
      (a.delete id t).2.nodes.find? l =
        if a.fileOf? t id = some l then none else t.nodes.find? l := by
    rw [delete_files]
    cases a.fileOf? t id with
    | none => simp
    | some at_ => simp only [Table.find?_erase, Option.some.injEq, eq_comm]
  refine congrArg FileTree.mk (Table.eq_of_find? fun l => ?_)
  simp only [hfind, fileOf?_delete]
  by_cases hid : a.fileOf? t id = some l
  · by_cases hid' : a.fileOf? t id' = some l <;> simp [hid, hid']
  · simp [hid]

/-- Nor does the order of several. -/
theorem foldl_delete_of_perm (a : Artifacts) {ids ids' : List String} (h : ids.Perm ids')
    (t : FileTree) :
    ids.foldl (fun t id => (a.delete id t).2) t = ids'.foldl (fun t id => (a.delete id t).2) t :=
  h.foldl_eq' (fun id _ id' _ t => a.delete_comm id id' t) t

theorem keepsDirectories_foldl_delete (a : Artifacts) (ids : List String) (t : FileTree) :
    t.KeepsDirectories (ids.foldl (fun t id => (a.delete id t).2) t) := by
  induction ids generalizing t with
  | nil => exact .refl t
  | cons id ids ih => exact (a.keepsDirectories_delete id t).trans (ih _)

/-- Whether two ids lead to one and the same file. -/
def SharesFile (a : Artifacts) (t : FileTree) (id id' : String) : Prop :=
  ∃ l, a.fileOf? t id = some l ∧ a.fileOf? t id' = some l

instance (a : Artifacts) (t : FileTree) (id id' : String) : Decidable (a.SharesFile t id id') :=
  decidable_of_iff ((a.fileOf? t id).isSome ∧ a.fileOf? t id = a.fileOf? t id') <| by
    rw [SharesFile, Option.isSome_iff_exists]
    constructor
    · rintro ⟨⟨l, hl⟩, hsame⟩
      exact ⟨l, hl, hsame ▸ hl⟩
    · rintro ⟨l, hl, hl'⟩
      exact ⟨⟨l, hl⟩, hl.trans hl'.symm⟩

theorem fetch_ok_iff {a : Artifacts} {t : FileTree} {id : String} {path : Path} :
    a.fetch id t = .ok path ↔ a.locate id = .ok path ∧ ∃ l n, t.find path = .ok (l, n) := by
  unfold fetch
  cases a.locate id with
  | error e => simp
  | ok target =>
    simp only [FileTree.pathExists]
    rcases hfind : t.find target with e | ⟨l, n⟩
    · constructor
      · intro h
        cases e <;> cases h
      · rintro ⟨h, l, n, hfind'⟩
        cases h
        cases hfind.symm.trans hfind'
    · constructor
      · intro h
        cases h
        exact ⟨rfl, l, n, hfind⟩
      · rintro ⟨h, -⟩
        exact h

/-- What was fetched is fetched still when other archives were taken away, unless one of them was in
the same file. -/
theorem fetch_foldl_delete {a : Artifacts} {t : FileTree} {id : String} {path : Path}
    (h : a.fetch id t = .ok path) (ids : List String) :
    a.fetch id (ids.foldl (fun t id => (a.delete id t).2) t) =
      if ∃ id' ∈ ids, a.SharesFile t id' id then .error (.notFound .artifact id) else .ok path := by
  obtain ⟨hpath, l, n, hfind⟩ := fetch_ok_iff.1 h
  obtain ⟨hlocate, hnode⟩ := FileTree.find_ok_iff.1 hfind
  have hlater := (a.keepsDirectories_foldl_delete ids t).locate hlocate
  have hnode' := a.node?_foldl_delete_eq ids t l
  split
  · next hshared =>
    obtain ⟨id', hid', l', hfile', hfile⟩ := hshared
    obtain ⟨_, content, hpath', hlocate', -⟩ := fileOf?_eq_some_iff.1 hfile
    obtain rfl := Except.ok.inj (hpath.symm.trans hpath')
    obtain rfl := Except.ok.inj (hlocate.symm.trans hlocate')
    rw [if_pos ⟨id', hid', hfile'⟩] at hnode'
    simp only [fetch, hpath, FileTree.pathExists, FileTree.find, hlater, hnode']
  · next hapart =>
    -- where the way ends in a directory, no file was there to be taken away
    have hstays : ¬ ∃ id' ∈ ids, a.fileOf? t id' = some l := by
      rintro ⟨id', hid', hfile'⟩
      obtain ⟨_, content, -, -, hcontent⟩ := fileOf?_eq_some_iff.1 hfile'
      exact hapart ⟨id', hid', l, hfile', fileOf?_eq_some_iff.2 ⟨path, content, hpath, hlocate,
        hcontent⟩⟩
    rw [if_neg hstays, hnode] at hnode'
    exact fetch_ok_iff.2 ⟨hpath, l, n, FileTree.find_ok_iff.2 ⟨hlater, hnode'⟩⟩

theorem fileOf?_of_isPlain (a : Artifacts) {id : String} (hplain : (Path.ofText id).IsPlain)
    (hlocate : files.locate (a.pathOf id) = .ok (a.pathOf id).place) (l : Files.Location) :
    a.fileOf? files id = some l ↔
      l = (a.pathOf id).place ∧ ∃ content, files.node? l = some (.file content) := by
  rw [fileOf?_eq_some_iff]
  constructor
  · rintro ⟨path, content, hpath, hl, hnode⟩
    obtain rfl := Except.ok.inj ((a.locate_of_isPlain hplain).symm.trans hpath)
    exact ⟨Except.ok.inj (hl.symm.trans hlocate), content, hnode⟩
  · rintro ⟨rfl, content, hnode⟩
    exact ⟨_, content, a.locate_of_isPlain hplain, hlocate, hnode⟩

/-- The files of ids that can be followed are taken away, those that are there, and no other. -/
theorem node?_foldl_delete (a : Artifacts) {ids : List String} {files : FileTree}
    (hids : ∀ id ∈ ids, (Path.ofText id).IsPlain ∧
      files.locate (a.pathOf id) = .ok (a.pathOf id).place) (l : Files.Location)
    (content : List UInt8) :
    (ids.foldl (fun files id => (a.delete id files).2) files).node? l = some (.file content) ↔
      files.node? l = some (.file content) ∧ ∀ id ∈ ids, l ≠ (a.pathOf id).place := by
  rw [node?_foldl_delete_eq]
  constructor
  · intro hnode
    split at hnode
    · cases hnode
    · next hstays =>
      refine ⟨hnode, fun id hid hl => hstays ⟨id, hid, ?_⟩⟩
      exact (a.fileOf?_of_isPlain (hids id hid).1 (hids id hid).2 l).2 ⟨hl, content, hnode⟩
  · rintro ⟨hnode, hothers⟩
    rw [if_neg, hnode]
    rintro ⟨id, hid, hfile⟩
    exact hothers id hid ((a.fileOf?_of_isPlain (hids id hid).1 (hids id hid).2 l).1 hfile).1

/-- An archive that is kept where no file was and then taken away leaves the files as they were. -/
theorem sameFiles_store_delete {id : String} {content : List UInt8}
    (hread : files.read source = .ok content)
    (h : a.store fresh project version source files = (.ok id, files'))
    (hfree : ∀ c, files.node? (a.pathOf id).place ≠ some (.file c)) :
    files.SameFiles (a.delete id files').2 ∧ files.KeepsDirectories (a.delete id files').2 := by
  obtain ⟨hdirectories, hlocate, hnodes⟩ := store_ok hread h
  have hplain : (Path.ofText id).IsPlain :=
    id_of_store h ▸ isPlain_resourceId project version fresh (slash_not_mem_fileName source)
  refine ⟨fun l c => ?_, hdirectories.trans (a.keepsDirectories_delete id files')⟩
  have hnode := a.node?_foldl_delete (List.forall_mem_singleton.2 ⟨hplain, hlocate⟩) l c
  simp only [List.foldl_cons, List.foldl_nil, List.forall_mem_singleton] at hnode
  rw [hnode, hnodes]
  by_cases hl : l = (a.pathOf id).place
  · rw [hl]
    exact ⟨fun h => absurd rfl h.2, fun h => absurd h (hfree c)⟩
  · simp [hl]

end Artifacts

end ProjectRegistry
