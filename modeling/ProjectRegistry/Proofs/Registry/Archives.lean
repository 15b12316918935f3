import ProjectRegistry.Proofs.Registry.Atomicity
import ProjectRegistry.Proofs.Registry.Numbers
import ProjectRegistry.Proofs.Store.Answers

/-!
# Archives and versions

Versions are kept in a store and archives in files, and no transaction spans both. Still the two
stay in step as long as versions come from uploads alone, every upload draws an identifier of its
own, and nobody else writes below the root: after each call there is one file for each version, with
the bytes that its source had at that time, and no other file.

Others may do to files what they like elsewhere. Sources change, come and go; only the way to the
root has to stay.
-/

namespace ProjectRegistry

open Files (FileTree Path slash)

variable {C : Columns} {M : Medium C}

/-! ## Files that are the archives of versions -/

/-- An archive as it was uploaded. -/
structure Archive where
  project : Int32
  number : Int32
  id : String
  content : List UInt8

/-- Whether the id of an archive has an identifier that was drawn. -/
def Archive.DrawnFrom (used : List Uuid) (archive : Archive) : Prop :=
  ∃ u ∈ used, ∃ name, slash ∉ Text.utf8 name ∧
    archive.id = Artifacts.resourceId archive.project archive.number u name

/-- The last archive that was uploaded as a version. -/
def lastArchive? (p n : Int32) (as : List Archive) : Option Archive :=
  as.reverse.find? fun archive => archive.project = p ∧ archive.number = n

theorem lastArchive?_snoc (p n : Int32) (as : List Archive) (archive : Archive) :
    lastArchive? p n (as ++ [archive]) =
      if archive.project = p ∧ archive.number = n then some archive else lastArchive? p n as := by
  rw [lastArchive?, List.reverse_append, List.reverse_singleton, List.singleton_append,
    List.find?_cons]
  by_cases h : archive.project = p ∧ archive.number = n
  · simp [h]
  · rw [if_neg h, decide_eq_false h]
    rfl

theorem mem_of_lastArchive? {p n : Int32} {as : List Archive} {archive : Archive}
    (h : lastArchive? p n as = some archive) :
    archive ∈ as ∧ archive.project = p ∧ archive.number = n := by
  have hkey := List.find?_some h
  rw [decide_eq_true_eq] at hkey
  exact ⟨List.mem_reverse.1 (List.mem_of_find?_eq_some h), hkey⟩

/-- Whether the files below the root are the archives of the versions that there are, each with what
was uploaded last under its number. -/
structure Artifacts.Keeps (a : Artifacts) (M : Medium C)
    (versions : Table (Int32 × Int32) (VersionRow C)) (as : List Archive) (t : FileTree) :
    Prop where
  kept {p n : Int32} {row : VersionRow C} : versions.find? (p, n) = some row →
    ∃ archive, lastArchive? p n as = some archive ∧ row.resourceId = archive.id ∧
      row.digest = M.digest (.ofContent archive.content) ∧
      t.find (a.pathOf row.resourceId) =
        .ok ((a.pathOf row.resourceId).place, .file archive.content)
  only {l : Files.Location} {content : List UInt8} : FileTree.isBelow a.root.place l = true →
    t.node? l = some (.file content) →
      ∃ p n row, versions.find? (p, n) = some row ∧ l = (a.pathOf row.resourceId).place

namespace Artifacts.Keeps

variable {a : Artifacts} {versions : Table (Int32 × Int32) (VersionRow C)} {as : List Archive}
  {used : List Uuid} {t t' : FileTree} {p n : Int32} {row : VersionRow C}

/-- The resource id of a version has its number and an identifier that was drawn. -/
theorem id_eq (h : a.Keeps M versions as t) (hdrawn : ∀ archive ∈ as, archive.DrawnFrom used)
    (hrow : versions.find? (p, n) = some row) :
    ∃ u ∈ used, ∃ name, slash ∉ Text.utf8 name ∧ row.resourceId = resourceId p n u name := by
  obtain ⟨archive, hlast, hid, -⟩ := h.kept hrow
  obtain ⟨hmem, rfl, rfl⟩ := mem_of_lastArchive? hlast
  rw [hid]
  exact hdrawn archive hmem

theorem plain (h : a.Keeps M versions as t) (hdrawn : ∀ archive ∈ as, archive.DrawnFrom used)
    (hrow : versions.find? (p, n) = some row) : (Path.ofText row.resourceId).IsPlain := by
  obtain ⟨u, -, name, hname, hid⟩ := h.id_eq hdrawn hrow
  rw [hid]
  exact isPlain_resourceId p n u hname

/-- Different versions have their archives at different places. -/
theorem apart (h : a.Keeps M versions as t) (hdrawn : ∀ archive ∈ as, archive.DrawnFrom used)
    {p' n' : Int32} {row' : VersionRow C} (hrow : versions.find? (p, n) = some row)
    (hrow' : versions.find? (p', n') = some row')
    (hplace : (a.pathOf row.resourceId).place = (a.pathOf row'.resourceId).place) :
    p = p' ∧ n = n' := by
  obtain ⟨u, -, name, hname, hid⟩ := h.id_eq hdrawn hrow
  obtain ⟨u', -, name', hname', hid'⟩ := h.id_eq hdrawn hrow'
  rw [hid, hid'] at hplace
  obtain ⟨hp, hn, -⟩ := resourceId_of_place hname hname' hplace
  exact ⟨hp, hn⟩

/-- An identifier that was never drawn leads to a place of its own. -/
theorem place_ne (h : a.Keeps M versions as t) (hdrawn : ∀ archive ∈ as, archive.DrawnFrom used)
    {u : Uuid} (hfresh : u ∉ used) {p' n' : Int32} {name : String} (hname : slash ∉ Text.utf8 name)
    (hrow : versions.find? (p, n) = some row) :
    (a.pathOf (resourceId p' n' u name)).place ≠ (a.pathOf row.resourceId).place := by
  obtain ⟨u', hu', name', hname', hid⟩ := h.id_eq hdrawn hrow
  intro hplace
  rw [hid] at hplace
  obtain ⟨-, -, rfl⟩ := resourceId_of_place hname hname' hplace
  exact hfresh hu'

theorem free (h : a.Keeps M versions as t) (hdrawn : ∀ archive ∈ as, archive.DrawnFrom used)
    {u : Uuid} (hfresh : u ∉ used) {p n : Int32} {name : String} (hname : slash ∉ Text.utf8 name)
    (content : List UInt8) :
    t.node? (a.pathOf (resourceId p n u name)).place ≠ some (.file content) := by
  intro hfile
  obtain ⟨p', n', row, hrow, hplace⟩ :=
    h.only (FileTree.isBelow_join a.root (isPlain_resourceId p n u hname).isInner) hfile
  exact h.place_ne hdrawn hfresh hname hrow hplace

/-- Directories may come as they like. -/
theorem of_sameFiles (h : a.Keeps M versions as t) (hfiles : t.SameFiles t')
    (hdirectories : t.KeepsDirectories t') : a.Keeps M versions as t' where
  kept hrow := by
    obtain ⟨archive, hlast, hid, hdigest, hfind⟩ := h.kept hrow
    obtain ⟨hlocate, hnode⟩ := FileTree.find_ok_iff.1 hfind
    exact ⟨archive, hlast, hid, hdigest,
      FileTree.find_ok_iff.2 ⟨hdirectories.locate hlocate, (hfiles _ _).2 hnode⟩⟩
  only hbelow hnode := h.only hbelow ((hfiles _ _).1 hnode)

/-- Others may change what is not below the root. -/
theorem of_spares (h : a.Keeps M versions as t) (hdrawn : ∀ archive ∈ as, archive.DrawnFrom used)
    (hspares : FileTree.Spares a.root t t') : a.Keeps M versions as t' where
  kept hrow := by
    obtain ⟨archive, hlast, hid, hdigest, hfind⟩ := h.kept hrow
    obtain ⟨hlocate, hnode⟩ := FileTree.find_ok_iff.1 hfind
    have hinner := (h.plain hdrawn hrow).isInner
    have hsame := hspares.below (FileTree.isBelow_join a.root hinner)
    exact ⟨archive, hlast, hid, hdigest,
      FileTree.find_ok_iff.2 ⟨hspares.locate hinner hlocate, hsame.trans hnode⟩⟩
  only hbelow hnode := h.only hbelow ((hspares.below hbelow).symm.trans hnode)

/-- A version that is registered with its archive. -/
theorem register (h : a.Keeps M versions as t) (hdrawn : ∀ archive ∈ as, archive.DrawnFrom used)
    {u : Uuid} (hfresh : u ∉ used) {name : String} (hname : slash ∉ Text.utf8 name)
    {content : List UInt8} (hnew : versions.contains (p, n) = false)
    (hid : row.resourceId = resourceId p n u name)
    (hdigest : row.digest = M.digest (.ofContent content)) (hkeeps : t.KeepsDirectories t')
    (hlocate : t'.locate (a.pathOf row.resourceId) = .ok (a.pathOf row.resourceId).place)
    (hnodes : ∀ l c, t'.node? l = some (.file c) ↔
      if l = (a.pathOf row.resourceId).place then c = content else t.node? l = some (.file c)) :
    a.Keeps M (versions.insert (p, n) row) (as ++ [⟨p, n, row.resourceId, content⟩]) t' where
  kept {q m row'} hrow' := by
    rw [Table.find?_insert] at hrow'
    rw [lastArchive?_snoc]
    by_cases hkey : (p, n) = (q, m)
    · rw [if_pos hkey] at hrow'
      cases hrow'
      obtain ⟨rfl, rfl⟩ := Prod.mk.inj hkey
      refine ⟨_, if_pos ⟨rfl, rfl⟩, rfl, hdigest, FileTree.find_ok_iff.2 ⟨hlocate, ?_⟩⟩
      rw [hnodes, if_pos rfl]
    · rw [if_neg hkey] at hrow'
      obtain ⟨archive, hlast, hid', hdigest', hfind⟩ := h.kept hrow'
      obtain ⟨hlocate', hnode⟩ := FileTree.find_ok_iff.1 hfind
      have hplace : (a.pathOf (resourceId p n u name)).place ≠ (a.pathOf row'.resourceId).place :=
        h.place_ne hdrawn hfresh hname hrow'
      rw [← hid] at hplace
      refine ⟨archive, ?_, hid', hdigest', FileTree.find_ok_iff.2 ⟨hkeeps.locate hlocate', ?_⟩⟩
      · rw [if_neg fun he => hkey (Prod.ext he.1 he.2), hlast]
      · rw [hnodes, if_neg (Ne.symm hplace), hnode]
  only {l c} hbelow hnode := by
    rw [hnodes] at hnode
    by_cases hl : l = (a.pathOf row.resourceId).place
    · exact ⟨p, n, row, Table.find?_insert_self _ _ _, hl⟩
    · rw [if_neg hl] at hnode
      obtain ⟨q, m, row', hrow', hplace⟩ := h.only hbelow hnode
      refine ⟨q, m, row', ?_, hplace⟩
      rw [Table.find?_insert_of_ne _ _ fun hkey => ?_, hrow']
      rw [hkey, Table.contains_of_find? hrow'] at hnew
      cases hnew

/-- Versions that go with their archives. -/
theorem remove (h : a.Keeps M versions as t) (hdrawn : ∀ archive ∈ as, archive.DrawnFrom used)
    (gone : Int32 → Int32 → Bool) {ids : List String}
    (hids : ∀ id, id ∈ ids ↔ ∃ p n row, versions.find? (p, n) = some row ∧ gone p n = true ∧
      row.resourceId = id) :
    a.Keeps M (versions.filter fun k _ => !gone k.1 k.2) as
      (ids.foldl (fun t id => (a.delete id t).2) t) := by
  have hplaces : ∀ id ∈ ids, (Path.ofText id).IsPlain ∧
      t.locate (a.pathOf id) = .ok (a.pathOf id).place := by
    intro id hid
    obtain ⟨p, n, row, hrow, -, rfl⟩ := (hids id).1 hid
    obtain ⟨archive, -, -, -, hfind⟩ := h.kept hrow
    exact ⟨h.plain hdrawn hrow, (FileTree.find_ok_iff.1 hfind).1⟩
  have hkeeps := a.keepsDirectories_foldl_delete ids t
  have hnodes := a.node?_foldl_delete hplaces
  refine ⟨fun {p n row} hrow => ?_, fun {l c} hbelow hnode => ?_⟩
  · rw [Table.find?_filterKeys versions fun k => !gone k.1 k.2] at hrow
    split at hrow
    · next hstays =>
      obtain ⟨archive, hlast, hid, hdigest, hfind⟩ := h.kept hrow
      obtain ⟨hlocate, hnode⟩ := FileTree.find_ok_iff.1 hfind
      refine ⟨archive, hlast, hid, hdigest, FileTree.find_ok_iff.2 ⟨hkeeps.locate hlocate, ?_⟩⟩
      refine (hnodes _ _).2 ⟨hnode, fun id hid hplace => ?_⟩
      obtain ⟨q, m, row', hrow', hgone, rfl⟩ := (hids id).1 hid
      obtain ⟨rfl, rfl⟩ := h.apart hdrawn hrow hrow' hplace
      simp [hgone] at hstays
    · cases hrow
  · obtain ⟨hnode, hothers⟩ := (hnodes l c).1 hnode
    obtain ⟨p, n, row, hrow, hplace⟩ := h.only hbelow hnode
    refine ⟨p, n, row, ?_, hplace⟩
    rw [Table.find?_filterKeys versions fun k => !gone k.1 k.2, if_pos, hrow]
    rw [Bool.not_eq_true']
    refine Bool.eq_false_iff.2 fun hgone => ?_
    exact hothers row.resourceId ((hids _).2 ⟨p, n, row, hrow, hgone, rfl⟩) hplace

end Artifacts.Keeps

/-! ## Steps -/

/-- Changes that have nothing to do with versions. -/
def Change.SparesVersions : Change → Prop
  | .register _ | .clean .. => False
  | _ => True

theorem Change.versions_applyAll {cs : List Change} (h : ∀ c ∈ cs, c.SparesVersions)
    (r : Relations C) : (applyAll M cs r).versions = r.versions := by
  induction cs generalizing r with
  | nil => rfl
  | cons c cs ih =>
    rw [applyAll_cons, ih fun d hd => h d (List.mem_cons_of_mem c hd)]
    have hc := h c List.mem_cons_self
    cases c <;> first | rfl | exact hc.elim

/-- A reader that reads resource ids as they are written. -/
def Reader.ReadsIds (R : Reader C) : Prop :=
  ∀ {row : VersionRow C} {read : VersionRow live}, R.version row = .ok read →
    read.resourceId = row.resourceId

namespace Registry

variable {σ : Type} [Store σ] {V : View σ} {R : Reader V.C} {a : Artifacts} {r r' : Registry σ}
  {as : List Archive} {used : List Uuid}

/-- A registry whose files are the archives of its versions. -/
structure Tidy (V : View σ) (a : Artifacts) (r : Registry σ) (as : List Archive)
    (used : List Uuid) : Prop where
  artifacts : r.artifacts = a
  keeps : a.Keeps V.M (V.relations r.store).versions as r.files
  drawn : ∀ archive ∈ as, archive.DrawnFrom used

omit [Store σ] in
theorem Tidy.of_same (h : Tidy V a r as used) (hartifacts : r'.artifacts = r.artifacts)
    (hfiles : r'.files = r.files)
    (hversions : (V.relations r'.store).versions = (V.relations r.store).versions) :
    Tidy V a r' as used := by
  refine ⟨hartifacts.trans h.artifacts, ?_, h.drawn⟩
  rw [hfiles, hversions]
  exact h.keeps

omit [Store σ] in
theorem foldl_discard_files (vs : List Version) (r : Registry σ) :
    (vs.foldl (fun r v => r.discard v.resourceId) r).artifacts = r.artifacts ∧
      (vs.foldl (fun r v => r.discard v.resourceId) r).files =
        (vs.map (·.resourceId)).foldl (fun t id => (r.artifacts.delete id t).2) r.files := by
  induction vs generalizing r with
  | nil => exact ⟨rfl, rfl⟩
  | cons v vs ih =>
    obtain ⟨hartifacts, hfiles⟩ := ih (r.discard v.resourceId)
    exact ⟨hartifacts, hfiles⟩

theorem tidy_clean (hV : V.Lawful) (hA : V.Answers R) (hR : R.ReadsIds) (hr : V.Good r.store)
    (h : Tidy V a r as used) (p bound : Int32) : Tidy V a (clean p bound r).2 as used := by
  have hclean := hV.clean hr r.limits p bound
  rw [clean_eq]
  rcases hx : Store.clean p bound r.store with ⟨e | removed, store⟩
  · rw [show store = r.store from hclean.of_error hx]
    exact h
  · obtain ⟨-, cs, rfl, hfit, hrelations⟩ := hclean.of_ok hx
    have hp := Change.allFit_singleton.1 hfit
    have hread := hA.clean hr hp bound
    rw [hx] at hread
    obtain ⟨hartifacts, hfiles⟩ := foldl_discard_files removed { r with store }
    have hstore := (foldl_discard removed { r with store }).1
    have hids : removed.map (·.resourceId) =
        ((V.relations r.store).doomedOf V.M p bound).map (·.2.resourceId) := by
      refine map_of_loadAll_ok (fun e v he => ?_) hread.symm
      obtain ⟨row, hrow, rfl⟩ := exists_of_map_ok he
      exact hR hrow
    refine ⟨hartifacts.trans h.artifacts, ?_, h.drawn⟩
    simp only [hfiles, hstore]
    rw [hrelations, hids, h.artifacts]
    refine h.keeps.remove h.drawn
      (fun q m => decide (q = p) && (V.relations r.store).isDoomed V.M p bound m)
      fun id => ?_
    simp only [List.mem_map, Relations.doomedOf, List.mem_filter, Bool.and_eq_true,
      decide_eq_true_eq]
    constructor
    · rintro ⟨⟨m, row⟩, ⟨hrow, hdoomed⟩, rfl⟩
      exact ⟨p, m, row, Relations.mem_versionsOf_iff.1 hrow, ⟨rfl, hdoomed⟩, rfl⟩
    · rintro ⟨q, m, row, hrow, ⟨rfl, hdoomed⟩, rfl⟩
      exact ⟨(m, row), ⟨Relations.mem_versionsOf_iff.2 hrow, hdoomed⟩, rfl⟩

theorem tidy_postEvent (hV : V.Lawful) (hr : V.Good r.store) (h : Tidy V a r as used)
    (now : Time.Instant) (p : Project) (kind : EventKind) (user message : String) :
    Tidy V a { r with store := (Store.postEvent now p kind user message r.store).2 } as used := by
  obtain ⟨-, cs, hcs, -, hrelations⟩ :=
    (hV.postEvent hr r.limits now p kind user message).of_ok rfl
  refine h.of_same rfl rfl ?_
  simp only [hrelations]
  refine Change.versions_applyAll (fun c hc => ?_) _
  rw [hcs] at hc
  split at hc
  · rw [List.mem_singleton.1 hc]
    trivial
  · cases hc

theorem tidy_sweepProject (hV : V.Lawful) (hA : V.Answers R) (hR : R.ReadsIds)
    (hr : V.Good r.store) (h : Tidy V a r as used) (now : Time.Instant) (retained : Nat)
    (p : Project) : Tidy V a (sweepProject now retained p r).2 as used := by
  rw [sweepProject_eq]
  cases Store.versions p.id r.store with
  | error e => exact h
  | ok versions =>
    cases hthreshold : (newest? versions).bind (threshold? retained) with
    | none =>
      simp only [hthreshold]
      exact h
    | some threshold =>
      have hclean := tidy_clean hV hA hR hr h p.id threshold
      have hgood := (journals_clean hV hr p.id threshold).becomes hr (P := fun _ => True)
        fun _ _ _ _ _ _ => trivial
      simp only [hthreshold]
      rcases hx : clean p.id threshold r with ⟨e | removed, r'⟩
      · rw [hx] at hclean
        exact hclean
      · rw [hx] at hclean hgood
        cases hempty : removed.isEmpty with
        | true =>
          simp only [hempty, if_true]
          exact hclean
        | false =>
          simp only [hempty, Bool.false_eq_true, if_false]
          exact tidy_postEvent hV hgood.2.1 hclean now p .purge sweeper _

theorem tidy_sweepAll (hV : V.Lawful) (hA : V.Answers R) (hR : R.ReadsIds) (now : Time.Instant)
    (retained : Nat) (ps : List Project) {r : Registry σ} (hr : V.Good r.store)
    (h : Tidy V a r as used) : Tidy V a (sweepAll now retained ps r).2 as used := by
  induction ps generalizing r with
  | nil => exact h
  | cons p rest ih =>
    have hgood := becomes_sweepProject hV hr now retained p
    have hstep := tidy_sweepProject hV hA hR hr h now retained p
    unfold sweepAll
    rcases hx : sweepProject now retained p r with ⟨e | removed, r'⟩
    · rw [hx] at hgood hstep
      exact ih hgood.2.1 hstep
    · rw [hx] at hgood hstep
      exact ih hgood.2.1 hstep

/-! ## Uploads -/

omit [Store σ] in
theorem digestOf_ok {file : Path} {digest : Digest} (h : r.digestOf file = .ok digest) :
    ∃ content, r.files.read file = .ok content ∧ digest = .ofContent content := by
  unfold digestOf at h
  cases hread : r.files.read file with
  | error e => simp [hread] at h
  | ok content =>
    simp only [hread, Except.ok.injEq] at h
    exact ⟨content, rfl, h.symm⟩

/-- An upload that is refused leaves no archive, in whatever state the store is. -/
theorem tidy_of_refused_upload (hσ : Store.IsAtomic σ) (h : Tidy V a r as used) {tick : Tick}
    {p n : Int32} {file : Path} {user : String} (hfresh : tick.fresh ∉ used) {e : Failure}
    (he : (uploadFile tick p n file user r).1 = .error e) :
    (uploadFile tick p n file user r).2.store = r.store ∧
      (uploadFile tick p n file user r).2.artifacts = r.artifacts ∧
      r.files.SameFiles (uploadFile tick p n file user r).2.files ∧
      Tidy V a (uploadFile tick p n file user r).2 as used := by
  obtain rfl := h.artifacts
  cases hdigest : r.digestOf file with
  | error e =>
    rw [uploadFile_of_unreadable hdigest]
    exact ⟨rfl, rfl, .refl _, h⟩
  | ok digest =>
    obtain ⟨content, hread, -⟩ := digestOf_ok hdigest
    rw [uploadFile_eq hdigest] at he ⊢
    rcases hstored : r.artifacts.store tick.fresh p n file r.files with ⟨e | id, files⟩
    · obtain ⟨hfiles, hdirectories⟩ := Artifacts.store_error hstored
      exact ⟨rfl, rfl, hfiles, rfl, h.keeps.of_sameFiles hfiles hdirectories, h.drawn⟩
    · have hadd := hσ.addVersion (.ofUpload p n file user digest id tick.now) r.store
      rcases hx : Store.addVersion (.ofUpload p n file user digest id tick.now) r.store with
        ⟨e | _, store⟩
      · rw [hx] at hadd
        have hstore : store = r.store := hadd e rfl
        have hfree (c : List UInt8) :
            r.files.node? (r.artifacts.pathOf id).place ≠ some (.file c) :=
          Artifacts.id_of_store hstored ▸
            h.keeps.free h.drawn hfresh (Artifacts.slash_not_mem_fileName file) c
        obtain ⟨hfiles, hdirectories⟩ := Artifacts.sameFiles_store_delete hread hstored hfree
        simp only [hx, hstore]
        exact ⟨rfl, rfl, hfiles, rfl, h.keeps.of_sameFiles hfiles hdirectories, h.drawn⟩
      · simp only [hstored, hx] at he
        cases he

theorem tidy_of_upload (hV : V.Lawful) (hr : V.Good r.store) (h : Tidy V a r as used) {tick : Tick}
    {p n : Int32} {file : Path} {user : String} (hfresh : tick.fresh ∉ used)
    (hok : (uploadFile tick p n file user r).1 = .ok ()) :
    (uploadFile tick p n file user r).2.artifacts = r.artifacts ∧
    ∃ content, r.files.read file = .ok content ∧
      Tidy V a (uploadFile tick p n file user r).2
        (as ++ [⟨p, n, Artifacts.resourceId p n tick.fresh (Version.fileNameOf file), content⟩])
        (used ++ [tick.fresh]) := by
  obtain rfl := h.artifacts
  have hname := Artifacts.slash_not_mem_fileName file
  cases hdigest : r.digestOf file with
  | error e =>
    rw [uploadFile_of_unreadable hdigest] at hok
    cases hok
  | ok digest =>
    obtain ⟨content, hread, rfl⟩ := digestOf_ok hdigest
    rw [uploadFile_eq hdigest] at hok ⊢
    rcases hstored : r.artifacts.store tick.fresh p n file r.files with ⟨e | id, files⟩
    · simp only [hstored] at hok
      cases hok
    · obtain ⟨hdirectories, hlocate, hnodes⟩ := Artifacts.store_ok hread hstored
      have hid := Artifacts.id_of_store hstored
      have hadd := hV.addVersion hr r.limits
        (.ofUpload p n file user (.ofContent content) id tick.now)
      rcases hx : Store.addVersion (.ofUpload p n file user (.ofContent content) id tick.now)
        r.store with ⟨e | _, store⟩
      · simp only [hstored, hx] at hok
        cases hok
      · obtain ⟨-, cs, rfl, hfit, hrelations⟩ := hadd.of_ok hx
        obtain ⟨-, hnew, -⟩ := Change.allFit_singleton.1 hfit
        simp only [hx]
        refine ⟨trivial, content, hread, rfl, ?_, fun archive harchive => ?_⟩
        · rw [← hid]
          simp only [hrelations]
          exact h.keeps.register h.drawn hfresh hname hnew hid rfl hdirectories hlocate hnodes
        · rcases List.mem_append.1 harchive with hmem | hmem
          · obtain ⟨u, hu, hid⟩ := h.drawn archive hmem
            exact ⟨u, List.mem_append_left _ hu, hid⟩
          · rw [List.mem_singleton.1 hmem]
            exact ⟨tick.fresh, by simp, Version.fileNameOf file, hname, rfl⟩

end Registry

/-! ## Calls -/

/-- Calls that do nothing to versions and their archives. -/
def Call.IsQuiet : Call → Prop
  | .addVersion .. | .uploadFile .. | .clean .. | .sweep .. => False
  | _ => True

theorem Call.Makes.sparesVersions {σ : Type} {r : Registry σ} {tick : Tick} {call : Call}
    {reply : Reply} {cs : List Change} (h : call.Makes r tick reply cs) (hquiet : call.IsQuiet) :
    ∀ c ∈ cs, c.SparesVersions := by
  cases call
  case addVersion | uploadFile | clean | sweep => exact hquiet.elim
  case createProject | configure | putBundle | putBundles =>
    obtain ⟨_, _, rfl⟩ := h
    simp [Change.SparesVersions]
  case removeProject p user => rcases h with rfl | rfl <;> simp [Change.SparesVersions]
  case setRights p principal isGroup rights =>
    simp only [Call.Makes] at h
    split at h <;> simp [h, Change.SparesVersions]
  case postEvent p kind user message =>
    simp only [Call.Makes] at h
    split at h <;> simp [h, Change.SparesVersions]
  all_goals
    simp only [Call.Makes] at h
    simp [h, Change.SparesVersions]

namespace Registry

variable {σ : Type} [Store σ] {V : View σ} {R : Reader V.C} {a : Artifacts} {r r' : Registry σ}
  {as : List Archive} {used : List Uuid}

/-- Whether a registry has its archives where another one has them, and the same files. -/
def SameArchives (r r' : Registry σ) : Prop := r'.artifacts = r.artifacts ∧ r'.files = r.files

omit [Store σ] in
theorem sameArchives_onStore {α : Type} {x : Step σ α} {f : α → Reply} :
    SameArchives r ((onStore x >>= fun a => pure (f a)) r).2 := by
  rw [Step.map_apply, onStore_apply]
  exact ⟨rfl, rfl⟩

omit [Store σ] in
theorem sameArchives_read {α : Type} {q : Registry σ → Except Failure α} {f : α → Reply} :
    SameArchives r ((Step.read q >>= fun a => pure (f a)) r).2 := by
  rw [Step.map_apply, Step.read_apply]
  exact ⟨rfl, rfl⟩

theorem sameArchives_perform (tick : Tick) {call : Call} (hquiet : call.IsQuiet) :
    SameArchives r (perform tick call r).2 := by
  cases call
  case addVersion | uploadFile | clean | sweep => exact hquiet.elim
  case postEvent => exact ⟨rfl, rfl⟩
  case createProject | removeProject | describe | configure | setRights | dropRights |
      changeVersion | putBundle | putBundles | putFlow | putFlows | updateFlow =>
    exact sameArchives_onStore
  all_goals exact sameArchives_read

theorem tidy_of_quiet (hV : V.Lawful) (hr : V.Good r.store) (h : Tidy V a r as used) (tick : Tick)
    {call : Call} (hquiet : call.IsQuiet) : Tidy V a (perform tick call r).2 as used := by
  obtain ⟨hartifacts, hfiles⟩ := sameArchives_perform (r := r) tick hquiet
  refine h.of_same hartifacts hfiles ?_
  have hjournal := perform_journals hV hr tick call
  rcases hx : perform tick call r with ⟨e | reply, r'⟩
  · rw [(hjournal.of_error hx).2]
  · obtain ⟨-, -, cs, hcs, -, hrelations⟩ := hjournal.of_ok hx
    rw [hrelations, Change.versions_applyAll (hcs.sparesVersions hquiet)]

end Registry

/-! ## Whole runs -/

/-- What happens to a registry: it is called, or others leave files as they want them. -/
inductive Move where
  | call (tick : Tick) (call : Call)
  | others (files : FileTree)

/-- The identifier that an upload draws. -/
def Move.drawn? : Move → Option Uuid
  | .call tick (.uploadFile ..) => some tick.fresh
  | _ => none

def Registry.move {σ : Type} [Store σ] (r : Registry σ) : Move → Registry σ
  | .call tick call => (perform tick call r).2
  | .others files => { r with files }

namespace Registry

variable {σ : Type} [Store σ]

def moved (r : Registry σ) (moves : List Move) : Registry σ := moves.foldl move r

/-- The archive that an upload leaves if it is answered: what the file holds at that moment. -/
def archived? (r : Registry σ) : Move → Option Archive
  | .call tick (.uploadFile p n file user) =>
    match (perform tick (.uploadFile p n file user) r).1, r.files.read file with
    | .ok _, .ok content =>
      some ⟨p, n, Artifacts.resourceId p n tick.fresh (Version.fileNameOf file), content⟩
    | _, _ => none
  | _ => none

/-- The archives that were uploaded along some moves, in their order. -/
def archives : Registry σ → List Move → List Archive
  | _, [] => []
  | r, m :: ms => (r.archived? m).toList ++ (r.move m).archives ms

/-- Whether no version is registered but by an upload, and others keep away from what is below the
root. -/
def IsFair (r : Registry σ) : Move → Prop
  | .call tick (.addVersion project version file uploader digest resourceId) =>
    ∃ e, (perform tick (.addVersion project version file uploader digest resourceId) r).1 = .error e
  | .call _ _ => True
  | .others files => FileTree.Spares r.artifacts.root r.files files

def AllFair : Registry σ → List Move → Prop
  | _, [] => True
  | r, m :: ms => r.IsFair m ∧ (r.move m).AllFair ms

variable {V : View σ} {R : Reader V.C} {a : Artifacts} {r : Registry σ} {as : List Archive}
  {used : List Uuid}

theorem perform_uploadFile (tick : Tick) (p n : Int32) (file : Path) (user : String)
    (r : Registry σ) :
    perform tick (.uploadFile p n file user) r =
      ((uploadFile tick p n file user r).1.map fun _ => .done,
        (uploadFile tick p n file user r).2) :=
  Step.map_apply _ _ r

theorem archived?_of_error {tick : Tick} {p n : Int32} {file : Path} {user : String} {e : Failure}
    (h : (uploadFile tick p n file user r).1 = .error e) :
    r.archived? (.call tick (.uploadFile p n file user)) = none := by
  simp only [archived?, perform_uploadFile, h, Except.map]

theorem archived?_of_ok {tick : Tick} {p n : Int32} {file : Path} {user : String}
    {content : List UInt8} (h : (uploadFile tick p n file user r).1 = .ok ())
    (hread : r.files.read file = .ok content) :
    r.archived? (.call tick (.uploadFile p n file user)) =
      some ⟨p, n, Artifacts.resourceId p n tick.fresh (Version.fileNameOf file), content⟩ := by
  simp only [archived?, perform_uploadFile, h, hread, Except.map]

omit [Store σ] in
theorem Tidy.mono (h : Tidy V a r as used) (later : List Uuid) : Tidy V a r as (used ++ later) :=
  ⟨h.artifacts, h.keeps, fun archive harchive =>
    (h.drawn archive harchive).imp fun _ hu => ⟨List.mem_append_left later hu.1, hu.2⟩⟩

/-- A call that is refused leaves the store, and the files in step with the versions. -/
theorem tidy_of_refused (hσ : Store.IsAtomic σ) (h : Tidy V a r as used) {tick : Tick} {call : Call}
    (hfresh : ∀ u, (Move.call tick call).drawn? = some u → u ∉ used)
    (hrefused : Refused (perform tick call r).1) :
    (perform tick call r).2.store = r.store ∧ r.files.SameFiles (perform tick call r).2.files ∧
      Tidy V a (perform tick call r).2 as used := by
  by_cases hupload : ∃ p n file user, call = .uploadFile p n file user
  · obtain ⟨p, n, file, user, rfl⟩ := hupload
    obtain ⟨e, he⟩ :=
      exists_error_of_refused (x := uploadFile tick p n file user) (f := fun _ => .done) (by simp)
        hrefused
    obtain ⟨hstore, -, hfiles, htidy⟩ := tidy_of_refused_upload hσ h (hfresh tick.fresh rfl) he
    rw [perform_uploadFile]
    exact ⟨hstore, hfiles, htidy⟩
  · have hcall (p n : Int32) (file : Path) (user : String) : call ≠ .uploadFile p n file user :=
      fun he => hupload ⟨p, n, file, user, he⟩
    rw [unchanged_of_refused hσ hcall hrefused]
    exact ⟨rfl, .refl _, h⟩

/-- A move that is fair leaves the files in step with the versions. -/
theorem tidy_move (hV : V.Lawful) (hA : V.Answers R) (hR : R.ReadsIds) (hσ : Store.IsAtomic σ)
    (hr : V.Good r.store) (h : Tidy V a r as used) {m : Move} (hfair : r.IsFair m)
    (hfresh : ∀ u, m.drawn? = some u → u ∉ used) :
    V.Good (r.move m).store ∧
      Tidy V a (r.move m) (as ++ (r.archived? m).toList) (used ++ m.drawn?.toList) := by
  have hquiet {tick : Tick} {call : Call} (hcall : call.IsQuiet) :
      Tidy V a (perform tick call r).2 as used := tidy_of_quiet hV hr h tick hcall
  cases m with
  | others files =>
    refine ⟨hr, ?_⟩
    simp only [archived?, Move.drawn?, Option.toList_none, List.append_nil]
    exact ⟨h.artifacts, h.keeps.of_spares h.drawn (h.artifacts ▸ hfair), h.drawn⟩
  | call tick call =>
    refine ⟨(becomes_perform hV hr tick call).2.1, ?_⟩
    show Tidy V a (perform tick call r).2 _ _
    cases call
    case uploadFile p n file user =>
      have hu := hfresh tick.fresh rfl
      rw [perform_uploadFile]
      cases hx : (uploadFile tick p n file user r).1 with
      | error e =>
        rw [archived?_of_error hx, Option.toList_none, List.append_nil]
        exact (tidy_of_refused_upload hσ h hu hx).2.2.2.mono _
      | ok _ =>
        obtain ⟨-, content, hread, htidy⟩ := tidy_of_upload hV hr h hu hx
        rw [archived?_of_ok hx hread]
        exact htidy
    case addVersion p n file uploader digest id =>
      obtain ⟨e, he⟩ := hfair
      simp only [archived?, Move.drawn?, Option.toList_none, List.append_nil]
      exact (tidy_of_refused hσ h hfresh (.inl ⟨e, he⟩)).2.2
    case clean p bound =>
      simp only [archived?, Move.drawn?, Option.toList_none, List.append_nil]
      rw [show perform tick (.clean p bound) r = _ from Step.map_apply _ _ r]
      exact tidy_clean hV hA hR hr h p bound
    case sweep retained =>
      simp only [archived?, Move.drawn?, Option.toList_none, List.append_nil]
      rw [show perform tick (.sweep retained) r = _ from Step.map_apply _ _ r, sweep_eq]
      cases Store.activeProjects r.store with
      | error e => exact h
      | ok projects => exact tidy_sweepAll hV hA hR tick.now retained projects hr h
    all_goals
      simp only [archived?, Move.drawn?, Option.toList_none, List.append_nil]
      exact hquiet trivial

theorem tidy_moved (hV : V.Lawful) (hA : V.Answers R) (hR : R.ReadsIds) (hσ : Store.IsAtomic σ)
    (moves : List Move) {r : Registry σ} (hr : V.Good r.store) (h : Tidy V a r as used)
    (hfair : r.AllFair moves) (hfresh : (used ++ moves.filterMap Move.drawn?).Nodup) :
    V.Good (r.moved moves).store ∧
      Tidy V a (r.moved moves) (as ++ r.archives moves) (used ++ moves.filterMap Move.drawn?) := by
  induction moves generalizing r as used with
  | nil =>
    rw [archives, List.append_nil]
    exact ⟨hr, h.mono _⟩
  | cons m ms ih =>
    have hdrawn : used ++ (m :: ms).filterMap Move.drawn? =
        used ++ m.drawn?.toList ++ ms.filterMap Move.drawn? := by
      rw [List.filterMap_cons]
      cases m.drawn? <;> simp
    rw [hdrawn] at hfresh ⊢
    have hnew (u : Uuid) (hu : m.drawn? = some u) : u ∉ used := by
      intro hmem
      rw [hu] at hfresh
      exact (List.nodup_append.1 (List.nodup_append.1 hfresh).1).2.2 u hmem u (by simp) rfl
    obtain ⟨hgood, hstep⟩ := tidy_move hV hA hR hσ hr h hfair.1 hnew
    rw [archives, ← List.append_assoc]
    exact ih hgood hstep hfair.2 hfresh

end Registry

end ProjectRegistry
