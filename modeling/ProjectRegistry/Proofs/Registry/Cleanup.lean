import ProjectRegistry.Proofs.Registry.Archives
import ProjectRegistry.Proofs.Registry.Pointer

/-!
# Archives of the versions that stay

Cleaning up takes away the archives of the versions that it removes, and nothing keeps count of the
versions that name an archive. An upload has an archive of its own, but whoever registers a version
says under which id its archive is, and that may be the id of another version, or another spelling
of the way to the same file. Such an archive is gone with the first of its versions.

Every other archive of a version that stays is fetched as before.
-/

namespace ProjectRegistry

variable {C : Columns}

/-! ## Versions by their rows -/

/-- A version as it is told. -/
def Reader.versionAt (R : Reader C) (r : Relations C) (p n : Int32) :
    Except Failure (Option Version) :=
  match r.versions.find? (p, n) with
  | some row => (R.version row).map fun row => some (row.toVersion p n)
  | none => .ok none

/-- A store that tells each version by its row. -/
def View.TellsByRow {σ : Type} [Store σ] (V : View σ) (R : Reader V.C) : Prop :=
  ∀ {s : σ}, V.Good s → ∀ p n, Store.version? p n s = R.versionAt (V.relations s) p n

theorem Memory.tellsByRow : Memory.view.TellsByRow .values := by
  intro m _ p n
  show Except.ok (m.version? p n) = Reader.values.versionAt m.relations p n
  rw [Memory.version?, Reader.versionAt]
  cases m.relations.versions.find? (p, n) <;> rfl

theorem Database.tellsByRow : Database.view.TellsByRow .cells := by
  intro d hd p n
  show Database.version? p n d = Reader.cells.versionAt d.relations p n
  rw [Database.version?, Database.query_apply hd.isOpen, Reader.versionAt]
  cases d.relations.versions.find? (p, n) with
  | none => rfl
  | some row =>
    show (loadVersion p (n, row) >>= fun v => pure (some v)) =
      (row.load).map fun row => some (row.toVersion p n)
    rw [loadVersion]
    cases row.load <;> rfl

namespace Registry

open Files (FileTree)

variable {σ : Type} [Store σ] {V : View σ} {R : Reader V.C} {r r' : Registry σ}

/-! ## What cleaning up leaves -/

/-- What cleaning up does: the versions that it answers are gone, and so are their archives. -/
structure CleansUp (V : View σ) (p bound : Int32) (removed : List Version) (r r' : Registry σ) :
    Prop where
  good : V.Good r'.store
  project : (V.relations r.store).projects.contains p = true
  relations : V.relations r'.store = (Change.clean p bound).apply V.M (V.relations r.store)
  numbers : removed.map Version.number =
    ((V.relations r.store).doomedOf V.M p bound).map (·.1)
  artifacts : r'.artifacts = r.artifacts
  files : r'.files =
    (removed.map (·.resourceId)).foldl (fun t id => (r.artifacts.delete id t).2) r.files

theorem cleansUp (hV : V.Lawful) (hA : V.Answers R) (hr : V.Good r.store) {tick : Tick}
    {p bound : Int32} {removed : List Version}
    (h : perform tick (.clean p bound) r = (.ok (.versions removed), r')) :
    CleansUp V p bound removed r r' := by
  rw [show perform tick (.clean p bound) r = _ from Step.map_apply _ _ r, clean_eq] at h
  have hclean := hV.clean hr r.limits p bound
  rcases hx : Store.clean p bound r.store with ⟨e | vs, store⟩
  · rw [hx] at h
    cases h
  · rw [hx] at h
    obtain ⟨hanswer, rfl⟩ := Prod.mk.inj h
    cases hanswer
    obtain ⟨hgood, cs, rfl, hfit, hrelations⟩ := hclean.of_ok hx
    have hp := Change.allFit_singleton.1 hfit
    have hread := hA.clean hr hp bound
    rw [hx] at hread
    have hstore := (foldl_discard removed { r with store }).1
    obtain ⟨hartifacts, hfiles⟩ := foldl_discard_files removed { r with store }
    exact ⟨by rw [hstore]; exact hgood, hp, by rw [hstore]; exact hrelations,
      Reader.numbers_of_versions hread.symm, hartifacts, hfiles⟩

section CleansUp

variable {p bound : Int32} {removed : List Version}

omit [Store σ] in
theorem CleansUp.mem_numbers_iff (h : CleansUp V p bound removed r r') (n : Int32) :
    n ∈ removed.map Version.number ↔
      (∃ row, (V.relations r.store).versions.find? (p, n) = some row) ∧
        (V.relations r.store).isDoomed V.M p bound n = true := by
  rw [h.numbers]
  simp only [List.mem_map, Relations.doomedOf, List.mem_filter, Prod.exists,
    Relations.mem_versionsOf_iff]
  constructor
  · rintro ⟨_, row, ⟨hrow, hdoomed⟩, rfl⟩
    exact ⟨⟨row, hrow⟩, hdoomed⟩
  · rintro ⟨⟨row, hrow⟩, hdoomed⟩
    exact ⟨n, row, ⟨hrow, hdoomed⟩, rfl⟩

omit [Store σ] in
theorem CleansUp.find?_versions (h : CleansUp V p bound removed r r') (q n : Int32) :
    (V.relations r'.store).versions.find? (q, n) =
      if q = p ∧ n ∈ removed.map Version.number then none
      else (V.relations r.store).versions.find? (q, n) := by
  rw [h.relations, Change.find?_versions_apply]
  simp only
  by_cases hgone : q = p ∧ n ∈ removed.map Version.number
  · obtain ⟨rfl, hn⟩ := hgone
    have hdoomed := ((h.mem_numbers_iff n).1 hn).2
    simp [hn, hdoomed]
  · rw [if_neg hgone]
    split
    · rfl
    · next hdoomed =>
      simp only [Bool.not_eq_true', Bool.not_eq_false, Bool.and_eq_true,
        decide_eq_true_eq] at hdoomed
      obtain ⟨rfl, hdoomed⟩ := hdoomed
      -- below the bound there was no version of this number
      cases hrow : (V.relations r.store).versions.find? (q, n) with
      | none => rfl
      | some row => exact absurd ⟨rfl, (h.mem_numbers_iff n).2 ⟨⟨row, hrow⟩, hdoomed⟩⟩ hgone

theorem CleansUp.version? (h : CleansUp V p bound removed r r') (htells : V.TellsByRow R)
    (hr : V.Good r.store) (q n : Int32) :
    r'.version? q n =
      if q = p ∧ n ∈ removed.map Version.number then .ok none else r.version? q n := by
  rw [Registry.version?, Registry.version?, htells h.good, htells hr, Reader.versionAt,
    h.find?_versions]
  by_cases hgone : q = p ∧ n ∈ removed.map Version.number
  · rw [if_pos hgone, if_pos hgone]
    rfl
  · rw [if_neg hgone, if_neg hgone, Reader.versionAt]

/-- The current version of a project stays. -/
theorem CleansUp.current (h : CleansUp V p bound removed r r') (hV : V.Lawful) (hA : V.Answers R)
    (hr : V.Good r.store) {q : Project} (hq : q.id = p) {n : Int32}
    (hcurrent : Store.currentVersion? q r.store = .ok (some n)) :
    n ∉ removed.map Version.number := by
  intro hn
  rw [hA.currentVersion? hr, hq, if_pos h.project, Except.ok.injEq] at hcurrent
  have hpointer := pointerOf_eq_currentOf (hV.sound hr) p
  rw [hcurrent] at hpointer
  have hdoomed := ((h.mem_numbers_iff n).1 hn).2
  rw [Relations.Sound.isDoomed_pointer hpointer] at hdoomed
  cases hdoomed

theorem uploadedFile_ok_iff {q n : Int32} {f : VersionFile} :
    r.uploadedFile q n = .ok f ↔ ∃ g path, r.version? q n = .ok (some g) ∧
      r.artifacts.fetch g.version.resourceId r.files = .ok path ∧ f = g.withLocalFile path := by
  unfold uploadedFile
  rcases r.version? q n with e | _ | g
  · simp
  · simp
  · simp only [Except.ok.injEq, Option.some.injEq]
    cases hfetch : r.artifacts.fetch g.version.resourceId r.files with
    | error e => simp [hfetch]
    | ok path => simp [hfetch, eq_comm]

/-- The archive of a version that stays is gone if the file is that of a version that goes. -/
theorem CleansUp.uploadedFile (h : CleansUp V p bound removed r r') (htells : V.TellsByRow R)
    (hr : V.Good r.store) {q n : Int32} {f g : VersionFile} (hf : r.uploadedFile q n = .ok f)
    (hstays : r'.version? q n = .ok (some g)) :
    r'.uploadedFile q n =
      if ∃ v ∈ removed, r.artifacts.SharesFile r.files v.resourceId f.version.resourceId then
        .error (.notFound .artifact f.version.resourceId)
      else .ok f := by
  obtain ⟨g', path, hversion, hfetch, rfl⟩ := uploadedFile_ok_iff.1 hf
  have hsame : r'.version? q n = .ok (some g') := by
    have hlater := h.version? htells hr q n
    split at hlater
    · rw [hstays] at hlater
      cases hlater
    · rw [hlater, hversion]
  have hlater := Artifacts.fetch_foldl_delete hfetch (removed.map (·.resourceId))
  simp only [List.mem_map, exists_exists_and_eq_and] at hlater
  have hid : (g'.withLocalFile path).version = g'.version := rfl
  rw [Registry.uploadedFile, hsame, h.artifacts, h.files]
  simp only [hlater, hid]
  by_cases hshared : ∃ v ∈ removed,
      r.artifacts.SharesFile r.files v.resourceId g'.version.resourceId
  · rw [if_pos hshared, if_pos hshared]
  · rw [if_neg hshared, if_neg hshared]

end CleansUp

/-! ## Along every run -/

/-- What cleaning up does to the versions that it does not remove. -/
structure SparesOthers (r : Registry σ) : Prop where
  version {tick : Tick} {p bound : Int32} {removed : List Version} {r' : Registry σ} :
    perform tick (.clean p bound) r = (.ok (.versions removed), r') →
      ∀ q n, r'.version? q n =
        if q = p ∧ n ∈ removed.map Version.number then .ok none else r.version? q n
  current {tick : Tick} {q : Project} {bound : Int32} {removed : List Version} {r' : Registry σ} :
    perform tick (.clean q.id bound) r = (.ok (.versions removed), r') →
      ∀ n, Store.currentVersion? q r.store = .ok (some n) → n ∉ removed.map Version.number
  /-- A version that stays is fetched as before, unless a version that goes has the same file. -/
  archive {tick : Tick} {p bound : Int32} {removed : List Version} {r' : Registry σ} :
    perform tick (.clean p bound) r = (.ok (.versions removed), r') →
      ∀ q n f g, r.uploadedFile q n = .ok f → r'.version? q n = .ok (some g) →
        r'.uploadedFile q n =
          if ∃ v ∈ removed, r.artifacts.SharesFile r.files v.resourceId f.version.resourceId then
            .error (.notFound .artifact f.version.resourceId)
          else .ok f

theorem sparesOthers (hV : V.Lawful) (hA : V.Answers R) (htells : V.TellsByRow R)
    (hr : V.Good r.store) : r.SparesOthers where
  version h := (cleansUp hV hA hr h).version? htells hr
  current h _ hcurrent := (cleansUp hV hA hr h).current hV hA hr rfl hcurrent
  archive h _ _ _ _ hf hstays := (cleansUp hV hA hr h).uploadedFile htells hr hf hstays

end Registry

/-- In every state that calls lead to, in memory and in a database alike, cleaning up leaves the
current version and all versions that it does not answer, and their archives, except those that are
one file with the archive of a version that goes. -/
theorem archives_survive_cleaning (limits : Limits) (root : Files.Path) (files : Files.FileTree)
    (calls : List (Tick × Call)) :
    ((Registry.start limits root files Memory.empty).after calls).SparesOthers ∧
      ((Registry.start limits root files Database.empty).after calls).SparesOthers := by
  constructor
  · exact Registry.sparesOthers Memory.lawful Memory.answers Memory.tellsByRow
      (Registry.good_after (r := .start limits root files Memory.empty) Memory.lawful
        Memory.good_empty calls)
  · exact Registry.sparesOthers Database.lawful Database.answers Database.tellsByRow
      (Registry.good_after (r := .start limits root files Database.empty) Database.lawful
        Database.good_empty calls)

/-! ## An archive of two versions -/

def sharedSource : Files.Path := .ofText "a.zip"

def sharedFiles : Files.FileTree := ⟨Table.empty.insert [Text.utf8 "a.zip"] (.file [1, 2, 3])⟩

/-- The id of an upload, with a dot between its names. -/
def sharedId : String := "1/./1/00000000-0000-0000-0000-000000000001-a.zip"

/-- A run that uploads a version and registers a second one with the same archive. The second one is
current in the end. -/
def sharedRun : List (Tick × Call) :=
  [(.first, .createProject "flows" "" "ann"),
    (⟨⟨0, 0⟩, .ofNat 1⟩, .uploadFile 1 1 sharedSource "ann"),
    (.first, .addVersion 1 2 sharedSource "ann" (.ofContent [1, 2, 3]) sharedId),
    (.first, .changeVersion (.new 1 "flows" "" "ann" .epoch) 2 "ann")]

/-- Whether cleaning up takes the archive of the current version, which could be fetched before. -/
def Registry.LosesArchive {σ : Type} [Store σ] (r : Registry σ) : Prop :=
  ∃ f g removed r', Store.currentVersion? (.new 1 "flows" "" "ann" .epoch) r.store = .ok (some 2) ∧
    r.uploadedFile 1 2 = .ok f ∧
    Registry.perform .first (.clean 1 2) r = (.ok (.versions removed), r') ∧
    r'.version? 1 2 = .ok (some g) ∧
    r'.uploadedFile 1 2 = .error (.notFound .artifact f.version.resourceId)

theorem Registry.losesArchive_of {σ : Type} [Store σ] {r : Registry σ} {f g : VersionFile}
    (hcurrent : Store.currentVersion? (.new 1 "flows" "" "ann" .epoch) r.store = .ok (some 2))
    (hf : r.uploadedFile 1 2 = .ok f) (hclean : (clean 1 2 r).1.isOk = true)
    (hg : (clean 1 2 r).2.version? 1 2 = .ok (some g))
    (hgone : (clean 1 2 r).2.uploadedFile 1 2 =
      .error (.notFound .artifact f.version.resourceId)) :
    r.LosesArchive := by
  cases hremoved : (clean 1 2 r).1 with
  | error e =>
    rw [hremoved] at hclean
    cases hclean
  | ok removed =>
    refine ⟨f, g, removed, _, hcurrent, hf, ?_, hg, hgone⟩
    rw [show Registry.perform .first (.clean 1 2) r = _ from Step.map_apply _ _ r, hremoved]
    rfl

/-- The archive of the current version goes with the first version, in memory and in a database. -/
theorem sharedRun_loses_archive :
    ((Registry.start {} (.ofText "root") sharedFiles Memory.empty).after sharedRun).LosesArchive ∧
      ((Registry.start {} (.ofText "root") sharedFiles Database.empty).after
        sharedRun).LosesArchive := by
  let v : Version := .ofUpload 1 2 sharedSource "ann" (.ofContent [1, 2, 3]) sharedId ⟨0, 0⟩
  let path : Files.Path := .ofText ("root/" ++ sharedId)
  constructor
  · exact Registry.losesArchive_of (f := ⟨v, some path⟩) (g := ⟨v, none⟩) (by decide +kernel)
      (by decide +kernel) (by decide +kernel) (by decide +kernel) (by decide +kernel)
  · exact Registry.losesArchive_of (f := ⟨v, some path⟩) (g := ⟨v, none⟩) (by decide +kernel)
      (by decide +kernel) (by decide +kernel) (by decide +kernel) (by decide +kernel)

end ProjectRegistry
