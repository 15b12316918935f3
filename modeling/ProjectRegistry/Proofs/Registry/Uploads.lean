import ProjectRegistry.Proofs.Registry.Archives

/-!
# Uploads

What was uploaded is fetched as long as its version is there: the file under its resource id, with
the bytes of the upload and the digest that was recorded then. No other number is answered, and no
upload that is refused leaves a file, be it for its project, for its number, or because the database
was closed.
-/

namespace ProjectRegistry

open Files (FileTree Path)

variable {C : Columns} {M : Medium C}

/-! ## Versions as they are told -/

/-- Whether a store tells its versions with the resource ids and the digests that it keeps. -/
structure View.Tells {σ : Type} [Store σ] (V : View σ) (s : σ) : Prop where
  some {p n : Int32} {row : VersionRow V.C} : (V.relations s).versions.find? (p, n) = some row →
    ∃ v, Store.version? p n s = .ok (some v) ∧ v.project = p ∧ v.number = n ∧
      v.resourceId = row.resourceId ∧ V.M.digest v.digest = row.digest
  none {p n : Int32} : (V.relations s).versions.find? (p, n) = none →
    Store.version? p n s = .ok none

theorem Memory.tells (m : Memory) : Memory.view.Tells m where
  some {p n row} h := by
    have hrow : m.relations.versions.find? (p, n) = some row := h
    refine ⟨row.toVersion p n, ?_, rfl, rfl, rfl, rfl⟩
    show Except.ok (m.version? p n) = _
    rw [Memory.version?, hrow]
    rfl
  none {p n} h := by
    have hrow : m.relations.versions.find? (p, n) = none := h
    show Except.ok (m.version? p n) = _
    rw [Memory.version?, hrow]
    rfl

theorem Memory.readsIds : Reader.values.ReadsIds := by
  intro row read h
  rw [show read = row from (Except.ok.inj h).symm]

theorem Database.readsIds : Reader.cells.ReadsIds := by
  intro row read h
  obtain ⟨_, -, h⟩ := exists_of_bind_ok h
  obtain ⟨_, -, h⟩ := exists_of_bind_ok h
  cases h
  rfl

theorem Medium.digest_cells_injective : Function.Injective Medium.cells.digest := by
  rintro ⟨bs, _⟩ ⟨bs', _⟩ h
  cases h
  rfl

namespace Registry

variable {σ : Type} [Store σ] {V : View σ} {a : Artifacts} {r : Registry σ} {as : List Archive}
  {used : List Uuid}

theorem Records.tells (hV : V.Legible) {l : Relations live} (h : Records V r l) :
    V.Tells r.store := by
  obtain ⟨hgood, hl, htimed⟩ := h
  obtain ⟨time, hversion, -⟩ := hV hgood hl htimed
  refine ⟨fun {p n row} hrow => ?_, fun {p n} hnone => ?_⟩
  · rw [hl, Relations.find?_versions_write] at hrow
    obtain ⟨live, hlive, rfl⟩ := Option.map_eq_some_iff.1 hrow
    exact ⟨_, by rw [hversion, hlive]; rfl, rfl, rfl, rfl, rfl⟩
  · rw [hl, Relations.find?_versions_write, Option.map_eq_none_iff] at hnone
    rw [hversion, hnone]
    rfl

end Registry

def Move.OnCalendar : Move → Prop
  | .call tick _ => tick.now.OnCalendar
  | .others _ => True

namespace Registry

variable {σ : Type} [Store σ] {V : View σ} {a : Artifacts} {r : Registry σ} {as : List Archive}
  {used : List Uuid}

/-- What others do to files is nothing to the live relations. -/
theorem Records.moved (hV : V.Lawful) {l : Relations live} (h : Records V r l) (moves : List Move)
    (hclock : ∀ m ∈ moves, m.OnCalendar) : ∃ l', Records V (r.moved moves) l' := by
  induction moves generalizing r l with
  | nil => exact ⟨l, h⟩
  | cons m ms ih =>
    have hrest : ∀ m' ∈ ms, m'.OnCalendar := fun m' hm' => hclock m' (List.mem_cons_of_mem m hm')
    cases m with
    | call tick call =>
      have htick : tick.now.OnCalendar := hclock (.call tick call) List.mem_cons_self
      obtain ⟨cs, -, hstep, -⟩ := h.step hV htick call
      exact ih hstep hrest
    | others files => exact ih (r := { r with files }) h hrest

/-! ## Fetching -/

theorem perform_uploadedFile (tick : Tick) (p n : Int32) (r : Registry σ) :
    (perform tick (.uploadedFile p n) r).1 = (r.uploadedFile p n).map .file :=
  congrArg Prod.fst (Step.map_apply _ _ r)

/-- An archive is fetched from where its version says that it is. -/
theorem Tidy.uploadedFile (h : Tidy V a r as used) (htells : V.Tells r.store)
    (hdigest : Function.Injective V.M.digest) {p n : Int32} {row : VersionRow V.C}
    (hrow : (V.relations r.store).versions.find? (p, n) = some row) :
    ∃ archive v, lastArchive? p n as = some archive ∧ Store.version? p n r.store = .ok (some v) ∧
      v.resourceId = row.resourceId ∧ v.digest = .ofContent archive.content ∧
      r.uploadedFile p n = .ok ⟨v, some (a.pathOf row.resourceId)⟩ ∧
      r.files.read (a.pathOf row.resourceId) = .ok archive.content := by
  obtain rfl := h.artifacts
  obtain ⟨archive, hlast, -, hdigests, hfind⟩ := h.keeps.kept hrow
  obtain ⟨v, hv, -, -, hid, hread⟩ := htells.some hrow
  have hlocate := r.artifacts.locate_of_isPlain (h.keeps.plain h.drawn hrow)
  refine ⟨archive, v, hlast, hv, hid, hdigest (hread.trans hdigests), ?_, ?_⟩
  · have hfetch : r.artifacts.fetch v.resourceId r.files =
        .ok (r.artifacts.pathOf row.resourceId) := by
      simp only [hid, Artifacts.fetch, hlocate, FileTree.pathExists, hfind]
    simp only [Registry.uploadedFile, version?, hv, Option.map_some, VersionFile.ofVersion, hfetch]
    rfl
  · simp only [FileTree.read, hfind]

theorem uploadedFile_of_none (htells : V.Tells r.store) {p n : Int32}
    (hnone : (V.relations r.store).versions.find? (p, n) = none) :
    r.uploadedFile p n = .error (.noVersion p n) := by
  simp only [Registry.uploadedFile, version?, htells.none hnone, Option.map_none]

end Registry

/-! ## Closed databases -/

namespace Database

variable {α : Type} {d : Database}

theorem pointer_of_closed (hclosed : ¬ d.isOpen = true) (p : Project) :
    pointer p d = .error (.storage .closed) := by
  have hcurrent : currentVersion? p d = .error (.storage .closed) := if_neg hclosed
  rw [pointer, hcurrent]
  rfl

/-- Whether something fails on a database. -/
def Fails (x : Step Database α) (d : Database) : Prop := ∃ e, (x d).1 = .error e

theorem fails_transaction (hclosed : d.isOpen = false) (x : Step Database α) :
    Fails (transaction x) d :=
  ⟨_, congrArg Prod.fst (transaction_of_closed hclosed x)⟩

theorem fails_lift_bind {β : Type} {x : Except Failure β} {f : β → Step Database α}
    (h : ∀ b, Fails (f b) d) : Fails (Step.lift x >>= f) d := by
  cases x with
  | error e => exact ⟨e, rfl⟩
  | ok b => exact h b

theorem fails_setRights (hclosed : d.isOpen = false) (p : Project) (principal : String)
    (isGroup : Bool) (rights : Rights) : Fails (setRights p principal isGroup rights) d := by
  unfold setRights
  split
  · exact fails_transaction hclosed _
  · exact fails_transaction hclosed _

end Database

namespace Registry

theorem refused_onStore {α : Type} {r : Registry Database} {x : Step Database α} {f : α → Reply}
    (h : Database.Fails x r.store) : Refused ((onStore x >>= fun a => pure (f a)) r).1 := by
  obtain ⟨e, he⟩ := h
  exact .inl ⟨e, by rw [Step.map_apply, onStore_apply, he]; rfl⟩

theorem refused_read {α : Type} {r : Registry Database} {q : Registry Database → Except Failure α}
    {e : Failure} {f : α → Reply} (h : q r = .error e) :
    Refused ((Step.read q >>= fun a => pure (f a)) r).1 :=
  .inl ⟨e, by rw [Step.map_apply, Step.read_apply, h]; rfl⟩

/-- A closed database refuses every call, also such as only ask. -/
theorem refused_of_closed {r : Registry Database} (hclosed : r.store.isOpen = false) (tick : Tick)
    (call : Call) : Refused (perform tick call r).1 := by
  have hopen : ¬ r.store.isOpen = true := by rw [hclosed]; decide
  have htransaction {α : Type} (x : Step Database α) := Database.fails_transaction hclosed x
  have hversion (p n : Int32) : r.version? p n = .error (.storage .closed) := by
    rw [version?, show Store.version? p n r.store = _ from if_neg hopen]
  have hpointer {α : Type} (p : Project) (answer : Int32 → Except Failure α) :
      (Database.pointer p r.store >>= answer) = .error (.storage .closed) := by
    rw [Database.pointer_of_closed hopen]
    rfl
  cases call with
  | createProject name description creator =>
    exact refused_onStore (Database.fails_lift_bind fun _ => Database.fails_lift_bind fun _ =>
      htransaction _)
  | describe p description user =>
    exact refused_onStore (Database.fails_lift_bind fun _ => htransaction _)
  | setRights p principal isGroup rights =>
    exact refused_onStore (Database.fails_setRights hclosed p principal isGroup rights)
  | putBundle | putBundles =>
    exact refused_onStore (Database.fails_lift_bind fun _ => htransaction _)
  | removeProject | configure | dropRights | addVersion | changeVersion | putFlow | putFlows |
      updateFlow =>
    exact refused_onStore (htransaction _)
  | postEvent p kind user message =>
    refine .inr ?_
    rw [perform_postEvent]
    show Except.ok (Reply.posted (Database.postEvent tick.now p kind user message r.store).1) = _
    rw [Database.postEvent, Database.transaction_of_closed hclosed]
  | uploadFile p n file user =>
    refine .inl ?_
    rw [perform_uploadFile]
    cases hdigest : r.digestOf file with
    | error e =>
      rw [uploadFile_of_unreadable hdigest]
      exact ⟨e, rfl⟩
    | ok digest =>
      rw [uploadFile_eq hdigest]
      rcases r.artifacts.store tick.fresh p n file r.files with ⟨e | id, files⟩
      · exact ⟨e, rfl⟩
      · have hadd : Store.addVersion (.ofUpload p n file user digest id tick.now) r.store =
            (.error (.storage .closed), r.store) := Database.transaction_of_closed hclosed _
        simp only [hadd]
        exact ⟨_, rfl⟩
  | version p n => exact refused_read (hversion p n)
  | uploadedFile p n => exact refused_read (by rw [uploadedFile, hversion])
  | clean p bound =>
    have hclean : Store.clean p bound r.store = (.error (.storage .closed), r.store) :=
      Database.transaction_of_closed hclosed _
    refine .inl ⟨.storage .closed, ?_⟩
    rw [show perform tick (.clean p bound) r = _ from Step.map_apply _ _ r, clean_eq, hclean]
    rfl
  | sweep retained =>
    have hprojects : Store.activeProjects r.store = .error (.storage .closed) := if_neg hopen
    refine .inl ⟨.storage .closed, ?_⟩
    rw [show perform tick (.sweep retained) r = _ from Step.map_apply _ _ r, sweep_eq, hprojects]
    rfl
  | bundle p path => exact refused_read (hpointer p _)
  | flow p id => exact refused_read (hpointer p _)
  | flows p => exact refused_read (hpointer p _)
  | _ => exact refused_read (if_neg hopen)

/-- In a closed database no identifier is worth anything, so that some may even be drawn twice. -/
theorem tidy_moved_of_closed {a : Artifacts} {as : List Archive} {used : List Uuid}
    (later : List Move) {r : Registry Database} (hclosed : r.store.isOpen = false)
    (h : Tidy Database.view a r as used) (hfair : r.AllFair later)
    (hfresh : ∀ u ∈ later.filterMap Move.drawn?, u ∉ used) :
    (r.moved later).store = r.store ∧ Tidy Database.view a (r.moved later) as used := by
  induction later generalizing r with
  | nil => exact ⟨rfl, h⟩
  | cons m ms ih =>
    have hrest : ∀ u ∈ ms.filterMap Move.drawn?, u ∉ used := fun u hu => by
      obtain ⟨m', hm', hdrawn⟩ := List.mem_filterMap.1 hu
      exact hfresh u (List.mem_filterMap.2 ⟨m', List.mem_cons_of_mem m hm', hdrawn⟩)
    obtain ⟨hstore, hstep⟩ :
        (r.move m).store = r.store ∧ Tidy Database.view a (r.move m) as used := by
      cases m with
      | others files =>
        exact ⟨rfl, h.artifacts, h.keeps.of_spares h.drawn (h.artifacts ▸ hfair.1), h.drawn⟩
      | call tick call =>
        obtain ⟨hstore, -, hstep⟩ := tidy_of_refused Database.isAtomic h
          (fun u hu => hfresh u (List.mem_filterMap.2 ⟨_, List.mem_cons_self, hu⟩))
          (refused_of_closed hclosed tick call)
        exact ⟨hstore, hstep⟩
    obtain ⟨hend, htidy⟩ := ih (hstore ▸ hclosed) hstep hfair.2 hrest
    exact ⟨hend.trans hstore, htidy⟩

/-! ## Whole runs -/

/-- How the files below the root and the versions stand after some moves. -/
structure ArchivesKept {σ : Type} [Store σ] (V : View σ) (start : Registry σ) (moves : List Move) :
    Prop where
  artifacts : (start.moved moves).artifacts = start.artifacts
  /-- For each version there is one file, with what was uploaded, and there is no other file. -/
  keeps : start.artifacts.Keeps V.M (V.relations (start.moved moves).store).versions
    (start.archives moves) (start.moved moves).files
  located {p n : Int32} {row : VersionRow V.C} :
    (V.relations (start.moved moves).store).versions.find? (p, n) = some row →
      start.artifacts.locate row.resourceId = .ok (start.artifacts.pathOf row.resourceId) ∧
        FileTree.isBelow start.artifacts.root.place
          (start.artifacts.pathOf row.resourceId).place = true
  apart {p n p' n' : Int32} {row row' : VersionRow V.C} :
    (V.relations (start.moved moves).store).versions.find? (p, n) = some row →
      (V.relations (start.moved moves).store).versions.find? (p', n') = some row' →
        (start.artifacts.pathOf row.resourceId).place =
          (start.artifacts.pathOf row'.resourceId).place →
          p = p' ∧ n = n'
  /-- No call that is refused changes a version or a file, be it an upload that was copied. -/
  refused {tick : Tick} {call : Call} :
    (∀ u, (Move.call tick call).drawn? = some u → u ∉ moves.filterMap Move.drawn?) →
      Refused (perform tick call (start.moved moves)).1 →
        (perform tick call (start.moved moves)).2.store = (start.moved moves).store ∧
          (start.moved moves).files.SameFiles (perform tick call (start.moved moves)).2.files

/-- Which archives are fetched after some moves. -/
structure ArchivesFetched {σ : Type} [Store σ] (V : View σ) (start : Registry σ)
    (moves : List Move) : Prop where
  fetched (tick : Tick) {p n : Int32} {row : VersionRow V.C} :
    (V.relations (start.moved moves).store).versions.find? (p, n) = some row →
      ∃ archive v, lastArchive? p n (start.archives moves) = some archive ∧
        v.resourceId = row.resourceId ∧ v.digest = .ofContent archive.content ∧
        (perform tick (.version p n) (start.moved moves)).1 =
          .ok (.version (some (.ofVersion v))) ∧
        (perform tick (.uploadedFile p n) (start.moved moves)).1 =
          .ok (.file ⟨v, some (start.artifacts.pathOf row.resourceId)⟩) ∧
        (start.moved moves).files.read (start.artifacts.pathOf row.resourceId) =
          .ok archive.content
  missing (tick : Tick) {p n : Int32} :
    (V.relations (start.moved moves).store).versions.find? (p, n) = none →
      (perform tick (.uploadedFile p n) (start.moved moves)).1 = .error (.noVersion p n)

def closed (r : Registry Database) : Registry Database := { r with store := r.store.close }

/-- What moves leave of a database that was closed. -/
structure ArchivesOutlast (start : Registry Database) (moves later : List Move) : Prop where
  refuses (tick : Tick) (call : Call) :
    Refused (perform tick call ((start.moved moves).closed.moved later)).1
  store : ((start.moved moves).closed.moved later).store = (start.moved moves).store.close
  keeps : start.artifacts.Keeps .cells (start.moved moves).store.relations.versions
    (start.archives moves) ((start.moved moves).closed.moved later).files

section Run

variable {σ : Type} [Store σ] {V : View σ} {R : Reader V.C} {start : Registry σ} {moves : List Move}

omit [Store σ] in
theorem tidy_start (hversions : (V.relations start.store).versions = .empty)
    (hbare : start.files.IsBareBelow start.artifacts.root) :
    Tidy V start.artifacts start [] [] where
  artifacts := rfl
  keeps := {
    kept := fun hrow => by simp [hversions] at hrow
    only := fun hbelow hnode => absurd hnode (hbare _ _ hbelow) }
  drawn := by simp

theorem archivesKept (hσ : Store.IsAtomic σ)
    (h : Tidy V start.artifacts (start.moved moves) (start.archives moves)
      (moves.filterMap Move.drawn?)) :
    ArchivesKept V start moves where
  artifacts := h.artifacts
  keeps := h.keeps
  located hrow := by
    have hplain := h.keeps.plain h.drawn hrow
    exact ⟨start.artifacts.locate_of_isPlain hplain, FileTree.isBelow_join _ hplain.isInner⟩
  apart hrow hrow' hplace := h.keeps.apart h.drawn hrow hrow' hplace
  refused hfresh hrefused := by
    obtain ⟨hstore, hfiles, -⟩ := tidy_of_refused hσ h hfresh hrefused
    exact ⟨hstore, hfiles⟩

theorem archivesFetched
    (h : Tidy V start.artifacts (start.moved moves) (start.archives moves)
      (moves.filterMap Move.drawn?))
    (htells : V.Tells (start.moved moves).store) (hdigest : Function.Injective V.M.digest) :
    ArchivesFetched V start moves where
  fetched tick {p n row} hrow := by
    obtain ⟨archive, v, hlast, hv, hid, hcontent, hfile, hread⟩ :=
      h.uploadedFile htells hdigest hrow
    refine ⟨archive, v, hlast, hid, hcontent, ?_, ?_, hread⟩
    · rw [perform_version, hv]
      rfl
    · rw [perform_uploadedFile, hfile]
      rfl
  missing tick {p n} hnone := by
    rw [perform_uploadedFile, uploadedFile_of_none htells hnone]
    rfl

end Run

end Registry

/-- In memory and in a database alike, the files below the root are the archives of the versions,
and every version has its own, if others keep away from there and no identifier is drawn twice. -/
theorem archives_kept_in_step (limits : Limits) (root : Path) {files : FileTree}
    {moves : List Move} (hbare : files.IsBareBelow root)
    (hfresh : (moves.filterMap Move.drawn?).Nodup) :
    let m := Registry.start limits root files Memory.empty
    let d := Registry.start limits root files Database.empty
    (m.AllFair moves →
      m.ArchivesKept Memory.view moves ∧ m.ArchivesFetched Memory.view moves) ∧
      (d.AllFair moves →
        d.ArchivesKept Database.view moves ∧
          ((∀ move ∈ moves, move.OnCalendar) → d.ArchivesFetched Database.view moves) ∧
          ∀ later, (d.moved moves).closed.AllFair later →
            (∀ u ∈ later.filterMap Move.drawn?, u ∉ moves.filterMap Move.drawn?) →
              d.ArchivesOutlast moves later) := by
  intro m d
  constructor
  · intro hfair
    obtain ⟨-, htidy⟩ := Registry.tidy_moved (r := m) Memory.lawful Memory.answers
      Memory.readsIds Memory.isAtomic moves Memory.good_empty (Registry.tidy_start rfl hbare) hfair
      hfresh
    exact ⟨Registry.archivesKept Memory.isAtomic htidy,
      Registry.archivesFetched htidy (Memory.tells _) Function.injective_id⟩
  · intro hfair
    obtain ⟨-, htidy⟩ := Registry.tidy_moved (r := d) Database.lawful Database.answers
      Database.readsIds Database.isAtomic moves Database.good_empty (Registry.tidy_start rfl hbare)
      hfair hfresh
    refine ⟨Registry.archivesKept Database.isAtomic htidy, fun hclock => ?_,
      fun later hlater hundrawn => ?_⟩
    · have hstart : Registry.Records Database.view d .empty :=
        ⟨Database.good_empty, rfl, fun k row h => by simp [Relations.empty] at h⟩
      obtain ⟨l, hl⟩ := hstart.moved Database.lawful moves hclock
      exact Registry.archivesFetched htidy (hl.tells Database.legible)
        Medium.digest_cells_injective
    · have hclosed : Registry.Tidy Database.view d.artifacts (d.moved moves).closed
          (d.archives moves) (moves.filterMap Move.drawn?) := htidy.of_same rfl rfl rfl
      obtain ⟨hstore, hend⟩ := Registry.tidy_moved_of_closed later rfl hclosed hlater hundrawn
      have hversions := hend.keeps
      rw [hstore] at hversions
      exact ⟨fun tick call => Registry.refused_of_closed (by rw [hstore]; rfl) tick call, hstore,
        hversions⟩

/-! ## A source that changes -/

def renewalSource : Path := .ofText "a.zip"

def renewalFiles : FileTree := ⟨Table.empty.insert [Text.utf8 "a.zip"] (.file [1, 2, 3])⟩

def uploadMove (number : Int32) (drawn : Nat) : Move :=
  .call ⟨⟨0, 0⟩, .ofNat drawn⟩ (.uploadFile 1 number renewalSource "ann")

section Renewal

variable {σ : Type} [Store σ] (store : σ)

def renewalUploaded : Registry σ :=
  (Registry.start {} (.ofText "root") renewalFiles store).moved
    [.call .first (.createProject "flows" "" "ann"), uploadMove 1 1]

/-- The files after an upload, with another source. -/
def renewalRewritten : FileTree :=
  match (renewalUploaded store).files.write renewalSource [4] with
  | .ok files => files
  | .error _ => renewalFiles

/-- Two versions are uploaded, the second one twice, and the first is cleaned up. -/
def renewal : List Move :=
  [.call .first (.createProject "flows" "" "ann"), uploadMove 1 1, .others (renewalRewritten store),
    uploadMove 2 2, uploadMove 2 3,
    .call .first (.changeVersion (.new 1 "flows" "" "ann" .epoch) 2 "ann"),
    .call .first (.clean 1 2)]

variable {store}

theorem renewal_fair
    (hplace : FileTree.isBelow (renewalUploaded store).artifacts.root.place renewalSource.place =
      false)
    (hwrite : ((renewalUploaded store).files.write renewalSource [4]).isOk = true) :
    (Registry.start {} (.ofText "root") renewalFiles store).AllFair (renewal store) := by
  refine ⟨trivial, trivial, ?_, trivial, trivial, trivial, trivial, trivial⟩
  refine FileTree.spares_write (p := renewalSource) (c := [4]) hplace ?_
  show (renewalUploaded store).files.write renewalSource [4] = .ok (renewalRewritten store)
  unfold renewalRewritten
  cases hfiles : (renewalUploaded store).files.write renewalSource [4] with
  | error e =>
    rw [hfiles] at hwrite
    cases hwrite
  | ok files => rfl

/-- What is fetched in the end: the second version with what the source held at that time. -/
structure RenewalFetched (r : Registry σ) : Prop where
  second : ∃ f path, (Registry.perform .first (.uploadedFile 1 2) r).1 = .ok (.file f) ∧
    f.version.digest = .ofContent [4] ∧ f.localFile = some path ∧ r.files.read path = .ok [4]
  first : (Registry.perform .first (.uploadedFile 1 1) r).1 = .error (.noVersion 1 1)

theorem renewalFetched {V : View σ} {start : Registry σ} {moves : List Move}
    (h : start.ArchivesFetched V moves)
    (hsecond : (V.relations (start.moved moves).store).versions.contains (1, 2) = true)
    (hfirst : (V.relations (start.moved moves).store).versions.contains (1, 1) = false)
    (hlast : (lastArchive? 1 2 (start.archives moves)).map Archive.content = some [4]) :
    RenewalFetched (start.moved moves) := by
  obtain ⟨row, hrow⟩ := Table.contains_iff.1 hsecond
  obtain ⟨archive, v, harchive, -, hdigest, -, hfile, hread⟩ := h.fetched .first hrow
  rw [harchive, Option.map_some, Option.some.injEq] at hlast
  rw [hlast] at hdigest hread
  refine ⟨⟨_, _, hfile, hdigest, rfl, hread⟩, ?_⟩
  exact h.missing .first (Table.find?_eq_none_of_not_contains hfirst)

end Renewal

theorem renewalFiles_bare : renewalFiles.IsBareBelow (.ofText "root") := by
  intro l content hbelow hnode
  have hfree : FileTree.empty.node? [Text.utf8 "a.zip"] ≠ some .directory := by decide
  rw [show renewalFiles.node? l = _ from FileTree.node?_insert _ hfree l] at hnode
  split at hnode
  · next hl =>
    subst hl
    revert hbelow
    decide
  · unfold FileTree.node? at hnode
    split at hnode <;> cases hnode

theorem renewal_drawn {σ : Type} [Store σ] (store : σ) :
    (renewal store).filterMap Move.drawn? = [.ofNat 1, .ofNat 2, .ofNat 3] := rfl

theorem renewal_fresh {σ : Type} [Store σ] (store : σ) :
    ((renewal store).filterMap Move.drawn?).Nodup := by
  have hbytes : ([Uuid.ofNat 1, .ofNat 2, .ofNat 3].map Uuid.bytes).Nodup := by decide
  rw [renewal_drawn]
  exact List.Pairwise.of_map Uuid.bytes (fun _ _ h he => h (congrArg Uuid.bytes he)) hbytes

theorem renewal_onCalendar {σ : Type} [Store σ] (store : σ) :
    ∀ m ∈ renewal store, m.OnCalendar := by
  have hclock : Time.Instant.OnCalendar ⟨0, 0⟩ := by decide +kernel
  simp [renewal, uploadMove, Move.OnCalendar, Tick.first, hclock]

/-- What was uploaded first is gone with its version, and what was uploaded then is fetched, in
memory and in a database. No further upload is kept once the database is closed. -/
theorem renewal_archives :
    let m := Registry.start {} (.ofText "root") renewalFiles Memory.empty
    let d := Registry.start {} (.ofText "root") renewalFiles Database.empty
    renewalFiles.IsBareBelow (.ofText "root") ∧ RenewalFetched (m.moved (renewal Memory.empty)) ∧
      RenewalFetched (d.moved (renewal Database.empty)) ∧
      d.ArchivesOutlast (renewal Database.empty) [uploadMove 3 4] := by
  intro m d
  obtain ⟨hm, -⟩ :=
    archives_kept_in_step {} (.ofText "root") renewalFiles_bare (renewal_fresh Memory.empty)
  obtain ⟨-, hd⟩ :=
    archives_kept_in_step {} (.ofText "root") renewalFiles_bare (renewal_fresh Database.empty)
  obtain ⟨-, hm⟩ := hm (renewal_fair (by decide +kernel) (by decide +kernel))
  obtain ⟨-, hd, hlater⟩ := hd (renewal_fair (by decide +kernel) (by decide +kernel))
  refine ⟨renewalFiles_bare, ?_, ?_, hlater _ ⟨trivial, trivial⟩ ?_⟩
  · exact renewalFetched hm (by decide +kernel) (by decide +kernel) (by decide +kernel)
  · exact renewalFetched (hd (renewal_onCalendar Database.empty)) (by decide +kernel)
      (by decide +kernel) (by decide +kernel)
  · intro u hu hmem
    obtain rfl : u = .ofNat 4 := List.mem_singleton.1 hu
    rw [renewal_drawn] at hmem
    have hbytes : (Uuid.ofNat 4).bytes ∉ [Uuid.ofNat 1, .ofNat 2, .ofNat 3].map Uuid.bytes := by
      decide
    exact hbytes (List.mem_map_of_mem hmem)

end ProjectRegistry
