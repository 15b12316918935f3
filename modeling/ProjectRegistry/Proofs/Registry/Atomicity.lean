import ProjectRegistry.Proofs.Files
import ProjectRegistry.Proofs.Registry.Integrity

/-!
# Failed calls change nothing

A call that fails leaves the store as it was, with all relations and sequences, whatever state it is
called in: memory checks before it writes, and a database takes back what was written before a
failure. This holds of damaged databases, of closed ones, and of such that have no row ids left.

An upload that fails may leave directories, but no file.
-/

namespace ProjectRegistry

/-- A store whose operations leave every state as it was when they fail. -/
structure Store.IsAtomic (σ : Type) [Store σ] : Prop where
  createProject (limits : Limits) (now : Time.Instant) (name description creator : String) :
    (Store.createProject (σ := σ) limits now name description creator).Atomic
  removeProject (now : Time.Instant) (p : Project) (user : String) :
    (Store.removeProject (σ := σ) now p user).Atomic
  describe (limits : Limits) (now : Time.Instant) (p : Project) (description user : String) :
    (Store.describe (σ := σ) limits now p description user).Atomic
  configure (now : Time.Instant) (p : Project) : (Store.configure (σ := σ) now p).Atomic
  setRights (p : Project) (principal : String) (isGroup : Bool) (rights : Rights) :
    (Store.setRights (σ := σ) p principal isGroup rights).Atomic
  dropRights (p : Project) (principal : String) (isGroup : Bool) :
    (Store.dropRights (σ := σ) p principal isGroup).Atomic
  postEvent (now : Time.Instant) (p : Project) (kind : EventKind) (user message : String) (s : σ) :
    (Store.postEvent now p kind user message s).1 = false →
      (Store.postEvent now p kind user message s).2 = s
  addVersion (v : Version) : (Store.addVersion (σ := σ) v).Atomic
  changeVersion (now : Time.Instant) (p : Project) (version : Int32) (user : String) :
    (Store.changeVersion (σ := σ) now p version user).Atomic
  clean (project bound : Int32) : (Store.clean (σ := σ) project bound).Atomic
  putBundles (p : Project) (bundles : List Bundle) : (Store.putBundles (σ := σ) p bundles).Atomic
  putFlows (p : Project) (version : Int32) (flows : List Flow) :
    (Store.putFlows (σ := σ) p version flows).Atomic
  updateFlow (p : Project) (version : Int32) (f : Flow) :
    (Store.updateFlow (σ := σ) p version f).Atomic

/-! ## Memory -/

namespace Memory

theorem atomic_of_settle {x : Step Memory Unit} {plan : Memory → Plan}
    (h : ∀ m, x m = m.settle (plan m)) :
    x.Atomic := by
  intro m e he
  rw [h m] at he ⊢
  cases hplan : plan m with
  | error _ => rfl
  | ok cs =>
    rw [hplan] at he
    cases he

theorem atomic_createProject (limits : Limits) (now : Time.Instant)
    (name description creator : String) :
    (createProject limits now name description creator).Atomic := by
  intro m e he
  rw [createProject_eq] at he ⊢
  cases hplan : Plan.create limits now name description creator (m.lastProject + 1) m.relations with
  | error _ => rfl
  | ok cs =>
    simp only [hplan] at he ⊢
    by_cases hlast : m.lastProject = Int32.maxValue
    · rw [if_pos hlast]
    · rw [if_neg hlast] at he
      cases he

theorem atomic_clean (project bound : Int32) : (clean project bound).Atomic := by
  intro m e he
  cases hid : m.relations.projects.contains project with
  | false => rw [m.clean_of_no_project hid]
  | true =>
    obtain ⟨held, _, hrow⟩ := m.row_of_contains hid
    have hread : Step.read (row project) m = (.ok held, m) := by rw [Step.read_apply, hrow]
    rw [clean, Step.bind_ok hread] at he
    cases he

theorem isAtomic : Store.IsAtomic Memory where
  createProject := atomic_createProject
  removeProject now p user := atomic_of_settle fun m => m.removeProject_eq now p user
  describe limits now p description user :=
    atomic_of_settle fun m => m.describe_eq limits now p description user
  configure _ p := atomic_of_settle fun m => m.configure_eq p
  setRights p principal isGroup rights :=
    atomic_of_settle fun m => m.setRights_eq p principal isGroup rights
  dropRights p principal isGroup :=
    atomic_of_settle fun m => m.setRights_eq p principal isGroup .none
  postEvent _ _ _ _ _ _ h := by cases h
  addVersion v := atomic_of_settle fun m => m.addVersion_eq v
  changeVersion now p version user :=
    atomic_of_settle fun m => m.changeVersion_eq now p version user
  clean := atomic_clean
  putBundles p bundles := atomic_of_settle fun m => m.putBundles_eq p bundles
  putFlows p version flows := atomic_of_settle fun m => m.putFlows_eq p version flows
  updateFlow p version f := atomic_of_settle fun m => m.updateFlow_eq p version f

end Memory

/-! ## Databases -/

namespace Database

theorem atomic_setRights (p : Project) (principal : String) (isGroup : Bool) (rights : Rights) :
    (setRights p principal isGroup rights).Atomic := by
  unfold setRights
  split
  · exact atomic_transaction _
  · exact atomic_transaction _

theorem postEvent_false {now : Time.Instant} {p : Project} {kind : EventKind}
    {user message : String} {d : Database} (h : (postEvent now p kind user message d).1 = false) :
    (postEvent now p kind user message d).2 = d := by
  have hatomic := atomic_transaction (insertEvent (eventRow p.id kind user message now)) d
  unfold postEvent at h ⊢
  rcases hx : transaction (insertEvent (eventRow p.id kind user message now)) d with ⟨e | _, d'⟩
  · rw [hx] at hatomic
    exact hatomic e rfl
  · rw [hx] at h
    cases h

theorem isAtomic : Store.IsAtomic Database where
  createProject _ _ _ _ _ :=
    Step.atomic_lift_bind _ fun _ => Step.atomic_lift_bind _ fun _ => atomic_transaction _
  removeProject _ _ _ := atomic_transaction _
  describe _ _ _ _ _ := Step.atomic_lift_bind _ fun _ => atomic_transaction _
  configure _ _ := atomic_transaction _
  setRights := atomic_setRights
  dropRights _ _ _ := atomic_transaction _
  postEvent _ _ _ _ _ _ := postEvent_false
  addVersion _ := atomic_transaction _
  changeVersion _ _ _ _ := atomic_transaction _
  clean _ _ := atomic_transaction _
  putBundles _ _ := Step.atomic_lift_bind _ fun _ => atomic_transaction _
  putFlows _ _ _ := atomic_transaction _
  updateFlow _ _ _ := atomic_transaction _

end Database

/-! ## Calls -/

/-- Whether an answer is a failure, or says that an event was not logged. -/
def Refused (answer : Except Failure Reply) : Prop :=
  (∃ e, answer = .error e) ∨ answer = .ok (.posted false)

namespace Registry

variable {σ α : Type} {r : Registry σ}

theorem exists_error_of_refused {x : Step (Registry σ) α} {f : α → Reply}
    (hf : ∀ a, f a ≠ .posted false) (h : Refused ((x >>= fun a => pure (f a)) r).1) :
    ∃ e, (x r).1 = .error e := by
  rw [Step.map_apply] at h
  cases hx : (x r).1 with
  | error e => exact ⟨e, rfl⟩
  | ok a =>
    rw [hx] at h
    rcases h with ⟨e, he⟩ | he
    · cases he
    · exact absurd (Except.ok.inj he) (hf a)

theorem unchanged_map {x : Step (Registry σ) α} (hx : ∀ e, (x r).1 = .error e → (x r).2 = r)
    {f : α → Reply} (hf : ∀ a, f a ≠ .posted false)
    (h : Refused ((x >>= fun a => pure (f a)) r).1) :
    ((x >>= fun a => pure (f a)) r).2 = r := by
  obtain ⟨e, he⟩ := exists_error_of_refused hf h
  rw [Step.map_apply]
  exact hx e he

theorem unchanged_onStore {x : Step σ α} (hx : x.Atomic) {f : α → Reply}
    (hf : ∀ a, f a ≠ .posted false) (h : Refused ((onStore x >>= fun a => pure (f a)) r).1) :
    ((onStore x >>= fun a => pure (f a)) r).2 = r := by
  refine unchanged_map (fun e he => ?_) hf h
  rw [onStore_apply] at he ⊢
  rw [hx _ e he]

theorem unchanged_read {q : Registry σ → Except Failure α} {f : α → Reply} :
    ((Step.read q >>= fun a => pure (f a)) r).2 = r := by
  rw [Step.map_apply, Step.read_apply]

variable [Store σ]

theorem unchanged_clean (hσ : Store.IsAtomic σ) {project bound : Int32} {e : Failure}
    (h : (clean project bound r).1 = .error e) : (clean project bound r).2 = r := by
  have hatomic := hσ.clean project bound r.store
  rw [clean_eq] at h ⊢
  rcases hx : Store.clean project bound r.store with ⟨e' | removed, store⟩
  · rw [hx] at hatomic
    rw [show store = r.store from hatomic e' rfl]
  · rw [hx] at h
    cases h

theorem unchanged_sweep {now : Time.Instant} {retained : Nat} {e : Failure}
    (h : (sweep now retained r).1 = .error e) :
    (sweep now retained r).2 = r := by
  rw [sweep_eq] at h ⊢
  cases hx : Store.activeProjects r.store with
  | error _ => rfl
  | ok projects =>
    rw [hx] at h
    cases h

theorem unchanged_of_refused (hσ : Store.IsAtomic σ) {tick : Tick} {call : Call}
    (hcall : ∀ project number file user, call ≠ .uploadFile project number file user)
    (h : Refused (perform tick call r).1) : (perform tick call r).2 = r := by
  cases call with
  | createProject name description creator =>
    exact unchanged_onStore (hσ.createProject _ _ _ _ _) (by simp) h
  | removeProject p user => exact unchanged_onStore (hσ.removeProject _ _ _) (by simp) h
  | describe p description user => exact unchanged_onStore (hσ.describe _ _ _ _ _) (by simp) h
  | configure p => exact unchanged_onStore (hσ.configure _ _) (by simp) h
  | setRights p principal isGroup rights =>
    exact unchanged_onStore (hσ.setRights _ _ _ _) (by simp) h
  | dropRights p principal isGroup => exact unchanged_onStore (hσ.dropRights _ _ _) (by simp) h
  | postEvent p kind user message =>
    have hpost := hσ.postEvent tick.now p kind user message r.store
    rw [perform_postEvent] at h ⊢
    have hposted : (Store.postEvent tick.now p kind user message r.store).1 = false := by
      rcases h with ⟨e, he⟩ | he
      · cases he
      · exact Reply.posted.inj (Except.ok.inj he)
    simp only [hpost hposted]
  | addVersion project number file uploader digest resourceId =>
    exact unchanged_onStore (hσ.addVersion _) (by simp) h
  | uploadFile project number file user => exact absurd rfl (hcall project number file user)
  | changeVersion p number user => exact unchanged_onStore (hσ.changeVersion _ _ _ _) (by simp) h
  | clean project bound => exact unchanged_map (fun _ => unchanged_clean hσ) (by simp) h
  | putBundle p b => exact unchanged_onStore (hσ.putBundles _ _) (by simp) h
  | putBundles p bs => exact unchanged_onStore (hσ.putBundles _ _) (by simp) h
  | putFlow p number f => exact unchanged_onStore (hσ.putFlows _ _ _) (by simp) h
  | putFlows p number fs => exact unchanged_onStore (hσ.putFlows _ _ _) (by simp) h
  | updateFlow p number f => exact unchanged_onStore (hσ.updateFlow _ _ _) (by simp) h
  | sweep retained => exact unchanged_map (fun _ => unchanged_sweep) (by simp) h
  | _ => exact unchanged_read

/-! ## Uploads -/

/-- Whether there is no file yet where the archive of an upload would go. An identifier that was
never drawn before leads to such a place. -/
def placeIsFree (r : Registry σ) (tick : Tick) (project number : Int32) (file : Files.Path) :
    Bool :=
  match r.artifacts.locate (Artifacts.resourceId project number tick.fresh
    (Version.fileNameOf file)) with
  | .error _ => true
  | .ok target =>
    match (r.files.makeDirectories target.parent).2.locate target with
    | .error _ => true
    | .ok l =>
      match r.files.node? l with
      | some (.file _) => false
      | _ => true

omit [Store σ] in
theorem not_file_of_placeIsFree {tick : Tick} {project number : Int32} {file target : Files.Path}
    {l : Files.Location} (h : r.placeIsFree tick project number file = true)
    (hlocate : r.artifacts.locate
      (Artifacts.resourceId project number tick.fresh (Version.fileNameOf file)) = .ok target)
    (hl : (r.files.makeDirectories target.parent).2.locate target = .ok l) (content : List UInt8) :
    r.files.node? l ≠ some (.file content) := by
  intro hfile
  simp only [placeIsFree, hlocate, hl, hfile] at h
  cases h

omit [Store σ] in
/-- An archive whose version is refused was the only file that was added. -/
theorem sameFiles_discard {id : String} {source target : Files.Path} {made kept : Files.FileTree}
    (hlocate : r.artifacts.locate id = .ok target) (hmade : r.files.SameFiles made)
    (hcopy : made.copy source target = .ok kept)
    (hplace : ∀ l content, made.locate target = .ok l → r.files.node? l ≠ some (.file content))
    (store : σ) :
    r.files.SameFiles (Registry.discard id { r with files := kept, store }).files := by
  have hdelete : r.artifacts.delete id kept = (.ok (), made) :=
    Artifacts.delete_copy hlocate hcopy fun l content hl hfile => hplace l content hl
      ((hmade l content).1 hfile)
  have hfiles : (Registry.discard id { r with files := kept, store }).files =
      (r.artifacts.delete id kept).2 := rfl
  rw [hfiles, hdelete]
  exact hmade

theorem uploadFile_of_error (hσ : Store.IsAtomic σ) {tick : Tick} {project number : Int32}
    {file : Files.Path} {user : String} {e : Failure}
    (h : (uploadFile tick project number file user r).1 = .error e) :
    (uploadFile tick project number file user r).2.store = r.store ∧
      (r.placeIsFree tick project number file = true →
        r.files.SameFiles (uploadFile tick project number file user r).2.files) := by
  cases hdigest : r.digestOf file with
  | error e =>
    rw [uploadFile_of_unreadable hdigest]
    exact ⟨rfl, fun _ => .refl _⟩
  | ok digest =>
    rw [uploadFile_eq hdigest] at h ⊢
    rcases r.artifacts.store_cases tick.fresh project number file r.files with
      ⟨e, he⟩ | ⟨target, hlocate, ⟨e, he⟩ | ⟨kept, hcopy, hkept⟩⟩
    · rw [he]
      exact ⟨rfl, fun _ => .refl _⟩
    · rw [he]
      exact ⟨rfl, fun _ => Files.FileTree.sameFiles_makeDirectories _ _⟩
    · rw [hkept] at h ⊢
      have hmade := Files.FileTree.sameFiles_makeDirectories r.files target.parent
      have hplace (hfree : r.placeIsFree tick project number file = true) (l : Files.Location)
        (content : List UInt8)
          (hl : (r.files.makeDirectories target.parent).2.locate target = .ok l) :=
        not_file_of_placeIsFree hfree hlocate hl content
      generalize Artifacts.resourceId project number tick.fresh (Version.fileNameOf file) = id at *
      have hadd := hσ.addVersion (.ofUpload project number file user digest id tick.now) r.store
      rcases hx : Store.addVersion (.ofUpload project number file user digest id tick.now)
        r.store with ⟨e | _, store⟩
      · rw [hx] at hadd
        simp only [hx]
        exact ⟨hadd e rfl, fun hfree => sameFiles_discard hlocate hmade hcopy (hplace hfree) store⟩
      · simp only [hx] at h
        cases h

end Registry

/-- What a call leaves as it was when it is refused: the store; the files as well, unless it is an
upload; and of an upload all files, with their content. -/
structure Registry.LeavesNoTrace {σ : Type} [Store σ] (r : Registry σ) (tick : Tick) (call : Call) :
    Prop where
  store : Refused (perform tick call r).1 → (perform tick call r).2.store = r.store
  files : Refused (perform tick call r).1 →
    (∀ project number file user, call ≠ .uploadFile project number file user) →
      (perform tick call r).2.files = r.files
  upload {project number : Int32} {file : Files.Path} {user : String} :
    Refused (perform tick call r).1 → call = .uploadFile project number file user →
      r.placeIsFree tick project number file = true →
        r.files.SameFiles (perform tick call r).2.files

theorem Registry.leavesNoTrace {σ : Type} [Store σ] (hσ : Store.IsAtomic σ) (r : Registry σ)
    (tick : Tick) (call : Call) : r.LeavesNoTrace tick call := by
  have hupload {project number : Int32} {file : Files.Path} {user : String}
      (h : Refused (perform tick (.uploadFile project number file user) r).1) :
      (perform tick (.uploadFile project number file user) r).2.store = r.store ∧
        (r.placeIsFree tick project number file = true →
          r.files.SameFiles (perform tick (.uploadFile project number file user) r).2.files) := by
    obtain ⟨e, he⟩ :=
      exists_error_of_refused (x := uploadFile tick project number file user) (by simp) h
    have hleft : (perform tick (.uploadFile project number file user) r).2 =
        (uploadFile tick project number file user r).2 := congrArg Prod.snd (Step.map_apply _ _ r)
    rw [hleft]
    exact uploadFile_of_error hσ he
  refine ⟨fun h => ?_, fun h hcall => by rw [unchanged_of_refused hσ hcall h],
    fun h hcall hplace => ?_⟩
  · cases call
    case uploadFile project number file user => exact (hupload h).1
    all_goals rw [unchanged_of_refused hσ (by simp) h]
  · subst hcall
    exact (hupload h).2 hplace

/-- A call that is refused changes nothing, in whatever state of memory or of a database, sound or
damaged, open or closed. -/
theorem refused_call_leaves_no_trace (tick : Tick) (call : Call) :
    (∀ r : Registry Memory, r.LeavesNoTrace tick call) ∧
      ∀ r : Registry Database, r.LeavesNoTrace tick call :=
  ⟨fun r => r.leavesNoTrace Memory.isAtomic tick call,
    fun r => r.leavesNoTrace Database.isAtomic tick call⟩

/-- A file to upload, over a database that holds one project and has given out all row ids of
events. -/
def exhausted : Registry Database :=
  .start {} (.ofText "root") ⟨Table.empty.insert [Text.utf8 "a.zip"] (.file [1, 2, 3])⟩ {
    relations := { Relations.empty with
      projects := Table.empty.insert 1 (ProjectRow.new "flows" "" "ann" .epoch).store }
    projectSequence := some 1
    eventSequence := Database.lastRowId }

/-- A description that cannot be logged is not changed, and an archive whose version is refused is
not kept. -/
theorem exhausted_leaves_no_trace :
    (Registry.perform .first (.describe (.new 1 "flows" "" "ann" .epoch) "new" "ann")
        exhausted).2.store = exhausted.store ∧
      exhausted.files.SameFiles
        (Registry.perform .first (.uploadFile 9 1 (.ofText "a.zip") "ann") exhausted).2.files := by
  have hdescribe : (Registry.perform .first (.describe (.new 1 "flows" "" "ann" .epoch) "new" "ann")
      exhausted).1 = .error (.storage (.database .full)) := by rfl
  have hupload : (Registry.perform .first (.uploadFile 9 1 (.ofText "a.zip") "ann") exhausted).1 =
      .error (.noProject 9) := by rfl
  have hplace : exhausted.placeIsFree .first 9 1 (.ofText "a.zip") = true := by decide +kernel
  constructor
  · exact ((refused_call_leaves_no_trace .first _).2 exhausted).store (.inl ⟨_, hdescribe⟩)
  · exact ((refused_call_leaves_no_trace .first _).2 exhausted).upload (.inl ⟨_, hupload⟩) rfl
      hplace

end ProjectRegistry
