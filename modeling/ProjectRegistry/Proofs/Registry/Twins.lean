import ProjectRegistry.Proofs.Registry.Journal
import ProjectRegistry.Proofs.Store.Twins
import ProjectRegistry.Proofs.Timeless

/-!
# Twin registries

Registries over a memory and a database that are twins, with the same files, do the same with their
archives, and sweep the same versions. All that counts there of a version or a project is the same
apart from times.
-/

namespace ProjectRegistry.Registry

open Time (Instant)

/-! ## Twins -/

/-- Registries over a memory and a database that are twins, with the same files. -/
structure AreTwins (now now' : Instant) (r : Registry Memory) (r' : Registry Database) : Prop where
  limits : r.limits = r'.limits
  artifacts : r.artifacts = r'.artifacts
  files : r.files = r'.files
  stores : ∃ l, Twins now now' l r.store r'.store

/-- Outcomes of twins that agree: twins again, and answers that are the same apart from times. -/
structure Match {α β : Type} (now now' : Instant) (f : α → β)
    (o : Except Failure α × Registry Memory) (o' : Except Failure α × Registry Database) :
    Prop where
  answers : o.1.map f = o'.1.map f
  twins : AreTwins now now' o.2 o'.2

variable {now now' : Instant} {r : Registry Memory} {r' : Registry Database}

theorem AreTwins.later {before before' : Instant} (h : AreTwins before before' r r')
    (hnow : now.Ordinary) (hnow' : now'.Ordinary) (hle : before.atMost now = true)
    (hle' : before'.atMost now' = true) :
    AreTwins now now' r r' := by
  obtain ⟨l, hl⟩ := h.stores
  exact ⟨h.limits, h.artifacts, h.files, l, hl.later hnow hnow' hle hle'⟩

theorem AreTwins.ask {α β : Type} (h : AreTwins now now' r r') (f : α → β)
    {q : Memory → Except Failure α} {q' : Database → Except Failure α}
    (hq : ∀ l, Twins now now' l r.store r'.store → (q r.store).map f = (q' r'.store).map f) :
    Match now now' f (ask q r) (ask q' r') := by
  obtain ⟨l, hl⟩ := h.stores
  exact ⟨hq l hl, h⟩

theorem AreTwins.onStore {α β : Type} (h : AreTwins now now' r r') {f : α → β} {x : Step Memory α}
    {x' : Step Database α}
    (hx : ∀ l, Twins now now' l r.store r'.store →
      Twins.Match now now' f (x r.store) (x' r'.store)) :
    Match now now' f (onStore x r) (onStore x' r') := by
  obtain ⟨l, hl⟩ := h.stores
  obtain ⟨hanswers, htwins⟩ := hx l hl
  exact ⟨hanswers, h.limits, h.artifacts, h.files, htwins⟩

theorem Match.map {α β : Type} {f : α → β} {x : Step (Registry Memory) α}
    {x' : Step (Registry Database) α} (h : Match now now' f (x r) (x' r')) {k : α → Reply}
    (k' : β → Reply) (hk : ∀ a, (k a).timeless = k' (f a)) :
    Match now now' Reply.timeless ((x >>= fun a => pure (k a)) r)
      ((x' >>= fun a => pure (k a)) r') := by
  have hwrap (a : Except Failure α) : (a.map k).map Reply.timeless = (a.map f).map k' := by
    cases a with
    | error e => rfl
    | ok a => exact congrArg Except.ok (hk a)
  rw [Step.map_apply, Step.map_apply]
  refine ⟨?_, h.twins⟩
  rw [hwrap, hwrap, h.answers]

theorem AreTwins.perform {α β : Type} (h : AreTwins now now' r r') {f : α → β} {x : Step Memory α}
    {x' : Step Database α} {k : α → Reply} (k' : β → Reply) (hk : ∀ a, (k a).timeless = k' (f a))
    (hx : ∀ l, Twins now now' l r.store r'.store → (x r.store).2.FitsRowIds →
      Twins.Match now now' f (x r.store) (x' r'.store))
    (hroom : ((Registry.onStore x >>= fun a => pure (k a)) r).2.store.FitsRowIds) :
    Match now now' Reply.timeless ((Registry.onStore x >>= fun a => pure (k a)) r)
      ((Registry.onStore x' >>= fun a => pure (k a)) r') := by
  rw [Step.map_apply] at hroom
  exact (h.onStore fun l hl => hx l hl hroom).map k' hk

theorem onStore_of_error {σ α : Type} {x : Step σ α} {k : α → Reply} {r : Registry σ}
    {e : Failure} (hx : x r.store = (.error e, r.store)) :
    (Registry.onStore x >>= fun a => pure (k a)) r = (.error e, r) := by
  rw [Step.map_apply, onStore_apply, hx]
  rfl

theorem AreTwins.settle (h : AreTwins now now' r r') {x : Step Memory Unit}
    {x' : Step Database Unit}
    (hx : ∀ l, Twins now now' l r.store r'.store → (x r.store).2.FitsRowIds →
      Twins.Match now now' id (x r.store) (x' r'.store))
    (hroom : ((Registry.onStore x >>= fun _ => pure Reply.done) r).2.store.FitsRowIds) :
    Match now now' Reply.timeless ((Registry.onStore x >>= fun _ => pure .done) r)
      ((Registry.onStore x' >>= fun _ => pure .done) r') :=
  h.perform (fun _ => .done) (fun _ => rfl) hx hroom

theorem Becomes.fitsRowIds {P : Change → Prop} {r r' : Registry Memory}
    (h : Becomes Memory.view P r r') (hroom : r'.store.FitsRowIds) : r.store.FitsRowIds := by
  obtain ⟨_, _, cs, _, hfit, hrelations⟩ := h
  exact hroom.of_applyAll hfit hrelations

/-! ## Archives -/

theorem AreTwins.discard (h : AreTwins now now' r r') (resourceId : String) :
    AreTwins now now' (r.discard resourceId) (r'.discard resourceId) where
  limits := h.limits
  artifacts := h.artifacts
  files := by
    show (r.artifacts.delete resourceId r.files).2 = (r'.artifacts.delete resourceId r'.files).2
    rw [h.artifacts, h.files]
  stores := h.stores

theorem AreTwins.discardAll (h : AreTwins now now' r r') {vs vs' : List Version}
    (hids : vs.map Version.resourceId = vs'.map Version.resourceId) :
    AreTwins now now' (vs.foldl (fun r v => r.discard v.resourceId) r)
      (vs'.foldl (fun r v => r.discard v.resourceId) r') := by
  induction vs generalizing r r' vs' with
  | nil =>
    rw [List.map_nil, eq_comm, List.map_eq_nil_iff] at hids
    subst hids
    exact h
  | cons v rest ih =>
    cases vs' with
    | nil => cases hids
    | cons v' rest' =>
      obtain ⟨hid, hrest⟩ := List.cons.inj hids
      rw [List.foldl_cons, List.foldl_cons, ← hid]
      exact ih (h.discard v.resourceId) hrest

theorem AreTwins.clean (h : AreTwins now now' r r') (project bound : Int32) :
    Match now now' (List.map Version.timeless) (clean project bound r)
      (clean project bound r') := by
  obtain ⟨l, hl⟩ := h.stores
  have hclean := hl.clean project bound
  rw [clean_eq, clean_eq]
  rcases hx : Store.clean project bound r.store with ⟨a, m⟩
  rcases hx' : Store.clean project bound r'.store with ⟨a', d⟩
  rw [show Memory.clean project bound r.store = (a, m) from hx,
    show Database.clean project bound r'.store = (a', d) from hx'] at hclean
  have htwins : AreTwins now now' { r with store := m } { r' with store := d } :=
    ⟨h.limits, h.artifacts, h.files, hclean.twins⟩
  rcases Step.cases_of_map_eq hclean.answers with
    ⟨e, rfl, rfl⟩ | ⟨removed, removed', rfl, rfl, hremoved⟩
  · exact ⟨rfl, htwins⟩
  · have hids : removed.map Version.resourceId = removed'.map Version.resourceId :=
      map_eq_of_timeless hremoved fun _ => rfl
    exact ⟨congrArg Except.ok hremoved, htwins.discardAll hids⟩

/-- Both draw the same identifier for the archive, and both take it away again if the version is
refused. -/
theorem AreTwins.uploadFile (h : AreTwins now now' r r') (fresh : Uuid) (project number : Int32)
    (file : Files.Path) (user : String)
    (hroom : (uploadFile ⟨now, fresh⟩ project number file user r).2.store.FitsRowIds) :
    Match now now' id (uploadFile ⟨now, fresh⟩ project number file user r)
      (uploadFile ⟨now', fresh⟩ project number file user r') := by
  have hdigest : r.digestOf file = r'.digestOf file := by rw [digestOf, h.files, digestOf]
  obtain ⟨l, hl⟩ := h.stores
  cases hread : r.digestOf file with
  | error e =>
    rw [uploadFile_of_unreadable hread, uploadFile_of_unreadable (hdigest ▸ hread)]
    exact ⟨rfl, h⟩
  | ok digest =>
    have hupload := uploadFile_eq hread ⟨now, fresh⟩ project number user
    have hupload' := uploadFile_eq (hdigest ▸ hread) ⟨now', fresh⟩ project number user
    rw [← h.artifacts, ← h.files] at hupload'
    rw [hupload] at hroom ⊢
    rw [hupload']
    rcases hstored : r.artifacts.store fresh project number file r.files with ⟨e | id, files⟩
    · exact ⟨rfl, h.limits, rfl, rfl, h.stores⟩
    · have hsame : (Version.ofUpload project number file user digest id now).timeless =
          (Version.ofUpload project number file user digest id now').timeless := rfl
      have hadd := hl.addVersion hsame rfl rfl
      simp only [hstored] at hroom ⊢
      rcases hx : Store.addVersion (.ofUpload project number file user digest id now) r.store with
        ⟨a, m⟩
      rcases hx' : Store.addVersion (.ofUpload project number file user digest id now')
        r'.store with ⟨a', d⟩
      have hm : Memory.addVersion (.ofUpload project number file user digest id now) r.store =
          (a, m) := hx
      have hd : Database.addVersion (.ofUpload project number file user digest id now') r'.store =
          (a', d) := hx'
      rw [hx] at hroom
      rw [hm, hd] at hadd
      have hadded := hadd (by cases a <;> exact hroom)
      have htwins : AreTwins now now' { r with files := files, store := m }
          { r' with artifacts := r.artifacts, files := files, store := d } :=
        ⟨h.limits, rfl, rfl, hadded.twins⟩
      rcases Step.cases_of_map_eq hadded.answers with ⟨e, rfl, rfl⟩ | ⟨_, _, rfl, rfl, -⟩
      · exact ⟨rfl, htwins.discard id⟩
      · exact ⟨rfl, htwins⟩

/-! ## Sweeps -/

theorem newest?_congr {vs vs' : List Version} (h : vs.map Version.number = vs'.map Version.number) :
    newest? vs = newest? vs' := by
  have hnewest (vs : List Version) : newest? vs =
      (vs.map Version.number).foldl
        (fun largest v => some ((largest.map fun n => if n < v then v else n).getD v)) none := by
    rw [newest?, List.foldl_map]
  rw [hnewest, h, hnewest]

theorem purgeMessage_congr {vs vs' : List Version}
    (h : vs.map Version.number = vs'.map Version.number) (threshold : Int32) :
    purgeMessage vs threshold = purgeMessage vs' threshold := by
  have hnumbers : (vs.map fun v => Text.decimalOf v.number.toInt) =
      vs'.map fun v => Text.decimalOf v.number.toInt := by
    have hmap := congrArg (List.map fun n : Int32 => Text.decimalOf n.toInt) h
    rw [List.map_map, List.map_map] at hmap
    exact hmap
  unfold purgeMessage
  rw [hnumbers]

variable {σ : Type} [Store σ]

theorem AreTwins.sweepProject (h : AreTwins now now' r r') {p p' : Project} (hid : p.id = p'.id)
    (retained : Nat) (hroom : (sweepProject now retained p r).2.store.FitsRowIds) :
    Match now now' id (sweepProject now retained p r) (sweepProject now' retained p' r') := by
  obtain ⟨l, hl⟩ := h.stores
  rcases Step.cases_of_map_eq (hl.versions p.id) with
    ⟨e, hm, -⟩ | ⟨versions, versions', hm, hd, hversions⟩
  · cases hm
  have hnumbers : versions.map Version.number = versions'.map Version.number :=
    map_eq_of_timeless hversions fun _ => rfl
  have hnewest := newest?_congr hnumbers
  rw [sweepProject_eq, show Store.versions p.id r.store = .ok versions from hm] at hroom ⊢
  rw [sweepProject_eq, ← hid, show Store.versions p.id r'.store = .ok versions' from hd]
  simp only [← hnewest]
  cases hthreshold : (newest? versions).bind (threshold? retained) with
  | none => exact ⟨rfl, h⟩
  | some threshold =>
    have hclean := h.clean p.id threshold
    simp only [hthreshold] at hroom ⊢
    rcases hx : Registry.clean p.id threshold r with ⟨a, s⟩
    rcases hx' : Registry.clean p.id threshold r' with ⟨a', s'⟩
    rw [hx, hx'] at hclean
    rw [hx] at hroom
    rcases Step.cases_of_map_eq hclean.answers with
      ⟨e, rfl, rfl⟩ | ⟨removed, removed', rfl, rfl, hremoved⟩
    · exact ⟨rfl, hclean.twins⟩
    · have hnumbers : removed.map Version.number = removed'.map Version.number :=
        map_eq_of_timeless hremoved fun _ => rfl
      have hmessage := purgeMessage_congr hnumbers threshold
      have hlength : removed.length = removed'.length := by
        have hmap := congrArg List.length hremoved
        rw [List.length_map, List.length_map] at hmap
        exact hmap
      have hempty : removed.isEmpty = removed'.isEmpty := by
        have hmap := congrArg List.isEmpty hremoved
        rw [List.isEmpty_map, List.isEmpty_map] at hmap
        exact hmap
      simp only [← hempty, ← hmessage, ← hlength]
      cases hnone : removed.isEmpty with
      | true => exact ⟨rfl, hclean.twins⟩
      | false =>
        obtain ⟨l', hl'⟩ := hclean.twins.stores
        simp only [hnone] at hroom
        have hpost := hl'.postEvent hid .purge sweeper (purgeMessage removed threshold) hroom
        exact ⟨rfl, hclean.twins.limits, hclean.twins.artifacts, hclean.twins.files, hpost.2⟩

/-- A report with one more project. -/
def SweepReport.count (report : SweepReport) : Except Failure Nat → SweepReport
  | .ok removed => ⟨report.scanned + 1, removed + report.removed, report.failures⟩
  | .error _ => ⟨report.scanned + 1, report.removed, report.failures + 1⟩

theorem sweepAll_cons (now : Instant) (retained : Nat) (p : Project) (rest : List Project)
    (r : Registry σ) :
    sweepAll now retained (p :: rest) r =
      ((sweepAll now retained rest (sweepProject now retained p r).2).1.count
        (sweepProject now retained p r).1,
        (sweepAll now retained rest (sweepProject now retained p r).2).2) := by
  rw [sweepAll]
  rcases sweepProject now retained p r with ⟨e | removed, r'⟩
  · rfl
  · rfl

theorem AreTwins.good (h : AreTwins now now' r r') : Memory.view.Good r.store := by
  obtain ⟨l, hl⟩ := h.stores
  exact hl.memory

theorem AreTwins.sweepAll (h : AreTwins now now' r r') {ps ps' : List Project}
    (hids : ps.map Project.id = ps'.map Project.id) (retained : Nat)
    (hroom : (sweepAll now retained ps r).2.store.FitsRowIds) :
    (sweepAll now retained ps r).1 = (sweepAll now' retained ps' r').1 ∧
      AreTwins now now' (sweepAll now retained ps r).2 (sweepAll now' retained ps' r').2 := by
  induction ps generalizing r r' ps' with
  | nil =>
    rw [List.map_nil, eq_comm, List.map_eq_nil_iff] at hids
    subst hids
    exact ⟨rfl, h⟩
  | cons p rest ih =>
    cases ps' with
    | nil => cases hids
    | cons p' rest' =>
      obtain ⟨hid, hrest⟩ := List.cons.inj hids
      have hstep := becomes_sweepProject Memory.lawful h.good now retained p
      have hbecomes := becomes_sweepAll Memory.lawful now retained rest hstep.2.1
      rw [sweepAll_cons] at hroom ⊢
      rw [sweepAll_cons]
      have hproject := h.sweepProject hid retained (hbecomes.fitsRowIds hroom)
      obtain ⟨hreport, htwins⟩ := ih hproject.twins hrest hroom
      have hanswer := hproject.answers
      rw [Except.map_id, id_eq, id_eq] at hanswer
      refine ⟨?_, htwins⟩
      rw [hreport, hanswer]

theorem AreTwins.sweep (h : AreTwins now now' r r') (retained : Nat)
    (hroom : (sweep now retained r).2.store.FitsRowIds) :
    Match now now' id (sweep now retained r) (sweep now' retained r') := by
  obtain ⟨l, hl⟩ := h.stores
  rcases Step.cases_of_map_eq hl.activeProjects with ⟨e, hm, -⟩ | ⟨ps, ps', hm, hd, hps⟩
  · cases hm
  have hids : ps.map Project.id = ps'.map Project.id := map_eq_of_timeless hps fun _ => rfl
  rw [sweep_eq, show Store.activeProjects r.store = .ok ps from hm] at hroom ⊢
  rw [sweep_eq, show Store.activeProjects r'.store = .ok ps' from hd]
  obtain ⟨hreport, htwins⟩ := h.sweepAll hids retained hroom
  exact ⟨congrArg Except.ok hreport, htwins⟩

/-! ## Versions with their archives -/

theorem AreTwins.version? (h : AreTwins now now' r r') (project number : Int32) :
    (r.version? project number).map (Option.map VersionFile.timeless) =
      (r'.version? project number).map (Option.map VersionFile.timeless) := by
  obtain ⟨l, hl⟩ := h.stores
  rcases Step.cases_of_map_eq (hl.version? project number) with ⟨e, hm, -⟩ | ⟨v, v', hm, hd, hv⟩
  · cases hm
  have hquery : Store.version? project number r.store = .ok v := hm
  have hquery' : Store.version? project number r'.store = .ok v' := hd
  rw [Registry.version?, hquery, Registry.version?, hquery']
  have hfiles := congrArg (Option.map VersionFile.ofVersion) hv
  rw [Option.map_map, Option.map_map] at hfiles
  simp only [Except.map, Option.map_map]
  exact congrArg Except.ok hfiles

theorem AreTwins.uploadedFile (h : AreTwins now now' r r') (project number : Int32) :
    (r.uploadedFile project number).map VersionFile.timeless =
      (r'.uploadedFile project number).map VersionFile.timeless := by
  rw [Registry.uploadedFile, Registry.uploadedFile]
  rcases Step.cases_of_map_eq (h.version? project number) with ⟨e, hm, hd⟩ | ⟨f, f', hm, hd, hf⟩
  · rw [hm, hd]
  · rw [hm, hd]
    cases f with
    | none =>
      cases f' with
      | none => rfl
      | some f' => cases hf
    | some f =>
      cases f' with
      | none => cases hf
      | some f' =>
        have hversion := Option.some.inj hf
        have hid : f.timeless.version.resourceId = f'.timeless.version.resourceId :=
          congrArg (fun f => f.version.resourceId) hversion
        change f.version.resourceId = f'.version.resourceId at hid
        simp only [← h.artifacts, ← h.files, ← hid]
        cases r.artifacts.fetch f.version.resourceId r.files with
        | error e => rfl
        | ok path =>
          exact congrArg (fun f : VersionFile => Except.ok (f.withLocalFile path)) hversion

end ProjectRegistry.Registry
