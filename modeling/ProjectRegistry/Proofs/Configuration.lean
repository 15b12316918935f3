import ProjectRegistry.Configuration
import ProjectRegistry.Proofs.Text.Digits

/-!
# Layers of a configuration

A setting has the value that its variable spells, or else the value in the document, or else its
default. Each layer is told by a relation: a variable gives a value if its text stands for one, and
otherwise the setting keeps what it was given; a document gives what it says, and what it does not
say has its default. A variable decides alone, so taking the variables twice is taking them once.
-/

namespace ProjectRegistry.Configuration

variable {α : Type}

/-! ## Variables -/

/-- Whether a setting has the value that its variable stands for, and otherwise the given one. -/
structure Overrides (env : Environment) (name : String) (means : String → α → Prop)
    (given value : α) : Prop where
  set {s : String} {a : α} : env name = some s → means s a → value = a
  kept : (∀ s a, env name = some s → ¬means s a) → value = given

def IsText (s : String) (a : String) : Prop := a = s

def IsPath (s : String) (p : Files.Path) : Prop := p = .ofText s

/-- A number below a bound, spelled with digits after at most one plus sign. -/
def IsNumber (bound : Nat) (s : String) (n : Nat) : Prop := Text.Spells 10 s.toList n ∧ n < bound

def IsTruth (s : String) (b : Bool) : Prop := s = if b then "true" else "false"

theorem overrides {read : String → Option α} {means : String → α → Prop}
    (hread : ∀ s a, read s = some a ↔ means s a) (env : Environment) (name : String) (given : α) :
    Overrides env name means given (override env name read given) where
  set hs ha := by rw [override, hs, Option.bind_some, (hread _ _).2 ha, Option.getD_some]
  kept h := by
    have hnone : (env name).bind read = none := by
      refine Option.eq_none_iff_forall_ne_some.2 fun a ha => ?_
      obtain ⟨s, hs, hsa⟩ := Option.bind_eq_some_iff.1 ha
      exact h s a hs ((hread s a).1 hsa)
    rw [override, hnone, Option.getD_none]

theorem override_override (env : Environment) (name : String) (read : String → Option α)
    (given : α) : override env name read (override env name read given) =
      override env name read given := by
  unfold override
  cases (env name).bind read <;> rfl

theorem number?_eq_some_iff {bound n : Nat} {s : String} :
    number? bound s = some n ↔ IsNumber bound s n :=
  Text.unsigned?_eq_some_iff (by decide)

theorem bool?_eq_some_iff {s : String} {b : Bool} : bool? s = some b ↔ IsTruth s b := by
  unfold bool? IsTruth
  split
  · next htrue => cases b <;> simp [htrue]
  · next htrue =>
    split
    · next hfalse => cases b <;> simp [hfalse]
    · next hfalse => cases b <;> simp [htrue, hfalse]

/-- What the variables make of a configuration. -/
structure OverriddenBy (env : Environment) (base c : Configuration) : Prop where
  backend : Overrides env "FC_PROJECT_DB_TYPE" IsText base.backend c.backend
  databaseUrl : Overrides env "FC_PROJECT_DB_URL" IsText base.databaseUrl c.databaseUrl
  artifactRoot : Overrides env "FC_PROJECT_ARTIFACT_DIR" IsPath base.artifactRoot c.artifactRoot
  maxConnections : Overrides env "FC_PROJECT_DB_MAX_CONNECTIONS" (IsNumber UInt32.size)
    base.maxConnections c.maxConnections
  versionRetention : Overrides env "FC_PROJECT_VERSION_RETENTION" (IsNumber UInt32.size)
    base.versionRetention c.versionRetention
  retentionIntervalSeconds : Overrides env "FC_PROJECT_RETENTION_INTERVAL_SECS"
    (IsNumber UInt64.size) base.retentionIntervalSeconds c.retentionIntervalSeconds
  logJson : Overrides env "FC_PROJECT_LOG_JSON" IsTruth base.logJson c.logJson
  limits : c.limits = base.limits

theorem overriddenBy (env : Environment) (base : Configuration) :
    OverriddenBy env base (withEnvironment env base) where
  backend := overrides (fun _ _ => by rw [Option.some.injEq, IsText, eq_comm]) env _ _
  databaseUrl := overrides (fun _ _ => by rw [Option.some.injEq, IsText, eq_comm]) env _ _
  artifactRoot := overrides (fun _ _ => by rw [Option.some.injEq, IsPath, eq_comm]) env _ _
  maxConnections := overrides (fun _ _ => number?_eq_some_iff) env _ _
  versionRetention := overrides (fun _ _ => number?_eq_some_iff) env _ _
  retentionIntervalSeconds := overrides (fun _ _ => number?_eq_some_iff) env _ _
  logJson := overrides (fun _ _ => bool?_eq_some_iff) env _ _
  limits := rfl

theorem withEnvironment_twice (env : Environment) (c : Configuration) :
    withEnvironment env (withEnvironment env c) = withEnvironment env c := by
  simp only [withEnvironment, override_override]

/-! ## Documents -/

/-- Whether a setting has the value that a document says, and otherwise its default. -/
structure SaysOr (entries : Toml.Entries) (name : String) (means : Toml.Item → α → Prop)
    (default value : α) : Prop where
  said {item : Toml.Item} : entries.lookup name = some item → means item value
  unsaid : entries.lookup name = none → value = default

def IsTextItem (item : Toml.Item) (a : String) : Prop := item = .value (.string a)

def IsPathItem (item : Toml.Item) (p : Files.Path) : Prop := ∃ s, IsTextItem item s ∧ p = .ofText s

def IsNumberItem (bound : Nat) (item : Toml.Item) (n : Nat) : Prop :=
  item = .value (.integer n) ∧ n < bound

def IsTruthItem (item : Toml.Item) (b : Bool) : Prop := item = .value (.bool b)

theorem setting?_eq_some_iff {read : Toml.Item → Option α} {means : Toml.Item → α → Prop}
    (hread : ∀ item a, read item = some a ↔ means item a) {entries : Toml.Entries} {name : String}
    {default value : α} : setting? entries name read default = some value ↔
      SaysOr entries name means default value := by
  unfold setting?
  cases hitem : entries.lookup name with
  | none =>
    constructor
    · intro h
      exact ⟨fun h' => by simp [hitem] at h', fun _ => (Option.some.inj h).symm⟩
    · intro h
      rw [h.unsaid hitem]
  | some item =>
    simp only [hread]
    constructor
    · intro h
      exact ⟨fun h' => Option.some.inj (hitem.symm.trans h') ▸ h, fun h' => by simp [hitem] at h'⟩
    · intro h
      exact h.said hitem

theorem textItem?_eq_some_iff (item : Toml.Item) (a : String) :
    textItem? item = some a ↔ IsTextItem item a := by
  unfold textItem? IsTextItem
  split
  · simp
  · next hother => exact iff_of_false (by simp) (hother a)

theorem pathItem?_eq_some_iff (item : Toml.Item) (p : Files.Path) :
    (textItem? item).map .ofText = some p ↔ IsPathItem item p := by
  rw [Option.map_eq_some_iff]
  exact exists_congr fun s => and_congr (textItem?_eq_some_iff item s) eq_comm

theorem numberItem?_eq_some_iff (bound : Nat) (item : Toml.Item) (n : Nat) :
    numberItem? bound item = some n ↔ IsNumberItem bound item n := by
  unfold numberItem? IsNumberItem
  split
  · simp only [Option.ite_none_right_eq_some, Option.some.injEq, Toml.Item.value.injEq,
      Toml.Value.integer.injEq]
    omega
  · next hother => exact iff_of_false (by simp) fun h => hother n h.1

theorem boolItem?_eq_some_iff (item : Toml.Item) (b : Bool) :
    boolItem? item = some b ↔ IsTruthItem item b := by
  unfold boolItem? IsTruthItem
  split
  · simp
  · next hother => exact iff_of_false (by simp) (hother b)

/-- What the settings of a document are. -/
structure FromDocument (entries : Toml.Entries) (c : Configuration) : Prop where
  backend : SaysOr entries "backend" IsTextItem "sqlite" c.backend
  databaseUrl :
    SaysOr entries "database_url" IsTextItem "sqlite://./data/projects.db" c.databaseUrl
  maxConnections : SaysOr entries "max_connections" (IsNumberItem UInt32.size) 10 c.maxConnections
  artifactRoot :
    SaysOr entries "artifact_dir" IsPathItem (.ofText "./data/artifacts") c.artifactRoot
  name : SaysOr entries "max_name_length" (IsNumberItem (Nat.pow 2 63)) 64 c.limits.name
  description :
    SaysOr entries "max_description_length" (IsNumberItem (Nat.pow 2 63)) 2048 c.limits.description
  versionRetention :
    SaysOr entries "version_retention" (IsNumberItem UInt32.size) 3 c.versionRetention
  retentionIntervalSeconds : SaysOr entries "retention_interval_secs"
    (IsNumberItem (Nat.pow 2 63)) 3600 c.retentionIntervalSeconds
  logJson : SaysOr entries "log_json" IsTruthItem false c.logJson

theorem ofEntries?_eq_some_iff {entries : Toml.Entries} {c : Configuration} :
    ofEntries? entries = some c ↔ FromDocument entries c := by
  simp only [ofEntries?, Option.bind_eq_bind, Option.bind_eq_some_iff, Option.pure_def,
    setting?_eq_some_iff textItem?_eq_some_iff, setting?_eq_some_iff pathItem?_eq_some_iff,
    setting?_eq_some_iff (numberItem?_eq_some_iff _), setting?_eq_some_iff boolItem?_eq_some_iff]
  constructor
  · rintro ⟨_, hbackend, _, hurl, _, hconnections, _, hroot, _, hname, _, hdescription, _,
      hretention, _, hinterval, _, hlog, hc⟩
    cases hc
    exact ⟨hbackend, hurl, hconnections, hroot, hname, hdescription, hretention, hinterval, hlog⟩
  · intro h
    exact ⟨_, h.backend, _, h.databaseUrl, _, h.maxConnections, _, h.artifactRoot, _, h.name, _,
      h.description, _, h.versionRetention, _, h.retentionIntervalSeconds, _, h.logJson, rfl⟩

/-! ## Both layers -/

/-- Whether a file can be read and is the document with some entries. -/
def HoldsDocument (files : Files.FileTree) (path : Files.Path) (entries : Toml.Entries) : Prop :=
  ∃ bytes text, files.read path = .ok bytes ∧ Text.decode? bytes = some text ∧
    Toml.Entries.ofText? text = some entries

theorem ofFile_eq_ok_iff {files : Files.FileTree} {path : Files.Path} {c : Configuration} :
    ofFile files path = .ok c ↔ ∃ entries, HoldsDocument files path entries ∧
      FromDocument entries c := by
  simp only [← ofEntries?_eq_some_iff]
  constructor
  · intro h
    unfold ofFile at h
    split at h
    · cases h
    · next bytes hread =>
      split at h
      · next text htext =>
        unfold ofText at h
        split at h
        · next hc =>
          cases h
          obtain ⟨entries, hentries, hc⟩ := Option.bind_eq_some_iff.1 hc
          exact ⟨entries, ⟨bytes, text, hread, htext, hentries⟩, hc⟩
        · cases h
      · cases h
  · rintro ⟨entries, ⟨bytes, text, hread, htext, hentries⟩, hc⟩
    simp only [ofFile, hread, htext, ofText, hentries, Option.bind_some, hc]

/-- What the variables are laid over: the document that one of them names, or the defaults. -/
inductive StartsFrom (files : Files.FileTree) (env : Environment) : Configuration → Prop where
  | defaults : env "FC_PROJECT_CONFIG" = none → StartsFrom files env {}
  | document {path : String} {entries : Toml.Entries} {base : Configuration} :
    env "FC_PROJECT_CONFIG" = some path → HoldsDocument files (.ofText path) entries →
    FromDocument entries base → StartsFrom files env base

theorem load_eq_ok_iff {files : Files.FileTree} {env : Environment} {c : Configuration} :
    load files env = .ok c ↔ ∃ base, StartsFrom files env base ∧ c = withEnvironment env base := by
  unfold load
  cases hpath : env "FC_PROJECT_CONFIG" with
  | none =>
    constructor
    · intro h
      exact ⟨{}, .defaults hpath, (Except.ok.inj h).symm⟩
    · rintro ⟨base, hbase, rfl⟩
      cases hbase with
      | defaults => rfl
      | document hpath' => simp [hpath] at hpath'
  | some path =>
    constructor
    · intro h
      simp only at h
      split at h
      · next base hbase =>
        obtain ⟨entries, hholds, hdocument⟩ := ofFile_eq_ok_iff.1 hbase
        exact ⟨base, .document hpath hholds hdocument, (Except.ok.inj h).symm⟩
      · cases h
    · rintro ⟨base, hbase, rfl⟩
      cases hbase with
      | defaults hpath' => simp [hpath] at hpath'
      | document hpath' hholds hdocument =>
        cases hpath.symm.trans hpath'
        simp only [ofFile_eq_ok_iff.2 ⟨_, hholds, hdocument⟩]

/-- Each variable that spells a value of its setting sets it, and no other one changes anything, so
that the variables may be taken twice; what they are laid over when a configuration is loaded is the
document, with defaults for what it does not say. -/
theorem variables_override_document :
    (∀ env base, OverriddenBy env base (withEnvironment env base)) ∧
      (∀ env base,
        withEnvironment env (withEnvironment env base) = withEnvironment env base) ∧
      ∀ files env c, load files env = .ok c ↔
        ∃ base, StartsFrom files env base ∧ c = withEnvironment env base :=
  ⟨overriddenBy, withEnvironment_twice, fun _ _ _ => load_eq_ok_iff⟩

example : number? UInt32.size "+0004294967295" = some 4294967295 := by decide
example : number? UInt32.size "4294967296" = none := by decide

end ProjectRegistry.Configuration
