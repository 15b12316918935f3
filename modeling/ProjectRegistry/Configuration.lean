import ProjectRegistry.Files.Tree
import ProjectRegistry.Limits
import ProjectRegistry.Text.Digits
import ProjectRegistry.Toml.Document

/-!
# Configuration

Where a registry keeps its projects and archives, and within which bounds. Each setting has a
default, a TOML document may change any of them, and environment variables come last. What a
document says has to be right; a variable that is no number or truth value is passed over.
-/

namespace ProjectRegistry

structure Configuration where
  backend : String := "sqlite"
  databaseUrl : String := "sqlite://./data/projects.db"
  maxConnections : Nat := 10
  artifactRoot : Files.Path := .ofText "./data/artifacts"
  limits : Limits := {}
  versionRetention : Nat := 3
  retentionIntervalSeconds : Nat := 3600
  logJson : Bool := false
  deriving DecidableEq

namespace Configuration

/-! ## From a document -/

def textItem? : Toml.Item → Option String
  | .value (.string s) => some s
  | _ => none

def numberItem? (bound : Nat) : Toml.Item → Option Nat
  | .value (.integer n) => if 0 ≤ n ∧ n < bound then some n.toNat else none
  | _ => none

def boolItem? : Toml.Item → Option Bool
  | .value (.bool b) => some b
  | _ => none

def setting? {α : Type} (entries : Toml.Entries) (name : String) (read : Toml.Item → Option α)
    (default : α) :
    Option α :=
  match entries.lookup name with
  | none => some default
  | some item => read item

/-- The settings of a document. Names that are no setting do not matter. -/
def ofEntries? (entries : Toml.Entries) : Option Configuration := do
  let base : Configuration := {}
  let backend ← setting? entries "backend" textItem? base.backend
  let databaseUrl ← setting? entries "database_url" textItem? base.databaseUrl
  let maxConnections ← setting? entries "max_connections" (numberItem? UInt32.size)
    base.maxConnections
  let artifactRoot ← setting? entries "artifact_dir" (fun i => (textItem? i).map .ofText)
    base.artifactRoot
  let name ← setting? entries "max_name_length" (numberItem? (Nat.pow 2 63)) base.limits.name
  let description ← setting? entries "max_description_length" (numberItem? (Nat.pow 2 63))
    base.limits.description
  let versionRetention ← setting? entries "version_retention" (numberItem? UInt32.size)
    base.versionRetention
  let retentionIntervalSeconds ←
    setting? entries "retention_interval_secs" (numberItem? (Nat.pow 2 63))
      base.retentionIntervalSeconds
  let logJson ← setting? entries "log_json" boolItem? base.logJson
  return {
    backend, databaseUrl, maxConnections, artifactRoot, limits :=
      ⟨name, description⟩, versionRetention,
    retentionIntervalSeconds, logJson }

def ofText (text : String) : Except Failure Configuration :=
  match (Toml.Entries.ofText? text).bind ofEntries? with
  | some c => .ok c
  | none => .error (.violation .configuration)

def ofFile (files : Files.FileTree) (path : Files.Path) : Except Failure Configuration :=
  match files.read path with
  | .error fault => .error (.file fault)
  | .ok bytes =>
    match Text.decode? bytes with
    | some text => ofText text
    | none => .error (.file .notText)

/-! ## From the environment -/

/-- The texts of the variables that are set. One whose value is no text counts as not set. -/
abbrev Environment := String → Option String

def bool? (s : String) : Option Bool :=
  if s = "true" then some true else if s = "false" then some false else none

def number? (bound : Nat) (s : String) : Option Nat := Text.unsigned? 10 bound s.toList

/-- The value of a variable, if it is set and can be read, and else a given one. -/
def override {α : Type} (env : Environment) (name : String) (read : String → Option α) (given : α) :
    α :=
  ((env name).bind read).getD given

def withEnvironment (env : Environment) (c : Configuration) : Configuration := { c with
  backend := override env "FC_PROJECT_DB_TYPE" some c.backend
  databaseUrl := override env "FC_PROJECT_DB_URL" some c.databaseUrl
  artifactRoot := override env "FC_PROJECT_ARTIFACT_DIR" (fun s => some (.ofText s)) c.artifactRoot
  maxConnections :=
    override env "FC_PROJECT_DB_MAX_CONNECTIONS" (number? UInt32.size) c.maxConnections
  versionRetention :=
    override env "FC_PROJECT_VERSION_RETENTION" (number? UInt32.size) c.versionRetention
  retentionIntervalSeconds :=
    override env "FC_PROJECT_RETENTION_INTERVAL_SECS" (number? UInt64.size)
      c.retentionIntervalSeconds
  logJson := override env "FC_PROJECT_LOG_JSON" bool? c.logJson }

/-- The configuration of the file that a variable names, or the defaults if it is not set, with the
other variables in place of its settings. -/
def load (files : Files.FileTree) (env : Environment) : Except Failure Configuration :=
  match env "FC_PROJECT_CONFIG" with
  | none => .ok (withEnvironment env {})
  | some path =>
    match ofFile files (.ofText path) with
    | .ok c => .ok (withEnvironment env c)
    | .error e => .error e

end Configuration

end ProjectRegistry
