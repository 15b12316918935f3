import ProjectRegistry.Artifacts
import ProjectRegistry.Store.Interface

/-!
# Registries

A registry is a store together with a place for archives. What touches both is defined here: an
upload keeps the archive only if its version is accepted, an archive is fetched by way of its
version, and cleaning up discards the archives of the versions that go.
-/

namespace ProjectRegistry

structure Registry (σ : Type) where
  limits : Limits
  artifacts : Artifacts
  files : Files.FileTree
  store : σ

/-- What a call draws from outside: the time and an identifier that was never used. -/
structure Tick where
  now : Time.Instant
  fresh : Uuid

namespace Registry

variable {σ α : Type}

def onStore (x : Step σ α) : Step (Registry σ) α :=
  .within (·.store) (fun s r => { r with store := s }) x

def onFiles (x : Step Files.FileTree α) : Step (Registry σ) α :=
  .within (·.files) (fun t r => { r with files := t }) x

def ask (q : σ → Except Failure α) : Step (Registry σ) α := .read fun r => q r.store

variable [Store σ]

def digestOf (file : Files.Path) (r : Registry σ) : Except Failure Digest :=
  match r.files.read file with
  | .ok content => .ok (.ofContent content)
  | .error fault => .error (.file fault)

/-- Registers the version of an archive that is kept already. -/
def addVersion (now : Time.Instant) (project number : Int32) (file : Files.Path) (uploader : String)
    (digest : Digest) (resourceId : String) : Step (Registry σ) Unit :=
  onStore (Store.addVersion (.ofUpload project number file uploader digest resourceId now))

/-- Takes an archive away as well as that is possible. -/
def discard (resourceId : String) (r : Registry σ) : Registry σ :=
  (onFiles (r.artifacts.delete resourceId) r).2

/-- Keeps a file as the archive of a new version. If the version is refused, the archive goes again.
-/
def uploadFile (tick : Tick) (project number : Int32) (file : Files.Path) (user : String) :
    Step (Registry σ) Unit := do
  let digest ← .read (digestOf file)
  let r ← .get
  let resourceId ← onFiles (r.artifacts.store tick.fresh project number file)
  fun r =>
    match addVersion tick.now project number file user digest resourceId r with
    | (.ok (), r) => (.ok (), r)
    | (.error e, r) => (.error e, r.discard resourceId)

def version? (project number : Int32) (r : Registry σ) : Except Failure (Option VersionFile) :=
  match Store.version? project number r.store with
  | .ok v => .ok (v.map .ofVersion)
  | .error e => .error e

def uploadedFile (project number : Int32) (r : Registry σ) : Except Failure VersionFile :=
  match r.version? project number with
  | .error e => .error e
  | .ok none => .error (.noVersion project number)
  | .ok (some f) =>
    match r.artifacts.fetch f.version.resourceId r.files with
    | .ok path => .ok (f.withLocalFile path)
    | .error e => .error e

/-- Removes the versions of a project below a bound, except the current one, and then their archives
as well as that is possible. -/
def clean (project bound : Int32) : Step (Registry σ) (List Version) := do
  let removed ← onStore (Store.clean project bound)
  .change fun r => removed.foldl (fun r v => r.discard v.resourceId) r
  return removed

end Registry

end ProjectRegistry
