import ProjectRegistry.Registry.Retention

/-!
# Calls

Everything that can be asked of a registry, as values, and what it answers. A run is a list of
calls, each at its own time; the registry after it is what the calls, those that fail included, made
of the one before.
-/

namespace ProjectRegistry

inductive Call where
  | activeProjects
  | projectById (id : Int32)
  | projectByName (name : String)
  | createProject (name description creator : String)
  | removeProject (project : Project) (user : String)
  | describe (project : Project) (description user : String)
  /-- Stores the settings of the copy. -/
  | configure (project : Project)
  | setRights (project : Project) (principal : String) (isGroup : Bool) (rights : Rights)
  | dropRights (project : Project) (principal : String) (isGroup : Bool)
  | grants (project : Int32)
  | postEvent (project : Project) (kind : EventKind) (user message : String)
  | events (project : Project) (limit offset : Nat)
  | addVersion (project version : Int32) (file : Files.Path) (uploader : String) (digest : Digest)
    (resourceId : String)
  | uploadFile (project version : Int32) (file : Files.Path) (user : String)
  | version (project version : Int32)
  | uploadedFile (project version : Int32)
  | changeVersion (project : Project) (version : Int32) (user : String)
  | currentVersion (project : Project)
  | versions (project : Int32)
  | clean (project bound : Int32)
  | putBundle (project : Project) (bundle : Bundle)
  | putBundles (project : Project) (bundles : List Bundle)
  | bundle (project : Project) (path : String)
  | bundleAt (project version : Int32) (path : String)
  | bundles (project version : Int32)
  | putFlow (project : Project) (version : Int32) (flow : Flow)
  | putFlows (project : Project) (version : Int32) (flows : List Flow)
  | updateFlow (project : Project) (version : Int32) (flow : Flow)
  | flow (project : Project) (id : String)
  | flows (project : Project)
  | sweep (retained : Nat)

inductive Reply where
  | done
  | project (p : Project)
  | projects (ps : List Project)
  | grants (gs : List Grant)
  | posted (done : Bool)
  | events (es : List Event)
  | version (f : Option VersionFile)
  | file (f : VersionFile)
  | number (n : Option Int32)
  | versions (vs : List Version)
  | bundle (b : Bundle)
  | bundles (bs : List Bundle)
  | flow (f : Flow)
  | flows (fs : List Flow)
  | swept (report : Registry.SweepReport)

namespace Registry

variable {σ : Type} [Store σ]

def perform (tick : Tick) : Call → Step (Registry σ) Reply
  | .activeProjects => return .projects (← ask Store.activeProjects)
  | .projectById id => return .project (← ask (Store.projectById id))
  | .projectByName name => return .project (← ask (Store.projectByName name))
  | .createProject name description creator => do
    let r ← .get
    return .project (← onStore (Store.createProject r.limits tick.now name description creator))
  | .removeProject p user => do
    onStore (Store.removeProject tick.now p user)
    return .done
  | .describe p description user => do
    let r ← .get
    onStore (Store.describe r.limits tick.now p description user)
    return .done
  | .configure p => do
    onStore (Store.configure tick.now p)
    return .done
  | .setRights p principal isGroup rights => do
    onStore (Store.setRights p principal isGroup rights)
    return .done
  | .dropRights p principal isGroup => do
    onStore (Store.dropRights p principal isGroup)
    return .done
  | .grants project => return .grants (← ask (Store.grants project))
  | .postEvent p kind user message => fun r =>
    let (posted, store) := Store.postEvent tick.now p kind user message r.store
    (.ok (.posted posted), { r with store })
  | .events p limit offset => return .events (← ask (Store.events p limit offset))
  | .addVersion project version file uploader digest resourceId => do
    addVersion tick.now project version file uploader digest resourceId
    return .done
  | .uploadFile project version file user => do
    uploadFile tick project version file user
    return .done
  | .version project version => return .version (← .read (version? project version))
  | .uploadedFile project version => return .file (← .read (uploadedFile project version))
  | .changeVersion p version user => do
    onStore (Store.changeVersion tick.now p version user)
    return .done
  | .currentVersion p => return .number (← ask (Store.currentVersion? p))
  | .versions project => return .versions (← ask (Store.versions project))
  | .clean project bound => return .versions (← clean project bound)
  | .putBundle p bundle => do
    onStore (Store.putBundles p [bundle])
    return .done
  | .putBundles p bundles => do
    onStore (Store.putBundles p bundles)
    return .done
  | .bundle p path => return .bundle (← ask (Store.bundle p path))
  | .bundleAt project version path => return .bundle (← ask (Store.bundleAt project version path))
  | .bundles project version => return .bundles (← ask (Store.bundles project version))
  | .putFlow p version flow => do
    onStore (Store.putFlows p version [flow])
    return .done
  | .putFlows p version flows => do
    onStore (Store.putFlows p version flows)
    return .done
  | .updateFlow p version flow => do
    onStore (Store.updateFlow p version flow)
    return .done
  | .flow p id => return .flow (← ask (Store.flow p id))
  | .flows p => return .flows (← ask (Store.flows p))
  | .sweep retained => return .swept (← sweep tick.now retained)

def after (r : Registry σ) (calls : List (Tick × Call)) : Registry σ :=
  calls.foldl (fun r c => (perform c.1 c.2 r).2) r

def answers (r : Registry σ) : List (Tick × Call) → List (Except Failure Reply)
  | [] => []
  | c :: rest =>
    let (answer, r) := perform c.1 c.2 r
    answer :: answers r rest

end Registry

end ProjectRegistry
