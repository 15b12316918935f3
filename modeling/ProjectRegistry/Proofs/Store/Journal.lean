import ProjectRegistry.Proofs.Store.Plans
import ProjectRegistry.Proofs.Time
import ProjectRegistry.Store.Interface

/-!
# Lawful stores

A view of a kind of stores names the relations in a state, the medium in which they are written, and
the states that a store keeps to. A store is lawful when each of its operations, from such a state,
either fails and leaves the state as it was, or answers and makes changes that fit, the ones that
belong to the operation.

Memory and databases are both lawful. What the registry does with a store is shown once, for any
lawful one.
-/

namespace ProjectRegistry

/-- Where the relations of a state are, how they are written, and which states count. -/
structure View (σ : Type) where
  C : Columns
  M : Medium C
  relations : σ → Relations C
  Good : σ → Prop

namespace View

variable {σ α : Type} (V : View σ)

/-- What an outcome comes to that was reached from a state: an answer with the changes that were
made, or a failure without any. -/
def Journals (limits : Limits) (s : σ) (J : α → List Change → Prop) : Except Failure α × σ → Prop
  | (.ok a, s') =>
    V.Good s' ∧ ∃ cs, J a cs ∧ Change.AllFit V.M limits cs (V.relations s) ∧
      V.relations s' = Change.applyAll V.M cs (V.relations s)
  | (.error _, s') => s' = s

variable {V} {limits : Limits} {s s' : σ} {J : α → List Change → Prop} {o : Except Failure α × σ}

theorem Journals.of_ok {a : α} (h : V.Journals limits s J o) (ho : o = (.ok a, s')) :
    V.Good s' ∧ ∃ cs, J a cs ∧ Change.AllFit V.M limits cs (V.relations s) ∧
      V.relations s' = Change.applyAll V.M cs (V.relations s) := by
  subst ho
  exact h

theorem Journals.of_error {e : Failure} (h : V.Journals limits s J o) (ho : o = (.error e, s')) :
    s' = s := by
  subst ho
  exact h

end View

variable {σ : Type} [Store σ]

/-- A store whose operations make the changes that belong to them, or none. -/
structure View.Lawful (V : View σ) : Prop where
  sound {s : σ} : V.Good s → (V.relations s).Sound V.M
  createProject {s : σ} (hs : V.Good s) (limits : Limits) (now : Time.Instant)
    (name description creator : String) :
    V.Journals limits s (fun q cs => cs = [.create q.id name description creator now])
      (Store.createProject limits now name description creator s)
  removeProject {s : σ} (hs : V.Good s) (limits : Limits) (now : Time.Instant) (p : Project)
    (user : String) :
    V.Journals limits s (fun _ cs => Plan.retire now p user (V.relations s) = .ok cs)
      (Store.removeProject now p user s)
  describe {s : σ} (hs : V.Good s) (limits : Limits) (now : Time.Instant) (p : Project)
    (description user : String) :
    V.Journals limits s (fun _ cs => cs = [.describe p.id description user now])
      (Store.describe limits now p description user s)
  configure {s : σ} (hs : V.Good s) (limits : Limits) (now : Time.Instant) (p : Project) :
    V.Journals limits s
      (fun _ cs => ∃ noted, (noted = none ∨ noted = some now) ∧
        cs = [.configure p.id p.settings noted])
      (Store.configure now p s)
  setRights {s : σ} (hs : V.Good s) (limits : Limits) (p : Project) (principal : String)
    (isGroup : Bool) (rights : Rights) :
    V.Journals limits s
      (fun _ cs => cs = [if rights.isEmpty then .revoke p.id isGroup principal
        else .grant p.id isGroup principal rights])
      (Store.setRights p principal isGroup rights s)
  dropRights {s : σ} (hs : V.Good s) (limits : Limits) (p : Project) (principal : String)
    (isGroup : Bool) :
    V.Journals limits s (fun _ cs => cs = [.revoke p.id isGroup principal])
      (Store.dropRights p principal isGroup s)
  postEvent {s : σ} (hs : V.Good s) (limits : Limits) (now : Time.Instant) (p : Project)
    (kind : EventKind) (user message : String) :
    let o := Store.postEvent now p kind user message s
    V.Journals limits s
      (fun posted cs => cs = if posted then [.log ⟨p.id, kind, user, message, now⟩] else [])
      (.ok o.1, o.2)
  addVersion {s : σ} (hs : V.Good s) (limits : Limits) (v : Version) :
    V.Journals limits s (fun _ cs => cs = [.register v]) (Store.addVersion v s)
  /-- Nothing but the plan decides whether a version is registered. -/
  answer_addVersion {s : σ} (hs : V.Good s) (v : Version) :
    (Store.addVersion v s).1 = (Plan.addVersion V.M v (V.relations s)).map fun _ => ()
  changeVersion {s : σ} (hs : V.Good s) (limits : Limits) (now : Time.Instant) (p : Project)
    (version : Int32) (user : String) :
    V.Journals limits s (fun _ cs => cs = [.point p.id version user now])
      (Store.changeVersion now p version user s)
  clean {s : σ} (hs : V.Good s) (limits : Limits) (project bound : Int32) :
    V.Journals limits s (fun _ cs => cs = [.clean project bound]) (Store.clean project bound s)
  putBundles {s : σ} (hs : V.Good s) (limits : Limits) (p : Project) (bundles : List Bundle) :
    V.Journals limits s
      (fun _ cs => ∃ version, p.target = .ok version ∧ cs = [.putBundles p.id version bundles])
      (Store.putBundles p bundles s)
  putFlows {s : σ} (hs : V.Good s) (limits : Limits) (p : Project) (version : Int32)
    (flows : List Flow) :
    V.Journals limits s (fun _ cs => cs = [.putFlows p.id version flows])
      (Store.putFlows p version flows s)
  updateFlow {s : σ} (hs : V.Good s) (limits : Limits) (p : Project) (version : Int32) (f : Flow) :
    V.Journals limits s (fun _ cs => cs = [.putFlows p.id version [f]])
      (Store.updateFlow p version f s)

/-- Live rows of versions whose times a database can read back. -/
def Relations.VersionsTimed (l : Relations live) : Prop :=
  ∀ k row, l.versions.find? k = some row → row.uploadTime.OnCalendar

/-- A store that reads the versions that it wrote, though maybe with other times. -/
def View.Legible (V : View σ) : Prop :=
  ∀ {s : σ} {l : Relations live}, V.Good s → V.relations s = l.write V.M → l.VersionsTimed →
    ∃ time : Time.Instant → Time.Instant,
      (∀ p n, Store.version? p n s = .ok ((l.versions.find? (p, n)).map fun row =>
        VersionRow.toVersion { row with uploadTime := time row.uploadTime } p n)) ∧
      ∀ p, Store.versions p s = .ok ((l.versionsOf p).map fun e =>
        VersionRow.toVersion { e.2 with uploadTime := time e.2.uploadTime } p e.1)

end ProjectRegistry
