import ProjectRegistry.Proofs.Store.Alike
import ProjectRegistry.Proofs.Store.DatabaseJournal

/-!
# Row ids of events

A database counts the events that it logs, and logs none that there is no row id for. From an empty
one on, the count is that of the events which are there, so that no log is longer than the largest
row id.

The states with such a count are those of a view of their own, under which databases are lawful as
well; so what calls lead to has such a count.
-/

namespace ProjectRegistry.Database

/-- A database that has given a row id to each of its events. -/
structure CountsEvents (d : Database) : Prop where
  sequence : d.eventSequence = d.relations.events.length
  fits : d.eventSequence ≤ lastRowId

theorem countsEvents_empty : empty.CountsEvents := ⟨rfl, by decide⟩

def countingView : View Database :=
  ⟨stored, .cells, Database.relations, fun d => d.Good ∧ d.CountsEvents⟩

theorem length_logged_le {cs : List Change} : (Change.logged cs).length ≤ cs.length := by
  induction cs with
  | nil => exact Nat.le_refl 0
  | cons c cs ih =>
    have hone : c.events.length ≤ 1 := by cases c <;> simp [Change.events]
    rw [Change.logged_cons, List.length_append, List.length_cons]
    omega

namespace CountsEvents

variable {d : Database} {limits : Limits} {α : Type} {J : α → List Change → Prop}

theorem commit (h : d.CountsEvents) {cs : List Change} (hone : cs.length ≤ 1)
    (hroom : d.canLog cs = true) : (d.commit cs).CountsEvents where
  sequence := by
    rw [Database.commit, Change.length_events_applyAll, Nat.cast_add, h.sequence]
  fits := by
    have hlogged : (Change.logged cs).length ≤ cs.length := length_logged_le
    rw [canLog, Bool.or_eq_true, List.isEmpty_iff, decide_eq_true_eq] at hroom
    show d.eventSequence + ((Change.logged cs).length : Int) ≤ lastRowId
    rcases hroom with hnone | hroom
    · rw [hnone]
      exact (Int.add_zero _).le.trans h.fits
    · omega

/-- What is settled by a plan of one change is counted. -/
theorem settle (h : d.CountsEvents) {plan : Plan} (hone : ∀ cs, plan = .ok cs → cs.length ≤ 1) :
    (d.settle plan).2.CountsEvents := by
  cases plan with
  | error e => exact h
  | ok cs =>
    rw [Database.settle]
    split
    · next hroom => exact h.commit (hone cs rfl) hroom
    · exact h

end CountsEvents

variable {d : Database} {limits : Limits} {α : Type} {J : α → List Change → Prop}

theorem journals_counting {o : Except Failure α × Database} (h : view.Journals limits d J o)
    (hcounts : o.2.CountsEvents) : countingView.Journals limits d J o := by
  obtain ⟨e | a, d'⟩ := o
  · exact h
  · exact ⟨⟨h.1, hcounts⟩, h.2⟩

theorem CountsEvents.journals (h : d.CountsEvents) {plan : Plan} {J : Unit → List Change → Prop}
    {o : Except Failure Unit × Database} (hj : view.Journals limits d J o)
    (ho : o = d.settle plan) (hone : ∀ cs, plan = .ok cs → cs.length ≤ 1) :
    countingView.Journals limits d J o :=
  journals_counting hj (ho ▸ h.settle hone)

theorem counts_createProject (hd : d.Good) (h : d.CountsEvents) (limits : Limits)
    (now : Time.Instant) (name description creator : String) :
    (createProject limits now name description creator d).2.CountsEvents := by
  rw [createProject_eq hd.isOpen hd.ordered]
  split
  · exact h
  · next cs hplan =>
    split
    · exact h
    · split
      · next hroom =>
        split
        · exact h
        · have hcs := Plan.create_ok hplan
          have hcommit : (d.commit cs).CountsEvents := h.commit (by rw [hcs]; exact Nat.le_refl 1)
            (by rw [canLog, decide_eq_true hroom, Bool.or_true])
          exact ⟨hcommit.sequence, hcommit.fits⟩
      · exact h

theorem counts_clean (hd : d.Good) (h : d.CountsEvents) (project bound : Int32) :
    (clean project bound d).2.CountsEvents := by
  rw [clean_eq hd.isOpen hd.sound]
  split
  · exact h
  · next cs hplan =>
    have hcs := Plan.onProject_ok hplan
    split
    · exact h
    · exact h.commit (by rw [hcs]; exact Nat.le_refl 1) (by rw [hcs]; rfl)

theorem counts_postEvent (hd : d.Good) (h : d.CountsEvents) (now : Time.Instant) (p : Project)
    (kind : EventKind) (user message : String) :
    (postEvent now p kind user message d).2.CountsEvents := by
  rw [postEvent_eq hd.isOpen]
  split
  · next hroom =>
    exact h.commit (Nat.le_refl 1) (by rw [canLog, decide_eq_true hroom, Bool.or_true])
  · exact h

theorem counts_putBundles (hd : d.Good) (h : d.CountsEvents) (p : Project)
    (bundles : List Bundle) : (putBundles p bundles d).2.CountsEvents := by
  cases htarget : p.target with
  | error e =>
    rw [putBundles_of_no_target htarget]
    exact h
  | ok version =>
    rw [putBundles_eq hd.isOpen htarget]
    refine h.settle fun cs hcs => ?_
    obtain ⟨v, -, rfl⟩ := Plan.putBundles_ok (Plan.ofProject_ok hcs)
    exact Nat.le_refl 1

theorem lawful_counting : countingView.Lawful where
  sound h := h.1.sound
  createProject h limits now name description creator :=
    journals_counting (lawful.createProject h.1 limits now name description creator)
      (counts_createProject h.1 h.2 limits now name description creator)
  removeProject h limits now p user :=
    h.2.journals (lawful.removeProject h.1 limits now p user)
      (removeProject_eq h.1.isOpen now p user)
      fun cs hcs => by rcases Plan.retire_ok hcs with rfl | rfl <;> simp
  describe h limits now p description user :=
    h.2.journals (lawful.describe h.1 limits now p description user)
      (describe_eq h.1.isOpen limits now p description user)
      fun cs hcs => by rw [Plan.describe_ok hcs]; exact Nat.le_refl 1
  configure h limits now p :=
    h.2.journals (lawful.configure h.1 limits now p) (configure_eq h.1.isOpen now p)
      fun cs hcs => by rw [Plan.onProject_ok hcs]; exact Nat.le_refl 1
  setRights h limits p principal isGroup rights :=
    h.2.journals (lawful.setRights h.1 limits p principal isGroup rights)
      (setRights_eq h.1.isOpen p principal isGroup rights)
      fun cs hcs => by rw [Plan.onProject_ok hcs]; exact Nat.le_refl 1
  dropRights h limits p principal isGroup :=
    h.2.journals (lawful.dropRights h.1 limits p principal isGroup)
      (dropRights_eq h.1.isOpen p principal isGroup)
      fun cs hcs => by rw [Plan.onProject_ok hcs]; exact Nat.le_refl 1
  postEvent h limits now p kind user message :=
    journals_counting (lawful.postEvent h.1 limits now p kind user message)
      (counts_postEvent h.1 h.2 now p kind user message)
  addVersion h limits v :=
    h.2.journals (lawful.addVersion h.1 limits v) (addVersion_eq h.1.isOpen h.1.sound v)
      fun cs hcs => by rw [Plan.addVersion_ok hcs]; exact Nat.le_refl 1
  answer_addVersion h v := lawful.answer_addVersion h.1 v
  changeVersion h limits now p version user :=
    h.2.journals (lawful.changeVersion h.1 limits now p version user)
      (changeVersion_eq h.1.isOpen now p version user)
      fun cs hcs => by rw [Plan.onVersion_ok (Plan.ofProject_ok hcs)]; exact Nat.le_refl 1
  clean h limits project bound :=
    journals_counting (lawful.clean h.1 limits project bound) (counts_clean h.1 h.2 project bound)
  putBundles h limits p bundles :=
    journals_counting (lawful.putBundles h.1 limits p bundles)
      (counts_putBundles h.1 h.2 p bundles)
  putFlows h limits p version flows :=
    h.2.journals (lawful.putFlows h.1 limits p version flows)
      (putFlows_eq h.1.isOpen p version flows)
      fun cs hcs => by rw [Plan.onVersion_ok (Plan.ofProject_ok hcs)]; exact Nat.le_refl 1
  updateFlow h limits p version f :=
    h.2.journals (lawful.updateFlow h.1 limits p version f) (updateFlow_eq h.1.isOpen p version f)
      fun cs hcs => by rw [Plan.updateFlow_ok hcs]; exact Nat.le_refl 1

end ProjectRegistry.Database
