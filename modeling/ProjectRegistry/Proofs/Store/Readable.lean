import ProjectRegistry.Proofs.Store.Cells
import ProjectRegistry.Proofs.Store.Journal

/-!
# What a database can give back

A database keeps texts and milliseconds, and reads no text that is nested too deep. What is shown
here is what it takes of the calls for everything that was written to be readable again, and the log
to be in the order of its times.
-/

namespace ProjectRegistry

open Time (Instant)

/-- Whether a graph can be read back. -/
def Json.Value.Readable (g : Json.Value) : Prop := g.Exact ∧ g.nesting ≤ Json.nestingLimit

theorem Flow.readable_empty (id : String) : (Flow.empty id).graph.Readable := by
  have hgraph : (Flow.empty id).graph = .object [("edges", .array []), ("nodes", .array [])] := by
    rfl
  rw [hgraph]
  refine ⟨⟨⟨List.pairwise_pair.2 ?_, trivial, trivial, trivial⟩, ?_, trivial, trivial, trivial⟩, ?_⟩
  · decide
  · decide
  · decide

/-- Live relations that can be read back from a database, with a log in the order of its times, all
of them past. -/
structure Relations.Readable (now : Instant) (l : Relations live) : Prop where
  project {id : Int32} {row : ProjectRow live} : l.projects.find? id = some row → row.Readable
  version : l.VersionsTimed
  graph {k : Int32 × Int32 × String} {g : Json.Value} : l.flows.find? k = some g → g.Readable
  event {e : EventRow live} : e ∈ l.events → e.time.Ordinary ∧ e.time.atMost now = true
  inOrder : l.events.Pairwise fun d e => d.time.atMost e.time = true

/-- Whether a change that is made now writes nothing but what can be read back. -/
def Change.Storable (now : Instant) : Change → Prop
  | .create _ _ _ _ time | .retire _ _ _ time | .describe _ _ _ time | .point _ _ _ time =>
    time = now
  | .configure _ settings time => settings.Exact ∧ settings.Shallow ∧ ∀ t, time = some t → t = now
  | .log e => e.time = now
  | .register v => v.uploadTime = now
  | .putFlows _ _ flows => ∀ f ∈ flows, f.graph.Readable
  | .grant .. | .revoke .. | .clean .. | .putBundles .. => True

/-! ## Graphs that are put -/

/-- The flows that a change puts. -/
def Change.flowsPut : Change → List Flow
  | .putFlows _ _ flows => flows
  | _ => []

/-- What holds of the graphs that are there and of those that are put, holds of all that are there
then. -/
theorem Change.graph_onFlows {Q : Json.Value → Prop} {l : Relations live} {c : Change}
    (h : ∀ k g, l.flows.find? k = some g → Q g) (hc : ∀ f ∈ c.flowsPut, Q f.graph)
    {k : Int32 × Int32 × String} {g : Json.Value}
    (hg : (c.onFlows .values l).find? k = some g) : Q g := by
  cases c with
  | putFlows p version flows =>
    rcases Table.find?_insertAll hg with hg | hg
    · exact h k g hg
    · obtain ⟨f, hf, he⟩ := List.mem_map.1 hg
      cases he
      exact hc f hf
  | clean p bound => exact h k g (Table.find?_of_filterKeys hg)
  | create | retire | describe | configure | grant | revoke | log | point | putBundles | register =>
    exact h k g hg

namespace Relations.Readable

variable {now : Instant} {l : Relations live} {c : Change}

theorem empty (now : Instant) : (Relations.empty : Relations live).Readable now where
  project h := by cases h
  version _ _ h := by cases h
  graph h := by cases h
  event h := by cases h
  inOrder := .nil

theorem later {before : Instant} (h : l.Readable before) (hle : before.atMost now = true) :
    l.Readable now where
  project := h.project
  version := h.version
  graph := h.graph
  event he := ⟨(h.event he).1, Instant.atMost_trans (h.event he).2 hle⟩
  inOrder := h.inOrder

theorem project_apply (h : l.Readable now) (hnow : now.Ordinary) (hc : c.Storable now)
    {id : Int32} {row : ProjectRow live}
    (hrow : (c.onProjects .values l.projects).find? id = some row) : row.Readable := by
  have hmodify {p : Int32} {f : ProjectRow live → ProjectRow live}
    (hrow : (l.projects.modify p f).find? id = some row)
      (hf : ∀ old, old.Readable → (f old).Readable) : row.Readable := by
    rw [Table.find?_modify] at hrow
    split at hrow
    · obtain ⟨old, hold, rfl⟩ := Option.map_eq_some_iff.1 hrow
      exact hf old (h.project hold)
    · exact h.project hrow
  cases c with
  | create p name description creator time =>
    simp only [Change.onProjects, ProjectRow.write_values, Table.find?_insert] at hrow
    split at hrow
    · cases hrow
      have htime : time = now := hc
      subst htime
      exact ⟨fun e he => (List.not_mem_nil he).elim, fun e he => (List.not_mem_nil he).elim,
        hnow.onCalendar, hnow.onCalendar⟩
    · exact h.project hrow
  | retire p name user time =>
    have htime : time.OnCalendar := (show time = now from hc) ▸ hnow.onCalendar
    exact hmodify hrow fun old hold => ⟨hold.exact, hold.shallow, hold.createdAt, htime⟩
  | describe p description user time =>
    have htime : time.OnCalendar := (show time = now from hc) ▸ hnow.onCalendar
    exact hmodify hrow fun old hold => ⟨hold.exact, hold.shallow, hold.createdAt, htime⟩
  | configure p settings time =>
    obtain ⟨hexact, hshallow, htime⟩ := hc
    refine hmodify hrow fun old hold => ⟨hexact, hshallow, hold.createdAt, ?_⟩
    cases time with
    | none => exact hold.lastModifiedAt
    | some t => exact htime t rfl ▸ hnow.onCalendar
  | point p version user time =>
    have htime : time.OnCalendar := (show time = now from hc) ▸ hnow.onCalendar
    exact hmodify hrow fun old hold => ⟨hold.exact, hold.shallow, hold.createdAt, htime⟩
  | register v =>
    exact hmodify hrow fun old hold => ⟨hold.exact, hold.shallow, hold.createdAt,
      hold.lastModifiedAt⟩
  | grant | revoke | log | clean | putBundles | putFlows => exact h.project hrow

theorem version_apply (h : l.Readable now) (hnow : now.Ordinary) (hc : c.Storable now)
    {k : Int32 × Int32} {row : VersionRow live}
    (hrow : (c.onVersions .values l).find? k = some row) : row.uploadTime.OnCalendar := by
  cases c with
  | register v =>
    simp only [Change.onVersions, VersionRow.write_values, Table.find?_insert] at hrow
    split at hrow
    · cases hrow
      have htime : v.uploadTime = now := hc
      show v.uploadTime.OnCalendar
      rw [htime]
      exact hnow.onCalendar
    · exact h.version k row hrow
  | clean p bound => exact h.version k row (Table.find?_of_filterKeys hrow)
  | create | retire | describe | configure | grant | revoke | log | point | putBundles | putFlows =>
    exact h.version k row hrow

theorem graph_apply (h : l.Readable now) (hc : c.Storable now) {k : Int32 × Int32 × String}
    {g : Json.Value} (hg : (c.onFlows .values l).find? k = some g) : g.Readable := by
  refine Change.graph_onFlows (fun _ _ => h.graph) (fun f hf => ?_) hg
  cases c with
  | putFlows p version flows => exact hc f hf
  | create | retire | describe | configure | grant | revoke | log | point | putBundles | register
    | clean => cases hf

end Relations.Readable

namespace Change

variable {now : Instant} {c : Change}

/-- A change logs at the time at which it is made, and at most once. -/
theorem Storable.time_of_mem (hc : c.Storable now) {e : EventRow live} (he : e ∈ c.events) :
    e.time = now := by
  cases c with
  | create | retire | describe | point =>
    rw [events, List.mem_singleton] at he
    rw [he]
    exact hc
  | log d =>
    rw [events, List.mem_singleton] at he
    rw [he]
    exact hc
  | configure | grant | revoke | register | clean | putBundles | putFlows => cases he

theorem Storable.pairwise_events (hc : c.Storable now) :
    c.events.Pairwise fun d e => d.time.atMost e.time = true := by
  refine List.pairwise_of_forall_mem_list ?_
  intro d hd e he
  rw [hc.time_of_mem hd, hc.time_of_mem he]
  exact Instant.atMost_refl now

end Change

namespace Relations.Readable

variable {now : Instant} {l : Relations live}

theorem apply {c : Change} (h : l.Readable now) (hnow : now.Ordinary) (hc : c.Storable now) :
    (c.apply .values l).Readable now where
  project := h.project_apply hnow hc
  version _ _ := h.version_apply hnow hc
  graph := h.graph_apply hc
  event {e} he := by
    rcases List.mem_append.1 he with he | he
    · exact h.event he
    · obtain ⟨d, hd, rfl⟩ := List.mem_map.1 he
      have htime : d.time = now := hc.time_of_mem hd
      show d.time.Ordinary ∧ d.time.atMost now = true
      rw [htime]
      exact ⟨hnow, Instant.atMost_refl now⟩
  inOrder := by
    refine List.pairwise_append.2 ⟨h.inOrder, ?_, fun d hd e he => ?_⟩
    · rw [List.pairwise_map]
      exact hc.pairwise_events
    · obtain ⟨f, hf, rfl⟩ := List.mem_map.1 he
      have htime : f.time = now := hc.time_of_mem hf
      show d.time.atMost f.time = true
      rw [htime]
      exact (h.event hd).2

theorem applyAll {cs : List Change} (h : l.Readable now) (hnow : now.Ordinary)
    (hcs : ∀ c ∈ cs, c.Storable now) :
    (Change.applyAll .values cs l).Readable now := by
  induction cs generalizing l with
  | nil => exact h
  | cons c cs ih =>
    exact ih (h.apply hnow (hcs c List.mem_cons_self)) fun d hd => hcs d (List.mem_cons_of_mem c hd)

end Relations.Readable

/-! ## Times of projects -/

/-- Live rows of projects whose times a database can read back. -/
def Relations.ProjectsTimed (l : Relations live) : Prop :=
  ∀ id row, l.projects.find? id = some row →
    row.createdAt.OnCalendar ∧ row.lastModifiedAt.OnCalendar

/-- Whether a change notes no times for a project but those of the calendar. -/
def Change.TimesProjects : Change → Prop
  | .create _ _ _ _ now | .retire _ _ _ now | .describe _ _ _ now | .point _ _ _ now =>
    now.OnCalendar
  | .configure _ _ now => ∀ t, now = some t → t.OnCalendar
  | _ => True

theorem Change.projectsTimed_apply {l : Relations live} (h : l.ProjectsTimed) {c : Change}
    (hc : c.TimesProjects) : (c.apply .values l).ProjectsTimed := by
  intro id row hrow
  have hrow : (c.onProjects .values l.projects).find? id = some row := hrow
  have hmodify {p : Int32} {f : ProjectRow live → ProjectRow live}
      (hrow : (l.projects.modify p f).find? id = some row)
      (hf : ∀ old : ProjectRow live, old.createdAt.OnCalendar → old.lastModifiedAt.OnCalendar →
        (f old).createdAt.OnCalendar ∧ (f old).lastModifiedAt.OnCalendar) :
      row.createdAt.OnCalendar ∧ row.lastModifiedAt.OnCalendar := by
    rw [Table.find?_modify] at hrow
    split at hrow
    · obtain ⟨old, hold, rfl⟩ := Option.map_eq_some_iff.1 hrow
      exact hf old (h id old hold).1 (h id old hold).2
    · exact h id row hrow
  cases c with
  | create p name description creator now =>
    simp only [onProjects, ProjectRow.write_values, Table.find?_insert] at hrow
    split at hrow
    · cases hrow
      exact ⟨hc, hc⟩
    · exact h id row hrow
  | retire | describe | point => exact hmodify hrow fun old hcreated _ => ⟨hcreated, hc⟩
  | configure p settings now =>
    refine hmodify hrow fun old hcreated hmodified => ⟨hcreated, ?_⟩
    cases now with
    | none => exact hmodified
    | some t => exact hc t rfl
  | register v => exact hmodify hrow fun old hcreated hmodified => ⟨hcreated, hmodified⟩
  | grant | revoke | log | clean | putBundles | putFlows => exact h id row hrow

theorem Change.projectsTimed_applyAll {l : Relations live} (h : l.ProjectsTimed)
    {cs : List Change} (hcs : ∀ c ∈ cs, c.TimesProjects) :
    (Change.applyAll .values cs l).ProjectsTimed := by
  induction cs generalizing l with
  | nil => exact h
  | cons c cs ih =>
    exact ih (Change.projectsTimed_apply h (hcs c List.mem_cons_self))
      fun d hd => hcs d (List.mem_cons_of_mem c hd)

end ProjectRegistry
