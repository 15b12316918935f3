import ProjectRegistry.Proofs.Registry.Integrity
import ProjectRegistry.Proofs.Store.Versions
import ProjectRegistry.Proofs.Timeless

/-!
# Version numbers are never reused

The numbers that are registered for a project grow along every run, because the highest of them is
kept when its version is gone. It decides, together with the versions that are there, how a
registration is answered.

What was recorded of a version is answered unchanged until the version is cleaned up.
-/

namespace ProjectRegistry

variable {σ : Type}

/-- The number that a call is to register for a project. -/
def Call.numberFor? (p : Int32) : Call → Option Int32
  | .addVersion project number .. | .uploadFile project number .. =>
    if project = p then some number else none
  | _ => none

/-- Whether a call may clean up a version. -/
def Call.CleansUp (p n : Int32) : Call → Prop
  | .clean project bound => project = p ∧ n < bound
  | .sweep _ => True
  | _ => False

/-- Whether one of the calls that were answered may have cleaned up a version. -/
def CleanedUp (p n : Int32) (calls : List (Tick × Call)) (answers : List (Except Failure Reply)) :
    Prop :=
  ∃ c ∈ calls.zip answers, c.1.2.CleansUp p n ∧ ∃ reply, c.2 = .ok reply

/-- The numbers that were registered for a project, in the order of the calls. -/
def registered (p : Int32) (calls : List (Tick × Call)) (answers : List (Except Failure Reply)) :
    List Int32 :=
  (calls.zip answers).filterMap fun c =>
    match c.2 with
    | .ok _ => c.1.2.numberFor? p
    | .error _ => none

def largest (ns : List Int32) : Int32 := ns.foldl max 0

/-! ## What calls register -/

theorem Call.numberFor?_of_record? {r : Registry σ} {tick : Tick} {call : Call} {v : Version}
    (h : call.record? r tick = some v) (p : Int32) :
    call.numberFor? p = if v.project = p then some v.number else none := by
  cases call
  case addVersion project number file uploader digest resourceId =>
    cases h
    rfl
  case uploadFile project number file user =>
    simp only [Call.record?] at h
    split at h
    · cases h
      rfl
    · cases h
  all_goals cases h

theorem Call.uploadTime_of_record? {r : Registry σ} {tick : Tick} {call : Call} {v : Version}
    (h : call.record? r tick = some v) : v.uploadTime = tick.now := by
  cases call
  case addVersion project number file uploader digest resourceId =>
    cases h
    rfl
  case uploadFile project number file user =>
    simp only [Call.record?] at h
    split at h
    · cases h
      rfl
    · cases h
  all_goals cases h

/-- A call makes one version, under its number, or registers nothing. -/
theorem Call.Makes.registers {r : Registry σ} {tick : Tick} {call : Call} {reply : Reply}
    {cs : List Change} (h : call.Makes r tick reply cs) :
    (∃ v, call.record? r tick = some v ∧ cs = [.register v]) ∨
      (∀ p, call.numberFor? p = none) ∧ ∀ c ∈ cs, c.registers = false := by
  cases call
  case addVersion | uploadFile => exact .inl h
  case sweep retained =>
    refine .inr ⟨fun p => rfl, fun c hc => ?_⟩
    have hupkeep := h c hc
    cases c <;> first | rfl | cases hupkeep
  case setRights p principal isGroup rights =>
    refine .inr ⟨fun p => rfl, ?_⟩
    simp only [Call.Makes] at h
    split at h <;> simp [h, Change.registers]
  case postEvent p kind user message =>
    refine .inr ⟨fun p => rfl, ?_⟩
    simp only [Call.Makes] at h
    split at h <;> simp [h, Change.registers]
  case removeProject p user =>
    refine .inr ⟨fun p => rfl, ?_⟩
    rcases h with h | h <;> simp [h, Change.registers]
  case createProject | configure | putBundle | putBundles =>
    refine .inr ⟨fun p => rfl, ?_⟩
    obtain ⟨_, _, h⟩ := h
    simp [h, Change.registers]
  all_goals
    refine .inr ⟨fun p => rfl, ?_⟩
    simp only [Call.Makes] at h
    simp [h, Change.registers]

theorem Call.Makes.cleansUp {r : Registry σ} {tick : Tick} {call : Call} {reply : Reply}
    {cs : List Change} (h : call.Makes r tick reply cs) {c : Change} (hc : c ∈ cs) {p n : Int32}
    (hclean : c.CleansUp p n) :
    call.CleansUp p n := by
  cases c <;> simp only [Change.CleansUp] at hclean
  case clean id bound =>
    cases call <;> simp only [Call.Makes] at h
    case clean project bound' =>
      rw [h] at hc
      cases List.mem_singleton.1 hc
      exact hclean
    case sweep => trivial
    case setRights =>
      split at h <;> simp [h] at hc
    case postEvent =>
      split at h <;> simp [h] at hc
    case removeProject =>
      rcases h with h | h <;> simp [h] at hc
    case addVersion | uploadFile =>
      obtain ⟨_, _, h⟩ := h
      simp [h] at hc
    case createProject | configure | putBundle | putBundles =>
      obtain ⟨_, _, h⟩ := h
      simp [h] at hc
    all_goals simp [h] at hc

theorem Call.Makes.find?_versions {r : Registry σ} {tick : Tick} {call : Call} {reply : Reply}
    {cs : List Change} (h : call.Makes r tick reply cs) {limits : Limits} {l : Relations live}
    (hfit : Change.AllFit .values limits cs l) {p n : Int32} {row : VersionRow live}
    (hrow : l.versions.find? (p, n) = some row) (hn : n.toInt ≤ l.markOf .values p) :
    (Change.applyAll .values cs l).versions.find? (p, n) = some row ∨
      (Change.applyAll .values cs l).Spent .values p n ∧ call.CleansUp p n := by
  rcases Change.find?_versions_applyAll hfit hrow hn with hkept | ⟨hspent, c, hc, hclean⟩
  · exact .inl hkept
  · exact .inr ⟨hspent, h.cleansUp hc hclean⟩

namespace Registry

variable [Store σ] {V : View σ} {r : Registry σ}

def mark (V : View σ) (r : Registry σ) (p : Int32) : Int := (V.relations r.store).markOf V.M p

/-- A call that is answered raises the highest number to the one it registers. -/
theorem mark_perform_ok (hV : V.Lawful) (hr : V.Good r.store) {tick : Tick} {call : Call}
    {reply : Reply} {r' : Registry σ} (h : perform tick call r = (.ok reply, r')) (p : Int32) :
    r'.mark V p = ((call.numberFor? p).map Int32.toInt).getD (r.mark V p) ∧
      ∀ n, call.numberFor? p = some n → 1 ≤ n.toInt ∧ r.mark V p < n.toInt := by
  obtain ⟨_, _, cs, hcs, hfit, hrelations⟩ := (perform_journals hV hr tick call).of_ok h
  rcases hcs.registers with ⟨v, hv, rfl⟩ | ⟨hnumber, hold⟩
  · have hfit := Change.allFit_singleton.1 hfit
    have hnumber := Call.numberFor?_of_record? hv
    constructor
    · rw [mark, hrelations, Change.applyAll_cons, Change.applyAll_nil, Change.markOf_apply hfit,
        hnumber]
      rfl
    · intro n hn
      rw [hnumber] at hn
      split at hn
      · next hp =>
        cases hn
        cases hp
        exact ⟨hfit.2.2.1, hfit.2.2.2⟩
      · cases hn
  · constructor
    · rw [mark, hrelations, Change.markOf_applyAll hold hfit, hnumber]
      rfl
    · intro n hn
      rw [hnumber] at hn
      cases hn

theorem mark_perform_error (hV : V.Lawful) (hr : V.Good r.store) {tick : Tick} {call : Call}
    {e : Failure} {r' : Registry σ} (h : perform tick call r = (.error e, r')) (p : Int32) :
    r'.mark V p = r.mark V p := by
  rw [mark, ((perform_journals hV hr tick call).of_error h).2]
  rfl

/-- Along a run from a registry whose highest number is known, registered numbers grow, and the
highest grows with them. -/
theorem registered_run (hV : V.Lawful) (p : Int32) (calls : List (Tick × Call)) {r : Registry σ}
    (hr : V.Good r.store) {m : Int32} (hm : r.mark V p = m.toInt) :
    (registered p calls (r.answers calls)).Pairwise (· < ·) ∧
      (∀ n ∈ registered p calls (r.answers calls), 1 ≤ n ∧ m < n) ∧
      (r.after calls).mark V p = ((registered p calls (r.answers calls)).foldl max m).toInt := by
  induction calls generalizing r m with
  | nil => exact ⟨.nil, by simp [registered], hm⟩
  | cons c rest ih =>
    rcases hx : perform c.1 c.2 r with ⟨e | reply, r'⟩
    · have hstep := (perform_journals hV hr c.1 c.2).of_error hx
      have hregistered : registered p (c :: rest) (r.answers (c :: rest)) =
          registered p rest (r'.answers rest) := by
        simp [registered, answers, hx]
      rw [hregistered, after_cons, hx]
      exact ih (hstep.2 ▸ hr) ((mark_perform_error hV hr hx p).trans hm)
    · obtain ⟨_, hgood, _⟩ := (perform_journals hV hr c.1 c.2).of_ok hx
      obtain ⟨hmark, hnumber⟩ := mark_perform_ok hV hr hx p
      have hregistered : registered p (c :: rest) (r.answers (c :: rest)) =
          (c.2.numberFor? p).toList ++ registered p rest (r'.answers rest) := by
        simp only [registered, answers, hx, List.zip_cons_cons, List.filterMap_cons]
        cases c.2.numberFor? p <;> rfl
      rw [hregistered, after_cons, hx]
      cases hn : c.2.numberFor? p with
      | none =>
        rw [hn] at hmark
        exact ih hgood (hmark.trans hm)
      | some n =>
        rw [hn] at hmark
        obtain ⟨hpos, hlater⟩ := hnumber n hn
        obtain ⟨hincreasing, habove, hlast⟩ := ih hgood hmark
        rw [hm, ← Int32.lt_iff_toInt_lt] at hlater
        refine ⟨?_, ?_, ?_⟩
        · exact List.pairwise_cons.2 ⟨fun k hk => (habove k hk).2, hincreasing⟩
        · intro k hk
          rcases List.mem_cons.1 hk with rfl | hk
          · exact ⟨Int32.le_iff_toInt_le.2 hpos, hlater⟩
          · exact ⟨(habove k hk).1, Int32.lt_trans hlater (habove k hk).2⟩
        · have hmax : max m n = n := if_pos (Int32.le_of_lt hlater)
          rw [hlast]
          simp only [Option.toList_some, List.singleton_append, List.foldl_cons, hmax]

/-! ## How a registration is answered -/

/-- The answer to a registration is decided by what is there and by the highest number. -/
theorem perform_addVersion (hV : V.Lawful) (hr : V.Good r.store) (tick : Tick) (p n : Int32)
    (file : Files.Path) (uploader : String) (digest : Digest) (resourceId : String) {m : Int32}
    (hm : r.mark V p = m.toInt) :
    (perform tick (.addVersion p n file uploader digest resourceId) r).1 =
      if (V.relations r.store).projects.contains p = false then .error (.noProject p)
      else if (V.relations r.store).hasVersion p n then .error (.duplicateVersion p n)
      else if n < 1 ∨ n ≤ m then .error (.versionOrdering p n m)
      else .ok .done := by
  have hanswer := hV.answer_addVersion hr (.ofUpload p n file uploader digest resourceId tick.now)
  have hperform : (perform tick (.addVersion p n file uploader digest resourceId) r).1 =
      (Store.addVersion (.ofUpload p n file uploader digest resourceId tick.now) r.store).1.map
        fun _ => .done :=
    congrArg Prod.fst (Step.map_apply _ _ r)
  have hnumber : (1 ≤ n.toInt ∧ m.toInt < n.toInt) ↔ ¬(n < 1 ∨ n ≤ m) := by
    rw [not_or, Int32.not_lt, Int32.not_le, Int32.le_iff_toInt_le, Int32.lt_iff_toInt_lt]
    rfl
  have hmark : (V.relations r.store).markOf V.M p = m.toInt := hm
  rw [hperform, hanswer, Plan.addVersion]
  simp only [Version.ofUpload, hmark, hnumber, Int32.ofInt_toInt]
  cases (V.relations r.store).projects.contains p with
  | false => rfl
  | true =>
    cases (V.relations r.store).hasVersion p n with
    | true => rfl
    | false => by_cases hlow : n < 1 ∨ n ≤ m <;> simp [hlow, Except.map]

/-! ## How long a version is answered -/

/-- Whether a version is answered, alone and among those of its project, with all that was recorded
but its time. -/
def Holds (r : Registry σ) (v : Version) : Prop :=
  ∀ tick : Tick, ∃ w ws,
    w.timeless = v.timeless ∧ w ∈ ws ∧
      (perform tick (.version v.project v.number) r).1 = .ok (.version (some (.ofVersion w))) ∧
      (perform tick (.versions v.project) r).1 = .ok (.versions ws)

def Lacks (r : Registry σ) (v : Version) : Prop :=
  ∀ tick : Tick, ∃ ws,
    (∀ w ∈ ws, w.number ≠ v.number) ∧
      (perform tick (.version v.project v.number) r).1 = .ok (.version none) ∧
      (perform tick (.versions v.project) r).1 = .ok (.versions ws)

/-- Live relations that a registry has written, with times that can be read back. -/
def Records (V : View σ) (r : Registry σ) (l : Relations live) : Prop :=
  V.Good r.store ∧ V.relations r.store = l.write V.M ∧ l.VersionsTimed

theorem perform_version (tick : Tick) (p n : Int32) (r : Registry σ) :
    (perform tick (.version p n) r).1 =
      (Store.version? p n r.store).map fun v => .version (v.map VersionFile.ofVersion) := by
  have hread : perform tick (.version p n) r =
      (Step.read (Registry.version? p n) >>= fun f => pure (.version f)) r := rfl
  rw [hread, Step.map_apply, Step.read_apply, version?]
  cases Store.version? p n r.store <;> rfl

theorem perform_versions (tick : Tick) (p : Int32) (r : Registry σ) :
    (perform tick (.versions p) r).1 = (Store.versions p r.store).map .versions :=
  congrArg Prod.fst (Step.map_apply _ _ r)

theorem Records.perform_version (hV : V.Legible) {l : Relations live} (h : Records V r l) :
    ∃ time : Time.Instant → Time.Instant, ∀ tick p,
      (∀ n, (perform tick (.version p n) r).1 =
        .ok (.version ((l.versions.find? (p, n)).map fun row =>
        .ofVersion (VersionRow.toVersion { row with uploadTime := time row.uploadTime } p n)))) ∧
      (perform tick (.versions p) r).1 = .ok (.versions ((l.versionsOf p).map fun e =>
        VersionRow.toVersion { e.2 with uploadTime := time e.2.uploadTime } p e.1)) := by
  obtain ⟨hgood, hl, htimed⟩ := h
  obtain ⟨time, hversion, hversions⟩ := hV hgood hl htimed
  refine ⟨time, fun tick p => ⟨fun n => ?_, ?_⟩⟩
  · rw [Registry.perform_version, hversion]
    cases l.versions.find? (p, n) <;> rfl
  · rw [Registry.perform_versions, hversions]
    rfl

theorem Records.holds_iff (hV : V.Legible) {l : Relations live} (h : Records V r l) (v : Version) :
    r.Holds v ↔ ∃ row, l.versions.find? (v.project, v.number) = some row ∧
      (row.toVersion v.project v.number).timeless = v.timeless := by
  obtain ⟨time, hanswers⟩ := h.perform_version hV
  constructor
  · intro hholds
    obtain ⟨w, _, hw, _, hversion, _⟩ := hholds .first
    rw [(hanswers _ v.project).1 v.number] at hversion
    cases hrow : l.versions.find? (v.project, v.number) with
    | none => simp [hrow] at hversion
    | some row =>
      simp only [hrow, Option.map_some, Except.ok.injEq, Reply.version.injEq, Option.some.injEq,
        VersionFile.ofVersion, VersionFile.mk.injEq, and_true] at hversion
      exact ⟨row, rfl, by rw [← hw, ← hversion]; rfl⟩
  · rintro ⟨row, hrow, hw⟩ tick
    obtain ⟨hversion, hversions⟩ := hanswers tick v.project
    refine ⟨VersionRow.toVersion { row with uploadTime := time row.uploadTime } v.project v.number,
      _, hw, ?_, ?_, hversions⟩
    · exact List.mem_map.2 ⟨(v.number, row), Relations.mem_versionsOf_iff.2 hrow, rfl⟩
    · rw [hversion, hrow]
      rfl

theorem Records.lacks (hV : V.Legible) {l : Relations live} (h : Records V r l) {v : Version}
    (hnone : l.versions.find? (v.project, v.number) = none) : r.Lacks v := by
  obtain ⟨time, hanswers⟩ := h.perform_version hV
  intro tick
  obtain ⟨hversion, hversions⟩ := hanswers tick v.project
  refine ⟨_, fun w hw he => ?_, by rw [hversion, hnone]; rfl, hversions⟩
  obtain ⟨e, hmem, rfl⟩ := List.mem_map.1 hw
  have hfind := Relations.mem_versionsOf_iff.1 hmem
  rw [show e.1 = v.number from he, hnone] at hfind
  cases hfind

/-- A call at a time of the calendar leaves what its changes make of the live relations. -/
theorem Records.step (hV : V.Lawful) {l : Relations live} (h : Records V r l) {tick : Tick}
    (htick : tick.now.OnCalendar) (call : Call) :
    ∃ cs, Change.AllFit .values r.limits cs l ∧
      Records V (perform tick call r).2 (Change.applyAll .values cs l) ∧
      match (perform tick call r).1 with
      | .ok reply => call.Makes r tick reply cs
      | .error _ => cs = [] := by
  obtain ⟨hgood, hl, htimed⟩ := h
  have hjournal := perform_journals hV hgood tick call
  rcases hx : perform tick call r with ⟨e | reply, r'⟩
  · have hstore := (hjournal.of_error hx).2
    exact ⟨[], trivial, ⟨hstore ▸ hgood, by rw [hstore]; exact hl, htimed⟩, rfl⟩
  · obtain ⟨_, hgood', cs, hcs, hfit, hrelations⟩ := hjournal.of_ok hx
    rw [hl, Change.allFit_write] at hfit
    rw [hl, Change.applyAll_write] at hrelations
    refine ⟨cs, hfit, ⟨hgood', hrelations, Change.versionsTimed_applyAll htimed fun v hv => ?_⟩,
      hcs⟩
    rcases hcs.registers with ⟨w, hw, rfl⟩ | ⟨_, hold⟩
    · cases List.mem_singleton.1 hv
      rw [Call.uploadTime_of_record? hw]
      exact htick
    · cases hold _ hv

theorem Records.number_le (hV : V.Lawful) {l : Relations live} (h : Records V r l) {p n : Int32}
    {row : VersionRow live} (hrow : l.versions.find? (p, n) = some row) :
    n.toInt ≤ l.markOf .values p := by
  obtain ⟨hgood, hl, _⟩ := h
  have hsound := hV.sound hgood
  rw [hl] at hsound
  have hversion : (l.write V.M).hasVersion p n = true := by
    rw [Relations.hasVersion_write]
    exact Table.contains_of_find? hrow
  have hle := (hsound.version hversion).2.2
  rw [Change.markOf_write] at hle
  exact hle

/-- What changes that fit keep of the live relations, a run keeps. -/
theorem Records.run (hV : V.Lawful) {P : Relations live → Prop}
    (hP : ∀ {limits cs l}, Change.AllFit .values limits cs l → P l →
      P (Change.applyAll .values cs l))
    {l : Relations live} (h : Records V r l) (hl : P l) (calls : List (Tick × Call))
    (hclock : ∀ c ∈ calls, c.1.now.OnCalendar) : ∃ l', Records V (r.after calls) l' ∧ P l' := by
  induction calls generalizing r l with
  | nil => exact ⟨l, h, hl⟩
  | cons c rest ih =>
    obtain ⟨cs, hfit, hstep, _⟩ := h.step hV (hclock c List.mem_cons_self) c.2
    exact ih hstep (hP hfit hl) fun d hd => hclock d (List.mem_cons_of_mem c hd)

/-- A call leaves the row of a version as it is, or it was answered and cleaned the version up. -/
theorem Records.step_row (hV : V.Lawful) {l : Relations live} (h : Records V r l) {p n : Int32}
    {row : VersionRow live} (hrow : l.versions.find? (p, n) = some row) {tick : Tick}
    (htick : tick.now.OnCalendar) (call : Call) :
    ∃ l', Records V (perform tick call r).2 l' ∧
      (l'.versions.find? (p, n) = some row ∨
        l'.Spent .values p n ∧ call.CleansUp p n ∧
          ∃ reply, (perform tick call r).1 = .ok reply) := by
  obtain ⟨cs, hfit, hstep, hcs⟩ := h.step hV htick call
  refine ⟨_, hstep, ?_⟩
  cases hanswer : (perform tick call r).1 with
  | error e =>
    rw [hanswer] at hcs
    rw [hcs]
    exact .inl hrow
  | ok reply =>
    rw [hanswer] at hcs
    rcases hcs.find?_versions hfit hrow (h.number_le hV hrow) with hkept | ⟨hspent, hclean⟩
    · exact .inl hkept
    · exact .inr ⟨hspent, hclean, reply, rfl⟩

/-- A row stays the same along a run until it is cleaned up, and its number is not used again. -/
theorem Records.run_row (hV : V.Lawful) {l : Relations live} (h : Records V r l) {p n : Int32}
    {row : VersionRow live} (hrow : l.versions.find? (p, n) = some row)
    (calls : List (Tick × Call)) (hclock : ∀ c ∈ calls, c.1.now.OnCalendar) :
    ∃ l', Records V (r.after calls) l' ∧
      (l'.versions.find? (p, n) = some row ∨
        l'.Spent .values p n ∧ CleanedUp p n calls (r.answers calls)) := by
  induction calls generalizing r l with
  | nil => exact ⟨l, h, .inl hrow⟩
  | cons c rest ih =>
    have hrest : ∀ d ∈ rest, d.1.now.OnCalendar := fun d hd => hclock d (List.mem_cons_of_mem c hd)
    obtain ⟨l₁, hstep, hkept | ⟨hspent, hclean, hreply⟩⟩ :=
      h.step_row hV hrow (hclock c List.mem_cons_self) c.2
    · obtain ⟨l₂, hl₂, hkept | ⟨hspent, d, hd, hclean⟩⟩ := ih hstep hkept hrest
      · exact ⟨l₂, hl₂, .inl hkept⟩
      · exact ⟨l₂, hl₂, .inr ⟨hspent, d, List.mem_cons_of_mem _ hd, hclean⟩⟩
    · obtain ⟨l₂, hl₂, hspent⟩ := hstep.run hV (P := fun l => l.Spent .values p n)
        (fun hfit h => Change.spent_applyAll hfit h) hspent rest hrest
      exact ⟨l₂, hl₂, .inr ⟨hspent, _, List.mem_cons_self, hclean, hreply⟩⟩

/-- What the numbers and the records of versions come to after a run. -/
structure NumbersKept {C : Columns} (relations : σ → Relations C) (start : Registry σ)
    (calls : List (Tick × Call)) :
    Prop where
  increasing (p : Int32) : (registered p calls (start.answers calls)).Pairwise (· < ·)
  positive (p n : Int32) : n ∈ registered p calls (start.answers calls) → 1 ≤ n
  /-- A registration asks for the project, then whether the number is there, then for the largest
  that ever was. -/
  answer (tick : Tick) (p n : Int32) (file : Files.Path) (uploader : String) (digest : Digest)
    (resourceId : String) :
    let r := start.after calls
    let latest := largest (registered p calls (start.answers calls))
    (perform tick (.addVersion p n file uploader digest resourceId) r).1 =
      if (relations r.store).projects.contains p = false then .error (.noProject p)
      else if (relations r.store).hasVersion p n then .error (.duplicateVersion p n)
      else if n < 1 ∨ n ≤ latest then .error (.versionOrdering p n latest)
      else .ok .done
  /-- What is registered is answered from then on, if times are those of the calendar. -/
  held {tick : Tick} {call : Call} {v : Version} {reply : Reply} :
    (∀ c ∈ calls, c.1.now.OnCalendar) → tick.now.OnCalendar →
      call.record? (start.after calls) tick = some v →
      (perform tick call (start.after calls)).1 = .ok reply →
        (perform tick call (start.after calls)).2.Holds v
  /-- What is answered stays the same along every further run, until it is cleaned up. Then it is
  missing for good. -/
  kept {v : Version} (later : List (Tick × Call)) :
    let r := start.after calls
    (∀ c ∈ calls, c.1.now.OnCalendar) → (∀ c ∈ later, c.1.now.OnCalendar) → r.Holds v →
      (r.after later).Holds v ∨
        (r.after later).Lacks v ∧ CleanedUp v.project v.number later (r.answers later)

theorem numbersKept (hV : V.Lawful) (hread : V.Legible) (hr : V.Good r.store)
    (hempty : V.relations r.store = .empty) (calls : List (Tick × Call)) :
    NumbersKept V.relations r calls := by
  have hmark (p : Int32) : r.mark V p = (0 : Int32).toInt := by
    rw [mark, hempty]
    rfl
  have hrun (p : Int32) := registered_run hV p calls hr (hmark p)
  have hgood := good_after hV hr calls
  have hstart : Records V r .empty := ⟨hr, hempty, fun k row h => by simp [Relations.empty] at h⟩
  refine ⟨fun p => (hrun p).1, fun p n hn => ((hrun p).2.1 n hn).1, ?_, ?_, ?_⟩
  · intro tick p n file uploader digest resourceId
    exact perform_addVersion hV hgood tick p n file uploader digest resourceId (hrun p).2.2
  · intro tick call v reply hclock htick hrecord hreply
    obtain ⟨l, hl, -⟩ :=
      hstart.run hV (P := fun _ => True) (fun _ _ => trivial) trivial calls hclock
    obtain ⟨cs, hfit, hstep, hcs⟩ := hl.step hV htick call
    rw [hreply] at hcs
    rcases hcs.registers with ⟨w, hw, rfl⟩ | ⟨hnumber, _⟩
    · cases hrecord.symm.trans hw
      refine (hstep.holds_iff hread v).2 ⟨.ofVersion v, ?_, rfl⟩
      rw [Change.applyAll_cons, Change.applyAll_nil, Change.find?_versions_apply]
      simp
    · have := hnumber v.project
      rw [Call.numberFor?_of_record? hrecord] at this
      simp at this
  · intro v later r' hclock hlater hheld
    obtain ⟨l, hl, -⟩ :=
      hstart.run hV (P := fun _ => True) (fun _ _ => trivial) trivial calls hclock
    obtain ⟨row, hrow, hv⟩ := (hl.holds_iff hread v).1 hheld
    obtain ⟨l', hl', hkept | ⟨hspent, hclean⟩⟩ := hl.run_row hV hrow later hlater
    · exact .inl ((hl'.holds_iff hread v).2 ⟨row, hkept, hv⟩)
    · exact .inr ⟨hl'.lacks hread hspent.1, hclean⟩

end Registry

/-- In memory and in a database alike, no number of a version is ever used twice, and no record
changes. -/
theorem version_numbers_never_reused (limits : Limits) (root : Files.Path) (files : Files.FileTree)
    (calls : List (Tick × Call)) :
    (Registry.start limits root files Memory.empty).NumbersKept Memory.relations calls ∧
      (Registry.start limits root files Database.empty).NumbersKept Database.relations calls := by
  constructor
  · exact Registry.numbersKept (r := .start limits root files Memory.empty) Memory.lawful
      Memory.legible
      Memory.good_empty rfl calls
  · exact Registry.numbersKept (r := .start limits root files Database.empty) Database.lawful
      Database.legible
      Database.good_empty rfl calls

/-- The version that a run keeps to its end. -/
def keptVersion : Version :=
  .ofUpload 1 7 (.ofText "a.zip") "ann" ⟨List.replicate 16 0, rfl⟩ "1/7/a" Tick.first.now

def keptCall : Tick × Call :=
  (.first, .addVersion 1 7 (.ofText "a.zip") "ann" ⟨List.replicate 16 0, rfl⟩ "1/7/a")

def lostCall : Tick × Call :=
  (.first, .addVersion 1 5 (.ofText "a.zip") "ann" ⟨List.replicate 16 0, rfl⟩ "1/5/a")

def reuseStart : List (Tick × Call) := [(.first, .createProject "flows" "" "ann"), lostCall]

def reuseRest : List (Tick × Call) :=
  [(.first, .changeVersion (.new 1 "flows" "" "ann" .epoch) 7 "ann"), (.first, .clean 1 6),
    lostCall]

/-- A run that registers two versions, cleans up the lower one and asks for it again. -/
def reuseRun : List (Tick × Call) := reuseStart ++ [keptCall] ++ reuseRest

theorem reuseRun_numbers :
    (∀ c ∈ reuseRun, c.1.now.OnCalendar) ∧
      registered 1 reuseRun ((Registry.start {} (.ofText "root") .empty Database.empty).answers
        reuseRun) = [5, 7] ∧
      (Registry.start {} (.ofText "root") .empty Memory.empty).NumbersKept Memory.relations
        reuseRun ∧
      ((Registry.start {} (.ofText "root") .empty Database.empty).after reuseRun).Holds
        keptVersion := by
  have hclock : ∀ c ∈ reuseRun, c.1.now.OnCalendar := by decide +kernel
  have hstart : ∀ c ∈ reuseStart ++ [keptCall], c.1.now.OnCalendar := fun c hc =>
    hclock c (List.mem_append_left _ hc)
  have hrest : ∀ c ∈ reuseRest, c.1.now.OnCalendar :=
    fun c hc => hclock c (List.mem_append_right _ hc)
  have hnumbers (calls : List (Tick × Call)) :=
    version_numbers_never_reused {} (.ofText "root") .empty calls
  refine ⟨hclock, by decide +kernel, (hnumbers reuseRun).1, ?_⟩
  rw [reuseRun, Registry.after_append]
  have hanswer : (Registry.perform keptCall.1 keptCall.2
      ((Registry.start {} (.ofText "root") .empty Database.empty).after
        reuseStart)).1.isOk = true := by decide +kernel
  have hheld : ((Registry.start {} (.ofText "root") .empty Database.empty).after
      (reuseStart ++ [keptCall])).Holds keptVersion := by
    rw [Registry.after_append, Registry.after_cons, Registry.after_nil]
    cases hreply : (Registry.perform keptCall.1 keptCall.2
      ((Registry.start {} (.ofText "root") .empty Database.empty).after reuseStart)).1 with
    | error e =>
      rw [hreply] at hanswer
      cases hanswer
    | ok reply =>
      exact (hnumbers reuseStart).2.held (fun c hc => hstart c (List.mem_append_left _ hc))
        (hstart keptCall (by simp)) rfl hreply
  refine ((hnumbers (reuseStart ++ [keptCall])).2.kept reuseRest hstart hrest hheld).resolve_right
    ?_
  rintro ⟨-, c, hc, hclean, -⟩
  have hspared : ∀ c ∈ reuseRest, ¬ c.2.CleansUp 1 7 := by simp [reuseRest, lostCall, Call.CleansUp]
  exact hspared c.1 (List.of_mem_zip hc).1 hclean

end ProjectRegistry
