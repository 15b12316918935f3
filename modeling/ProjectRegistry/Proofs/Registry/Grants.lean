import ProjectRegistry.Proofs.Registry.Lookups
import ProjectRegistry.Proofs.Text.Utf8

/-!
# Grants follow the last write

The rights of a principal in a project are those of the last call that was answered and wrote them:
the creation of the project, for its creator, or a call that sets or drops rights. Users and groups
are told apart, and one project from another, by the key under which rights are kept.

What someone may do is decided by single grants of the list that a project is handed out with.
-/

namespace ProjectRegistry

variable {C : Columns} {M : Medium C} {limits : Limits} {r : Relations C}

theorem Rights.eq_none_of_isEmpty {a : Rights} (h : a.isEmpty = true) : a = .none := by
  obtain ⟨bits⟩ := a
  simpa [isEmpty, none] using h

/-! ## Writes -/

/-- What is left of a principal's rights after a write to the grants of its project. No rights are
no grant. -/
def Grant.written (isGroup : Bool) (principal : String) (before : Option Rights) (g : Grant) :
    Option Rights :=
  if g.isGroup = isGroup ∧ g.principal = principal then
    if g.rights.isEmpty then none else some g.rights
  else before

/-- The rights that the last of some writes gives a principal, which may be no rights. -/
def lastWritten? (isGroup : Bool) (principal : String) (ws : List Grant) : Option Rights :=
  (ws.reverse.find? fun g => g.isGroup = isGroup ∧ g.principal = principal).map (·.rights)

theorem lastWritten?_cons (isGroup : Bool) (principal : String) (g : Grant) (ws : List Grant) :
    lastWritten? isGroup principal (g :: ws) =
      (lastWritten? isGroup principal ws).or
        (if g.isGroup = isGroup ∧ g.principal = principal then some g.rights else none) := by
  rw [lastWritten?, List.reverse_cons, List.find?_append, List.find?_singleton, Option.map_or]
  by_cases hg : g.isGroup = isGroup ∧ g.principal = principal
  · rw [if_pos hg, if_pos (decide_eq_true hg)]
    rfl
  · rw [if_neg hg, if_neg (by simpa using hg)]
    rfl

/-- Of many writes the last one to a principal counts. -/
theorem foldl_written (isGroup : Bool) (principal : String) (ws : List Grant)
    (before : Option Rights) :
    ws.foldl (Grant.written isGroup principal) before =
      ((lastWritten? isGroup principal ws).map (Option.guard fun a => !a.isEmpty)).getD before := by
  induction ws generalizing before with
  | nil => rfl
  | cons g ws ih =>
    rw [List.foldl_cons, ih, lastWritten?_cons, Grant.written]
    cases lastWritten? isGroup principal ws with
    | some rights => rfl
    | none =>
      by_cases hg : g.isGroup = isGroup ∧ g.principal = principal
      · rw [if_pos hg, if_pos hg]
        cases h : g.rights.isEmpty <;> simp [Option.guard, h]
      · rw [if_neg hg, if_neg hg]
        rfl

/-- What a change writes to the grants of a project. -/
def Change.grantFor? (p : Int32) : Change → Option Grant
  | .create id _ _ creator _ => if id = p then some ⟨creator, false, .admin⟩ else none
  | .grant id isGroup principal rights =>
    if id = p then some ⟨principal, isGroup, rights⟩ else none
  | .revoke id isGroup principal => if id = p then some ⟨principal, isGroup, .none⟩ else none
  | _ => none

/-- What a call that was answered writes to the grants of a project. -/
def Call.grantFor? (p : Int32) (reply : Reply) : Call → Option Grant
  | .createProject _ _ creator =>
    match reply with
    | .project q => if q.id = p then some ⟨creator, false, .admin⟩ else none
    | _ => none
  | .setRights q principal isGroup rights =>
    if q.id = p then some ⟨principal, isGroup, rights⟩ else none
  | .dropRights q principal isGroup =>
    if q.id = p then some ⟨principal, isGroup, .none⟩ else none
  | _ => none

/-- What a run wrote to the grants of a project, in the order of its calls. -/
def grantWrites (p : Int32) (calls : List (Tick × Call)) (answers : List (Except Failure Reply)) :
    List Grant :=
  Registry.answered (fun call reply => call.grantFor? p reply) calls answers

theorem Call.Makes.grantFor? {σ : Type} {r : Registry σ} {tick : Tick} {call : Call} {reply : Reply}
    {cs : List Change} (h : call.Makes r tick reply cs) (p : Int32) :
    cs.filterMap (Change.grantFor? p) = (call.grantFor? p reply).toList := by
  cases call
  case sweep retained =>
    refine List.filterMap_eq_nil_iff.2 fun c hc => ?_
    have hupkeep := h c hc
    cases c <;> first | rfl | cases hupkeep
  case createProject name description creator =>
    obtain ⟨q, rfl, rfl⟩ := h
    by_cases hq : q.id = p <;> simp [Change.grantFor?, Call.grantFor?, hq]
  case setRights q principal isGroup rights =>
    simp only [Call.Makes] at h
    by_cases hempty : rights.isEmpty = true
    · rw [if_pos hempty] at h
      rw [Rights.eq_none_of_isEmpty hempty]
      by_cases hq : q.id = p <;> simp [h, Change.grantFor?, Call.grantFor?, hq]
    · rw [if_neg hempty] at h
      by_cases hq : q.id = p <;> simp [h, Change.grantFor?, Call.grantFor?, hq]
  case dropRights q principal isGroup =>
    simp only [Call.Makes] at h
    by_cases hq : q.id = p <;> simp [h, Change.grantFor?, Call.grantFor?, hq]
  case postEvent q kind user message =>
    simp only [Call.Makes] at h
    split at h <;> simp [h, Change.grantFor?, Call.grantFor?]
  case removeProject q user => rcases h with rfl | rfl <;> rfl
  case configure | addVersion | uploadFile | putBundle | putBundles =>
    obtain ⟨_, _, rfl⟩ := h
    rfl
  all_goals
    simp only [Call.Makes] at h
    simp [h, Change.grantFor?, Call.grantFor?]

/-! ## What relations hold -/

/-- The rights of a principal in a project. -/
def Relations.rightsAt (M : Medium C) (r : Relations C) (p : Int32) (isGroup : Bool)
    (principal : String) : Option Rights :=
  (r.grants.find? (p, isGroup, principal)).map M.rightsOf

namespace Change

theorem rightsAt_write {id p : Int32} {isGroup isGroup' : Bool} {principal principal' : String}
    {cell : Option C.Rights} {rights : Rights}
    (hcell : cell.map M.rightsOf = if rights.isEmpty then none else some rights) :
    (if (id, isGroup', principal') = (p, isGroup, principal) then cell
      else r.grants.find? (p, isGroup, principal)).map M.rightsOf =
      (if id = p then some (Grant.mk principal' isGroup' rights) else none).toList.foldl
        (Grant.written isGroup principal) (r.rightsAt M p isGroup principal) := by
  by_cases hid : id = p
  · by_cases hkey : isGroup' = isGroup ∧ principal' = principal
    · simp [Grant.written, hid, hkey, hcell]
    · simp [Relations.rightsAt, Grant.written, hid, hkey]
  · simp [Relations.rightsAt, hid]

/-- A change that writes to the grants of a project gives one principal its rights there. -/
theorem rightsAt_apply {c : Change} (hfit : c.Fits M limits r) (p : Int32) (isGroup : Bool)
    (principal : String) :
    (c.apply M r).rightsAt M p isGroup principal =
      (c.grantFor? p).toList.foldl (Grant.written isGroup principal)
        (r.rightsAt M p isGroup principal) := by
  cases c with
  | create id name description creator now =>
    rw [Relations.rightsAt, apply, onGrants, Table.find?_insert]
    exact rightsAt_write (congrArg some (M.rightsOf_rights .admin))
  | grant id isGroup' principal' rights =>
    rw [Relations.rightsAt, apply, onGrants, Table.find?_insert]
    refine rightsAt_write ?_
    rw [hfit.2]
    exact congrArg some (M.rightsOf_rights rights)
  | revoke id isGroup' principal' =>
    rw [Relations.rightsAt, apply, onGrants, Table.find?_erase]
    simp only [@eq_comm _ (p, isGroup, principal)]
    exact rightsAt_write rfl
  | retire | describe | configure | log | register | point | clean | putBundles | putFlows => rfl

theorem rightsAt_applyAll {cs : List Change} (hfit : AllFit M limits cs r) (p : Int32)
    (isGroup : Bool) (principal : String) :
    (applyAll M cs r).rightsAt M p isGroup principal =
      (cs.filterMap (grantFor? p)).foldl (Grant.written isGroup principal)
        (r.rightsAt M p isGroup principal) := by
  induction cs generalizing r with
  | nil => rfl
  | cons c cs ih =>
    rw [applyAll_cons, ih hfit.2, rightsAt_apply hfit.1, List.filterMap_cons]
    cases c.grantFor? p <;> rfl

end Change

/-- The order in which grants are listed: users before groups, and each by the bytes of the names.
-/
def Grant.before (a b : Grant) : Prop :=
  a.isGroup = false ∧ b.isGroup = true ∨
    a.isGroup = b.isGroup ∧ Text.utf8 a.principal < Text.utf8 b.principal

namespace Relations

theorem grantList_ordered (r : Relations C) (p : Int32) :
    (r.grantList M p).Pairwise Grant.before := by
  simp only [grantList, grantsOf, List.pairwise_map]
  refine (List.Pairwise.and_mem.1 (r.grants.ordered.filter _)).imp ?_
  rintro ⟨⟨q, isGroup, principal⟩, rights⟩ ⟨⟨q', isGroup', principal'⟩, rights'⟩
  rintro ⟨hmem, hmem', hbefore⟩
  have hq : q = p := by simpa using (List.mem_filter.1 hmem).2
  have hq' : q' = p := by simpa using (List.mem_filter.1 hmem').2
  have hsame : Key.before p p = false := Key.before_irrefl p
  have horder : Key.before isGroup isGroup' = true ∨
      isGroup = isGroup' ∧ Key.before principal principal' = true := by
    simpa [Key.before, hq, hq', hsame] using hbefore
  rcases horder with hgroup | ⟨hgroup, hname⟩
  · left
    simpa [Key.before] using hgroup
  · exact .inr ⟨hgroup, Text.utf8_lt_of_lt (of_decide_eq_true hname)⟩

theorem mem_grantList_iff {p : Int32} {g : Grant} :
    g ∈ r.grantList M p ↔ r.rightsAt M p g.isGroup g.principal = some g.rights := by
  simp only [grantList, grantsOf, rightsAt, List.mem_map, List.mem_filter, decide_eq_true_eq,
    Option.map_eq_some_iff, Table.find?_eq_some_iff]
  constructor
  · rintro ⟨_, ⟨e, ⟨he, rfl⟩, rfl⟩, rfl⟩
    exact ⟨e.2, he, rfl⟩
  · rintro ⟨rights, he, hrights⟩
    refine ⟨_, ⟨_, ⟨he, rfl⟩, rfl⟩, ?_⟩
    simp only [hrights]

end Relations

/-! ## Whole runs -/

theorem rightsAt_run {σ : Type} [Store σ] {V : View σ} {r : Registry σ} (hV : V.Lawful)
    (hr : V.Good r.store) (p : Int32) (isGroup : Bool) (principal : String)
    (calls : List (Tick × Call)) :
    (V.relations (r.after calls).store).rightsAt V.M p isGroup principal =
      (grantWrites p calls (r.answers calls)).foldl (Grant.written isGroup principal)
        ((V.relations r.store).rightsAt V.M p isGroup principal) :=
  Registry.foldl_answered hV _ _ (fun rs => rs.rightsAt V.M p isGroup principal)
    (fun hcs hfit => by rw [Change.rightsAt_applyAll hfit, hcs.grantFor? p]) calls hr

/-- A list of grants that says what some writes come to, each principal once and in order. -/
structure ListsWrites (gs : List Grant) (ws : List Grant) : Prop where
  ordered : gs.Pairwise Grant.before
  mem_iff (g : Grant) :
    g ∈ gs ↔ lastWritten? g.isGroup g.principal ws = some g.rights ∧ g.rights.isEmpty = false

theorem listsWrites_run {σ : Type} [Store σ] {V : View σ} {r : Registry σ} (hV : V.Lawful)
    (hr : V.Good r.store) (hempty : V.relations r.store = .empty) (calls : List (Tick × Call))
    (p : Int32) :
    ListsWrites ((V.relations (r.after calls).store).grantList V.M p)
      (grantWrites p calls (r.answers calls)) where
  ordered := Relations.grantList_ordered _ p
  mem_iff g := by
    have hnone : (V.relations r.store).rightsAt V.M p g.isGroup g.principal = none := by
      rw [hempty]
      rfl
    rw [Relations.mem_grantList_iff, rightsAt_run hV hr p g.isGroup g.principal calls,
      hnone, foldl_written]
    cases lastWritten? g.isGroup g.principal (grantWrites p calls (r.answers calls)) with
    | none => simp
    | some rights =>
      rw [Option.map_some, Option.getD_some, Option.guard_eq_some_iff, Option.some.injEq]
      constructor
      · rintro ⟨rfl, h⟩
        exact ⟨rfl, by simpa using h⟩
      · rintro ⟨rfl, h⟩
        exact ⟨rfl, by simpa using h⟩

/-! ## What someone may do -/

/-- Whether a grant is one of a user or of one of its groups. -/
def Grant.Reaches (user : String) (groups : List String) (g : Grant) : Prop :=
  if g.isGroup then g.principal ∈ groups else g.principal = user

namespace Project

variable {p : Project}

theorem rightsOf?_eq_some_iff (h : p.grants.Pairwise Grant.before) {principal : String}
    {isGroup : Bool} {rights : Rights} :
    p.rightsOf? principal isGroup = some rights ↔ ⟨principal, isGroup, rights⟩ ∈ p.grants := by
  rw [rightsOf?, Option.map_eq_some_iff]
  constructor
  · rintro ⟨g, hg, rfl⟩
    have hkey : g.isGroup = isGroup ∧ g.principal = principal := by simpa using List.find?_some hg
    rw [← hkey.1, ← hkey.2]
    exact List.mem_of_find?_eq_some hg
  · intro hmem
    obtain ⟨before, after, hgrants⟩ := List.append_of_mem hmem
    rw [hgrants, List.pairwise_append] at h
    refine ⟨_, List.find?_eq_some_iff_append.2 ⟨by simp, before, after, hgrants, ?_⟩, rfl⟩
    intro g hg
    have hbefore : g.before ⟨principal, isGroup, rights⟩ := h.2.2 g hg _ List.mem_cons_self
    rw [Bool.not_eq_true', decide_eq_false_iff_not]
    rintro ⟨rfl, rfl⟩
    rcases hbefore with ⟨hgroup, hgroup'⟩ | ⟨-, hname⟩
    · rw [hgroup] at hgroup'
      cases hgroup'
    · exact List.lt_irrefl _ hname

/-- Rights come from one grant alone: of the user itself, or of one of its groups. -/
theorem hasRights_iff (h : p.grants.Pairwise Grant.before) (user : String) (groups : List String)
    (required : Rights) :
    p.hasRights user groups required = true ↔
      ∃ g ∈ p.grants, g.Reaches user groups ∧
        (g.rights.contains .admin = true ∨ g.rights.contains required = true) := by
  simp only [hasRights, Bool.or_eq_true, List.any_eq_true, Option.any_eq_true,
    rightsOf?_eq_some_iff h, Rights.allows]
  constructor
  · rintro (⟨rights, hmem, hallows⟩ | ⟨group, hgroup, rights, hmem, hallows⟩)
    · exact ⟨_, hmem, rfl, hallows⟩
    · exact ⟨_, hmem, hgroup, hallows⟩
  · rintro ⟨⟨principal, isGroup, rights⟩, hmem, hreaches, hallows⟩
    cases isGroup with
    | false =>
      cases (show principal = user from hreaches)
      exact .inl ⟨rights, hmem, hallows⟩
    | true => exact .inr ⟨principal, hreaches, rights, hmem, hallows⟩

end Project

/-! ## The grants that a registry hands out -/

/-- A project in a reply to a look-up has the id of the row that was found, and its grants. -/
theorem Reader.of_found_ok {R : Reader C} {missing : Failure}
    {e? : Option (Int32 × ProjectRow C)} {q : Project}
    (h : (R.found r M missing e?).map Reply.project = .ok (.project q)) :
    ∃ p row, e? = some (p, row) ∧ q.id = p ∧ q.grants = r.grantList M p := by
  obtain ⟨q', hq', hreply⟩ := exists_of_map_ok h
  cases hreply
  cases e? with
  | none => cases hq'
  | some e => exact ⟨e.1, e.2, rfl, of_projectAt_ok hq'⟩

namespace Registry

variable {σ : Type} [Store σ] {V : View σ} {R : Reader V.C} {r : Registry σ}

/-- Whether a project is handed out to someone who asks for it by its id, by its name or among all
active ones. -/
def Fetches (r : Registry σ) (q : Project) : Prop :=
  ∃ tick, (∃ p, (perform tick (.projectById p) r).1 = .ok (.project q)) ∨
    (∃ name, (perform tick (.projectByName name) r).1 = .ok (.project q)) ∨
    ∃ qs, (perform tick .activeProjects r).1 = .ok (.projects qs) ∧ q ∈ qs

theorem id_of_projectById (hF : V.Finds R) (hr : V.Good r.store) {tick : Tick} {p : Int32}
    {q : Project} (h : (perform tick (.projectById p) r).1 = .ok (.project q)) : q.id = p := by
  rw [perform, ask_map, hF.projectById hr] at h
  obtain ⟨p', row, hrow, hid, -⟩ := Reader.of_found_ok h
  obtain ⟨row', -, hrow'⟩ := Option.map_eq_some_iff.1 hrow
  cases hrow'
  exact hid

theorem grants_of_fetches (hA : V.Answers R) (hF : V.Finds R) (hr : V.Good r.store)
    (hnames : (V.relations r.store).NamesUnique) {q : Project} (h : r.Fetches q) :
    q.grants = (V.relations r.store).grantList V.M q.id := by
  obtain ⟨tick, ⟨p, h⟩ | ⟨name, h⟩ | ⟨qs, h, hq⟩⟩ := h
  · rw [perform, ask_map, hF.projectById hr] at h
    obtain ⟨_, _, -, rfl, hgrants⟩ := Reader.of_found_ok h
    exact hgrants
  · rw [perform, ask_map, hF.projectByName hr hnames] at h
    obtain ⟨_, _, -, rfl, hgrants⟩ := Reader.of_found_ok h
    exact hgrants
  · rw [perform, ask_map, hA.activeProjects hr] at h
    obtain ⟨qs', hqs, hreply⟩ := exists_of_map_ok h
    cases hreply
    obtain ⟨e, -, hread⟩ := mem_of_loadAll_ok hqs hq
    have hread : R.projectAt (V.relations r.store) V.M e.1 e.2 = .ok q := hread
    obtain ⟨hid, hgrants⟩ := Reader.of_projectAt_ok hread
    rw [hgrants, hid]

/-- What grants come to after a run. -/
structure GrantsFollowWrites (start : Registry σ) (calls : List (Tick × Call)) : Prop where
  listed (tick : Tick) (p : Int32) :
    ∃ gs, perform tick (.grants p) (start.after calls) = (.ok (.grants gs), start.after calls) ∧
      ListsWrites gs (grantWrites p calls (start.answers calls))
  byId {tick : Tick} {p : Int32} {q : Project} :
    (perform tick (.projectById p) (start.after calls)).1 = .ok (.project q) → q.id = p
  /-- A project that is handed out has the grants of its id. -/
  fetched {q : Project} : (start.after calls).Fetches q →
    ListsWrites q.grants (grantWrites q.id calls (start.answers calls))
  /-- What someone may do with it is decided by single grants. -/
  allowed {q : Project} (user : String) (groups : List String) (required : Rights) :
    (start.after calls).Fetches q →
      (q.hasRights user groups required = true ↔
        ∃ g ∈ q.grants, g.Reaches user groups ∧
          (g.rights.contains .admin = true ∨ g.rights.contains required = true))

theorem grantsFollowWrites (hV : V.Lawful) (hA : V.Answers R) (hF : V.Finds R)
    (hr : V.Good r.store) (hempty : V.relations r.store = .empty) (calls : List (Tick × Call)) :
    GrantsFollowWrites r calls := by
  have hgood := good_after hV hr calls
  have hfetched {q : Project} (hq : (r.after calls).Fetches q) :
      ListsWrites q.grants (grantWrites q.id calls (r.answers calls)) := by
    rw [grants_of_fetches hA hF hgood (namesUnique_after hV hr hempty calls) hq]
    exact listsWrites_run hV hr hempty calls q.id
  refine ⟨fun tick p => ?_, id_of_projectById hF hgood, hfetched,
    fun user groups required hq => ?_⟩
  · refine ⟨_, ?_, listsWrites_run hV hr hempty calls p⟩
    rw [perform, ask_map, hF.grants hgood]
    rfl
  · exact Project.hasRights_iff (hfetched hq).ordered user groups required

end Registry

/-- In memory and in a database alike, access follows the last write. -/
theorem grants_follow_last_write (limits : Limits) (root : Files.Path) (files : Files.FileTree)
    (calls : List (Tick × Call)) :
    (Registry.start limits root files Memory.empty).GrantsFollowWrites calls ∧
      (Registry.start limits root files Database.empty).GrantsFollowWrites calls :=
  ⟨Registry.grantsFollowWrites (r := .start limits root files Memory.empty) Memory.lawful
      Memory.answers Memory.finds Memory.good_empty rfl calls,
    Registry.grantsFollowWrites (r := .start limits root files Database.empty) Database.lawful
      Database.answers Database.finds Database.good_empty rfl calls⟩

end ProjectRegistry
