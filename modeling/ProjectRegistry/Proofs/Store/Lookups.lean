import ProjectRegistry.Proofs.Store.Answers
import ProjectRegistry.Proofs.Store.Names
import ProjectRegistry.Proofs.Store.Queries

/-!
# How projects are looked up

A project is found by its id, or by its name as the one that the name stands for: the active project
of that name, or else the one that was created last. Memory looks through the rows from the first
on and a database from the last, which comes to the same as long as no two active projects have one
name.
-/

namespace ProjectRegistry

variable {C : Columns}

namespace Relations

variable {r : Relations C} {name : String} {p : Int32} {row : ProjectRow C}

/-- Whether a project is the one that a name stands for: the active one, or the last one if none is
active. -/
def StandsFor (r : Relations C) (name : String) (p : Int32) (row : ProjectRow C) : Prop :=
  r.projects.find? p = some row ∧ row.name = name ∧
    (row.active = true ∨ ∀ q row', r.projects.find? q = some row' → row'.name = name →
      row'.active = false ∧ q ≤ p)

def named (r : Relations C) (name : String) : List (Int32 × ProjectRow C) :=
  r.projects.entries.filter fun e => e.2.name = name

/-- The project that a name stands for, as a search. -/
def rowNamed? (r : Relations C) (name : String) : Option (Int32 × ProjectRow C) :=
  (r.named name).find? (fun e => e.2.active) <|> (r.named name).getLast?

theorem mem_named_iff :
    (p, row) ∈ r.named name ↔ r.projects.find? p = some row ∧ row.name = name := by
  rw [named, List.mem_filter, Table.find?_eq_some_iff, decide_eq_true_eq]

/-- Of the projects of a name at most one is active. -/
theorem NamesUnique.eq_of_active (h : r.NamesUnique) {e d : Int32 × ProjectRow C}
    (he : e ∈ r.named name) (hd : d ∈ r.named name) (hactive : e.2.active = true)
    (hactive' : d.2.active = true) : e = d := by
  obtain ⟨hfind, hname⟩ := mem_named_iff.1 he
  obtain ⟨hfind', hname'⟩ := mem_named_iff.1 hd
  have hid := h e.1 d.1 e.2 d.2 hfind hfind' hactive hactive' (hname.trans hname'.symm)
  rw [hid, hfind', Option.some.injEq] at hfind
  exact Prod.ext hid hfind.symm

/-- The last of the projects of a name is the one with the largest id. -/
theorem le_of_getLast?_named {q : Int32} {row' : ProjectRow C}
    (hlast : (r.named name).getLast? = some (p, row)) (hq : (q, row') ∈ r.named name) : q ≤ p := by
  obtain ⟨before, hnamed⟩ := List.getLast?_eq_some_iff.1 hlast
  have hordered := r.projects.ordered.filter fun e => decide (e.2.name = name)
  rw [show r.projects.entries.filter _ = before ++ [(p, row)] from hnamed, List.pairwise_append]
    at hordered
  rw [hnamed, List.mem_append, List.mem_singleton] at hq
  rcases hq with hq | hq
  · exact Int32.le_of_lt
      (of_decide_eq_true (hordered.2.2 (q, row') hq (p, row) List.mem_cons_self))
  · rw [(Prod.mk.inj hq).1]
    exact Int32.le_refl p

theorem rowNamed?_eq_none_iff :
    r.rowNamed? name = none ↔ ∀ p row, r.projects.find? p = some row → row.name ≠ name := by
  have hempty : r.named name = [] ↔ ∀ p row, r.projects.find? p = some row → row.name ≠ name := by
    rw [List.eq_nil_iff_forall_not_mem]
    constructor
    · intro h p row hrow hname
      exact h (p, row) (mem_named_iff.2 ⟨hrow, hname⟩)
    · intro h e he
      exact h e.1 e.2 (mem_named_iff.1 he).1 (mem_named_iff.1 he).2
  rw [← hempty, rowNamed?, Option.orElse_eq_orElse, Option.orElse_eq_or, Option.or_eq_none_iff,
    List.getLast?_eq_none_iff]
  constructor
  · exact And.right
  · intro h
    exact ⟨by rw [h]; rfl, h⟩

/-- An active project is the only one that a name stands for. -/
theorem standsFor_iff_of_active (h : r.NamesUnique) {e : Int32 × ProjectRow C}
    (he : e ∈ r.named name) (hactive : e.2.active = true) :
    e = (p, row) ↔ r.StandsFor name p row := by
  obtain ⟨hfind, hname⟩ := mem_named_iff.1 he
  constructor
  · rintro rfl
    exact ⟨hfind, hname, .inl hactive⟩
  · rintro ⟨hfind', hname', hactive' | hnone⟩
    · exact h.eq_of_active he (mem_named_iff.2 ⟨hfind', hname'⟩) hactive hactive'
    · have hretired := (hnone e.1 e.2 hfind hname).1
      rw [hactive] at hretired
      cases hretired

/-- Without an active project, the last one of a name is the only one that it stands for. -/
theorem standsFor_iff_of_retired (hretired : ∀ e ∈ r.named name, e.2.active = false) :
    (r.named name).getLast? = some (p, row) ↔ r.StandsFor name p row := by
  constructor
  · intro hlast
    obtain ⟨hfind, hname⟩ : r.projects.find? p = some row ∧ row.name = name :=
      mem_named_iff.1 (List.mem_of_getLast? hlast)
    refine ⟨hfind, hname, .inr fun q row' hq hname' => ?_⟩
    have hmem : (q, row') ∈ r.named name := mem_named_iff.2 ⟨hq, hname'⟩
    exact ⟨hretired _ hmem, le_of_getLast?_named hlast hmem⟩
  · rintro ⟨hfind, hname, hchosen⟩
    have hmem := mem_named_iff.2 ⟨hfind, hname⟩
    cases hlast : (r.named name).getLast? with
    | none =>
      rw [List.getLast?_eq_none_iff] at hlast
      rw [hlast] at hmem
      cases hmem
    | some e =>
      obtain ⟨q, row'⟩ := e
      obtain ⟨hfind', hname'⟩ := mem_named_iff.1 (List.mem_of_getLast? hlast)
      rcases hchosen with hactive | hnone
      · have hfalse : row.active = false := hretired _ hmem
        rw [hactive] at hfalse
        cases hfalse
      · obtain rfl := Int32.le_antisymm (hnone q row' hfind' hname').2
          (le_of_getLast?_named hlast hmem)
        rw [hfind', Option.some.injEq] at hfind
        rw [hfind]

theorem rowNamed?_eq_some_iff (h : r.NamesUnique) :
    r.rowNamed? name = some (p, row) ↔ r.StandsFor name p row := by
  rw [rowNamed?]
  cases hfound : (r.named name).find? fun e => e.2.active with
  | some e =>
    have hactive : e.2.active = true := by simpa using List.find?_some hfound
    rw [← standsFor_iff_of_active h (List.mem_of_find?_eq_some hfound) hactive]
    exact Option.some_inj
  | none =>
    rw [List.find?_eq_none] at hfound
    exact standsFor_iff_of_retired fun e he => by simpa using hfound e he

end Relations

namespace Reader

variable (R : Reader C) (r : Relations C) (M : Medium C)

/-- A row of a project as it is read, with the grants of the project. -/
def projectAt (p : Int32) (row : ProjectRow C) : Except Failure Project :=
  (R.project row).map fun read => read.toProject p (r.grantList M p)

/-- The answer to a look-up: what is read of the row that was found, or why there is none. -/
def found (missing : Failure) : Option (Int32 × ProjectRow C) → Except Failure Project
  | some (p, row) => R.projectAt r M p row
  | none => .error missing

end Reader

/-- A project as it is read has the id under which it was looked for, and the grants of that id. -/
theorem Reader.of_projectAt_ok {R : Reader C} {r : Relations C} {M : Medium C} {p : Int32}
    {row : ProjectRow C} {q : Project} (h : R.projectAt r M p row = .ok q) :
    q.id = p ∧ q.grants = r.grantList M p := by
  obtain ⟨read, -, rfl⟩ := exists_of_map_ok h
  exact ⟨rfl, rfl⟩

/-- The row under an id, with its id. -/
def Relations.rowAt? (r : Relations C) (p : Int32) : Option (Int32 × ProjectRow C) :=
  (r.projects.find? p).map fun row => (p, row)

variable {σ : Type} [Store σ]

/-- A store whose look-ups are read off its relations. -/
structure View.Finds (V : View σ) (R : Reader V.C) : Prop where
  projectById {s : σ} (hs : V.Good s) (p : Int32) :
    Store.projectById p s =
      R.found (V.relations s) V.M (.noProject p) ((V.relations s).rowAt? p)
  projectByName {s : σ} (hs : V.Good s) (hnames : (V.relations s).NamesUnique) (name : String) :
    Store.projectByName name s =
      R.found (V.relations s) V.M (.notFound .project name) ((V.relations s).rowNamed? name)
  grants {s : σ} (hs : V.Good s) (p : Int32) :
    Store.grants p s = .ok ((V.relations s).grantList V.M p)

theorem Memory.finds : Memory.view.Finds .values where
  projectById {m} _ p := by
    show Memory.projectById p m =
      Reader.values.found m.relations .values (.noProject p) (m.relations.rowAt? p)
    rw [Memory.projectById, Memory.row, Relations.rowAt?]
    cases m.relations.projects.find? p <;> rfl
  projectByName {m} _ _ name := by
    show Memory.projectByName name m =
      Reader.values.found m.relations .values (.notFound .project name)
        ((m.named name).find? (fun e => e.2.active) <|> (m.named name).getLast?)
    rw [Memory.projectByName]
    cases ((m.named name).find? (fun e => e.2.active) <|> (m.named name).getLast?) <;> rfl
  grants _ _ := rfl

namespace Database

theorem rowByName?_eq {r : Relations stored} (h : r.NamesUnique) (name : String) :
    rowByName? r name = r.rowNamed? name :=
  head?_filter_reverse fun _ ha _ hb hactive hactive' => h.eq_of_active ha hb hactive hactive'

theorem finds : view.Finds .cells where
  projectById {d} h p := by
    show Database.projectById p d =
      Reader.cells.found d.relations .cells (.noProject p) (d.relations.rowAt? p)
    rw [Database.projectById, query_apply h.isOpen, Relations.rowAt?]
    cases d.relations.projects.find? p with
    | none => rfl
    | some row => exact loadProject_eq d.relations p row
  projectByName {d} h hnames name := by
    show Database.projectByName name d =
      Reader.cells.found d.relations .cells (.notFound .project name) (d.relations.rowNamed? name)
    have hrow : rowByName? d.relations name = d.relations.rowNamed? name :=
      rowByName?_eq hnames name
    rw [Database.projectByName, query_apply h.isOpen, hrow]
    cases d.relations.rowNamed? name with
    | none => rfl
    | some e => exact loadProject_eq d.relations e.1 e.2
  grants {d} h p := by
    show Database.grants p d = _
    rw [Database.grants, query_apply h.isOpen]
    rfl

end Database

end ProjectRegistry
