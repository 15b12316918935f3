import ProjectRegistry.Failure

/-!
# Steps

A step works on a state: it answers or fails, and it leaves a state in both cases. Steps follow one
another until one fails; what was changed up to then stays, unless the steps are taken together, all
or none.
-/

namespace ProjectRegistry

/-- What an operation does to a state of type `σ`. -/
def Step (σ α : Type) : Type := σ → Except Failure α × σ

namespace Step

variable {σ τ α β γ : Type}

instance : Monad (Step σ) where
  pure a := fun s => (.ok a, s)
  bind x f := fun s =>
    match x s with
    | (.ok a, s) => f a s
    | (.error e, s) => (.error e, s)

def fail (e : Failure) : Step σ α := fun s => (.error e, s)

def get : Step σ σ := fun s => (.ok s, s)

def change (f : σ → σ) : Step σ Unit := fun s => (.ok (), f s)

/-- An answer or a failure that does not depend on the state. -/
def lift (r : Except Failure α) : Step σ α := fun s => (r, s)

def read (q : σ → Except Failure α) : Step σ α := fun s => (q s, s)

def require (condition : Bool) (e : Failure) : Step σ Unit := fun s =>
  (if condition then .ok () else .error e, s)

/-- Takes the steps of `x` together: where they fail, they change nothing. -/
def allOrNone (x : Step σ α) : Step σ α := fun s =>
  match x s with
  | (.ok a, s') => (.ok a, s')
  | (.error e, _) => (.error e, s)

def within (part : σ → τ) (put : τ → σ → σ) (x : Step τ α) : Step σ α := fun s =>
  match x (part s) with
  | (answer, t) => (answer, put t s)

theorem pure_apply (a : α) (s : σ) : (pure a : Step σ α) s = (.ok a, s) := rfl

theorem bind_apply (x : Step σ α) (f : α → Step σ β) (s : σ) :
    (x >>= f) s = match x s with
      | (.ok a, s) => f a s
      | (.error e, s) => (.error e, s) := rfl

theorem bind_pure' (x : Step σ α) : (x >>= fun a => pure a) = x := by
  funext s
  rw [bind_apply]
  rcases x s with ⟨_ | _, _⟩ <;> rfl

theorem bind_assoc' (x : Step σ α) (f : α → Step σ β) (g : β → Step σ γ) :
    (x >>= f) >>= g = x >>= fun a => f a >>= g := by
  funext s
  simp only [bind_apply]
  rcases x s with ⟨_ | _, _⟩ <;> rfl

instance : LawfulMonad (Step σ) :=
  LawfulMonad.mk' _ bind_pure' (fun _ _ => rfl) bind_assoc'

theorem allOrNone_of_error {x : Step σ α} {s s' : σ} {e : Failure}
    (h : x.allOrNone s = (.error e, s')) :
    s' = s := by
  simp only [allOrNone] at h
  split at h
  · cases h
  · cases h
    rfl

end Step

end ProjectRegistry
