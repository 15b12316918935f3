import ProjectRegistry.Store.Step

/-!
# Evaluating steps

What each kind of step does to a state, and what it takes for a sequence of steps to succeed.
-/

namespace ProjectRegistry.Step

variable {σ α β : Type}

@[simp] theorem fail_apply (e : Failure) (s : σ) : (fail e : Step σ α) s = (.error e, s) := rfl

@[simp] theorem get_apply (s : σ) : (get : Step σ σ) s = (.ok s, s) := rfl

@[simp] theorem change_apply (f : σ → σ) (s : σ) : change f s = (.ok (), f s) := rfl

@[simp] theorem lift_apply (r : Except Failure α) (s : σ) : (lift r : Step σ α) s = (r, s) := rfl

@[simp] theorem read_apply (q : σ → Except Failure α) (s : σ) : read q s = (q s, s) := rfl

@[simp] theorem require_true (e : Failure) (s : σ) : require true e s = (.ok (), s) := rfl

@[simp] theorem require_false (e : Failure) (s : σ) : require false e s = (.error e, s) := rfl

@[simp] theorem lift_ok_bind (a : α) (f : α → Step σ β) : (lift (.ok a) >>= f) = f a := rfl

@[simp] theorem require_true_bind (e : Failure) (f : Unit → Step σ β) :
    (require true e >>= f) = f () :=
  rfl

@[simp] theorem require_false_bind (e : Failure) (f : Unit → Step σ β) :
    (require false e >>= f) = fail e :=
  rfl

theorem get_bind_apply (f : σ → Step σ β) (s : σ) : (get >>= f) s = f s s := rfl

theorem bind_ok {x : Step σ α} {f : α → Step σ β} {s s' : σ} {a : α} (h : x s = (.ok a, s')) :
    (x >>= f) s = f a s' := by
  rw [bind_apply, h]

theorem bind_error {x : Step σ α} {f : α → Step σ β} {s s' : σ} {e : Failure}
    (h : x s = (.error e, s')) :
    (x >>= f) s = (.error e, s') := by
  rw [bind_apply, h]

theorem map_apply (x : Step σ α) (f : α → β) (s : σ) :
    (x >>= fun a => pure (f a)) s = ((x s).1.map f, (x s).2) := by
  rw [bind_apply]
  rcases x s with ⟨_ | _, _⟩ <;> rfl

theorem allOrNone_ok {x : Step σ α} {s s' : σ} {a : α} (h : x s = (.ok a, s')) :
    x.allOrNone s = (.ok a, s') := by
  rw [allOrNone, h]

theorem allOrNone_error {x : Step σ α} {s s' : σ} {e : Failure} (h : x s = (.error e, s')) :
    x.allOrNone s = (.error e, s) := by
  rw [allOrNone, h]

/-- A step that fails leaves the state as it was. -/
def Atomic (x : Step σ α) : Prop := ∀ s, ∀ e, (x s).1 = .error e → (x s).2 = s

theorem atomic_allOrNone (x : Step σ α) : x.allOrNone.Atomic := by
  intro s e h
  exact allOrNone_of_error (Prod.ext h rfl)

theorem atomic_lift_bind (r : Except Failure α) {f : α → Step σ β} (h : ∀ a, (f a).Atomic) :
    (lift r >>= f).Atomic := by
  cases r with
  | error e =>
    intro s _ _
    rfl
  | ok a => exact h a

/-- Outcomes that are the same in some respect are one and the same failure, or both answers. -/
theorem cases_of_map_eq {f : α → β} {a a' : Except Failure α} (h : a.map f = a'.map f) :
    (∃ e, a = .error e ∧ a' = .error e) ∨ ∃ b b', a = .ok b ∧ a' = .ok b' ∧ f b = f b' := by
  rcases a with e | b <;> rcases a' with e' | b'
  · exact .inl ⟨e, rfl, congrArg Except.error (Except.error.inj h).symm⟩
  · cases h
  · cases h
  · exact .inr ⟨b, b', rfl, rfl, Except.ok.inj h⟩

end ProjectRegistry.Step
