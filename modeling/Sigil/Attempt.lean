/-!
# Attempts

An attempt runs on a state and ends with a value or a failure. Either way it leaves a state: what was
done before a failure stays done, so that a caller can go on from there.
-/

namespace Sigil

/-- A computation on a state `σ` that gives an `α` or fails with an `ε`, and leaves a state. -/
def Attempt (σ ε α : Type) : Type :=
  σ → Except ε α × σ

namespace Attempt

variable {σ ε α β : Type}

/-- Succeeds at once. -/
def done (a : α) : Attempt σ ε α :=
  fun s => (.ok a, s)

/-- Runs the first attempt and, if it succeeds, the second. -/
def andThen (x : Attempt σ ε α) (f : α → Attempt σ ε β) : Attempt σ ε β := fun s =>
  match x s with
  | (.ok a, s') => f a s'
  | (.error e, s') => (.error e, s')

/-- Fails. -/
def fail (e : ε) : Attempt σ ε α :=
  fun s => (.error e, s)

/-- Runs the handler if the attempt fails, in the state that the failure left. -/
def orElse (x : Attempt σ ε α) (handle : ε → Attempt σ ε α) : Attempt σ ε α := fun s =>
  match x s with
  | (.ok a, s') => (.ok a, s')
  | (.error e, s') => handle e s'

instance : Monad (Attempt σ ε) where
  pure := done
  bind := andThen

instance : MonadStateOf σ (Attempt σ ε) where
  get := fun s => (.ok s, s)
  set s := fun _ => (.ok (), s)
  modifyGet f := fun s => (.ok (f s).1, (f s).2)

instance : MonadExceptOf ε (Attempt σ ε) where
  throw := fail
  tryCatch := orElse

/-- Changes the failure. -/
def mapFailure {ε' : Type} (f : ε → ε') (x : Attempt σ ε α) : Attempt σ ε' α := fun s =>
  match x s with
  | (.ok a, s') => (.ok a, s')
  | (.error e, s') => (.error (f e), s')

@[simp] theorem pure_apply (a : α) (s : σ) : (pure a : Attempt σ ε α) s = (.ok a, s) := rfl

@[simp] theorem throw_apply (e : ε) (s : σ) : (throw e : Attempt σ ε α) s = (.error e, s) := rfl

@[simp] theorem get_apply (s : σ) : (get : Attempt σ ε σ) s = (.ok s, s) := rfl

@[simp] theorem set_apply (s t : σ) : (set t : Attempt σ ε PUnit) s = (.ok (), t) := rfl

@[simp] theorem modify_apply (f : σ → σ) (s : σ) :
    (modify f : Attempt σ ε PUnit) s = (.ok (), f s) := rfl

theorem bind_apply (x : Attempt σ ε α) (f : α → Attempt σ ε β) (s : σ) :
    (x >>= f) s = match x s with
      | (.ok a, s') => f a s'
      | (.error e, s') => (.error e, s') := rfl

theorem bind_of_ok {x : Attempt σ ε α} {f : α → Attempt σ ε β} {s s' : σ} {a : α}
    (h : x s = (.ok a, s')) : (x >>= f) s = f a s' := by
  rw [bind_apply, h]

theorem bind_of_error {x : Attempt σ ε α} {f : α → Attempt σ ε β} {s s' : σ} {e : ε}
    (h : x s = (.error e, s')) : (x >>= f) s = (.error e, s') := by
  rw [bind_apply, h]

/-- A sequence succeeds only if both of its parts do. -/
theorem bind_eq_ok {x : Attempt σ ε α} {f : α → Attempt σ ε β} {s s' : σ} {b : β} :
    (x >>= f) s = (.ok b, s') ↔ ∃ a s₁, x s = (.ok a, s₁) ∧ f a s₁ = (.ok b, s') := by
  rw [bind_apply]
  cases hx : x s with
  | mk r s₁ =>
    cases r with
    | ok a =>
      constructor
      · intro h
        exact ⟨a, s₁, rfl, h⟩
      · rintro ⟨a', s', h, hf⟩
        simp only [Prod.mk.injEq, Except.ok.injEq] at h
        obtain ⟨rfl, rfl⟩ := h
        exact hf
    | error e => simp

instance : LawfulMonad (Attempt σ ε) := LawfulMonad.mk' _
  (by
    intro α x
    funext s
    change (match x s with
      | (.ok a, s') => (.ok a, s')
      | (.error e, s') => (.error e, s')) = x s
    split <;> simp_all)
  (by intros; rfl)
  (by
    intro α β γ x f g
    funext s
    change (match (match x s with
        | (.ok a, s') => f a s'
        | (.error e, s') => (.error e, s')) with
      | (.ok b, s') => g b s'
      | (.error e, s') => (.error e, s'))
      = match x s with
        | (.ok a, s') => (match f a s' with
          | (.ok b, s'') => g b s''
          | (.error e, s'') => (.error e, s''))
        | (.error e, s') => (.error e, s')
    cases x s with
    | mk r s' => cases r <;> rfl)

end Attempt

end Sigil
