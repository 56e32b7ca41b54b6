import Sigil.Attempt

/-!
# Outcomes of attempts

What is known about an attempt is said for both of its ends at once: a condition on the value and the
state if it succeeds, and one on the failure and the state if it fails. Every way of building attempts
has one rule here, so that a proof about an attempt follows its text.
-/

namespace Sigil.Attempt

variable {σ ε ε' α β : Type}
variable {s : σ} {E : ε → σ → Prop} {x : Attempt σ ε α} {Q : α → σ → Prop} {a : α}

/-- From `s`, the attempt ends in `Q` if it succeeds and in `E` if it fails. -/
def Ends (x : Attempt σ ε α) (s : σ) (Q : α → σ → Prop) (E : ε → σ → Prop) : Prop :=
  match x s with
  | (.ok a, s') => Q a s'
  | (.error e, s') => E e s'

theorem Ends.mono {Q' : α → σ → Prop} {E' : ε → σ → Prop}
    (h : x.Ends s Q E) (hQ : ∀ a s', Q a s' → Q' a s') (hE : ∀ e s', E e s' → E' e s') :
    x.Ends s Q' E' := by
  unfold Ends at *
  rcases hx : x s with ⟨r, s'⟩
  rw [hx] at h
  cases r with
  | ok a => exact hQ a s' h
  | error e => exact hE e s' h

/-- What holds at the end holds of a success in particular. -/
theorem Ends.of_ok {s' : σ}
    (h : x.Ends s Q E) (hx : x s = (.ok a, s')) : Q a s' := by
  unfold Ends at h
  rw [hx] at h
  exact h

/-- What is known of every success holds at the end, if nothing is asked of a failure. -/
theorem ends_of_ok
    (h : ∀ a s', x s = (.ok a, s') → Q a s') : x.Ends s Q fun _ _ => True := by
  unfold Ends
  rcases hx : x s with ⟨r, s'⟩
  cases r with
  | ok a => exact h a s' hx
  | error e => trivial

theorem ends_pure (h : Q a s) :
    (pure a : Attempt σ ε α).Ends s Q E :=
  h

theorem ends_throw {e : ε} (h : E e s) :
    (throw e : Attempt σ ε α).Ends s Q E :=
  h

theorem ends_get {Q : σ → σ → Prop} (h : Q s s) :
    (get : Attempt σ ε σ).Ends s Q E :=
  h

theorem ends_modify {f : σ → σ} {Q : PUnit → σ → Prop}
    (h : Q () (f s)) : (modify f : Attempt σ ε PUnit).Ends s Q E :=
  h

/-- A sequence ends well if its second part does from wherever the first part ends. -/
theorem ends_bind {f : α → Attempt σ ε β} {Q : β → σ → Prop}
    (h : x.Ends s (fun a s' => (f a).Ends s' Q E) E) :
    (x >>= f).Ends s Q E := by
  unfold Ends at *
  rw [bind_apply]
  rcases hx : x s with ⟨r, s'⟩
  rw [hx] at h
  cases r with
  | ok a => exact h
  | error e => exact h

/-- An attempt with a handler ends well if the handler does from wherever the attempt fails. -/
theorem ends_tryCatch {handle : ε → Attempt σ ε α}
    (h : x.Ends s Q fun e s' => (handle e).Ends s' Q E) :
    (tryCatch x handle).Ends s Q E := by
  change (x.orElse handle).Ends s Q E
  unfold Ends orElse at *
  rcases hx : x s with ⟨r, s'⟩
  rw [hx] at h
  cases r with
  | ok a => exact h
  | error e => exact h

theorem ends_mapFailure {f : ε → ε'}
    {E : ε' → σ → Prop} (h : x.Ends s Q (fun e => E (f e))) : (x.mapFailure f).Ends s Q E := by
  unfold Ends mapFailure at *
  rcases hx : x s with ⟨r, s'⟩
  rw [hx] at h
  cases r with
  | ok a => exact h
  | error e => exact h

theorem ends_map {f : α → β} {Q : β → σ → Prop}
    (h : x.Ends s (fun a => Q (f a)) E) : (f <$> x).Ends s Q E :=
  ends_bind h

end Sigil.Attempt
