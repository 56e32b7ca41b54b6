import Sigil.Proofs.Laws.Expressions

/-!
# What the check of an expression depends on

Of the state, the check of an expression sees the locals and which of them are freed, and it leaves both as
they are (`Check.Even`). So it has the same outcome wherever the locals are alike.
-/

namespace Sigil.Check

/-- The locals look the same, and the same ones are freed. -/
structure Scope.Alike (s s' : Scope) : Prop where
  sight : s.frame.sight = s'.frame.sight
  freed : ∀ x slot slot', s.frame.get? x = some slot → s'.frame.get? x = some slot' →
    (slot.offset ∈ s.freed ↔ slot'.offset ∈ s'.freed)

theorem Scope.Alike.quiet {s s' t t' : Scope} (h : s.Alike s') (hs : s.Quiet t) (hs' : s'.Quiet t') :
    t.Alike t' := by
  refine ⟨?_, ?_⟩
  · rw [hs.frame, hs'.frame]
    exact h.sight
  · rw [hs.frame, hs'.frame, hs.freed, hs'.freed]
    exact h.freed

/-- The outcome is the same wherever the locals are alike, and the scope is left alone. -/
def Even {τ α : Type} (x : Checker τ α) : Prop :=
  ∀ s s' : Scope, s.Alike s' → ∃ r t t', x s = (r, t) ∧ x s' = (r, t') ∧ s.Quiet t ∧ s'.Quiet t'

section

variable {τ τ' α β : Type}

theorem even_pure (a : α) : Even (pure a : Checker τ α) :=
  fun s s' _ => ⟨.ok a, s, s', rfl, rfl, .refl s, .refl s'⟩

theorem even_reject (tree : τ) (pos : Position) (e : TypeError) :
    Even (reject tree pos e : Checker τ α) :=
  fun s s' _ => ⟨_, s, s', rfl, rfl, .refl s, .refl s'⟩

/-- Two parts that do the same in like scopes do so one after another. -/
theorem even_bind {Q : α → Prop} {x : Checker τ α} {k : α → Checker τ β} (hx : Even x)
    (hret : Returns Q x) (hk : ∀ a, Q a → Even (k a)) : Even (x >>= k) := by
  intro s s' hs
  obtain ⟨r, t, t', hxs, hxs', hq, hq'⟩ := hx s s' hs
  cases r with
  | ok a =>
    obtain ⟨r, u, u', hks, hks', hu, hu'⟩ := hk a (hret s a t hxs) t t' (hs.quiet hq hq')
    refine ⟨r, u, u', ?_, ?_, hq.trans hu, hq'.trans hu'⟩
    · rw [Attempt.bind_of_ok hxs, hks]
    · rw [Attempt.bind_of_ok hxs', hks']
  | error e =>
    exact ⟨.error e, t, t', Attempt.bind_of_error hxs, Attempt.bind_of_error hxs', hq, hq'⟩

theorem even_within (context : τ → τ') {x : Checker τ α} (hx : Even x) : Even (within context x) := by
  intro s s' hs
  obtain ⟨r, t, t', hxs, hxs', hq, hq'⟩ := hx s s' hs
  unfold within Attempt.mapFailure
  rw [hxs, hxs']
  cases r with
  | ok a => exact ⟨_, t, t', rfl, rfl, hq, hq'⟩
  | error e => exact ⟨_, t, t', rfl, rfl, hq, hq'⟩

theorem even_pass {x : Checker τ α} {g : Spoiled τ → Scope → Scope} (hx : Even x)
    (hg : ∀ e (s : Scope), s.Quiet (g e s)) : Even (tryCatch x fun e => do modify (g e); throw e) := by
  intro s s' hs
  obtain ⟨r, t, t', hxs, hxs', hq, hq'⟩ := hx s s' hs
  dsimp only [tryCatch, tryCatchThe, MonadExceptOf.tryCatch]
  unfold Attempt.orElse
  rw [hxs, hxs']
  cases r with
  | ok a => exact ⟨_, t, t', rfl, rfl, hq, hq'⟩
  | error e => exact ⟨_, g e t, g e t', rfl, rfl, hq.trans (hg e t), hq'.trans (hg e t')⟩

theorem even_ask (c : Context) (question : Names → Eval α) :
    Even (c.ask question : Checker τ (Except TypeError α)) := by
  intro s s' hs
  unfold Context.ask
  rw [c.names_congr hs.sight]
  split
  · exact ⟨_, s, s', rfl, rfl, .refl s, .refl s'⟩
  · exact ⟨_, s, s', rfl, rfl, .refl s, .refl s'⟩
  · exact ⟨_, _, _, rfl, rfl, ⟨rfl, rfl, rfl, rfl, rfl⟩, ⟨rfl, rfl, rfl, rfl, rfl⟩⟩

/-- All steps of checking expressions do the same in like scopes. -/
theorem exprLaws_even (c : Context) :
    ExprLaws c (fun _ => True) fun _ _ => Even where
  pure := even_pure
  reject tree _ _ _ _ := even_reject tree _ _
  bind := even_bind
  within := even_within
  look := by
    intro τ α k hk hR s s' hs
    obtain ⟨r, t, t', hks, hks', hq⟩ := hR s s s' hs
    refine ⟨r, t, t', hks, ?_, hq⟩
    rw [hk s s' hs.sight] at hks'
    exact hks'
  demand := by
    intro τ α tree pos question _ _
    refine even_bind (even_ask c question) (returns_any _) fun r _ => ?_
    cases r with
    | ok a => exact even_pure a
    | error e => exact even_reject tree pos e
  value? := by
    intro τ e
    refine even_bind (even_ask c _) (returns_any _) fun r _ => ?_
    cases r with
    | ok v => exact even_pure (some v)
    | error _ => exact even_pure none
  note hg := fun s s' _ => ⟨_, _, _, rfl, rfl, (hg s).toQuiet, (hg s').toQuiet⟩
  pass hx hg := even_pass hx fun e s => (hg e s).toQuiet

end

/-- Of the state, the name rule needs to know only whether the local is freed. -/
theorem even_identRule (c : Context) (m : Mark) (x : String) (hint : Option Ty) :
    Even (identRule c m x hint) := by
  intro s s' hs
  rcases Frame.get?_of_sight hs.sight x with ⟨hf, hf'⟩ | ⟨slot, slot', hf, hf', hty, -, -⟩
  · rw [identRule_of_global hf, identRule_of_global hf']
    exact ((exprLaws_even c).globalRule trivial x hint).holds s s' hs
  · rw [identRule_of_local hf, identRule_of_local hf', hty]
    -- Both scopes hold the slot, freed in both or in neither.
    have hfreed := hs.freed x slot slot' hf hf'
    by_cases hmem : slot.offset ∈ s.freed
    · rw [if_pos hmem, if_pos (hfreed.1 hmem)]
      exact ⟨_, s, s', rfl, rfl, .refl s, .refl s'⟩
    · rw [if_neg hmem, if_neg fun h => hmem (hfreed.2 h)]
      exact ⟨_, s, s', rfl, rfl, .refl s, .refl s'⟩

end Sigil.Check
