import Sigil.Check.Scope
import Sigil.Proofs.Typing.Rules

/-!
# Checks that leave the scope alone

Checking an expression declares nothing and reports nothing: of the state it changes at most what has
been learned about signs and whether evaluation has trapped (`Check.Scope.Quiet`). So the locals that an
expression sees are those at its start, whichever part of it is being checked, and a rule for a whole
expression follows from rules for its parts (`Check.Checks.bind`).
-/

namespace Sigil

open Attempt

/-- The types of the locals of a frame. -/
def Frame.env (f : Frame) : Typing.Env :=
  fun x => (f.get? x).map (·.ty)

theorem Frame.env_eq_none {f : Frame} {x : String} (h : ¬f.isLocal x = true) : f.env x = none := by
  have hx : f.get? x = none := by simpa [Frame.isLocal] using h
  simp [Frame.env, hx]

/-- The types of all locals exist. -/
def Typing.Env.Defined (kind : String → Option SymbolKind) (Γ : Typing.Env) : Prop :=
  ∀ x t, Γ x = some t → t.Defined kind

namespace Check

/-- Nothing has changed but what is known about signs and traps. -/
structure Scope.Quiet (s s' : Scope) : Prop where
  frame : s'.frame = s.frame
  loops : s'.loops = s.loops
  freed : s'.freed = s.freed
  pending : s'.pending = s.pending
  errors : s'.errors = s.errors

theorem Scope.Quiet.refl (s : Scope) : s.Quiet s := ⟨rfl, rfl, rfl, rfl, rfl⟩

theorem Scope.Quiet.trans {s s' s'' : Scope} (h : s.Quiet s') (h' : s'.Quiet s'') : s.Quiet s'' :=
  ⟨h'.frame.trans h.frame, h'.loops.trans h.loops, h'.freed.trans h.freed,
    h'.pending.trans h.pending, h'.errors.trans h.errors⟩

theorem Scope.quiet_learn (s : Scope) (e : Expr) (t : Ty) : s.Quiet (s.learn e t) := by
  unfold Scope.learn
  split
  · exact ⟨rfl, rfl, rfl, rfl, rfl⟩
  · exact .refl s

variable {τ τ' α β : Type}

section

variable {context : τ → τ'} {x : Checker τ α} {s s' : Scope}

theorem within_of_ok {a : α} (h : x s = (.ok a, s')) : within context x s = (.ok a, s') := by
  rw [within, mapFailure, h]

theorem within_of_error {spoiled : Spoiled τ} (h : x s = (.error spoiled, s')) :
    within context x s = (.error ⟨spoiled.error, context spoiled.tree⟩, s') := by
  rw [within, mapFailure, h]

end

/-- From the frame `f`, a check leaves the scope alone, and its value satisfies `Q`. -/
def Checks (f : Frame) (Q : α → Prop) (x : Checker τ α) : Prop :=
  ∀ s : Scope, s.frame = f → x.Ends s (fun a s' => s.Quiet s' ∧ Q a) (fun _ s' => s.Quiet s')

namespace Checks

variable {f : Frame} {P Q : α → Prop} {R : β → Prop}
variable {x : Checker τ α} {k : α → Checker τ β}

theorem mono (h : Checks f P x) (hPQ : ∀ a, P a → Q a) : Checks f Q x := by
  intro s hs
  exact (h s hs).mono (fun a _ ha => ⟨ha.1, hPQ a ha.2⟩) (fun _ _ he => he)

theorem pure {a : α} (h : Q a) : Checks f Q (pure a : Checker τ α) :=
  fun s _ => ends_pure ⟨.refl s, h⟩

theorem reject {tree : τ} {pos : Position} {e : TypeError} :
    Checks f Q (reject tree pos e : Checker τ α) :=
  fun s _ => ends_throw (.refl s)

theorem bind (hx : Checks f P x)
    (hk : ∀ a, P a → Checks f R (k a)) : Checks f R (x >>= k) := by
  intro s hs
  refine ends_bind ((hx s hs).mono ?_ (fun _ _ he => he))
  rintro a s' ⟨hq, ha⟩
  have hs' : s'.frame = f := hq.frame.trans hs
  exact (hk a ha s' hs').mono (fun _ _ hb => ⟨hq.trans hb.1, hb.2⟩) (fun _ _ he => hq.trans he)

theorem get : Checks f (fun s : Scope => s.frame = f) (get : Checker τ Scope) :=
  fun s hs => ⟨.refl s, hs⟩

theorem modify {g : Scope → Scope} (h : ∀ s : Scope, s.Quiet (g s)) :
    Checks f (fun _ => True) (modify g : Checker τ PUnit) :=
  fun s _ => ends_modify ⟨h s, trivial⟩

theorem within {context : τ → τ'} {x : Checker τ α} (h : Checks f Q x) :
    Checks f Q (within context x) := by
  intro s hs
  exact ends_mapFailure (h s hs)

theorem tryCatch {x : Checker τ α} {handle : Spoiled τ → Checker τ α} (h : Checks f Q x)
    (hh : ∀ e, Checks f Q (handle e)) : Checks f Q (tryCatch x handle) := by
  intro s hs
  refine ends_tryCatch ((h s hs).mono (fun _ _ ha => ha) ?_)
  intro e s' hq
  exact (hh e s' (hq.frame.trans hs)).mono (fun _ _ hb => ⟨hq.trans hb.1, hb.2⟩)
    (fun _ _ he => hq.trans he)

end Checks

namespace Context

variable {c : Context} {f : Frame}
variable {question : Names → Eval α} {e : Expr}

/-- What names mean inside a function keeps the table sound. -/
theorem sound_names (c : Context) (f : Frame) : (c.names f).Sound := by
  constructor
  · intro x s
    unfold names
    dsimp only
    split
    · exact Eval.keeps_pure trivial
    · have h := (c.symbols.sound_namesOfDepth (c.symbols.depth + 1)).constant x s
      rwa [Symbols.kind_namesOfDepth] at h
  · exact fun x => c.symbols.keeps_layout x

theorem checks_ask :
    Checks f (fun r => ∀ a, r = .ok a → c.symbols.ask (question (c.names f)) = .ok a)
      (c.ask question : Checker τ (Except TypeError α)) := by
  rintro s rfl
  unfold Ends ask
  split
  · next r s' h =>
    split at h <;> cases h
    · next ha =>
      refine ⟨.refl s, ?_⟩
      rintro _ ⟨⟩
      exact ha
    · refine ⟨.refl s, ?_⟩
      rintro _ ⟨⟩
    · refine ⟨⟨rfl, rfl, rfl, rfl, rfl⟩, ?_⟩
      rintro _ ⟨⟩
  · next h =>
    split at h <;> cases h

/-- A question that is not refused has an answer. -/
theorem checks_demand {tree : τ} {pos : Position} :
    Checks f (fun a => c.symbols.ask (question (c.names f)) = .ok a)
      (c.demand tree pos question) := by
  unfold demand
  refine checks_ask.bind fun r hr => ?_
  cases r with
  | ok a => exact .pure (hr a rfl)
  | error e => exact .reject

/-- The answer to a question is what the question promises. -/
theorem of_ask {x : Eval α} {Q : α → Prop}
    (hx : x.Keeps c.symbols.kind c.symbols.memo fun a _ => Q a) {a : α} (h : c.symbols.ask x = .ok a) : Q a := by
  unfold Symbols.ask at h
  rcases hr : x c.symbols.memo with ⟨r, s'⟩
  rw [hr] at h
  cases h
  exact (hx.of_ok hr).2

end Context

end Check

end Sigil
