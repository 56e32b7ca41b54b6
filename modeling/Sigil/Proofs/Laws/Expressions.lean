import Sigil.Check.Expression
import Sigil.Proofs.Laws.Trees
import Sigil.Proofs.Typing.Results

/-!
# Properties of checks that go by composition

The check of an expression is put together from few kinds of steps: looking at the locals, asking the
symbol table, rejecting, and noting what has been learned about signs. So a property of checks that holds of
every kind of step and is kept by sequencing (`Check.ExprLaws`) holds of the check of every expression. On the
way it is shown what the outcome of each form is made of (`Check.ExprLaws.forms`), and that is all that later
proofs have to know of the rules (`Check.Result.forms`).

Rejections may be asked to be at certain places, and what is returned stands where the expression is.

Where a local lies in the frame is no business of an expression: it sees its type, its value and whether it
may change (`Frame.sight`). The name rule is the only one that asks whether a local is freed, so it is left
to the single properties.
-/

namespace Sigil

open Attempt Expr List

namespace Expr

/-- The name that an expression consists of. -/
def name? : Expr → Option String
  | .ident _ x => some x
  | _ => none

/-- The name that an expression gives to `@free`. -/
def freed? : Expr → Option String
  | .builtin _ .free args => args.head?.bind name?
  | _ => none

end Expr

/-! ## What expressions see of a frame -/

namespace Frame

/-- What an expression sees of a local. -/
def sight (f : Frame) (x : String) : Option (Ty × Bool × Option Constant) :=
  (f.get? x).map fun slot => (slot.ty, slot.mutable, slot.value)

/-- Frames with the same sight have slots for the same names, which differ at most in their place. -/
theorem get?_of_sight {f f' : Frame} (h : f.sight = f'.sight) (x : String) :
    (f.get? x = none ∧ f'.get? x = none) ∨ ∃ slot slot', f.get? x = some slot ∧ f'.get? x = some slot' ∧
      slot'.ty = slot.ty ∧ slot'.mutable = slot.mutable ∧ slot'.value = slot.value := by
  have hx : f'.sight x = f.sight x := congrFun h.symm x
  unfold sight at hx
  cases hf : f.get? x with
  | none =>
    rw [hf] at hx
    exact Or.inl ⟨rfl, Option.map_eq_none_iff.1 hx⟩
  | some slot =>
    rw [hf] at hx
    obtain ⟨slot', hslot', heq⟩ := Option.map_eq_some_iff.1 hx
    simp only [Prod.mk.injEq] at heq
    exact Or.inr ⟨slot, slot', rfl, hslot', heq⟩

theorem isLocal_congr {f f' : Frame} (h : f.sight = f'.sight) : f.isLocal = f'.isLocal := by
  have heq : ∀ f : Frame, f.isLocal = fun x => (f.sight x).isSome := by
    intro f
    funext x
    simp [isLocal, sight]
  rw [heq, heq, h]

end Frame

open Frame

open Eval (sober_of_keeps)

namespace Check

variable {s : Scope} {x : String}

namespace Context

/-- What names mean depends on the frame only as far as it can be seen. -/
theorem names_congr (c : Context) {f f' : Frame} (h : f.sight = f'.sight) :
    c.names f = c.names f' := by
  have hconst : (c.names f).constant = (c.names f').constant := by
    funext x
    unfold names
    dsimp only
    rcases get?_of_sight h x with ⟨hf, hf'⟩ | ⟨slot, slot', hf, hf', -, -, hvalue⟩
    · rw [hf, hf']
    · simp only [hf, hf', hvalue]
  have heta : ∀ f, c.names f = { c.names f with constant := (c.names f).constant } := fun _ => rfl
  rw [heta f, hconst]
  unfold names
  rw [isLocal_congr h]

/-- So does whether an expression has a type of its own. -/
theorem isOpen_congr (c : Context) {f f' : Frame} (h : f.sight = f'.sight) (e : Expr) :
    c.isOpen f e = c.isOpen f' e := by
  induction e using by_children with
  | h e ih =>
    cases e with
    | ident m x =>
      simp only [isOpen, isGlobalConst]
      rw [isLocal_congr h]
    | unary m op e =>
      cases op with
      | neg => exact ih e mem_cons_self
      | not => rfl
    | binary m op l r =>
      have hl := ih l mem_cons_self
      have hr := ih r (mem_cons_of_mem _ mem_cons_self)
      rw [isOpen, isOpen, hl, hr]
    | _ => rfl

end Context

theorem enumName?_congr (c : Context) {f f' : Frame} (h : f.sight = f'.sight) (e : Expr) :
    enumName? c f e = enumName? c f' e := by
  unfold enumName?
  split
  · rw [isLocal_congr h]
  · rfl

/-- A local is refused exactly if it is freed. -/
theorem identRule_of_local {slot : Slot} (h : s.frame.get? x = some slot)
    (c : Context) (m : Mark) (hint : Option Ty) :
    identRule c m x hint s =
      if slot.offset ∈ s.freed then (.error ⟨⟨m.pos, .useAfterFree x⟩, .ident m x⟩, s)
      else (.ok ((ident m x).withTy slot.ty, slot.ty), s) := by
  unfold identRule
  rw [bind_of_ok (get_apply s)]
  simp only [h, contains_iff_mem]
  split <;> rfl

/-- The part of the name rule that is about names that are no locals. -/
def globalRule (c : Context) (m : Mark) (x : String) (hint : Option Ty) : Checker Expr (Expr × Ty) :=
  match c.symbols.kind x with
  | some .const => do
    constRule c m (← c.demand (.ident m x) m.pos fun _ => c.symbols.globalConst x) hint
  | some _ => reject (.ident m x) m.pos (.notAValue x)
  | none => reject (.ident m x) m.pos (.unknownIdentifier x)

theorem identRule_of_global (h : s.frame.get? x = none) (c : Context) (m : Mark)
    (hint : Option Ty) : identRule c m x hint s = globalRule c m x hint s := by
  unfold identRule
  rw [bind_of_ok (get_apply s)]
  simp only [h]
  rfl

/-- Nothing has changed but what is known about signs, and what has been learned is about declarations that
have their sign only by default. -/
structure Scope.Learns (s s' : Scope) : Prop extends s.Quiet s' where
  learned : ∀ p ∈ s'.learned, p ∈ s.learned ∨ p ∈ s.pending.map (·.2)

theorem Scope.Learns.refl (s : Scope) : s.Learns s :=
  ⟨.refl s, fun _ => Or.inl⟩

theorem Scope.Learns.trans {s' s'' : Scope} (h : s.Learns s') (h' : s'.Learns s'') : s.Learns s'' := by
  refine ⟨h.toQuiet.trans h'.toQuiet, fun p hp => ?_⟩
  rcases h'.learned p hp with hbefore | hpending
  · exact h.learned p hbefore
  · exact Or.inr (h.pending ▸ hpending)

/-- Learning a sign adds positions of pending declarations only. -/
theorem Scope.learns_learn (s : Scope) (e : Expr) (t : Ty) : s.Learns (s.learn e t) := by
  refine ⟨s.quiet_learn e t, fun p hp => ?_⟩
  unfold Scope.learn at hp
  split at hp
  · refine (mem_append.1 hp).imp_right fun hnew => ?_
    obtain ⟨operand, -, hdecl⟩ := mem_filterMap.1 hnew
    obtain ⟨offset, -, hlookup⟩ := Option.bind_eq_some_iff.1 hdecl
    obtain ⟨before, after, hsplit, -⟩ := lookup_eq_some_iff.1 hlookup
    rw [hsplit]
    simp
  · exact Or.inl hp

/-! ## What a check returns -/

section

variable {τ τ' α β : Type} {P : α → Prop} {Q : β → Prop}
variable {x : Checker τ α} {a : α} {context : τ → τ'}

/-- Whatever a check returns has the property. -/
def Returns (P : α → Prop) (x : Checker τ α) : Prop :=
  ∀ s a s', x s = (.ok a, s') → P a

theorem returns_any (x : Checker τ α) : Returns (fun _ => True) x :=
  fun _ _ _ _ => trivial

theorem returns_pure (h : P a) : Returns P (pure a : Checker τ α) := by
  intro s a' s' hx
  cases hx
  exact h

theorem returns_reject (tree : τ) (pos : Position) (e : TypeError) :
    Returns P (reject tree pos e : Checker τ α) := by
  intro s a s' hx
  cases hx

theorem returns_bind {k : α → Checker τ β} (hx : Returns P x)
    (hk : ∀ a, P a → Returns Q (k a)) : Returns Q (x >>= k) := by
  intro s b s' hb
  obtain ⟨a, s1, ha, hb⟩ := bind_eq_ok.1 hb
  exact hk a (hx s a s1 ha) s1 b s' hb

theorem eq_of_within {s' : Scope}
    (h : within context x s = (.ok a, s')) : x s = (.ok a, s') := by
  unfold within mapFailure at h
  rcases hx : x s with ⟨r, s1⟩
  rw [hx] at h
  cases r with
  | ok b =>
    cases h
    rfl
  | error e => cases h

theorem returns_within (hx : Returns P x) :
    Returns P (within context x) :=
  fun s a s' ha => hx s a s' (eq_of_within ha)

/-- What is known of the result holds at the end, beside what is known of the state. -/
theorem Returns.ends (h : Returns P x) {A : α → Scope → Prop}
    {E : Spoiled τ → Scope → Prop} (hx : x.Ends s A E) : x.Ends s (fun a s' => P a ∧ A a s') E := by
  unfold Ends at *
  rcases hr : x s with ⟨r, s'⟩
  rw [hr] at hx
  cases r with
  | ok a => exact ⟨h s a s' hr, hx⟩
  | error e => exact hx

theorem Checks.and_returns {f : Frame} {Q : α → Prop} (h : Checks f Q x) (hreturns : Returns P x) :
    Checks f (fun a => P a ∧ Q a) x :=
  fun s hs => (hreturns.ends (h s hs)).mono (fun _ _ ha => ⟨ha.2.1, ha.1, ha.2.2⟩) fun _ _ he => he

/-- What the check of an expression returns is an outcome of it. -/
theorem result_of_checks {c : Context} {f : Frame} {e : Expr} {hint : Option Ty} {Q : Expr × Ty → Prop}
    (h : Checks f Q (expr c e hint)) : Checks f (Result c f e hint) (expr c e hint) := by
  intro s hs
  have hends := h s hs
  unfold Ends at hends ⊢
  rcases hr : expr c e hint s with ⟨err | r, s'⟩
  · rw [hr] at hends
    exact hends
  · rw [hr] at hends
    exact ⟨hends.1, s, s', hs, hr⟩

end

section

variable {τ α : Type}
variable {question : Names → Eval α}

/-- A question is answered, one way or another. -/
theorem Context.ask_spec (c : Context)
    (hq : ∀ names, names.Sound → (question names).Sober) (s : Scope) :
    ∃ r t, (c.ask question : Checker τ (Except TypeError α)) s = (.ok r, t) ∧ s.Quiet t ∧
      ∀ e, r = .error e → e.freed? = none := by
  have hsober := hq (c.names s.frame) (c.sound_names s.frame) c.symbols.memo
  unfold Context.ask
  cases hr : c.symbols.ask (question (c.names s.frame)) with
  | ok a => exact ⟨.ok a, s, rfl, .refl s, by simp⟩
  | error fault =>
    cases fault with
    | error e =>
      refine ⟨.error e, s, rfl, .refl s, fun e' he' => ?_⟩
      cases he'
      exact hsober _ hr
    | trap =>
      refine ⟨.error .notConstant, _, rfl, ⟨rfl, rfl, rfl, rfl, rfl⟩, fun e' he' => ?_⟩
      cases he'
      rfl

/-- A question to the table leaves the scope as it is, and its failure is not about a free. -/
theorem Context.demand_spec (c : Context) (tree : τ) (pos : Position)
    (hq : ∀ names, names.Sound → (question names).Sober) (s : Scope) :
    ∃ t, s.Quiet t ∧ ((∃ a, c.demand tree pos question s = (.ok a, t)) ∨
      ∃ e, e.freed? = none ∧ c.demand tree pos question s = (.error ⟨⟨pos, e⟩, tree⟩, t)) := by
  obtain ⟨r, t, hr, hquiet, hsober⟩ := c.ask_spec (τ := τ) hq s
  unfold Context.demand
  rw [bind_of_ok hr]
  refine ⟨t, hquiet, ?_⟩
  cases r with
  | ok a => exact Or.inl ⟨a, rfl⟩
  | error e => exact Or.inr ⟨e, hsober e rfl, rfl⟩

/-- An attempt to evaluate leaves the scope as it is, whether it succeeds or not. -/
theorem Context.value?_spec (c : Context) (e : Expr) (s : Scope) :
    ∃ v t, (c.value? e : Checker τ (Option Constant)) s = (.ok v, t) ∧ s.Quiet t := by
  obtain ⟨r, t, hr, hquiet, -⟩ :=
    c.ask_spec (τ := τ) (fun _ hnames => sober_of_keeps (Names.keeps_eval hnames e)) s
  unfold Context.value?
  rw [bind_of_ok hr]
  cases r with
  | ok v => exact ⟨some v, t, rfl, hquiet⟩
  | error _ => exact ⟨none, t, rfl, hquiet⟩

end

/-! ## Laws -/

/-- A property of checks that holds of every step of an expression, with rejections at places that satisfy
`P`, and that is kept by sequencing. -/
structure ExprLaws (c : Context) (P : Position → Prop) (R : (τ α : Type) → Checker τ α → Prop) : Prop where
  pure : ∀ {τ α : Type} (a : α), R τ α (pure a)
  reject : ∀ {τ α : Type} (tree : τ) {pos : Position} {e : TypeError}, P pos → e.freed? = none →
    R τ α (reject tree pos e)
  bind : ∀ {τ α β : Type} {Q : α → Prop} {x : Checker τ α} {k : α → Checker τ β}, R τ α x → Returns Q x →
    (∀ a, Q a → R τ β (k a)) → R τ β (x >>= k)
  within : ∀ {τ τ' α : Type} (context : τ → τ') {x : Checker τ α}, R τ α x → R τ' α (within context x)
  look : ∀ {τ α : Type} {k : Scope → Checker τ α},
    (∀ s s' : Scope, s.frame.sight = s'.frame.sight → k s = k s') → (∀ s, R τ α (k s)) →
    R τ α (get >>= k)
  demand : ∀ {τ α : Type} (tree : τ) {pos : Position} {question : Names → Eval α}, P pos →
    (∀ names, names.Sound → (question names).Sober) → R τ α (c.demand tree pos question)
  value? : ∀ {τ : Type} (e : Expr), R τ (Option Constant) (c.value? e)
  note : ∀ {τ : Type} {g : Scope → Scope}, (∀ s : Scope, s.Learns (g s)) → R τ PUnit (modify g)
  /-- A failure that is passed on once something has been noted. -/
  pass : ∀ {τ α : Type} {x : Checker τ α} {g : Spoiled τ → Scope → Scope}, R τ α x →
    (∀ e (s : Scope), s.Learns (g e s)) → R τ α (tryCatch x fun e => do modify (g e); throw e)

/-- The check has the property `R`, and whatever it returns satisfies `G`. It leaves the scope alone, and what
it returns satisfies `Q` with the frame from which it started. -/
structure Obeys {τ α : Type} (R : (τ α : Type) → Checker τ α → Prop) (G : α → Prop) (Q : Frame → α → Prop)
    (x : Checker τ α) : Prop where
  holds : R τ α x
  returns : Returns G x
  checks : ∀ f, Checks f (Q f) x

/-- Whatever is hinted at, the check of an expression has the property `R`, leaves the scope alone, and
returns an expression at a place that satisfies `P`. -/
def Lawful (c : Context) (P : Position → Prop) (R : (τ α : Type) → Checker τ α → Prop) (k : Expr) : Prop :=
  ∀ hint, Obeys R (P ·.1.pos) (Result c · k hint) (expr c k hint)

section

variable {R : (τ α : Type) → Checker τ α → Prop} {τ α : Type} {G : α → Prop} {Q Q' : Frame → α → Prop}

theorem Obeys.mono {x : Checker τ α} (h : Obeys R G Q x) (hQ : ∀ f a, Q f a → Q' f a) : Obeys R G Q' x :=
  ⟨h.holds, h.returns, fun f => (h.checks f).mono (hQ f)⟩

theorem Obeys.result {c : Context} {e : Expr} {hint : Option Ty} {G : Expr × Ty → Prop}
    {Q : Frame → Expr × Ty → Prop} (h : Obeys R G Q (expr c e hint)) :
    Obeys R G (Result c · e hint) (expr c e hint) :=
  ⟨h.holds, h.returns, fun f => result_of_checks (h.checks f)⟩

end

namespace ExprLaws

variable {c : Context} {P : Position → Prop} {R : (τ α : Type) → Checker τ α → Prop} {τ τ' α β : Type}
  {G : α → Prop} {Q : Frame → α → Prop} {G' : β → Prop} {Q' : Frame → β → Prop} (h : ExprLaws c P R)

include h

/-- A sequence whose second part may be anything. -/
theorem next {x : Checker τ α} {k : α → Checker τ β} (hx : R τ α x) (hk : ∀ a, R τ β (k a)) :
    R τ β (x >>= k) :=
  h.bind hx (returns_any x) fun a _ => hk a

theorem obeys_pure {a : α} (hg : G a) (hq : ∀ f, Q f a) : Obeys R G Q (Pure.pure a : Checker τ α) :=
  ⟨h.pure a, returns_pure hg, fun f => .pure (hq f)⟩

theorem obeys_reject {pos : Position} (hpos : P pos) {e : TypeError} (he : e.freed? = none) (tree : τ) :
    Obeys R G Q (Check.reject tree pos e : Checker τ α) :=
  ⟨h.reject tree hpos he, returns_reject tree pos e, fun _ => .reject⟩

/-- After a rejection nothing follows. -/
theorem reject_bind {pos : Position} (hpos : P pos) {e : TypeError} (he : e.freed? = none) (tree : τ)
    (k : α → Checker τ β) : Obeys R G' Q' (Check.reject tree pos e >>= k) :=
  h.obeys_reject hpos he tree

/-- What is known of the first part with the frame becomes a premise of what is known of the second one: the
property of the second part must not depend on it. -/
theorem andThen {x : Checker τ α} {k : α → Checker τ β} (hx : Obeys R G Q x)
    (hk : ∀ a, G a → Obeys R G' (fun f b => Q f a → Q' f b) (k a)) : Obeys R G' Q' (x >>= k) := by
  refine ⟨h.bind hx.holds hx.returns fun a ha => (hk a ha).holds,
    returns_bind hx.returns fun a ha => (hk a ha).returns, fun f => ?_⟩
  refine ((hx.checks f).and_returns hx.returns).bind fun a ha => ?_
  exact ((hk a ha.1).checks f).mono fun b hb => hb ha.2

theorem inside (context : τ → τ') {x : Checker τ α} (hx : Obeys R G Q x) :
    Obeys R G Q (Check.within context x) :=
  ⟨h.within context hx.holds, returns_within hx.returns, fun f => (hx.checks f).within⟩

theorem looking {k : Scope → Checker τ α}
    (hsame : ∀ s s' : Scope, s.frame.sight = s'.frame.sight → k s = k s')
    (hk : ∀ s, Obeys R G (fun f a => s.frame = f → Q f a) (k s)) : Obeys R G Q (get >>= k) :=
  ⟨h.look hsame fun s => (hk s).holds, fun s => (hk s).returns s,
    fun f => Checks.get.bind fun s hs => ((hk s).checks f).mono fun _ ha => ha hs⟩

/-- A question that is not refused has been answered. -/
theorem asking {pos : Position} (hpos : P pos) (tree : τ) {question : Names → Eval α}
    (hsober : ∀ names, names.Sound → (question names).Sober) :
    Obeys R (fun _ => True) (fun f a => c.symbols.ask (question (c.names f)) = .ok a)
      (c.demand tree pos question) :=
  ⟨h.demand tree hpos hsober, returns_any _, fun _ => Context.checks_demand⟩

theorem isOpen (p : Part) :
    Obeys R (fun _ => True) (fun f b => b = c.isOpen f p.tree) (p.isOpen c : Checker τ Bool) := by
  refine h.looking (fun s s' hs => ?_) fun s => h.obeys_pure trivial fun f hs => by rw [hs]
  rw [c.isOpen_congr hs]

theorem intValue? (e : Expr) :
    Obeys R (fun _ => True) (fun f v => v = c.exact? f e) (c.intValue? e : Checker τ (Option Int)) :=
  ⟨h.next (h.value? e) fun _ => h.pure _, returns_any _, fun _ => checks_exact⟩

/-! ### Literals and names -/

variable {m : Mark} {e k l r : Expr} {t : Ty} {hint : Option Ty}

theorem accept {Q : Frame → Expr × Ty → Prop} (hpos : P e.pos) (hq : ∀ f, Q f (accepted e t)) :
    Obeys R (P ·.1.pos) Q (Check.accept e t) := by
  refine h.obeys_pure ?_ hq
  rwa [pos_withTy]

theorem pureIf {b : Prop} [Decidable b] {a : α} {tree : τ} {pos : Position} {err : TypeError} (hg : b → G a)
    (hpos : P pos) (herr : err.freed? = none) (hq : b → ∀ f, Q f a) :
    Obeys R G Q (if b then Pure.pure a else Check.reject tree pos err) := by
  split
  · next hb => exact h.obeys_pure (hg hb) (hq hb)
  · exact h.obeys_reject hpos herr tree

theorem acceptIf {b : Prop} [Decidable b] {tree : Expr} {pos : Position} {err : TypeError}
    {Q : Frame → Expr × Ty → Prop} (he : P e.pos) (hpos : P pos) (herr : err.freed? = none)
    (hq : b → ∀ f, Q f (accepted e t)) :
    Obeys R (P ·.1.pos) Q (if b then Check.accept e t else Check.reject tree pos err) :=
  h.pureIf (a := accepted e t) (fun _ => (pos_withTy t e).symm ▸ he) hpos herr hq

/-- The value of a part that takes its type from where it is stored is checked against the range. -/
theorem coerce (hk : Lawful c P R k) (dst : Ty) :
    Obeys R (fun _ => True) (Coerced c · dst · k) (Check.coerce c (Check.part c k) dst) := by
  unfold Check.coerce
  refine h.andThen (h.isOpen _) fun isOpen _ => h.andThen (hk (some dst)) fun ⟨e, t⟩ hpos => ?_
  dsimp only
  split
  · next ha =>
    split
    · refine h.andThen (h.intValue? _) fun v _ => ?_
      split
      · next lo hi n hrange =>
        split
        · exact h.reject_bind hpos rfl _ _
        · next hin =>
          refine h.obeys_pure trivial fun f hv he _ => ⟨⟨t, he, ha⟩, fun _ n' hn' lo' hi' hrange' => ?_⟩
          obtain rfl := Option.some.inj (hv.trans hn')
          obtain ⟨rfl, rfl⟩ := Prod.mk.inj (Option.some.inj (hrange.symm.trans hrange'))
          omega
      · next hnone =>
        refine h.obeys_pure trivial fun f hv he _ => ⟨⟨t, he, ha⟩, fun _ n hn lo hi hrange => ?_⟩
        exact absurd (hv.trans hn) (hnone lo hi n hrange)
    · next hclosed =>
      exact h.obeys_pure trivial fun f he hopen =>
        ⟨⟨t, he, ha⟩, fun h => absurd (hopen.trans h) hclosed⟩
  · exact h.reject_bind hpos rfl _ _

/-- Parts that are checked one after another end as each of them does. -/
theorem inOrder {g : β → Expr × Checker Expr Expr} {Q : Frame → Expr → β → Prop} {xs : List β}
    (hx : ∀ x ∈ xs, Obeys R (fun _ => True) (Q · · x) (g x).2) :
    Obeys R (fun _ => True) (fun f es => Forall₂ (Q f) es xs) (Check.inOrder (xs.map g)) := by
  induction xs with
  | nil => exact h.obeys_pure trivial fun _ => .nil
  | cons x xs ih =>
    obtain ⟨hx, hxs⟩ := forall_mem_cons.1 hx
    rw [map_cons, Check.inOrder]
    refine h.andThen (h.inside _ hx) fun e _ => h.andThen (h.inside _ (ih hxs)) fun es _ => ?_
    exact h.obeys_pure trivial fun f hes he => .cons he hes

/-- A literal takes the integer type that is hinted at if its magnitude is not too large for it. -/
theorem intRule (hm : P m.pos) (n : Word) (hint : Option Ty) :
    Obeys R (P ·.1.pos) (fun _ => FormsInt m n hint) (Check.intRule m n hint) := by
  unfold Check.intRule
  dsimp only
  split
  · next bits signed =>
    split
    · next hrange =>
      split
      · exact h.obeys_reject hm rfl _
      · next hn => exact h.accept hm fun _ => .hinted hrange hn
    · next hnone => cases signed <;> cases hnone
  · by_cases hn : n.toNat ≤ 255
    · rw [if_pos hn]
      exact h.accept hm fun _ => .code hn
    · rw [if_neg hn]
      exact h.accept hm fun _ => .plain (by simp)
  · next hint hno _ => exact h.accept hm fun _ => .plain fun bits signed h => hno bits signed h

theorem negRule {p : Part} {N : Frame → Option Ty → Expr × Ty → Prop} (hm : P m.pos)
    (hp : ∀ hint, Obeys R (P ·.1.pos) (N · hint) (p.check hint)) (hint : Option Ty) :
    Obeys R (P ·.1.pos) (fun f => FormsNeg m (N f) hint) (Check.negRule c m p hint) := by
  unfold Check.negRule
  refine h.andThen (h.isOpen p) fun isOpen _ => h.andThen (h.inside _ (hp _)) fun ⟨e, t⟩ _ => ?_
  exact h.acceptIf hm hm rfl fun ht f he _ => ⟨isOpen, e, t, he, ht, rfl⟩

/-- A constant is treated as the literal for its value. -/
theorem constRule (hm : P m.pos) (g : GlobalConst) (hint : Option Ty) :
    Obeys R (P ·.1.pos) (fun _ => FormsConst m hint g) (Check.constRule c m g hint) := by
  obtain ⟨ty, value⟩ := g
  cases value with
  | int n =>
    cases ty with
    | none =>
      by_cases hn : n < 0
      · simp only [Check.constRule, FormsConst, if_pos hn]
        exact h.negRule (p := intPart _ _) hm (fun hint => h.intRule (m := ⟨m.pos, none⟩) hm _ hint) hint
      · simp only [Check.constRule, FormsConst, if_neg hn]
        exact h.intRule hm _ hint
    | some t => exact h.accept hm fun _ => rfl
  | _ => exact h.accept hm fun _ => rfl

/-- The name of a constant is checked as the constant that the table has for it. -/
theorem globalRule (hm : P m.pos) (x : String) (hint : Option Ty) :
    Obeys R (P ·.1.pos) (fun _ r => c.symbols.kind x = some .const ∧
      ∃ g, c.symbols.ask (c.symbols.globalConst x) = .ok g ∧ FormsConst m hint g r)
      (Check.globalRule c m x hint) := by
  unfold Check.globalRule
  split
  · next hkind =>
    refine h.andThen (h.asking hm _ fun _ _ => sober_of_keeps (c.symbols.keeps_globalConst x)) fun g _ => ?_
    exact (h.constRule hm g hint).mono fun f r hr hg => ⟨hkind, g, hg, hr⟩
  · exact h.obeys_reject hm rfl _
  · exact h.obeys_reject hm rfl _

/-- Whether a local may be read is up to the property; the rest of the rule goes for all. -/
theorem identRule (hm : P m.pos) (x : String) (hint : Option Ty)
    (hname : R Expr (Expr × Ty) (Check.identRule c m x hint)) :
    Obeys R (P ·.1.pos) (Forms c · (.ident m x) hint) (Check.identRule c m x hint) := by
  have hglobal := h.globalRule hm x hint
  refine ⟨hname, fun s r s' hr => ?_, fun f s hs => ?_⟩
  · cases hslot : s.frame.get? x with
    | some slot =>
      rw [identRule_of_local hslot] at hr
      split at hr <;> cases hr
      exact hm
    | none =>
      rw [identRule_of_global hslot] at hr
      exact hglobal.returns s r s' hr
  · cases hslot : s.frame.get? x with
    | some slot =>
      unfold Ends
      rw [identRule_of_local hslot]
      by_cases hfreed : slot.offset ∈ s.freed
      · rw [if_pos hfreed]
        exact .refl s
      · rw [if_neg hfreed]
        exact ⟨.refl s, Or.inl ⟨slot, hs ▸ hslot, rfl⟩⟩
    | none =>
      have hends := (hglobal.checks f).mono (Q := Forms c f (.ident m x) hint)
        (fun r hr => Or.inr ⟨hs ▸ hslot, hr⟩) s hs
      unfold Ends at hends ⊢
      rwa [identRule_of_global hslot]

theorem sizeofRule (hm : P m.pos) (type : TypeExpr) (hint : Option Ty) :
    Obeys R (P ·.1.pos) (Forms c · (.sizeof m type) hint) (Check.sizeofRule c m type hint) := by
  unfold Check.sizeofRule
  refine h.andThen (h.asking hm _ fun names hnames => ?_) fun size _ =>
    h.accept hm fun f hsize => ⟨size, hsize, rfl⟩
  have hsize : ∀ s, (names.resolve type >>= names.sizeOf).Keeps names.kind s fun _ _ => True := fun s =>
    (Names.keeps_resolve hnames type s).bind fun t s' _ _ =>
      (Names.keeps_sizeOf hnames t s').mono fun _ _ _ => trivial
  exact sober_of_keeps hsize

/-! ### Operators -/

theorem boolPart (hk : Lawful c P R k) :
    Obeys R (fun _ => True) (fun f e => Result c f k (some .bool) (e, .bool))
      (Check.boolPart (Check.part c k)) := by
  unfold Check.boolPart
  refine h.andThen (hk _) fun ⟨e, t⟩ hpos => ?_
  exact h.pureIf (fun _ => trivial) hpos rfl fun ht f he => ht ▸ he

/-- The second operand is checked in the light of the first one, which is the one with a type of its own. -/
theorem operandsRule (hl : Lawful c P R l) (hr : Lawful c P R r) (m : Mark) (op : BinOp)
    (hint : Option Ty) :
    Obeys R (fun x => P x.2.1.pos) (fun f x => Operands c f l r hint x.1 x.2)
      (Check.operandsRule c m op (Check.part c l) (Check.part c r) hint) := by
  unfold Check.operandsRule
  refine h.andThen (h.isOpen _) fun _ _ => h.andThen (h.isOpen _) fun _ _ => ?_
  split
  · refine h.andThen (h.inside _ (hr hint)) fun r' hpos => h.andThen (h.inside _ (hl _)) fun l' _ => ?_
    exact h.obeys_pure hpos fun f hl' hr' _ _ => Or.inr ⟨hr', hl'⟩
  · refine h.andThen (h.inside _ (hl hint)) fun l' _ => h.andThen (h.inside _ (hr _)) fun r' hpos => ?_
    exact h.obeys_pure hpos fun f hr' hl' _ _ => Or.inl ⟨hl', hr'⟩

theorem clash {G : Expr × Ty → Prop} {Q : Frame → Expr × Ty → Prop} (e l : Expr) (hr : P r.pos) (lt rt : Ty) :
    Obeys R G Q (Check.clash e l r lt rt) := by
  have hlearns : ∀ s : Scope, s.Learns ((s.learn l rt).learn r lt) := fun s =>
    (s.learns_learn l rt).trans ((s.learn l rt).learns_learn r lt)
  refine h.andThen ⟨h.note hlearns, returns_any _, fun _ => .modify fun s => (hlearns s).toQuiet⟩ fun _ _ => ?_
  exact h.obeys_reject hr rfl _

/-- The three kinds of operators differ in what they ask of the types of both operands. -/
theorem binaryRule (hm : P m.pos) (hl : Lawful c P R l) (hr : Lawful c P R r) (op : BinOp)
    (hint : Option Ty) :
    Obeys R (P ·.1.pos) (FormsBinary c · m op l r hint)
      (Check.binaryRule c m op (Check.part c l) (Check.part c r) hint) := by
  -- Each kind of operator has a rule of its own.
  have hlogic : op = .and ∨ op = .or → Obeys R (P ·.1.pos) (FormsBinary c · m op l r hint)
      (logicRule m op (Check.part c l) (Check.part c r)) := by
    intro hop
    unfold logicRule
    refine h.andThen (h.inside _ (h.boolPart hl)) fun l' _ => ?_
    refine h.andThen (h.inside _ (h.boolPart hr)) fun r' _ => ?_
    exact h.accept hm fun f hr' hl' => .logic hop hl' hr'
  have harith : op.isArith = true → Obeys R (P ·.1.pos) (FormsBinary c · m op l r hint)
      (arithRule c m op (Check.part c l) (Check.part c r) hint) := by
    intro hop
    unfold arithRule
    refine h.andThen (h.operandsRule hl hr m op _) ?_
    rintro ⟨⟨l', lt⟩, ⟨r', rt⟩⟩ hpos
    dsimp only
    split
    · exact h.obeys_reject hm rfl _
    · next ho =>
      split
      · exact h.clash _ _ hpos _ _
      · next ht =>
        obtain rfl : lt = rt := Classical.not_not.1 ht
        exact h.accept hm fun f hoperands => .arith hop hoperands (by simpa using ho)
  have hcompare : op.isCompare = true → Obeys R (P ·.1.pos) (FormsBinary c · m op l r hint)
      (compareRule c m op (Check.part c l) (Check.part c r)) := by
    intro hop
    unfold compareRule
    refine h.andThen (h.operandsRule hl hr m op _) ?_
    rintro ⟨⟨l', lt⟩, ⟨r', rt⟩⟩ hpos
    dsimp only
    split
    · exact h.obeys_reject hm rfl _
    · next ho =>
      split
      · exact h.clash _ _ hpos _ _
      · next ha =>
        simp only [Bool.not_eq_true', Bool.not_eq_false, Bool.or_eq_true, Bool.and_eq_true,
          decide_eq_true_eq] at ho ha
        exact h.accept hm fun f hoperands => .compare hop hoperands ho ha
  cases op with
  | and | or => exact hlogic (by simp)
  | add | sub | mul | div | rem => exact harith rfl
  | eq | ne | lt | le | gt | ge => exact hcompare rfl

/-! ### Pointers and aggregates -/

/-- A field is read if the layout of the struct has it. -/
theorem readField (hm : P m.pos) (base : Expr) (s x : String) :
    Obeys R (P ·.1.pos) (fun _ r => ∃ layout fld, c.symbols.ask (c.symbols.layout s) = .ok layout ∧
      layout.field? x = some fld ∧ r = accepted (.member m base x) fld.ty) (do
      let layout ← c.demand (.member m base x) m.pos fun _ => c.symbols.layout s
      match layout.field? x with
      | some fld => Check.accept (.member m base x) fld.ty
      | none => Check.reject (.member m base x) m.pos (.noSuchField s x)) := by
  refine h.andThen (h.asking hm _ fun _ _ => sober_of_keeps (c.symbols.keeps_layout _)) fun layout _ => ?_
  split
  · next fld hfld => exact h.accept hm fun f hlayout => ⟨layout, fld, hlayout, hfld, rfl⟩
  · exact h.obeys_reject hm rfl _

/-- A variant is looked up in its enum, and everything else is a field. -/
theorem memberRule (hm : P m.pos) (hk : Lawful c P R k) (x : String) :
    Obeys R (P ·.1.pos) (Forms c · (.member m k x) hint)
      (Check.memberRule c m (Check.part c k) x) := by
  unfold Check.memberRule
  refine h.looking (fun s s' hs => by rw [enumName?_congr c hs]) fun s0 => ?_
  split
  · split
    · exact h.accept hm fun _ _ => Or.inl ⟨_, _, rfl⟩
    · exact h.obeys_reject hm rfl _
  · unfold fieldRule
    refine h.andThen (h.inside _ (hk none)) fun ⟨e, t⟩ _ => ?_
    -- What is read from is the part itself or, if that is a pointer to a struct, its target.
    cases t with
    | struct s =>
      refine (h.readField hm e s x).mono fun f r hr he _ => ?_
      obtain ⟨layout, fld, hlayout, hfld, rfl⟩ := hr
      exact Or.inr ⟨e, _, e, s, layout, fld, he, Or.inl ⟨rfl, rfl⟩, hlayout, hfld, rfl⟩
    | ptr target =>
      cases target with
      | struct s =>
        refine (h.readField hm _ s x).mono fun f r hr he _ => ?_
        obtain ⟨layout, fld, hlayout, hfld, rfl⟩ := hr
        exact Or.inr ⟨e, _, _, s, layout, fld, he, Or.inr ⟨rfl, rfl⟩, hlayout, hfld, rfl⟩
      | _ => exact h.obeys_reject hm rfl _
    | _ => exact h.obeys_reject hm rfl _

/-- An index that can be evaluated is checked against the length of the array. -/
theorem indexRule {i : Expr} (hm : P m.pos) (hk : Lawful c P R k) (hi : Lawful c P R i) :
    Obeys R (P ·.1.pos) (Forms c · (.index m k i) hint)
      (Check.indexRule c m (Check.part c k) (Check.part c i)) := by
  unfold Check.indexRule
  refine h.andThen (h.inside _ (hk none)) fun ⟨b, t⟩ _ => h.andThen (h.inside _ (hi _)) fun ⟨i', it⟩ hpos => ?_
  dsimp only
  split
  · next hit =>
    have haccept : ∀ u, t.elem? = some u → Obeys R (P ·.1.pos)
        (fun f r => Result c f i (some .uint) (i', it) → Result c f k none (b, t) →
          Forms c f (.index m k i) hint r) (Check.accept (.index m b i') u) :=
      fun u hu => h.accept hm fun f hi hb => ⟨b, t, i', it, u, hb, hi, hit, hu, rfl⟩
    split
    · refine h.andThen (h.intValue? _) fun v _ => ?_
      split
      · split
        · exact h.obeys_reject hpos rfl _
        · exact (haccept _ rfl).mono fun f r hr _ => hr
      · exact (haccept _ rfl).mono fun f r hr _ => hr
    · exact h.obeys_reject hm rfl _
    · next elem hv _ =>
      refine haccept elem ?_
      cases elem with
      | void => exact absurd rfl hv
      | _ => rfl
    · exact haccept _ rfl
    · exact h.obeys_reject hm rfl _
  · exact h.reject_bind hpos rfl _ _

omit h in
/-- No fault with the fields of a literal is about a free. -/
theorem freed?_of_fieldFault? {struct : String} {layout : Layout} {seen given : List String}
    {e : TypeError} (h : fieldFault? struct layout seen given = some e) : e.freed? = none := by
  induction given generalizing seen with
  | nil => cases h
  | cons x rest ih =>
    unfold fieldFault? at h
    split at h
    · cases h
      rfl
    · split at h
      · cases h
        rfl
      · exact ih h

/-- Fields are taken in the order of the layout, each with the part that is given for it. -/
theorem fillFields {given : List (String × Expr)} {pos : Position} (hpos : P pos)
    (hgiven : ∀ k ∈ given.map (·.2), Lawful c P R k) (fs : List Field) :
    Obeys R (fun _ => True) (fun f es => Forall₂ (fun (g : String × Expr) (fld : Field) => g.1 = fld.name ∧
        ∃ k ∈ given.map (·.2), Coerced c f fld.ty g.2 k) es fs)
      (Check.fillFields c pos (fieldParts c given) fs) := by
  induction fs with
  | nil => exact h.obeys_pure trivial fun _ => .nil
  | cons fld fs ih =>
    unfold Check.fillFields
    split
    · exact h.obeys_reject hpos rfl _
    · next p hp =>
      obtain ⟨l1, l2, hsplit, -⟩ := lookup_eq_some_iff.1 hp
      rw [fieldParts_eq] at hsplit
      obtain ⟨⟨x, k⟩, hmem, heq⟩ := mem_map.1 (hsplit ▸ mem_append_right l1 mem_cons_self)
      cases heq
      have hk := mem_map_of_mem (f := (·.2)) hmem
      refine h.andThen (h.inside _ (h.coerce (hgiven k hk) _)) fun e _ => h.andThen (h.inside _ ih) fun es _ => ?_
      exact h.obeys_pure trivial fun f hes he => .cons ⟨rfl, k, hk, he⟩ hes

/-- The fields of a literal are those of the struct that is asked for. -/
theorem structRule {fields : List (String × Expr)} (hm : P m.pos)
    (hfields : ∀ k ∈ fields.map (·.2), Lawful c P R k) (hint : Option Ty) :
    Obeys R (P ·.1.pos) (Forms c · (.structLit m fields) hint)
      (Check.structRule c m (fieldParts c fields) hint) := by
  unfold Check.structRule
  dsimp only
  split
  · next s =>
    refine h.andThen (h.asking hm _ fun _ _ => sober_of_keeps (c.symbols.keeps_layout _)) fun layout _ => ?_
    split
    · next he => exact h.obeys_reject hm (freed?_of_fieldFault? he) _
    · refine h.andThen (h.inside _ (h.fillFields hm hfields _)) fun es _ => ?_
      exact h.accept hm fun f hes hlayout => ⟨s, layout, es, rfl, hlayout, hes, rfl⟩
  · exact h.obeys_reject hm rfl _

/-- A literal fills the array that is hinted at, or takes its type from its first element. -/
theorem arrayRule {ks : List Expr} (hm : P m.pos) (hks : ∀ k ∈ ks, Lawful c P R k) (hint : Option Ty) :
    Obeys R (P ·.1.pos) (Forms c · (.arrayLit m ks) hint) (Check.arrayRule c m (parts c ks) hint) := by
  have hall : ∀ (ks : List Expr) (elem : Ty), (∀ k ∈ ks, Lawful c P R k) →
      Obeys R (fun _ => True) (fun f es => Forall₂ (Coerced c f elem) es ks)
        (Check.inOrder ((parts c ks).map fun p => (p.tree, Check.coerce c p elem))) := by
    intro ks elem hks
    rw [parts_eq, map_map]
    exact h.inOrder fun k hk => h.coerce (hks k hk) elem
  unfold Check.arrayRule
  dsimp only
  split
  · next length elem =>
    split
    · exact h.accept hm fun _ => Or.inl ⟨length, elem, rfl, Or.inl rfl⟩
    · split
      · exact h.obeys_reject hm rfl _
      · next hlen =>
        rw [parts_eq, length_map, ne_eq, Classical.not_not] at hlen
        refine h.andThen (h.inside _ (hall _ _ hks)) fun es _ => ?_
        exact h.accept hm fun f hes => Or.inl ⟨length, elem, rfl, Or.inr ⟨hlen, es, hes, rfl⟩⟩
  · cases ks with
    | nil => exact h.obeys_reject hm rfl _
    | cons k ks =>
      obtain ⟨hk, hks⟩ := forall_mem_cons.1 hks
      refine h.andThen (h.inside _ (hk none)) fun ⟨e, elem⟩ _ => ?_
      refine h.andThen (h.inside _ (hall _ _ hks)) fun es _ => ?_
      rw [parts_eq, length_map]
      exact h.accept hm fun f hes he => Or.inr ⟨k, ks, e, elem, es, rfl, he, hes, rfl⟩

/-! ### Calls -/

/-- Arguments that are checked with what is known of each of them. -/
theorem arguments {γ : Type} {args : List Expr} (known : List γ) (check : Part → γ → Checker Expr Expr)
    {Q : Frame → Expr → Expr → γ → Prop}
    (hargs : ∀ k ∈ args, ∀ a, Obeys R (fun _ => True) (Q · · k a) (check (Check.part c k) a)) :
    Obeys R (fun _ => True) (fun f es => Forall₂ (fun e a => Q f e a.1 a.2) es (args.zip known))
      (Check.inOrder (((parts c args).zip known).map fun a => (a.1.tree, check a.1 a.2))) := by
  rw [parts_eq, zip_map_left, map_map]
  exact h.inOrder fun a ha => hargs a.1 (of_mem_zip ha).1 a.2

/-- The arguments are checked one by one against the types of the parameters. -/
theorem callRule {args : List Expr} (hm : P m.pos) (callee : Expr)
    (hargs : ∀ k ∈ args, Lawful c P R k) :
    Obeys R (P ·.1.pos) (Forms c · (.call m callee args) hint)
      (Check.callRule c m callee (parts c args)) := by
  unfold Check.callRule
  dsimp only
  split
  · next m' x =>
    refine h.looking (fun s s' hs => by rw [isLocal_congr hs]) fun s => ?_
    split
    · exact h.reject_bind hm rfl _ _
    · next hlocal =>
      split
      · next sig hsig =>
        split
        · exact h.reject_bind hm rfl _ _
        · next hlen =>
          rw [parts_eq, length_map, ne_eq, Classical.not_not] at hlen
          have hes := h.arguments sig.params (fun p (a : String × Ty) => Check.coerce c p a.2) fun k hk a =>
            h.coerce (hargs k hk) a.2
          refine h.andThen (h.inside _ hes) fun es _ => h.accept hm fun f hes hs => ?_
          exact ⟨m', x, sig, es, rfl, hs ▸ hlocal, hsig, hlen.symm, hes, rfl⟩
      · split
        · exact h.obeys_reject hm rfl _
        · exact h.obeys_reject hm rfl _
  · exact h.obeys_reject hm rfl _

omit h in
theorem freed?_complaint (b : Builtin) (t : Ty) (role : Role) : (role.complaint b t).freed? = none := by
  cases role <;> rfl

/-- Each argument is checked in the role that it has for the builtin. -/
theorem builtinRule {args : List Expr} (hm : P m.pos) (b : Builtin)
    (hargs : ∀ k ∈ args, Lawful c P R k) :
    Obeys R (P ·.1.pos) (Forms c · (.builtin m b args) hint)
      (Check.builtinRule m b (parts c args)) := by
  unfold Check.builtinRule
  dsimp only
  split
  · exact h.obeys_reject hm rfl _
  · next rs hrs =>
    rw [parts_eq, length_map] at hrs
    have hes : ∀ k ∈ args, ∀ role : Role, Obeys R (fun _ => True)
        (fun f e => ∃ t, Result c f k role.hint (e, t) ∧ role.accepts t = true)
        (argument b (Check.part c k) role) := by
      intro k hk role
      unfold argument
      refine h.andThen (hargs k hk _) fun ⟨e, t⟩ hpos => ?_
      exact h.pureIf (fun _ => trivial) hpos (freed?_complaint b t role) fun hrole f he => ⟨t, he, hrole⟩
    refine h.andThen (h.inside _ (h.arguments rs (argument b) hes)) fun es _ => ?_
    exact h.accept hm fun f hes => ⟨rs, es, hrs, hes, rfl⟩

/-! ### All forms -/

/-- A property that holds of every name inside an expression holds of the expression, and what becomes of
the expression goes by its form. -/
theorem forms (he : e.At P)
    (hnames : ∀ m x, ident m x ∈ e.nodes → ∀ hint, R Expr (Expr × Ty) (Check.identRule c m x hint))
    (hint : Option Ty) : Obeys R (P ·.1.pos) (Forms c · e hint) (Check.expr c e hint) := by
  induction e using by_children generalizing hint with
  | h e ih =>
    obtain ⟨hm, hchildren⟩ := all_iff.1 he
    -- What is named in an operand is named in the whole.
    replace ih : ∀ k ∈ e.children, Lawful c P R k := by
      intro k hk hint
      refine (ih k hk (hchildren k hk) (fun m x hx => hnames m x ?_) hint).result
      rw [nodes_eq]
      exact mem_cons_of_mem _ (mem_flatMap.2 ⟨k, hk, hx⟩)
    cases e with
    | intLit m n => exact h.intRule hm n hint
    | boolLit | charLit | enumLit => exact h.accept hm fun _ => rfl
    | strLit m s =>
      change Obeys _ _ _ (strRule m s hint)
      unfold strRule
      split
      · split
        · exact h.obeys_reject hm rfl _
        · next hlen => exact h.accept hm fun _ => Or.inr ⟨_, rfl, Nat.le_of_not_lt hlen, rfl⟩
      · exact h.accept hm fun _ => Or.inl rfl
    | nil m =>
      change Obeys _ _ _ (nilRule m hint)
      unfold nilRule
      split
      · exact h.accept hm fun _ => ⟨_, Or.inl rfl, rfl⟩
      · exact h.accept hm fun _ => ⟨_, Or.inr rfl, rfl⟩
    | ident m x => exact h.identRule hm x hint (hnames m x mem_cons_self hint)
    | binary m op l r => exact h.binaryRule hm (ih l left_mem_children) (ih r right_mem_children) op hint
    | unary m op k =>
      have hk := ih k mem_cons_self
      cases op with
      | neg => exact h.negRule hm (p := Check.part c k) hk hint
      | not =>
        change Obeys _ _ _ (notRule m (Check.part c k))
        unfold notRule
        refine h.andThen (h.inside _ (hk _)) fun ⟨e, t⟩ _ => ?_
        exact h.acceptIf hm hm rfl fun ht f he => ⟨e, ht ▸ he, rfl⟩
    | addrOf m k =>
      change Obeys _ _ _ (addrOfRule m (Check.part c k) hint)
      unfold addrOfRule
      refine h.andThen (h.inside _ (ih k mem_cons_self _)) fun ⟨e, t⟩ _ => ?_
      refine h.acceptIf hm hm rfl fun hplace f he => ⟨e, t, _, fun u hu => ?_, he, hplace, rfl⟩
      split at hu <;> cases hu
      rfl
    | deref m k =>
      change Obeys _ _ _ (derefRule m (Check.part c k) hint)
      unfold derefRule
      refine h.andThen (h.inside _ (ih k mem_cons_self _)) fun ⟨e, t⟩ _ => ?_
      dsimp only
      split
      · exact h.obeys_reject hm rfl _
      · next target hv _ => exact h.accept hm fun f he => ⟨e, target, he, fun h => hv (by rw [h]), rfl⟩
      · exact h.obeys_reject hm rfl _
    | call m callee args => exact h.callRule hm callee ih
    | member m k x => exact h.memberRule hm (ih k mem_cons_self) x
    | index m k i => exact h.indexRule hm (ih k mem_cons_self) (ih i (by simp [children]))
    | structLit m fields => exact h.structRule hm ih hint
    | arrayLit m ks => exact h.arrayRule hm ih hint
    | cast m type k =>
      change Obeys _ _ _ (castRule c m type (Check.part c k))
      unfold castRule
      refine h.andThen (h.asking hm _ fun _ hnames => sober_of_keeps (Names.keeps_resolve hnames type))
        fun target _ => h.andThen (h.inside _ (ih k mem_cons_self _)) fun ⟨e, t⟩ _ => ?_
      exact h.acceptIf hm hm rfl fun hcast f he htarget => ⟨target, e, t, htarget, he, hcast, rfl⟩
    | sizeof m type => exact h.sizeofRule hm type hint
    | builtin m b args => exact h.builtinRule hm b ih
    | zeroed m =>
      cases hint with
      | none => exact h.obeys_reject hm rfl _
      | some t => exact h.accept hm fun _ => ⟨t, rfl, rfl⟩

theorem lawful (he : e.At P)
    (hnames : ∀ m x, ident m x ∈ e.nodes → ∀ hint, R Expr (Expr × Ty) (Check.identRule c m x hint)) :
    Lawful c P R e :=
  fun hint => (h.forms he hnames hint).result

end ExprLaws

/-! ## Outcomes -/

section

variable (c : Context) (f : Frame) (e : Expr)

/-- Nothing at all is a property of every step. -/
theorem exprLaws_any : ExprLaws c (fun _ => True) fun _ _ _ => True where
  pure _ := trivial
  reject _ _ _ _ _ := trivial
  bind _ _ _ := trivial
  within _ _ _ := trivial
  look _ _ := trivial
  demand _ _ _ _ _ := trivial
  value? _ := trivial
  note _ := trivial
  pass _ _ := trivial

theorem lawful_any : Lawful c (fun _ => True) (fun _ _ _ => True) e :=
  (exprLaws_any c).lawful (fun _ _ => trivial) fun _ _ _ _ => trivial

/-- The check of an expression leaves the scope alone. -/
theorem checks_expr (hint : Option Ty) : Checks f (Result c f e hint) (expr c e hint) :=
  (lawful_any c e hint).checks f

theorem checks_coerce (t : Ty) : Checks f (Coerced c f t · e) (coerce c (part c e) t) :=
  ((exprLaws_any c).coerce (lawful_any c e) t).checks f

end

variable {c : Context} {f : Frame} {e : Expr} {hint : Option Ty} {r : Expr × Ty}

theorem Result.forms (h : Result c f e hint r) : Forms c f e hint r := by
  obtain ⟨s, s', rfl, hr⟩ := h
  have hforms := (exprLaws_any c).forms (e := e) (fun _ _ => trivial) (fun _ _ _ _ => trivial) hint
  exact ((hforms.checks s.frame s rfl).of_ok hr).2

end Check

end Sigil
