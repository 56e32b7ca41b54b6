import Sigil.Proofs.Laws.Steps
import Sigil.Proofs.Typing.Expressions

/-!
# Checked statements are well typed

Of what matters for types, a statement changes two things: it may declare a local in the innermost
scope, and it may report errors (`Check.Scope.Advances`). If nothing has been reported in the end, every
statement on the way satisfies the typing rules under the locals that it was checked with
(`Check.goes_stmt`, `Check.surveys_stmts`).
-/

namespace Sigil

open Attempt Typing

/-! ## Frames and the types of locals -/

/-- A slot as it was declared, before its value was recorded. -/
def Slot.blank (slot : Slot) : Slot :=
  { slot with value := none }

namespace Frame

theorem env_bind {f : Frame} (h : f.scopes ≠ []) (x : String) (t : Ty) (offset : Int)
    (mutable : Bool) : (f.bind x t offset mutable).env = f.env.bind x (some t) := by
  funext y
  by_cases hy : x = y
  · subst hy
    simp [env, Env.bind, get?_bind_self h]
  · simp [env, Env.bind, get?_bind_of_ne hy, Ne.symm hy]

theorem scopes_bind (f : Frame) (x : String) (t : Ty) (offset : Int) (mutable : Bool) :
    (f.bind x t offset mutable).scopes.tail = f.scopes.tail ∧
      (f.scopes ≠ [] → (f.bind x t offset mutable).scopes ≠ []) := by
  cases hs : f.scopes <;> simp [bind, hs]

/-- Recording a value changes nothing else about the locals. -/
theorem blank_setValue (f : Frame) (x y : String) (v : Constant) :
    ((f.setValue x v).get? y).map Slot.blank = (f.get? y).map Slot.blank := by
  unfold setValue get?
  dsimp only
  induction f.scopes with
  | nil => rfl
  | cons scope rest ih =>
    unfold record
    split
    · next slot hslot =>
      by_cases hy : x = y
      · subst hy
        simp [find?, hslot, Slot.blank]
      · simp [find?, Assoc.get?_put_of_ne hy]
    · simp only [find?]
      split
      · rfl
      · exact ih

theorem env_setValue (f : Frame) (x : String) (v : Constant) : (f.setValue x v).env = f.env := by
  funext y
  have h := congrArg (Option.map Slot.ty) (f.blank_setValue x y v)
  rw [Option.map_map, Option.map_map] at h
  exact h

/-- The value of a name that has just been bound is recorded in the innermost scope. -/
theorem scopes_setValue_bind (f : Frame) (x : String) (t : Ty) (offset : Int) (mutable : Bool)
    (v : Constant) :
    ((f.bind x t offset mutable).setValue x v).scopes.tail = f.scopes.tail ∧
      (f.scopes ≠ [] → ((f.bind x t offset mutable).setValue x v).scopes ≠ []) := by
  cases hs : f.scopes <;> simp [bind, setValue, record, hs]

end Frame

theorem Typing.Env.Defined.bind {kind : String → Option SymbolKind} {Γ : Env} (h : Γ.Defined kind)
    {t : Ty} (ht : t.Defined kind) (x : String) : (Γ.bind x (some t)).Defined kind := by
  intro y u hu
  unfold Env.bind at hu
  split at hu
  · exact Option.some.inj hu ▸ ht
  · exact h y u hu

namespace Check

variable {kind : String → Option SymbolKind} {s s' s'' : Scope} {τ τ' α β : Type}
variable {st : Stmt} {x : String} {mutable : Bool}

/-- There is a scope for declarations, and the types of all locals exist. -/
structure Scope.Fit (kind : String → Option SymbolKind) (s : Scope) : Prop where
  opened : s.frame.scopes ≠ []
  defined : s.frame.env.Defined kind

/-- What a statement may do: declare locals in the innermost scope and report errors. -/
structure Scope.Advances (kind : String → Option SymbolKind) (s s' : Scope) : Prop where
  fit : s'.Fit kind
  outer : s'.frame.scopes.tail = s.frame.scopes.tail
  loops : s'.loops = s.loops
  errors : s.errors <+: s'.errors

theorem Scope.Fit.advances (h : s.Fit kind) : s.Advances kind s :=
  ⟨h, rfl, rfl, List.prefix_refl _⟩

theorem Scope.Fit.enter (h : s.Fit kind) :
    Scope.Fit kind { s with frame := s.frame.enter } :=
  ⟨List.cons_ne_nil _ _, h.defined⟩

theorem Scope.Advances.trans (h : s.Advances kind s') (h' : s'.Advances kind s'') :
    s.Advances kind s'' :=
  ⟨h'.fit, h'.outer.trans h.outer, h'.loops.trans h.loops, h.errors.trans h'.errors⟩

/-- Without errors in the end there are none at the start. -/
theorem Scope.Advances.errors_eq_nil (h : s.Advances kind s') (h' : s'.errors = []) :
    s.errors = [] :=
  List.prefix_nil.1 (h' ▸ h.errors)

theorem Scope.Quiet.advances (h : s.Quiet s') (hs : s.Fit kind) : s.Advances kind s' :=
  ⟨⟨h.frame ▸ hs.opened, h.frame ▸ hs.defined⟩, by rw [h.frame], h.loops,
    h.errors ▸ List.prefix_refl _⟩

/-! ## Checks and surveys that advance -/

/-- From `s` a check advances, and if nothing has been reported in the end, its value and the types of
the locals satisfy `Q`. -/
def Goes (kind : String → Option SymbolKind) (s : Scope) (Q : α → Env → Prop) (x : Checker τ α) :
    Prop :=
  x.Ends s (fun a s' => s.Advances kind s' ∧ (s'.errors = [] → Q a s'.frame.env))
    (fun _ s' => s.Advances kind s')

/-- From `s` a survey advances, and if nothing has been reported in the end, its value and the types of
the locals satisfy `Q`. -/
def Surveys (kind : String → Option SymbolKind) (s : Scope) (Q : α → Env → Prop) (x : Survey α) :
    Prop :=
  s.Advances kind (x s).2 ∧ ((x s).2.errors = [] → Q (x s).1 (x s).2.frame.env)

namespace Goes

variable {P Q : α → Env → Prop} {R : β → Env → Prop}
variable {x : Checker τ α} {k : α → Checker τ β}

theorem pure (hs : s.Fit kind) {a : α} (h : Q a s.frame.env) :
    Goes kind s Q (pure a : Checker τ α) :=
  ends_pure ⟨hs.advances, fun _ => h⟩

theorem reject (hs : s.Fit kind) {tree : τ} {pos : Position} {e : TypeError} :
    Goes kind s Q (reject tree pos e : Checker τ α) :=
  ends_throw hs.advances

theorem modify {g : Scope → Scope} {Q : PUnit → Env → Prop} (hg : s.Advances kind (g s))
    (h : Q () (g s).frame.env) : Goes kind s Q (modify g : Checker τ PUnit) :=
  ends_modify ⟨hg, fun _ => h⟩

theorem mono (h : Goes kind s P x) (hPQ : ∀ a Γ, P a Γ → Q a Γ) :
    Goes kind s Q x :=
  Attempt.Ends.mono h (fun a _ ha => ⟨ha.1, fun he => hPQ a _ (ha.2 he)⟩) fun _ _ he => he

theorem bind (hx : Goes kind s P x)
    (hk : ∀ a s', s.Advances kind s' → Goes kind s' (fun b Γ => P a s'.frame.env → R b Γ) (k a)) :
    Goes kind s R (x >>= k) := by
  refine ends_bind (Attempt.Ends.mono hx ?_ fun _ _ he => he)
  rintro a s' ⟨hadv, ha⟩
  refine Attempt.Ends.mono (hk a s' hadv) ?_ fun _ _ he => hadv.trans he
  rintro b s'' ⟨hadv', hb⟩
  exact ⟨hadv.trans hadv', fun he => hb he (ha (hadv'.errors_eq_nil he))⟩

/-- After a check that leaves the scope alone. -/
theorem bind_checks {P : α → Prop} (hs : s.Fit kind)
    (hx : Checks s.frame P x) (hk : ∀ a s', s.Quiet s' → s'.Fit kind → P a → Goes kind s' R (k a)) :
    Goes kind s R (x >>= k) := by
  refine ends_bind ((hx s rfl).mono ?_ fun _ _ he => he.advances hs)
  rintro a s' ⟨hq, ha⟩
  have hadv := hq.advances hs
  refine Attempt.Ends.mono (hk a s' hq hadv.fit ha) ?_ fun _ _ he => hadv.trans he
  exact fun b s'' hb => ⟨hadv.trans hb.1, hb.2⟩

/-- After a step that is known to succeed. -/
theorem bind_of_ok {a : α} (hx : x s = (.ok a, s'))
    (hadv : s.Advances kind s') (hk : Goes kind s' R (k a)) : Goes kind s R (x >>= k) := by
  unfold Goes Ends at hk ⊢
  rw [Attempt.bind_of_ok hx]
  rcases hy : k a s' with ⟨r, s''⟩
  rw [hy] at hk
  cases r with
  | ok b => exact ⟨hadv.trans hk.1, hk.2⟩
  | error e => exact hadv.trans hk

theorem within {context : τ → τ'} {x : Checker τ α} (h : Goes kind s Q x) :
    Goes kind s Q (within context x) :=
  ends_mapFailure h

theorem map {g : α → β} (h : Goes kind s (fun a => R (g a)) x) :
    Goes kind s R (g <$> x) :=
  ends_map h

theorem surveyed {x : Survey α} (h : Surveys kind s Q x) :
    Goes kind s Q (surveyed x : Checker τ α) :=
  h

/-- What runs in a scope of its own leaves no locals behind. -/
theorem inScope {x : Checker τ α} {P : α → Prop} (hs : s.Fit kind)
    (h : Goes kind { s with frame := s.frame.enter } (fun a _ => P a) x) :
    Goes kind s (fun a Γ => P a ∧ Γ = s.frame.env) (inScope x) := by
  have hleave : ∀ s', Scope.Advances kind { s with frame := s.frame.enter } s' →
      s.Advances kind { s' with frame := s'.frame.leave } ∧ s'.frame.leave.env = s.frame.env := by
    intro s' hadv
    have hscopes : s'.frame.leave.scopes = s.frame.scopes := hadv.outer
    have henv : s'.frame.leave.env = s.frame.env := by
      unfold Frame.env Frame.get?
      rw [hscopes]
    exact ⟨⟨⟨hscopes ▸ hs.opened, henv ▸ hs.defined⟩, by rw [hscopes], hadv.loops, hadv.errors⟩, henv⟩
  unfold Goes Ends at h ⊢
  unfold Check.inScope
  rcases hx : x { s with frame := s.frame.enter } with ⟨r, s'⟩
  rw [hx] at h
  cases r with
  | ok a => exact ⟨(hleave s' h.1).1, fun he => ⟨h.2 he, (hleave s' h.1).2⟩⟩
  | error e => exact (hleave s' h).1

end Goes

namespace Surveys

variable {P Q : α → Env → Prop} {R : β → Env → Prop}
variable {x : Survey α}

theorem pure (hs : s.Fit kind) {a : α} (h : Q a s.frame.env) :
    Surveys kind s Q (pure a : Survey α) :=
  ⟨hs.advances, fun _ => h⟩

theorem bind {k : α → Survey β} (hx : Surveys kind s P x)
    (hk : ∀ a s', s.Advances kind s' →
      Surveys kind s' (fun b Γ => P a s'.frame.env → R b Γ) (k a)) :
    Surveys kind s R (x >>= k) := by
  obtain ⟨hadv, ha⟩ := hx
  obtain ⟨hadv', hb⟩ := hk _ _ hadv
  exact ⟨hadv.trans hadv', fun he => hb he (ha (hadv'.errors_eq_nil he))⟩

theorem map {g : α → β} (h : Surveys kind s (fun a => R (g a)) x) :
    Surveys kind s R (g <$> x) :=
  h

theorem mono (h : Surveys kind s P x) (hPQ : ∀ a Γ, P a Γ → Q a Γ) :
    Surveys kind s Q x :=
  ⟨h.1, fun he => hPQ _ _ (h.2 he)⟩

/-- A failure is reported, so nothing is promised after one. -/
theorem settle {x : Checker τ τ} {Q : τ → Env → Prop} (h : Goes kind s Q x) :
    Surveys kind s Q (settle x) := by
  unfold Goes Ends at h
  unfold Surveys Check.settle
  rcases hx : x s with ⟨r, s'⟩
  rw [hx] at h
  cases r with
  | ok a => exact h
  | error e =>
    exact ⟨⟨⟨h.fit.opened, h.fit.defined⟩, h.outer, h.loops,
      h.errors.trans (List.prefix_append _ _)⟩, fun he => absurd he (by simp)⟩

/-- What runs in a scope of its own leaves no locals behind. -/
theorem enclosed {x : Survey α} {P : α → Prop} (hs : s.Fit kind)
    (h : Surveys kind { s with frame := s.frame.enter } (fun a _ => P a) x) :
    Surveys kind s (fun a Γ => P a ∧ Γ = s.frame.env) (enclosed x) :=
  Goes.inScope (τ := Unit) hs (Goes.surveyed h)

theorem branch {x : Survey α} (h : Surveys kind s Q x) : Surveys kind s Q (branch x) :=
  ⟨⟨⟨h.1.fit.opened, h.1.fit.defined⟩, h.1.outer, h.1.loops, h.1.errors⟩, h.2⟩

theorem inLoop {x : Survey α} (h : Surveys kind { s with loops := s.loops + 1 } Q x) :
    Surveys kind s Q (inLoop x) := by
  have hl : (x { s with loops := s.loops + 1 }).2.loops = s.loops + 1 := h.1.loops
  exact ⟨⟨⟨h.1.fit.opened, h.1.fit.defined⟩, h.1.outer, congrArg (· - 1) hl, h.1.errors⟩, h.2⟩

end Surveys

/-! ## Single statements -/

/-- What holds throughout a function of a program without faulty definitions. -/
structure Context.Fit (c : Context) : Prop where
  complete : c.symbols.Complete
  ret : c.ret.Defined c.symbols.kind

/-- The promise about a statement: it is well typed, and the locals are those that it leaves. -/
def Lands (c : Context) (s : Scope) (st : Stmt) (Γ : Env) : Prop :=
  st.Typed c.symbols c.ret (decide (0 < s.loops)) s.frame.env ∧ Γ = st.after s.frame.env

variable {c : Context} {f : Frame}

theorem tests_condition (hc : c.symbols.Complete) (hf : f.env.Defined c.symbols.kind) (e : Expr) :
    Checks f (fun e => e.Tests c.symbols f.env) (condition c e) := by
  refine (checks_condition c f e).mono fun e' ⟨t, he', ht⟩ => ?_
  have hyields := yields_of_result hc hf e _ (hinted_some (t := .bool) trivial) _ he'
  exact ⟨hyields.1, t, hyields.2, ht⟩

theorem Sound.inferred {e : Expr} (he : Sound c f e) {bits : Nat} {r : Expr × Ty × Bool}
    (h : Inferred c f bits e r) : Yields c f (r.1, r.2.1) := by
  obtain ⟨signed, ht, hcoerced | hresult⟩ := h
  · obtain ⟨htyped, t, hty, ha⟩ := he.fits (t := .int bits signed) trivial hcoerced
    rw [Ty.eq_of_isOrdered rfl (Or.inl ha), ← ht] at hty
    exact ⟨htyped, hty⟩
  · exact ht ▸ he none hinted_none _ hresult

/-- The expression gets a type, and a free does not change the types of locals. -/
theorem goes_exprStmt (hc : c.Fit) (hs : s.Fit c.symbols.kind) (pos : Position) (e : Expr) :
    Goes c.symbols.kind s (Lands c s) (exprStmt c pos e) := by
  unfold exprStmt
  refine .bind_checks hs (yields_expr hc.complete hs.defined e).within ?_
  rintro ⟨e', t⟩ s' hq hs' he'
  have hdone : Lands c s (.expr pos e') s.frame.env := ⟨.expr he'.1, rfl⟩
  dsimp only
  split
  · refine Goes.bind (Goes.modify (Q := fun _ Γ => Γ = s.frame.env) ?_ ?_) fun _ s'' hadv => ?_
    · split <;> exact ⟨⟨hs'.opened, hs'.defined⟩, rfl, rfl, List.prefix_refl _⟩
    · split <;> exact congrArg Frame.env hq.frame
    · refine .pure hadv.fit fun henv => ?_
      rw [henv]
      exact hdone
  · refine .pure hs' ?_
    rw [hq.frame]
    exact hdone

/-- The initial value of a declaration fits its type. -/
theorem Prepared.fits (hc : c.symbols.Complete) (hf : f.env.Defined c.symbols.kind) {d : VarDecl}
    {r : Option Expr × Ty × Bool} (h : Prepared c f d r) :
    r.2.1.Defined c.symbols.kind ∧ ∀ e ∈ r.1, e.Typed c.symbols f.env ∧ Fits r.2.1 e := by
  obtain ⟨-, declared, h, hwritten⟩ := h
  have hd : Hinted c declared := by
    generalize d.type = type at hwritten
    cases hwritten with
    | none => exact hinted_none
    | some ht =>
      exact hinted_some (Context.of_ask (Names.keeps_resolve (c.sound_names _) _ _) ht).defined
  unfold Initialised at h
  split at h
  · obtain ⟨hr, hdeclared⟩ := h
    exact ⟨hd _ hdeclared, by simp [hr]⟩
  · next e _ =>
    have he := yields_of_result hc hf e
    obtain ⟨e', hr, hresult | ⟨hcoerced, ht⟩⟩ := h
    · have hyields := he none hinted_none _ hresult
      rw [hr]
      refine ⟨hyields.defined, ?_⟩
      rintro _ ⟨⟩
      exact ⟨hyields.1, r.2.1, hyields.2, by simp⟩
    · have hdefined : r.2.1.Defined c.symbols.kind := by
        refine ht.elim (hd _) fun hint => ?_
        obtain ⟨bits, signed, hint⟩ := Ty.isInt_iff.1 hint
        exact hint ▸ trivial
      rw [hr]
      refine ⟨hdefined, ?_⟩
      rintro _ ⟨⟩
      exact he.fits hdefined hcoerced

/-- A new local is the only change to the types of the locals. -/
theorem Scope.Fit.push (hs : s.Fit kind) {t : Ty} (ht : t.Defined kind) {size : Nat}
    (hframe : s'.frame = (s.frame.push x t size mutable).2)
    (hloops : s'.loops = s.loops) (herrors : s'.errors = s.errors) :
    s.Advances kind s' ∧ s'.frame.env = s.frame.env.bind x (some t) := by
  have henv : s'.frame.env = s.frame.env.bind x (some t) := by
    rw [hframe]
    exact Frame.env_bind (f := (s.frame.temp size).2) hs.opened x t _ mutable
  have hscopes := (s.frame.temp size).2.scopes_bind x t (s.frame.temp size).1 mutable
  refine ⟨⟨⟨?_, henv ▸ hs.defined.bind ht x⟩, ?_, hloops, herrors ▸ List.prefix_refl _⟩, henv⟩
  · rw [hframe]
    exact hscopes.2 hs.opened
  · rw [hframe]
    exact hscopes.1

/-- Recording the value of a local that has just been declared changes no types. -/
theorem Scope.Fit.record (hs : s.Fit kind) (hs' : s'.Fit kind) {t : Ty} {size : Nat}
    (hframe : s'.frame = (s.frame.push x t size mutable).2) (v : Constant) :
    s'.Advances kind { s' with frame := s'.frame.setValue x v } := by
  have hset := (s.frame.temp size).2.scopes_setValue_bind x t (s.frame.temp size).1 mutable v
  have hbind := (s.frame.temp size).2.scopes_bind x t (s.frame.temp size).1 mutable
  refine ⟨⟨?_, ?_⟩, ?_, rfl, List.prefix_refl _⟩
  · rw [hframe]
    exact hset.2 hs.opened
  · change (s'.frame.setValue x v).env.Defined kind
    rw [Frame.env_setValue]
    exact hs'.defined
  · rw [hframe]
    exact hset.1.trans hbind.1.symm

/-- A local that is kept is the only change to the types of the locals. -/
theorem Scope.Fit.keep (hs : s.Fit kind) {t : Ty} (ht : t.Defined kind) (c : Context) (x : String) (size : Nat)
    (mutable byDefault : Bool) (pos : Position) (init : Option Expr) :
    ∃ s', (keep c x t size mutable byDefault pos init : Checker τ Unit) s = (.ok (), s') ∧
      s.Advances kind s' ∧ s'.frame.env = s.frame.env.bind x (some t) := by
  obtain ⟨v, s', hkeep, hquiet⟩ := keep_eq (τ := τ) c x t size mutable byDefault pos init s
  obtain ⟨pending, heq⟩ := s.declared_eq x t size mutable byDefault pos
  rw [heq] at hquiet
  obtain ⟨hadv, henv⟩ := hs.push ht hquiet.frame hquiet.loops hquiet.errors
  refine ⟨_, hkeep, ?_⟩
  cases v with
  | none => exact ⟨hadv, henv⟩
  | some v =>
    exact ⟨hadv.trans (hs.record hadv.fit hquiet.frame v), (Frame.env_setValue _ _ _).trans henv⟩

theorem goes_varDecl (hc : c.Fit) (hs : s.Fit c.symbols.kind) (pos : Position) (d : VarDecl) :
    Goes c.symbols.kind s (fun d' => Lands c s (.var pos d')) (varDecl c pos d) := by
  rw [varDecl_eq]
  refine .bind_checks hs (checks_prepare c s.frame pos d) ?_
  rintro ⟨⟨init, t, byDefault⟩, size⟩ s1 hq1 hs1 hprepared
  obtain ⟨ht, hinit⟩ := hprepared.fits hc.complete hs.defined
  obtain ⟨s2, hkeep, hadv, henv⟩ := hs1.keep ht c d.name size d.mutable byDefault pos init
  refine .bind_of_ok hkeep hadv (.pure hadv.fit ?_)
  rw [henv, hq1.frame]
  exact ⟨.var rfl hprepared.1 ht hinit, rfl⟩

/-- The target of an assignment is a place. -/
theorem yields_target (hc : c.symbols.Complete) (hf : f.env.Defined c.symbols.kind) (e : Expr) :
    Checks f (fun r => Yields c f r ∧ r.1.isPlace = true) (target c e) := by
  refine (checks_target c f e).mono fun r ⟨hplace, h⟩ => ⟨?_, hplace⟩
  rcases h with ⟨m, x, slot, rfl, hslot, rfl⟩ | hresult
  · have hx : f.env x = some slot.ty := by simp [Frame.env, hslot]
    exact yields_leaf (.ident hx rfl) (hf x _ hx) rfl
  · exact yields_of_result hc hf e none hinted_none r hresult

/-- The value fits into the target, which is a place. -/
theorem goes_assignStmt (hc : c.Fit) (hs : s.Fit c.symbols.kind) (pos : Position) (l r : Expr) :
    Goes c.symbols.kind s (Lands c s) (assignStmt c pos l r) := by
  unfold assignStmt
  refine .bind_checks hs (yields_target hc.complete hs.defined l).within ?_
  rintro ⟨l', t⟩ s1 hq1 hs1 ⟨hl', hplace⟩
  dsimp only
  have hvalue := ((exprLaws_any c).assigned (lawful_any c r) l' t).checks s1.frame
  refine .bind_checks hs1 hvalue.within ?_
  intro r' s2 hq2 hs2 hcoerced
  have hr' := (yields_of_result hc.complete hs1.defined r).fits hl'.defined hcoerced
  rw [hq1.frame] at hr'
  have hlands : Lands c s (.assign pos l' r') s.frame.env :=
    ⟨.assign hl'.1 hr'.1 hplace hl'.2 hr'.2, rfl⟩
  refine Goes.bind (Goes.modify (Q := fun _ Γ => Γ = s.frame.env) ?_ ?_) fun _ s3 hadv => ?_
  · split <;> exact ⟨⟨hs2.opened, hs2.defined⟩, rfl, rfl, List.prefix_refl _⟩
  · split <;> exact congrArg Frame.env (hq2.frame.trans hq1.frame)
  · refine .pure hadv.fit fun henv => ?_
    rw [henv]
    exact hlands

/-- The value fits the result of the function. -/
theorem goes_retStmt (hc : c.Fit) (hs : s.Fit c.symbols.kind) (pos : Position) (e : Option Expr) :
    Goes c.symbols.kind s (Lands c s) (retStmt c pos e) := by
  cases e with
  | none =>
    by_cases hv : c.ret = .void
    · simp only [retStmt, if_pos hv]
      exact .pure hs ⟨.done hv, rfl⟩
    · simp only [retStmt, if_neg hv]
      exact .reject hs
  | some e =>
    unfold retStmt
    refine .bind_checks hs (((exprLaws_any c).result (lawful_any c e)).checks s.frame).within ?_
    rintro e' s1 hq1 hs1 ⟨hv, hreturned⟩
    refine .pure hs1 ?_
    rw [hq1.frame]
    -- The value of an integer function may be any integer; all other values have to fit.
    have he := yields_of_result hc.complete hs.defined e
    rcases hreturned with hcoerced | ⟨hint, t, hresult, ht⟩
    · obtain ⟨htyped, hfits⟩ := he.fits hc.ret hcoerced
      exact ⟨.ret htyped hv (Or.inl hfits), rfl⟩
    · have hyields := he none hinted_none _ hresult
      exact ⟨.ret hyields.1 hv (Or.inr ⟨hint, t, hyields.2, ht⟩), rfl⟩

theorem goes_jumpStmt (hs : s.Fit c.symbols.kind) (what : String)
    (h : 0 < s.loops → Lands c s st s.frame.env) :
    Goes c.symbols.kind s (Lands c s) (jumpStmt st what) := by
  unfold jumpStmt
  refine .bind_of_ok (get_apply s) hs.advances ?_
  split
  · exact .reject hs
  · next hl => exact .pure hs (h (Nat.pos_of_ne_zero hl))

/-- The counter of a loop is an integer, and a local inside the loop. -/
theorem goes_counter (hc : c.Fit) (hs : s.Fit c.symbols.kind) (pos : Position)
    (init : Option (String × Expr)) :
    Goes c.symbols.kind s (fun init' Γ =>
        (∀ x e, init' = some (x, e) → e.Typed c.symbols s.frame.env ∧
          ∃ signed, e.ty = some (.int 64 signed)) ∧ Γ = Stmt.inside s.frame.env init')
      (counter c pos init) := by
  cases init with
  | none => exact .pure hs ⟨fun _ _ h => (nomatch h), rfl⟩
  | some xe =>
    obtain ⟨x, e⟩ := xe
    unfold counter
    refine .bind_checks hs (checks_inferInt c s.frame e 64 pos).within ?_
    rintro ⟨e', t, byDefault⟩ s1 hq1 hs1 hinferred
    have he' := (yields_of_result hc.complete hs.defined e).inferred hinferred
    obtain ⟨signed, ht, -⟩ := hinferred
    dsimp only at he' ht ⊢
    subst ht
    obtain ⟨s2, hkeep, hadv, henv⟩ := hs1.keep (t := .int 64 signed) trivial c x 8 true byDefault pos none
    refine .bind_of_ok hkeep hadv (.pure hadv.fit ⟨?_, ?_⟩)
    · rintro _ _ ⟨⟩
      exact ⟨he'.1, signed, he'.2⟩
    · rw [henv, hq1.frame, ← he'.2]
      rfl

/-! ## All statements -/

/-- A statement that is no block leaves the locals that its form says. -/
theorem Goes.of_lands {x : Checker Stmt Stmt} (h : Goes c.symbols.kind s (Lands c s) x)
    (hst : ∀ pos body, st ≠ .block pos body) :
    Goes c.symbols.kind s
      (fun st' Γ => Lands c s st' Γ ∧ ∀ pos body, st = .block pos body → Γ = s.frame.env) x :=
  h.mono fun _ _ h => ⟨h, fun pos body hb => absurd hb (hst pos body)⟩

/-- A statement that is checked on its own leaves no locals behind. -/
theorem surveys_nest (hs : s.Fit c.symbols.kind)
    (h : ∀ s : Scope, s.Fit c.symbols.kind → Goes c.symbols.kind s
      (fun st' Γ => Lands c s st' Γ ∧ ∀ pos body, st = .block pos body → Γ = s.frame.env)
      (stmt c st)) :
    Surveys c.symbols.kind s (fun st' Γ =>
        st'.Typed c.symbols c.ret (decide (0 < s.loops)) s.frame.env ∧ Γ = s.frame.env)
      (nest st (stmt c st)) := by
  unfold nest
  split
  · next pos body =>
    exact Surveys.branch (Surveys.settle ((h s hs).mono fun st' Γ h => ⟨h.1.1, h.2 pos body rfl⟩))
  · exact Surveys.branch (.enclosed hs (.settle ((h _ hs.enter).mono fun st' Γ h => h.1.1)))

mutual

/-- A statement that passes its check is well typed, if nothing has been reported in the end. -/
theorem goes_stmt (hc : c.Fit) (st : Stmt) (s : Scope) (hs : s.Fit c.symbols.kind) :
    Goes c.symbols.kind s
      (fun st' Γ => Lands c s st' Γ ∧ ∀ pos body, st = .block pos body → Γ = s.frame.env)
      (stmt c st) := by
  match st with
  | .block pos body =>
    unfold stmt
    refine .surveyed (Surveys.mono (Surveys.enclosed (P := fun st' => ∃ body', st' = .block pos body' ∧
      Stmt.AllTyped c.symbols c.ret (decide (0 < s.loops)) s.frame.env body') hs (.map ?_)) ?_)
    · exact (surveys_stmts hc body _ hs.enter).mono fun body' _ h => ⟨body', rfl, h⟩
    · rintro _ Γ ⟨⟨body', rfl, h⟩, rfl⟩
      exact ⟨⟨h, rfl⟩, fun _ _ _ => rfl⟩
  | .expr pos e =>
    unfold stmt
    exact .of_lands (goes_exprStmt hc hs pos e) nofun
  | .assign pos l r =>
    unfold stmt
    exact .of_lands (goes_assignStmt hc hs pos l r) nofun
  | .var pos d =>
    unfold stmt
    exact .of_lands (.within (.map (goes_varDecl hc hs pos d))) nofun
  | .cond pos test yes no =>
    unfold stmt
    refine .bind_checks hs (tests_condition hc.complete hs.defined test).within ?_
    intro test' s1 hq1 hs1 htest
    refine .surveyed (.bind (surveys_nest hs1 (goes_stmt hc yes)) fun yes' s2 hadv2 => ?_)
    refine .bind (surveys_optional hc no s2 hadv2.fit) fun no' s3 hadv3 => .pure hadv3.fit ?_
    -- Neither branch leaves a local behind, so all is typed under the locals in front.
    rintro ⟨hno, henv3⟩ ⟨hyes, henv2⟩
    rw [henv2, hq1.frame, hadv2.loops, hq1.loops] at hno
    rw [hq1.frame, hq1.loops] at hyes
    have henv : s3.frame.env = s.frame.env := henv3.trans (henv2.trans (by rw [hq1.frame]))
    exact ⟨⟨⟨htest, hyes, hno⟩, henv⟩, fun _ _ h => nomatch h⟩
  | .loop pos init test post body =>
    -- The counter has a scope of its own, in which the condition, the body and the step are checked.
    unfold stmt
    refine Goes.mono (Goes.inScope (P := fun st' => ∃ init' test' post' body',
      st' = .loop pos init' test' post' body' ∧ st'.Typed c.symbols c.ret (decide (0 < s.loops))
        s.frame.env) hs ?_) ?_
    · refine .bind (goes_counter hc hs.enter pos init).within fun init' s1 hadv1 => ?_
      refine .bind_checks hadv1.fit (tests_condition hc.complete hadv1.fit.defined test).within ?_
      intro test' s2 hq2 hs2 htest
      have hs2' : Scope.Fit c.symbols.kind { s2 with loops := s2.loops + 1 } :=
        ⟨hs2.opened, hs2.defined⟩
      refine .surveyed (.inLoop (.bind (surveys_nest hs2' (goes_stmt hc body)) ?_))
      intro body' s3 hadv3
      refine .bind (surveys_optional hc post s3 hadv3.fit) fun post' s4 hadv4 => .pure hadv4.fit ?_
      rintro ⟨hpost, -⟩ ⟨hbody, henv3⟩ ⟨hinit, henv1⟩
      have henv2 : s2.frame.env = Stmt.inside s.frame.env init' := by
        rw [hq2.frame, henv1]
        rfl
      have hloops : s3.loops = s2.loops + 1 := hadv3.loops
      refine ⟨init', test', post', body', rfl, hinit, ?_, ?_, ?_⟩
      · rw [henv1] at htest
        exact htest
      · simpa [henv2] using hbody
      · simpa [henv3, henv2, hloops] using hpost
    · rintro _ Γ ⟨⟨init', test', post', body', rfl, h⟩, rfl⟩
      exact ⟨⟨h, rfl⟩, fun _ _ h => nomatch h⟩
  | .ret pos e =>
    unfold stmt
    exact .of_lands (goes_retStmt hc hs pos e) nofun
  | .brk pos =>
    unfold stmt
    refine .of_lands (goes_jumpStmt hs "break" fun hl => ?_) nofun
    exact ⟨.brk (by simpa using hl), rfl⟩
  | .cont pos =>
    unfold stmt
    refine .of_lands (goes_jumpStmt hs "continue" fun hl => ?_) nofun
    exact ⟨.cont (by simpa using hl), rfl⟩

theorem surveys_optional (hc : c.Fit) (st : Option Stmt) (s : Scope) (hs : s.Fit c.symbols.kind) :
    Surveys c.symbols.kind s (fun st' Γ =>
        Stmt.OptionTyped c.symbols c.ret (decide (0 < s.loops)) s.frame.env st' ∧ Γ = s.frame.env)
      (optional c st) := by
  match st with
  | none => exact .pure hs ⟨trivial, rfl⟩
  | some st =>
    unfold optional
    exact .map (surveys_nest hs (goes_stmt hc st))

/-- Statements are well typed under the locals before them, if nothing has been reported in the end. -/
theorem surveys_stmts (hc : c.Fit) (sts : List Stmt) (s : Scope) (hs : s.Fit c.symbols.kind) :
    Surveys c.symbols.kind s (fun sts' _ =>
        Stmt.AllTyped c.symbols c.ret (decide (0 < s.loops)) s.frame.env sts')
      (stmts c sts) := by
  match sts with
  | [] => exact .pure hs trivial
  | st :: sts =>
    unfold stmts
    refine .bind (.settle (goes_stmt hc st s hs)) fun st' s1 hadv1 => ?_
    refine .bind (surveys_stmts hc sts s1 hadv1.fit) fun sts' s2 hadv2 => .pure hadv2.fit ?_
    rintro hrest ⟨⟨hst, henv⟩, -⟩
    rw [henv, hadv1.loops] at hrest
    exact ⟨hst, hrest⟩

end

end Check

end Sigil
