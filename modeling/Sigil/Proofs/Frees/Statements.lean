import Sigil.Proofs.Frames
import Sigil.Proofs.Frees.Expressions
import Sigil.Proofs.Laws.Statements

/-!
# What a statement can do to the state

The check of a statement changes the state in few ways: it declares a local, notes that a pointer is freed or
assigned, reports an error, and puts the changes of its parts together by scopes, branches and loops
(`Check.Scope.Runs`). Whatever holds of these changes holds of every statement (`Check.runs_stmts`). Scopes
that were open before stay as they are, slots are taken from the low end of the frame only, and errors and
declarations are never forgotten (`Check.Scope.Runs.extends`).
-/

namespace Sigil

open Attempt

namespace Frame

/-- After a declaration a name means the new local or what it meant before. -/
theorem get?_bind_cases {f : Frame} {x y : String} {t : Ty} {offset : Int} {mutable : Bool} {slot : Slot}
    (h : (f.bind x t offset mutable).get? y = some slot) :
    (x = y ∧ slot = ⟨t, mutable, offset, none⟩) ∨ f.get? y = some slot := by
  by_cases hy : x = y
  · subst hy
    by_cases hs : f.scopes = []
    · simp [get?, bind, hs, find?] at h
    · rw [get?_bind_self hs] at h
      exact Or.inl ⟨rfl, (Option.some.inj h).symm⟩
  · rw [get?_bind_of_ne hy] at h
    exact Or.inr h

end Frame

namespace Check

/-- Only a local has an offset. -/
theorem Scope.offset?_eq_some {s : Scope} {e : Expr} {o : Int} (h : s.offset? e = some o) :
    ∃ m x slot, e = .ident m x ∧ s.frame.get? x = some slot ∧ slot.offset = o := by
  unfold Scope.offset? at h
  split at h
  · obtain ⟨slot, hslot, ho⟩ := Option.map_eq_some_iff.1 h
    exact ⟨_, _, slot, rfl, hslot, ho⟩
  · cases h

/-! ## Changes of the state -/

namespace Scope

/-- The state in a new scope. -/
def enter (s : Scope) : Scope :=
  { s with frame := s.frame.enter }

/-- The state after the innermost scope. -/
def leave (s : Scope) : Scope :=
  { s with frame := s.frame.leave }

/-- The state with one more error. -/
def report (e : Located TypeError) (s : Scope) : Scope :=
  { s with errors := s.errors ++ [e] }

/-- What the check of a statement can do to the state. -/
inductive Runs : Scope → Scope → Prop where
  | quiet {s s' : Scope} (h : s.Quiet s') : Runs s s'
  | trans {s s' s'' : Scope} (h : Runs s s') (h' : Runs s' s'') : Runs s s''
  | report (s : Scope) (e : Located TypeError) : Runs s (s.report e)
  | free (s : Scope) (p : Expr) : Runs s (s.free p)
  | regain (s : Scope) (l : Expr) : Runs s (s.regain l)
  | declare (s : Scope) (x : String) (t : Ty) (size : Nat) (mutable byDefault : Bool) (pos : Position) :
    Runs s (s.declared x t size mutable byDefault pos)
  /-- A value is recorded just after the local has been declared. -/
  | keep {s s' : Scope} {x : String} {t : Ty} {size : Nat} {mutable byDefault : Bool} {pos : Position}
    (h : (s.declared x t size mutable byDefault pos).Quiet s') (v : Option Constant) :
    Runs s (s'.valued x v)
  | scope {s s' : Scope} (h : Runs s.enter s') : Runs s s'.leave
  | branch {s s' : Scope} (h : Runs s s') : Runs s (s.rejoin s')
  | loop {s s' : Scope} (h : Runs { s with loops := s.loops + 1 } s') :
    Runs s { s' with loops := s'.loops - 1 }

end Scope

/-! ## Where statements lead -/

section

variable {c : Context} {s t u : Scope} {pos : Position} {test : Expr}
variable {τ : Type} {x : Checker τ τ} {e : Spoiled Expr} {test' : Expr}

theorem settle_of_ok {a : τ} (h : x s = (.ok a, t)) : (settle x s).2 = t := by
  rw [settle, h]

theorem settle_of_error {e : Spoiled τ} (h : x s = (.error e, t)) :
    (settle x s).2 = t.report e.error := by
  rw [settle, h]
  rfl

theorem settle_cond_of_error (h : condition c test s = (.error e, t)) (yes : Stmt)
    (no : Option Stmt) : (settle (stmt c (.cond pos test yes no)) s).2 = t.report e.error := by
  rw [stmt]
  exact settle_of_error (bind_of_error (within_of_error h))

theorem settle_cond_of_ok (h : condition c test s = (.ok test', t)) (yes : Stmt)
    (no : Option Stmt) : (settle (stmt c (.cond pos test yes no)) s).2 =
      (optional c no (nest yes (stmt c yes) t).2).2 := by
  rw [stmt]
  exact settle_of_ok (bind_of_ok (within_of_ok h))

theorem inScope_of_eq {α : Type} {x : Checker τ α} {r : Except (Spoiled τ) α} (h : x s.enter = (r, t)) :
    inScope x s = (r, t.leave) := by
  change ((x s.enter).1, (x s.enter).2.leave) = _
  rw [h]

variable {init init' : Option (String × Expr)}

/-- A loop whose counter is faulty. -/
theorem settle_loop_of_counter {e : Spoiled (Option (String × Expr))}
    (h : counter c pos init s.enter = (.error e, t)) (post : Option Stmt) (body : Stmt) :
    (settle (stmt c (.loop pos init test post body)) s).2 = (t.report e.error).leave := by
  rw [stmt]
  exact settle_of_error (inScope_of_eq (bind_of_error (within_of_error h)))

/-- A loop whose condition is faulty. -/
theorem settle_loop_of_test (hinit : counter c pos init s.enter = (.ok init', t))
    (h : condition c test t = (.error e, u)) (post : Option Stmt) (body : Stmt) :
    (settle (stmt c (.loop pos init test post body)) s).2 = (u.report e.error).leave := by
  rw [stmt]
  refine settle_of_error (e := ⟨e.error, Stmt.loop pos init' e.tree post body⟩) (inScope_of_eq (t := u) ?_)
  rw [bind_of_ok (within_of_ok hinit)]
  exact bind_of_error (within_of_error h)

theorem settle_loop_of_ok (hinit : counter c pos init s.enter = (.ok init', t))
    (h : condition c test t = (.ok test', u)) (post : Option Stmt) (body : Stmt) :
    (settle (stmt c (.loop pos init test post body)) s).2 =
      (inLoop (nest body (stmt c body) >>= fun _ => optional c post) u).2.leave := by
  rw [stmt]
  exact settle_of_ok (inScope_of_eq
    ((bind_of_ok (within_of_ok hinit)).trans (bind_of_ok (within_of_ok h))))

end

theorem Scope.Alike.refl (s : Scope) : s.Alike s := by
  refine ⟨rfl, ?_⟩
  rintro x slot slot' hslot hslot'
  cases hslot.symm.trans hslot'
  exact Iff.rfl

theorem Even.quiet {τ α : Type} {x : Checker τ α} (hx : Even x) (s : Scope) : s.Quiet (x s).2 := by
  obtain ⟨r, t, t', hxs, -, hq, -⟩ := hx s s (.refl s)
  rw [hxs]
  exact hq

theorem even_known {τ : Type} (c : Context) (mutable : Bool) (init : Option Expr) :
    Even (known c mutable init : Checker τ (Option Constant)) := by
  unfold known
  split
  · exact (exprLaws_even c).value? _
  · exact even_pure none

section

variable {τ τ' α β : Type} {Leads : Scope → Scope → Prop}

/-! ### Relations between states that go on from one to the next -/

/-- A sequence leads where both of its parts do. -/
theorem leads_bind (htrans : ∀ {s s' s''}, Leads s s' → Leads s' s'' → Leads s s'') {x : Checker τ α}
    {k : α → Checker τ β} {Q : α → Prop} (hx : ∀ s, Leads s (x s).2) (hreturns : Returns Q x)
    (hk : ∀ a, Q a → ∀ s, Leads s (k a s).2) (s : Scope) : Leads s ((x >>= k) s).2 := by
  have hfirst := hx s
  rcases hr : x s with ⟨r, s'⟩
  rw [hr] at hfirst
  cases r with
  | ok a =>
    rw [bind_of_ok hr]
    exact htrans hfirst (hk a (hreturns s a s' hr) s')
  | error e =>
    rw [bind_of_error hr]
    exact hfirst

theorem leads_within (context : τ → τ') {x : Checker τ α} (hx : ∀ s, Leads s (x s).2) (s : Scope) :
    Leads s (within context x s).2 := by
  have hpart := hx s
  unfold within mapFailure
  rcases hr : x s with ⟨r, s'⟩
  rw [hr] at hpart
  cases r <;> exact hpart

theorem leads_pass (htrans : ∀ {s s' s''}, Leads s s' → Leads s' s'' → Leads s s'') {x : Checker τ α}
    {g : Spoiled τ → Scope → Scope} (hx : ∀ s, Leads s (x s).2) (hg : ∀ e s, Leads s (g e s))
    (s : Scope) : Leads s ((tryCatch x fun e => do modify (g e); throw e : Checker τ α) s).2 := by
  have hpart := hx s
  dsimp only [tryCatch, tryCatchThe, MonadExceptOf.tryCatch]
  unfold orElse
  rcases hr : x s with ⟨r, s'⟩
  rw [hr] at hpart
  cases r with
  | ok a => exact hpart
  | error e => exact htrans hpart (hg e s')

theorem leads_settle (htrans : ∀ {s s' s''}, Leads s s' → Leads s' s'' → Leads s s'') {x : Checker τ τ}
    (hx : ∀ s, Leads s (x s).2) (hreport : ∀ s e, Leads s (s.report e)) (s : Scope) :
    Leads s (settle x s).2 := by
  have hpart := hx s
  unfold settle
  rcases hr : x s with ⟨r, s'⟩
  rw [hr] at hpart
  cases r with
  | ok a => exact hpart
  | error e => exact htrans hpart (hreport s' e.error)

end

/-- A relation between states that leads on along all that a statement does but declarations. -/
structure Scope.Led (Leads : Scope → Scope → Prop) : Prop where
  quiet : ∀ {s s' : Scope}, s.Quiet s' → Leads s s'
  trans : ∀ {s s' s'' : Scope}, Leads s s' → Leads s' s'' → Leads s s''
  report : ∀ (s : Scope) (e : Located TypeError), Leads s (s.report e)
  free : ∀ (s : Scope) (p : Expr), Leads s (s.free p)
  regain : ∀ (s : Scope) (l : Expr), Leads s (s.regain l)
  scope : ∀ {s s' : Scope}, Leads s.enter s' → Leads s s'.leave
  branch : ∀ {s s' : Scope}, Leads s s' → Leads s (s.rejoin s')
  loop : ∀ {s s' : Scope}, Leads { s with loops := s.loops + 1 } s' → Leads s { s' with loops := s'.loops - 1 }

/-- Such a relation holds between the states before and after every step but a declaration. -/
theorem Scope.Led.stepLaws {Leads : Scope → Scope → Prop} (h : Scope.Led Leads) (c : Context) :
    StepLaws c (fun _ => True) (fun _ _ x => ∀ s : Scope, Leads s (x s).2)
      (fun _ x => ∀ s : Scope, Leads s (x s).2) where
  pure _ s := h.quiet (.refl s)
  reject _ _ _ _ _ s := h.quiet (.refl s)
  bind hx := @leads_bind _ _ _ Leads h.trans _ _ _ hx
  within := leads_within
  look _ hk s := hk s s
  demand tree _ _ hpos hq s := h.quiet (((exprLaws_even c).demand tree hpos hq).quiet s)
  value? e s := h.quiet (((exprLaws_even c).value? e).quiet s)
  note hg s := h.quiet (hg s).toQuiet
  pass hx hg := @leads_pass _ _ Leads h.trans _ _ hx fun e s => h.quiet (hg e s).toQuiet
  ident m x hint _ s := h.quiet ((even_identRule c m x hint).quiet s)
  free p s := h.free s p
  regain l s := h.regain s l
  jump st what _ s := by
    unfold jumpStmt
    rw [bind_of_ok (get_apply s)]
    split
    · exact h.quiet (.refl s)
    · exact h.quiet (.refl s)
  surveyed hx := hx
  inScope hx s := h.scope (hx s.enter)
  surveyPure _ s := h.quiet (.refl s)
  surveyBind hx hk s := h.trans (hx s) (hk _ _)
  settle hx := @leads_settle _ Leads h.trans _ hx h.report
  enclosed hx s := h.scope (hx s.enter)
  branch hx s := h.branch (hx s)
  inLoop hx s := h.loop (hx { s with loops := s.loops + 1 })

/-! ### What a check can do -/

theorem Scope.led_runs : Scope.Led Scope.Runs :=
  ⟨.quiet, .trans, .report, .free, .regain, .scope, .branch, .loop⟩

section

variable {τ α : Type}
variable {x : Checker τ α}

theorem runs_pass {g : Spoiled τ → Scope → Scope} (hx : ∀ s : Scope, s.Runs (x s).2)
    (hg : ∀ e (s : Scope), s.Quiet (g e s)) (s : Scope) :
    s.Runs ((tryCatch x fun e => do modify (g e); throw e : Checker τ α) s).2 :=
  leads_pass .trans hx (fun e s => .quiet (hg e s)) s

theorem runs_settle {x : Checker τ τ} (hx : ∀ s : Scope, s.Runs (x s).2) (s : Scope) :
    s.Runs (settle x s).2 :=
  leads_settle .trans hx .report s

theorem runs_keep (c : Context) (x : String) (t : Ty) (size : Nat) (mutable byDefault : Bool)
    (pos : Position) (init : Option Expr) (s : Scope) :
    s.Runs ((keep c x t size mutable byDefault pos init : Checker τ Unit) s).2 := by
  obtain ⟨v, u, hkeep, hquiet⟩ := keep_eq (τ := τ) c x t size mutable byDefault pos init s
  rw [hkeep]
  exact .keep hquiet v

end

theorem stmtLaws_runs (c : Context) :
    StmtLaws c (fun _ _ x => ∀ s : Scope, s.Runs (x s).2) (fun _ x => ∀ s : Scope, s.Runs (x s).2) where
  toStepLaws := Scope.led_runs.stepLaws c
  keep := runs_keep c

theorem runs_condition (c : Context) (e : Expr) (s : Scope) : s.Runs (condition c e s).2 :=
  ((stmtLaws_runs c).condition ((stmtLaws_runs c).lawful fun _ _ => trivial)).holds s

theorem runs_stmt (c : Context) (st : Stmt) (s : Scope) : s.Runs (stmt c st s).2 :=
  (stmtLaws_runs c).stmt st s

theorem runs_stmts (c : Context) (sts : List Stmt) (s : Scope) : s.Runs (stmts c sts s).2 :=
  (stmtLaws_runs c).stmts sts s

/-! ## What stays and what grows -/

namespace Scope

/-- The open scopes but the innermost are as before, and slots, names and errors have been added only. -/
structure Extends (s s' : Scope) : Prop where
  outer : s'.frame.scopes.tail = s.frame.scopes.tail
  named : s.frame.named <+: s'.frame.named
  low : Frame.minOffset ≤ s.frame.low → Frame.minOffset ≤ s'.frame.low ∧ s'.frame.low ≤ s.frame.low
  loops : s'.loops = s.loops
  errors : s.errors <+: s'.errors

variable {s s' s'' : Scope}

theorem Quiet.extends (h : s.Quiet s') : s.Extends s' := by
  refine ⟨?_, h.frame ▸ List.prefix_refl _, ?_, h.loops, h.errors ▸ List.prefix_refl _⟩
  · rw [h.frame]
  · rw [h.frame]
    exact fun hlow => ⟨hlow, le_refl _⟩

theorem Extends.trans (h : s.Extends s') (h' : s'.Extends s'') : s.Extends s'' := by
  refine ⟨h'.outer.trans h.outer, h.named.trans h'.named, fun hlow => ?_, h'.loops.trans h.loops,
    h.errors.trans h'.errors⟩
  obtain ⟨hleast, hle⟩ := h.low hlow
  obtain ⟨hleast', hle'⟩ := h'.low hleast
  exact ⟨hleast', hle'.trans hle⟩

theorem extends_declared (s : Scope) (x : String) (t : Ty) (size : Nat) (mutable byDefault : Bool)
    (pos : Position) : s.Extends (s.declared x t size mutable byDefault pos) := by
  obtain ⟨pending, heq⟩ := s.declared_eq x t size mutable byDefault pos
  rw [heq]
  refine ⟨(Frame.scopes_bind _ x t _ mutable).1, List.prefix_append _ _, ?_, rfl, List.prefix_refl _⟩
  have hspan := Frame.span_nonneg (max size 1)
  change _ → _ ≤ max _ _ ∧ max _ _ ≤ _
  omega

/-- A statement leaves the outer scopes as they are and forgets nothing. -/
theorem Runs.extends (h : s.Runs s') : s.Extends s' := by
  induction h with
  | quiet h => exact h.extends
  | trans _ _ ih ih' => exact ih.trans ih'
  | report s e =>
    exact ⟨rfl, List.prefix_refl _, fun hlow => ⟨hlow, le_refl _⟩, rfl, List.prefix_append _ _⟩
  | free s p =>
    unfold Scope.free
    split
    · exact ⟨rfl, List.prefix_refl _, fun hlow => ⟨hlow, le_refl _⟩, rfl, List.prefix_refl _⟩
    · exact (Quiet.refl s).extends
  | regain s l =>
    unfold Scope.regain
    split
    · exact ⟨rfl, List.prefix_refl _, fun hlow => ⟨hlow, le_refl _⟩, rfl, List.prefix_refl _⟩
    · exact (Quiet.refl s).extends
  | declare s x t size mutable byDefault pos => exact s.extends_declared x t size mutable byDefault pos
  | @keep s s' x t size mutable byDefault pos h v =>
    have hall := (s.extends_declared x t size mutable byDefault pos).trans h.extends
    cases v with
    | none => exact hall
    | some v =>
      refine ⟨?_, hall.named, hall.low, hall.loops, hall.errors⟩
      -- The value goes into the slot just declared, which is in the innermost scope.
      obtain ⟨pending, heq⟩ := s.declared_eq x t size mutable byDefault pos
      unfold Scope.valued
      dsimp only
      rw [h.frame, heq]
      exact (Frame.scopes_setValue_bind _ x t _ mutable v).1
  | @scope s s' _ ih =>
    refine ⟨?_, ih.named, ih.low, ih.loops, ih.errors⟩
    -- Leaving the scope brings back those around it.
    have houter : s'.leave.frame.scopes = s.frame.scopes := ih.outer
    rw [houter]
  | branch _ ih => exact ⟨ih.outer, ih.named, ih.low, ih.loops, ih.errors⟩
  | @loop s s' _ ih =>
    refine ⟨ih.outer, ih.named, ih.low, ?_, ih.errors⟩
    have hloops : s'.loops = s.loops + 1 := ih.loops
    dsimp only
    omega

/-- What runs in a scope of its own leaves the open scopes as they are. -/
theorem Runs.scopes (h : s.enter.Runs s') : s'.leave.frame.scopes = s.frame.scopes :=
  h.extends.outer

end Scope

end Check

end Sigil
