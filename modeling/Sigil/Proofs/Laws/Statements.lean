import Sigil.Proofs.Laws.Outcomes
import Sigil.Proofs.Typing.Program

/-!
# Properties of checks of statements

A property that holds of every step of a statement and is kept by sequencing, by scopes, by branches and by
loops (`Check.StepLaws`) holds of every statement (`Check.StepLaws.stmts`). Declarations may be treated apart,
by whether their sign is unsigned only by default (`Check.StepLaws.Keeps`).

What a checked statement is made of is known only if nothing has been reported in the end (`Check.Gives`). Then
it is made of checked expressions, and of types that have been resolved (`Check.Roots.stmts`). In particular,
whatever stands in an accepted function stands where something was written, and its types can be resolved
(`Check.fit_of_definition`).
-/

namespace Sigil.Check

open Attempt List Stmt

variable {t : Symbols} {f' : Func}

/-! ## Laws -/

/-- A property that holds of every step of a statement but declarations, and is kept by sequencing, and its
form for surveys. -/
structure StepLaws (c : Context) (P : Position → Prop) (R : (τ α : Type) → Checker τ α → Prop)
    (S : (α : Type) → Survey α → Prop) : Prop extends ExprLaws c P R where
  ident : ∀ (m : Mark) (x : String) (hint : Option Ty), P m.pos →
    R Expr (Expr × Ty) (identRule c m x hint)
  free : ∀ {τ : Type} (p : Expr), R τ PUnit (modify (·.free p))
  regain : ∀ {τ : Type} (l : Expr), R τ PUnit (modify (·.regain l))
  jump : ∀ (s : Stmt) (what : String), P s.pos → R Stmt Stmt (jumpStmt s what)
  surveyed : ∀ {τ α : Type} {x : Survey α}, S α x → R τ α (surveyed x)
  inScope : ∀ {τ α : Type} {x : Checker τ α}, R τ α x → R τ α (inScope x)
  surveyPure : ∀ {α : Type} (a : α), S α (Pure.pure a)
  surveyBind : ∀ {α β : Type} {x : Survey α} {k : α → Survey β}, S α x → (∀ a, S β (k a)) → S β (x >>= k)
  settle : ∀ {τ : Type} {x : Checker τ τ}, R τ τ x → S τ (settle x)
  enclosed : ∀ {α : Type} {x : Survey α}, S α x → S α (enclosed x)
  branch : ∀ {α : Type} {x : Survey α}, S α x → S α (branch x)
  inLoop : ∀ {α : Type} {x : Survey α}, S α x → S α (inLoop x)

/-- A property that holds of every step of a statement, wherever it stands. -/
structure StmtLaws (c : Context) (R : (τ α : Type) → Checker τ α → Prop)
    (S : (α : Type) → Survey α → Prop) : Prop extends StepLaws c (fun _ => True) R S where
  keep : ∀ {τ : Type} (x : String) (t : Ty) (size : Nat) (mutable byDefault : Bool) (pos : Position)
    (init : Option Expr), R τ Unit (keep c x t size mutable byDefault pos init)

namespace StepLaws

variable {c : Context} {P : Position → Prop} {R : (τ α : Type) → Checker τ α → Prop}
  {S : (α : Type) → Survey α → Prop} {τ α β : Type} (h : StepLaws c P R S)

include h

theorem lawful {e : Expr} (he : e.At P) : Lawful c P R e :=
  h.toExprLaws.lawful he fun m x hx hint => h.ident m x hint (he _ hx)

theorem map (g : α → β) {x : Checker τ α} (hx : R τ α x) : R τ β (g <$> x) :=
  h.next hx fun a => h.pure (g a)

theorem surveyMap (g : α → β) {x : Survey α} (hx : S α x) : S β (g <$> x) :=
  h.surveyBind hx fun a => h.surveyPure (g a)

theorem nest (s : Stmt) {check : Checker Stmt Stmt} (hcheck : R Stmt Stmt check) :
    S Stmt (nest s check) := by
  unfold Check.nest
  split
  · exact h.branch (h.settle hcheck)
  · exact h.branch (h.enclosed (h.settle hcheck))

/-! ### Single statements -/

variable {pos : Position}

/-- The one root is the expression itself. -/
theorem exprStmt {e : Expr} (he : e.At P) : R Stmt Stmt (exprStmt c pos e) := by
  unfold Check.exprStmt
  refine h.next (h.within _ (h.lawful he none).holds) fun r => ?_
  dsimp only
  split
  · exact h.next (h.free _) fun _ => h.pure _
  · exact h.pure _

/-- Both sides are roots. -/
theorem assignStmt {l r : Expr} (hl : l.At P) (hr : r.At P) : R Stmt Stmt (assignStmt c pos l r) := by
  unfold Check.assignStmt
  refine h.next (h.within _ (h.target hl.self fun _ => h.lawful hl).holds) fun l' => ?_
  refine h.next (h.within _ (h.assigned (h.lawful hr) l'.1 l'.2).holds) fun r' => ?_
  exact h.next (h.regain l'.1) fun _ => h.pure _

/-- A function without a result returns no value, and every other one returns one. -/
theorem retStmt (hpos : P pos) {e : Option Expr} (he : ∀ e' ∈ e.toList, e'.At P) :
    R Stmt Stmt (retStmt c pos e) := by
  cases e with
  | none =>
    by_cases hv : c.ret = .void
    · simp only [Check.retStmt, if_pos hv]
      exact h.pure _
    · simp only [Check.retStmt, if_neg hv]
      exact h.reject _ hpos rfl
  | some e =>
    have he := he e mem_cons_self
    unfold Check.retStmt
    exact h.next (h.within _ (h.result (h.lawful he)).holds) fun e' => h.pure _

/-- Declarations can be kept that have their sign by default only where `D` holds. -/
def Keeps (c : Context) (R : (τ α : Type) → Checker τ α → Prop) (D : Position → Prop) : Prop :=
  ∀ {τ : Type} (x : String) (t : Ty) (size : Nat) (mutable byDefault : Bool) (pos : Position)
    (init : Option Expr), (byDefault = true → D pos) →
    R τ Unit (keep c x t size mutable byDefault pos init)

variable {D : Position → Prop}

/-- The initial value is a root, and the declared type is covered. -/
theorem varDecl (hkeep : Keeps c R D) (hpos : P pos) {d : VarDecl} (he : ∀ e ∈ d.init.toList, e.At P)
    (hd : ∀ p ∈ unsigiled (.var pos d), p ∉ c.signed → D p) : R VarDecl VarDecl (varDecl c pos d) := by
  have hprepare := h.prepare pos hpos fun e hinit => h.lawful (he e (Option.mem_toList.2 hinit))
  rw [varDecl_eq]
  refine h.bind hprepare.holds hprepare.returns fun r hr => ?_
  exact h.next (hkeep _ _ _ _ _ pos _ fun hup => hd pos (hr hup).1 (hr hup).2) fun _ => h.pure _

/-- The counter of a loop is declared as an integer, with the sign of its initial value if it has one. -/
theorem counter (hkeep : Keeps c R D) {init : Option (String × Expr)}
    (he : ∀ e ∈ init.toList.map (·.2), e.At P) (hpos : init.isSome = true → pos ∉ c.signed → D pos) :
    R (Option (String × Expr)) (Option (String × Expr)) (counter c pos init) := by
  cases init with
  | none => exact h.pure _
  | some init =>
    have he := he init.2 mem_cons_self
    unfold Check.counter
    have hinfer := h.inside (fun e => some (init.1, e)) (h.inferInt (h.lawful he) 64 pos)
    refine h.bind hinfer.holds hinfer.returns fun r hr => ?_
    exact h.next (hkeep init.1 r.2.1 8 true r.2.2 pos none fun hup => hpos rfl (hr hup)) fun _ => h.pure _

/-! ### All statements -/

mutual

/-- By recursion on the statement: the laws are kept by each step of its check. -/
theorem stmt (hkeep : Keeps c R D) (s : Stmt) (hs : s.Over P (Expr.At P))
    (hsigns : ∀ p ∈ unsigiled s, p ∉ c.signed → D p) : R Stmt Stmt (Check.stmt c s) := by
  obtain ⟨hplaces, hroots⟩ := hs
  match s with
  | .block pos body =>
    unfold Check.stmt
    refine h.surveyed (h.enclosed (h.surveyMap _ (stmts hkeep body ⟨?_, hroots⟩ hsigns)))
    exact (forall_mem_cons.1 hplaces).2
  | .expr pos e =>
    unfold Check.stmt
    exact h.exprStmt (hroots e mem_cons_self)
  | .assign pos l r =>
    unfold Check.stmt
    exact h.assignStmt (hroots l mem_cons_self) (hroots r (by simp [roots]))
  | .var pos d =>
    unfold Check.stmt
    exact h.within _ (h.map _ (h.varDecl hkeep (hplaces pos mem_cons_self) hroots hsigns))
  | .cond pos test yes no =>
    obtain ⟨hyes, hno⟩ := forall_mem_append.1 hsigns
    obtain ⟨hyesPlaces, hnoPlaces⟩ := forall_mem_append.1 (forall_mem_cons.1 hplaces).2
    obtain ⟨htest, hrest⟩ := forall_mem_cons.1 hroots
    obtain ⟨hyesRoots, hnoRoots⟩ := forall_mem_append.1 hrest
    unfold Check.stmt
    refine h.next (h.within _ (h.condition (h.lawful htest)).holds) fun test => ?_
    refine h.surveyed (h.surveyBind (h.nest yes (stmt hkeep yes ⟨hyesPlaces, hyesRoots⟩ hyes)) fun yes => ?_)
    exact h.surveyBind (optional hkeep no ⟨hnoPlaces, hnoRoots⟩ hno) fun no => h.surveyPure _
  | .loop pos init test post body =>
    obtain ⟨hfirst, hpost⟩ := forall_mem_append.1 hsigns
    obtain ⟨hinit, hbody⟩ := forall_mem_append.1 hfirst
    obtain ⟨hbodyPlaces, hpostPlaces⟩ := forall_mem_append.1 (forall_mem_cons.1 hplaces).2
    obtain ⟨hinitRoots, hrest⟩ := forall_mem_append.1 hroots
    obtain ⟨htest, hrest⟩ := forall_mem_cons.1 hrest
    obtain ⟨hbodyRoots, hpostRoots⟩ := forall_mem_append.1 hrest
    -- Only a counter is declared at the loop's own place.
    have hpos : init.isSome = true → pos ∉ c.signed → D pos := by
      intro hsome
      rw [if_pos hsome] at hinit
      exact hinit pos mem_cons_self
    unfold Check.stmt
    refine h.inScope (h.next (h.within _ (h.counter hkeep hinitRoots hpos)) fun init => ?_)
    refine h.next (h.within _ (h.condition (h.lawful htest)).holds) fun test => ?_
    refine h.surveyed (h.inLoop (h.surveyBind (h.nest body ?_) fun body => ?_))
    · exact stmt hkeep body ⟨hbodyPlaces, hbodyRoots⟩ hbody
    · exact h.surveyBind (optional hkeep post ⟨hpostPlaces, hpostRoots⟩ hpost) fun post => h.surveyPure _
  | .ret pos e =>
    unfold Check.stmt
    exact h.retStmt (hplaces pos mem_cons_self) hroots
  | .brk pos =>
    unfold Check.stmt
    exact h.jump _ _ (hplaces pos mem_cons_self)
  | .cont pos =>
    unfold Check.stmt
    exact h.jump _ _ (hplaces pos mem_cons_self)

theorem optional (hkeep : Keeps c R D) (s : Option Stmt) (hs : OptionOver P (Expr.At P) s)
    (hsigns : ∀ p ∈ unsigiledOption s, p ∉ c.signed → D p) : S (Option Stmt) (Check.optional c s) := by
  match s with
  | none => exact h.surveyPure _
  | some s =>
    unfold Check.optional
    exact h.surveyMap _ (h.nest s (stmt hkeep s hs hsigns))

/-- Statements are checked one after another, each in what the ones before it leave. -/
theorem stmts (hkeep : Keeps c R D) (ss : List Stmt) (hss : AllOver P (Expr.At P) ss)
    (hsigns : ∀ p ∈ unsigiledAll ss, p ∉ c.signed → D p) : S (List Stmt) (Check.stmts c ss) := by
  match ss with
  | [] => exact h.surveyPure _
  | s :: rest =>
    obtain ⟨hs, hrest⟩ := forall_mem_append.1 hsigns
    obtain ⟨hplaces, hrestPlaces⟩ := forall_mem_append.1 hss.1
    obtain ⟨hroots, hrestRoots⟩ := forall_mem_append.1 hss.2
    unfold Check.stmts
    refine h.surveyBind (h.settle (stmt hkeep s ⟨hplaces, hroots⟩ hs)) fun s => ?_
    exact h.surveyBind (stmts hkeep rest ⟨hrestPlaces, hrestRoots⟩ hrest) fun rest => h.surveyPure _

end

end StepLaws

namespace StmtLaws

variable {c : Context} {R : (τ α : Type) → Checker τ α → Prop} {S : (α : Type) → Survey α → Prop}

theorem keeps (h : StmtLaws c R S) : StepLaws.Keeps c R fun _ => True :=
  fun x t size mutable byDefault pos init _ => h.keep x t size mutable byDefault pos init

/-- The initial value of the counter is a root. -/
theorem counter (h : StmtLaws c R S) (pos : Position) (init : Option (String × Expr)) :
    R (Option (String × Expr)) (Option (String × Expr)) (counter c pos init) :=
  h.toStepLaws.counter h.keeps (fun _ _ _ _ => trivial) fun _ _ => trivial

/-- By recursion on the statement: each of its roots has been checked as one. -/
theorem stmt (h : StmtLaws c R S) (s : Stmt) : R Stmt Stmt (Check.stmt c s) :=
  h.toStepLaws.stmt h.keeps s ⟨fun _ _ => trivial, fun _ _ _ _ => trivial⟩ fun _ _ _ => trivial

theorem optional (h : StmtLaws c R S) (s : Option Stmt) : S (Option Stmt) (Check.optional c s) :=
  h.toStepLaws.optional h.keeps s ⟨fun _ _ => trivial, fun _ _ _ _ => trivial⟩ fun _ _ _ => trivial

theorem stmts (h : StmtLaws c R S) (ss : List Stmt) : S (List Stmt) (Check.stmts c ss) :=
  h.toStepLaws.stmts h.keeps ss ⟨fun _ _ => trivial, fun _ _ _ _ => trivial⟩ fun _ _ _ => trivial

end StmtLaws

/-! ## Results of checks that report nothing -/

section

variable {τ τ' α β : Type} {P Q : α → Prop} {R : β → Prop}

/-- Wherever a check starts, its errors add up, and if there are none in the end, its value satisfies
`Q`. -/
def Gives (Q : α → Prop) (x : Checker τ α) : Prop :=
  ∀ s, x.Ends s (fun a s' => s.errors <+: s'.errors ∧ (s'.errors = [] → Q a))
    fun _ s' => s.errors <+: s'.errors

/-- The same of a survey. -/
def Collects (Q : α → Prop) (x : Survey α) : Prop :=
  ∀ s, s.errors <+: (x s).2.errors ∧ ((x s).2.errors = [] → Q (x s).1)

namespace Gives

variable {x : Checker τ α} {k : α → Checker τ β}

theorem pure {a : α} (h : Q a) : Gives Q (pure a : Checker τ α) :=
  fun _ => ends_pure ⟨prefix_refl _, fun _ => h⟩

theorem reject {tree : τ} {pos : Position} {e : TypeError} : Gives Q (reject tree pos e : Checker τ α) :=
  fun _ => ends_throw (prefix_refl _)

/-- What is known of the second part may depend on what the first part gives. -/
theorem bind (hx : Gives P x)
    (hk : ∀ a, Gives (fun b => P a → R b) (k a)) : Gives R (x >>= k) := by
  intro s
  refine ends_bind ((hx s).mono ?_ fun _ _ he => he)
  rintro a s' ⟨hle, ha⟩
  refine (hk a s').mono ?_ fun _ _ he => hle.trans he
  rintro b s'' ⟨hle', hb⟩
  exact ⟨hle.trans hle', fun he => hb he (ha (prefix_nil.1 (he ▸ hle')))⟩

/-- After a check that leaves the scope alone. -/
theorem bind_checks (hx : ∀ f, Checks f P x)
    (hk : ∀ a, P a → Gives R (k a)) : Gives R (x >>= k) := by
  intro s
  refine ends_bind ((hx s.frame s rfl).mono ?_ fun _ _ he => he.errors ▸ prefix_refl _)
  rintro a s' ⟨hq, ha⟩
  exact hq.errors ▸ hk a ha s'

/-- After a change of the state that reports nothing. -/
theorem modify_bind {g : Scope → Scope} {k : PUnit → Checker τ β} (hg : ∀ s, (g s).errors = s.errors)
    (hk : Gives R (k ())) : Gives R (modify g >>= k) :=
  fun s => hg s ▸ hk (g s)

/-- After a local has been kept. -/
theorem keep_bind (c : Context) (x : String) (t : Ty) (size : Nat) (mutable byDefault : Bool) (pos : Position)
    (init : Option Expr) {k : Unit → Checker τ β} (hk : Gives R (k ())) :
    Gives R (keep c x t size mutable byDefault pos init >>= k) := by
  intro s
  obtain ⟨s', hkeep, herrors, -⟩ := keep_spec (τ := τ) c x t size mutable byDefault pos init s
  unfold Ends
  rw [bind_of_ok hkeep, ← herrors]
  exact hk s'

theorem within {context : τ → τ'} {x : Checker τ α} (h : Gives Q x) : Gives Q (within context x) :=
  fun s => ends_mapFailure (h s)

theorem map {g : α → β} (h : Gives (fun a => R (g a)) x) : Gives R (g <$> x) :=
  fun s => ends_map (h s)

theorem surveyed {x : Survey α} (h : Collects Q x) : Gives Q (surveyed x : Checker τ α) :=
  h

/-- Opening and closing a scope changes nothing in what is given. -/
theorem inScope {x : Checker τ α} (h : Gives Q x) : Gives Q (inScope x) := by
  intro s
  have hx := h { s with frame := s.frame.enter }
  unfold Ends at hx ⊢
  unfold Check.inScope
  rcases hr : x { s with frame := s.frame.enter } with ⟨r, s'⟩
  rw [hr] at hx
  cases r <;> exact hx

end Gives

namespace Collects

variable {x : Survey α}

theorem pure {a : α} (h : Q a) : Collects Q (pure a : Survey α) :=
  fun _ => ⟨prefix_refl _, fun _ => h⟩

theorem bind {k : α → Survey β} (hx : Collects P x)
    (hk : ∀ a, Collects (fun b => P a → R b) (k a)) : Collects R (x >>= k) := by
  intro s
  obtain ⟨hle, ha⟩ := hx s
  obtain ⟨hle', hb⟩ := hk (x s).1 (x s).2
  exact ⟨hle.trans hle', fun he => hb he (ha (prefix_nil.1 (he ▸ hle')))⟩

theorem map {g : α → β} (h : Collects (fun a => R (g a)) x) : Collects R (g <$> x) :=
  h

/-- A failure is reported, so nothing is promised after one. -/
theorem settle {x : Checker τ τ} {Q : τ → Prop} (h : Gives Q x) : Collects Q (settle x) := by
  intro s
  have hx := h s
  unfold Ends at hx
  unfold Check.settle
  rcases hr : x s with ⟨r, s'⟩
  rw [hr] at hx
  cases r with
  | ok a => exact hx
  | error e => exact ⟨hx.trans (prefix_append _ _), fun he => absurd he (by simp)⟩

theorem enclosed {x : Survey α} (h : Collects Q x) : Collects Q (enclosed x) :=
  fun s => h { s with frame := s.frame.enter }

theorem branch {x : Survey α} (h : Collects Q x) : Collects Q (branch x) :=
  h

theorem inLoop {x : Survey α} (h : Collects Q x) : Collects Q (inLoop x) :=
  fun s => h { s with loops := s.loops + 1 }

theorem nest {st : Stmt} {x : Checker Stmt Stmt} {Q : Stmt → Prop} (h : Gives Q x) :
    Collects Q (nest st x) := by
  unfold Check.nest
  split
  · exact branch (settle h)
  · exact branch (enclosed (settle h))

end Collects

end

/-! ## Statements that report nothing -/

/-- Checks of expressions that satisfy `I` give expressions that satisfy `T`. -/
structure Roots (c : Context) (I T : Expr → Prop) : Prop where
  plain : ∀ {e : Expr}, I e → ∀ {f r}, Result c f e none r → T r.1
  test : ∀ {e : Expr}, I e → ∀ {f r}, Result c f e (some .bool) r → T r.1
  stored : ∀ {e : Expr}, I e → ∀ {f t e'}, Coerced c f t e' e → T e'
  name : ∀ {m : Mark} {x : String}, I (.ident m x) → ∀ t, T ((Expr.ident m x).withTy t)

namespace Roots

variable {c : Context} {I T : Expr → Prop} {D : TypeExpr → Prop} {e : Expr}

theorem condition (h : Roots c I T) (he : I e) (f : Frame) : Checks f T (condition c e) :=
  (checks_condition c f e).mono fun _ ⟨_, he', _⟩ => h.test he he'

theorem inferInt (h : Roots c I T) (he : I e) (bits : Nat) (decl : Position) (f : Frame) :
    Checks f (fun r => T r.1) (inferInt c (part c e) bits decl) := by
  refine (checks_inferInt c f e bits decl).mono fun r hr => ?_
  obtain ⟨signed, -, hcoerced | hresult⟩ := hr
  · exact h.stored he hcoerced
  · exact h.plain he hresult

/-- The initial value of a declaration is a root, whatever its type is taken from. -/
theorem initialised (h : Roots c I T) {init : Option Expr} (hinit : ∀ e ∈ init.toList, I e)
    {declared : Option Ty} {f : Frame} {r : Option Expr × Ty × Bool}
    (hr : Initialised c f init declared r) : ∀ e ∈ r.1.toList, T e := by
  unfold Initialised at hr
  split at hr
  · rw [hr.1]
    exact forall_mem_nil _
  · next e =>
    have he : I e := hinit e mem_cons_self
    obtain ⟨e', hr, hresult | ⟨hcoerced, -⟩⟩ := hr
    · rw [hr]
      exact forall_mem_singleton.2 (h.plain he hresult)
    · rw [hr]
      exact forall_mem_singleton.2 (h.stored he hcoerced)

theorem target (h : Roots c I T) (he : I e) (f : Frame) : Checks f (fun r => T r.1) (target c e) := by
  refine (checks_target c f e).mono fun r hr => ?_
  obtain ⟨-, ⟨m, x, slot, rfl, -, rfl⟩ | hresult⟩ := hr
  · exact h.name he _
  · exact h.plain he hresult

theorem exprStmt (h : Roots c I T) (pos : Position) (he : I e) :
    Gives (Has T D) (exprStmt c pos e) := by
  unfold Check.exprStmt
  refine .bind_checks (fun f => ((checks_expr c f e none).mono fun _ => h.plain he).within) ?_
  rintro ⟨e', t⟩ he'
  have hend : Gives (Has T D) (pure (.expr pos e') : Checker Stmt Stmt) :=
    .pure ⟨forall_mem_singleton.2 he', forall_mem_nil _⟩
  dsimp only
  split
  · refine .modify_bind (fun s => ?_) hend
    split <;> rfl
  · exact hend

theorem assignStmt (h : Roots c I T) (pos : Position) {l r : Expr} (hl : I l) (hr : I r) :
    Gives (Has T D) (assignStmt c pos l r) := by
  unfold Check.assignStmt
  refine .bind_checks (fun f => (h.target hl f).within) fun ⟨l', t⟩ hl' => ?_
  have hvalue := (exprLaws_any c).assigned (lawful_any c r) l' t
  refine .bind_checks (fun f => (hvalue.checks f).within.mono fun _ => h.stored hr) fun r' hr' => ?_
  refine .modify_bind (fun s => ?_) (.pure ⟨?_, forall_mem_nil _⟩)
  · split <;> rfl
  · exact forall_mem_cons.2 ⟨hl', forall_mem_singleton.2 hr'⟩

theorem varDecl (h : Roots c I T) (hD : c.Covers D) (pos : Position) {d : VarDecl}
    (hd : ∀ e ∈ d.init.toList, I e) :
    Gives (fun d' => Has T D (.var pos d')) (varDecl c pos d) := by
  rw [varDecl_eq]
  refine .bind_checks (fun f => (checks_prepare c f pos d).mono fun r hr => ?_) fun r hr =>
    .keep_bind c d.name r.1.2.1 r.2 d.mutable r.1.2.2 pos r.1.1 (.pure hr)
  obtain ⟨-, declared, hinit, hwritten⟩ := hr
  refine ⟨h.initialised hd hinit, ?_⟩
  generalize d.type = type at hwritten ⊢
  cases hwritten with
  | none => exact forall_mem_nil _
  | some ht => exact forall_mem_singleton.2 (hD f _ _ ht)

/-- The value that is returned is a root. -/
theorem retStmt (h : Roots c I T) (pos : Position) {e : Option Expr} (he : ∀ e' ∈ e.toList, I e') :
    Gives (Has T D) (retStmt c pos e) := by
  cases e with
  | none =>
    by_cases hv : c.ret = .void
    · simp only [Check.retStmt, if_pos hv]
      exact .pure ⟨forall_mem_nil _, forall_mem_nil _⟩
    · simp only [Check.retStmt, if_neg hv]
      exact .reject
  | some e =>
    have he : I e := he e mem_cons_self
    unfold Check.retStmt
    have hresult := (exprLaws_any c).result (lawful_any c e)
    refine .bind_checks (P := T) (fun f => (hresult.checks f).within.mono ?_) fun e' he' => ?_
    · rintro e' ⟨-, hcoerced | ⟨-, t, hplain, -⟩⟩
      · exact h.stored he hcoerced
      · exact h.plain he hplain
    · exact .pure ⟨forall_mem_singleton.2 he', forall_mem_nil _⟩

theorem jumpStmt {st : Stmt} (hst : st.Has T D) (what : String) :
    Gives (Has T D) (jumpStmt st what) := by
  unfold Check.jumpStmt
  refine .bind_checks (fun f => Checks.get.mono fun _ _ => trivial) fun s _ => ?_
  split
  · exact .reject
  · exact .pure hst

theorem counter (h : Roots c I T) (pos : Position) {init : Option (String × Expr)}
    (hinit : ∀ e ∈ init.toList.map (·.2), I e) :
    Gives (fun init' => ∀ e ∈ init'.toList.map (·.2), T e) (counter c pos init) := by
  cases init with
  | none => exact .pure (forall_mem_nil _)
  | some xe =>
    obtain ⟨x, e⟩ := xe
    have he : I e := hinit e mem_cons_self
    unfold Check.counter
    refine .bind_checks (fun f => (h.inferInt he 64 pos f).within) ?_
    rintro ⟨e', t, byDefault⟩ he'
    exact .keep_bind c x t 8 true byDefault pos none (.pure (forall_mem_singleton.2 he'))

mutual

/-- By recursion on the statement: each of its roots goes through the checker of expressions. -/
theorem stmt (h : Roots c I T) (hD : c.Covers D) (st : Stmt) (hst : ∀ e ∈ st.roots, I e) :
    Gives (Has T D) (Check.stmt c st) := by
  match st with
  | .block pos body =>
    unfold Check.stmt
    exact .surveyed (.enclosed (.map (stmts h hD body hst)))
  | .expr pos e =>
    unfold Check.stmt
    exact h.exprStmt pos (hst e mem_cons_self)
  | .assign pos l r =>
    unfold Check.stmt
    exact h.assignStmt pos (hst l mem_cons_self) (hst r (by simp [roots]))
  | .var pos d =>
    unfold Check.stmt
    exact .within (.map (h.varDecl hD pos hst))
  | .cond pos test yes no =>
    obtain ⟨htest, hrest⟩ := forall_mem_cons.1 hst
    obtain ⟨hyes, hno⟩ := forall_mem_append.1 hrest
    unfold Check.stmt
    refine .bind_checks (fun f => (h.condition htest f).within) fun test' htest' => ?_
    refine .surveyed (.bind (.nest (stmt h hD yes hyes)) fun yes' => ?_)
    refine .bind (optional h hD no hno) fun no' => .pure fun hno' hyes' => ⟨?_, ?_⟩
    · exact forall_mem_cons.2 ⟨htest', forall_mem_append.2 ⟨hyes'.1, hno'.1⟩⟩
    · exact forall_mem_append.2 ⟨hyes'.2, hno'.2⟩
  | .loop pos init test post body =>
    obtain ⟨hinit, hrest⟩ := forall_mem_append.1 hst
    obtain ⟨htest, hrest⟩ := forall_mem_cons.1 hrest
    obtain ⟨hbody, hpost⟩ := forall_mem_append.1 hrest
    unfold Check.stmt
    refine .inScope (.bind (h.counter pos hinit).within fun init' => ?_)
    refine .bind_checks (fun f => (h.condition htest f).within) fun test' htest' => ?_
    refine .surveyed (.inLoop (.bind (.nest (stmt h hD body hbody)) fun body' => ?_))
    refine .bind (optional h hD post hpost) fun post' => .pure fun hpost' hbody' hinit' => ⟨?_, ?_⟩
    · exact forall_mem_append.2
        ⟨hinit', forall_mem_cons.2 ⟨htest', forall_mem_append.2 ⟨hbody'.1, hpost'.1⟩⟩⟩
    · exact forall_mem_append.2 ⟨hbody'.2, hpost'.2⟩
  | .ret pos e =>
    unfold Check.stmt
    exact h.retStmt pos hst
  | .brk pos =>
    unfold Check.stmt
    exact jumpStmt ⟨forall_mem_nil _, forall_mem_nil _⟩ "break"
  | .cont pos =>
    unfold Check.stmt
    exact jumpStmt ⟨forall_mem_nil _, forall_mem_nil _⟩ "continue"

theorem optional (h : Roots c I T) (hD : c.Covers D) (st : Option Stmt)
    (hst : ∀ e ∈ rootsOfOption st, I e) : Collects (OptionHas T D) (Check.optional c st) := by
  match st with
  | none => exact .pure ⟨forall_mem_nil _, forall_mem_nil _⟩
  | some st =>
    unfold Check.optional
    exact .map (.nest (stmt h hD st hst))

/-- If nothing is reported, some statements are made of checked expressions and of types that have been
resolved. -/
theorem stmts (h : Roots c I T) (hD : c.Covers D) (sts : List Stmt)
    (hsts : ∀ e ∈ rootsOfAll sts, I e) : Collects (AllHave T D) (Check.stmts c sts) := by
  match sts with
  | [] => exact .pure ⟨forall_mem_nil _, forall_mem_nil _⟩
  | st :: sts =>
    obtain ⟨hst, hrest⟩ := forall_mem_append.1 hsts
    unfold Check.stmts
    refine .bind (.settle (stmt h hD st hst)) fun st' => ?_
    refine .bind (stmts h hD sts hrest) fun sts' => .pure fun hsts' hst' => ?_
    exact ⟨forall_mem_append.2 ⟨hst'.1, hsts'.1⟩, forall_mem_append.2 ⟨hst'.2, hsts'.2⟩⟩

end

end Roots

/-- Only a function becomes a function. -/
theorem func_of_definition {d d' : Def} {es : List (Located TypeError)}
    (h : definition t d = some (d', es)) (hf' : d'.body = .func f') : ∃ f, d.body = .func f := by
  cases hbody : d.body with
  | func f => exact ⟨f, rfl⟩
  | _ =>
    simp only [definition, hbody] at h
    cases h
    cases hbody.symm.trans hf'

/-- The body of a function that is accepted. -/
theorem Roots.definition {I T : Expr → Prop} {D : TypeExpr → Prop}
    (h : ∀ c : Context, c.symbols = t → Roots c I T) (hD : ∀ c : Context, c.symbols = t → c.Covers D)
    {d d' : Def} (hd : t.Knows d.name d.body.kind) (hdef : Check.definition t d = some (d', []))
    {f : Func} (hf : d.body = .func f) (hf' : d'.body = .func f')
    (hroots : ∀ e ∈ rootsOfAll f.body, I e) : AllHave T D f'.body := by
  rw [hf] at hd
  obtain ⟨sig, hsig⟩ := Option.isSome_iff_exists.1 hd
  obtain ⟨signed, rfl, herrors⟩ := definition_func hf hsig hdef
  cases hf'
  let c : Context := ⟨t, sig.ret, signed⟩
  exact (((h c rfl).stmts (hD c rfl) f.body hroots).enclosed (.start t sig)).2 herrors.symm

/-! ## Places and types -/

section

variable {c : Context} {P : Position → Prop} {W : TypeExpr → Prop}

theorem roots_fit (hW : c.Covers W) : Roots c (Expr.At P) (Expr.All (Expr.Fit P W)) where
  plain he _ _ h := (outcome_of_result hW he h).fit
  test he _ _ h := (outcome_of_result hW he h).fit
  stored he _ _ _ h := h.result.elim fun _ h => (outcome_of_result hW he h.1).fit
  name he t := Expr.withTy_fit (Expr.all_leaf (Expr.fit_of_pos he.self rfl) rfl) t

/-- What stands in a function that is accepted stands where something was written, and its types can be
resolved. -/
theorem fit_of_definition (hW : ∀ c : Context, c.symbols = t → c.Covers W) {d d' : Def}
    (hd : t.Knows d.name d.body.kind) (hdef : definition t d = some (d', [])) {f : Func}
    (hf : d.body = .func f) (hf' : d'.body = .func f') (hplaces : ∀ e ∈ rootsOfAll f.body, e.At P) :
    AllHave (Expr.All (Expr.Fit P W)) W f'.body :=
  Roots.definition (fun c hc => roots_fit (hW c hc)) hW hd hdef hf hf' hplaces

end

end Sigil.Check
