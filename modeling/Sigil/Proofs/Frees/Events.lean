import Sigil.Proofs.Frees.Declarations
import Sigil.Proofs.Frees.Expressions
import Sigil.Proofs.Laws.Outcomes

/-!
# What a function reads and frees

The events of a function are what it reads and what it frees, in the order of the text, each with the frame at
that point (`Check.events`). The check goes through the text in the same order but for the step of a loop,
which comes after the body.

What a single statement fails for is settled before it changes anything: if it fails for the use of a freed
pointer, the name is in an expression that it reads, and means a local that is freed when the statement starts
(`Check.Explained`). It frees at most the name that it is given (`Check.Performs`).
-/

namespace Sigil.Check

open Attempt

variable {e : Located TypeError}

/-! ## Events -/

/-- What happens at a point of a function, with the frame at that point. -/
inductive Event where
  /-- An expression is read. -/
  | read (e : Expr) (f : Frame)
  /-- A local is given to `@free`. -/
  | free (x : String) (f : Frame)

/-- The expressions that a single statement reads. A name that is assigned is not read. -/
def reads : Stmt → List Expr
  | .expr _ e => [e]
  | .assign _ (.ident _ _) r => [r]
  | .assign _ l r => [l, r]
  | .var _ d => d.init.toList
  | .ret _ e => e.toList
  | _ => []

/-- The names that a single statement frees. -/
def frees : Stmt → List String
  | .expr _ e => e.freed?.toList
  | _ => []

/-- The events of a single statement. -/
def Scope.happens (es : List Expr) (xs : List String) (s : Scope) : List Event :=
  es.map (.read · s.frame) ++ xs.map (.free · s.frame)

/-- The state in which a statement that depends on a condition is checked. -/
def Scope.nested (st : Stmt) (s : Scope) : Scope :=
  match st with
  | .block _ _ => s
  | _ => s.enter

mutual

/-- The events of a statement that is checked in the given state, in the order of the text. What comes after
a faulty condition is not checked. -/
def events (c : Context) : Stmt → Scope → List Event
  | .block _ body, s => eventsOfAll c body s.enter
  | .cond _ test yes no, s =>
    .read test s.frame ::
      match condition c test s with
      | (.ok _, t) => events c yes (t.nested yes) ++ eventsOfOption c no (nest yes (stmt c yes) t).2
      | (.error _, _) => []
  | .loop pos init test post body, s =>
    s.enter.happens (init.toList.map (·.2)) [] ++
      match counter c pos init s.enter with
      | (.ok _, t) =>
        .read test t.frame ::
          match condition c test t with
          | (.ok _, u) =>
            let u := { u with loops := u.loops + 1 }
            eventsOfOption c post (nest body (stmt c body) u).2 ++ events c body (u.nested body)
          | (.error _, _) => []
      | (.error _, _) => []
  | st, s => s.happens (reads st) (frees st)

/-- The events of a statement that may be missing. -/
def eventsOfOption (c : Context) : Option Stmt → Scope → List Event
  | none, _ => []
  | some st, s => events c st (s.nested st)

/-- The events of statements one after another. -/
def eventsOfAll (c : Context) : List Stmt → Scope → List Event
  | [], _ => []
  | st :: rest, s => events c st s ++ eventsOfAll c rest (settle (stmt c st) s).2

end

/-! ## Reports and what is read -/

/-- The complaint that a freed pointer is used is due to what is read: its name occurs there, and means a
local that is freed. -/
def Scope.Explains (s : Scope) (es : List Expr) (e : Located TypeError) : Prop :=
  ∀ x, e.cause.freed? = some x → ∃ r ∈ es, ∃ m slot, Expr.ident m x ∈ r.nodes ∧ m.pos = e.pos ∧
    s.frame.get? x = some slot ∧ slot.offset ∈ s.freed

theorem Scope.explains_of_sober (h : e.cause.freed? = none) (s : Scope)
    (es : List Expr) : s.Explains es e := by
  intro x hx
  rw [h] at hx
  cases hx

theorem Scope.Quiet.explains {s s' : Scope} (h : s.Quiet s') {es : List Expr}
    (he : s'.Explains es e) : s.Explains es e := by
  unfold Scope.Explains at he
  rwa [h.frame, h.freed] at he

section

variable {τ τ' α β : Type} {es : List Expr} {xs : List String}
variable {x : Checker τ α} {k : α → Checker τ β}

/-- A check that leaves the scope alone and fails for a freed pointer only if one is read. -/
def Explained (es : List Expr) (x : Checker τ α) : Prop :=
  ∀ s : Scope, x.Ends s (fun _ s' => s.Quiet s') fun e s' => s.Quiet s' ∧ s.Explains es e.error

theorem explained_bind {Q : α → Prop} (hx : Explained es x)
    (hreturns : Returns Q x) (hk : ∀ a, Q a → Explained es (k a)) : Explained es (x >>= k) := by
  intro s
  refine ends_bind ((hreturns.ends (hx s)).mono ?_ fun _ _ he => he)
  rintro a s' ⟨ha, hq⟩
  refine (hk a ha s').mono (fun _ _ hq' => hq.trans hq') ?_
  rintro e s'' ⟨hq', he⟩
  exact ⟨hq.trans hq', hq.explains he⟩

theorem explained_pass {g : Spoiled τ → Scope → Scope} (hx : Explained es x)
    (hg : ∀ e (s : Scope), s.Quiet (g e s)) :
    Explained es (tryCatch x fun e => do modify (g e); throw e) := by
  intro s
  refine ends_tryCatch ((hx s).mono (fun _ _ hq => hq) ?_)
  rintro e s' ⟨hq, he⟩
  exact ⟨hq.trans (hg e s'), he⟩

theorem explained_demand (c : Context) (tree : τ) (pos : Position) {question : Names → Eval α}
    (hq : ∀ names, names.Sound → (question names).Sober) : Explained es (c.demand tree pos question) := by
  intro s
  unfold Ends
  obtain ⟨t, hquiet, ⟨a, ha⟩ | ⟨e, hsober, he⟩⟩ := c.demand_spec tree pos hq s
  · rw [ha]
    exact hquiet
  · rw [he]
    exact ⟨hquiet, s.explains_of_sober hsober es⟩

theorem explained_value? (c : Context) (e : Expr) :
    Explained es (c.value? e : Checker τ (Option Constant)) := by
  intro s
  obtain ⟨v, t, hv, hquiet⟩ := c.value?_spec (τ := τ) e s
  unfold Ends
  rw [hv]
  exact hquiet

/-- Only the name rule looks at what is freed. -/
theorem exprLaws_explained (c : Context) (es : List Expr) :
    ExprLaws c (fun _ => True) fun _ _ => Explained es where
  pure _ s := .refl s
  reject _ _ _ _ he s := ⟨.refl s, s.explains_of_sober he es⟩
  bind := explained_bind
  within _ _ hx s := ends_mapFailure (hx s)
  look _ hk s := hk s s
  demand tree pos _ _ hq := explained_demand c tree pos hq
  value? e := explained_value? c e
  note hg s := (hg s).toQuiet
  pass hx hg := explained_pass hx fun e s => (hg e s).toQuiet

/-- A local is refused only if it is freed. -/
theorem explained_identRule (c : Context) {e : Expr} (he : e ∈ es) (m : Mark) (x : String)
    (hx : .ident m x ∈ e.nodes) (hint : Option Ty) : Explained es (identRule c m x hint) := by
  intro s
  cases hslot : s.frame.get? x with
  | some slot =>
    -- the one place where the use of a freed pointer is reported
    unfold Ends
    rw [identRule_of_local hslot]
    by_cases hfreed : slot.offset ∈ s.freed
    · rw [if_pos hfreed]
      refine ⟨.refl s, fun y hy => ?_⟩
      obtain rfl := Option.some.inj hy
      exact ⟨e, he, m, slot, hx, rfl, hslot, hfreed⟩
    · rw [if_neg hfreed]
      exact .refl s
  | none =>
    have hglobal := ((exprLaws_explained c es).globalRule (m := m) trivial x hint).holds s
    unfold Ends at hglobal ⊢
    rw [identRule_of_global hslot]
    exact hglobal

/-! ## Single statements -/

theorem lawful_explained (c : Context) {e : Expr} (he : e ∈ es) :
    Lawful c (fun _ => True) (fun _ _ => Explained es) e :=
  (exprLaws_explained c es).lawful (fun _ _ => trivial) (explained_identRule c he)

/-- Nothing is reported, and of the locals at most those with the given names are freed. -/
structure Scope.Frees (xs : List String) (s s' : Scope) : Prop where
  errors : s'.errors = s.errors
  freed : ∀ o ∈ s'.freed, o ∈ s.freed ∨ ∃ x ∈ xs, ∃ slot, s.frame.get? x = some slot ∧ slot.offset = o

/-- A check that reads the given expressions and frees at most the given names. -/
def Performs (es : List Expr) (xs : List String) (x : Checker τ α) : Prop :=
  ∀ s : Scope, x.Ends s (fun _ s' => s.Frees xs s') fun e s' => s.Frees xs s' ∧ s.Explains es e.error

theorem Scope.Quiet.frees {s s' : Scope} (h : s.Quiet s') : s.Frees xs s' :=
  ⟨h.errors, fun _ ho => Or.inl (h.freed ▸ ho)⟩

theorem Scope.Quiet.frees_of_frees {s s' s'' : Scope} (h : s.Quiet s') (h' : s'.Frees xs s'') :
    s.Frees xs s'' := by
  obtain ⟨herrors, hfreed⟩ := h'
  rw [h.errors] at herrors
  rw [h.frame, h.freed] at hfreed
  exact ⟨herrors, hfreed⟩

theorem Explained.performs (h : Explained es x) : Performs es xs x := by
  intro s
  refine (h s).mono (fun _ _ hq => hq.frees) ?_
  rintro e s' ⟨hq, he⟩
  exact ⟨hq.frees, he⟩

theorem performs_within {context : τ → τ'} (h : Performs es xs x) :
    Performs es xs (within context x) :=
  fun s => ends_mapFailure (h s)

theorem performs_map {g : α → β} (h : Performs es xs x) : Performs es xs (g <$> x) :=
  fun s => ends_map (h s)

/-- After a check that leaves the scope alone. -/
theorem performs_bind (hx : Explained es x)
    (hk : ∀ s a s', x s = (.ok a, s') → Performs es xs (k a)) : Performs es xs (x >>= k) := by
  intro s
  have hfirst := hx s
  unfold Ends at hfirst ⊢
  rcases hr : x s with ⟨r, s'⟩
  rw [hr] at hfirst
  cases r with
  | ok a =>
    rw [bind_of_ok hr]
    exact (hk s a s' hr s').mono (fun _ _ h => hfirst.frees_of_frees h) fun _ _ h =>
      ⟨hfirst.frees_of_frees h.1, hfirst.explains h.2⟩
  | error e =>
    rw [bind_of_error hr]
    exact ⟨hfirst.1.frees, hfirst.2⟩

theorem performs_modify {g : Scope → Scope} (hg : ∀ s : Scope, s.Frees xs (g s)) (a : α) :
    Performs es xs (modify g >>= fun _ => pure a : Checker τ α) :=
  hg

/-- A local that is declared is not freed. -/
theorem performs_keep (c : Context) (x : String) (t : Ty) (size : Nat) (mutable byDefault : Bool)
    (pos : Position) (init : Option Expr) (a : α) :
    Performs es xs (keep c x t size mutable byDefault pos init >>= fun _ => pure a : Checker τ α) := by
  intro s
  obtain ⟨s', hkeep, herrors, hfreed⟩ := keep_spec (τ := τ) c x t size mutable byDefault pos init s
  unfold Ends
  rw [bind_of_ok hkeep]
  exact ⟨herrors, fun o ho => Or.inl (hfreed ▸ ho)⟩

variable {c : Context}

theorem performs_condition (e : Expr) : Performs [e] [] (condition c e) :=
  ((exprLaws_explained c [e]).condition (lawful_explained c List.mem_cons_self)).holds.performs

/-- An expression is read, and a local is freed if it is given to `@free`. -/
theorem performs_exprStmt (pos : Position) (e : Expr) :
    Performs [e] e.freed?.toList (exprStmt c pos e) := by
  have hread : Explained [e] (expr c e none) := (lawful_explained c List.mem_cons_self none).holds
  unfold exprStmt
  refine performs_bind ((exprLaws_explained c [e]).within _ hread) fun s a s' ha => ?_
  dsimp only
  split
  · next m p rest heq =>
    refine performs_modify (fun u => ?_) _
    -- if a name has been checked to be freed here, it is the one in the text
    have hfreed := returns_within (freed?_of_expr e) s a s' ha
    rw [heq] at hfreed
    split
    · next o ho =>
      obtain ⟨m', x, slot, rfl, hslot, rfl⟩ := Scope.offset?_eq_some ho
      refine ⟨rfl, List.forall_mem_cons.2 ⟨Or.inr ⟨x, ?_, slot, hslot, rfl⟩, fun _ => Or.inl⟩⟩
      exact Option.mem_toList.2 (hfreed x rfl)
    · exact (Scope.Quiet.refl u).frees
  · exact ((exprLaws_explained c [e]).pure _).performs

/-- The value is read and, if the target is more than a name, the target. -/
theorem performs_assignStmt (pos : Position) (l r : Expr) :
    Performs (reads (.assign pos l r)) [] (assignStmt c pos l r) := by
  have hl : (∀ m x, l ≠ .ident m x) → l ∈ reads (.assign pos l r) := by
    intro hbare
    cases l with
    | ident m x => exact absurd rfl (hbare m x)
    | _ => exact List.mem_cons_self
  have hr : r ∈ reads (.assign pos l r) := by
    cases l <;> simp [reads]
  have hlaws := exprLaws_explained c (reads (.assign pos l r))
  unfold assignStmt
  have htarget := hlaws.target trivial fun hbare => lawful_explained c (hl hbare)
  refine performs_bind (hlaws.within _ htarget.holds) fun _ l' _ _ => ?_
  have hassigned := hlaws.assigned (lawful_explained c hr) l'.1 l'.2
  refine performs_bind (hlaws.within _ hassigned.holds) fun _ r' _ _ => ?_
  refine performs_modify (fun u => ?_) _
  split
  · exact ⟨rfl, fun o ho => Or.inl (List.mem_filter.1 ho).1⟩
  · exact (Scope.Quiet.refl u).frees

theorem performs_varDecl (pos : Position) (d : VarDecl) :
    Performs d.init.toList [] (varDecl c pos d) := by
  have hprepare := (exprLaws_explained c d.init.toList).prepare pos trivial fun e he =>
    lawful_explained c (Option.mem_toList.2 he)
  rw [varDecl_eq]
  exact performs_bind hprepare.holds fun _ r _ _ => performs_keep c _ _ _ _ _ pos _ _

/-- The value is read. -/
theorem performs_retStmt (pos : Position) (e : Option Expr) :
    Performs e.toList [] (retStmt c pos e) := by
  have hlaws := exprLaws_explained c e.toList
  cases e with
  | none =>
    refine Explained.performs ?_
    by_cases hv : c.ret = .void
    · simp only [retStmt, if_pos hv]
      exact hlaws.pure _
    · simp only [retStmt, if_neg hv]
      exact hlaws.reject _ trivial rfl
  | some e =>
    unfold retStmt
    have hresult := hlaws.result (lawful_explained c List.mem_cons_self)
    exact performs_bind (hlaws.within _ hresult.holds) fun _ e' _ _ => (hlaws.pure _).performs

theorem performs_jumpStmt (st : Stmt) (what : String) : Performs [] [] (jumpStmt st what) := by
  intro s
  unfold Ends jumpStmt
  rw [bind_of_ok (get_apply s)]
  by_cases hloops : s.loops = 0
  · rw [if_pos hloops]
    exact ⟨(Scope.Quiet.refl s).frees, s.explains_of_sober rfl []⟩
  · rw [if_neg hloops]
    exact (Scope.Quiet.refl s).frees

/-- The initial value is read. -/
theorem performs_counter (pos : Position) (init : Option (String × Expr)) :
    Performs (init.toList.map (·.2)) [] (counter c pos init) := by
  have hlaws := exprLaws_explained c (init.toList.map (·.2))
  cases init with
  | none => exact (hlaws.pure _).performs
  | some init =>
    unfold counter
    have hinfer := hlaws.inferInt (lawful_explained c List.mem_cons_self) 64 pos
    refine performs_bind (hlaws.within _ hinfer.holds) fun _ r _ _ => ?_
    exact performs_keep c init.1 r.2.1 8 true r.2.2 pos none _

end

end Sigil.Check
