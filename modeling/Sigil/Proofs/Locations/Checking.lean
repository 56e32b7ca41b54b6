import Sigil.Proofs.Laws.Statements

/-!
# Places of errors in trees that are checked

Checking makes new nodes, for constants, sizes and enum variants, for the characters of a text and for
structs behind pointers. It places each of them where the expression is that it stands for. So whatever holds
of all places of a tree holds of the places of the errors that are found in it (`Check.errors_definitions_at`).
-/

namespace Sigil.Check

open Attempt

variable {P : Position → Prop} {τ τ' α β : Type}
variable {x : Checker τ α} {es : List (Located TypeError)}

/-! ## Reports -/

/-- All that has been reported between the two states is at places with the property. -/
def Scope.Adds (P : Position → Prop) (s s' : Scope) : Prop :=
  ∃ es, s'.errors = s.errors ++ es ∧ ∀ e ∈ es, P e.pos

namespace Scope

variable {s s' s'' : Scope}

theorem adds_of_eq (h : s'.errors = s.errors) : s.Adds P s' :=
  ⟨[], by rw [h, List.append_nil], List.forall_mem_nil _⟩

theorem Quiet.adds (h : s.Quiet s') : s.Adds P s' :=
  adds_of_eq h.errors

theorem Adds.trans (h : s.Adds P s') (h' : s'.Adds P s'') : s.Adds P s'' := by
  obtain ⟨es, heq, hes⟩ := h
  obtain ⟨es', heq', hes'⟩ := h'
  exact ⟨es ++ es', by rw [heq', heq, List.append_assoc], List.forall_mem_append.2 ⟨hes, hes'⟩⟩

end Scope

/-- The check reports at places with the property only, and a failure is at such a place. -/
def Files (P : Position → Prop) (x : Checker τ α) : Prop :=
  ∀ s : Scope, x.Ends s (fun _ s' => s.Adds P s') fun spoiled s' => s.Adds P s' ∧ P spoiled.error.pos

theorem files_bind {Q : α → Prop} {k : α → Checker τ β} (hx : Files P x)
    (hreturns : Returns Q x) (hk : ∀ a, Q a → Files P (k a)) : Files P (x >>= k) := by
  intro s
  refine ends_bind ((hreturns.ends (hx s)).mono ?_ fun _ _ he => he)
  rintro a s' ⟨ha, hs⟩
  exact (hk a ha s').mono (fun _ _ hs' => hs.trans hs') fun _ _ he => ⟨hs.trans he.1, he.2⟩

theorem files_pass {g : Spoiled τ → Scope → Scope} (hx : Files P x)
    (hg : ∀ e (s : Scope), s.Quiet (g e s)) : Files P (tryCatch x fun e => do modify (g e); throw e) := by
  intro s
  refine ends_tryCatch ((hx s).mono (fun _ _ hs => hs) ?_)
  rintro e s' ⟨hs, hpos⟩
  exact ⟨hs.trans (hg e s').adds, hpos⟩

theorem files_demand (c : Context) (tree : τ) {pos : Position} (hpos : P pos) {question : Names → Eval α}
    (hq : ∀ names, names.Sound → (question names).Sober) : Files P (c.demand tree pos question) := by
  intro s
  unfold Ends
  obtain ⟨t, hquiet, ⟨a, ha⟩ | ⟨e, -, he⟩⟩ := c.demand_spec tree pos hq s
  · rw [ha]
    exact hquiet.adds
  · rw [he]
    exact ⟨hquiet.adds, hpos⟩

/-- All steps of checking expressions report at the given places. -/
theorem exprLaws_files (c : Context) (P : Position → Prop) :
    ExprLaws c P fun _ _ => Files P where
  pure _ s := (Scope.Quiet.refl s).adds
  reject _ _ _ hpos _ s := ⟨(Scope.Quiet.refl s).adds, hpos⟩
  bind := files_bind
  within _ _ hx s := ends_mapFailure (hx s)
  look _ hk s := hk s s
  demand tree _ _ hpos hq := files_demand c tree hpos hq
  value? e s := by
    obtain ⟨v, t, hv, hquiet⟩ := c.value?_spec e s
    unfold Ends
    rw [hv]
    exact hquiet.adds
  note hg s := (hg s).toQuiet.adds
  pass hx hg := files_pass hx fun e s => (hg e s).toQuiet

theorem files_identRule (c : Context) {m : Mark} (hm : P m.pos) (x : String) (hint : Option Ty) :
    Files P (identRule c m x hint) := by
  intro s
  unfold Ends
  cases hslot : s.frame.get? x with
  | some slot =>
    rw [identRule_of_local hslot]
    by_cases hfreed : slot.offset ∈ s.freed
    · rw [if_pos hfreed]
      exact ⟨(Scope.Quiet.refl s).adds, hm⟩
    · rw [if_neg hfreed]
      exact (Scope.Quiet.refl s).adds
  | none =>
    rw [identRule_of_global hslot]
    exact ((exprLaws_files c P).globalRule hm x hint).holds s

/-! ## Statements -/

theorem files_inScope (hx : Files P x) : Files P (inScope x) := by
  intro s
  have hs := hx { s with frame := s.frame.enter }
  unfold Ends at hs ⊢
  unfold inScope
  rcases hr : x { s with frame := s.frame.enter } with ⟨r, s'⟩
  rw [hr] at hs
  cases r <;> exact hs

/-- A failure is reported where it is. -/
theorem adds_settle {x : Checker τ τ} (hx : Files P x) (s : Scope) : s.Adds P (settle x s).2 := by
  have hs := hx s
  unfold Ends at hs
  unfold settle
  rcases hr : x s with ⟨r, s'⟩
  rw [hr] at hs
  cases r with
  | ok a => exact hs
  | error spoiled => exact hs.1.trans ⟨[spoiled.error], rfl, List.forall_mem_singleton.2 hs.2⟩

/-- So do all steps of checking statements. -/
theorem stepLaws_files (c : Context) (P : Position → Prop) :
    StepLaws c P (fun _ _ => Files P) fun _ x => ∀ s : Scope, s.Adds P (x s).2 where
  toExprLaws := exprLaws_files c P
  ident _ x hint hpos := files_identRule c hpos x hint
  free p s := by
    refine Scope.adds_of_eq ?_
    change (s.free p).errors = s.errors
    unfold Scope.free
    split <;> rfl
  regain l s := by
    refine Scope.adds_of_eq ?_
    change (s.regain l).errors = s.errors
    unfold Scope.regain
    split <;> rfl
  jump st what hpos s := by
    unfold Ends jumpStmt
    rw [bind_of_ok (get_apply s)]
    by_cases hloops : s.loops = 0
    · rw [if_pos hloops]
      exact ⟨(Scope.Quiet.refl s).adds, hpos⟩
    · rw [if_neg hloops]
      exact (Scope.Quiet.refl s).adds
  surveyed hx := hx
  inScope := files_inScope
  surveyPure _ s := (Scope.Quiet.refl s).adds
  surveyBind hx hk s := (hx s).trans (hk _ _)
  settle := adds_settle
  enclosed hx s := hx { s with frame := s.frame.enter }
  branch hx := hx
  inLoop hx s := hx { s with loops := s.loops + 1 }

theorem keeps_files (c : Context) (P : Position → Prop) :
    StepLaws.Keeps c (fun _ _ => Files P) fun _ => True := by
  intro τ x t size mutable byDefault pos init _ s
  obtain ⟨v, s', hkeep, hquiet⟩ := keep_eq (τ := τ) c x t size mutable byDefault pos init s
  unfold Ends
  rw [hkeep]
  refine Scope.adds_of_eq ?_
  have herrors : s'.errors = s.errors := hquiet.errors.trans (by cases byDefault <;> rfl)
  cases v <;> exact herrors

/-! ## Definitions -/

variable {t : Symbols}

theorem errors_pass_at (t : Symbols) (sig : Signature) (signed : List Position) {body : List Stmt}
    (h : Stmt.AllOver P (Expr.At P) body) : ∀ e ∈ (pass t sig signed body).2.errors, P e.pos := by
  have hlaws := stepLaws_files ⟨t, sig.ret, signed⟩ P
  have hbody := hlaws.stmts (keeps_files _ P) body h fun _ _ _ => trivial
  obtain ⟨es, heq, hes⟩ := hlaws.enclosed hbody (.start t sig)
  have herrors : (pass t sig signed body).2.errors = es := heq
  exact herrors ▸ hes

/-- The passes over a function report at its places. -/
theorem errors_definition_at {d d' : Def}
    (hd : ∀ f, d.body = .func f → Stmt.AllOver P (Expr.At P) f.body) (h : definition t d = some (d', es)) :
    ∀ e ∈ es, P e.pos := by
  cases hbody : d.body with
  | func f =>
    cases hsig : t.funcs.get? d.name with
    | some sig =>
      obtain ⟨signed, -, rfl⟩ := definition_func hbody hsig h
      exact errors_pass_at t sig signed (hd f hbody)
    | none =>
      simp only [definition, hbody, hsig] at h
      cases h
      exact List.forall_mem_nil _
  | _ =>
    simp only [definition, hbody] at h
    cases h
    exact List.forall_mem_nil _

theorem errors_definitions_at {p p' : Program}
    (hp : ∀ d ∈ p, ∀ f, d.body = .func f → Stmt.AllOver P (Expr.At P) f.body)
    (h : definitions t p = some (p', es)) : ∀ e ∈ es, P e.pos := by
  induction p generalizing p' es with
  | nil =>
    cases h
    exact List.forall_mem_nil _
  | cons d ds ih =>
    obtain ⟨hd, hds⟩ := List.forall_mem_cons.1 hp
    obtain ⟨⟨d', es1⟩, hdef, h⟩ := Option.bind_eq_some_iff.1 h
    obtain ⟨⟨ds', es2⟩, hrest, h⟩ := Option.bind_eq_some_iff.1 h
    cases h
    exact List.forall_mem_append.2 ⟨errors_definition_at hd hdef, ih hds hrest⟩

end Sigil.Check
