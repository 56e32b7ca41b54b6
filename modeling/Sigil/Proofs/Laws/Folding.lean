import Sigil.Proofs.Folding.Measure

/-!
# What folded trees are made of

A rewrite takes the mark of the node that it replaces, or, for the literal that two others are combined to,
the place of the operand that stays, and it brings in no type. A division by zero is reported at one of the
operands. So a pass keeps what holds of all places and of all types in a tree (`Fold.fit_expr`), and its
errors are at such places (`Fold.errors_passes_at`).
-/

namespace Sigil.Fold

open Expr List Stmt

variable {P : Position → Prop} {W : TypeExpr → Prop} {e e' : Expr}

/-! ## Expressions -/

theorem fit_ofValue {m : Mark} (hm : P m.pos) (v : Int) (t : Ty) : (Expr.ofValue m v t).All (Fit P W) := by
  cases t <;> exact all_leaf (fit_of_pos hm rfl) rfl

/-- A rewrite keeps places, types and names, since it builds from parts and from literals. -/
theorem Rewrites.fit (h : Rewrites e e') (he : e.All (Fit P W)) : e'.All (Fit P W) := by
  have hm := he.self.pos
  cases h with
  | neg | cast | arith => exact fit_ofValue hm _ _
  | not | decided | sameBool | otherBool | compare => exact all_leaf (fit_of_pos hm rfl) rfl
  | undecided => exact withMark_fit (he.child right_mem_children) hm
  | neutral => exact withMark_fit (he.child left_mem_children) hm
  | swap =>
    exact all_two (fit_of_pos hm rfl) rfl (he.child right_mem_children) (he.child left_mem_children)
  | reassociate =>
    have hx := (he.child left_mem_children).child left_mem_children
    refine all_two (fit_of_pos hm rfl) rfl hx (fit_ofValue ?_ _ _)
    exact hx.self.pos

theorem mapChildren_fit (h : e.All (Fit P W)) {g : Expr → Expr} (hg : ∀ k ∈ e.children, (g k).All (Fit P W)) :
    (e.mapChildren g).All (Fit P W) := by
  refine all_many ⟨?_, ?_⟩ (children_mapChildren g e) (forall_mem_map.2 hg)
  · rw [Expr.pos, mark_mapChildren]
    exact h.self.pos
  · rw [type?_mapChildren]
    exact h.self.type

theorem fit_expr (h : e.All (Fit P W)) : (expr e).result.All (Fit P W) := by
  induction e using by_children with
  | h e ih =>
    rw [result_expr]
    have hparts := mapChildren_fit h fun k hk => ih k hk (h.child hk)
    exact node_cases hparts fun e' hr => hr.fit hparts

/-- A fault is found at an operand. -/
theorem pos_of_errors_node {x : Located TypeError} (h : x ∈ (node e).errors) :
    ∃ k ∈ e.children, x.pos = k.pos := by
  have hnode := becomes_node e
  generalize node e = y at hnode h
  cases hnode with
  | keep | change => cases h
  | fault hk => exact ⟨_, hk, congrArg Located.pos (mem_singleton.1 h)⟩

/-- An error of folding is at the place of a node. -/
theorem errors_expr_at (h : e.All (Fit P W)) : ∀ x ∈ (expr e).errors, P x.pos := by
  induction e using by_children with
  | h e ih =>
    rw [errors_expr]
    refine forall_mem_append.2 ⟨fun x hx => ?_, fun x hx => ?_⟩
    · obtain ⟨k, hk, hx⟩ := mem_flatMap.1 hx
      exact ih k hk (h.child hk) x hx
    · obtain ⟨k, hk, hpos⟩ := pos_of_errors_node hx
      have hfolded := mapChildren_fit h fun k hk => fit_expr (h.child hk)
      rw [hpos]
      exact (hfolded.child hk).self.pos

/-! ## Statements -/

theorem declaredOfAll_toList (s : Option Stmt) : declaredOfAll s.toList = declaredOfOption s := by
  cases s with
  | none => rfl
  | some s => exact append_nil _

mutual

/-- A pass keeps locals or drops them with the statement that they are in. -/
theorem declared_stmt (s : Stmt) : (stmt s).result.declared ⊆ s.declared := by
  match s with
  | .block _ body => exact declared_stmts body
  | .expr _ _ | .assign _ _ _ | .ret _ _ | .brk _ | .cont _ | .var _ _ => exact List.Subset.refl _
  | .cond _ _ yes no =>
    have hyes := declared_stmt yes
    have hno := declared_optionStmt no
    rw [result_cond]
    split
    · -- the first branch alone
      exact append_subset.2 ⟨subset_append_of_subset_left _ hyes, nil_subset _⟩
    · -- the other branch alone, in a block
      rw [declared, declaredOfAll_toList]
      exact subset_append_of_subset_right _ hno
    · -- both
      exact append_subset.2
        ⟨subset_append_of_subset_left _ hyes, subset_append_of_subset_right _ hno⟩
  | .loop _ _ _ post body =>
    have hbody := declared_stmt body
    have hpost := declared_optionStmt post
    rw [result_loop]
    split
    · exact nil_subset _
    · exact append_subset.2
        ⟨subset_append_of_subset_left _ hbody, subset_append_of_subset_right _ hpost⟩

theorem declared_optionStmt (s : Option Stmt) :
    declaredOfOption (optionStmt s).result ⊆ declaredOfOption s := by
  match s with
  | none => exact List.Subset.refl _
  | some s => exact declared_stmt s

theorem declared_stmts (sts : List Stmt) : declaredOfAll (stmts sts).result ⊆ declaredOfAll sts := by
  match sts with
  | [] => exact List.Subset.refl _
  | s :: rest =>
    exact append_subset.2 ⟨subset_append_of_subset_left _ (declared_stmt s),
      subset_append_of_subset_right _ (declared_stmts rest)⟩

end

/-! ## Passes -/

variable {body : List Stmt}

theorem fit_pass (h : AllHave (All (Fit P W)) W body) : AllHave (All (Fit P W)) W (pass body) := by
  constructor
  · intro e' he'
    obtain ⟨e, he, rfl⟩ := (follows_stmts body).roots e' he'
    exact fit_expr (h.1 e he)
  · intro type htype
    exact h.2 type (declared_stmts body htype)

theorem fit_iterate (h : AllHave (All (Fit P W)) W body) (n : Nat) :
    AllHave (All (Fit P W)) W (pass^[n] body) := by
  induction n generalizing body with
  | zero => exact h
  | succ n ih => exact ih (fit_pass h)

/-- Passes keep to the places, so all errors of them are there. -/
theorem errors_passes_at (n : Nat) (h : AllHave (All (Fit P W)) W body) :
    ∀ x ∈ (passes n body).errors, P x.pos := by
  induction n generalizing body with
  | zero => exact forall_mem_nil _
  | succ n ih =>
    rw [passes, Folded.errors_bind]
    refine forall_mem_append.2 ⟨fun x hx => ?_, ?_⟩
    · rw [(follows_stmts body).errors] at hx
      obtain ⟨e, he, hx⟩ := mem_flatMap.1 hx
      exact errors_expr_at (h.1 e he) x hx
    · split
      · exact forall_mem_nil _
      · exact ih (fit_pass h)

/-- Definitions are folded one by one, and each error is at a place of its own definition. -/
theorem errors_definitions_at {p : Program}
    (h : ∀ d ∈ p, ∀ f, d.body = .func f → AllHave (All (Fit P W)) W f.body) :
    ∀ x ∈ (definitions p).errors, P x.pos := by
  intro x hx
  rw [(definitions_eq p).2.1] at hx
  obtain ⟨d, hd, hx⟩ := mem_flatMap.1 hx
  unfold definition at hx
  split at hx
  · next f hf =>
    rw [Folded.errors_bind, mem_append] at hx
    exact hx.elim (errors_passes_at maxPasses (h d hd f hf) x) fun hx => absurd hx not_mem_nil
  · exact absurd hx not_mem_nil

end Sigil.Fold
