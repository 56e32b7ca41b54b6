import Sigil.Proofs.Folding.Rewrites
import Sigil.Proofs.Typing.Rules

/-!
# Folding keeps types

A pass leaves the mark of every expression as it is and a place a place, so around a folded expression
nothing changes; and the expression itself stays well typed (`Fold.typed_expr`). Statements stay well
typed under the same locals, also where only a branch of a conditional is kept (`Fold.allTyped_stmts`).
-/

namespace Sigil

open Expr Typing

variable {T : Symbols} {Γ : Env}
variable {e l r : Expr} {m : Mark} {op : BinOp}

/-! ## Rules for changed expressions -/

/-- A rule reads no more of the mark than the type. -/
theorem Typing.Rule.withMark (h : Rule T Γ e) (hm : m.ty = e.ty) :
    Rule T Γ (e.withMark m) := by
  cases h with
  | int h => exact .int (hm.trans h)
  | code h hn => exact .code (hm.trans h) hn
  | bool h => exact .bool (hm.trans h)
  | char h => exact .char (hm.trans h)
  | str h => exact .str (hm.trans h)
  | nil h => exact .nil (hm.trans h)
  | ident hx h => exact .ident hx (hm.trans h)
  | arith hop ht hl hr h => exact .arith hop ht hl hr (hm.trans h)
  | compare hop hl hr hmatch hc ho h => exact .compare hop hl hr hmatch hc ho (hm.trans h)
  | logic hop hl hr h => exact .logic hop hl hr (hm.trans h)
  | neg he h => exact .neg he (hm.trans h)
  | not he h => exact .not he (hm.trans h)
  | addrOf hp he h => exact .addrOf hp he (hm.trans h)
  | deref ht he h => exact .deref ht he (hm.trans h)
  | call hx hs ha h => exact .call hx hs ha (hm.trans h)
  | member he hl hf h => exact .member he hl hf (hm.trans h)
  | index hb hu hi h => exact .index hb hu hi (hm.trans h)
  | structLit hl hf h => exact .structLit hl hf (hm.trans h)
  | arrayLit he h => exact .arrayLit he (hm.trans h)
  | cast hw he hc h => exact .cast hw he hc (hm.trans h)
  | builtin hr ha h => exact .builtin hr ha (hm.trans h)
  | zeroed h => exact .zeroed (hm.trans h)
  | enumLit h => exact .enumLit (hm.trans h)

theorem Expr.Typed.withMark (h : e.Typed T Γ) (hm : m.ty = e.ty) :
    (e.withMark m).Typed T Γ := by
  obtain ⟨⟨hrule, t, ht, hd⟩, hparts⟩ := typed_iff.1 h
  refine typed_iff.2 ⟨⟨hrule.withMark hm, t, ?_, hd⟩, ?_⟩
  · rw [ty_withMark, hm, ht]
  · rwa [children_withMark]

theorem Typing.Fits.of_ty {dst : Ty} {e' : Expr} (h : Fits dst e) (he : e'.ty = e.ty) :
    Fits dst e' :=
  let ⟨t, ht, ha⟩ := h
  ⟨t, he.trans ht, ha⟩

/-- A rule reads no more of the parts than their types, and whether they are places. -/
theorem Typing.Rule.mapChildren (h : Rule T Γ e) {g : Expr → Expr}
    (hty : ∀ c ∈ e.children, (g c).ty = c.ty)
    (hplace : ∀ c ∈ e.children, c.isPlace = true → (g c).isPlace = true) :
    Rule T Γ (e.mapChildren g) := by
  cases h with
  | int h => exact .int h
  | code h hn => exact .code h hn
  | bool h => exact .bool h
  | char h => exact .char h
  | str h => exact .str h
  | nil h => exact .nil h
  | ident hx h => exact .ident hx h
  | arith hop ht hl hr h =>
    exact .arith hop ht ((hty _ left_mem_children).trans hl)
      ((hty _ right_mem_children).trans hr) h
  | compare hop hl hr hmatch hc ho h =>
    exact .compare hop ((hty _ left_mem_children).trans hl)
      ((hty _ right_mem_children).trans hr) hmatch hc ho h
  | logic hop hl hr h =>
    exact .logic hop ((hty _ left_mem_children).trans hl)
      ((hty _ right_mem_children).trans hr) h
  | neg he h => exact .neg ((hty _ (by simp [children])).trans he) h
  | not he h => exact .not ((hty _ (by simp [children])).trans he) h
  | addrOf hp he h =>
    exact .addrOf (hplace _ (by simp [children]) hp)
      ((hty _ (by simp [children])).trans he) h
  | deref ht he h => exact .deref ht ((hty _ (by simp [children])).trans he) h
  | call hx hs ha h =>
    refine .call hx hs (List.forall₂_map_left_iff.2 ?_) h
    exact forall₂_of_mem ha fun a p hmem _ hfits => hfits.of_ty (hty a hmem)
  | member he hl hf h => exact .member ((hty _ (by simp [children])).trans he) hl hf h
  | index hb hu hi h =>
    exact .index ((hty _ (by simp [children])).trans hb) hu
      ((hty _ (by simp [children])).trans hi) h
  | structLit hl hf h =>
    refine .structLit hl (List.forall₂_map_left_iff.2 ?_) h
    exact forall₂_of_mem hf fun a p hmem _ hfits =>
      ⟨hfits.1, hfits.2.of_ty (hty a.2 (List.mem_map.2 ⟨a, hmem, rfl⟩))⟩
  | arrayLit he h =>
    refine .arrayLit ?_ (by rw [List.length_map]; exact h)
    intro e' he'
    obtain ⟨e0, hmem, rfl⟩ := List.mem_map.1 he'
    exact (he e0 hmem).of_ty (hty e0 hmem)
  | cast hw he hc h => exact .cast hw ((hty _ (by simp [children])).trans he) hc h
  | builtin hr ha h =>
    refine .builtin (by rw [List.length_map]; exact hr) (List.forall₂_map_left_iff.2 ?_) h
    refine forall₂_of_mem ha fun a r hmem _ harg => ?_
    obtain ⟨t, ht, hacc⟩ := harg
    exact ⟨t, (hty a hmem).trans ht, hacc⟩
  | zeroed h => exact .zeroed h
  | enumLit h => exact .enumLit h

/-! ## The types of operators -/

theorem Typing.Rule.of_arith (h : Rule T Γ (.binary m op l r))
    (hop : op.isArith = true) :
    ∃ t, t.isOrdered = true ∧ l.ty = some t ∧ r.ty = some t ∧ m.ty = some t := by
  cases h with
  | arith _ ht hl hr h => exact ⟨_, ht, hl, hr, h⟩
  | compare hop' _ _ _ _ _ _ => cases op <;> simp [BinOp.isArith, BinOp.isCompare] at hop hop'
  | logic hop' _ _ _ => rcases hop' with rfl | rfl <;> simp [BinOp.isArith] at hop

theorem Typing.Rule.of_compare
    (h : Rule T Γ (.binary m op l r)) (hop : op.isCompare = true) : m.ty = some .bool := by
  cases h with
  | arith hop' _ _ _ _ => cases op <;> simp [BinOp.isArith, BinOp.isCompare] at hop hop'
  | compare _ _ _ _ _ _ h => exact h
  | logic hop' _ _ _ => rcases hop' with rfl | rfl <;> simp [BinOp.isCompare] at hop

theorem Typing.Rule.of_logic
    (h : Rule T Γ (.binary m op l r)) (hop : op = .and ∨ op = .or) :
    l.ty = some .bool ∧ r.ty = some .bool ∧ m.ty = some .bool := by
  cases h with
  | arith hop' _ _ _ _ => rcases hop with rfl | rfl <;> simp [BinOp.isArith] at hop'
  | compare hop' _ _ _ _ _ _ => rcases hop with rfl | rfl <;> simp [BinOp.isCompare] at hop'
  | logic _ hl hr h => exact ⟨hl, hr, h⟩

/-! ## Expressions -/

namespace Fold

variable {looping : Bool}

theorem typed_boolLit (hm : m.ty = some .bool) (b : Bool) :
    (boolLit m b).Typed T Γ :=
  typed_iff.2 ⟨⟨.bool hm, .bool, hm, trivial⟩, fun _ h => nomatch h⟩

/-- The literal for an integer is well typed. -/
theorem typed_ofValue {t : Ty} (hm : m.ty = some t) (ht : t.isOrdered = true) (v : Int) :
    (ofValue m v t).Typed T Γ := by
  rcases Ty.isOrdered_iff.1 ht with ⟨bits, signed, rfl⟩ | rfl
  · exact typed_iff.2 ⟨⟨.int hm, _, hm, trivial⟩, fun _ h => nomatch h⟩
  · exact typed_iff.2 ⟨⟨.char hm, _, hm, trivial⟩, fun _ h => nomatch h⟩

theorem isOrdered_of_castValue? {t : Ty} {v : Int} (h : castValue? t e = some v) :
    t.isOrdered = true := by
  cases t with
  | int | char => rfl
  | _ => exact nomatch h

theorem isArith_of_combine? {inner op' : BinOp} {c1 c2 c : Int}
    (h : combine? inner op c1 c2 = some (op', c)) :
    inner.isArith = true ∧ op.isArith = true ∧ op'.isArith = true := by
  cases inner <;> cases op <;> cases h <;> exact ⟨rfl, rfl, rfl⟩

theorem isArith_of_swap (h : op = .add ∨ op = .mul) : op.isArith = true := by
  rcases h with rfl | rfl <;> rfl

theorem Rewrites.mark_eq {e' : Expr} (h : Rewrites e e') : e'.mark = e.mark := by
  cases h with
  | neg | cast | arith => exact mark_ofValue _ _ _
  | undecided | neutral => exact mark_withMark _ _
  | _ => rfl

/-- Rewriting keeps an expression typed. -/
theorem Rewrites.typed {e' : Expr} (h : Rewrites e e') (he : e.Typed T Γ) : e'.Typed T Γ := by
  have hrule : Rule T Γ e := he.node.rule
  cases h with
  | neg hm _ =>
    cases hrule with
    | neg _ h =>
      cases hm.symm.trans h
      exact typed_ofValue h rfl _
  | not =>
    cases hrule with
    | not _ h => exact typed_boolLit h _
  | cast hm hv => exact typed_ofValue hm (isOrdered_of_castValue? hv) _
  | decided hop _ => exact typed_boolLit (hrule.of_logic hop).2.2 _
  | undecided hop _ =>
    obtain ⟨-, hr, hm⟩ := hrule.of_logic hop
    exact (he.child right_mem_children).withMark (hm.trans hr.symm)
  | sameBool => exact typed_boolLit (hrule.of_compare rfl) _
  | otherBool => exact typed_boolLit (hrule.of_compare rfl) _
  | compare hop _ _ => exact typed_boolLit (hrule.of_compare hop) _
  | arith hm hop _ _ _ =>
    obtain ⟨t, ht, -, -, hm'⟩ := hrule.of_arith hop
    cases hm.symm.trans hm'
    exact typed_ofValue hm' ht _
  | swap hop _ _ =>
    have harith := isArith_of_swap hop
    obtain ⟨t, ht, hl, hr, hm⟩ := hrule.of_arith harith
    refine typed_iff.2 ⟨⟨.arith harith ht hr hl hm, he.node.ty⟩, fun c hc => ?_⟩
    refine he.child ?_
    simpa [children, or_comm] using hc
  | neutral hop _ _ _ =>
    obtain ⟨t, -, hl, -, hm⟩ := hrule.of_arith hop
    exact (he.child left_mem_children).withMark (hm.trans hl.symm)
  | @reassociate m m' t op inner op' x l r c1 c2 c hm _ _ hc =>
    obtain ⟨hinner, hop, hop'⟩ := isArith_of_combine? hc
    obtain ⟨u, ht, hl, -, hm'⟩ := hrule.of_arith hop
    cases hm.symm.trans hm'
    -- The inner operation and the whole have one type, which is also that of the new literal.
    have hleft : (Expr.binary m' inner x l).Typed T Γ := he.child left_mem_children
    obtain ⟨u, -, hx, -, hu⟩ := hleft.node.rule.of_arith hinner
    cases hl.symm.trans hu
    have hlit : (ofValue ⟨x.pos, some t⟩ c t).Typed T Γ := typed_ofValue rfl ht _
    refine typed_iff.2 ⟨⟨.arith hop' ht hx (by simp [ty]) hm', he.node.ty⟩, ?_⟩
    intro e he
    simp only [children, List.mem_cons, List.not_mem_nil, or_false] at he
    rcases he with rfl | rfl
    · exact hleft.child left_mem_children
    · exact hlit

/-- A pass leaves marks alone. -/
theorem mark_expr (e : Expr) : (expr e).result.mark = e.mark := by
  have hnode : ∀ e, (node e).result.mark = e.mark :=
    fun e => node_cases (P := fun e' => e'.mark = e.mark) rfl fun _ h => h.mark_eq
  rw [result_expr, hnode, mark_mapChildren]

theorem ty_expr (e : Expr) : (expr e).result.ty = e.ty :=
  congrArg Mark.ty (mark_expr e)

/-- An element is a place if its base is an address or a place. -/
theorem isPlace_index (m : Mark) (e i : Expr) :
    (index m e i).isPlace = ((match e.ty with
      | some t => t.isAddress
      | none => false) || e.isPlace) :=
  rfl

/-- A pass leaves a place a place. -/
theorem isPlace_expr (h : e.isPlace = true) : (expr e).result.isPlace = true := by
  induction e using by_children with
  | h e ih =>
    cases e with
    | ident m x => exact h
    | deref m e => rfl
    | member m e x => exact ih e (by simp [children]) h
    | index m e i =>
      -- The base keeps its type.
      change (index m (expr e).result (expr i).result).isPlace = true
      rw [isPlace_index, ty_expr]
      rcases Bool.or_eq_true_iff.1 h with h | h
      · exact Bool.or_eq_true_iff.2 (Or.inl h)
      · exact Bool.or_eq_true_iff.2 (Or.inr (ih e (by simp [children]) h))
    | _ => cases h

/-- An expression whose parts have been folded is as well typed as they are. -/
theorem typed_mapChildren_of (h : e.Typed T Γ)
    (hc : ∀ c ∈ e.children, (expr c).result.Typed T Γ) :
    (e.mapChildren fun c => (expr c).result).Typed T Γ := by
  refine typed_iff.2 ⟨⟨?_, ?_⟩, ?_⟩
  · exact h.node.rule.mapChildren (fun c _ => ty_expr c) fun c _ => isPlace_expr
  · rw [ty, mark_mapChildren]
    exact h.node.ty
  · rw [children_mapChildren]
    intro c hmem
    obtain ⟨c0, hc0, rfl⟩ := List.mem_map.1 hmem
    exact hc c0 hc0

/-- A pass leaves an expression well typed. -/
theorem typed_expr (h : e.Typed T Γ) : (expr e).result.Typed T Γ := by
  induction e using by_children with
  | h e ih =>
    rw [result_expr]
    have hparts := typed_mapChildren_of h fun c hc => ih c hc (h.child hc)
    exact node_cases hparts fun e' hr => hr.typed hparts

theorem typed_mapChildren (h : e.Typed T Γ) :
    (e.mapChildren fun c => (expr c).result).Typed T Γ :=
  typed_mapChildren_of h fun _ hc => typed_expr (h.child hc)

theorem tests_expr (h : e.Tests T Γ) : (expr e).result.Tests T Γ := by
  obtain ⟨he, t, ht, hcond⟩ := h
  exact ⟨typed_expr he, t, (ty_expr e).trans ht, hcond⟩

/-! ## Statements -/

/-- Folding keeps a simple statement typed, and what it declares. -/
theorem simple_stmt {ret : Ty} {s : Stmt} (h : s.Simple T ret looping Γ) :
    (stmt s).result.Simple T ret looping Γ ∧ (stmt s).result.after Γ = s.after Γ := by
  cases h with
  | expr h => exact ⟨.expr (typed_expr h), rfl⟩
  | assign hl hr hp ht hf =>
    exact ⟨.assign (typed_expr hl) (typed_expr hr) (isPlace_expr hp) ((ty_expr _).trans ht)
      (hf.of_ty (ty_expr _)), rfl⟩
  | @var pos d t hd hv ht hi =>
    refine ⟨.var hd hv ht ?_, rfl⟩
    cases hinit : d.init with
    | none => exact fun e he => nomatch he
    | some e =>
      rintro _ ⟨⟩
      obtain ⟨he, hf⟩ := hi e hinit
      exact ⟨typed_expr he, hf.of_ty (ty_expr e)⟩
  | done h => exact ⟨.done h, rfl⟩
  | ret he hv h =>
    refine ⟨.ret (typed_expr he) hv ?_, rfl⟩
    rcases h with h | ⟨hret, t, ht, hint⟩
    · exact Or.inl (h.of_ty (ty_expr _))
    · exact Or.inr ⟨hret, t, (ty_expr _).trans ht, hint⟩
  | brk h => exact ⟨.brk h, rfl⟩
  | cont h => exact ⟨.cont h, rfl⟩

/-- The counter of a loop keeps its type. -/
theorem inside_counter (init : Option (String × Expr)) :
    Stmt.inside Γ (counter init).result = Stmt.inside Γ init := by
  cases init with
  | none => rfl
  | some xe =>
    change Γ.bind xe.1 (expr xe.2).result.ty = Γ.bind xe.1 xe.2.ty
    rw [ty_expr]

mutual

/-- A pass leaves a statement well typed, with the same locals behind it. -/
theorem typed_stmt {ret : Ty} {looping : Bool} {Γ : Env} {s : Stmt} (h : s.Typed T ret looping Γ) :
    (stmt s).result.Typed T ret looping Γ ∧ (stmt s).result.after Γ = s.after Γ := by
  match s with
  | .block pos body =>
    have hbody : Stmt.AllTyped T ret looping Γ body := h
    exact ⟨allTyped_stmts hbody, rfl⟩
  | .cond pos test yes no =>
    obtain ⟨htest, hyes, hno⟩ := h
    have hyes' := (typed_stmt hyes).1
    have hno' := optionTyped_optionStmt (s := no) hno
    rw [result_cond]
    -- The branch that is kept is typed under the same locals, and declares nothing behind it.
    split
    · exact ⟨⟨hyes', trivial⟩, rfl⟩
    · refine ⟨?_, rfl⟩
      cases hn : (optionStmt no).result with
      | none => exact trivial
      | some s =>
        rw [hn] at hno'
        exact ⟨hno', trivial⟩
    · exact ⟨⟨tests_expr htest, hyes', hno'⟩, rfl⟩
  | .loop pos init test post body =>
    obtain ⟨hinit, htest, hbody, hpost⟩ := h
    have hbody' := (typed_stmt hbody).1
    have hpost' := optionTyped_optionStmt (s := post) hpost
    rw [result_loop]
    split
    · exact ⟨trivial, rfl⟩
    · refine ⟨⟨?_, ?_, ?_, ?_⟩, rfl⟩
      · intro x e hxe
        cases init with
        | none => exact nomatch hxe
        | some xe =>
          obtain ⟨y, e0⟩ := xe
          cases hxe
          obtain ⟨he, signed, hty⟩ := hinit _ e0 rfl
          exact ⟨typed_expr he, signed, (ty_expr e0).trans hty⟩
      · rw [inside_counter]
        exact tests_expr htest
      · rw [inside_counter]
        exact hbody'
      · rw [inside_counter]
        exact hpost'
  | .expr _ _ | .assign _ _ _ | .var _ _ | .ret _ _ | .brk _ | .cont _ => exact simple_stmt h

theorem optionTyped_optionStmt {ret : Ty} {looping : Bool} {Γ : Env} {s : Option Stmt}
    (h : Stmt.OptionTyped T ret looping Γ s) :
    Stmt.OptionTyped T ret looping Γ (optionStmt s).result := by
  match s with
  | none => exact trivial
  | some s => exact (typed_stmt (s := s) h).1

/-- A pass leaves statements well typed. -/
theorem allTyped_stmts {ret : Ty} {looping : Bool} {Γ : Env} {sts : List Stmt}
    (h : Stmt.AllTyped T ret looping Γ sts) : Stmt.AllTyped T ret looping Γ (stmts sts).result := by
  match sts with
  | [] => exact trivial
  | s :: rest =>
    -- The rest is typed under the locals behind the first statement, which have not changed.
    obtain ⟨hs, hafter⟩ := typed_stmt h.1
    have hrest := allTyped_stmts h.2
    rw [← hafter] at hrest
    exact ⟨hs, hrest⟩

end

/-- Any number of passes leaves statements well typed. -/
theorem allTyped_iterate {ret : Ty} {sts : List Stmt}
    (h : Stmt.AllTyped T ret looping Γ sts) (n : Nat) :
    Stmt.AllTyped T ret looping Γ (pass^[n] sts) := by
  induction n generalizing sts with
  | zero => exact h
  | succ n ih => exact ih (allTyped_stmts h)

end Fold

end Sigil
