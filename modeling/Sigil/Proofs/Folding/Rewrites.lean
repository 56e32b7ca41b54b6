import Mathlib.Algebra.Ring.Nat
import Mathlib.Logic.Function.Iterate
import Sigil.Fold.Program
import Sigil.Proofs.Typing.Nodes

/-!
# What folding does to an expression

A pass folds the parts of an expression and then the node itself (`Fold.expr_eq`). What it does to a node
is one of a few rewrites (`Fold.Rewrites`), unless the node is left as it is, for one of two reasons
(`Fold.Becomes`). All that is known about folding expressions follows from these facts. Of statements, a
pass changes only conditionals and loops whose condition is known (`Fold.result_cond`, `Fold.result_loop`).
-/

namespace Sigil

open Expr Folded

@[simp] theorem Folded.result_map {α β : Type} (f : α → β) (x : Folded α) :
    (f <$> x).result = f x.result := rfl

/-- The truth value that a literal stands for. -/
def Expr.bool? : Expr → Option Bool
  | .boolLit _ b => some b
  | _ => none

namespace Fold

variable {op : BinOp} {m : Mark} {t : Ty} {e l r : Expr}

/-- No rule makes a literal of the node as long as the same parts of it are known, and it does not divide
by zero. -/
def Lasting : Expr → Prop
  | .unary _ .neg e => e.value? = none
  | .unary _ .not e => e.bool? = none
  | .cast m _ e => ∀ t ∈ m.ty, castValue? t e = none
  | .binary _ op l r =>
    (op = .and ∨ op = .or → l.bool? = none) ∧
      (op = .eq ∨ op = .ne → l.bool? = none ∨ r.bool? = none) ∧
      (op ≠ .and ∧ op ≠ .or → l.value? = none ∨ r.value? = none) ∧
      (divides op = true → r.value? ≠ some 0)
  | _ => True

/-- The rewrites of a single node. -/
inductive Rewrites : Expr → Expr → Prop where
  | neg {m : Mark} {t : Ty} {e : Expr} {v : Int} (hm : m.ty = some t) (hv : e.value? = some v) :
    Rewrites (.unary m .neg e) (.ofValue m (-v) t)
  | not {m m' : Mark} {b : Bool} : Rewrites (.unary m .not (.boolLit m' b)) (.boolLit m !b)
  | cast {m : Mark} {t : Ty} {type : TypeExpr} {e : Expr} {v : Int} (hm : m.ty = some t)
    (hv : castValue? t e = some v) : Rewrites (.cast m type e) (.ofValue m v t)
  /-- The left operand decides. -/
  | decided {m m' : Mark} {op : BinOp} {a : Bool} {r : Expr} (hop : op = .and ∨ op = .or)
    (ha : a = (op == .or)) : Rewrites (.binary m op (.boolLit m' a) r) (.boolLit m a)
  /-- The left operand is known and leaves it to the right one. -/
  | undecided {m m' : Mark} {op : BinOp} {a : Bool} {r : Expr} (hop : op = .and ∨ op = .or)
    (ha : a ≠ (op == .or)) : Rewrites (.binary m op (.boolLit m' a) r) (r.withMark m)
  | sameBool {m m1 m2 : Mark} {a b : Bool} :
    Rewrites (.binary m .eq (.boolLit m1 a) (.boolLit m2 b)) (.boolLit m (a == b))
  | otherBool {m m1 m2 : Mark} {a b : Bool} :
    Rewrites (.binary m .ne (.boolLit m1 a) (.boolLit m2 b)) (.boolLit m (a != b))
  | compare {m : Mark} {op : BinOp} {l r : Expr} {a b : Int} (hop : op.isCompare = true)
    (ha : l.value? = some a) (hb : r.value? = some b) :
    Rewrites (.binary m op l r) (.boolLit m (compare op a b))
  | arith {m : Mark} {t : Ty} {op : BinOp} {l r : Expr} {a b : Int} (hm : m.ty = some t)
    (hop : op.isArith = true) (ha : l.value? = some a) (hb : r.value? = some b)
    (hzero : divides op = true → b ≠ 0) :
    Rewrites (.binary m op l r) (.ofValue m (arith op a b) t)
  /-- A literal moves to the right. -/
  | swap {m : Mark} {op : BinOp} {l r : Expr} {a : Int} (hop : op = .add ∨ op = .mul)
    (ha : l.value? = some a) (hr : r.value? = none) :
    Rewrites (.binary m op l r) (.binary m op r l)
  | neutral {m : Mark} {op : BinOp} {l r : Expr} {c : Int} (hop : op.isArith = true)
    (hl : l.value? = none) (hc : r.value? = some c) (hn : isNeutral op c = true) :
    Rewrites (.binary m op l r) (l.withMark m)
  /-- The literals of nested operations are combined. -/
  | reassociate {m m' : Mark} {t : Ty} {op inner op' : BinOp} {x l r : Expr} {c1 c2 c : Int}
    (hm : m.ty = some t) (h1 : l.value? = some c1) (h2 : r.value? = some c2)
    (hc : combine? inner op c1 c2 = some (op', c)) :
    Rewrites (.binary m op (.binary m' inner x l) r)
      (.binary m op' x (.ofValue ⟨x.pos, some t⟩ c t))

/-- What becomes of a node whose parts have been folded. -/
inductive Becomes (e : Expr) : Folded Expr → Prop where
  /-- No rule applies, if only for want of a type. -/
  | keep (h : ∀ t, e.ty = some t → Lasting e) : Becomes e (.keep e)
  /-- It divides by zero. -/
  | fault {k : Expr} (hk : k ∈ e.children) (h : ¬ Lasting e) :
    Becomes e (.fault e k.pos .divisionByZero)
  | change {e' : Expr} (h : Rewrites e e') : Becomes e (.change e')

theorem bool?_of_value? {v : Int} (h : e.value? = some v) : e.bool? = none := by
  cases e with
  | boolLit => cases h
  | _ => rfl

/-- A literal decides, or leaves the other operand. -/
theorem becomes_logic (m : Mark) (hop : op = .and ∨ op = .or) (l r : Expr) :
    Becomes (.binary m op l r) (logic m op l r) := by
  unfold logic
  split
  · next m' a =>
    by_cases ha : a = (op == .or)
    · simp only [beq_iff_eq.2 ha, if_true]
      exact .change (.decided hop ha)
    · simp only [show (a == (op == .or)) = false from beq_eq_false_iff_ne.2 ha]
      exact .change (.undecided hop ha)
  · next hlit =>
    have hbool : l.bool? = none := by
      cases l with
      | boolLit m' b => exact absurd rfl (hlit m' b)
      | _ => rfl
    refine .keep fun _ _ => ⟨fun _ => hbool, fun _ => Or.inl hbool, ?_, ?_⟩
    · rintro ⟨hand, hor⟩
      exact (hop.elim hand hor).elim
    · rcases hop with rfl | rfl <;> rintro ⟨⟩

/-- Two literals are combined. -/
theorem becomes_known (hm : m.ty = some t) (hop : op ≠ .and ∧ op ≠ .or) {a b : Int}
    (ha : l.value? = some a) (hb : r.value? = some b) :
    Becomes (.binary m op l r) (known m t (.binary m op l r) op r a b) := by
  unfold known
  split
  · next hcompare => exact .change (.compare hcompare ha hb)
  · next hcompare =>
    have harith : op.isArith = true := by
      cases op <;> simp_all [BinOp.isArith, BinOp.isCompare]
    split
    · next hzero =>
      rw [Bool.and_eq_true, beq_iff_eq] at hzero
      exact .fault right_mem_children fun h => h.2.2.2 hzero.1 (hzero.2 ▸ hb)
    · next hzero =>
      refine .change (.arith hm harith ha hb fun hdiv hb0 => hzero ?_)
      simp [hdiv, hb0]

/-- An arithmetic operation with an operand that is not known, and that does not divide by zero. -/
theorem lasting_arith (hop : op.isArith = true) (hl : l.value? = none ∨ r.value? = none)
    (hzero : divides op = true → r.value? ≠ some 0) : Lasting (.binary m op l r) := by
  refine ⟨?_, ?_, fun _ => hl, hzero⟩
  · rintro (rfl | rfl) <;> cases hop
  · rintro (rfl | rfl) <;> cases hop

/-- A literal on the right may be neutral, absorbing, or joined with another one. -/
theorem becomes_literalRight (hm : m.ty = some t) (hop : op.isArith = true) {c : Int}
    (hl : l.value? = none) (hc : r.value? = some c) :
    Becomes (.binary m op l r) (literalRight m t (.binary m op l r) op l c) := by
  unfold literalRight
  split
  · next hn => exact .change (.neutral hop hl hc hn)
  · split
    · next hzero =>
      rw [Bool.and_eq_true, beq_iff_eq] at hzero
      exact .fault left_mem_children fun h => h.2.2.2 hzero.1 (hzero.2 ▸ hc)
    · next hzero =>
      have hkeep : Becomes (.binary m op l r) (.keep (.binary m op l r)) := by
        refine .keep fun _ _ => lasting_arith hop (Or.inl hl) fun hdiv hr0 => ?_
        simp [hdiv, Option.some.inj (hc.symm.trans hr0)] at hzero
      unfold reassociate
      split
      · split
        · next c1 h1 =>
          split
          · next op' c' hcomb => exact .change (.reassociate hm h1 hc hcomb)
          · exact hkeep
        · exact hkeep
      · exact hkeep

/-- By which of the operands are literals. -/
theorem becomes_operation (hm : m.ty = some t) (hop : op ≠ .and ∧ op ≠ .or) (l r : Expr) :
    Becomes (.binary m op l r) (operation m t op l r) := by
  have hkeep : (op = .eq ∨ op = .ne → l.bool? = none ∨ r.bool? = none) →
      (l.value? = none ∨ r.value? = none) → (divides op = true → r.value? ≠ some 0) →
      Becomes (.binary m op l r) (.keep (.binary m op l r)) := by
    refine fun hbool hvalue hzero => .keep fun _ _ => ⟨?_, hbool, fun _ => hvalue, hzero⟩
    exact fun h => (h.elim hop.1 hop.2).elim
  unfold operation
  dsimp only
  -- Truth values first; then the cases are by which operands are known.
  split
  · split
    · exact .change .sameBool
    · exact .change .otherBool
    · next heq hne =>
      refine hkeep ?_ (Or.inl rfl) (fun _ => by rintro ⟨⟩)
      exact fun h => (h.elim heq hne).elim
  · next hlits =>
    split
    · next hl hr => exact becomes_known hm hop hl hr
    · next hl hr =>
      split
      · next hswap => exact .change (.swap hswap hl hr)
      · exact hkeep (fun _ => Or.inl (bool?_of_value? hl)) (Or.inr hr) (by simp [hr])
    · next hl hr =>
      split
      · next harith => exact becomes_literalRight hm harith hl hr
      · next harith =>
        refine hkeep (fun _ => Or.inr (bool?_of_value? hr)) (Or.inl hl) ?_
        cases op <;> simp_all [divides, BinOp.isArith]
    · next hl hr =>
      refine hkeep (fun _ => ?_) (Or.inl hl) (by simp [hr])
      -- Not both operands are truth values.
      cases l with
      | boolLit m1 a =>
        cases r with
        | boolLit m2 b => exact absurd rfl (hlits m1 a m2 b rfl)
        | _ => exact Or.inr rfl
      | _ => exact Or.inl rfl

theorem becomes_unary {uop : UnOp} (hm : m.ty = some t) (e : Expr) :
    Becomes (.unary m uop e) (unary m t uop e) := by
  unfold unary
  split
  · split
    · next v hv => exact .change (.neg hm hv)
    · next hv => exact .keep fun _ _ => hv
  · split
    · exact .change .not
    · next hlit =>
      refine .keep fun _ _ => show e.bool? = none from ?_
      cases e with
      | boolLit m' b => exact absurd rfl (hlit m' b)
      | _ => rfl

/-- A node is left as it is for a reason, or it is rewritten. -/
theorem becomes_node (e : Expr) : Becomes e (node e) := by
  unfold node
  split
  · next hnone => exact .keep fun t ht => by cases hnone.symm.trans ht
  · next t hm =>
    split
    · next m op arg => exact becomes_unary hm arg
    · next m type arg =>
      unfold cast
      split
      · next v hv => exact .change (.cast hm hv)
      · next hv =>
        refine .keep fun _ _ t' ht' => ?_
        cases hm.symm.trans ht'
        exact hv
    · next m op l r =>
      unfold binary
      split
      · exact becomes_logic m (Or.inl rfl) l r
      · exact becomes_logic m (Or.inr rfl) l r
      · next hand hor => exact becomes_operation hm ⟨hand, hor⟩ l r
    · next hunary hcast hbinary =>
      refine .keep fun _ _ => ?_
      cases e with
      | unary m op e => exact absurd rfl (hunary m op e)
      | cast m type e => exact absurd rfl (hcast m type e)
      | binary m op l r => exact absurd rfl (hbinary m op l r)
      | _ => trivial

/-- What holds of a node and of its rewrites holds of what a pass makes of it. -/
theorem node_cases {P : Expr → Prop} (he : P e) (h : ∀ e', Rewrites e e' → P e') : P (node e).result := by
  have hnode := becomes_node e
  generalize node e = x at hnode ⊢
  cases hnode with
  | keep | fault => exact he
  | change hr => exact h _ hr

/-- Only operators and conversions are folded themselves. -/
theorem node_eq_keep
    (h : (∀ m op e', e ≠ .unary m op e') ∧ (∀ m type e', e ≠ .cast m type e') ∧
      ∀ m op l r, e ≠ .binary m op l r) : node e = .keep e := by
  unfold node
  split
  · rfl
  · split
    · exact absurd rfl (h.1 _ _ _)
    · exact absurd rfl (h.2.1 _ _ _)
    · exact absurd rfl (h.2.2 _ _ _ _)
    · rfl

/-! ## Expressions -/

/-- The results of passes over some expressions, with their changes and errors together. -/
def each (es : List Expr) : Folded (List Expr) :=
  ⟨es.map fun e => (expr e).result, (es.map fun e => (expr e).changes).sum,
    es.flatMap fun e => (expr e).errors⟩

theorem exprs_eq (es : List Expr) : exprs es = each es := by
  induction es with
  | nil => rfl
  | cons e es ih =>
    unfold exprs
    rw [ih]
    simp [each, bind, andThen, pure, keep]

theorem fieldExprs_eq (fields : List (String × Expr)) :
    fieldExprs fields = { each (fields.map (·.2)) with
      result := fields.map fun g => (g.1, (expr g.2).result) } := by
  induction fields with
  | nil => rfl
  | cons g fields ih =>
    obtain ⟨x, e⟩ := g
    unfold fieldExprs
    rw [ih]
    simp [each, bind, andThen, pure, keep]

/-- A pass folds the parts, then the node. -/
theorem expr_eq (e : Expr) :
    expr e = each e.children >>= fun _ => node (e.mapChildren fun c => (expr c).result) := by
  cases e with
  | binary m op l r =>
    simp [expr, each, children, mapChildren, bind, andThen, Nat.add_assoc]
  | unary m op e => simp [expr, each, children, mapChildren, bind, andThen]
  | cast m type e => simp [expr, each, children, mapChildren, bind, andThen]
  | _ =>
    -- All other forms are rebuilt from their folded parts, and the node is left alone.
    rw [node_eq_keep (by simp [mapChildren])]
    simp [expr, each, children, mapChildren, exprs_eq, fieldExprs_eq, bind, andThen,
      pure, keep]

theorem result_expr (e : Expr) :
    (expr e).result = (node (e.mapChildren fun c => (expr c).result)).result :=
  (congrArg result (expr_eq e)).trans rfl

/-- The changes of a pass are those to the parts and that to the node. -/
theorem changes_expr (e : Expr) :
    (expr e).changes = (e.children.map fun c => (expr c).changes).sum +
      (node (e.mapChildren fun c => (expr c).result)).changes :=
  congrArg changes (expr_eq e)

/-- The errors of a pass are those met in the parts, and then that of the node. -/
theorem errors_expr (e : Expr) :
    (expr e).errors = e.children.flatMap (fun c => (expr c).errors) ++
      (node (e.mapChildren fun c => (expr c).result)).errors :=
  congrArg errors (expr_eq e)

/-! ## Statements -/

/-- Of a conditional whose condition is known, a pass keeps the branch that runs. -/
theorem result_cond (pos : Position) (test : Expr) (yes : Stmt) (no : Option Stmt) :
    (stmt (.cond pos test yes no)).result = match truth? (expr test).result with
      | some true => .block pos [(stmt yes).result]
      | some false => .block pos (optionStmt no).result.toList
      | none => .cond pos (expr test).result (stmt yes).result (optionStmt no).result := by
  change (cond pos _ _ _).result = _
  unfold cond
  split <;> simp_all [change, keep]

/-- A loop without a counter that never runs goes away. -/
theorem result_loop (pos : Position) (init : Option (String × Expr)) (test : Expr)
    (post : Option Stmt) (body : Stmt) :
    (stmt (.loop pos init test post body)).result =
      if (counter init).result.isNone && truth? (expr test).result == some false then .block pos []
      else .loop pos (counter init).result (expr test).result (optionStmt post).result
        (stmt body).result := by
  change (loop pos _ _ _ _).result = _
  unfold loop
  split <;> rfl

/-- The body of a function after one pass. -/
def pass (body : List Stmt) : List Stmt :=
  (stmts body).result

/-- The passes over a function are some number of single passes. -/
theorem exists_iterate_of_passes (n : Nat) (sts : List Stmt) :
    ∃ k, (passes n sts).result = pass^[k] sts := by
  induction n generalizing sts with
  | zero => exact ⟨0, rfl⟩
  | succ n ih =>
    unfold passes
    rw [result_bind]
    split
    · exact ⟨1, rfl⟩
    · obtain ⟨k, hk⟩ := ih (stmts sts).result
      exact ⟨k + 1, hk⟩

end Fold

end Sigil
