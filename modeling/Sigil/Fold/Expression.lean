import Sigil.Error
import Sigil.Fold.Literal

/-!
# Folding expressions

One pass over an expression replaces what can be computed beforehand. The operands of a node are folded
first, then the node itself by the rules below; a node without a type is left alone. Literals move to
the right of sums and products, where those of nested operations meet and are combined.

The pass counts its changes and collects the divisions by a literal zero.
-/

namespace Sigil

/-- What a pass made of a tree, with the number of changes and the errors it met. -/
structure Folded (α : Type) where
  result : α
  changes : Nat
  errors : List (Located TypeError)

namespace Folded

/-- Left as it is. -/
def keep {α : Type} (a : α) : Folded α := ⟨a, 0, []⟩

/-- Changed once. -/
def change {α : Type} (a : α) : Folded α := ⟨a, 1, []⟩

/-- Left as it is, since it is faulty. -/
def fault {α : Type} (a : α) (pos : Position) (e : TypeError) : Folded α := ⟨a, 0, [⟨pos, e⟩]⟩

/-- One pass after another: the changes add up. -/
def andThen {α β : Type} (x : Folded α) (f : α → Folded β) : Folded β :=
  let y := f x.result
  ⟨y.result, x.changes + y.changes, x.errors ++ y.errors⟩

instance : Monad Folded where
  pure := keep
  bind := andThen

instance : LawfulMonad Folded := LawfulMonad.mk' _
  (by intro α x; simp [Functor.map, andThen, keep])
  (by intro α β a f; simp [bind, pure, andThen, keep])
  (by intro α β γ x f g; simp [bind, andThen, Nat.add_assoc])

@[simp] theorem result_pure {α : Type} (a : α) : (pure a : Folded α).result = a := rfl

@[simp] theorem changes_pure {α : Type} (a : α) : (pure a : Folded α).changes = 0 := rfl

@[simp] theorem errors_pure {α : Type} (a : α) : (pure a : Folded α).errors = [] := rfl

@[simp] theorem result_bind {α β : Type} (x : Folded α) (f : α → Folded β) :
    (x >>= f).result = (f x.result).result := rfl

@[simp] theorem changes_bind {α β : Type} (x : Folded α) (f : α → Folded β) :
    (x >>= f).changes = x.changes + (f x.result).changes := rfl

@[simp] theorem errors_bind {α β : Type} (x : Folded α) (f : α → Folded β) :
    (x >>= f).errors = x.errors ++ (f x.result).errors := rfl

end Folded

namespace Fold

/-- Arithmetic on two values, both known, where the divisor is not zero. -/
def arith (op : BinOp) (a b : Int) : Int :=
  match op with
  | .add => a + b
  | .sub => a - b
  | .mul => a * b
  | .div => Int.tdiv a b
  | _ => Int.tmod a b

/-- A comparison of two values. -/
def compare (op : BinOp) (a b : Int) : Bool :=
  match op with
  | .eq => a == b
  | .ne => a != b
  | .lt => decide (a < b)
  | .le => decide (a ≤ b)
  | .gt => decide (b < a)
  | _ => decide (b ≤ a)

/-- Whether the operator divides. -/
def divides : BinOp → Bool
  | .div | .rem => true
  | _ => false

/-- `(x inner c₁) op c₂` as one operation on `x`: its operator and its literal. -/
def combine? (inner op : BinOp) (c₁ c₂ : Int) : Option (BinOp × Int) :=
  match inner, op with
  | .add, .add => some (.add, c₁ + c₂)
  | .add, .sub => some (.add, c₁ - c₂)
  | .sub, .add => some (.sub, c₁ - c₂)
  | .sub, .sub => some (.sub, c₁ + c₂)
  | .mul, .mul => some (.mul, c₁ * c₂)
  | _, _ => none

/-- Whether `x op c` is `x`. -/
def isNeutral (op : BinOp) (c : Int) : Bool :=
  match op with
  | .add | .sub => c == 0
  | .mul | .div => c == 1
  | _ => false

/-- `(x inner c₁) op c₂`, where `l` is the left operand and `e` the whole. -/
def reassociate (m : Mark) (t : Ty) (e : Expr) (op : BinOp) (l : Expr) (c₂ : Int) : Folded Expr :=
  match l with
  | .binary _ inner x c₁ =>
    match c₁.value? with
    | some c₁ =>
      match combine? inner op c₁ c₂ with
      | some (op', c) => .change (.binary m op' x (.ofValue ⟨x.pos, some t⟩ c t))
      | none => .keep e
    | none => .keep e
  | _ => .keep e

/-- An arithmetic operation `e` with a literal on the right only. -/
def literalRight (m : Mark) (t : Ty) (e : Expr) (op : BinOp) (l : Expr) (c : Int) : Folded Expr :=
  if isNeutral op c then .change (l.withMark m)
  else if divides op && c == 0 then .fault e l.pos .divisionByZero
  else reassociate m t e op l c

/-- `&&` and `||`: if the left operand is known, it decides, or the result is the right operand. -/
def logic (m : Mark) (op : BinOp) (l r : Expr) : Folded Expr :=
  match l with
  | .boolLit _ a =>
    .change (if a == (op == .or) then .boolLit m a else r.withMark m)
  | _ => .keep (.binary m op l r)

/-- An operation on two integers that are known. -/
def known (m : Mark) (t : Ty) (e : Expr) (op : BinOp) (r : Expr) (a b : Int) : Folded Expr :=
  if op.isCompare then .change (.boolLit m (compare op a b))
  else if divides op && b == 0 then .fault e r.pos .divisionByZero
  else .change (.ofValue m (arith op a b) t)

/-- Arithmetic and comparisons. -/
def operation (m : Mark) (t : Ty) (op : BinOp) (l r : Expr) : Folded Expr :=
  let e := Expr.binary m op l r
  match l, r with
  | .boolLit _ a, .boolLit _ b =>
    match op with
    | .eq => .change (.boolLit m (a == b))
    | .ne => .change (.boolLit m (a != b))
    | _ => .keep e
  | l, r =>
    match l.value?, r.value? with
    | some a, some b => known m t e op r a b
    | some _, none => if op = .add ∨ op = .mul then .change (.binary m op r l) else .keep e
    | none, some c => if op.isArith then literalRight m t e op l c else .keep e
    | none, none => .keep e

/-- Operators between two operands. -/
def binary (m : Mark) (t : Ty) (op : BinOp) (l r : Expr) : Folded Expr :=
  match op with
  | .and | .or => logic m op l r
  | _ => operation m t op l r

/-- Operators before one operand. -/
def unary (m : Mark) (t : Ty) (op : UnOp) (e : Expr) : Folded Expr :=
  match op with
  | .neg =>
    match e.value? with
    | some v => .change (.ofValue m (-v) t)
    | none => .keep (.unary m .neg e)
  | .not =>
    match e with
    | .boolLit _ b => .change (.boolLit m !b)
    | e => .keep (.unary m .not e)

/-- The value that a conversion to type `t` starts from, if it is known. -/
def castValue? (t : Ty) (e : Expr) : Option Int :=
  match t with
  | .int _ _ =>
    match e with
    | .boolLit _ b => some (if b then 1 else 0)
    | e => e.value?
  | .char => e.value?
  | _ => none

/-- Conversions. -/
def cast (m : Mark) (t : Ty) (type : TypeExpr) (e : Expr) : Folded Expr :=
  match castValue? t e with
  | some v => .change (.ofValue m v t)
  | none => .keep (.cast m type e)

/-- Folds a node whose operands have been folded. -/
def node (e : Expr) : Folded Expr :=
  match e.ty with
  | none => .keep e
  | some t =>
    match e with
    | .unary m op arg => unary m t op arg
    | .cast m type arg => cast m t type arg
    | .binary m op l r => binary m t op l r
    | e => .keep e

mutual

/-- One pass over an expression. -/
def expr : Expr → Folded Expr
  | .binary m op l r => do
    let l ← expr l
    let r ← expr r
    node (.binary m op l r)
  | .index m e i => do
    let e ← expr e
    let i ← expr i
    return .index m e i
  | .unary m op e => do node (.unary m op (← expr e))
  | .addrOf m e => return .addrOf m (← expr e)
  | .deref m e => return .deref m (← expr e)
  | .member m e x => return .member m (← expr e) x
  | .cast m type e => do node (.cast m type (← expr e))
  | .call m callee args => return .call m callee (← exprs args)
  | .arrayLit m es => return .arrayLit m (← exprs es)
  | .builtin m b args => return .builtin m b (← exprs args)
  | .structLit m fields => return .structLit m (← fieldExprs fields)
  | e => return e

/-- One pass over expressions, in order. -/
def exprs : List Expr → Folded (List Expr)
  | [] => return []
  | e :: es => do
    let e ← expr e
    return e :: (← exprs es)

/-- One pass over named expressions, in order. -/
def fieldExprs : List (String × Expr) → Folded (List (String × Expr))
  | [] => return []
  | (x, e) :: es => do
    let e ← expr e
    return (x, e) :: (← fieldExprs es)

end

end Fold

end Sigil
