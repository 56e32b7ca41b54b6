import Mathlib.Algebra.Order.BigOperators.Group.List
import Mathlib.Algebra.Order.Ring.Nat
import Sigil.Proofs.Folding.Settling

/-!
# Every pass shrinks

Most rewrites take nodes away, but a literal that moves to the right of a sum or a product does not. Such a
literal is out of place, and of those there is one less afterwards. The two numbers are the total of a
weight over the tree: all nodes (`Stmt.sizeOfAll`), and those with a literal out of place
(`Stmt.misplacedOfAll`).

A rewrite may turn an operand into a literal, which is then out of place in the node around it. So what a
pass over an expression spends is counted with one more unit for a literal (`Fold.Spends`): that unit pays
for the node around it. Over statements the unit is not needed (`Fold.Shrinks`), and what all passes spend
together is bounded by the tree they start from (`Fold.pass_shrinks`).
-/

namespace Sigil

open Expr Folded List

namespace Expr

/-! ## Totals over expressions -/

mutual

/-- The sum of a weight over an expression and everything inside it, callees included. -/
def total (w : Expr → Nat) : Expr → Nat
  | .binary m op l r => w (.binary m op l r) + (l.total w + r.total w)
  | .index m base idx => w (.index m base idx) + (base.total w + idx.total w)
  | .unary m op e => w (.unary m op e) + e.total w
  | .addrOf m e => w (.addrOf m e) + e.total w
  | .deref m e => w (.deref m e) + e.total w
  | .member m e x => w (.member m e x) + e.total w
  | .cast m type e => w (.cast m type e) + e.total w
  | .call m callee args => w (.call m callee args) + (callee.total w + totalOfAll w args)
  | .arrayLit m es => w (.arrayLit m es) + totalOfAll w es
  | .builtin m b args => w (.builtin m b args) + totalOfAll w args
  | .structLit m fields => w (.structLit m fields) + totalOfFields w fields
  | e => w e

/-- The sum of a weight over some expressions and everything inside them. -/
def totalOfAll (w : Expr → Nat) : List Expr → Nat
  | [] => 0
  | e :: es => e.total w + totalOfAll w es

/-- The sum of a weight over some named expressions and everything inside them. -/
def totalOfFields (w : Expr → Nat) : List (String × Expr) → Nat
  | [] => 0
  | (_, e) :: es => e.total w + totalOfFields w es

end

/-- The sum of a weight over an expression, if it is there. -/
def totalOfOption (w : Expr → Nat) : Option Expr → Nat
  | none => 0
  | some e => e.total w

/-- The name that is called. -/
def callees : Expr → List Expr
  | .call _ callee _ => [callee]
  | _ => []

@[simp] theorem callees_withMark (m : Mark) (e : Expr) : (e.withMark m).callees = e.callees := by
  cases e <;> rfl

@[simp] theorem callees_mapChildren (f : Expr → Expr) (e : Expr) :
    (e.mapChildren f).callees = e.callees := by
  cases e <;> rfl

theorem totalOfAll_eq (w : Expr → Nat) (es : List Expr) : totalOfAll w es = (es.map (total w)).sum := by
  induction es with
  | nil => rfl
  | cons e es ih => simp [totalOfAll, ih]

theorem totalOfFields_eq (w : Expr → Nat) (fields : List (String × Expr)) :
    totalOfFields w fields = ((fields.map (·.2)).map (total w)).sum := by
  induction fields with
  | nil => rfl
  | cons field fields ih =>
    obtain ⟨x, e⟩ := field
    simp [totalOfFields, ih]

/-- The total is the weight of the node and the totals of its parts. -/
theorem total_eq (w : Expr → Nat) (e : Expr) :
    e.total w = w e + ((e.callees.map (total w)).sum + (e.children.map (total w)).sum) := by
  cases e <;> simp [total, callees, children, totalOfAll_eq, totalOfFields_eq]

theorem total_withMark {w : Expr → Nat} {m : Mark} {e : Expr} (h : w (e.withMark m) = w e) :
    (e.withMark m).total w = e.total w := by
  rw [total_eq w (e.withMark m), h, callees_withMark, children_withMark, ← total_eq]

/-- What the total of an expression has to do with the totals of its parts. -/
theorem total_mapChildren (w : Expr → Nat) (f : Expr → Expr) (e : Expr) :
    (e.mapChildren f).total w + (w e + (e.children.map (total w)).sum) =
      e.total w + (w (e.mapChildren f) + (e.children.map fun c => (f c).total w).sum) := by
  have hparts : (e.children.map f).map (total w) = e.children.map fun c => (f c).total w := by
    rw [map_map]
    rfl
  rw [total_eq w e, total_eq w (e.mapChildren f), callees_mapChildren, children_mapChildren, hparts]
  omega

/-- Whether the node is a sum or a product of a literal and something that is none, in this order. -/
def isMisplaced : Expr → Bool
  | .binary _ op l r => (op == .add || op == .mul) && l.value?.isSome && r.value?.isNone
  | _ => false

/-- One for a literal that stands for an integer. -/
def known (e : Expr) : Nat := e.value?.isSome.toNat

/-- The number of nodes. -/
def size (e : Expr) : Nat := e.total fun _ => 1

/-- The number of literals that are out of place. -/
def misplaced (e : Expr) : Nat := e.total fun e => e.isMisplaced.toNat

theorem known_le_one (e : Expr) : e.known ≤ 1 :=
  Bool.toNat_le _

theorem known_of_value? {e : Expr} (h : e.value? = none) : e.known = 0 := by
  rw [known, h]
  rfl

theorem size_pos (e : Expr) : 0 < e.size := by
  rw [size, total_eq]
  omega

@[simp] theorem size_withMark (m : Mark) (e : Expr) : (e.withMark m).size = e.size :=
  total_withMark rfl

@[simp] theorem misplaced_withMark (m : Mark) (e : Expr) : (e.withMark m).misplaced = e.misplaced := by
  refine total_withMark ?_
  cases e <;> rfl

@[simp] theorem size_ofValue (m : Mark) (v : Int) (t : Ty) : (ofValue m v t).size = 1 := by
  cases t <;> rfl

@[simp] theorem misplaced_ofValue (m : Mark) (v : Int) (t : Ty) : (ofValue m v t).misplaced = 0 := by
  cases t <;> rfl

theorem size_binary (m : Mark) (op : BinOp) (l r : Expr) :
    (binary m op l r).size = 1 + (l.size + r.size) := rfl

theorem misplaced_binary (m : Mark) (op : BinOp) (l r : Expr) :
    (binary m op l r).misplaced = (binary m op l r).isMisplaced.toNat + (l.misplaced + r.misplaced) := rfl

/-- A literal is out of place if there is one on the left and none on the right. -/
theorem isMisplaced_binary (m : Mark) (op : BinOp) (l r : Expr) :
    (binary m op l r).isMisplaced.toNat = if op = .add ∨ op = .mul then l.known - r.known else 0 := by
  by_cases hop : op = .add ∨ op = .mul
  · rw [if_pos hop]
    have hflag : (binary m op l r).isMisplaced = (l.value?.isSome && r.value?.isNone) := by
      rcases hop with rfl | rfl <;> rfl
    rw [hflag, known, known]
    cases l.value? <;> cases r.value? <;> rfl
  · rw [if_neg hop]
    cases op <;> simp_all [isMisplaced]

theorem value?_mapChildren (f : Expr → Expr) (e : Expr) : (e.mapChildren f).value? = e.value? := by
  cases e <;> rfl

end Expr

namespace Stmt

/-! ## Totals over statements -/

mutual

/-- The sum of a weight over the expressions of a statement and everything inside them, with `k` for every
statement. -/
def total (k : Nat) (w : Expr → Nat) : Stmt → Nat
  | .block _ body => k + totalOfAll k w body
  | .expr _ e => k + e.total w
  | .assign _ l r => k + (l.total w + r.total w)
  | .var _ d => k + Expr.totalOfOption w d.init
  | .cond _ test yes no => k + (test.total w + (yes.total k w + totalOfOption k w no))
  | .loop _ init test post body =>
    k + (Expr.totalOfOption w (init.map (·.2)) + (test.total w + (body.total k w + totalOfOption k w post)))
  | .ret _ value => k + Expr.totalOfOption w value
  | .brk _ | .cont _ => k

/-- The total of a statement, if it is there. -/
def totalOfOption (k : Nat) (w : Expr → Nat) : Option Stmt → Nat
  | none => 0
  | some s => s.total k w

/-- The total of some statements. -/
def totalOfAll (k : Nat) (w : Expr → Nat) : List Stmt → Nat
  | [] => 0
  | s :: rest => s.total k w + totalOfAll k w rest

end

/-- The number of statements and expressions. -/
def sizeOfAll (sts : List Stmt) : Nat := totalOfAll 1 (fun _ => 1) sts

/-- The number of sums and products with a literal out of place. -/
def misplacedOfAll (sts : List Stmt) : Nat := totalOfAll 0 (fun e => e.isMisplaced.toNat) sts

end Stmt

namespace Fold

open Expr

/-! ## What a pass over an expression spends -/

/-- What became of an expression: it has not grown, a literal is still one, and the changes are paid for by
the nodes, the literals out of place and, with one unit, by a literal that was not there before. -/
structure Spends (e : Expr) (x : Folded Expr) : Prop where
  size : x.result.size ≤ e.size
  known : e.known ≤ x.result.known
  budget : x.changes + 2 * x.result.size + x.result.misplaced + x.result.known ≤
    2 * e.size + e.misplaced + e.known

theorem Spends.of_unchanged {e : Expr} {x : Folded Expr} (hresult : x.result = e)
    (hchanges : x.changes = 0) : Spends e x := by
  refine ⟨?_, ?_, ?_⟩
  · rw [hresult]
  · rw [hresult]
  · rw [hresult, hchanges]
    omega

/-- A change that takes enough nodes away pays for itself, and for a literal. -/
theorem Spends.of_smaller {e e' : Expr} (hvalue : e.value? = none) (hsize : e'.size < e.size)
    (hmisplaced : e'.misplaced ≤ e.misplaced + (1 - e'.known)) : Spends e (.change e') := by
  have hknown := known_of_value? hvalue
  have hone := known_le_one e'
  refine ⟨Nat.le_of_lt hsize, ?_, ?_⟩
  · rw [hknown]
    exact Nat.zero_le _
  · show 1 + 2 * e'.size + e'.misplaced + e'.known ≤ _
    omega

/-- A node that becomes a literal. -/
theorem Spends.of_literal {e e' : Expr} (hvalue : e.value? = none) (hchildren : e.children ≠ [])
    (hsize : e'.size = 1) (hmisplaced : e'.misplaced = 0) : Spends e (.change e') := by
  refine .of_smaller hvalue ?_ (by omega)
  obtain ⟨c, cs, hc⟩ := exists_cons_of_ne_nil hchildren
  have hpos := size_pos c
  rw [hsize, Expr.size, total_eq, hc, map_cons, sum_cons]
  rw [Expr.size] at hpos
  omega

/-- A literal that moves to the right was out of place and no longer is. -/
theorem spends_swap {m : Mark} {op : BinOp} {l r : Expr} {a : Int} (hop : op = .add ∨ op = .mul)
    (hl : l.value? = some a) (hr : r.value? = none) :
    Spends (.binary m op l r) (.change (.binary m op r l)) := by
  have hbefore : (Expr.binary m op l r).isMisplaced = true := by
    rcases hop with rfl | rfl <;> simp [isMisplaced, hl, hr]
  have hafter : (Expr.binary m op r l).isMisplaced = false := by
    simp [isMisplaced, hr]
  refine ⟨?_, Nat.le_refl 0, ?_⟩
  · show (Expr.binary m op r l).size ≤ _
    rw [size_binary, size_binary]
    omega
  · show 1 + 2 * (Expr.binary m op r l).size + (Expr.binary m op r l).misplaced + 0 ≤
      _ + (Expr.binary m op l r).misplaced + 0
    rw [size_binary, size_binary, misplaced_binary, misplaced_binary, hbefore, hafter, Bool.toNat_true,
      Bool.toNat_false]
    omega

/-- What folding a single node spends. -/
theorem spends_node (e : Expr) : Spends e (node e) := by
  have hnode := becomes_node e
  generalize node e = x at hnode ⊢
  cases hnode with
  | keep | fault => exact .of_unchanged rfl rfl
  | change h =>
    cases h with
    | neg | cast | arith =>
      exact .of_literal rfl (cons_ne_nil _ _) (size_ofValue ..) (misplaced_ofValue ..)
    | not | decided | sameBool | otherBool | compare =>
      exact .of_literal rfl (cons_ne_nil _ _) rfl rfl
    | undecided | neutral =>
      -- One operand is left, and two nodes are gone.
      refine .of_smaller rfl ?_ ?_
      · rw [size_withMark, size_binary]
        omega
      · rw [misplaced_withMark, misplaced_binary]
        omega
    | swap hop hl hr => exact spends_swap hop hl hr
    | @reassociate m m' t op inner op' x l r c1 c2 c =>
      -- Two nodes go away. The operand that is left may be a literal, out of place now.
      have hl := size_pos l
      have hr := size_pos r
      have hflag := Bool.toNat_le (isMisplaced (.binary m op' x (.ofValue ⟨x.pos, some t⟩ c t)))
      refine .of_smaller rfl ?_ ?_
      · rw [size_binary, size_binary, size_binary, size_ofValue]
        omega
      · show _ ≤ _ + 1
        rw [misplaced_binary, misplaced_binary m op, misplaced_binary, misplaced_ofValue]
        omega

/-- Parts that have become literals pay for the node around them. -/
theorem isMisplaced_mapChildren {f : Expr → Expr} {e : Expr} (h : ∀ c ∈ e.children, c.known ≤ (f c).known) :
    (e.mapChildren f).isMisplaced.toNat + (e.children.map Expr.known).sum ≤
      e.isMisplaced.toNat + (e.children.map fun c => (f c).known).sum := by
  cases e with
  | binary m op l r =>
    have hl := h l left_mem_children
    have hr := h r right_mem_children
    have hone := known_le_one (f l)
    show (Expr.binary m op (f l) (f r)).isMisplaced.toNat + (l.known + (r.known + 0)) ≤
      (Expr.binary m op l r).isMisplaced.toNat + ((f l).known + ((f r).known + 0))
    rw [isMisplaced_binary, isMisplaced_binary]
    split <;> omega
  | _ => exact Nat.add_le_add_left (sum_le_sum h) 0

/-- What the passes over some expressions spend together. -/
theorem spends_sum {es : List Expr} (h : ∀ e ∈ es, Spends e (expr e)) :
    (es.map fun e => (expr e).result.size).sum ≤ (es.map size).sum ∧
      (es.map fun e => (expr e).changes).sum + 2 * (es.map fun e => (expr e).result.size).sum +
          (es.map fun e => (expr e).result.misplaced).sum + (es.map fun e => (expr e).result.known).sum ≤
        2 * (es.map size).sum + (es.map misplaced).sum + (es.map Expr.known).sum := by
  induction es with
  | nil => exact ⟨Nat.le_refl 0, Nat.le_refl 0⟩
  | cons e es ih =>
    obtain ⟨he, hes⟩ := forall_mem_cons.1 h
    obtain ⟨hsize, hbudget⟩ := ih hes
    have hsize' := he.size
    have hbudget' := he.budget
    simp only [map_cons, sum_cons]
    constructor <;> omega

/-- What a pass over an expression spends. -/
theorem spends_expr (e : Expr) : Spends e (expr e) := by
  induction e using by_children with
  | h e ih =>
    -- First the parts are folded, with what they spend; then the node.
    have hnode := spends_node (e.mapChildren fun c => (expr c).result)
    obtain ⟨hsize, hbudget⟩ := spends_sum ih
    have hflag := isMisplaced_mapChildren fun c hc => (ih c hc).known
    have hknown : (e.mapChildren fun c => (expr c).result).known = e.known := by
      rw [Expr.known, value?_mapChildren, ← Expr.known]
    have hsizes : (e.mapChildren fun c => (expr c).result).size + (1 + (e.children.map size).sum) =
        e.size + (1 + (e.children.map fun c => (expr c).result.size).sum) :=
      total_mapChildren (fun _ => 1) _ e
    have hmisplaced : (e.mapChildren fun c => (expr c).result).misplaced +
          (e.isMisplaced.toNat + (e.children.map misplaced).sum) =
        e.misplaced + ((e.mapChildren fun c => (expr c).result).isMisplaced.toNat +
          (e.children.map fun c => (expr c).result.misplaced).sum) :=
      total_mapChildren (fun e => e.isMisplaced.toNat) _ e
    refine ⟨?_, ?_, ?_⟩
    · have hle := hnode.size
      rw [result_expr]
      omega
    · have hle := hnode.known
      rw [result_expr]
      omega
    · have hle := hnode.budget
      rw [result_expr, changes_expr]
      omega

/-! ## What a pass over statements spends -/

/-- Totals before and after some changes: the number of nodes has not grown, and the changes are paid for by
the nodes and the literals out of place. -/
structure Shrinks (before after : Nat → (Expr → Nat) → Nat) (changes : Nat) : Prop where
  size : after 1 (fun _ => 1) ≤ before 1 fun _ => 1
  budget : changes + 2 * after 1 (fun _ => 1) + after 0 (fun e => e.isMisplaced.toNat) ≤
    2 * before 1 (fun _ => 1) + before 0 fun e => e.isMisplaced.toNat

namespace Shrinks

variable {b b' a a' : Nat → (Expr → Nat) → Nat} {c c' : Nat}

theorem refl (b : Nat → (Expr → Nat) → Nat) : Shrinks b b 0 :=
  ⟨Nat.le_refl _, by omega⟩

theorem add (h : Shrinks b a c) (h' : Shrinks b' a' c') :
    Shrinks (fun k w => b k w + b' k w) (fun k w => a k w + a' k w) (c + c') := by
  obtain ⟨hsize, hbudget⟩ := h
  obtain ⟨hsize', hbudget'⟩ := h'
  constructor <;> omega

/-- The statement around the parts stays. -/
theorem around (h : Shrinks b a c) : Shrinks (fun k w => k + b k w) (fun k w => k + a k w) c := by
  obtain ⟨hsize, hbudget⟩ := h
  constructor <;> omega

theorem trans (h : Shrinks b a c) (h' : Shrinks a a' c') : Shrinks b a' (c + c') := by
  obtain ⟨hsize, hbudget⟩ := h
  obtain ⟨hsize', hbudget'⟩ := h'
  constructor <;> omega

/-- A change that takes at least one node away. -/
theorem of_lt (hsize : a 1 (fun _ => 1) < b 1 fun _ => 1)
    (hmisplaced : a 0 (fun e => e.isMisplaced.toNat) ≤ b 0 fun e => e.isMisplaced.toNat) : Shrinks b a 1 := by
  constructor <;> omega

end Shrinks

theorem shrinks_expr (e : Expr) :
    Shrinks (fun _ w => e.total w) (fun _ w => (expr e).result.total w) (expr e).changes := by
  obtain ⟨hsize, hknown, hbudget⟩ := spends_expr e
  simp only [size, misplaced] at hsize hbudget
  constructor <;> omega

theorem shrinks_optionExpr (e : Option Expr) :
    Shrinks (fun _ w => totalOfOption w e) (fun _ w => totalOfOption w (optionExpr e).result)
      (optionExpr e).changes := by
  cases e with
  | none => exact .refl _
  | some e => exact shrinks_expr e

theorem shrinks_counter (init : Option (String × Expr)) :
    Shrinks (fun _ w => totalOfOption w (init.map (·.2)))
      (fun _ w => totalOfOption w ((counter init).result.map (·.2))) (counter init).changes := by
  cases init with
  | none => exact .refl _
  | some xe => exact shrinks_expr xe.2

/-- A conditional whose condition is known is left without it. -/
theorem shrinks_cond (pos : Position) (test : Expr) (yes : Stmt) (no : Option Stmt) :
    Shrinks (fun k w => (Stmt.cond pos test yes no).total k w)
      (fun k w => (cond pos test yes no).result.total k w) (cond pos test yes no).changes := by
  have hpos := size_pos test
  unfold size at hpos
  unfold cond
  split
  · refine .of_lt ?_ ?_
    · simp only [change, Stmt.total, Stmt.totalOfAll]
      omega
    · simp only [change, Stmt.total, Stmt.totalOfAll]
      omega
  · cases no with
    | none =>
      refine .of_lt ?_ ?_
      · simp only [change, Stmt.total, Option.toList, Stmt.totalOfAll]
        omega
      · simp only [change, Stmt.total, Option.toList, Stmt.totalOfAll]
        omega
    | some s =>
      refine .of_lt ?_ ?_
      · simp only [change, Stmt.total, Option.toList, Stmt.totalOfAll, Stmt.totalOfOption]
        omega
      · simp only [change, Stmt.total, Option.toList, Stmt.totalOfAll, Stmt.totalOfOption]
        omega
  · exact .refl _

/-- Of a loop that goes away nothing is left but an empty block. -/
theorem shrinks_loop (pos : Position) (init : Option (String × Expr)) (test : Expr) (post : Option Stmt)
    (body : Stmt) :
    Shrinks (fun k w => (Stmt.loop pos init test post body).total k w)
      (fun k w => (loop pos init test post body).result.total k w)
      (loop pos init test post body).changes := by
  have hpos := size_pos test
  unfold size at hpos
  unfold loop
  split
  · refine .of_lt ?_ ?_
    · simp only [change, Stmt.total, Stmt.totalOfAll]
      omega
    · simp only [change, Stmt.total, Stmt.totalOfAll]
      omega
  · exact .refl _

mutual

/-- What a pass over a statement spends. -/
theorem shrinks_stmt (s : Stmt) :
    Shrinks (fun k w => s.total k w) (fun k w => (stmt s).result.total k w) (stmt s).changes := by
  match s with
  | .block pos body => exact (shrinks_stmts body).around
  | .expr pos e => exact (shrinks_expr e).around
  | .assign pos l r => exact ((shrinks_expr l).add (shrinks_expr r)).around
  | .var pos d => exact (shrinks_optionExpr d.init).around
  | .ret pos e => exact (shrinks_optionExpr e).around
  | .brk pos => exact .refl _
  | .cont pos => exact .refl _
  | .cond pos test yes no =>
    have hparts := (shrinks_expr test).add ((shrinks_stmt yes).add (shrinks_optionStmt no))
    have hcond := shrinks_cond pos (expr test).result (stmt yes).result (optionStmt no).result
    have hall := hparts.around.trans hcond
    simp only [Nat.add_assoc] at hall
    exact hall
  | .loop pos init test post body =>
    have hparts := (shrinks_counter init).add
      ((shrinks_expr test).add ((shrinks_stmt body).add (shrinks_optionStmt post)))
    have hloop := shrinks_loop pos (counter init).result (expr test).result
      (optionStmt post).result (stmt body).result
    have hall := hparts.around.trans hloop
    simp only [Nat.add_assoc] at hall
    exact hall

/-- What a pass over a statement spends, if it is there. -/
theorem shrinks_optionStmt (s : Option Stmt) :
    Shrinks (fun k w => Stmt.totalOfOption k w s) (fun k w => Stmt.totalOfOption k w (optionStmt s).result)
      (optionStmt s).changes := by
  match s with
  | none => exact .refl _
  | some s => exact shrinks_stmt s

/-- What a pass over some statements spends. -/
theorem shrinks_stmts (sts : List Stmt) :
    Shrinks (fun k w => Stmt.totalOfAll k w sts) (fun k w => Stmt.totalOfAll k w (stmts sts).result)
      (stmts sts).changes := by
  match sts with
  | [] => exact .refl _
  | s :: rest => exact (shrinks_stmt s).add (shrinks_stmts rest)

end

/-! ## Passes over a function -/

variable {body : List Stmt}

/-- What all passes over a function can spend. -/
def budget (body : List Stmt) : Nat :=
  2 * Stmt.sizeOfAll body + Stmt.misplacedOfAll body

/-- What a pass has spent is no longer there for the next one. -/
theorem changes_add_budget_le (body : List Stmt) :
    (stmts body).changes + budget (pass body) ≤ budget body := by
  have h := (shrinks_stmts body).budget
  unfold budget pass Stmt.sizeOfAll Stmt.misplacedOfAll
  omega

theorem sizeOfAll_pass_le (body : List Stmt) : Stmt.sizeOfAll (pass body) ≤ Stmt.sizeOfAll body :=
  (shrinks_stmts body).size

/-- A pass with changes takes a node away, or puts a literal in its place. -/
theorem lex_of_changes (hc : 0 < (stmts body).changes) :
    Prod.Lex (· < ·) (· < ·) (Stmt.sizeOfAll (pass body), Stmt.misplacedOfAll (pass body))
      (Stmt.sizeOfAll body, Stmt.misplacedOfAll body) := by
  have hbudget := changes_add_budget_le body
  unfold budget at hbudget
  rcases Nat.lt_or_eq_of_le (sizeOfAll_pass_le body) with hlt | heq
  · exact Prod.Lex.left _ _ hlt
  · rw [heq] at hbudget ⊢
    exact Prod.Lex.right _ (by omega)

/-- What the first passes have spent is no longer there for the others. -/
theorem sum_changes_add_budget_le (n : Nat) (body : List Stmt) :
    ((range n).map fun i => (stmts (pass^[i] body)).changes).sum + budget (pass^[n] body) ≤
      budget body := by
  induction n with
  | zero => exact Nat.le_of_eq (Nat.zero_add _)
  | succ n ih =>
    have hstep := changes_add_budget_le (pass^[n] body)
    rw [range_succ, map_append, sum_append, Function.iterate_succ_apply']
    simp only [map_cons, map_nil, sum_cons, sum_nil]
    omega

/-- Every pass with changes spends at least one unit, so there are not more of them than there are units. -/
theorem settles_of_budget_le {n : Nat} (h : budget body ≤ n) : Settles n body := by
  induction n generalizing body with
  | zero =>
    have hstep := changes_add_budget_le body
    exact ⟨0, Nat.le_refl 0, show (stmts body).changes = 0 by omega⟩
  | succ n ih =>
    have hstep := changes_add_budget_le body
    rw [settles_succ]
    by_cases hc : (stmts body).changes = 0
    · exact Or.inl hc
    · exact Or.inr (ih (by omega))

theorem changes_passes_le (n : Nat) (body : List Stmt) : (passes n body).changes ≤ budget body := by
  induction n generalizing body with
  | zero => exact Nat.zero_le _
  | succ n ih =>
    have hstep := changes_add_budget_le body
    rw [passes, changes_bind]
    split
    · rw [changes_pure]
      omega
    · have hrest := ih (pass body)
      show (stmts body).changes + (passes n (pass body)).changes ≤ _
      omega

/-- A function that settles within `n` passes needs no more than one pass more. -/
theorem passes_of_settles {n : Nat} (h : Settles n body) {m : Nat} (hm : n < m) :
    passes m body = passes (n + 1) body := by
  induction n generalizing body m with
  | zero =>
    obtain ⟨i, hi, hc⟩ := h
    cases Nat.le_zero.1 hi
    obtain ⟨m, rfl⟩ := Nat.exists_eq_succ_of_ne_zero (Nat.ne_of_gt hm)
    have hc' : (stmts body).changes = 0 := hc
    rw [passes, passes]
    simp [hc']
  | succ n ih =>
    obtain ⟨m, rfl⟩ := Nat.exists_eq_succ_of_ne_zero (Nat.ne_of_gt (Nat.lt_of_le_of_lt (Nat.zero_le _) hm))
    rw [passes, passes]
    rcases settles_succ.1 h with hc | hrest
    · simp [hc]
    · have hsame : passes m (stmts body).result = passes (n + 1) (stmts body).result :=
        ih hrest (Nat.lt_of_succ_lt_succ hm)
      dsimp only [bind, andThen]
      rw [hsame]

/-- A pass never makes a function larger, and one with changes takes a node away or puts a literal in its
place. So the changes of all passes together are bounded by the function that they start from, there is a
pass without changes, and passes that are repeated until then end without a limit on their number. -/
theorem pass_shrinks (body : List Stmt) :
    Stmt.sizeOfAll (pass body) ≤ Stmt.sizeOfAll body ∧
      (0 < (stmts body).changes →
        Prod.Lex (· < ·) (· < ·) (Stmt.sizeOfAll (pass body), Stmt.misplacedOfAll (pass body))
          (Stmt.sizeOfAll body, Stmt.misplacedOfAll body)) ∧
      (∀ n, ((List.range n).map fun i => (stmts (pass^[i] body)).changes).sum ≤
        2 * Stmt.sizeOfAll body + Stmt.misplacedOfAll body) ∧
      (∃ n ≤ 2 * Stmt.sizeOfAll body + Stmt.misplacedOfAll body, (stmts (pass^[n] body)).changes = 0) ∧
      (∀ n, (passes n body).changes ≤ 2 * Stmt.sizeOfAll body + Stmt.misplacedOfAll body) ∧
      ∀ n, 2 * Stmt.sizeOfAll body + Stmt.misplacedOfAll body < n →
        passes n body = passes (2 * Stmt.sizeOfAll body + Stmt.misplacedOfAll body + 1) body := by
  refine ⟨sizeOfAll_pass_le body, lex_of_changes, ?_, settles_of_budget_le (Nat.le_refl _), ?_, ?_⟩
  · intro n
    exact Nat.le_of_add_right_le (sum_changes_add_budget_le n body)
  · intro n
    exact changes_passes_le n body
  · intro n hn
    exact passes_of_settles (settles_of_budget_le (Nat.le_refl _)) hn

/-- In `return 1 + x;` the literal moves, and the number of nodes stays the same. -/
theorem pass_shrinks_swap :
    let m : Mark := ⟨.origin, some (.int 64 true)⟩
    let body : List Stmt := [.ret .origin (some (.binary m .add (.intLit m 1) (.ident m "x")))]
    0 < (stmts body).changes ∧ Stmt.sizeOfAll (pass body) = Stmt.sizeOfAll body ∧
      Prod.Lex (· < ·) (· < ·) (Stmt.sizeOfAll (pass body), Stmt.misplacedOfAll (pass body))
        (Stmt.sizeOfAll body, Stmt.misplacedOfAll body) :=
  ⟨by decide, by decide, (pass_shrinks _).2.1 (by decide)⟩

end Fold

end Sigil
