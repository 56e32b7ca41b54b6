import Sigil.Tree

/-!
# Nodes of trees

The expressions inside an expression, at any depth. The callee of a call is a name and the lengths in a
written type are worked out while checking, so neither counts as a node. What is known of all nodes is
known of the whole and of its parts (`Expr.forall_nodes`), and induction over an expression goes by its
parts (`Expr.by_children`).
-/

namespace Sigil

open List

namespace Expr

/-- The parts of an expression. -/
def children : Expr → List Expr
  | .binary _ _ l r => [l, r]
  | .index _ base idx => [base, idx]
  | .unary _ _ e | .addrOf _ e | .deref _ e | .member _ e _ | .cast _ _ e => [e]
  | .call _ _ args | .arrayLit _ args | .builtin _ _ args => args
  | .structLit _ fields => fields.map (·.2)
  | _ => []

mutual

/-- An expression and everything inside it. -/
def nodes : Expr → List Expr
  | .binary m op l r => .binary m op l r :: (l.nodes ++ r.nodes)
  | .index m base idx => .index m base idx :: (base.nodes ++ idx.nodes)
  | .unary m op e => .unary m op e :: e.nodes
  | .addrOf m e => .addrOf m e :: e.nodes
  | .deref m e => .deref m e :: e.nodes
  | .member m e x => .member m e x :: e.nodes
  | .cast m type e => .cast m type e :: e.nodes
  | .call m callee args => .call m callee args :: nodesAll args
  | .arrayLit m es => .arrayLit m es :: nodesAll es
  | .builtin m b args => .builtin m b args :: nodesAll args
  | .structLit m fields => .structLit m fields :: nodesFields fields
  | e => [e]

/-- Some expressions and everything inside them. -/
def nodesAll : List Expr → List Expr
  | [] => []
  | e :: es => e.nodes ++ nodesAll es

/-- Some named expressions and everything inside them. -/
def nodesFields : List (String × Expr) → List Expr
  | [] => []
  | (_, e) :: es => e.nodes ++ nodesFields es

end

theorem nodesAll_eq (es : List Expr) : nodesAll es = es.flatMap nodes := by
  induction es with
  | nil => rfl
  | cons e es ih => simp [nodesAll, ih]

theorem nodesFields_eq (fields : List (String × Expr)) :
    nodesFields fields = (fields.map (·.2)).flatMap nodes := by
  induction fields with
  | nil => rfl
  | cons field fields ih =>
    obtain ⟨x, e⟩ := field
    simp [nodesFields, ih]

theorem nodes_eq (e : Expr) : e.nodes = e :: e.children.flatMap nodes := by
  cases e <;> simp [nodes, children, nodesAll_eq, nodesFields_eq]

/-- What is known of all nodes is known of the whole and inside its parts. -/
theorem forall_nodes {P : Expr → Prop} {e : Expr} :
    (∀ n ∈ e.nodes, P n) ↔ P e ∧ ∀ c ∈ e.children, ∀ n ∈ c.nodes, P n := by
  rw [nodes_eq]
  constructor
  · intro h
    refine ⟨h e mem_cons_self, fun c hc n hn => ?_⟩
    exact h n (mem_cons_of_mem _ (mem_flatMap.2 ⟨c, hc, hn⟩))
  · rintro ⟨he, hc⟩ n hn
    rcases mem_cons.1 hn with rfl | hn
    · exact he
    · obtain ⟨c, hcm, hn⟩ := mem_flatMap.1 hn
      exact hc c hcm n hn

theorem left_mem_children {m : Mark} {op : BinOp} {l r : Expr} :
    l ∈ (Expr.binary m op l r).children :=
  mem_cons_self

theorem right_mem_children {m : Mark} {op : BinOp} {l r : Expr} :
    r ∈ (Expr.binary m op l r).children :=
  mem_cons_of_mem l mem_cons_self

mutual

/-- Induction by the parts of an expression. -/
theorem by_children {P : Expr → Prop} (h : ∀ e, (∀ c ∈ e.children, P c) → P e) (e : Expr) :
    P e := by
  apply h
  match e with
  | .binary _ _ l r | .index _ l r =>
    have hl := by_children h l
    have hr := by_children h r
    exact forall_mem_cons.2 ⟨hl, forall_mem_singleton.2 hr⟩
  | .unary _ _ e | .addrOf _ e | .deref _ e | .member _ e _ | .cast _ _ e =>
    exact forall_mem_singleton.2 (by_children h e)
  | .call _ _ args | .arrayLit _ args | .builtin _ _ args => exact by_children_all h args
  | .structLit _ fields => exact by_children_fields h fields
  | .intLit _ _ | .boolLit _ _ | .charLit _ _ | .strLit _ _ | .nil _ | .ident _ _ | .sizeof _ _
  | .zeroed _ | .enumLit _ _ _ => exact forall_mem_nil _

theorem by_children_all {P : Expr → Prop} (h : ∀ e, (∀ c ∈ e.children, P c) → P e)
    (es : List Expr) : ∀ c ∈ es, P c := by
  match es with
  | [] => exact forall_mem_nil _
  | e :: es => exact forall_mem_cons.2 ⟨by_children h e, by_children_all h es⟩

theorem by_children_fields {P : Expr → Prop} (h : ∀ e, (∀ c ∈ e.children, P c) → P e)
    (fields : List (String × Expr)) : ∀ c ∈ fields.map (·.2), P c := by
  match fields with
  | [] => exact forall_mem_nil _
  | (_, e) :: fields => exact forall_mem_cons.2 ⟨by_children h e, by_children_fields h fields⟩

end

/-- A node of a node is a node. -/
theorem nodes_trans {e n k : Expr} (hn : n ∈ e.nodes) (hk : k ∈ n.nodes) : k ∈ e.nodes := by
  induction e using by_children with
  | h e ih =>
    rw [nodes_eq] at hn
    rcases mem_cons.1 hn with rfl | hn
    · exact hk
    · obtain ⟨c, hc, hn⟩ := mem_flatMap.1 hn
      rw [nodes_eq]
      exact mem_cons_of_mem _ (mem_flatMap.2 ⟨c, hc, ih c hc hn⟩)

/-- An expression with something else done to its parts. -/
def mapChildren (f : Expr → Expr) : Expr → Expr
  | .binary m op l r => .binary m op (f l) (f r)
  | .index m base idx => .index m (f base) (f idx)
  | .unary m op e => .unary m op (f e)
  | .addrOf m e => .addrOf m (f e)
  | .deref m e => .deref m (f e)
  | .member m e x => .member m (f e) x
  | .cast m type e => .cast m type (f e)
  | .call m callee args => .call m callee (args.map f)
  | .arrayLit m es => .arrayLit m (es.map f)
  | .builtin m b args => .builtin m b (args.map f)
  | .structLit m fields => .structLit m (fields.map fun g => (g.1, f g.2))
  | e => e

@[simp] theorem mark_mapChildren (f : Expr → Expr) (e : Expr) : (e.mapChildren f).mark = e.mark := by
  cases e <;> rfl

theorem children_mapChildren (f : Expr → Expr) (e : Expr) :
    (e.mapChildren f).children = e.children.map f := by
  cases e <;> simp [mapChildren, children]

@[simp] theorem ty_withMark (m : Mark) (e : Expr) : (e.withMark m).ty = m.ty := by
  rw [ty, mark_withMark]

@[simp] theorem children_withMark (m : Mark) (e : Expr) : (e.withMark m).children = e.children := by
  cases e <;> rfl

@[simp] theorem children_withTy (t : Ty) (e : Expr) : (e.withTy t).children = e.children :=
  children_withMark _ e

end Expr

mutual

/-- The expressions inside a statement. -/
def Stmt.nodes : Stmt → List Expr
  | .block _ body => nodesOfAll body
  | .expr _ e => e.nodes
  | .assign _ target value => target.nodes ++ value.nodes
  | .var _ d => d.init.toList.flatMap Expr.nodes
  | .cond _ test yes no => test.nodes ++ yes.nodes ++ nodesOfOption no
  | .loop _ init test post body =>
    (init.toList.map (·.2)).flatMap Expr.nodes ++ test.nodes ++ body.nodes ++ nodesOfOption post
  | .ret _ value => value.toList.flatMap Expr.nodes
  | .brk _ | .cont _ => []

/-- The expressions inside a statement that may be missing. -/
def Stmt.nodesOfOption : Option Stmt → List Expr
  | none => []
  | some s => s.nodes

/-- The expressions inside some statements. -/
def Stmt.nodesOfAll : List Stmt → List Expr
  | [] => []
  | s :: rest => s.nodes ++ nodesOfAll rest

end

end Sigil
