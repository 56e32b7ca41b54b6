import Sigil.Proofs.Typing.Nodes

/-!
# What trees are made of

A statement is made of expressions (`Stmt.roots`), of types that are written for its locals
(`Stmt.declared`), and it stands at a place, as the statements inside it do (`Stmt.places`). What is known of
an expression is mostly known of every node in it (`Expr.All`).
-/

namespace Sigil

open List

namespace Expr

variable {N : Expr → Prop} {e : Expr}

/-- The expression and everything inside it satisfies `N`. -/
def All (N : Expr → Prop) (e : Expr) : Prop :=
  ∀ n ∈ e.nodes, N n

theorem all_iff : e.All N ↔ N e ∧ ∀ k ∈ e.children, k.All N :=
  forall_nodes

theorem All.self (h : e.All N) : N e :=
  (all_iff.1 h).1

theorem All.child {k : Expr} (h : e.All N) (hk : k ∈ e.children) : k.All N :=
  (all_iff.1 h).2 k hk

theorem all_many {ks : List Expr} (he : N e) (hchildren : e.children = ks) (hks : ∀ k ∈ ks, k.All N) :
    e.All N :=
  all_iff.2 ⟨he, hchildren ▸ hks⟩

theorem all_leaf (he : N e) (hleaf : e.children = []) : e.All N :=
  all_many he hleaf (forall_mem_nil _)

theorem all_one {k : Expr} (he : N e) (hchildren : e.children = [k]) (hk : k.All N) : e.All N :=
  all_many he hchildren (forall_mem_singleton.2 hk)

theorem all_two {k k' : Expr} (he : N e) (hchildren : e.children = [k, k']) (hk : k.All N)
    (hk' : k'.All N) : e.All N :=
  all_many he hchildren (forall_mem_cons.2 ⟨hk, forall_mem_singleton.2 hk'⟩)

/-- The expression and everything inside it stands at places with the property. -/
def At (P : Position → Prop) (e : Expr) : Prop :=
  e.All fun n => P n.pos

/-- The type that is written in an expression itself, outside its parts. -/
def type? : Expr → Option TypeExpr
  | .cast _ type _ | .sizeof _ type => some type
  | _ => none

/-- The node stands at a place with the property, and a type that is written in it satisfies `W`. -/
structure Fit (P : Position → Prop) (W : TypeExpr → Prop) (n : Expr) : Prop where
  pos : P n.pos
  type : ∀ type, n.type? = some type → W type

variable {P : Position → Prop} {W : TypeExpr → Prop}

theorem fit_of_pos (hpos : P e.pos) (htype : e.type? = none) : e.Fit P W := by
  refine ⟨hpos, fun type h => ?_⟩
  rw [htype] at h
  cases h

theorem type?_withMark (m : Mark) (e : Expr) : (e.withMark m).type? = e.type? := by
  cases e <;> rfl

theorem type?_mapChildren (g : Expr → Expr) (e : Expr) : (e.mapChildren g).type? = e.type? := by
  cases e <;> rfl

/-- A mark at another place may take the place of that of an expression. -/
theorem withMark_fit (h : e.All (Fit P W)) {m : Mark} (hm : P m.pos) : (e.withMark m).All (Fit P W) := by
  refine all_many ⟨?_, ?_⟩ (children_withMark m e) (all_iff.1 h).2
  · rw [Expr.pos, mark_withMark]
    exact hm
  · rw [type?_withMark]
    exact h.self.type

theorem withTy_fit (h : e.All (Fit P W)) (t : Ty) : (e.withTy t).All (Fit P W) :=
  withMark_fit h h.self.pos

end Expr

namespace Stmt

mutual

/-- The expressions that a statement is made of. -/
def roots : Stmt → List Expr
  | .block _ body => rootsOfAll body
  | .expr _ e => [e]
  | .assign _ l r => [l, r]
  | .var _ d => d.init.toList
  | .cond _ test yes no => test :: (yes.roots ++ rootsOfOption no)
  | .loop _ init test post body => init.toList.map (·.2) ++ test :: (body.roots ++ rootsOfOption post)
  | .ret _ value => value.toList
  | .brk _ | .cont _ => []

/-- The expressions that a statement is made of, if it is there. -/
def rootsOfOption : Option Stmt → List Expr
  | none => []
  | some s => s.roots

/-- The expressions that some statements are made of. -/
def rootsOfAll : List Stmt → List Expr
  | [] => []
  | s :: rest => s.roots ++ rootsOfAll rest

end

mutual

/-- The nodes of a statement are those of its roots, by recursion on the statement. -/
theorem nodes_eq_roots (s : Stmt) : s.nodes = s.roots.flatMap Expr.nodes := by
  match s with
  | .block pos body => exact nodesOfAll_eq_roots body
  | .cond pos test yes no => simp [nodes, roots, nodes_eq_roots yes, nodesOfOption_eq_roots no]
  | .loop pos init test post body =>
    simp [nodes, roots, nodes_eq_roots body, nodesOfOption_eq_roots post]
  | .expr _ _ | .assign _ _ _ | .var _ _ | .ret _ _ | .brk _ | .cont _ => simp [nodes, roots]

theorem nodesOfOption_eq_roots (s : Option Stmt) : nodesOfOption s = (rootsOfOption s).flatMap Expr.nodes := by
  match s with
  | none => rfl
  | some s => exact nodes_eq_roots s

theorem nodesOfAll_eq_roots (sts : List Stmt) : nodesOfAll sts = (rootsOfAll sts).flatMap Expr.nodes := by
  match sts with
  | [] => rfl
  | s :: rest => simp [nodesOfAll, rootsOfAll, nodes_eq_roots s, nodesOfAll_eq_roots rest]

end

theorem mem_nodesOfAll {sts : List Stmt} {e : Expr} (h : e ∈ rootsOfAll sts) : e ∈ nodesOfAll sts := by
  rw [nodesOfAll_eq_roots]
  exact mem_flatMap.2 ⟨e, h, by rw [Expr.nodes_eq]; exact mem_cons_self⟩

mutual

/-- The types of the locals that a statement declares. -/
def declared : Stmt → List TypeExpr
  | .block _ body => declaredOfAll body
  | .var _ d => d.type.toList
  | .cond _ _ yes no => yes.declared ++ declaredOfOption no
  | .loop _ _ _ post body => body.declared ++ declaredOfOption post
  | _ => []

/-- The types of locals in a statement that may be missing. -/
def declaredOfOption : Option Stmt → List TypeExpr
  | none => []
  | some s => s.declared

/-- The types of locals in some statements. -/
def declaredOfAll : List Stmt → List TypeExpr
  | [] => []
  | s :: rest => s.declared ++ declaredOfAll rest

end

mutual

/-- The places of a statement and of the statements inside it. -/
def places : Stmt → List Position
  | .block pos body => pos :: placesOfAll body
  | .cond pos _ yes no => pos :: (yes.places ++ placesOfOption no)
  | .loop pos _ _ post body => pos :: (body.places ++ placesOfOption post)
  | s => [s.pos]

/-- The places of a statement that may be missing. -/
def placesOfOption : Option Stmt → List Position
  | none => []
  | some s => s.places

/-- The places of some statements. -/
def placesOfAll : List Stmt → List Position
  | [] => []
  | s :: rest => s.places ++ placesOfAll rest

end

variable (P : Position → Prop) (T : Expr → Prop) (D : TypeExpr → Prop)

/-- The expressions of a statement satisfy `T`, and the types of its locals satisfy `D`. -/
def Has (s : Stmt) : Prop :=
  (∀ e ∈ s.roots, T e) ∧ ∀ type ∈ s.declared, D type

/-- The same of a statement that may be missing. -/
def OptionHas (s : Option Stmt) : Prop :=
  (∀ e ∈ rootsOfOption s, T e) ∧ ∀ type ∈ declaredOfOption s, D type

/-- The same of some statements. -/
def AllHave (sts : List Stmt) : Prop :=
  (∀ e ∈ rootsOfAll sts, T e) ∧ ∀ type ∈ declaredOfAll sts, D type

/-- A statement stands at places with the property, and its expressions satisfy `T`. -/
def Over (s : Stmt) : Prop :=
  (∀ p ∈ s.places, P p) ∧ ∀ e ∈ s.roots, T e

/-- The same of a statement that may be missing. -/
def OptionOver (s : Option Stmt) : Prop :=
  (∀ p ∈ placesOfOption s, P p) ∧ ∀ e ∈ rootsOfOption s, T e

/-- The same of some statements. -/
def AllOver (sts : List Stmt) : Prop :=
  (∀ p ∈ placesOfAll sts, P p) ∧ ∀ e ∈ rootsOfAll sts, T e

variable {P T} {pos : Position} {test : Expr}

/-- A statement without others inside it. -/
theorem over_of_roots {s : Stmt} (hpos : P s.pos) (hplaces : s.places = [s.pos]) (hroots : ∀ e ∈ s.roots, T e) :
    s.Over P T :=
  ⟨hplaces ▸ forall_mem_singleton.2 hpos, hroots⟩

theorem optionOver_none : OptionOver P T none :=
  ⟨forall_mem_nil _, forall_mem_nil _⟩

theorem over_block (hpos : P pos) {body : List Stmt} (hbody : AllOver P T body) :
    (block pos body).Over P T :=
  ⟨forall_mem_cons.2 ⟨hpos, hbody.1⟩, hbody.2⟩

theorem over_cond (hpos : P pos) (htest : T test) {yes : Stmt} (hyes : yes.Over P T) {no : Option Stmt}
    (hno : OptionOver P T no) : (cond pos test yes no).Over P T :=
  ⟨forall_mem_cons.2 ⟨hpos, forall_mem_append.2 ⟨hyes.1, hno.1⟩⟩,
    forall_mem_cons.2 ⟨htest, forall_mem_append.2 ⟨hyes.2, hno.2⟩⟩⟩

theorem over_loop (hpos : P pos) {init : Option (String × Expr)} (hinit : ∀ e ∈ init.toList.map (·.2), T e)
    (htest : T test) {post : Option Stmt} (hpost : OptionOver P T post) {body : Stmt}
    (hbody : body.Over P T) : (loop pos init test post body).Over P T :=
  ⟨forall_mem_cons.2 ⟨hpos, forall_mem_append.2 ⟨hbody.1, hpost.1⟩⟩,
    forall_mem_append.2
      ⟨hinit, forall_mem_cons.2 ⟨htest, forall_mem_append.2 ⟨hbody.2, hpost.2⟩⟩⟩⟩

theorem allOver_of_forall {sts : List Stmt} (h : ∀ s ∈ sts, s.Over P T) : AllOver P T sts := by
  induction sts with
  | nil => exact ⟨forall_mem_nil _, forall_mem_nil _⟩
  | cons s sts ih =>
    obtain ⟨hs, hsts⟩ := forall_mem_cons.1 h
    exact ⟨forall_mem_append.2 ⟨hs.1, (ih hsts).1⟩, forall_mem_append.2 ⟨hs.2, (ih hsts).2⟩⟩

end Stmt

end Sigil
