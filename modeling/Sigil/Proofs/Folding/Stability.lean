import Sigil.Proofs.Folding.Typing

/-!
# All literals are found by the first pass

A pass makes a literal of every expression that can be computed, since it folds the parts of an expression
first. What is no literal after an error-free pass stays none, however many passes follow (`Fold.Lasting`),
and a divisor that is not known stays unknown. So what the first pass leaves is steady
(`Fold.steady_of_errors`), and there are no errors after it (`Fold.errors_of_steady`).
-/

namespace Sigil

open Expr

@[simp] theorem Folded.errors_map {α β : Type} (f : α → β) (x : Folded α) : (f <$> x).errors = x.errors :=
  List.append_nil _

open Typing

variable {T : Symbols} {Γ : Env}

namespace Fold

variable {e : Expr} {c : Int}

/-- Every node of the expression is lasting. -/
def Steady (e : Expr) : Prop :=
  ∀ n ∈ e.nodes, Lasting n

theorem steady_iff : Steady e ↔ Lasting e ∧ ∀ c ∈ e.children, Steady c :=
  forall_nodes

theorem Steady.child {c : Expr} (h : Steady e) (hc : c ∈ e.children) : Steady c :=
  (steady_iff.1 h).2 c hc

/-! ## Literals -/

theorem steady_boolLit (m : Mark) (b : Bool) : Steady (.boolLit m b) :=
  steady_iff.2 ⟨trivial, by rintro _ ⟨⟩⟩

theorem steady_ofValue (m : Mark) (v : Int) (t : Ty) : Steady (.ofValue m v t) := by
  cases t <;> exact steady_iff.2 ⟨trivial, by rintro _ ⟨⟩⟩

theorem Lasting.withMark (h : Lasting e) {m : Mark} (hm : m.ty = e.ty) :
    Lasting (e.withMark m) := by
  cases e with
  | unary m' op e => cases op <;> exact h
  | cast m' type e =>
    have hm' : m.ty = m'.ty := hm
    intro t ht
    exact h t (hm' ▸ ht)
  | _ => exact h

theorem Steady.withMark (h : Steady e) {m : Mark} (hm : m.ty = e.ty) : Steady (e.withMark m) := by
  obtain ⟨he, hc⟩ := steady_iff.1 h
  refine steady_iff.2 ⟨he.withMark hm, ?_⟩
  rwa [children_withMark]

theorem bool?_of_isOrdered (he : Rule T Γ e) {t : Ty} (ht : e.ty = some t)
    (ho : t.isOrdered = true) : e.bool? = none := by
  cases he with
  | bool h =>
    cases h.symm.trans ht
    cases ho
  | _ => rfl

theorem ne_logic {op : BinOp} (h : op.isArith = true ∨ op.isCompare = true) : op ≠ .and ∧ op ≠ .or := by
  constructor <;> (rintro rfl; rcases h with h | h <;> cases h)

/-! ## A node after a pass -/

variable {m : Mark} {t : Ty} {op : BinOp} {l r : Expr}

theorem steady_binary (hl : Steady l) (hr : Steady r) (h : Lasting (.binary m op l r)) :
    Steady (.binary m op l r) := by
  refine steady_iff.2 ⟨h, fun c hc => ?_⟩
  simp only [children, List.mem_cons, List.not_mem_nil, or_false] at hc
  rcases hc with rfl | rfl
  · exact hl
  · exact hr

theorem divides_of_combine? {inner op' : BinOp} {c1 c2 : Int}
    (h : combine? inner op c1 c2 = some (op', c)) : divides op' = false := by
  cases inner <;> cases op <;> cases h <;> rfl

/-- Unless it is faulty, a node becomes steady if its parts are. -/
theorem steady_node (h : Node T Γ e) (hc : ∀ c ∈ e.children, Steady c) (herrors : (node e).errors = []) :
    Steady (node e).result := by
  obtain ⟨t, ht, -⟩ := h.ty
  have hnode := becomes_node e
  generalize node e = x at hnode herrors ⊢
  cases hnode with
  | keep hlasting => exact steady_iff.2 ⟨hlasting t ht, hc⟩
  | fault => cases herrors
  | change hr =>
    cases hr with
    | neg | cast | arith => exact steady_ofValue _ _ _
    | not | decided | sameBool | otherBool | compare => exact steady_boolLit _ _
    | undecided hop =>
      obtain ⟨-, hr, hm⟩ := h.rule.of_logic hop
      exact (hc _ right_mem_children).withMark (hm.trans hr.symm)
    | swap hop ha hr =>
      refine steady_binary (hc _ right_mem_children) (hc _ left_mem_children)
        (lasting_arith (isArith_of_swap hop) (Or.inl hr) ?_)
      rcases hop with rfl | rfl <;> rintro ⟨⟩
    | neutral hop =>
      obtain ⟨u, -, hl, -, hm⟩ := h.rule.of_arith hop
      exact (hc _ left_mem_children).withMark (hm.trans hl.symm)
    | reassociate hm h1 h2 hcomb =>
      -- The inner operation is lasting and its right operand is known, so the left one is not.
      have hl := hc _ left_mem_children
      obtain ⟨hinner, -, hop'⟩ := isArith_of_combine? hcomb
      have hx := ((steady_iff.1 hl).1.2.2.1 (ne_logic (Or.inl hinner))).resolve_right (by simp [h1])
      refine steady_binary (hl.child left_mem_children) (steady_ofValue _ _ _)
        (lasting_arith hop' (Or.inl hx) ?_)
      simp [divides_of_combine? hcomb]

/-! ## A steady node -/

/-- The two expressions are known alike. -/
def KnownAlike (e e' : Expr) : Prop :=
  e'.value? = e.value? ∧ e'.bool? = e.bool?

theorem castValue?_eq (t : Ty) (e : Expr) : castValue? t e = match t with
    | .int _ _ => (e.bool?.map fun b => if b then 1 else 0).or e.value?
    | .char => e.value?
    | _ => none := by
  cases t with
  | int bits signed => cases e <;> rfl
  | _ => rfl

theorem KnownAlike.castValue? {e' : Expr} (h : KnownAlike e e') (t : Ty) :
    castValue? t e' = castValue? t e := by
  rw [castValue?_eq, castValue?_eq, h.1, h.2]

theorem value?_withMark (hm : m.ty = e.ty) : (e.withMark m).value? = e.value? := by
  cases e with
  | intLit m' n =>
    have hm' : m.ty = m'.ty := hm
    simp only [withMark, value?, hm']
  | _ => rfl

theorem bool?_withMark (e : Expr) : (e.withMark m).bool? = e.bool? := by
  cases e <;> rfl

/-- What lasts, lasts as long as the parts are known alike. -/
theorem Lasting.mapChildren (h : Lasting e) {g : Expr → Expr}
    (hg : ∀ c ∈ e.children, KnownAlike c (g c)) : Lasting (e.mapChildren g) := by
  cases e with
  | unary m op e =>
    have he := hg e List.mem_cons_self
    cases op with
    | neg => exact he.1.trans h
    | not => exact he.2.trans h
  | cast m type e =>
    intro t ht
    exact ((hg e List.mem_cons_self).castValue? t).trans (h t ht)
  | binary m op l r =>
    have hl := hg l left_mem_children
    have hr := hg r right_mem_children
    simp only [Expr.mapChildren, Lasting, hl.1, hl.2, hr.1, hr.2]
    exact h
  | _ => trivial

theorem knownAlike_mapChildren (e : Expr) (g : Expr → Expr) : KnownAlike e (e.mapChildren g) := by
  cases e <;> exact ⟨rfl, rfl⟩

/-- A lasting node divides by nothing known to be zero. -/
theorem errors_node (h : Lasting e) : (node e).errors = [] := by
  have hnode := becomes_node e
  generalize node e = x at hnode ⊢
  cases hnode with
  | keep | change => rfl
  | fault hk hnot => exact absurd h hnot

/-- Folding makes no literal of a lasting node, and leaves a literal as it is. -/
theorem knownAlike_node (ht : e.Typed T Γ) (h : Lasting e) : KnownAlike e (node e).result := by
  refine node_cases (P := KnownAlike e) ⟨rfl, rfl⟩ fun e' hrewrites => ?_
  cases hrewrites with
  | neg hm hv => cases hv.symm.trans h
  | not => cases h
  | cast hm hv => cases hv.symm.trans (h _ hm)
  | decided hop => cases h.1 hop
  | undecided hop => cases h.1 hop
  | sameBool => rcases h.2.1 (Or.inl rfl) with h | h <;> cases h
  | otherBool => rcases h.2.1 (Or.inr rfl) with h | h <;> cases h
  | compare hop ha hb =>
    rcases h.2.2.1 (ne_logic (Or.inr hop)) with hnone | hnone
    · cases ha.symm.trans hnone
    · cases hb.symm.trans hnone
  | arith hm hop ha hb =>
    rcases h.2.2.1 (ne_logic (Or.inl hop)) with hnone | hnone
    · cases ha.symm.trans hnone
    · cases hb.symm.trans hnone
  | swap => exact ⟨rfl, rfl⟩
  | @neutral m op l r c hop hl hc hn =>
    -- The left operand is no literal, nor is it a truth value.
    obtain ⟨t, ho, hlt, -, hm⟩ := ht.node.rule.of_arith hop
    have hleft : l.Typed T Γ := ht.child left_mem_children
    refine ⟨?_, ?_⟩
    · rw [value?_withMark (hm.trans hlt.symm), hl]
      rfl
    · rw [bool?_withMark, bool?_of_isOrdered hleft.node.rule hlt ho]
      rfl
  | reassociate => exact ⟨rfl, rfl⟩

/-! ## Expressions -/

/-- An error-free pass leaves a steady expression. -/
theorem steady_of_errors (h : e.Typed T Γ) (herrors : (expr e).errors = []) :
    Steady (expr e).result := by
  induction e using by_children with
  | h e ih =>
    rw [errors_expr, List.append_eq_nil_iff, List.flatMap_eq_nil_iff] at herrors
    rw [result_expr]
    refine steady_node (typed_mapChildren h).node ?_ herrors.2
    rw [children_mapChildren]
    intro c hc
    obtain ⟨c0, hc0, rfl⟩ := List.mem_map.1 hc
    exact ih c0 hc0 (h.child hc0) (herrors.1 c0 hc0)

/-- A pass over a steady expression meets no error, and what is known stays as it is. -/
theorem errors_of_steady (h : e.Typed T Γ) (hs : Steady e) :
    (expr e).errors = [] ∧ KnownAlike e (expr e).result := by
  induction e using by_children with
  | h e ih =>
    obtain ⟨hlasting, hparts⟩ := steady_iff.1 hs
    have hsame : ∀ c ∈ e.children, KnownAlike c (expr c).result :=
      fun c hc => (ih c hc (h.child hc) (hparts c hc)).2
    have hfolded := hlasting.mapChildren hsame
    constructor
    · rw [errors_expr, errors_node hfolded, List.append_nil, List.flatMap_eq_nil_iff]
      exact fun c hc => (ih c hc (h.child hc) (hparts c hc)).1
    · have hnode := knownAlike_node (typed_mapChildren h) hfolded
      have hmap := knownAlike_mapChildren e fun c => (expr c).result
      rw [result_expr]
      exact ⟨hnode.1.trans hmap.1, hnode.2.trans hmap.2⟩

end Fold

end Sigil
