import Sigil.Proofs.Laws.Expressions

/-!
# Places and types in checked expressions

Checking makes new nodes, for constants, sizes and enum variants, for the characters of a text and for structs
behind pointers, and places each of them where the expression is that it stands for. It keeps the types of
conversions, which have been resolved where they stand, and brings in no others. It makes a name of nothing
else, and no call of `@free` (`Check.outcome_of_result`).
-/

namespace Sigil

open Expr List

namespace Expr

@[simp] theorem name?_withTy (e : Expr) (t : Ty) : (e.withTy t).name? = e.name? := by
  cases e <;> rfl

@[simp] theorem freed?_withTy (e : Expr) (t : Ty) : (e.withTy t).freed? = e.freed? := by
  cases e with
  | builtin m b args => cases b <;> rfl
  | _ => rfl

/-- Whether an expression is no name, no call of a builtin, and has no type written in it itself. -/
def isPlain : Expr → Bool
  | .ident .. | .builtin .. | .cast .. | .sizeof .. => false
  | _ => true

theorem of_isPlain {e : Expr} (h : e.isPlain = true) : e.type? = none ∧ e.name? = none ∧ e.freed? = none := by
  cases e <;> first | exact ⟨rfl, rfl, rfl⟩ | cases h

end Expr

namespace Check

variable {c : Context} {f : Frame} {e : Expr} {hint : Option Ty} {r : Expr × Ty} {P : Position → Prop}
  {W : TypeExpr → Prop}

/-- Whatever type can be resolved at some point of a function satisfies `D`. -/
def Context.Covers (c : Context) (D : TypeExpr → Prop) : Prop :=
  ∀ (f : Frame) type t, c.symbols.ask ((c.names f).resolve type) = .ok t → D type

/-- What is known of the outcome `r` of the check of `e`: everything in it fits, and it is a name, or frees
one, only if `e` does. -/
structure Outcome (P : Position → Prop) (W : TypeExpr → Prop) (e : Expr) (r : Expr × Ty) : Prop where
  fit : r.1.All (Fit P W)
  name : ∀ x, r.1.name? = some x → e.name? = some x
  freed : ∀ x, r.1.freed? = some x → e.freed? = some x

/-- An expression that says nothing of its own only has to have fitting children. -/
theorem outcome_plain {e' : Expr} {t : Ty} (hpos : P e'.pos) (hplain : e'.isPlain = true)
    (hks : ∀ k ∈ e'.children, k.All (Fit P W)) : Outcome P W e (accepted e' t) := by
  obtain ⟨htype, hname, hfreed⟩ := of_isPlain hplain
  refine ⟨withTy_fit (all_iff.2 ⟨fit_of_pos hpos htype, hks⟩) t, fun x hx => ?_, fun x hx => ?_⟩
  · rw [accepted, name?_withTy, hname] at hx
    cases hx
  · rw [accepted, freed?_withTy, hfreed] at hx
    cases hx

theorem outcome_leaf {e' : Expr} {t : Ty} (hpos : P e'.pos) (hplain : e'.isPlain = true)
    (hleaf : e'.children = []) : Outcome P W e (accepted e' t) :=
  outcome_plain hpos hplain (hleaf ▸ forall_mem_nil _)

theorem outcome_int {m : Mark} {n : Word} (hm : P m.pos) (h : FormsInt m n hint r) : Outcome P W e r := by
  cases h <;> exact outcome_leaf hm rfl rfl

theorem outcome_neg {m : Mark} {N : Option Ty → Expr × Ty → Prop} (hm : P m.pos)
    (hN : ∀ hint r, N hint r → r.1.All (Fit P W)) (h : FormsNeg m N hint r) : Outcome P W e r := by
  obtain ⟨isOpen, k, t, hk, -, rfl⟩ := h
  exact outcome_plain hm rfl (forall_mem_singleton.2 (hN _ _ hk))

/-- A constant leaves a literal at the place of its name. -/
theorem outcome_const {m : Mark} {g : GlobalConst} (hm : P m.pos) (h : FormsConst m hint g r) :
    Outcome P W e r := by
  obtain ⟨ty, value⟩ := g
  cases value with
  | int n =>
    cases ty with
    | none =>
      simp only [FormsConst] at h
      split at h
      · exact outcome_neg hm (fun _ _ h => (outcome_int (e := e) (m := ⟨m.pos, none⟩) hm h).fit) h
      · exact outcome_int hm h
    | some t =>
      cases h
      exact outcome_leaf hm rfl rfl
  | _ =>
    cases h
    exact outcome_leaf hm rfl rfl

/-- What comes out of the check of an expression. -/
theorem outcome_of_result (hW : c.Covers W) (he : e.At P) (h : Result c f e hint r) : Outcome P W e r := by
  -- The hint varies: the parts are checked under hints of their own.
  induction e using by_children generalizing hint r with
  | h e ih =>
    obtain ⟨hm, hchildren⟩ := all_iff.1 he
    replace ih : ∀ k ∈ e.children, ∀ {hint r}, Result c f k hint r → Outcome P W k r :=
      fun k hk _ _ h => ih k hk (hchildren k hk) h
    have hcoerced : ∀ {t e' k}, k ∈ e.children → Coerced c f t e' k → e'.All (Fit P W) :=
      fun hk h => h.result.elim fun _ h => (ih _ hk h.1).fit
    replace h := h.forms
    cases e with
    | intLit m n => exact outcome_int hm h
    | boolLit | charLit | enumLit =>
      cases h
      exact outcome_leaf hm rfl rfl
    | strLit m s =>
      rcases h with rfl | ⟨length, -, -, rfl⟩
      · exact outcome_leaf hm rfl rfl
      · refine outcome_plain hm rfl fun e' he' => ?_
        obtain ⟨b, -, rfl⟩ := mem_map.1 he'
        exact all_leaf (fit_of_pos hm rfl) rfl
    | nil m =>
      obtain ⟨t, -, rfl⟩ := h
      exact outcome_leaf hm rfl rfl
    | zeroed m =>
      obtain ⟨t, -, rfl⟩ := h
      exact outcome_leaf hm rfl rfl
    | ident m x =>
      rcases h with ⟨slot, -, rfl⟩ | ⟨-, -, g, -, hg⟩
      · refine ⟨withTy_fit (all_leaf (e := .ident m x) (fit_of_pos hm rfl) rfl) _, fun y hy => ?_, fun y hy => ?_⟩
        · exact hy
        · cases hy
      · exact outcome_const hm hg
    | sizeof m type =>
      obtain ⟨size, -, rfl⟩ := h
      exact outcome_leaf hm rfl rfl
    | binary m op l r =>
      have hboth : ∀ {op' t' l' r' hl hr lt rt}, Result c f l hl (l', lt) → Result c f r hr (r', rt) →
          Outcome P W (.binary m op l r) (accepted (.binary m op' l' r') t') := fun hl hr =>
        outcome_plain hm rfl (forall_mem_cons.2 ⟨(ih l left_mem_children hl).fit,
          forall_mem_singleton.2 (ih r right_mem_children hr).fit⟩)
      cases h with
      | logic _ hl hr => exact hboth hl hr
      | arith _ h | compare _ h =>
        rcases h with ⟨hl, hr⟩ | ⟨hr, hl⟩ <;> exact hboth hl hr
    | unary m op k =>
      cases op with
      | neg => exact outcome_neg (N := Result c f k) hm (fun _ _ hk => (ih k mem_cons_self hk).fit) h
      | not =>
        obtain ⟨e', he', rfl⟩ := h
        exact outcome_plain hm rfl (forall_mem_singleton.2 (ih k mem_cons_self he').fit)
    | addrOf m k =>
      obtain ⟨e', t, inner, -, he', -, rfl⟩ := h
      exact outcome_plain hm rfl (forall_mem_singleton.2 (ih k mem_cons_self he').fit)
    | deref m k =>
      obtain ⟨e', t, he', -, rfl⟩ := h
      exact outcome_plain hm rfl (forall_mem_singleton.2 (ih k mem_cons_self he').fit)
    | member m k x =>
      rcases h with ⟨enum, n, rfl⟩ | ⟨e', t, base, s, layout, fld, he', hbase, -, -, rfl⟩
      · exact outcome_leaf hm rfl rfl
      · refine outcome_plain hm rfl (forall_mem_singleton.2 ?_)
        have he' := (ih k mem_cons_self he').fit
        -- A struct behind a pointer is read at the place of the whole.
        rcases hbase with ⟨-, rfl⟩ | ⟨-, rfl⟩
        · exact he'
        · exact all_one (fit_of_pos hm rfl) rfl he'
    | index m k i =>
      obtain ⟨b, t, i', it, u, hb, hi, -, -, rfl⟩ := h
      have hi := ih i (by simp [children]) hi
      exact outcome_plain hm rfl
        (forall_mem_cons.2 ⟨(ih k mem_cons_self hb).fit, forall_mem_singleton.2 hi.fit⟩)
    | structLit m fields =>
      obtain ⟨s, layout, es, -, -, hes, rfl⟩ := h
      refine outcome_plain hm rfl fun e' he' => ?_
      obtain ⟨g, hg, rfl⟩ := mem_map.1 he'
      obtain ⟨fld, -, -, k, hk, h⟩ := forall₂_left hes hg
      exact hcoerced hk h
    | arrayLit m ks =>
      rcases h with ⟨length, elem, -, rfl | ⟨-, es, hes, rfl⟩⟩ | ⟨k, rest, e', elem, es, rfl, he', hes, rfl⟩
      · exact outcome_leaf hm rfl rfl
      · refine outcome_plain hm rfl fun e' he' => ?_
        obtain ⟨k, hk, h⟩ := forall₂_left hes he'
        exact hcoerced hk h
      · refine outcome_plain hm rfl (forall_mem_cons.2 ⟨(ih k mem_cons_self he').fit, fun e' he' => ?_⟩)
        obtain ⟨k', hk', h⟩ := forall₂_left hes he'
        exact hcoerced (mem_cons_of_mem _ hk') h
    | cast m type k =>
      obtain ⟨target, e', source, htarget, he', -, rfl⟩ := h
      -- The target of a conversion has been resolved.
      have hnode : (Expr.cast m type e').Fit P W := by
        refine ⟨hm, ?_⟩
        rintro _ ⟨⟩
        exact hW f type target htarget
      refine ⟨withTy_fit (all_one hnode rfl (ih k mem_cons_self he').fit) _, fun x hx => ?_, fun x hx => ?_⟩
      · cases hx
      · cases hx
    | call m callee args =>
      obtain ⟨m', x, sig, es, -, -, -, -, hes, rfl⟩ := h
      refine outcome_plain hm rfl fun e' he' => ?_
      obtain ⟨a, ha, h⟩ := forall₂_left hes he'
      exact hcoerced (of_mem_zip ha).1 h
    | builtin m b args =>
      obtain ⟨rs, es, -, hes, rfl⟩ := h
      have hfit : ∀ e' ∈ es, e'.All (Fit P W) := by
        intro e' he'
        obtain ⟨a, ha, t, h, -⟩ := forall₂_left hes he'
        exact (ih a.1 (of_mem_zip ha).1 h).fit
      refine ⟨withTy_fit (all_many (e := .builtin m b es) (fit_of_pos hm rfl) rfl hfit) _, fun x hx => ?_,
        fun x hx => ?_⟩
      · cases hx
      · cases b with
        | free =>
          -- The first argument, if it is checked to a name, is this name.
          cases args with
          | nil =>
            cases hes
            cases hx
          | cons arg args =>
            cases rs with
            | nil =>
              cases hes
              cases hx
            | cons role rs =>
              cases hes with
              | cons harg _ =>
                obtain ⟨t, harg, -⟩ := harg
                exact (ih arg mem_cons_self harg).name x hx
        | _ => cases hx

/-- The freeing of a name is checked from the freeing of that name. -/
theorem freed?_of_expr (e : Expr) :
    Returns (fun a => ∀ x, a.1.freed? = some x → e.freed? = some x) (expr c e hint) := by
  intro s a s' ha
  have houtcome : Outcome (fun _ => True) (fun _ => True) e a :=
    outcome_of_result (fun _ _ _ _ => trivial) (fun _ _ => trivial) ⟨s, s', rfl, ha⟩
  exact houtcome.freed

end Check

end Sigil
