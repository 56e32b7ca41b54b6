import Sigil.Fold.Expression
import Sigil.Proofs.Meaning.Values
import Sigil.Proofs.Typing.Expressions

/-!
# Two ways to evaluate constants

A constant that takes its type from where it stands is evaluated twice: exactly, to see whether it is in
the range of the type (`Check.Context.exact?`), and by folding, where every operation is brought into the
range of the type. The two agree modulo the number of values of the type as long as no operand of a
division has been changed by that, and so they agree on a constant that is in range
(`Check.fold_eq_exact_of_coerce`).
-/

namespace Sigil

open Attempt Constant Fold

/-- Arithmetic on literals, all of type `t`. -/
inductive Expr.Arithmetic (t : Ty) : Expr → Prop where
  | lit {m : Mark} {n : Word} (hm : m.ty = some t) : Arithmetic t (.intLit m n)
  | neg {m : Mark} {e : Expr} (hm : m.ty = some t) (he : Arithmetic t e) : Arithmetic t (.unary m .neg e)
  | binary {m : Mark} {op : BinOp} {l r : Expr} (hm : m.ty = some t) (hop : op.isArith = true)
    (hl : Arithmetic t l) (hr : Arithmetic t r) : Arithmetic t (.binary m op l r)

namespace Check

/-- A constant integer that takes its type from where it stands: literals, global constants without a type,
and arithmetic on these. -/
inductive Context.Untyped (c : Context) (f : Frame) : Expr → Prop where
  | lit {m : Mark} {n : Word} (hm : m.ty = none) : Untyped c f (.intLit m n)
  | const {m : Mark} {x : String} {n : Int} (hx : c.isGlobalConst f x = true)
    (hn : c.symbols.ask (c.symbols.globalConst x) = .ok ⟨none, .int n⟩) : Untyped c f (.ident m x)
  | neg {m : Mark} {e : Expr} (he : Untyped c f e) : Untyped c f (.unary m .neg e)
  | binary {m : Mark} {op : BinOp} {l r : Expr} (hop : op.isArith = true) (hl : Untyped c f l)
    (hr : Untyped c f r) : Untyped c f (.binary m op l r)

/-- The expression is a literal or has an exact value in the range of the type. -/
def Context.Precise (c : Context) (f : Frame) (t : Ty) (e : Expr) : Prop :=
  (∃ m w, e = .intLit m w) ∨ ∀ n, c.exact? f e = some n → t.Holds n

/-- The operands of every division in the expression are precise. -/
def Context.DividesPrecisely (c : Context) (f : Frame) (t : Ty) : Expr → Prop
  | .unary _ _ e => c.DividesPrecisely f t e
  | .binary _ op l r => c.DividesPrecisely f t l ∧ c.DividesPrecisely f t r ∧
    (Fold.divides op = true → c.Precise f t l ∧ c.Precise f t r)
  | _ => True

section

variable {c : Context} {f : Frame} {m : Mark} {op : BinOp} {e : Expr} {bits : Nat} {signed : Bool}
  {r : Expr × Ty}

/-! ## What checking makes of untyped constants -/

theorem Context.Untyped.isOpen (h : c.Untyped f e) : c.isOpen f e = true := by
  induction h with
  | lit hm => simp [Context.isOpen, hm]
  | const hx hn => simp [Context.isOpen, hx, hn]
  | neg _ ih => simpa [Context.isOpen] using ih
  | binary hop _ _ ihl ihr => simp [Context.isOpen, hop, ihl, ihr]

/-- The outcome of a check is arithmetic of type `t`. -/
def Reckons (t : Ty) (r : Expr × Ty) : Prop :=
  r.2 = t ∧ r.1.Arithmetic t

theorem FormsInt.reckons {n : Word} (h : FormsInt m n (some (.int bits signed)) r) :
    Reckons (.int bits signed) r := by
  cases h with
  | hinted => exact ⟨rfl, .lit rfl⟩
  | plain h => exact absurd rfl (h bits signed)

theorem FormsNeg.reckons {N : Option Ty → Expr × Ty → Prop}
    (hN : ∀ r, N (some (.int bits signed)) r → Reckons (.int bits signed) r)
    (h : FormsNeg m N (some (.int bits signed)) r) : Reckons (.int bits signed) r := by
  obtain ⟨isOpen, e, t, he, -, rfl⟩ := h
  obtain ⟨rfl, he⟩ := hN _ he
  exact ⟨rfl, .neg rfl he⟩

/-- An expression without a type of its own is arithmetic of the type that is hinted at. -/
theorem Context.Untyped.reckons (h : c.Untyped f e) :
    ∀ r, Result c f e (some (.int bits signed)) r → Reckons (.int bits signed) r := by
  induction h with
  | lit hm => exact fun r h => FormsInt.reckons h.forms
  | const hx hn =>
    intro r h
    simp only [Context.isGlobalConst, Bool.and_eq_true, Bool.not_eq_true', beq_iff_eq, Frame.isLocal,
      Option.isSome_eq_false_iff, Option.isNone_iff_eq_none] at hx
    rcases h.forms with ⟨slot, hslot, -⟩ | ⟨-, -, g, hg, h⟩
    · cases hx.1.symm.trans hslot
    · obtain rfl := Except.ok.inj (hn.symm.trans hg)
      simp only [FormsConst] at h
      split at h
      · exact h.reckons fun _ h => h.reckons
      · exact h.reckons
  | neg _ ih => exact fun r h => FormsNeg.reckons ih h.forms
  | @binary m op l r hop _ _ ihl ihr =>
    intro r h
    have hforms : FormsBinary .. := h.forms
    cases hforms with
    | logic hlogic => rcases hlogic with rfl | rfl <;> cases hop
    | compare hcompare => cases op <;> cases hop <;> cases hcompare
    | arith _ hoperands =>
      rcases hoperands with ⟨hl, hr⟩ | ⟨hr, hl⟩
      · obtain ⟨rfl, hl⟩ := ihl _ hl
        exact ⟨rfl, .binary rfl hop hl (ihr _ hr).2⟩
      · obtain ⟨rfl, hr⟩ := ihr _ hr
        exact ⟨rfl, .binary rfl hop (ihl _ hl).2 hr⟩

/-! ## Exact values -/

/-- An operation on integers fails or is the one of arithmetic. -/
theorem binary_arith (hop : op.isArith = true) (a b : Int) :
    (∃ fault, binary op (.int a) (.int b) = .error fault) ∨
      binary op (.int a) (.int b) = .ok (.int (arith op a b)) := by
  have hexact : ∀ n, (∃ fault, exact a n = .error fault) ∨ exact a n = .ok (.int n) := by
    intro n
    unfold exact
    split
    · exact Or.inr rfl
    · exact Or.inl ⟨_, rfl⟩
  have hdivide : ∀ g, (∃ fault, divide g a b = .error fault) ∨
      divide g a b = .ok (.int (g a b)) := by
    intro g
    unfold divide
    split
    · exact Or.inl ⟨_, rfl⟩
    · split
      · exact Or.inl ⟨_, rfl⟩
      · exact Or.inr rfl
  cases op with
  | add => exact hexact (a + b)
  | sub => exact hexact (a - b)
  | mul => exact hexact (a * b)
  | div => exact hdivide Int.tdiv
  | rem => exact hdivide Int.tmod
  | _ => cases hop

/-- Evaluation asks for no name, and its outcome is an integer. -/
def Evaluates (names : Names) (memo : Memo) (e : Expr) (r : Except Fault Int) : Prop :=
  names.eval e memo = (r.map .int, memo)

section

variable {names : Names} {memo : Memo} {m : Mark} {e l r : Expr}
variable {t : Ty} {n : Int}

theorem Evaluates.neg {ve : Except Fault Int} (he : Evaluates names memo e ve) :
    Evaluates names memo (.unary m .neg e) (ve.map Int128.neg) := by
  unfold Evaluates
  rw [Names.eval]
  cases ve with
  | error fault => exact bind_of_error he
  | ok a => exact bind_of_ok he

theorem Evaluates.binary {op : BinOp} (hop : op.isArith = true) {vl vr : Except Fault Int}
    (hl : Evaluates names memo l vl) (hr : Evaluates names memo r vr) :
    ∃ v, Evaluates names memo (.binary m op l r) v ∧
      ∀ n, v = .ok n → ∃ a b, vl = .ok a ∧ vr = .ok b ∧ n = arith op a b := by
  unfold Evaluates
  rw [Names.eval]
  cases vl with
  | error fault => exact ⟨.error fault, bind_of_error hl, by simp⟩
  | ok a =>
    rw [bind_of_ok hl]
    cases vr with
    | error fault => exact ⟨.error fault, bind_of_error hr, by simp⟩
    | ok b =>
      rw [bind_of_ok hr]
      rcases binary_arith hop a b with ⟨fault, hfault⟩ | hok
      · exact ⟨.error fault, by rw [hfault]; rfl, by simp⟩
      · refine ⟨.ok (arith op a b), by rw [hok]; rfl, fun n hn => ?_⟩
        exact ⟨a, b, rfl, rfl, (Except.ok.inj hn).symm⟩

/-- By the form of the expression. -/
theorem evaluates_of_arithmetic (h : e.Arithmetic t) (names : Names) (memo : Memo) :
    ∃ v, Evaluates names memo e v := by
  induction h with
  | @lit m n hm => exact ⟨.ok (readWord m.ty n), rfl⟩
  | neg hm he ih =>
    obtain ⟨v, hv⟩ := ih
    exact ⟨_, hv.neg⟩
  | binary hm hop hl hr ihl ihr =>
    obtain ⟨vl, hvl⟩ := ihl
    obtain ⟨vr, hvr⟩ := ihr
    obtain ⟨v, hv, -⟩ := Evaluates.binary hop hvl hvr
    exact ⟨v, hv⟩

theorem exact?_of_evaluates {v : Except Fault Int} (h : Evaluates (c.names f) c.symbols.memo e v) :
    c.exact? f e = v.toOption := by
  unfold Context.exact? Symbols.ask
  rw [h]
  cases v with
  | error _ | ok _ => rfl

theorem exact?_neg (he : e.Arithmetic t)
    (h : c.exact? f (.unary m .neg e) = some n) : ∃ a, c.exact? f e = some a ∧ n = Int128.neg a := by
  obtain ⟨v, hv⟩ := evaluates_of_arithmetic he (c.names f) c.symbols.memo
  rw [exact?_of_evaluates hv.neg] at h
  rw [exact?_of_evaluates hv]
  cases v with
  | error fault => cases h
  | ok a => exact ⟨a, rfl, (Option.some.inj h).symm⟩

theorem exact?_binary (hop : op.isArith = true) (hl : l.Arithmetic t)
    (hr : r.Arithmetic t) (h : c.exact? f (.binary m op l r) = some n) :
    ∃ a b, c.exact? f l = some a ∧ c.exact? f r = some b ∧ n = arith op a b := by
  obtain ⟨vl, hvl⟩ := evaluates_of_arithmetic hl (c.names f) c.symbols.memo
  obtain ⟨vr, hvr⟩ := evaluates_of_arithmetic hr (c.names f) c.symbols.memo
  obtain ⟨v, hv, hok⟩ := Evaluates.binary (m := m) hop hvl hvr
  rw [exact?_of_evaluates hv] at h
  rw [exact?_of_evaluates hvl, exact?_of_evaluates hvr]
  cases v with
  | error fault => cases h
  | ok k =>
    obtain ⟨a, b, rfl, rfl, hk⟩ := hok k rfl
    exact ⟨a, b, rfl, rfl, (Option.some.inj h).symm.trans hk⟩

end

end

end Check

/-! ## Folded values -/

theorem Expr.Arithmetic.mark_ty {t : Ty} {e : Expr} (h : e.Arithmetic t) : e.mark.ty = some t := by
  cases h with
  | lit hm | neg hm | binary hm => exact hm

namespace Fold

variable {op : BinOp}

/-- Folding makes a literal of the expression, which is read as `v` in the type `t`. -/
def FoldsTo (t : Ty) (e : Expr) (v : Int) : Prop :=
  ∃ w, (expr e).result = .intLit e.mark w ∧ readWord (some t) w = v

variable {bits : Nat} {signed : Bool} {m : Mark} {e l r : Expr} {a b v : Int}

theorem foldsTo_lit {t : Ty} {n : Word} : FoldsTo t (.intLit m n) (readWord (some t) n) :=
  ⟨n, rfl, rfl⟩

theorem value?_of_foldsTo (he : e.mark.ty = some (.int bits signed)) (h : FoldsTo (.int bits signed) e v) :
    (expr e).result.value? = some v := by
  obtain ⟨w, hw, rfl⟩ := h
  rw [hw, Expr.value?, he]

/-- A literal is negated and wrapped. -/
theorem foldsTo_neg (hm : m.ty = some (.int bits signed)) (he : e.mark.ty = some (.int bits signed))
    (h : FoldsTo (.int bits signed) e v) :
    FoldsTo (.int bits signed) (.unary m .neg e) ((Ty.int bits signed).wrap (-v)) := by
  refine ⟨wrapWord bits signed (-v), ?_, readWord_wrapWord bits signed (-v)⟩
  have hresult : (expr (.unary m .neg e)).result = (node (.unary m .neg (expr e).result)).result := by
    rw [expr]
    rfl
  have hty : (Expr.unary m .neg (expr e).result).ty = some (.int bits signed) := hm
  rw [hresult, node, hty]
  dsimp only
  rw [unary, value?_of_foldsTo he h]
  rfl

/-- An operation on two literals. -/
theorem node_binary (hop : op.isArith = true) (hm : m.ty = some (.int bits signed))
    {ml mr : Mark} (hl : ml.ty = some (.int bits signed)) (hr : mr.ty = some (.int bits signed))
    (wl wr : Word) :
    node (.binary m op (.intLit ml wl) (.intLit mr wr)) =
      known m (.int bits signed) (.binary m op (.intLit ml wl) (.intLit mr wr)) op (.intLit mr wr)
        (readWord (some (.int bits signed)) wl) (readWord (some (.int bits signed)) wr) := by
  have hty : (Expr.binary m op (.intLit ml wl) (.intLit mr wr)).ty = some (.int bits signed) := hm
  rw [node, hty]
  cases op with
  | add | sub | mul | div | rem => simp [binary, operation, Expr.value?, hl, hr]
  | _ => cases hop

/-- Two literals are combined and wrapped. -/
theorem foldsTo_binary (hop : op.isArith = true) (hm : m.ty = some (.int bits signed))
    (hl : l.mark.ty = some (.int bits signed)) (hr : r.mark.ty = some (.int bits signed))
    (ha : FoldsTo (.int bits signed) l a) (hb : FoldsTo (.int bits signed) r b)
    (herrors : (expr (.binary m op l r)).errors = []) :
    FoldsTo (.int bits signed) (.binary m op l r) ((Ty.int bits signed).wrap (arith op a b)) := by
  refine ⟨wrapWord bits signed (arith op a b), ?_, readWord_wrapWord bits signed (arith op a b)⟩
  obtain ⟨wl, hwl, rfl⟩ := ha
  obtain ⟨wr, hwr, rfl⟩ := hb
  have hnode := node_binary hop hm hl hr wl wr
  rw [expr] at herrors ⊢
  simp only [Folded.errors_bind, Folded.result_bind, List.append_eq_nil_iff, hwl, hwr, hnode]
    at herrors ⊢
  have hcompare : ¬op.isCompare = true := by
    cases op with
    | add | sub | mul | div | rem => exact Bool.false_ne_true
    | _ => cases hop
  unfold known at herrors ⊢
  rw [if_neg hcompare] at herrors ⊢
  split at herrors
  · cases herrors.2.2
  · next hzero =>
    rw [if_neg hzero]
    rfl

theorem errors_of_unary {op : UnOp} (h : (expr (.unary m op e)).errors = []) : (expr e).errors = [] := by
  rw [expr, Folded.errors_bind, List.append_eq_nil_iff] at h
  exact h.1

theorem errors_of_binary (h : (expr (.binary m op l r)).errors = []) :
    (expr l).errors = [] ∧ (expr r).errors = [] := by
  rw [expr, Folded.errors_bind, List.append_eq_nil_iff, Folded.errors_bind, List.append_eq_nil_iff] at h
  exact ⟨h.1, h.2.1⟩

end Fold

/-! ## Agreement -/

namespace Ty

/-- The types of integers that can be written hold what they leave as it is. -/
theorem Holds.wrap_eq {bits : Nat} {signed : Bool} (hbits : bits = 64 ∨ bits = 16) {n : Int}
    (h : (Ty.int bits signed).Holds n) : (Ty.int bits signed).wrap n = n := by
  have hmin : min bits 64 = bits := by omega
  cases signed with
  | true =>
    have hpow : 2 ^ min bits 64 = 2 * 2 ^ (bits - 1) := by
      rw [hmin, ← Nat.pow_succ', Nat.succ_eq_add_one, Nat.sub_add_cancel (by omega)]
    obtain ⟨hlo, hhi⟩ : -((2 ^ (bits - 1) : Nat) : Int) ≤ n ∧ n ≤ (2 ^ (bits - 1) : Nat) - 1 := h _ _ rfl
    rw [wrap, hpow]
    generalize 2 ^ (bits - 1) = half at hlo hhi ⊢
    exact Int.bmod_eq_of_le (by omega) (by omega)
  | false =>
    obtain ⟨hlo, hhi⟩ : 0 ≤ n ∧ n ≤ ((2 ^ bits : Nat) : Int) - 1 := h _ _ rfl
    rw [wrap, hmin]
    push_cast at hhi
    exact Int.emod_eq_of_lt hlo (by omega)

theorem neg_modEq (bits : Nat) (signed : Bool) (n : Int) :
    Int128.neg n ≡ -n [ZMOD (Ty.int bits signed).modulus] := by
  unfold Int128.neg
  split
  · next hn =>
    have hpow : (2 ^ min bits 64 : Nat) ∣ 2 ^ 128 := pow_dvd_pow 2 (by omega)
    rw [hn, Int.modEq_iff_dvd]
    exact Int.natCast_dvd_natCast.2 hpow
  · exact .refl _

end Ty

namespace Check

/-- Two values of a constant, by folding and exact: the same modulo the number of values of the type, and
the folded one is exact or has been brought into range. -/
structure Agrees (t : Ty) (folded exact : Int) : Prop where
  modEq : folded ≡ exact [ZMOD t.modulus]
  eq_or_wrap : folded = exact ∨ t.wrap folded = folded

variable {bits : Nat} {signed : Bool} {c : Context} {f : Frame} {e : Expr} {v n : Int}

theorem Agrees.eq (hbits : bits = 64 ∨ bits = 16) (h : Agrees (.int bits signed) v n)
    (hn : (Ty.int bits signed).Holds n) : v = n := by
  rcases h.eq_or_wrap with heq | hwrap
  · exact heq
  · rw [← hwrap, ← hn.wrap_eq hbits]
    exact (Ty.wrap_eq_wrap rfl).2 h.modEq

theorem agrees_wrap (h : v ≡ n [ZMOD (Ty.int bits signed).modulus]) :
    Agrees (.int bits signed) ((Ty.int bits signed).wrap v) n :=
  ⟨(Ty.wrap_modEq rfl v).trans h, Or.inr (Ty.wrap_wrap _ v)⟩

/-- Operands of a division are read as their exact values. -/
theorem eq_of_operand (hbits : bits = 64 ∨ bits = 16) (he : e.Arithmetic (.int bits signed))
    (hfolds : FoldsTo (.int bits signed) e v) (hn : c.exact? f e = some n)
    (hagrees : Agrees (.int bits signed) v n)
    (hprecise : c.Precise f (.int bits signed) e) : v = n := by
  rcases hprecise with ⟨m, w, rfl⟩ | hholds
  · obtain ⟨w', hw', rfl⟩ := hfolds
    obtain ⟨-, rfl⟩ := Expr.intLit.inj hw'
    have hexact : c.exact? f (.intLit m w) = some (readWord m.ty w) := rfl
    rw [he.mark_ty.symm]
    exact Option.some.inj (hexact.symm.trans hn)
  · exact hagrees.eq hbits (hholds n hn)

/-- By the form of the expression: folding agrees with evaluation if divisions do. -/
theorem foldsTo_of_arithmetic (hbits : bits = 64 ∨ bits = 16) (he : e.Arithmetic (.int bits signed))
    (herrors : (Fold.expr e).errors = []) :
    ∃ v, FoldsTo (.int bits signed) e v ∧ ∀ n, c.exact? f e = some n →
      c.DividesPrecisely f (.int bits signed) e → Agrees (.int bits signed) v n := by
  induction he with
  | @lit m w hm =>
    refine ⟨_, foldsTo_lit, fun n hn _ => ?_⟩
    have hexact : c.exact? f (.intLit m w) = some (readWord m.ty w) := rfl
    rw [hm] at hexact
    obtain rfl := Option.some.inj (hexact.symm.trans hn)
    exact ⟨.refl _, Or.inl rfl⟩
  | @neg m e hm he ih =>
    obtain ⟨a, ha, hagrees⟩ := ih (errors_of_unary herrors)
    refine ⟨_, foldsTo_neg hm he.mark_ty ha, fun n hn hdivides => ?_⟩
    obtain ⟨a', ha', rfl⟩ := exact?_neg he hn
    exact agrees_wrap ((hagrees a' ha' hdivides).modEq.neg.trans (Ty.neg_modEq bits signed a').symm)
  | @binary m op l r hm hop hl hr ihl ihr =>
    obtain ⟨hlerrors, hrerrors⟩ := errors_of_binary herrors
    obtain ⟨a, ha, hleft⟩ := ihl hlerrors
    obtain ⟨b, hb, hright⟩ := ihr hrerrors
    refine ⟨_, foldsTo_binary hop hm hl.mark_ty hr.mark_ty ha hb herrors, ?_⟩
    rintro n hn ⟨hldivides, hrdivides, hprecise⟩
    obtain ⟨a', b', ha', hb', rfl⟩ := exact?_binary hop hl hr hn
    have hla := hleft a' ha' hldivides
    have hrb := hright b' hb' hrdivides
    -- A division needs the operands themselves, the other operations only what they agree in.
    have hdivision : divides op = true → arith op a b = arith op a' b' := by
      intro hop'
      obtain ⟨hprecisel, hpreciser⟩ := hprecise hop'
      rw [eq_of_operand hbits hl ha ha' hla hprecisel, eq_of_operand hbits hr hb hb' hrb hpreciser]
    refine agrees_wrap ?_
    cases op with
    | add => exact hla.modEq.add hrb.modEq
    | sub => exact hla.modEq.sub hrb.modEq
    | mul => exact hla.modEq.mul hrb.modEq
    | div | rem =>
      rw [hdivision rfl]
    | _ => cases hop

/-- A constant integer that is coerced to an integer type and folded without errors becomes a literal of
that type, which is folded no further. If it has an exact value, and the operands of every division are
precise, the literal stands for the exact value. -/
theorem fold_eq_exact_of_coerce {s s' : Scope} {e' : Expr} (hbits : bits = 64 ∨ bits = 16)
    (he : c.Untyped s.frame e) (h : coerce c (part c e) (.int bits signed) s = (.ok e', s'))
    (herrors : (Fold.expr e').errors = []) :
    ∃ m w, m.ty = some (.int bits signed) ∧ (Fold.expr e').result = .intLit m w ∧
      Fold.expr (.intLit m w) = .keep (.intLit m w) ∧
      ∀ n, c.exact? s.frame e' = some n → c.DividesPrecisely s.frame (.int bits signed) e' →
        (Expr.intLit m w).value? = some n := by
  obtain ⟨-, ⟨t, ht, -⟩, hholds⟩ := (checks_coerce c s.frame e (.int bits signed) s rfl).of_ok h
  have harith : e'.Arithmetic (.int bits signed) := (he.reckons _ ht).2
  obtain ⟨v, hfolds, hagrees⟩ := foldsTo_of_arithmetic hbits harith herrors
  obtain ⟨w, hw, -⟩ := id hfolds
  refine ⟨e'.mark, w, harith.mark_ty, hw, rfl, fun n hn hdivides => ?_⟩
  rw [← hw, value?_of_foldsTo harith.mark_ty hfolds, (hagrees n hn hdivides).eq hbits (hholds he.isOpen n hn)]

/-- A function in a program with the global constant `N`, which is 7. -/
def sevenContext : Context :=
  ⟨{ Symbols.empty with
      defs := [("N", (.const, .origin))]
      memo := ⟨[], [("N", ⟨none, .int 7⟩)], []⟩ }, .void, []⟩

/-- The start of a function without arguments. -/
def startScope : Scope :=
  ⟨.ofArgs [] false, 0, [], [], [], [], false⟩

/-- `(-N + 40) / 3` -/
def wrapping : Expr :=
  let m : Mark := ⟨.origin, none⟩
  .binary m .div (.binary m .add (.unary m .neg (.ident m "N")) (.intLit m 40)) (.intLit m 3)

theorem fold_eq_exact_of_coerce_wrapping :
    ∃ e' s', coerce sevenContext (part sevenContext wrapping) (.int 16 false) startScope = (.ok e', s') ∧
      sevenContext.exact? startScope.frame e' = some 11 ∧ (Fold.expr e').result.value? = some 11 := by
  have huntyped : sevenContext.Untyped startScope.frame wrapping :=
    .binary rfl (.binary rfl (.neg (.const rfl rfl)) (.lit rfl)) (.lit rfl)
  obtain ⟨e', s', hcoerce, herrors, hexact, hdivides⟩ : ∃ e' s',
      coerce sevenContext (part sevenContext wrapping) (.int 16 false) startScope = (.ok e', s') ∧
      (Fold.expr e').errors = [] ∧ sevenContext.exact? startScope.frame e' = some 11 ∧
      sevenContext.DividesPrecisely startScope.frame (.int 16 false) e' := by
    refine ⟨_, _, rfl, rfl, rfl, ⟨trivial, trivial, fun hadd => nomatch hadd⟩, trivial, fun _ => ⟨?_, ?_⟩⟩
    · -- The sum is 33, although minus seven is out of range.
      refine Or.inr fun n hn lo hi hrange => ?_
      obtain rfl : 33 = n := Option.some.inj hn
      obtain ⟨rfl, rfl⟩ := Prod.mk.inj (Option.some.inj hrange)
      decide
    · exact Or.inl ⟨_, _, rfl⟩
  obtain ⟨m, w, -, hresult, -, hvalue⟩ := fold_eq_exact_of_coerce (Or.inr rfl) huntyped hcoerce herrors
  exact ⟨e', s', hcoerce, hexact, hresult ▸ hvalue 11 hexact hdivides⟩

/-- `(60000 + 60000) / 2` -/
def halved : Expr :=
  let m : Mark := ⟨.origin, none⟩
  .binary m .div (.binary m .add (.intLit m 60000) (.intLit m 60000)) (.intLit m 2)

/-- A sum that is brought into range before it is divided: 60000 is in the range of the 16-bit integers,
but twice as much is not. -/
theorem exists_fold_ne_exact :
    ∃ e' s', sevenContext.Untyped startScope.frame halved ∧
      coerce sevenContext (part sevenContext halved) (.int 16 false) startScope = (.ok e', s') ∧
      (Fold.expr e').errors = [] ∧ sevenContext.exact? startScope.frame e' = some 60000 ∧
      (Fold.expr e').result.value? = some 27232 := by
  refine ⟨_, _, .binary rfl (.binary rfl (.lit rfl) (.lit rfl)) (.lit rfl), rfl, rfl, rfl, ?_⟩
  decide

end Check

end Sigil
