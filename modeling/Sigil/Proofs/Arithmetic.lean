import Sigil.Fold.Expression
import Sigil.Symbols

/-!
# Exact arithmetic

Constants are integers of 128 bits. An expression of literals and names with arithmetic between them has an
exact value over all integers (`Expr.exactValue?`), unless a divisor is zero or a name has no value.
Evaluation goes through the steps of the expression in order (`Expr.steps`), and up to the first one that
goes wrong every value is exact (`Names.eval_exact_or_stops`).

A step goes wrong if its exact value does not fit into 128 bits or does not exist. That is an error of the
program, with two exceptions (`Expr.isCritical`): the least integer has no negation and no quotient by minus
one. Its negation is taken to be the least integer itself, and on the division, also if only the remainder
is asked for, evaluation traps.
-/

namespace Sigil

open Attempt Constant Expr Int128 List

/-! ## Exact values -/

namespace Expr

/-- An expression of literals and names with arithmetic between them. -/
inductive Numeric : Expr → Prop where
  | int (m : Mark) (n : Word) : Numeric (.intLit m n)
  | name (m : Mark) (x : String) : Numeric (.ident m x)
  | neg {m : Mark} {e : Expr} (he : Numeric e) : Numeric (.unary m .neg e)
  | op {m : Mark} {op : BinOp} {l r : Expr} (hop : op.isArith = true) (hl : Numeric l)
    (hr : Numeric r) : Numeric (.binary m op l r)

/-- The exact value of an arithmetic expression. There is none if a divisor is zero. -/
def exactValue? (value : String → Option Int) : Expr → Option Int
  | .intLit m n => some (readWord m.ty n)
  | .ident _ x => value x
  | .unary _ .neg e => (e.exactValue? value).map fun v => -v
  | .binary _ op l r =>
    match l.exactValue? value, r.exactValue? value with
    | some a, some b => if Fold.divides op = true ∧ b = 0 then none else some (Fold.arith op a b)
    | _, _ => none
  | _ => none

/-- The steps of an evaluation, in order: those of the operands, the left one first, and then the operation. -/
def steps : Expr → List Expr
  | .unary m op e => e.steps ++ [.unary m op e]
  | .binary m op l r => l.steps ++ (r.steps ++ [.binary m op l r])
  | e => [e]

/-- Whether the exact value exists and has 128 bits. -/
def inBounds (value : String → Option Int) (e : Expr) : Bool :=
  (e.exactValue? value).any Int128.fits

/-- Whether the step is an operation that 128-bit integers do not have: the negation of the least one, or
its division by minus one. -/
def isCritical (value : String → Option Int) : Expr → Bool
  | .unary _ .neg e => e.exactValue? value == some Int128.least
  | .binary _ op l r =>
    Fold.divides op && l.exactValue? value == some Int128.least && r.exactValue? value == some (-1)
  | _ => false

/-- Whether the step goes wrong. -/
def goesWrong (value : String → Option Int) (e : Expr) : Bool :=
  !e.inBounds value || e.isCritical value

/-- The first step that goes wrong. -/
def stop? (value : String → Option Int) (e : Expr) : Option Expr :=
  e.steps.find? (goesWrong value)

section

variable {value : String → Option Int} {m : Mark} {e l r : Expr}

/-- The step itself, if it goes wrong. -/
theorem find?_singleton : [e].find? (goesWrong value) = if e.goesWrong value then some e else none := by
  by_cases h : e.goesWrong value = true
  · rw [if_pos h, find?_cons_of_pos h]
  · rw [if_neg h, find?_cons_of_neg h, find?_nil]

theorem stop?_leaf (h : e.steps = [e]) :
    e.stop? value = if e.goesWrong value then some e else none := by
  rw [stop?, h, find?_singleton]

/-- The operand comes first. -/
theorem stop?_unary {op : UnOp} : (unary m op e).stop? value =
    (e.stop? value).or (if (unary m op e).goesWrong value then some (unary m op e) else none) := by
  rw [stop?, steps, find?_append, find?_singleton, stop?]

/-- The left operand comes first, then the right one. -/
theorem stop?_binary {op : BinOp} : (binary m op l r).stop? value =
    (l.stop? value).or ((r.stop? value).or
      (if (binary m op l r).goesWrong value then some (binary m op l r) else none)) := by
  rw [stop?, steps, find?_append, find?_append, find?_singleton, stop?, stop?]

theorem goesWrong_of_exactValue? {v : Int} (he : e.exactValue? value = some v) (hv : fits v = true)
    (hc : e.isCritical value = false) : e.goesWrong value = false := by
  rw [goesWrong, inBounds, he, hc, Option.any_some, hv]
  rfl

theorem goesWrong_of_isCritical (hc : e.isCritical value = true) : e.goesWrong value = true := by
  rw [goesWrong, hc, Bool.or_true]

theorem goesWrong_of_not_inBounds (h : e.inBounds value = false) : e.goesWrong value = true := by
  rw [goesWrong, h]
  rfl

end

end Expr

namespace Int128

theorem fits_iff {n : Int} : fits n = true ↔ least ≤ n ∧ n ≤ greatest := by
  simp [fits]

theorem fits_readWord (ty : Option Ty) (n : Word) : fits (readWord ty n) = true := by
  have hnat := n.isLt
  have hlo : -2 ^ 63 ≤ n.toInt := BitVec.le_toInt n
  have hhi : n.toInt < 2 ^ 63 := BitVec.toInt_lt
  rw [fits_iff]
  unfold readWord least greatest
  split
  · split <;> omega
  · omega

/-- Only the least integer has no negation. -/
theorem fits_neg {n : Int} (hn : fits n = true) (hleast : n ≠ least) : fits (-n) = true ∧ neg n = -n := by
  rw [fits_iff] at hn ⊢
  refine ⟨?_, if_neg hleast⟩
  unfold least greatest at *
  omega

/-- A quotient does not fit only if it is that of the least integer by minus one. -/
theorem fits_tdiv {a b : Int} (ha : fits a = true) (hb : b ≠ 0) (h : ¬(a = least ∧ b = -1)) :
    fits (Int.tdiv a b) = true := by
  rw [fits_iff] at ha ⊢
  have hquot : (Int.tdiv a b).natAbs = a.natAbs / b.natAbs := Int.natAbs_tdiv a b
  by_cases hone : b.natAbs = 1
  · rcases Int.natAbs_eq_iff.1 hone with rfl | rfl
    · rw [Int.natCast_one, Int.tdiv_one]
      exact ha
    · rw [Int.natCast_one, Int.tdiv_neg, Int.tdiv_one]
      unfold least greatest at *
      omega
  · -- A divisor of any other magnitude takes at least half of the dividend away.
    have hhalf : a.natAbs / b.natAbs ≤ a.natAbs / 2 := Nat.div_le_div_left (by omega) (by decide)
    unfold least greatest at *
    omega

/-- A remainder is not larger than the dividend, and has its sign. -/
theorem fits_tmod {a b : Int} (ha : fits a = true) : fits (Int.tmod a b) = true := by
  rw [fits_iff] at ha ⊢
  have hrem : (Int.tmod a b).natAbs = a.natAbs % b.natAbs := Int.natAbs_tmod a b
  have hle := Nat.mod_le a.natAbs b.natAbs
  rcases Int.le_total 0 a with hpos | hneg
  · have hsign := Int.tmod_nonneg b hpos
    unfold least greatest at *
    omega
  · have hsign : Int.tmod a b ≤ 0 := by
      have hflip := Int.tmod_nonneg b (Int.neg_nonneg_of_nonpos hneg)
      rw [Int.neg_tmod] at hflip
      omega
    unfold least greatest at *
    omega

end Int128

namespace Constant

variable {op : BinOp}

/-- Arithmetic on constants that count as integers. -/
theorem binary_of_asInt? {k1 k2 : Constant} {a b : Int} (h1 : k1.asInt? = some a)
    (h2 : k2.asInt? = some b) : binary op k1 k2 = binaryInt op a b := by
  cases k1 with
  | bool _ => cases h1
  | str _ => cases h1
  | int _ => simp [binary, h1, h2]
  | char _ => simp [binary, h1, h2]

/-- Sums, differences and products are exact or out of range. -/
theorem binaryInt_of_not_divides (hop : op.isArith = true) (hdiv : Fold.divides op = false)
    (a b : Int) : binaryInt op a b = exact a (Fold.arith op a b) := by
  cases op with
  | add | sub | mul => rfl
  | div | rem => cases hdiv
  | _ => cases hop

/-- Quotients and remainders exist but for the two exceptions. -/
theorem binaryInt_of_divides (hdiv : Fold.divides op = true) (a b : Int) :
    binaryInt op a b = if b = 0 then .error (.error .divisionByZero)
      else if a = least ∧ b = -1 then .error .trap
      else .ok (.int (Fold.arith op a b)) := by
  cases op with
  | div | rem => rfl
  | _ => cases hdiv

theorem fits_arith_of_divides (hdiv : Fold.divides op = true) {a b : Int}
    (ha : fits a = true) (hb : b ≠ 0) (h : ¬(a = least ∧ b = -1)) :
    fits (Fold.arith op a b) = true := by
  cases op with
  | div => exact fits_tdiv ha hb h
  | rem => exact fits_tmod ha
  | _ => cases hdiv

theorem unary_of_asInt? {k : Constant} {v : Int} (h : k.asInt? = some v) :
    unary .neg k = .ok (.int (neg v)) := by
  simp [unary, h]

end Constant

/-! ## Names with a value -/

/-- What an evaluation is told about a name, from all states in `I`: its value if there is one, a constant
of 128 bits, and otherwise nothing or an error. -/
structure Names.Answers (names : Names) (I : Memo → Prop) (value : String → Option Int) (x : String) :
    Prop where
  known : ∀ {v : Int}, value x = some v → Int128.fits v = true ∧
    ∀ s, I s → ∃ k s', names.constant x s = (.ok (some k), s') ∧ k.asInt? = some v ∧ I s'
  unknown : value x = none → ∀ s, I s →
    ∃ s', names.constant x s = (.ok none, s') ∨ ∃ err, names.constant x s = (.error (.error err), s')

namespace Expr

/-- How evaluation ends at a step that goes wrong. -/
inductive Stops (value : String → Option Int) : Expr → Fault → Prop where
  | unknown {m : Mark} {x : String} {err : TypeError} (hx : value x = none) :
    Stops value (.ident m x) (.error err)
  | zero {m : Mark} {op : BinOp} {l r : Expr} (hop : Fold.divides op = true)
    (hr : r.exactValue? value = some 0) : Stops value (.binary m op l r) (.error .divisionByZero)
  /-- The error names the left operand. -/
  | range {m : Mark} {op : BinOp} {l r : Expr} {a b : Int} (hop : Fold.divides op = false)
    (hl : l.exactValue? value = some a) (hr : r.exactValue? value = some b)
    (h : Int128.fits (Fold.arith op a b) = false) :
    Stops value (.binary m op l r) (.error (.outOfRange a "constant"))
  | trap {m : Mark} {op : BinOp} {l r : Expr} (hop : Fold.divides op = true)
    (hl : l.exactValue? value = some Int128.least) (hr : r.exactValue? value = some (-1)) :
    Stops value (.binary m op l r) .trap

/-- Evaluation traps at critical steps only. -/
theorem Stops.trap_iff {value : String → Option Int} {n : Expr} {fault : Fault} (h : Stops value n fault) :
    fault = .trap ↔ n.isCritical value = true := by
  cases h with
  | unknown hx => simp [isCritical]
  | zero hop hr => simp [isCritical, hr]
  | range hop hl hr h => simp [isCritical, hop]
  | trap hop hl hr => simp [isCritical, hop, hl, hr]

end Expr

namespace Names

open Expr

variable {names : Names} {I : Memo → Prop} {value : String → Option Int}
variable {op : BinOp} {s : Memo} {m : Mark} {e l r : Expr}

/-- Evaluation gives the exact value if no step goes wrong. It is a constant of another kind only if a name
stands alone. -/
structure Exactly (names : Names) (I : Memo → Prop) (value : String → Option Int) (e : Expr) (s : Memo) :
    Prop where
  bounds : e.stop? value = none
  eval : ∃ v k s', e.exactValue? value = some v ∧ Int128.fits v = true ∧ names.eval e s = (.ok k, s') ∧
    k.asInt? = some v ∧ (k = .int v ∨ ∃ m x, e = .ident m x) ∧ I s'

/-- Evaluation ends at the first step that goes wrong, or goes on from the least integer where its negation
is asked for. -/
structure Stopped (names : Names) (I : Memo → Prop) (value : String → Option Int) (e : Expr) (s : Memo)
    (n : Expr) : Prop where
  step : e.stop? value = some n
  eval : (∃ fault s', Stops value n fault ∧ names.eval e s = (.error fault, s')) ∨
    ∃ m k s₁ s₂, n = .unary m .neg k ∧ k.exactValue? value = some Int128.least ∧ I s₁ ∧
      names.eval n s₁ = (.ok (.int Int128.least), s₂)

/-- If a part stops first, so does the whole. -/
theorem Stopped.of_part {e' n : Expr} {s' : Memo} (h : Stopped names I value e s n)
    (hstop : e'.stop? value = some n)
    (hfail : ∀ {fault t}, names.eval e s = (.error fault, t) → names.eval e' s' = (.error fault, t)) :
    Stopped names I value e' s' n := by
  refine ⟨hstop, ?_⟩
  rcases h.eval with ⟨fault, t, hfault, heval⟩ | hwrap
  · exact Or.inl ⟨fault, t, hfault, hfail heval⟩
  · exact Or.inr hwrap

theorem eval_literal (hs : I s) (m : Mark) (n : Word) : Exactly names I value (.intLit m n) s := by
  have hfits := fits_readWord m.ty n
  refine ⟨?_, _, _, s, rfl, hfits, rfl, rfl, Or.inl rfl, hs⟩
  rw [stop?_leaf rfl, goesWrong_of_exactValue? rfl hfits rfl]
  rfl

/-- A name has its value, or is where evaluation stops. -/
theorem eval_name {x : String} (h : names.Answers I value x) (hs : I s) :
    Exactly names I value (.ident m x) s ∨ Stopped names I value (.ident m x) s (.ident m x) := by
  cases hx : value x with
  | some v =>
    obtain ⟨hfits, hask⟩ := h.known hx
    obtain ⟨k, s', hk, hv, hs'⟩ := hask s hs
    have hexact : (ident m x).exactValue? value = some v := hx
    refine Or.inl ⟨?_, v, k, s', hexact, hfits, ?_, hv, Or.inr ⟨m, x, rfl⟩, hs'⟩
    · rw [stop?_leaf rfl, goesWrong_of_exactValue? hexact hfits rfl]
      rfl
    · rw [eval, bind_of_ok hk]
      rfl
  | none =>
    refine Or.inr ⟨?_, Or.inl ?_⟩
    · have hbounds : (ident m x).inBounds value = false := by
        rw [inBounds, exactValue?, hx]
        rfl
      rw [stop?_leaf rfl, goesWrong_of_not_inBounds hbounds]
      rfl
    · obtain ⟨s', hnone | ⟨err, herr⟩⟩ := h.unknown hx s hs
      · refine ⟨.error .notConstant, s', .unknown hx, ?_⟩
        rw [eval, bind_of_ok hnone]
        rfl
      · refine ⟨.error err, s', .unknown hx, ?_⟩
        rw [eval, bind_of_error herr]

/-- A negation stops where its operand does, or if it overflows. -/
theorem eval_neg (hs : I s)
    (h : Exactly names I value e s ∨ ∃ n, Stopped names I value e s n) :
    Exactly names I value (.unary m .neg e) s ∨ ∃ n, Stopped names I value (.unary m .neg e) s n := by
  rcases h with ⟨hstop, v, k, s', he, hv, heval, hk, -, hs'⟩ | ⟨n, hn⟩
  · have hresult : names.eval (.unary m .neg e) s = (.ok (.int (neg v)), s') := by
      rw [eval, bind_of_ok heval, unary_of_asInt? hk]
      rfl
    by_cases hleast : v = least
    · -- The least integer stays as it is.
      subst hleast
      have hcritical : (unary m .neg e).isCritical value = true := by
        simp [isCritical, he]
      refine Or.inr ⟨_, ?_, Or.inr ⟨m, e, s, s', rfl, he, hs, hresult⟩⟩
      rw [stop?_unary, hstop, goesWrong_of_isCritical hcritical]
      rfl
    · obtain ⟨hfits, hneg⟩ := fits_neg hv hleast
      have hcritical : (unary m .neg e).isCritical value = false := by
        simp [isCritical, he, hleast]
      have hexact : (unary m .neg e).exactValue? value = some (-v) := by
        rw [exactValue?, he]
        rfl
      refine Or.inl ⟨?_, -v, .int (-v), s', hexact, hfits, ?_, rfl, Or.inl rfl, hs'⟩
      · rw [stop?_unary, hstop, goesWrong_of_exactValue? hexact hfits hcritical]
        rfl
      · rw [hresult, hneg]
  · refine Or.inr ⟨n, hn.of_part ?_ fun heval => ?_⟩
    · rw [stop?_unary, hn.step]
      rfl
    · rw [eval, bind_of_error heval]

/-- An operation on two exact values. -/
theorem eval_op_values (hop : op.isArith = true) {a b : Int}
    (hl : l.exactValue? value = some a) (hr : r.exactValue? value = some b) (ha : fits a = true) :
    (∃ v, binaryInt op a b = .ok (.int v) ∧ (binary m op l r).exactValue? value = some v ∧
        fits v = true ∧ (binary m op l r).isCritical value = false) ∨
      ∃ fault, binaryInt op a b = .error fault ∧ Stops value (.binary m op l r) fault ∧
        (binary m op l r).goesWrong value = true := by
  have hexact : (binary m op l r).exactValue? value =
      if Fold.divides op = true ∧ b = 0 then none else some (Fold.arith op a b) := by
    rw [exactValue?, hl, hr]
  by_cases hdiv : Fold.divides op = true
  · rw [binaryInt_of_divides hdiv]
    by_cases hzero : b = 0
    · -- by zero
      rw [if_pos hzero]
      subst hzero
      refine Or.inr ⟨_, rfl, .zero hdiv hr, goesWrong_of_not_inBounds ?_⟩
      rw [inBounds, hexact, if_pos ⟨hdiv, rfl⟩]
      rfl
    · rw [if_neg hzero]
      rw [if_neg fun h => hzero h.2] at hexact
      by_cases hleast : a = least ∧ b = -1
      · -- the least number by minus one
        rw [if_pos hleast]
        obtain ⟨rfl, rfl⟩ := hleast
        refine Or.inr ⟨_, rfl, .trap hdiv hl hr, goesWrong_of_isCritical ?_⟩
        simp [isCritical, hdiv, hl, hr]
      · -- any other division
        rw [if_neg hleast]
        have hfits := fits_arith_of_divides hdiv ha hzero hleast
        refine Or.inl ⟨_, rfl, hexact, hfits, ?_⟩
        simpa [isCritical, hdiv, hl, hr] using hleast
  · rw [Bool.not_eq_true] at hdiv
    rw [if_neg fun h => Bool.false_ne_true (hdiv.symm.trans h.1)] at hexact
    rw [binaryInt_of_not_divides hop hdiv, exact]
    by_cases hfits : fits (Fold.arith op a b) = true
    · -- the exact result fits
      rw [if_pos hfits]
      refine Or.inl ⟨_, rfl, hexact, hfits, ?_⟩
      simp [isCritical, hdiv]
    · -- the exact result does not fit
      rw [if_neg hfits]
      rw [Bool.not_eq_true] at hfits
      refine Or.inr ⟨_, rfl, .range hdiv hl hr hfits, goesWrong_of_not_inBounds ?_⟩
      rw [inBounds, hexact, Option.any_some, hfits]

/-- The left operand may stop it, then the right one, then the operation itself. -/
theorem eval_op (hop : op.isArith = true)
    (hl : Exactly names I value l s ∨ ∃ n, Stopped names I value l s n)
    (hr : ∀ s, I s → Exactly names I value r s ∨ ∃ n, Stopped names I value r s n) :
    Exactly names I value (.binary m op l r) s ∨ ∃ n, Stopped names I value (.binary m op l r) s n := by
  rcases hl.symm with ⟨n, hn⟩ | ⟨hstop, a, k1, s₁, hla, ha, hleval, hk1, -, hs1⟩
  · refine Or.inr ⟨n, hn.of_part ?_ fun heval => ?_⟩
    · rw [stop?_binary, hn.step]
      rfl
    · rw [eval, bind_of_error heval]
  rcases (hr s₁ hs1).symm with ⟨n, hn⟩ | ⟨hstop', b, k2, s₂, hrb, hb, hreval, hk2, -, hs2⟩
  · refine Or.inr ⟨n, hn.of_part ?_ fun heval => ?_⟩
    · rw [stop?_binary, hstop, hn.step]
      rfl
    · rw [eval, bind_of_ok hleval, bind_of_error heval]
  -- Both operands are exact, so it is up to the operation.
  have heval : names.eval (.binary m op l r) s = Eval.lift (binaryInt op a b) s₂ := by
    rw [eval, bind_of_ok hleval, bind_of_ok hreval, binary_of_asInt? hk1 hk2]
  rcases eval_op_values (m := m) hop hla hrb ha with
    ⟨v, hv, hexact, hfits, hcritical⟩ | ⟨fault, hf, hstops, hwrong⟩
  · refine Or.inl ⟨?_, v, .int v, s₂, hexact, hfits, ?_, rfl, Or.inl rfl, hs2⟩
    · rw [stop?_binary, hstop, hstop', goesWrong_of_exactValue? hexact hfits hcritical]
      rfl
    · rw [heval, hv]
      rfl
  · refine Or.inr ⟨_, ?_, Or.inl ⟨fault, s₂, hstops, ?_⟩⟩
    · rw [stop?_binary, hstop, hstop', hwrong]
      rfl
    · rw [heval, hf]
      rfl

/-- By the form of the expression: evaluation is exact or stops at one of the steps. -/
theorem eval_steps (he : e.Numeric)
    (hnames : ∀ m x, ident m x ∈ e.steps → names.Answers I value x) (hs : I s) :
    Exactly names I value e s ∨ ∃ n, Stopped names I value e s n := by
  induction he generalizing s with
  | int m n => exact Or.inl (eval_literal hs m n)
  | name m x =>
    exact (eval_name (hnames m x mem_cons_self) hs).imp_right fun h => ⟨_, h⟩
  | neg _ ih =>
    exact eval_neg hs (ih (fun m x hx => hnames m x (mem_append_left _ hx)) hs)
  | op hop _ _ ihl ihr =>
    refine eval_op hop (ihl (fun m x hx => hnames m x (mem_append_left _ hx)) hs) fun s hs => ?_
    refine ihr (fun m x hx => hnames m x ?_) hs
    exact mem_append_right _ (mem_append_left _ hx)

/-- Evaluation of arithmetic is exact if no step goes wrong. If the first step that does is not critical,
evaluation ends there with an error: for an unknown name, for a zero divisor or for a value that does not
fit. At a critical step it traps, unless the least integer is negated, which gives the least integer. -/
theorem eval_exact_or_stops {e : Expr} (he : e.Numeric)
    (hnames : ∀ m x, Expr.ident m x ∈ e.steps → names.Answers I value x) {s : Memo} (hs : I s) :
    (e.stop? value = none → ∃ v k s', e.exactValue? value = some v ∧ names.eval e s = (.ok k, s') ∧
        k.asInt? = some v ∧ (k = .int v ∨ ∃ m x, e = .ident m x)) ∧
      (∀ n, e.stop? value = some n → n.isCritical value = false →
        ∃ err s', Stops value n (.error err) ∧ names.eval e s = (.error (.error err), s')) ∧
      ∀ n, e.stop? value = some n → n.isCritical value = true →
        (∃ s', names.eval e s = (.error .trap, s')) ∨
          ∃ m k s₁ s₂, n = .unary m .neg k ∧ names.eval n s₁ = (.ok (.int Int128.least), s₂) := by
  rcases eval_steps he hnames hs with ⟨hstop, v, k, s', hv, -, heval, hk, hkind, -⟩ | ⟨n, hstop, heval⟩
  · refine ⟨fun _ => ⟨v, k, s', hv, heval, hk, hkind⟩, ?_, ?_⟩
    · intro n hn
      cases hstop.symm.trans hn
    · intro n hn
      cases hstop.symm.trans hn
  · refine ⟨fun hn => ?_, ?_, ?_⟩
    · cases hstop.symm.trans hn
    · intro n' hn' hcritical
      cases hstop.symm.trans hn'
      rcases heval with ⟨fault, s', hstops, heval⟩ | ⟨m, k, s₁, s₂, rfl, hk, -⟩
      · cases fault with
        | error err => exact ⟨err, s', hstops, heval⟩
        | trap => exact absurd (hcritical.symm.trans (hstops.trap_iff.1 rfl)) Bool.false_ne_true
      · simp [isCritical, hk] at hcritical
    · intro n' hn' hcritical
      cases hstop.symm.trans hn'
      rcases heval with ⟨fault, s', hstops, heval⟩ | ⟨m, k, s₁, s₂, hn, -, -, hwrap⟩
      · cases hstops.trap_iff.2 hcritical
        exact Or.inl ⟨s', heval⟩
      · exact Or.inr ⟨m, k, s₁, s₂, hn, hwrap⟩

end Names

/-! ## Finished tables -/

namespace Symbols

/-- A constant that a finished table keeps is known. -/
theorem answers_names {t : Symbols} {x : String} {g : GlobalConst} {v : Int} {value : String → Option Int}
    (hx : t.kind x = some .const) (hg : t.memo.constants.get? x = some g) (hv : g.value.asInt? = some v)
    (hfits : fits v = true) (hvalue : value x = some v) :
    t.names.Answers (· = t.memo) value x := by
  refine ⟨?_, ?_⟩
  · intro v' hv'
    cases hvalue.symm.trans hv'
    refine ⟨hfits, ?_⟩
    rintro s rfl
    refine ⟨g.value, t.memo, ?_, hv, rfl⟩
    have hconst : t.constantBy (t.namesOfDepth t.depth) x t.memo = (.ok g, t.memo) := by
      unfold constantBy
      rw [bind_of_ok (get_apply _)]
      simp only [hg]
      rfl
    show t.valueBy (fun x => t.constantBy (t.namesOfDepth t.depth) x) x t.memo = _
    unfold valueBy
    simp only [hx]
    rw [bind_of_ok hconst]
    rfl
  · intro hnone
    cases hvalue.symm.trans hnone

end Symbols

namespace Expr

/-- `0 - 9223372036854775808`, the least integer of 64 bits. -/
def leastWord : Expr :=
  let m : Mark := ⟨.origin, none⟩
  .binary m .sub (.intLit m 0) (.intLit m 9223372036854775808)

/-- `e * 9223372036854775808 * 2`, with the least integer of 128 bits for that of 64 bits. -/
def scaled (e : Expr) : Expr :=
  let m : Mark := ⟨.origin, none⟩
  .binary m .mul (.binary m .mul e (.intLit m 9223372036854775808)) (.intLit m 2)

/-- `e op -1`. -/
def byMinusOne (op : BinOp) (e : Expr) : Expr :=
  let m : Mark := ⟨.origin, none⟩
  .binary m op e (.unary m .neg (.intLit m 1))

end Expr

/-- `const LEAST := 0 - 9223372036854775808;` -/
def Program.ofLeast : Program :=
  [⟨"LEAST", .origin, .const none .leastWord⟩]

theorem Symbols.exists_ofLeast :
    ∃ t es, ofProgram .ofLeast = some (t, es) ∧ t.kind "LEAST" = some .const ∧
      t.memo.constants.get? "LEAST" = some ⟨none, .int (-9223372036854775808)⟩ := by
  have htest : ((ofProgram .ofLeast).map fun r => (r.1.kind "LEAST", r.1.memo.constants.get? "LEAST")) =
      some (some .const, some ⟨none, .int (-9223372036854775808)⟩) := by decide +kernel
  obtain ⟨⟨t, es⟩, ht, heq⟩ := Option.map_eq_some_iff.1 htest
  obtain ⟨hkind, hconst⟩ := Prod.mk.inj heq
  exact ⟨t, es, ht, hkind, hconst⟩

/-- A third of the least integer, by way of a constant. -/
theorem Names.eval_exact_or_stops_third :
    ∃ t es, Symbols.ofProgram .ofLeast = some (t, es) ∧
      ∃ s', t.names.eval
          (.binary ⟨.origin, none⟩ .div (.scaled (.ident ⟨.origin, none⟩ "LEAST")) (.intLit ⟨.origin, none⟩ 3))
          t.memo = (.ok (.int (-56713727820156410577229101238628035242)), s') := by
  obtain ⟨t, es, ht, hkind, hconst⟩ := Symbols.exists_ofLeast
  refine ⟨t, es, ht, ?_⟩
  let value : String → Option Int := fun x => if x = "LEAST" then some (-9223372036854775808) else none
  have hnames : ∀ m x, ident m x ∈ (binary ⟨.origin, none⟩ .div
      (.scaled (.ident ⟨.origin, none⟩ "LEAST")) (.intLit ⟨.origin, none⟩ 3)).steps →
      t.names.Answers (· = t.memo) value x := by
    intro m x hx
    have hleast : x = "LEAST" := by
      simp [scaled, steps] at hx
      exact hx.2
    subst hleast
    exact Symbols.answers_names hkind hconst rfl (by decide) rfl
  obtain ⟨v, k, s', hv, heval, -, hk⟩ := (Names.eval_exact_or_stops
    (.op rfl (.op rfl (.op rfl (.name _ _) (.int _ _)) (.int _ _)) (.int _ _)) hnames rfl).1 (by decide)
  have hvalue : (binary ⟨.origin, none⟩ .div (.scaled (.ident ⟨.origin, none⟩ "LEAST"))
      (.intLit ⟨.origin, none⟩ 3)).exactValue? value = some (-56713727820156410577229101238628035242) := by
    decide
  cases hvalue.symm.trans hv
  rcases hk with rfl | ⟨m, x, hx⟩
  · exact ⟨s', heval⟩
  · cases hx

/-- The quotient and the remainder of the least integer by minus one trap, although the remainder is zero and
all steps to it are in bounds. Its negation is the least integer again. -/
theorem Names.exists_eval_not_exact :
    ∃ l : Expr, l.Numeric ∧ ∀ (names : Names) (s : Memo),
      names.eval (.byMinusOne .div l) s = (.error .trap, s) ∧
        names.eval (.byMinusOne .rem l) s = (.error .trap, s) ∧
        (Expr.byMinusOne .rem l).exactValue? (fun _ => none) = some 0 ∧
        (∀ n ∈ (Expr.byMinusOne .rem l).steps, n.inBounds fun _ => none) ∧
        names.eval (.unary ⟨.origin, none⟩ .neg l) s = (.ok (.int Int128.least), s) ∧
        (Expr.unary ⟨.origin, none⟩ .neg l).exactValue? (fun _ => none) = some (-Int128.least) := by
  refine ⟨.scaled .leastWord, ?_, fun names s => ⟨rfl, rfl, rfl, by decide, rfl, rfl⟩⟩
  exact .op rfl (.op rfl (.op rfl (.int _ _) (.int _ _)) (.int _ _)) (.int _ _)

end Sigil
