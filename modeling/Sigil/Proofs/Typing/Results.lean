import Sigil.Check.Expression
import Sigil.Proofs.Typing.Scope

/-!
# What checks make of expressions

If the check of an expression succeeds, its outcome (`Check.Result`) is put together from outcomes of the
parts, in a way that goes by the form of the expression (`Check.Forms`). So what holds of all checked
expressions follows by cases of their form, without another look at the single steps of a check.
-/

namespace Sigil

/-- The integer is in the range of the type. -/
def Ty.Holds (t : Ty) (n : Int) : Prop :=
  ∀ lo hi, t.range? = some (lo, hi) → lo ≤ n ∧ n ≤ hi

namespace Check

open Expr List

/-- The exact value of an expression, if it is constant. -/
def Context.exact? (c : Context) (f : Frame) (e : Expr) : Option Int :=
  (c.symbols.ask ((c.names f).eval e)).toOption.bind Constant.asInt?

/-! ## Outcomes -/

/-- In the frame `f`, the check of `e` under a hint can end with `r`. -/
def Result (c : Context) (f : Frame) (e : Expr) (hint : Option Ty) (r : Expr × Ty) : Prop :=
  ∃ s s' : Scope, s.frame = f ∧ expr c e hint s = (.ok r, s')

/-- The expression with its type. -/
def accepted (e : Expr) (t : Ty) : Expr × Ty :=
  (e.withTy t, t)

/-- What becomes of an integer literal. -/
inductive FormsInt (m : Mark) (n : Word) : Option Ty → Expr × Ty → Prop where
  | hinted {bits : Nat} {signed : Bool} {range : Int × Int}
    (hrange : (Ty.int bits signed).range? = some range) (hn : ¬magnitude range < n.toNat) :
    FormsInt m n (some (.int bits signed)) (accepted (.intLit m n) (.int bits signed))
  | code (hn : n.toNat ≤ 255) : FormsInt m n (some .char) (accepted (.intLit m n) .char)
  | plain {hint : Option Ty} (h : ∀ bits signed, hint ≠ some (.int bits signed)) :
    FormsInt m n hint (accepted (.intLit m n) .uint)

/-- What becomes of a negation, by what becomes of its operand. -/
def FormsNeg (m : Mark) (N : Option Ty → Expr × Ty → Prop) (hint : Option Ty) (r : Expr × Ty) : Prop :=
  ∃ (isOpen : Bool) (e : Expr) (t : Ty),
    N ((hint.filter Ty.isInt).or (if isOpen then some .sint else none)) (e, t) ∧ t.isInt = true ∧
      r = accepted (.unary m .neg e) t

/-- What becomes of the name of a global constant. -/
def FormsConst (m : Mark) (hint : Option Ty) (g : GlobalConst) : Expr × Ty → Prop :=
  match g.value, g.ty with
  | .int n, none =>
    if n < 0 then FormsNeg m (FormsInt ⟨m.pos, none⟩ (.ofNat 64 n.natAbs)) hint
    else FormsInt m (.ofInt 64 n) hint
  | .int n, some t => (· = accepted (.intLit m (.ofInt 64 n)) t)
  | .bool b, t => (· = accepted (.boolLit m b) (t.getD .bool))
  | .char b, t => (· = accepted (.charLit m b) (t.getD .char))
  | .str s, t => (· = accepted (.strLit m s) (t.getD .str))

section

variable (c : Context) (f : Frame)

/-- What becomes of `k` where `dst` is expected. If it takes its type from there, its value is in range. -/
structure Coerced (dst : Ty) (e k : Expr) : Prop where
  result : ∃ t, Result c f k (some dst) (e, t) ∧ dst.assignable t = true
  holds : c.isOpen f k = true → ∀ n, c.exact? f e = some n → dst.Holds n

/-- What becomes of two operands: one is checked under the hint, and the other one in the light of it. -/
def Operands (l r : Expr) (hint : Option Ty) (l' r' : Expr × Ty) : Prop :=
  Result c f l hint l' ∧ Result c f r (some l'.2) r' ∨ Result c f r hint r' ∧ Result c f l (some r'.2) l'

/-- What becomes of an operator between two operands. -/
inductive FormsBinary (m : Mark) (op : BinOp) (l r : Expr) (hint : Option Ty) : Expr × Ty → Prop where
  | logic {l' r' : Expr} (hop : op = .and ∨ op = .or) (hl : Result c f l (some .bool) (l', .bool))
    (hr : Result c f r (some .bool) (r', .bool)) :
    FormsBinary m op l r hint (accepted (.binary m op l' r') .bool)
  | arith {l' r' : Expr} {t : Ty} (hop : op.isArith = true)
    (h : Operands c f l r (hint.filter Ty.isOrdered) (l', t) (r', t)) (ht : t.isOrdered = true) :
    FormsBinary m op l r hint (accepted (.binary m op l' r') t)
  | compare {l' r' : Expr} {lt rt : Ty} (hop : op.isCompare = true)
    (h : Operands c f l r none (l', lt) (r', rt))
    (ho : lt.isOrdered = true ∨ lt.isComparable = true ∧ (op = .eq ∨ op = .ne))
    (ha : lt.assignable rt = true ∨ rt.assignable lt = true) :
    FormsBinary m op l r hint (accepted (.binary m op l' r') .bool)

/-- What becomes of an expression, by what becomes of its parts. -/
def Forms : Expr → Option Ty → Expr × Ty → Prop
  | .intLit m n, hint, r => FormsInt m n hint r
  | .boolLit m b, _, r => r = accepted (.boolLit m b) .bool
  | .charLit m b, _, r => r = accepted (.charLit m b) .char
  | .enumLit m x n, _, r => r = accepted (.enumLit m x n) (.enum x)
  | .strLit m s, hint, r => r = accepted (.strLit m s) .str ∨
    ∃ length, hint = some (.array length .char) ∧ s.utf8ByteSize ≤ length ∧
      r = accepted (.arrayLit m (charElems m.pos s length)) (.array length .char)
  | .nil m, hint, r => ∃ t, (hint = some (.ptr t) ∨ t = .void) ∧ r = accepted (.nil m) (.ptr t)
  | .zeroed m, hint, r => ∃ t, hint = some t ∧ r = accepted (.zeroed m) t
  | .ident m x, hint, r => (∃ slot, f.get? x = some slot ∧ r = accepted (.ident m x) slot.ty) ∨
    f.get? x = none ∧ c.symbols.kind x = some .const ∧
      ∃ g, c.symbols.ask (c.symbols.globalConst x) = .ok g ∧ FormsConst m hint g r
  | .sizeof m type, hint, r => ∃ size,
    c.symbols.ask (do (c.names f).sizeOf (← (c.names f).resolve type)) = .ok size ∧
      r = accepted (.intLit m (.ofNat 64 size)) ((hint.filter Ty.isInt).getD .uint)
  | .unary m .neg k, hint, r => FormsNeg m (Result c f k) hint r
  | .unary m .not k, _, r => ∃ e, Result c f k (some .bool) (e, .bool) ∧
    r = accepted (.unary m .not e) .bool
  | .binary m op k k', hint, r => FormsBinary c f m op k k' hint r
  | .addrOf m k, hint, r => ∃ e t inner, (∀ u, inner = some u → hint = some (.ptr u)) ∧
    Result c f k inner (e, t) ∧ e.isPlace = true ∧ r = accepted (.addrOf m e) (.ptr t)
  | .deref m k, hint, r => ∃ e t, Result c f k (hint.map .ptr) (e, .ptr t) ∧ t ≠ .void ∧
    r = accepted (.deref m e) t
  | .member m k x, _, r => (∃ enum n, r = accepted (.enumLit m enum n) (.enum enum)) ∨
    ∃ e t base s layout fld, Result c f k none (e, t) ∧
      (t = .struct s ∧ base = e ∨ t = .ptr (.struct s) ∧ base = .deref ⟨m.pos, some (.struct s)⟩ e) ∧
      c.symbols.ask (c.symbols.layout s) = .ok layout ∧ layout.field? x = some fld ∧
      r = accepted (.member m base x) fld.ty
  | .index m k i, _, r => ∃ b t i' it u, Result c f k none (b, t) ∧
    Result c f i (some .uint) (i', it) ∧ it.isInt = true ∧ t.elem? = some u ∧
    r = accepted (.index m b i') u
  | .structLit m fields, hint, r => ∃ s layout es, hint = some (.struct s) ∧
    c.symbols.ask (c.symbols.layout s) = .ok layout ∧
    Forall₂ (fun (g : String × Expr) (fld : Field) => g.1 = fld.name ∧
      ∃ k ∈ fields.map (·.2), Coerced c f fld.ty g.2 k) es layout.fields ∧
    r = accepted (.structLit m es) (.struct s)
  | .arrayLit m ks, hint, r => (∃ length elem, hint = some (.array length elem) ∧
      (r = accepted (.zeroed m) (.array length elem) ∨ ks.length = length ∧
        ∃ es, Forall₂ (Coerced c f elem) es ks ∧ r = accepted (.arrayLit m es) (.array length elem))) ∨
    ∃ k rest e elem es, ks = k :: rest ∧ Result c f k none (e, elem) ∧
      Forall₂ (Coerced c f elem) es rest ∧
      r = accepted (.arrayLit m (e :: es)) (.array (rest.length + 1) elem)
  | .cast m type k, _, r => ∃ target e source,
    c.symbols.ask ((c.names f).resolve type) = .ok target ∧
    Result c f k (if target.isInt then some target else none) (e, source) ∧
    source.castable target = true ∧ r = accepted (.cast m type e) target
  | .call m callee args, _, r => ∃ m' x sig es, callee = .ident m' x ∧ ¬f.isLocal x = true ∧
    c.symbols.funcs.get? x = some sig ∧ args.length = sig.params.length ∧
    Forall₂ (fun e (a : Expr × String × Ty) => Coerced c f a.2.2 e a.1) es (args.zip sig.params) ∧
    r = accepted (.call m callee es) sig.ret
  | .builtin m b args, _, r => ∃ rs es, roles b args.length = .ok rs ∧
    Forall₂ (fun e (a : Expr × Role) => ∃ t, Result c f a.1 a.2.hint (e, t) ∧ a.2.accepts t = true) es
      (args.zip rs) ∧
    r = accepted (.builtin m b es) (resultOf b)

end

/-! ## Parts and values -/

theorem parts_eq (c : Context) (es : List Expr) : parts c es = es.map (part c) := by
  induction es with
  | nil => rfl
  | cons e es ih => simp [parts, part, ih]

theorem fieldParts_eq (c : Context) (fs : List (String × Expr)) :
    fieldParts c fs = fs.map fun (x, e) => (x, part c e) := by
  induction fs with
  | nil => rfl
  | cons g fs ih => simp [fieldParts, part, ih]

variable {c : Context} {f : Frame} {τ : Type} {e : Expr}

theorem checks_exact : Checks f (fun v => v = c.exact? f e) (c.intValue? e : Checker τ (Option Int)) := by
  have hask : Checks f (fun r => r.toOption = (c.symbols.ask ((c.names f).eval e)).toOption)
      (c.ask (·.eval e) : Checker τ (Except TypeError Constant)) := by
    rintro s rfl
    unfold Attempt.Ends Context.ask
    cases c.symbols.ask ((c.names s.frame).eval e) with
    | ok v => exact ⟨.refl s, rfl⟩
    | error fault =>
      cases fault with
      | error _ => exact ⟨.refl s, rfl⟩
      -- A trap is noted in the scope, and nothing else changes.
      | trap => exact ⟨⟨rfl, rfl, rfl, rfl, rfl⟩, rfl⟩
  unfold Context.intValue? Context.value? Context.exact?
  refine Checks.bind (P := fun v => v = (c.symbols.ask ((c.names f).eval e)).toOption) ?_ fun v hv =>
    .pure (by rw [hv])
  refine hask.bind fun r hr => ?_
  cases r with
  | ok v => exact .pure hr
  | error _ => exact .pure hr

end Check

end Sigil
