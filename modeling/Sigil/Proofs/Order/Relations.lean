import Sigil.Symbols

/-!
# Relations between evaluations

An evaluation is put together from values, failures and steps, and from what names mean. So a relation
between evaluations that holds of equal values and of equal failures, and is kept by putting steps one
after another (`Eval.Relation`), holds of one expression under two meanings of names if it holds of the
names (`Names.Related`). The same goes for written types, for sizes and for all that a symbol table works
out by them.
-/

namespace Sigil

/-- A relation that is kept when evaluations are put together. -/
structure Eval.Relation (R : (α : Type) → Eval α → Eval α → Prop) : Prop where
  pure : ∀ {α : Type} (a : α), R α (pure a) (pure a)
  throw : ∀ {α : Type} (e : Fault), R α (throw e) (throw e)
  bind : ∀ {α β : Type} {x y : Eval α} {f g : α → Eval β}, R α x y → (∀ a, R β (f a) (g a)) →
    R β (x >>= f) (y >>= g)

namespace Eval.Relation

variable {R : (α : Type) → Eval α → Eval α → Prop} {α β : Type}
variable (h : Relation R)
include h

theorem reject (e : TypeError) : R α (Eval.reject e) (Eval.reject e) :=
  h.throw _

/-- Nothing happens after a rejection. -/
theorem reject_bind (e : TypeError) (f g : α → Eval β) :
    R β (Eval.reject e >>= f) (Eval.reject e >>= g) :=
  h.throw _

theorem lift (r : Except Fault α) : R α (Eval.lift r) (Eval.lift r) := by
  cases r with
  | ok a => exact h.pure a
  | error e => exact h.throw e

theorem arrayLength (v : Constant) :
    R Nat (Names.arrayLength v) (Names.arrayLength v) := by
  unfold Names.arrayLength
  split
  · split
    · exact h.pure _
    · exact h.reject _
  · exact h.reject _

theorem checked (ty : Option Ty) (v : Constant) : R GlobalConst
    (match v.check ty with
      | .ok () => Pure.pure ⟨ty, v⟩
      | .error e => Eval.reject e)
    (match v.check ty with
      | .ok () => Pure.pure ⟨ty, v⟩
      | .error e => Eval.reject e) := by
  split
  · exact h.pure _
  · exact h.reject _

theorem present (v : Option Constant) :
    R Constant (Names.present v) (Names.present v) := by
  cases v with
  | none => exact h.reject _
  | some v => exact h.pure v

theorem valueBy (t : Symbols) {constant constant' : String → Eval GlobalConst}
    {x : String} (hx : R GlobalConst (constant x) (constant' x)) :
    R (Option Constant) (t.valueBy constant x) (t.valueBy constant' x) := by
  unfold Symbols.valueBy
  split
  · exact h.bind hx fun _ => h.pure _
  · exact h.pure _

end Eval.Relation

/-- Names stand for the same under both meanings, and have related values and layouts. -/
structure Names.Related (R : (α : Type) → Eval α → Eval α → Prop) (names names' : Names) : Prop where
  kind : names.kind = names'.kind
  variant : names.variant = names'.variant
  constant : ∀ x, R (Option Constant) (names.constant x) (names'.constant x)
  layout : ∀ x, R Layout (names.layout x) (names'.layout x)

namespace Names.Related

variable {R : (α : Type) → Eval α → Eval α → Prop} {names names' : Names}
variable (h : Related R names names') (hR : Eval.Relation R)
include h hR

/-- By the form of the type: the size of an array is found from that of its elements. -/
theorem sizeOf (t : Ty) :
    R Nat (names.sizeOf t) (names'.sizeOf t) := by
  induction t with
  | array length elem ih =>
    refine hR.bind ih fun size => ?_
    split
    · exact hR.pure _
    · exact hR.reject _
  | struct x => exact hR.bind (h.layout x) fun _ => hR.pure _
  | _ => exact hR.pure _

theorem namedType (x : String) :
    R Ty (names.namedType x) (names'.namedType x) := by
  unfold Names.namedType
  rw [h.kind]
  split
  · exact hR.pure _
  · exact hR.pure _
  · exact hR.reject _
  · exact hR.reject _

mutual

/-- By the form of the expression: what is evaluated is composed of names and of operations on constants. -/
theorem eval (e : Expr) :
    R Constant (names.eval e) (names'.eval e) := by
  match e with
  | .intLit _ _ | .boolLit _ _ | .charLit _ _ | .strLit _ _ | .enumLit _ _ _ =>
    unfold Names.eval
    exact hR.pure _
  | .ident _ x =>
    unfold Names.eval
    exact hR.bind (h.constant x) hR.present
  | .member _ base _ =>
    cases base with
    | ident =>
      unfold Names.eval
      rw [h.variant]
      exact hR.present _
    | _ =>
      unfold Names.eval
      exact hR.reject _
  | .sizeof _ t =>
    unfold Names.eval
    refine hR.bind (resolve t) fun t => ?_
    exact hR.bind (h.sizeOf hR t) fun _ => hR.pure _
  | .cast _ t e =>
    have he := eval e
    cases t with
    | char | int =>
      unfold Names.eval
      exact hR.bind he fun v => hR.lift _
    | _ =>
      unfold Names.eval
      exact hR.reject _
  | .unary _ op e =>
    unfold Names.eval
    exact hR.bind (eval e) fun v => hR.lift _
  | .binary _ op l r =>
    unfold Names.eval
    refine hR.bind (eval l) fun a => ?_
    exact hR.bind (eval r) fun b => hR.lift _
  | .nil _ | .addrOf _ _ | .deref _ _ | .call _ _ _ | .index _ _ _ | .structLit _ _ | .arrayLit _ _
  | .builtin _ _ _ | .zeroed _ =>
    unfold Names.eval
    exact hR.reject _

/-- By the form of the type: the length of an array is evaluated, and a name is looked up. -/
theorem resolve (t : TypeExpr) :
    R Ty (names.resolve t) (names'.resolve t) := by
  match t with
  | .int _ _ | .char | .bool | .str | .void =>
    unfold Names.resolve
    exact hR.pure _
  | .named x =>
    unfold Names.resolve
    exact h.namedType hR x
  | .ptr t =>
    unfold Names.resolve
    exact hR.bind (resolve t) fun _ => hR.pure _
  | .array length elem =>
    unfold Names.resolve
    refine hR.bind (eval length) fun v => ?_
    refine hR.bind (hR.arrayLength v) fun n => ?_
    exact hR.bind (resolve elem) fun _ => hR.pure _

end

/-! ## What a table works out -/

/-- Fields are laid out one after another, and each asks for a type and its size. -/
theorem layoutFields (x : String) (done : Layout)
    (fields : List (String × TypeExpr)) :
    R Layout (Symbols.layoutFields names x done fields) (Symbols.layoutFields names' x done fields) := by
  induction fields generalizing done with
  | nil => exact hR.pure _
  | cons field rest ih =>
    obtain ⟨f, t⟩ := field
    unfold Symbols.layoutFields
    split
    · exact hR.reject_bind _ _ _
    · refine hR.bind (h.resolve hR t) fun ty => ?_
      refine hR.bind (h.sizeOf hR ty) fun size => ?_
      dsimp only
      split
      · exact hR.reject_bind _ _ _
      · exact ih _

theorem constantOf (type : Option TypeExpr)
    (value : Expr) :
    R GlobalConst (Symbols.constantOf names type value) (Symbols.constantOf names' type value) := by
  refine hR.bind (h.eval hR value) fun v => ?_
  cases type with
  | some t => exact hR.bind (h.resolve hR t) fun ty => hR.checked (some ty) v
  | none => exact hR.checked (Symbols.typeOfValue v) v

/-- Parameters are resolved one after another. -/
theorem paramTypes (done : List (String × Ty))
    (params : List (String × TypeExpr)) : R (List (String × Ty))
      (Symbols.paramTypes names done params) (Symbols.paramTypes names' done params) := by
  induction params generalizing done with
  | nil => exact hR.pure _
  | cons param rest ih =>
    obtain ⟨x, t⟩ := param
    unfold Symbols.paramTypes
    split
    · exact hR.reject_bind _ _ _
    · exact hR.bind (h.resolve hR t) fun ty => ih _

theorem signature (f : Func) :
    R Signature (Symbols.signature names f) (Symbols.signature names' f) := by
  refine hR.bind (h.paramTypes hR [] f.params) fun params => ?_
  exact hR.bind (h.resolve hR f.ret) fun ret => hR.pure _

end Names.Related

end Sigil
