import Sigil.Assoc
import Sigil.Attempt
import Sigil.Constant
import Sigil.Layout

/-!
# Evaluation

Constant expressions, written types and the sizes of types. The three depend on one another: a length
in a type is a constant, and a constant can be the size of a type. What names mean is given from
outside (`Names`). Layouts and constants that have been worked out are kept (`Memo`), together with the
names that are being worked out.
-/

namespace Sigil

/-- What a top-level name stands for. -/
inductive SymbolKind where
  | func | struct | enum | const
deriving DecidableEq, Repr

/-- A global constant. An integer without a declared type has none, and takes it from where it is
used. -/
structure GlobalConst where
  ty : Option Ty
  value : Constant
deriving DecidableEq, Repr

/-- What has been worked out, and the names in progress. -/
structure Memo where
  layouts : Assoc Layout
  constants : Assoc GlobalConst
  inProgress : List String
deriving Repr

/-- Nothing worked out yet. -/
def Memo.empty : Memo := ⟨[], [], []⟩

/-- An evaluation. -/
abbrev Eval := Attempt Memo Fault

namespace Eval

/-- Fails with an error of the program. -/
def reject {α : Type} (e : TypeError) : Eval α :=
  throw (.error e)

/-- The result of an operation on constants. -/
def lift {α : Type} : Except Fault α → Eval α
  | .ok a => pure a
  | .error e => throw e

end Eval

/-- What names mean to an evaluation. -/
structure Names where
  /-- What a top-level name stands for. -/
  kind : String → Option SymbolKind
  /-- The value of a name, if it has one. -/
  constant : String → Eval (Option Constant)
  /-- The ordinal of a variant of an enum. -/
  variant : String → String → Option Nat
  /-- The layout of a struct. -/
  layout : String → Eval Layout

namespace Names

/-- The size in bytes of a type. -/
def sizeOf (names : Names) : Ty → Eval Nat
  | .array length elem => do
    let size ← names.sizeOf elem
    if length * size ≤ maxObject then return length * size
    Eval.reject (.outOfRange (length * size : Nat) "array size")
  | .struct x => return (← names.layout x).size
  | t => return t.scalarSize?.getD 0

/-- A constant as the length of an array. -/
def arrayLength (v : Constant) : Eval Nat :=
  match v with
  | .int n =>
    if 0 ≤ n ∧ n ≤ maxObject then return n.toNat
    else Eval.reject (.outOfRange n "array length")
  | _ => Eval.reject .notConstant

/-- The type that a name stands for. -/
def namedType (names : Names) (x : String) : Eval Ty :=
  match names.kind x with
  | some .struct => return .struct x
  | some .enum => return .enum x
  | some _ => Eval.reject (.notAType x)
  | none => Eval.reject (.unknownType x)

/-- A constant that may be missing. -/
def present (v : Option Constant) : Eval Constant :=
  match v with
  | some v => return v
  | none => Eval.reject .notConstant

mutual

/-- The value of a constant expression. Both operands of an operator are evaluated, the left one
first. -/
def eval (names : Names) : Expr → Eval Constant
  | .intLit m n => return .int (readWord m.ty n)
  | .boolLit _ b => return .bool b
  | .charLit _ c => return .char c
  | .strLit _ s => return .str s
  | .enumLit _ _ n => return .int n.toNat
  | .ident _ x => do present (← names.constant x)
  | .member _ (.ident _ x) v => present ((names.variant x v).map fun n => .int n)
  | .sizeof _ t => do
    let n ← names.sizeOf (← names.resolve t)
    return .int n
  | .cast _ .char e => do Eval.lift (← names.eval e).toChar
  | .cast _ (.int _ _) e => do Eval.lift (← names.eval e).toInt
  | .unary _ op e => do Eval.lift ((← names.eval e).unary op)
  | .binary _ op l r => do
    let a ← names.eval l
    let b ← names.eval r
    Eval.lift (a.binary op b)
  | _ => Eval.reject .notConstant

/-- The type that is written. An integer type without a mark is unsigned. -/
def resolve (names : Names) : TypeExpr → Eval Ty
  | .int bits signed => return .int bits (signed.getD false)
  | .char => return .char
  | .bool => return .bool
  | .str => return .str
  | .void => return .void
  | .named x => names.namedType x
  | .ptr t => return .ptr (← names.resolve t)
  | .array length elem => do
    let n ← arrayLength (← names.eval length)
    return .array n (← names.resolve elem)

end

end Names

end Sigil
