import Sigil.Tree

/-!
# Literals and their values

A typed literal stands for an integer, and every integer has a literal in every integer type: the one
that agrees with it modulo the width of the type.
-/

namespace Sigil

/-- The word that represents an integer in a type of the given width and sign: the low bits, extended
to the whole word. -/
def wrapWord (bits : Nat) (signed : Bool) (v : Int) : Word :=
  if 64 ≤ bits then .ofInt 64 v
  else if signed then (BitVec.ofInt bits v).signExtend 64
  else (BitVec.ofInt bits v).setWidth 64

namespace Expr

/-- The integer that a typed literal stands for. -/
def value? : Expr → Option Int
  | intLit m n =>
    match m.ty with
    | some (.int _ _) => some (readWord m.ty n)
    | _ => none
  | charLit _ c => some c.toNat
  | enumLit _ _ n => some n.toNat
  | _ => none

/-- The literal of type `t` for an integer, wrapped to the width of the type. -/
def ofValue (m : Mark) (v : Int) : Ty → Expr
  | .int bits signed => intLit m (wrapWord bits signed v)
  | .char => charLit m (BitVec.ofInt 8 v).toNat.toUInt8
  | .bool => boolLit m (v != 0)
  | _ => intLit m (.ofInt 64 v)

@[simp] theorem mark_ofValue (m : Mark) (v : Int) (t : Ty) : (ofValue m v t).mark = m := by
  cases t <;> rfl

end Expr

end Sigil
