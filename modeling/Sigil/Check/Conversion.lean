import Sigil.Tree
import Sigil.Ty

/-!
# Conversions

Which values can be stored where, which can be converted, and which expressions are places.
-/

namespace Sigil

namespace Ty

/-- Whether values of the type are addresses. -/
def isAddress : Ty → Bool
  | ptr _ | str => true
  | _ => false

/-- Whether a value of type `src` can be stored where `dst` is expected: the types agree, one of them
is a pointer to anything, or they are the two forms of a string. -/
def assignable (dst src : Ty) : Bool :=
  dst == src
    || (dst.isPtr && src.isVoidPtr)
    || (dst.isVoidPtr && src.isAddress)
    || (dst == str && src == ptr char)
    || (dst == ptr char && src == str)

/-- Whether a value can be converted on demand. -/
def castable (src dst : Ty) : Bool :=
  src == dst ||
    match src, dst with
    | int _ _, int _ _ | char, int _ _ | bool, int _ _ | enum _, int _ _ => true
    | int _ _, char => true
    | int _ _, enum _ => true
    | array _ _, ptr _ => true
    | src, int 64 _ => src.isAddress
    | int 64 _, dst => dst.isAddress
    | src, dst => src.isAddress && dst.isAddress

/-- Whether the type has arithmetic and an order. -/
def isOrdered : Ty → Bool
  | int _ _ | char => true
  | _ => false

/-- Whether values of the type can be compared at all. -/
def isComparable : Ty → Bool
  | int _ _ | char | bool | ptr _ | str | enum _ => true
  | _ => false

/-- Whether the type is a string or holds characters. -/
def isText : Ty → Bool
  | str | ptr char | array _ char => true
  | _ => false

/-- Whether a value of the type can be printed. -/
def isPrintable : Ty → Bool
  | int _ _ | char | bool | enum _ => true
  | t => t.isText

/-- Whether a value of the type can tell yes from no. -/
def isCondition : Ty → Bool
  | bool | int _ _ => true
  | _ => false

@[simp] theorem assignable_self (t : Ty) : assignable t t = true := by
  simp [assignable]

end Ty

/-- Whether an expression names a place in memory. -/
def Expr.isPlace : Expr → Bool
  | .ident .. | .deref .. => true
  | .member _ base _ => base.isPlace
  | .index _ base _ =>
    (match base.ty with
      | some t => t.isAddress
      | none => false) || base.isPlace
  | _ => false

/-- The expression whose storage a place is part of, as far as it is reached without following a
pointer. -/
def Expr.root : Expr → Expr
  | .member m base x =>
    if (base.ty.map Ty.isPtr).getD false then .member m base x else base.root
  | .index m base i =>
    if (base.ty.map Ty.isPtr).getD false then .index m base i else base.root
  | e => e

end Sigil
