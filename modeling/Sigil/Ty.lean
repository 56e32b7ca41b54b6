/-!
# Types

The types that checked programs carry. An integer type has a width in bits and a sign, and its values
are those of the usual range; a `char` is a byte. Structs and arrays are aggregates, which generated
code handles by their address.
-/

namespace Sigil

/-- A type. -/
inductive Ty where
  | int (bits : Nat) (signed : Bool)
  | char
  | bool
  | str
  | void
  | ptr (target : Ty)
  | array (length : Nat) (elem : Ty)
  | struct (name : String)
  | enum (name : String)
deriving DecidableEq, Repr, Inhabited

namespace Ty

/-- The 64-bit unsigned integers. -/
def uint : Ty := int 64 false

/-- The 64-bit signed integers. -/
def sint : Ty := int 64 true

/-- Whether this is an integer type. -/
def isInt : Ty → Bool
  | int _ _ => true
  | _ => false

/-- Whether this is a signed integer type. -/
def isSigned : Ty → Bool
  | int _ signed => signed
  | _ => false

/-- Whether this is a pointer type. -/
def isPtr : Ty → Bool
  | ptr _ => true
  | _ => false

/-- Whether this is the type of a pointer to anything. -/
def isVoidPtr : Ty → Bool
  | ptr void => true
  | _ => false

/-- Whether values of the type are handled by address. -/
def isAggregate : Ty → Bool
  | struct _ | array _ _ => true
  | _ => false

/-- The size in bytes of a value that is no aggregate. -/
def scalarSize? : Ty → Option Nat
  | int bits _ => some (bits / 8)
  | char | bool => some 1
  | str | ptr _ | enum _ => some 8
  | void => some 0
  | array _ _ | struct _ => none

/-- The least and the greatest value of an integer type or of `char`. -/
def range? : Ty → Option (Int × Int)
  | int bits true => some (-Nat.pow 2 (bits - 1), Nat.pow 2 (bits - 1) - 1)
  | int bits false => some (0, Nat.pow 2 bits - 1)
  | char => some (0, 255)
  | _ => none

/-- The mark of a sign. -/
def sigil (signed : Bool) : String :=
  if signed then "?" else "!"

/-- The type for a reader. -/
def text : Ty → String
  | int 64 signed => "int" ++ sigil signed
  | int 16 signed => "short" ++ sigil signed
  | int bits signed => "i" ++ toString bits ++ sigil signed
  | char => "char"
  | bool => "bool"
  | str => "str"
  | void => "void"
  | ptr target => "*" ++ target.text
  | array length elem => "[" ++ toString length ++ "]" ++ elem.text
  | struct name | enum name => name

end Ty

end Sigil
