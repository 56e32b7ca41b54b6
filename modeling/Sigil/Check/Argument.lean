import Sigil.Check.Conversion
import Sigil.Error

/-!
# Arguments of builtins

What each builtin takes and gives. An argument has a role, which fixes the type to aim at, the types
that will do, and the complaint about any other.
-/

namespace Sigil.Check

/-- What an argument is for. -/
inductive Role where
  | integer | printable | buffer | pointer | path | flag | memory
deriving DecidableEq, Repr

namespace Role

/-- The type that an argument aims at. -/
def hint : Role → Option Ty
  | integer => some .uint
  | flag => some .bool
  | _ => none

/-- Whether an argument of the given type will do. -/
def accepts : Role → Ty → Bool
  | integer, t => t.isInt
  | printable, t => t.isPrintable
  | buffer, .array _ _ | buffer, .ptr _ => true
  | buffer, _ => false
  | pointer, t => t.isPtr
  | path, t => t.isText
  | flag, t => t.isCondition
  | memory, .array _ _ | memory, .ptr _ | memory, .str => true
  | memory, _ => false

/-- The complaint about an argument of the given type. -/
def complaint (b : Builtin) (t : Ty) : Role → TypeError
  | integer => .mismatch Ty.uint.text t.text
  | printable => .builtinArgument b.name ("cannot print a value of type `" ++ t.text ++ "`")
  | buffer => .builtinArgument b.name "the buffer must be an array or a pointer"
  | pointer => .builtinArgument b.name "expected a pointer"
  | path => .builtinArgument b.name "the path must be a string"
  | flag => .builtinArgument b.name "flags must be `bool`"
  | memory => .builtinArgument b.name "expected a pointer or an array"

end Role

/-- The roles of the arguments of a builtin that is given `n` of them, or the number it expects. -/
def roles (b : Builtin) (n : Nat) : Except Nat (List Role) :=
  match b with
  | .output | .outputln =>
    if n = 0 then .error 1 else .ok (.integer :: List.replicate (n - 1) .printable)
  | .alloc | .close => exactly [.integer]
  | .free => exactly [.pointer, .integer]
  | .input => exactly [.integer, .buffer, .integer]
  | .memcpy => exactly [.memory, .memory, .integer]
  | .open_ => exactly [.path, .flag, .flag, .flag]
where
  /-- Exactly the given roles. -/
  exactly (rs : List Role) : Except Nat (List Role) :=
    if n = rs.length then .ok rs else .error rs.length

/-- The result type of a builtin. -/
def resultOf : Builtin → Ty
  | .output | .outputln | .free | .memcpy => .void
  | .input | .open_ | .close => .sint
  | .alloc => .ptr .void

end Sigil.Check
