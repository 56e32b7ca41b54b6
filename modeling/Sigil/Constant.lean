import Sigil.Error
import Sigil.Text.Quoted
import Sigil.Tree
import Sigil.Ty

/-!
# Constants

The values that are known while compiling. Integers are exact within 128 bits: a sum, difference or
product that does not fit is an error, and so is a zero divisor. The least integer has no 128-bit
quotient by minus one. On that division, whether for the quotient or for the remainder, the compiler
itself stops, which is a fault of its own kind.
-/

namespace Sigil

/-- A value known while compiling. -/
inductive Constant where
  | int (n : Int)
  | bool (b : Bool)
  | char (c : UInt8)
  | str (s : String)
deriving DecidableEq, Repr

/-- Why evaluation stops: an error of the program, or the division without a quotient. -/
inductive Fault where
  | error (e : TypeError)
  | trap
deriving DecidableEq, Repr

namespace Int128

/-- The least 128-bit integer. -/
def least : Int := -0x80000000000000000000000000000000

/-- The greatest 128-bit integer. -/
def greatest : Int := 0x7fffffffffffffffffffffffffffffff

/-- Whether `n` is a 128-bit integer. -/
def fits (n : Int) : Bool :=
  decide (least ≤ n) && decide (n ≤ greatest)

/-- The 128-bit negation, under which the least integer stays as it is. -/
def neg (n : Int) : Int :=
  if n = least then n else -n

end Int128

namespace Constant

/-- The value as an integer; a character is its code. -/
def asInt? : Constant → Option Int
  | int n => some n
  | char c => some c.toNat
  | bool _ | str _ => none

/-- The value for a reader. -/
def text : Constant → String
  | int n => toString n
  | bool b => if b then "true" else "false"
  | char c => Text.quoteByte c
  | str s => Text.quoteString s

/-- A 128-bit result, or the error that names the left operand. -/
def exact (left result : Int) : Except Fault Constant :=
  if Int128.fits result then .ok (int result)
  else .error (.error (.outOfRange left "constant"))

/-- A quotient or remainder, both truncated toward zero. -/
def divide (f : Int → Int → Int) (a b : Int) : Except Fault Constant :=
  if b = 0 then .error (.error .divisionByZero)
  else if a = Int128.least ∧ b = -1 then .error .trap
  else .ok (int (f a b))

/-- An operator on two integers. -/
def binaryInt (op : BinOp) (a b : Int) : Except Fault Constant :=
  match op with
  | .add => exact a (a + b)
  | .sub => exact a (a - b)
  | .mul => exact a (a * b)
  | .div => divide Int.tdiv a b
  | .rem => divide Int.tmod a b
  | .eq => .ok (bool (a == b))
  | .ne => .ok (bool (a != b))
  | .lt => .ok (bool (decide (a < b)))
  | .le => .ok (bool (decide (a ≤ b)))
  | .gt => .ok (bool (decide (b < a)))
  | .ge => .ok (bool (decide (b ≤ a)))
  | .and | .or => .error (.error .notConstant)

/-- An operator on two truth values. -/
def binaryBool (op : BinOp) (a b : Bool) : Except Fault Constant :=
  match op with
  | .and => .ok (bool (a && b))
  | .or => .ok (bool (a || b))
  | .eq => .ok (bool (a == b))
  | .ne => .ok (bool (a != b))
  | _ => .error (.error .notConstant)

/-- An operator on two constants. -/
def binary (op : BinOp) (l r : Constant) : Except Fault Constant :=
  match l, r with
  | bool a, bool b => binaryBool op a b
  | l, r =>
    match l.asInt?, r.asInt? with
    | some a, some b => binaryInt op a b
    | _, _ => .error (.error .notConstant)

/-- An operator on one constant. -/
def unary (op : UnOp) (v : Constant) : Except Fault Constant :=
  match op, v with
  | .neg, v =>
    match v.asInt? with
    | some n => .ok (int (Int128.neg n))
    | none => .error (.error .notConstant)
  | .not, bool b => .ok (bool !b)
  | .not, _ => .error (.error .notConstant)

/-- The conversion to a character keeps the low byte. -/
def toChar (v : Constant) : Except Fault Constant :=
  match v.asInt? with
  | some n => .ok (char (BitVec.ofInt 8 n).toNat.toUInt8)
  | none => .error (.error .notConstant)

/-- The conversion to an integer, whose range is not checked here. -/
def toInt (v : Constant) : Except Fault Constant :=
  match v with
  | bool b => .ok (int (if b then 1 else 0))
  | v =>
    match v.asInt? with
    | some n => .ok (int n)
    | none => .error (.error .notConstant)

/-- The word for the kind of a value. -/
def kindText : Constant → String
  | int _ => "integer"
  | bool _ => "bool"
  | char _ => "char"
  | str _ => "str"

/-- Whether a value fits the type declared for it. Without a type, an integer has to fit one of the
64-bit types. -/
def check (type : Option Ty) (value : Constant) : Except TypeError Unit :=
  match type, value with
  | none, int n =>
    if n < -0x8000000000000000 ∨ 0xffffffffffffffff < n then .error (.outOfRange n "int") else .ok ()
  | none, _ => .ok ()
  | some (.int bits signed), int n =>
    match (Ty.int bits signed).range? with
    | some (lo, hi) =>
      if n < lo ∨ hi < n then .error (.outOfRange n (Ty.int bits signed).text) else .ok ()
    | none => .ok ()
  | some .bool, bool _ | some .char, char _ | some .str, str _ => .ok ()
  | some t, v => .error (.mismatch t.text v.kindText)

end Constant

end Sigil
