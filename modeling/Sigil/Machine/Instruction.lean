import Sigil.Machine.Condition
import Sigil.Machine.Register
import Sigil.Text.Style

/-!
# Instructions

The subset of x86-64 that generated code uses, and its text: source operand first, a width letter on
the mnemonic, registers after a percent sign and immediates after a dollar sign.
-/

namespace Sigil.Machine

/-- The name of a place in the code or in the data. -/
abbrev Label := String

/-- What an instruction reads or writes. -/
inductive Operand where
  /-- A register. -/
  | reg (r : Register)
  /-- A constant. -/
  | imm (value : Int)
  /-- The memory cell at a displacement from a base register. -/
  | mem (base : Register) (disp : Int)
  /-- The memory cell at a label. -/
  | label (target : Label)
deriving DecidableEq, Repr

/-- Operations on two 64-bit operands with the result in the second. -/
inductive ArithOp where
  | add | sub | imul | and | or | xor
deriving DecidableEq, Repr

/-- Operations on one 64-bit register. -/
inductive UnaryOp where
  | neg | not | inc | dec
deriving DecidableEq, Repr

/-- An instruction. -/
inductive Instruction where
  /-- Copies the first operand to the second at the given width. -/
  | mov (w : Width) (src dst : Operand)
  /-- Reads an operand of the given width and extends it, by sign or by zeros, to the register. -/
  | extend (signed : Bool) (w : Width) (src : Operand) (dst : Register)
  /-- Computes the address of an operand. -/
  | lea (src : Operand) (dst : Register)
  | push (src : Operand)
  | pop (dst : Register)
  | arith (op : ArithOp) (src : Operand) (dst : Register)
  | unary (op : UnaryOp) (dst : Register)
  /-- Fills `rdx` with the sign of `rax`. -/
  | spreadSign
  /-- Divides `rdx:rax`, giving the quotient in `rax` and the remainder in `rdx`. -/
  | divide (signed : Bool) (divisor : Register)
  /-- Sets the flags by the second operand less the first. -/
  | cmp (src : Operand) (dst : Register)
  /-- Sets the flags by the bitwise and of two registers. -/
  | test (left right : Register)
  /-- Sets the low byte of a register to one or zero. -/
  | set (c : Condition) (dst : Register)
  | jump (target : Label)
  | jumpIf (c : Condition) (target : Label)
  | call (target : Label)
  | ret
  | syscall
  /-- Copies `rcx` bytes from `rsi` on to `rdi` on. -/
  | copyBytes
  /-- Writes the low byte of `rax` to `rcx` bytes from `rdi` on. -/
  | fillBytes
deriving DecidableEq, Repr

namespace Operand

/-- The operand as an instruction of the given width writes it. A displacement of zero is left out. -/
def text (w : Width) : Operand → String
  | reg r => r.operand w
  | imm n => "$" ++ toString n
  | mem base disp =>
    (if disp = 0 then "" else toString disp) ++ "(" ++ base.operand .quad ++ ")"
  | label l => l ++ "(%rip)"

end Operand

/-- The mnemonic of an operation, without its width letter. -/
def ArithOp.name : ArithOp → String
  | add => "add" | sub => "sub" | imul => "imul" | and => "and" | or => "or" | xor => "xor"

/-- The mnemonic of an operation, without its width letter. -/
def UnaryOp.name : UnaryOp → String
  | neg => "neg" | not => "not" | inc => "inc" | dec => "dec"

namespace Instruction

/-- The mnemonic. A zero extension from 32 bits is a plain 32-bit move, which clears the upper half of
its destination; an extension from 64 bits is a plain move. -/
def mnemonic : Instruction → String
  | mov w _ _ => "mov" ++ w.suffix
  | extend signed w _ _ =>
    match w, signed with
    | .byte, false => "movzbq"
    | .word, false => "movzwq"
    | .long, false => "movl"
    | .byte, true => "movsbq"
    | .word, true => "movswq"
    | .long, true => "movslq"
    | .quad, _ => "movq"
  | lea _ _ => "leaq"
  | push _ => "pushq"
  | pop _ => "popq"
  | arith op _ _ => op.name ++ "q"
  | unary op _ => op.name ++ "q"
  | spreadSign => "cqto"
  | divide signed _ => if signed then "idivq" else "divq"
  | cmp _ _ => "cmpq"
  | test _ _ => "testq"
  | set c _ => "set" ++ c.name
  | jump _ => "jmp"
  | jumpIf c _ => "j" ++ c.name
  | call _ => "call"
  | ret => "ret"
  | syscall => "syscall"
  | copyBytes => "rep movsb"
  | fillBytes => "rep stosb"

/-- The operands, separated by a comma; empty if there are none. -/
def operands : Instruction → String
  | mov w src dst => src.text w ++ ", " ++ dst.text w
  | extend signed w src dst =>
    let full := if w = .long ∧ signed = false then Width.long else .quad
    src.text w ++ ", " ++ dst.operand full
  | lea src dst | arith _ src dst | cmp src dst => src.text .quad ++ ", " ++ dst.operand .quad
  | push src => src.text .quad
  | pop r | unary _ r | divide _ r => r.operand .quad
  | test left right => left.operand .quad ++ ", " ++ right.operand .quad
  | set _ r => r.operand .byte
  | jump l | jumpIf _ l | call l => l
  | spreadSign | ret | syscall | copyBytes | fillBytes => ""

/-- The text of an instruction. -/
def text (i : Instruction) : String :=
  if i.operands = "" then i.mnemonic else i.mnemonic ++ " " ++ i.operands

/-- The text for a terminal: the mnemonic in a column of ten characters, control transfers apart in
colour from the rest. -/
def styled (i : Instruction) : String :=
  let head := Text.padRight 10 i.mnemonic
  match i with
  | jump _ | jumpIf _ _ | call _ | ret => Text.paintPair .magenta head .yellow i.operands
  | syscall => Text.paintBold .red head
  | _ => Text.paintPair .red head .blue i.operands

end Instruction

end Sigil.Machine
