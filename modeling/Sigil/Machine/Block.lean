import Sigil.Machine.Line

/-!
# Blocks of code

Lists of lines, and short names for the lines that they are made of. All of these work on whole 64-bit
registers.
-/

namespace Sigil.Machine

/-- A piece of an assembly file. -/
abbrev Block := List Line

namespace Line

/-- Copies an operand to a register. -/
def mov (src : Operand) (dst : Register) : Line := instr (.mov .quad src (.reg dst))

/-- Copies a register to a register. -/
def copy (src dst : Register) : Line := mov (.reg src) dst

/-- Sets a register to a constant. -/
def const (n : Int) (dst : Register) : Line := mov (.imm n) dst

/-- Computes an address. -/
def lea (src : Operand) (dst : Register) : Line := instr (.lea src dst)

/-- Pushes a register. -/
def push (r : Register) : Line := instr (.push (.reg r))

/-- Pops a register. -/
def pop (r : Register) : Line := instr (.pop r)

/-- Adds to a register. -/
def add (src : Operand) (dst : Register) : Line := instr (.arith .add src dst)

/-- Subtracts from a register. -/
def sub (src : Operand) (dst : Register) : Line := instr (.arith .sub src dst)

/-- Multiplies a register. -/
def imul (src : Operand) (dst : Register) : Line := instr (.arith .imul src dst)

/-- Bitwise exclusive or. -/
def xor (src : Operand) (dst : Register) : Line := instr (.arith .xor src dst)

/-- Sets a register to zero. -/
def clear (r : Register) : Line := xor (.reg r) r

/-- Sets the flags by a register. -/
def test (r : Register) : Line := instr (.test r r)

/-- Jumps. -/
def jump (l : Label) : Line := instr (.jump l)

/-- Jumps if a condition holds. -/
def jumpIf (c : Condition) (l : Label) : Line := instr (.jumpIf c l)

/-- Calls. -/
def call (l : Label) : Line := instr (.call l)

/-- Returns. -/
def ret : Line := instr .ret

end Line

/-- The text of a block, a line each. -/
def Block.text (b : Block) : List String := b.map Line.text

end Sigil.Machine
