import Sigil.Machine.Block
import Sigil.Ty

/-!
# Moving values

Between memory and `rax`, at the width of a type. A value in `rax` always fills the whole register:
narrow types are extended by their sign or by zeros.
-/

namespace Sigil.Code

open Machine (Block Line Operand Width)

/-- The width of a simple type in memory. -/
def widthOf (t : Ty) : Width :=
  (t.scalarSize?.bind Width.ofBytes?).getD .quad

/-- The cell at an offset from the frame pointer. -/
def slot (offset : Int) : Operand :=
  .mem .rbp offset

/-- Replaces the address in `rax` by the value that is stored there. -/
def load (t : Ty) : Block :=
  match widthOf t with
  | .quad => [.mov (.mem .rax 0) .rax]
  | w => [.instr (.extend t.isSigned w (.mem .rax 0) .rax)]

/-- Stores `rax` in memory. -/
def storeTo (t : Ty) (dst : Operand) : Block :=
  [.instr (.mov (widthOf t) (.reg .rax) dst)]

/-- Stores `rax` at the address in `rcx`. -/
def store (t : Ty) : Block :=
  storeTo t (.mem .rcx 0)

/-- The width that a result of the type is brought back to. -/
def resultWidth : Ty → Width
  | .int bits signed => widthOf (.int bits signed)
  | .char => widthOf .char
  | .bool => widthOf .bool
  | _ => .quad

/-- Brings a 64-bit result in `rax` back to the width of a type. -/
def normalize (t : Ty) : Block :=
  match resultWidth t with
  | .quad => []
  | w => [.instr (.extend t.isSigned w (.reg .rax) .rax)]

/-- Copies bytes from the address in `rsi` to that in `rdi`. -/
def copyBytes (size : Nat) : Block :=
  [.const size .rcx, .instr .copyBytes]

/-- Fills bytes of the frame with zeros. -/
def zeroFill (offset : Int) (size : Nat) : Block :=
  [.lea (slot offset) .rdi, .clear .rax, .const size .rcx, .instr .fillBytes]

end Sigil.Code
