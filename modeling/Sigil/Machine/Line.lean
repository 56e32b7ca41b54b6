import Sigil.Machine.Instruction

/-!
# Lines of assembly

A line of an assembly file, its plain text and its text for a terminal, and the quoting of bytes in
data directives.
-/

namespace Sigil.Machine

/-- One line of an assembly file. -/
inductive Line where
  | instr (i : Instruction)
  | label (name : Label)
  /-- A directive, without its leading dot. -/
  | directive (body : String)
  | comment (body : String)
deriving DecidableEq, Repr

namespace Line

/-- The line as the assembler reads it. -/
def text : Line → String
  | instr i => "    " ++ i.text
  | label l => l ++ ":"
  | directive d => "    ." ++ d
  | comment c => "    # " ++ c

/-- The line for a terminal. -/
def styled : Line → String
  | instr i => "    " ++ i.styled
  | label l => Text.paintBold .green l ++ ":"
  | directive d => "    " ++ Text.paint .cyan ("." ++ d)
  | comment c => "    " ++ Text.dim ("# " ++ c)

end Line

/-- The digit of `n` modulo eight. -/
def octalDigit (n : Nat) : Char :=
  Char.ofNat (48 + n % 8)

/-- A byte inside a quoted data directive: short escapes where the assembler has them, printable ASCII
as it is, and three octal digits for the rest, so that a digit after it is not taken into it. -/
def escapedByte (b : UInt8) : List Char :=
  match b.toNat with
  | 34 => ['\\', '"']
  | 92 => ['\\', '\\']
  | 10 => ['\\', 'n']
  | 9 => ['\\', 't']
  | 13 => ['\\', 'r']
  | n =>
    if 0x20 ≤ n ∧ n ≤ 0x7e then [Char.ofNat n]
    else ['\\', octalDigit (n / 64), octalDigit (n / 8), octalDigit n]

/-- Bytes in double quotes, for a data directive. -/
def quoteBytes (bytes : List UInt8) : String :=
  String.ofList ('"' :: bytes.flatMap escapedByte ++ ['"'])

end Sigil.Machine
