import Sigil.Check.Program
import Sigil.Code.Assembly
import Sigil.Fold.Program

/-!
# Compiling

From the text of a program to its assembly: the text is read, checked, folded and turned into code. The
first phase that finds errors stops the compilation, and reports all that it finds.
-/

namespace Sigil

/-- Why a compilation stops: it finds errors, or evaluation traps. -/
inductive Stop where
  | errors (es : List Error)
  | trap

/-- A program that is ready for code generation. -/
structure Frontend where
  program : Program
  symbols : Symbols
  /-- The number of changes made by folding. -/
  folds : Nat

namespace Compile

/-- Reads a program. -/
def parse (code : String) : Except Stop Program :=
  match parseSource code with
  | .ok p => .ok p
  | .error es => .error (.errors es)

/-- Checks a program. -/
def check (p : Program) : Except Stop Checked :=
  match Program.typed p with
  | none => .error .trap
  | some (c, []) => .ok c
  | some (_, es) => .error (.errors (es.map .type))

/-- Folds a checked program. -/
def fold (c : Checked) : Except Stop Frontend :=
  match Program.folded c.program with
  | .ok (program, folds) => .ok ⟨program, c.symbols, folds⟩
  | .error es => .error (.errors (es.map .type))

/-- Generates code. -/
def generate (f : Frontend) : Except Stop Assembly :=
  match Assembly.ofProgram f.symbols f.program with
  | .ok a => .ok a
  | .error e => .error (.errors [e])

/-- Everything before code generation. -/
def frontend (code : String) : Except Stop Frontend := do
  fold (← check (← parse code))

end Compile

end Sigil
