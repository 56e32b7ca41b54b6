import Sigil.Code.Routine

/-!
# The pool

What the functions of a program share: the texts of its string literals, each once and in the order of
first use, and the routines that are called.
-/

namespace Sigil

open Machine (Block Label)

/-- The shared parts of a program. -/
structure Pool where
  strings : List String
  routines : List Routine
deriving Repr

namespace Pool

/-- Nothing shared yet. -/
def empty : Pool := ⟨[], []⟩

/-- The label of the `n`th text. -/
def stringLabel (n : Nat) : Label :=
  ".Lstr_" ++ toString n

/-- The label of a text, which goes into the pool if it is new. -/
def string (p : Pool) (s : String) : Label × Pool :=
  if s ∈ p.strings then (stringLabel (p.strings.idxOf s), p)
  else (stringLabel p.strings.length, { p with strings := p.strings ++ [s] })

/-- The pool with a routine. -/
def use (p : Pool) (r : Routine) : Pool :=
  if r ∈ p.routines then p else { p with routines := p.routines ++ [r] }

/-- The routines of a program with everything they call. -/
def closure (p : Pool) : List Routine :=
  Routine.closure p.routines

/-- The texts with their labels. -/
def labelled (p : Pool) : List (Label × String) :=
  p.strings.zipIdx.map fun (s, n) => (stringLabel n, s)

/-- The texts as data, each with a closing zero. -/
def data (p : Pool) : Block :=
  p.labelled.flatMap fun (l, s) =>
    [.label l, .directive ("asciz " ++ Machine.quoteBytes s.toUTF8.toList)]

end Pool

end Sigil
