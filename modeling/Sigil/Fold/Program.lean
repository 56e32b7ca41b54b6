import Sigil.Fold.Expression

/-!
# Folding programs

Statements are folded with their expressions, and of a conditional whose condition is known only the
branch that runs is kept. Passes over a function are repeated until one changes nothing or meets an
error, within a limit.
-/

namespace Sigil

namespace Fold

/-- The truth value of a condition that is known. -/
def truth? : Expr → Option Bool
  | .boolLit _ b => some b
  | .intLit _ n => some (n != 0)
  | _ => none

/-- A conditional whose parts have been folded. -/
def cond (pos : Position) (test : Expr) (yes : Stmt) (no : Option Stmt) : Folded Stmt :=
  match truth? test with
  | some true => .change (.block pos [yes])
  | some false => .change (.block pos no.toList)
  | none => .keep (.cond pos test yes no)

/-- A loop whose parts have been folded: one that never runs and has no counter goes away. -/
def loop (pos : Position) (init : Option (String × Expr)) (test : Expr) (post : Option Stmt)
    (body : Stmt) : Folded Stmt :=
  if init.isNone && truth? test == some false then .change (.block pos [])
  else .keep (.loop pos init test post body)

/-- One pass over an expression that may be missing. -/
def optionExpr : Option Expr → Folded (Option Expr)
  | none => return none
  | some e => return some (← expr e)

/-- One pass over the start of a counter. -/
def counter : Option (String × Expr) → Folded (Option (String × Expr))
  | none => return none
  | some (x, e) => return some (x, ← expr e)

mutual

/-- One pass over a statement. -/
def stmt : Stmt → Folded Stmt
  | .block pos body => return .block pos (← stmts body)
  | .expr pos e => return .expr pos (← expr e)
  | .assign pos l r => do
    let l ← expr l
    return .assign pos l (← expr r)
  | .var pos d => do
    let init ← optionExpr d.init
    return .var pos { d with init }
  | .ret pos e => return .ret pos (← optionExpr e)
  | .brk pos => return .brk pos
  | .cont pos => return .cont pos
  | .cond pos test yes no => do
    let test ← expr test
    let yes ← stmt yes
    cond pos test yes (← optionStmt no)
  | .loop pos init test post body => do
    let init ← counter init
    let test ← expr test
    let body ← stmt body
    let post ← optionStmt post
    loop pos init test post body

/-- One pass over a statement that may be missing. -/
def optionStmt : Option Stmt → Folded (Option Stmt)
  | none => return none
  | some s => return some (← stmt s)

/-- One pass over statements, in order. -/
def stmts : List Stmt → Folded (List Stmt)
  | [] => return []
  | s :: rest => do
    let s ← stmt s
    return s :: (← stmts rest)

end

/-- The greatest number of passes over a function. -/
def maxPasses : Nat := 32

/-- At most `n` passes over the body of a function: until a pass changes nothing or meets an error. -/
def passes : Nat → List Stmt → Folded (List Stmt)
  | 0, body => .keep body
  | n + 1, body => do
    let pass := stmts body
    let body ← pass
    if pass.changes = 0 || !pass.errors.isEmpty then return body else passes n body

/-- Folds a definition. -/
def definition (d : Def) : Folded Def :=
  match d.body with
  | .func f => do
    let body ← passes maxPasses f.body
    return { d with body := .func { f with body } }
  | _ => return d

/-- Folds definitions, in order. -/
def definitions : Program → Folded Program
  | [] => return []
  | d :: ds => do
    let d ← definition d
    return d :: (← definitions ds)

end Fold

/-- The folded program and the number of changes, or the errors that folding met. -/
def Program.folded (p : Program) : Except (List (Located TypeError)) (Program × Nat) :=
  match Fold.definitions p with
  | ⟨p, changes, []⟩ => .ok (p, changes)
  | ⟨_, _, errors⟩ => .error errors

end Sigil
