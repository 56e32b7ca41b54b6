import Sigil.Check.Statement
import Sigil.Parse.Source

/-!
# Checking programs

A function is checked in passes. In a pass, an integer that is declared without a sign and gets no sign
from its initial value is unsigned. If that leads to errors, and such an integer has met a signed
operand, the next pass takes it as signed. Every pass but the last finds at least one more such
declaration, so there are at most as many further passes as there are declarations without a sign.
-/

namespace Sigil

namespace Check

/-- The state before the body of a function. An argument whose type has no size takes up eight bytes. -/
def Scope.start (t : Symbols) (sig : Signature) : Scope :=
  let size (ty : Ty) : Nat :=
    match t.ask (t.names.sizeOf ty) with
    | .ok n => n
    | .error _ => 8
  { frame := .ofArgs (sig.params.map fun (x, ty) => (x, ty, size ty)) sig.ret.isAggregate
    loops := 0
    freed := []
    pending := []
    learned := []
    errors := []
    trapped := false }

/-- One pass over the body of a function, with the given declarations taken as signed. -/
def pass (t : Symbols) (sig : Signature) (signed : List Position) (body : List Stmt) :
    List Stmt × Scope :=
  enclosed (stmts ⟨t, sig.ret, signed⟩ body) (.start t sig)

/-- The declarations that a pass found to be signed and that had not been taken so. -/
def Scope.news (s : Scope) (signed : List Position) : List Position :=
  s.learned.filter fun p => !signed.contains p

/-- Checks the body of a function with at most `n` further passes: the typed body, the errors, and
whether evaluation trapped. -/
def passes (t : Symbols) (sig : Signature) (body : List Stmt) :
    Nat → List Position → List Stmt × List (Located TypeError) × Bool
  | n, signed =>
    let (body', s) := pass t sig signed body
    if s.trapped || s.errors.isEmpty || (s.news signed).isEmpty then (body', s.errors, s.trapped)
    else
      match n with
      | 0 => (body', s.errors, s.trapped)
      | n + 1 => passes t sig body n (signed ++ s.news signed)

/-- Checks a definition. A function whose signature is faulty is left as it is. -/
def definition (t : Symbols) (d : Def) : Option (Def × List (Located TypeError)) :=
  match d.body with
  | .func f =>
    match t.funcs.get? d.name with
    | some sig =>
      match passes t sig f.body (unsigiledAll f.body).length [] with
      | (_, _, true) => none
      | (body, es, false) => some ({ d with body := .func { f with body } }, es)
    | none => some (d, [])
  | _ => some (d, [])

/-- Checks definitions one after another. -/
def definitions (t : Symbols) : Program → Option (Program × List (Located TypeError))
  | [] => some ([], [])
  | d :: ds => do
    let (d', es) ← definition t d
    let (ds', es') ← definitions t ds
    return (d' :: ds', es ++ es')

end Check

/-- A program whose functions have been checked, with its symbol table. -/
structure Checked where
  program : Program
  symbols : Symbols

/-- Checks a program: the program as far as it could be typed, and every error. Nothing if evaluation
traps. -/
def Program.typed (p : Program) : Option (Checked × List (Located TypeError)) := do
  let (t, es) ← Symbols.ofProgram p
  let (p', es') ← Check.definitions t p
  return (⟨p', t⟩, es ++ es')

end Sigil
