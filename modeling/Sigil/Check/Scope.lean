import Sigil.Check.Conversion
import Sigil.Frame
import Sigil.Symbols

/-!
# The state of checking

What is known at a point of a function while it is checked: the frame with its scopes, the loops
around, the pointers that are certainly freed, and what has been learned about the signs of integers
that were declared without one. A check that fails hands back the tree as far as it had been checked.
-/

namespace Sigil.Check

/-- What holds throughout a function. -/
structure Context where
  symbols : Symbols
  /-- The result type of the function. -/
  ret : Ty
  /-- The places of declarations without a sign that are to be signed. -/
  signed : List Position

/-- What is known at a point of a function. -/
structure Scope where
  frame : Frame
  /-- The number of loops around. -/
  loops : Nat
  /-- The offsets of pointers that are certainly freed. -/
  freed : List Int
  /-- The declarations that were taken as unsigned for want of a sign, by offset. -/
  pending : List (Int × Position)
  /-- The places of declarations that have met a signed operand. -/
  learned : List Position
  errors : List (Located TypeError)
  /-- Whether an evaluation has trapped. -/
  trapped : Bool

/-- A failed check: the error, and the tree as far as it had been checked. -/
structure Spoiled (τ : Type) where
  error : Located TypeError
  tree : τ

/-- A check of a tree of type `τ`. -/
abbrev Checker (τ α : Type) := Attempt Scope (Spoiled τ) α

variable {τ τ' α : Type}

/-- Fails. -/
def reject (tree : τ) (pos : Position) (e : TypeError) : Checker τ α :=
  throw ⟨⟨pos, e⟩, tree⟩

/-- Checks a part of a tree: if that fails, the part goes back into its surroundings. -/
def within (context : τ → τ') (part : Checker τ α) : Checker τ' α :=
  part.mapFailure fun s => ⟨s.error, context s.tree⟩

/-- Two types do not agree. -/
def mismatch (expected found : Ty) : TypeError :=
  .mismatch expected.text found.text

namespace Context

/-- What names mean at a point of a function: local names hide global ones. -/
def names (c : Context) (f : Frame) : Names :=
  { kind := c.symbols.kind
    variant := fun x v => if f.isLocal x then none else c.symbols.variant x v
    constant := fun x =>
      match f.get? x with
      | some slot => return slot.value
      | none => c.symbols.names.constant x
    layout := c.symbols.layout }

/-- The answer to a question about the names at this point. If evaluation traps, checking goes on as
if there were no value, and the trap is on record. -/
def ask (c : Context) (question : Names → Eval α) : Checker τ (Except TypeError α) := fun s =>
  match c.symbols.ask (question (c.names s.frame)) with
  | .ok a => (.ok (.ok a), s)
  | .error (.error e) => (.ok (.error e), s)
  | .error .trap => (.ok (.error .notConstant), { s with trapped := true })

/-- The value of an expression, if it is constant. -/
def value? (c : Context) (e : Expr) : Checker τ (Option Constant) := do
  match ← c.ask (·.eval e) with
  | .ok v => return some v
  | .error _ => return none

/-- The integer value of an expression, if it is constant. -/
def intValue? (c : Context) (e : Expr) : Checker τ (Option Int) := do
  return (← c.value? e).bind Constant.asInt?

/-- The answer to a question; an error is one of the tree at the place. -/
def demand (c : Context) (tree : τ) (pos : Position) (question : Names → Eval α) : Checker τ α := do
  match ← c.ask question with
  | .ok a => return a
  | .error e => reject tree pos e

/-- Whether a name is a global constant here. -/
def isGlobalConst (c : Context) (f : Frame) (x : String) : Bool :=
  !f.isLocal x && c.symbols.kind x == some .const

/-- Whether an expression takes its type from where it stands: integer literals, `nil`, sizes,
constants without a type, and arithmetic on these. -/
def isOpen (c : Context) (f : Frame) : Expr → Bool
  | .intLit m _ | .nil m | .sizeof m _ => m.ty.isNone
  | .unary _ .neg e => c.isOpen f e
  | .binary _ op l r => op.isArith && c.isOpen f l && c.isOpen f r
  | .ident _ x =>
    c.isGlobalConst f x &&
      match c.symbols.ask (c.symbols.globalConst x) with
      | .ok const => const.ty.isNone
      | .error _ => false
  | _ => false

end Context

/-! ## Signs and freed pointers -/

/-- The offset of the local that an expression is. -/
def Scope.offset? (s : Scope) : Expr → Option Int
  | .ident _ x => (s.frame.get? x).map (·.offset)
  | _ => none

/-- The operands of nested arithmetic. -/
def operands : Expr → List Expr
  | .binary m op l r => if op.isArith then operands l ++ operands r else [.binary m op l r]
  | .unary _ .neg e => operands e
  | e => [e]

/-- The declaration that an operand has its missing sign from. -/
def Scope.pendingDecl? (s : Scope) (e : Expr) : Option Position := do
  let offset ← s.offset? e
  s.pending.lookup offset

/-- Records that the operands of `e` have met the type `other`: if it is signed, those that were
declared without a sign are to be signed. -/
def Scope.learn (s : Scope) (e : Expr) (other : Ty) : Scope :=
  if other.isSigned then
    { s with learned := s.learned ++ (operands e).filterMap s.pendingDecl? }
  else s

/-- Records that the declaration at `pos` has its sign only by default. -/
def Scope.await (s : Scope) (offset : Int) (pos : Position) : Scope :=
  { s with pending := (offset, pos) :: s.pending }

/-- The state after one of several ways: what was freed on the way is not certainly freed. -/
def Scope.rejoin (before after : Scope) : Scope :=
  { after with freed := before.freed.filter after.freed.contains }

end Sigil.Check
