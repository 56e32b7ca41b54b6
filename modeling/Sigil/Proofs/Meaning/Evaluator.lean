import Sigil.Proofs.Meaning.Values

/-!
# What typed programs mean

A reference evaluator for typed trees. Literals, operators and conversions are worked out on integers,
each result brought into the range of its type; a division by zero, or of the least 64-bit integer by
minus one, is a fault. All other expressions are left to an oracle: it is asked for the value of a
variable, a call or an access, for the address of a place, to store and to declare. The oracle may answer
in any way, by all that has been asked before, and need not answer at all.

So what a program does is the history of its questions with their answers, and how it ends.
-/

namespace Sigil.Meaning

/-! ## Questions -/

/-- The form of an expression, as far as its meaning is left open. -/
inductive Form where
  | name (x : String)
  | nil
  | text (contents : String)
  | zeroed
  | sizeof
  | deref
  | member (x : String)
  | index
  | call (callee : Option String)
  | service (b : Builtin)
  | struct (fields : List String)
  | array
  /-- The meaning is worked out. -/
  | fixed
deriving DecidableEq

/-- A question to the oracle. -/
inductive Query where
  /-- The value of an expression. -/
  | value (form : Form) (ty : Option Ty)
  /-- The address of a place. -/
  | address (place : Form) (ty : Option Ty)
  /-- Stores the first operand in a place. -/
  | store (place : Form) (ty : Option Ty)
  | declare (x : String) (ty : Option Ty)
  /-- A scope opens. -/
  | enter
  /-- A scope closes. -/
  | leave
deriving DecidableEq

/-- A question with its operands, and the answer if there is one. -/
structure Event where
  query : Query
  operands : List Int
  answer : Option Int
deriving DecidableEq

/-- All that has been asked, the latest first. -/
abbrev History := List Event

/-- Answers questions by all that has been asked before, or does not answer. -/
abbrev Oracle := History → Query → List Int → Option Int

/-- Why a program does not go on: a division has no result, the oracle does not answer, or a loop has
had its number of rounds. -/
inductive Abort where
  | fault
  | stuck
  | exhausted
deriving DecidableEq

/-- Works something out. -/
abbrev Run := Attempt History Abort

/-- Asks the oracle. -/
def ask (o : Oracle) (q : Query) (operands : List Int) : Run Int := fun h =>
  match o h q operands with
  | some v => (.ok v, ⟨q, operands, some v⟩ :: h)
  | none => (.error .stuck, ⟨q, operands, none⟩ :: h)

/-! ## Operators -/

/-- The value of the type that an integer stands for, if there is a type. -/
def bring (ty : Option Ty) (v : Int) : Int :=
  match ty with
  | some t => t.wrap v
  | none => v

/-- A truth value. -/
def truth (b : Bool) : Int :=
  if b then 1 else 0

/-- A quotient or a remainder. -/
def quotient (ty : Option Ty) (f : Int → Int → Int) (a b : Int) : Run Int :=
  if b = 0 ∨ a = -2 ^ 63 ∧ b = -1 then throw .fault else return bring ty (f a b)

/-- The result of an operator that needs both operands. -/
def calculate (ty : Option Ty) (op : BinOp) (a b : Int) : Run Int :=
  match op with
  | .add => return bring ty (a + b)
  | .sub => return bring ty (a - b)
  | .mul => return bring ty (a * b)
  | .div => quotient ty Int.tdiv a b
  | .rem => quotient ty Int.tmod a b
  | .eq => return truth (decide (a = b))
  | .ne => return truth (decide (a ≠ b))
  | .lt => return truth (decide (a < b))
  | .le => return truth (decide (a ≤ b))
  | .gt => return truth (decide (b < a))
  | .ge => return truth (decide (b ≤ a))
  | .and => return truth (decide (a ≠ 0 ∧ b ≠ 0))
  | .or => return truth (decide (a ≠ 0 ∨ b ≠ 0))

/-! ## Expressions -/

/-- What an expression means: how to get its value, and how to get those of its parts. -/
structure Sense where
  value : Run Int
  operands : Run (List Int)

/-- A literal. -/
def literal (v : Int) : Sense :=
  ⟨pure v, pure []⟩

/-- An expression that is left to the oracle. -/
def asked (o : Oracle) (m : Mark) (form : Form) (operands : Run (List Int)) : Sense :=
  { value := do
      let vs ← operands
      return bring m.ty (← ask o (.value form m.ty) vs)
    operands }

/-- Operators before one operand. -/
def unary (m : Mark) (op : UnOp) (e : Sense) : Sense :=
  { value := do
      let v ← e.value
      match op with
      | .neg => return bring m.ty (-v)
      | .not => return truth (decide (v = 0))
    operands := do return [← e.value] }

/-- Operators between two operands. The right operand of `&&` and `||` is worked out only if the left
one does not decide. -/
def binary (m : Mark) (op : BinOp) (l r : Sense) : Sense :=
  { value := do
      let a ← l.value
      match op with
      | .and => if a = 0 then return 0 else r.value
      | .or => if a = 0 then r.value else return 1
      | op =>
        let b ← r.value
        calculate m.ty op a b
    operands := do
      let a ← l.value
      return [a, ← r.value] }

/-- A conversion. -/
def cast (m : Mark) (e : Sense) : Sense :=
  { value := do return bring m.ty (← e.value)
    operands := do return [← e.value] }

/-- The form of an expression. -/
def form : Expr → Form
  | .ident _ x => .name x
  | .nil _ => .nil
  | .strLit _ s => .text s
  | .zeroed _ => .zeroed
  | .sizeof _ _ => .sizeof
  | .deref _ _ => .deref
  | .member _ _ x => .member x
  | .index _ _ _ => .index
  | .call _ (.ident _ x) _ => .call (some x)
  | .call _ _ _ => .call none
  | .builtin _ b _ => .service b
  | .structLit _ fields => .struct (fields.map (·.1))
  | .arrayLit _ _ => .array
  | _ => .fixed

/-- The address of a place, which is not read. -/
def address (o : Oracle) (m : Mark) (place : Form) (e : Sense) : Sense :=
  { value := do
      let vs ← e.operands
      return bring m.ty (← ask o (.address place m.ty) vs)
    operands := e.operands }

mutual

/-- The meaning of an expression. -/
def sense (o : Oracle) : Expr → Sense
  | .intLit m n => literal (readWord m.ty n)
  | .boolLit _ b => literal (truth b)
  | .charLit _ c => literal c.toNat
  | .enumLit _ _ n => literal n.toNat
  | .unary m op e => unary m op (sense o e)
  | .binary m op l r => binary m op (sense o l) (sense o r)
  | .cast m _ e => cast m (sense o e)
  | .addrOf m e => address o m (form e) (sense o e)
  | .ident m x => asked o m (.name x) (pure [])
  | .nil m => asked o m .nil (pure [])
  | .strLit m s => asked o m (.text s) (pure [])
  | .zeroed m => asked o m .zeroed (pure [])
  | .sizeof m _ => asked o m .sizeof (pure [])
  | .deref m e => asked o m .deref do return [← (sense o e).value]
  | .member m e x => asked o m (.member x) do return [← (sense o e).value]
  | .index m e i => asked o m .index do
    let a ← (sense o e).value
    return [a, ← (sense o i).value]
  | .call m f args => asked o m (form (.call m f args)) (valuesBack o args)
  | .builtin m b args => asked o m (.service b) (values o args)
  | .structLit m fields => asked o m (.struct (fields.map (·.1))) (fieldValues o fields)
  | .arrayLit m es => asked o m .array (values o es)

/-- The values of expressions, in order. -/
def values (o : Oracle) : List Expr → Run (List Int)
  | [] => return []
  | e :: es => do
    let v ← (sense o e).value
    return v :: (← values o es)

/-- The values of expressions, of which the last is worked out first. -/
def valuesBack (o : Oracle) : List Expr → Run (List Int)
  | [] => return []
  | e :: es => do
    let vs ← valuesBack o es
    return (← (sense o e).value) :: vs

/-- The values of named expressions, in order. -/
def fieldValues (o : Oracle) : List (String × Expr) → Run (List Int)
  | [] => return []
  | (_, e) :: fields => do
    let v ← (sense o e).value
    return v :: (← fieldValues o fields)

end

/-- Works out the value of an expression. -/
def eval (o : Oracle) (e : Expr) : Run Int :=
  (sense o e).value

/-- The value of an expression that may be missing. -/
def evalOption (o : Oracle) : Option Expr → Run (Option Int)
  | none => return none
  | some e => return some (← eval o e)

/-! ## Statements -/

/-- How a statement ends. -/
inductive Flow where
  | next
  | brk
  | cont
  | ret (value : Option Int)
deriving DecidableEq

/-- Goes on only if a statement ends in the ordinary way. -/
def Flow.andThen (flow : Flow) (rest : Run Flow) : Run Flow :=
  match flow with
  | .next => rest
  | flow => return flow

/-- Runs something in a scope of its own. -/
def inScope {α : Type} (o : Oracle) (x : Run α) : Run α := do
  let _ ← ask o .enter []
  let a ← x
  let _ ← ask o .leave []
  return a

/-- At most `n` rounds of a loop. -/
def rounds (test : Run Int) (body post : Run Flow) : Nat → Run Flow
  | 0 => do
    if (← test) = 0 then return .next else throw .exhausted
  | n + 1 => do
    if (← test) = 0 then return .next
    else
      match ← body with
      | .brk => return .next
      | .ret v => return .ret v
      | _ =>
        match ← post with
        | .brk => return .next
        | .ret v => return .ret v
        | _ => rounds test body post n

/-- Declares the counter of a loop. -/
def count (o : Oracle) : Option (String × Expr) → Run Unit
  | none => return ()
  | some (x, e) => do
    let v ← eval o e
    let _ ← ask o (.declare x e.ty) [v]

mutual

/-- Runs a statement, each loop for at most `n` rounds at a time. -/
def exec (o : Oracle) (n : Nat) : Stmt → Run Flow
  | .block _ body => inScope o (execAll o n body)
  | .expr _ e => do
    let _ ← eval o e
    return .next
  | .assign _ l r => do
    let v ← eval o r
    let vs ← (sense o l).operands
    let _ ← ask o (.store (form l) l.ty) (v :: vs)
    return .next
  | .var _ d => do
    let v ← evalOption o d.init
    let _ ← ask o (.declare d.name d.resolved) v.toList
    return .next
  | .cond _ test yes no => do
    if (← eval o test) = 0 then inScope o (execOption o n no) else inScope o (exec o n yes)
  | .loop _ init test post body => inScope o do
    count o init
    rounds (eval o test) (inScope o (exec o n body)) (inScope o (execOption o n post)) n
  | .ret _ e => return .ret (← evalOption o e)
  | .brk _ => return .brk
  | .cont _ => return .cont

/-- Runs a statement that may be missing. -/
def execOption (o : Oracle) (n : Nat) : Option Stmt → Run Flow
  | none => return .next
  | some s => exec o n s

/-- Runs statements one after another. -/
def execAll (o : Oracle) (n : Nat) : List Stmt → Run Flow
  | [] => return .next
  | s :: rest => do
    let flow ← exec o n s
    flow.andThen (execAll o n rest)

end

end Sigil.Meaning
