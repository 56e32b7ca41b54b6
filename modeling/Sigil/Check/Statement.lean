import Sigil.Check.Expression

/-!
# Checking statements

A faulty statement is reported and checking goes on behind it, with whatever had been declared before
the fault. Scopes close and loops end whether or not there was a fault.
-/

namespace Sigil.Check

/-! ## Scopes, branches and loops -/

/-- A check of statements, which reports its errors in the state and goes on. -/
abbrev Survey := StateM Scope

variable {τ α : Type}

/-- A survey as a check that does not fail. -/
def surveyed (x : Survey α) : Checker τ α := fun s =>
  let (a, s') := x s
  (.ok a, s')

/-- Runs a check, and reports its failure. -/
def settle (x : Checker τ τ) : Survey τ := fun s =>
  match x s with
  | (.ok t, s') => (t, s')
  | (.error spoiled, s') => (spoiled.tree, { s' with errors := s'.errors ++ [spoiled.error] })

/-- Runs a survey in a scope of its own. -/
def enclosed (x : Survey α) : Survey α := fun s =>
  let (a, s') := x { s with frame := s.frame.enter }
  (a, { s' with frame := s'.frame.leave })

/-- Runs a check in a scope of its own, which closes also on a failure. -/
def inScope (x : Checker τ α) : Checker τ α := fun s =>
  let (r, s') := x { s with frame := s.frame.enter }
  (r, { s' with frame := s'.frame.leave })

/-- Runs a survey of what may or may not run: what it frees is not certainly freed. -/
def branch (x : Survey α) : Survey α := fun s =>
  let (a, s') := x s
  (a, s.rejoin s')

/-- Runs a survey inside one more loop. -/
def inLoop (x : Survey α) : Survey α := fun s =>
  let (a, s') := x { s with loops := s.loops + 1 }
  (a, { s' with loops := s'.loops - 1 })

/-- Runs the check of a statement that depends on a condition. One that is no block has a scope of its
own nevertheless. -/
def nest (s : Stmt) (check : Checker Stmt Stmt) : Survey Stmt :=
  match s with
  | .block _ _ => branch (settle check)
  | _ => branch (enclosed (settle check))

/-! ## Single statements -/

/-- A condition: a truth value or an integer. -/
def condition (c : Context) (e : Expr) : Checker Expr Expr := do
  let (e, t) ← expr c e (some .bool)
  if t.isCondition then return e else reject e e.pos (mismatch .bool t)

/-- The initial value of an integer that is declared at `decl` without a sign, and its type: the sign
is that of the value. The flag tells that the sign is unsigned only by default. -/
def inferInt (c : Context) (p : Part) (bits : Nat) (decl : Position) :
    Checker Expr (Expr × Ty × Bool) := do
  if ← p.isOpen c then
    let negative := ((← c.intValue? p.tree).map (decide <| · < 0)).getD false
    let signed := negative || c.signed.contains decl
    let e ← coerce c p (.int bits signed)
    return (e, .int bits signed, !signed)
  else
    let (e, t) ← p.check none
    match t with
    | .int b _ =>
      if b = bits then return (e, t, false)
      else reject e e.pos (mismatch (.int bits false) t)
    | _ => reject e e.pos (mismatch (.int bits false) t)

/-- An expression that is run for its effect. Afterwards a local that was given to `@free` is freed. -/
def exprStmt (c : Context) (pos : Position) (e : Expr) : Checker Stmt Stmt := do
  let (e, _) ← within (.expr pos ·) (expr c e none)
  match e with
  | .builtin _ .free (p :: _) =>
    modify fun s =>
      match s.offset? p with
      | some offset => { s with freed := offset :: s.freed }
      | none => s
  | _ => pure ()
  return .expr pos e

/-- Whether a written type is an integer type whose sign is open. -/
def isUnsigiled : Option TypeExpr → Bool
  | some (.int _ none) => true
  | _ => false

/-- The initial value and the type of a declaration; the flag tells that its sign is unsigned only by
default. -/
def initialise (c : Context) (pos : Position) (d : VarDecl) (declared : Option Ty) :
    Checker VarDecl (Option Expr × Ty × Bool) :=
  match d.init, declared with
  | none, some t => return (none, t, false)
  | none, none => reject d pos (.cannotInfer d.name)
  | some e, none => do
    let (e, t) ← within (fun e => { d with init := some e }) (expr c e none)
    return (some e, t, false)
  | some e, some t =>
    match t, isUnsigiled d.type with
    | .int bits _, true => do
      let (e, t, byDefault) ←
        within (fun e => { d with init := some e }) (inferInt c (part c e) bits pos)
      return (some e, t, byDefault)
    | _, _ => do
      let e ← within (fun e => { d with init := some e }) (coerce c (part c e) t)
      return (some e, t, false)

/-- Takes a slot for a declared name. -/
def declare (x : String) (t : Ty) (size : Nat) (mutable byDefault : Bool) (pos : Position) :
    Checker τ Unit :=
  modify fun s =>
    let (offset, frame) := s.frame.push x t size mutable
    let s := { s with frame }
    if byDefault then s.await offset pos else s

/-- The declaration of a local. The value of one that cannot change is kept if it is known. -/
def varDecl (c : Context) (pos : Position) (d : VarDecl) : Checker VarDecl VarDecl := do
  let declared ←
    match d.type with
    | some type => some <$> c.demand d pos (·.resolve type)
    | none => pure none
  let (init, t, byDefault) ← initialise c pos d declared
  let d := { d with init }
  if t = .void then reject d pos (.cannotInfer d.name)
  let size ← c.demand d pos (·.sizeOf t)
  declare d.name t size d.mutable byDefault pos
  match d.mutable, init with
  | false, some e =>
    match ← c.value? e with
    | some v => modify fun s => { s with frame := s.frame.setValue d.name v }
    | none => pure ()
  | _, _ => pure ()
  return { d with resolved := some t }

/-- The target of an assignment: a place that may change. -/
def target (c : Context) (e : Expr) : Checker Expr (Expr × Ty) := do
  match e with
  | .ident m x =>
    match (← get).frame.get? x with
    | some slot =>
      if slot.mutable then accept e slot.ty
      else reject e m.pos (.immutable x)
    | none =>
      if (c.symbols.kind x).isSome then reject e m.pos (.immutable x)
      else reject e m.pos (.unknownIdentifier x)
  | e =>
    let (e, t) ← expr c e none
    match e.root with
    | .ident _ x =>
      match (← get).frame.get? x with
      | some slot => unless slot.mutable do reject e e.pos (.immutable x)
      | none => pure ()
    | _ => pure ()
    if e.isPlace then return (e, t) else reject e e.pos .notAddressable

/-- An assignment. Afterwards a local that was assigned is not freed. -/
def assignStmt (c : Context) (pos : Position) (l r : Expr) : Checker Stmt Stmt := do
  let (l, t) ← within (.assign pos · r) (target c l)
  let value := tryCatch (coerce c (part c r) t) fun spoiled => do
    match spoiled.tree.ty with
    | some rt => modify (·.learn l rt)
    | none => pure ()
    throw spoiled
  let r ← within (.assign pos l ·) value
  modify fun s =>
    match s.offset? l with
    | some offset => { s with freed := s.freed.filter (· ≠ offset) }
    | none => s
  return .assign pos l r

/-- The end of a function. An integer result is converted to the type that the function returns. -/
def retStmt (c : Context) (pos : Position) : Option Expr → Checker Stmt Stmt
  | none =>
    if c.ret = .void then return .ret pos none
    else reject (.ret pos none) pos (.missingReturnValue c.ret.text)
  | some e => do
    let e ← within (fun e => .ret pos (some e)) <|
      if c.ret = .void ∨ c.ret.isInt then do
        let (e, t) ← expr c e none
        if c.ret.isInt && t.isInt then return e else reject e e.pos (mismatch c.ret t)
      else coerce c (part c e) c.ret
    return .ret pos (some e)

/-- The counter of a loop. -/
def counter (c : Context) (pos : Position) :
    Option (String × Expr) → Checker (Option (String × Expr)) (Option (String × Expr))
  | none => return none
  | some (x, e) => do
    let (e, t, byDefault) ← within (fun e => some (x, e)) (inferInt c (part c e) 64 pos)
    declare x t 8 true byDefault pos
    return some (x, e)

/-- `break` and `continue` need a loop around them. -/
def jumpStmt (s : Stmt) (what : String) : Checker Stmt Stmt := do
  if (← get).loops = 0 then reject s s.pos (.outsideLoop what) else return s

/-! ## All statements -/

mutual

/-- Checks a statement. -/
def stmt (c : Context) : Stmt → Checker Stmt Stmt
  | .block pos body => surveyed (enclosed (.block pos <$> stmts c body))
  | .expr pos e => exprStmt c pos e
  | .assign pos l r => assignStmt c pos l r
  | .var pos d => within (.var pos ·) (.var pos <$> varDecl c pos d)
  | .cond pos test yes no => do
    let test ← within (.cond pos · yes no) (condition c test)
    surveyed do
      let yes ← nest yes (stmt c yes)
      let no ← optional c no
      return .cond pos test yes no
  | .loop pos init test post body => inScope do
    let init ← within (.loop pos · test post body) (counter c pos init)
    let test ← within (.loop pos init · post body) (condition c test)
    surveyed <| inLoop do
      let body ← nest body (stmt c body)
      let post ← optional c post
      return .loop pos init test post body
  | .ret pos e => retStmt c pos e
  | .brk pos => jumpStmt (.brk pos) "break"
  | .cont pos => jumpStmt (.cont pos) "continue"

/-- Checks a statement that depends on a condition and may be missing. -/
def optional (c : Context) : Option Stmt → Survey (Option Stmt)
  | none => return none
  | some s => some <$> nest s (stmt c s)

/-- Checks statements one after another. -/
def stmts (c : Context) : List Stmt → Survey (List Stmt)
  | [] => return []
  | s :: rest => do
    let s ← settle (stmt c s)
    return s :: (← stmts c rest)

end

/-! ## Declarations without a sign -/

mutual

/-- The places of the declarations in a statement whose sign is open. -/
def unsigiled : Stmt → List Position
  | .block _ body => unsigiledAll body
  | .var pos d => if isUnsigiled d.type && d.init.isSome then [pos] else []
  | .cond _ _ yes no => unsigiled yes ++ unsigiledOption no
  | .loop pos init _ post body =>
    (if init.isSome then [pos] else []) ++ unsigiled body ++ unsigiledOption post
  | _ => []

/-- The places in a statement that may be missing. -/
def unsigiledOption : Option Stmt → List Position
  | none => []
  | some s => unsigiled s

/-- The places in some statements. -/
def unsigiledAll : List Stmt → List Position
  | [] => []
  | s :: rest => unsigiled s ++ unsigiledAll rest

end

end Sigil.Check
