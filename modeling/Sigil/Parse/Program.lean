import Sigil.Parse.Expression

/-!
# Statements and programs

    program   = { def }
    def       = "const" name ( ":" type ( "=" | ":=" ) expr ";" | ":=" value )
    value     = "fn" "(" params ")" [ type ] block [ ";" ] | "struct" "{" fields "}" [ ";" ]
              | "enum" "{" names "}" [ ";" ] | expr ";"
    block     = "{" { statement } "}"
    statement = block | "have" name ":" type [ "=" expr ] ";"
              | "const" name ( ":" type ( "=" | ":=" ) | ":=" ) expr ";"
              | "if" "(" expr ")" statement [ "else" statement ]
              | "loop" "(" [ name "=" expr ";" ] expr ")" [ ":" "(" simple ")" ] statement
              | "return" [ expr ] ";" | "break" ";" | "continue" ";" | simple ";"
    simple    = expr [ ( "=" | "+=" | "-=" | "*=" | "/=" | "%=" ) expr | "++" | "--" ]

Statements nest like expressions do: `statement` ties the knot to a depth. A definition that does not
follow the grammar is reported, the token at which reading stopped is dropped, and reading goes on at
the next `const` that starts a line.
-/

namespace Sigil.Parser

/-! ## Statements -/

/-- An assignment operator: the operator that it applies first, if any. -/
def assignOp? : Symbol → Option (Option BinOp)
  | .equal => some none
  | .plusEqual | .plusPlus => some (some .add)
  | .minusEqual | .minusMinus => some (some .sub)
  | .starEqual => some (some .mul)
  | .slashEqual => some (some .div)
  | .percentEqual => some (some .rem)
  | _ => none

/-- Whether an expression can stand on the left of an assignment. -/
def isTarget : Expr → Bool
  | .ident .. | .member .. | .index .. | .deref .. => true
  | _ => false

/-- An expression or an assignment. A compound assignment stands for the assignment of the operation
to its own target, and an increment for one by one. -/
def simple : Parser Stmt := do
  let pos ← here
  let left ← expr
  match ← peek with
  | some ⟨.symbol s, opPos⟩ =>
    match assignOp? s with
    | none => return .expr pos left
    | some op =>
      let _ ← next
      if !isTarget left then failAt left.pos .invalidTarget
      let m := unchecked opPos
      let right ← if s = .plusPlus ∨ s = .minusMinus then pure (.intLit m 1) else expr
      match op with
      | none => return .assign pos left right
      | some op => return .assign pos left (.binary m op left right)
  | _ => return .expr pos left

/-- The sign after which the value of a definition with a type stands. -/
def assignSign : Parser Token :=
  expect (fun t => isSymbol .equal t || isSymbol .colonEqual t) "`=`"

/-- A block of statements. -/
def blockRule (stmt : Parser Stmt) : Parser (List Stmt) := do
  let _ ← expectSymbol .leftBrace
  let body ← manyUntil .rightBrace stmt
  let _ ← expectSymbol .rightBrace
  return body

/-- What follows `have`. -/
def haveRule (pos : Position) : Parser Stmt := do
  let x ← name
  let _ ← expectSymbol .colon
  let type ← typeExpr
  let init ← if ← takeSymbol .equal then pure (some (← expr)) else pure none
  let _ ← expectSymbol .semicolon
  return .var pos ⟨x, some type, init, true, none⟩

/-- What follows `const` inside a function. -/
def constRule (pos : Position) : Parser Stmt := do
  let x ← name
  let type ← do
    if ← takeSymbol .colon then
      let type ← typeExpr
      let _ ← assignSign
      pure (some type)
    else
      let _ ← expectSymbol .colonEqual
      pure none
  let init ← expr
  let _ ← expectSymbol .semicolon
  return .var pos ⟨x, type, some init, false, none⟩

/-- What follows `if`. -/
def ifRule (stmt : Parser Stmt) (pos : Position) : Parser Stmt := do
  let _ ← expectSymbol .leftParen
  let test ← expr
  let _ ← expectSymbol .rightParen
  let yes ← stmt
  let no ← if ← takeKeyword .else_ then pure (some (← stmt)) else pure none
  return .cond pos test yes no

/-- The head of a loop: the counter and its first value, if there is a counter, and the condition. -/
def loopHead : Parser (Option (String × Expr) × Expr) := do
  let first ← expr
  if ← takeSymbol .equal then
    match first with
    | .ident _ x =>
      let value ← expr
      let _ ← expectSymbol .semicolon
      return (some (x, value), ← expr)
    | first => failAt first.pos .invalidTarget
  else
    return (none, first)

/-- What follows `loop`. -/
def loopRule (stmt : Parser Stmt) (pos : Position) : Parser Stmt := do
  let _ ← expectSymbol .leftParen
  let (init, test) ← loopHead
  let _ ← expectSymbol .rightParen
  let post ← do
    if ← takeSymbol .colon then
      let _ ← expectSymbol .leftParen
      let post ← simple
      let _ ← expectSymbol .rightParen
      pure (some post)
    else
      pure none
  return .loop pos init test post (← stmt)

/-- What follows `return`. -/
def returnRule (pos : Position) : Parser Stmt := do
  let value ← if ← check (isSymbol .semicolon) then pure none else pure (some (← expr))
  let _ ← expectSymbol .semicolon
  return .ret pos value

/-- A statement, over a parser for the statements nested in it. -/
def statementRule (stmt : Parser Stmt) : Parser Stmt := do
  let pos ← here
  match ← peek with
  | none => failAt pos (.unexpectedEnd "statement")
  | some t =>
    match t.kind with
    | .symbol .leftBrace => return .block pos (← blockRule stmt)
    | .keyword .have_ =>
      let _ ← next
      haveRule pos
    | .keyword .const =>
      let _ ← next
      constRule pos
    | .keyword .if_ =>
      let _ ← next
      ifRule stmt pos
    | .keyword .loop =>
      let _ ← next
      loopRule stmt pos
    | .keyword .return_ =>
      let _ ← next
      returnRule pos
    | .keyword .break_ =>
      let _ ← next
      let _ ← expectSymbol .semicolon
      return .brk pos
    | .keyword .continue_ =>
      let _ ← next
      let _ ← expectSymbol .semicolon
      return .cont pos
    | _ =>
      let s ← simple
      let _ ← expectSymbol .semicolon
      return s

/-- A parser for statements nested at most so deep. -/
def statementOfDepth : Nat → Parser Stmt
  | 0 => failAtEnd "statement"
  | n + 1 => fun c => statementRule (statementOfDepth n) c

/-- Reads a statement. -/
def statement : Parser Stmt := do
  statementRule (statementOfDepth (← remaining))

/-- Reads a block. -/
def block : Parser (List Stmt) := do
  blockRule (statementOfDepth (← remaining))

/-! ## Definitions -/

/-- A parameter or a struct field. -/
def typedName : Parser (String × TypeExpr) := do
  let x ← name
  let _ ← expectSymbol .colon
  return (x, ← typeExpr)

/-- What follows `fn`. A function that gives no type returns nothing. -/
def funcRule : Parser DefBody := do
  let _ ← expectSymbol .leftParen
  let params ← commaList .rightParen typedName
  let _ ← expectSymbol .rightParen
  let ret ← if ← check (isSymbol .leftBrace) then pure TypeExpr.void else typeExpr
  let body ← block
  let _ ← takeSymbol .semicolon
  return .func ⟨params, ret, body⟩

/-- Items in braces. -/
def braced {α : Type} (item : Parser α) : Parser (List α) := do
  let _ ← expectSymbol .leftBrace
  let items ← commaList .rightBrace item
  let _ ← expectSymbol .rightBrace
  let _ ← takeSymbol .semicolon
  return items

/-- What follows `:=` in a definition. -/
def valueRule : Parser DefBody := do
  if ← takeKeyword .fn then
    funcRule
  else if ← takeKeyword .struct then
    return .struct (← braced typedName)
  else if ← takeKeyword .enum then
    return .enum (← braced name)
  else
    let value ← expr
    let _ ← expectSymbol .semicolon
    return .const none value

/-- Reads a definition. -/
def definition : Parser Def := do
  let _ ← expect (isKeyword .const) "`const`"
  let pos ← here
  let x ← name
  if ← takeSymbol .colon then
    let type ← typeExpr
    let _ ← assignSign
    let value ← expr
    let _ ← expectSymbol .semicolon
    return ⟨x, pos, .const (some type) value⟩
  else
    let _ ← expectSymbol .colonEqual
    return ⟨x, pos, ← valueRule⟩

/-- Whether a token starts a definition: a `const` at the start of a line. -/
def startsDefinition (t : Token) : Bool :=
  isKeyword .const t && t.pos.col == 0

/-- Drops the next token and goes on to the next definition. -/
def recover : Parser Unit := do
  let _ ← next
  skipUntil startsDefinition

/-! ## Programs -/

/-- The definitions of a program and the errors in those that could not be read. -/
abbrev Result := Program × List (Located ParseError)

/-- Reads definitions, at most the given number of them. -/
def definitions : Nat → Cursor → Result
  | 0, _ => ([], [])
  | n + 1, c =>
    match c.skip.tokens with
    | [] => ([], [])
    | _ :: _ =>
      match definition c.skip with
      | (.ok d, c') =>
        let (ds, es) := definitions n c'
        (d :: ds, es)
      | (.error e, c') =>
        let (ds, es) := definitions n (recover c').2
        (ds, e :: es)

/-- Reads the rest of a program. -/
def programFrom (c : Cursor) : Result :=
  definitions c.tokens.length c

/-- Reads a program. -/
def program (tokens : List Token) : Result :=
  programFrom (.start tokens)

end Sigil.Parser
