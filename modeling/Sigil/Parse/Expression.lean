import Sigil.Parse.Cursor
import Sigil.Tree

/-!
# Expressions and types

The grammar of expressions, by levels of precedence, and of written types:

    expr     = and { "||" and }
    and      = compare { "&&" compare }
    compare  = sum { ( "==" | "!=" | "<" | "<=" | ">" | ">=" ) sum }
    sum      = product { ( "+" | "-" ) product }
    product  = operand { ( "*" | "/" | "%" ) operand }
    operand  = ( "-" | "!" | "&" ) operand | primary { suffix }
    suffix   = "(" [ expr { "," expr } [ "," ] ] ")" | "[" expr "]" | "." name | "&"
    primary  = number | character | string | "true" | "false" | "nil" | name | "(" expr ")"
             | "{" [ name ":" expr { "," name ":" expr } [ "," ] ] "}"
             | "[" [ expr { "," expr } [ "," ] ] "]"
             | "@cast" "<" type ">" "(" expr ")" | "@sizeof" "(" type ")"
             | "@" name "(" [ expr { "," expr } [ "," ] ] ")"
    type     = ( "int" | "short" ) [ "!" | "?" ] | "char" | "bool" | "str" | "void" | name
             | "*" type | "[" expr "]" type

A rule is written over parsers for what is nested in it (`Nested`), and `Nested.ofDepth` ties the knot
to a given depth. Everything nested stands behind at least one token, so the number of tokens is depth
enough; at depth zero no token is left, and the parsers say so.
-/

namespace Sigil.Parser

/-- Parsers for what stands inside an expression or a type. -/
structure Nested where
  expr : Parser Expr
  operand : Parser Expr
  type : Parser TypeExpr

/-- A node that has not been checked. -/
def unchecked (pos : Position) : Mark := ⟨pos, none⟩

/-! ## Types -/

/-- Whether a type can start with the token. -/
def startsType (t : Token) : Bool :=
  match t.kind with
  | .keyword k => [.int, .short, .char, .bool, .str, .void].contains k
  | .ident _ | .symbol .star | .symbol .leftBracket => true
  | _ => false

/-- The mark of a sign, if there is one. -/
def signMark : Parser (Option Bool) := do
  if ← takeSymbol .bang then return some false
  if ← takeSymbol .question then return some true
  return none

/-- A type. -/
def typeRule (g : Nested) : Parser TypeExpr := do
  let t ← expect startsType "type"
  match t.kind with
  | .keyword .int => return .int 64 (← signMark)
  | .keyword .short => return .int 16 (← signMark)
  | .keyword .char => return .char
  | .keyword .bool => return .bool
  | .keyword .str => return .str
  | .keyword .void => return .void
  | .ident x => return .named x
  | .symbol .star => return .ptr (← g.type)
  | _ =>
    let length ← g.expr
    let _ ← expectSymbol .rightBracket
    return .array length (← g.type)

/-! ## Primary expressions -/

/-- Whether a primary expression can start with the token. -/
def startsPrimary (t : Token) : Bool :=
  match t.kind with
  | .number _ _ | .char _ | .text _ | .ident _ | .builtin _ => true
  | .keyword .true_ | .keyword .false_ | .keyword .nil => true
  | .symbol .leftParen | .symbol .leftBrace | .symbol .leftBracket => true
  | _ => false

/-- A field of a struct literal. -/
def fieldRule (g : Nested) : Parser (String × Expr) := do
  let x ← name
  let _ ← expectSymbol .colon
  return (x, ← g.expr)

/-- Arguments in parentheses, the first of which has been read. -/
def argsRule (g : Nested) : Parser (List Expr) := do
  let args ← commaList .rightParen g.expr
  let _ ← expectSymbol .rightParen
  return args

/-- What follows the name of a builtin. -/
def builtinRule (g : Nested) (m : Mark) (x : String) : Parser Expr := do
  if x == "cast" then
    let _ ← expectSymbol .less
    let target ← g.type
    let _ ← expectSymbol .greater
    let _ ← expectSymbol .leftParen
    let arg ← g.expr
    let _ ← expectSymbol .rightParen
    return .cast m target arg
  else if x == "sizeof" then
    let _ ← expectSymbol .leftParen
    let of ← g.type
    let _ ← expectSymbol .rightParen
    return .sizeof m of
  else
    match Builtin.ofName? x with
    | none => failAt m.pos (.unknownBuiltin x)
    | some b =>
      let _ ← expectSymbol .leftParen
      return .builtin m b (← argsRule g)

/-- A primary expression, the first token of which has been read. Parentheses leave no trace in the
tree. -/
def primaryTail (g : Nested) (m : Mark) : TokenKind → Parser Expr
  | .number _ value => return .intLit m value
  | .char c => return .charLit m c
  | .text s => return .strLit m s
  | .keyword .true_ => return .boolLit m true
  | .keyword .false_ => return .boolLit m false
  | .keyword .nil => return .nil m
  | .ident x => return .ident m x
  | .builtin x => builtinRule g m x
  | .symbol .leftParen => do
    let e ← g.expr
    let _ ← expectSymbol .rightParen
    return e
  | .symbol .leftBrace => do
    let fields ← commaList .rightBrace (fieldRule g)
    let _ ← expectSymbol .rightBrace
    return .structLit m fields
  | _ => do
    let elems ← commaList .rightBracket g.expr
    let _ ← expectSymbol .rightBracket
    return .arrayLit m elems

/-- A primary expression. -/
def primaryRule (g : Nested) : Parser Expr := do
  let m := unchecked (← here)
  let t ← expect startsPrimary "expression"
  primaryTail g m t.kind

/-! ## Operators -/

/-- The suffixes of an expression, at most the given number of them. -/
def suffixes (g : Nested) : Nat → Expr → Parser Expr
  | 0, e => return e
  | n + 1, e => do
    let m := unchecked (← here)
    if ← takeSymbol .leftParen then
      suffixes g n (.call m e (← argsRule g))
    else if ← takeSymbol .leftBracket then
      let i ← g.expr
      let _ ← expectSymbol .rightBracket
      suffixes g n (.index m e i)
    else if ← takeSymbol .period then
      suffixes g n (.member m e (← name))
    else if ← takeSymbol .ampersand then
      suffixes g n (.deref m e)
    else
      return e

/-- An operand: prefix operators, a primary expression and its suffixes. -/
def operandRule (g : Nested) : Parser Expr := do
  let m := unchecked (← here)
  if ← takeSymbol .minus then return .unary m .neg (← g.operand)
  if ← takeSymbol .bang then return .unary m .not (← g.operand)
  if ← takeSymbol .ampersand then return .addrOf m (← g.operand)
  let e ← primaryRule g
  suffixes g (← remaining) e

/-- Operands of one level of precedence, grouped from the left. The place of the result is that of its
operator. -/
def chain (op? : Symbol → Option BinOp) (operand : Parser Expr) : Parser Expr := do
  let first ← operand
  go (← remaining) first
where
  /-- At most the given number of further operands. -/
  go : Nat → Expr → Parser Expr
    | 0, left => return left
    | n + 1, left => do
      match ← peek with
      | some ⟨.symbol s, pos⟩ =>
        match op? s with
        | some op =>
          let _ ← next
          let right ← operand
          go n (.binary (unchecked pos) op left right)
        | none => return left
      | _ => return left

/-- The operators of a product. -/
def productOp? : Symbol → Option BinOp
  | .star => some .mul
  | .slash => some .div
  | .percent => some .rem
  | _ => none

/-- The operators of a sum. -/
def sumOp? : Symbol → Option BinOp
  | .plus => some .add
  | .minus => some .sub
  | _ => none

/-- The operators of a comparison. -/
def compareOp? : Symbol → Option BinOp
  | .equalEqual => some .eq
  | .notEqual => some .ne
  | .less => some .lt
  | .lessEqual => some .le
  | .greater => some .gt
  | .greaterEqual => some .ge
  | _ => none

/-- The operator of a conjunction. -/
def andOp? : Symbol → Option BinOp
  | .andAnd => some .and
  | _ => none

/-- The operator of a disjunction. -/
def orOp? : Symbol → Option BinOp
  | .orOr => some .or
  | _ => none

/-- A product. -/
def productRule (g : Nested) : Parser Expr := chain productOp? (operandRule g)

/-- A sum. -/
def sumRule (g : Nested) : Parser Expr := chain sumOp? (productRule g)

/-- A comparison. -/
def compareRule (g : Nested) : Parser Expr := chain compareOp? (sumRule g)

/-- A conjunction. -/
def andRule (g : Nested) : Parser Expr := chain andOp? (compareRule g)

/-- An expression. -/
def exprRule (g : Nested) : Parser Expr := chain orOp? (andRule g)

/-! ## The knot -/

/-- Fails because no token is left. -/
def failAtEnd {α : Type} (expected : String) : Parser α := do
  failAt (← get).last (.unexpectedEnd expected)

/-- Parsers for what is nested at most so deep. -/
def Nested.ofDepth : Nat → Nested
  | 0 => ⟨failAtEnd "expression", failAtEnd "expression", failAtEnd "type"⟩
  | n + 1 =>
    ⟨fun c => exprRule (ofDepth n) c, fun c => operandRule (ofDepth n) c,
      fun c => typeRule (ofDepth n) c⟩

/-- Reads an expression. -/
def expr : Parser Expr := do
  exprRule (.ofDepth (← remaining))

/-- Reads a type. -/
def typeExpr : Parser TypeExpr := do
  typeRule (.ofDepth (← remaining))

end Sigil.Parser
