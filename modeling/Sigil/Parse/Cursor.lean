import Sigil.Attempt
import Sigil.Token

/-!
# The token cursor

A cursor holds the tokens that are still unread and the place of the last one read. Comments and
lexical errors are passed over wherever the next token is looked at; only `skipUntil` sees them.
-/

namespace Sigil

/-- Why a token list does not follow the grammar. -/
inductive ParseError where
  | unexpectedToken (expected found : String)
  | unexpectedEnd (expected : String)
  | invalidTarget
  | unknownBuiltin (name : String)
deriving DecidableEq, Repr

/-- The wording of a grammatical error. -/
def ParseError.message : ParseError → String
  | unexpectedToken expected found => "expected " ++ expected ++ ", found " ++ found
  | unexpectedEnd expected => "unexpected end of file, expected " ++ expected
  | invalidTarget => "invalid assignment target"
  | unknownBuiltin name => "unknown builtin `@" ++ name ++ "`"

/-- The unread tokens and the place of the last token read. -/
structure Cursor where
  tokens : List Token
  last : Position
deriving DecidableEq, Repr

/-- An attempt to read something from a cursor. -/
abbrev Parser := Attempt Cursor (Located ParseError)

namespace Cursor

/-- The cursor before the first token. -/
def start (tokens : List Token) : Cursor :=
  ⟨tokens, .origin⟩

/-- Passes over comments and lexical errors. -/
def skip (c : Cursor) : Cursor :=
  { c with tokens := c.tokens.dropWhile (·.kind.isSkipped) }

end Cursor

namespace Parser

/-- Fails at a place. -/
def failAt {α : Type} (pos : Position) (e : ParseError) : Parser α :=
  throw ⟨pos, e⟩

/-- The number of unread tokens. -/
def remaining : Parser Nat :=
  fun c => (.ok c.tokens.length, c)

/-- The next token, which stays unread. -/
def peek : Parser (Option Token) :=
  fun c => (.ok c.skip.tokens.head?, c.skip)

/-- Reads the next token if it satisfies the condition. -/
def takeIf (cond : Token → Bool) : Parser (Option Token) := fun c =>
  match c.skip.tokens with
  | t :: rest => if cond t then (.ok (some t), ⟨rest, t.pos⟩) else (.ok none, c.skip)
  | [] => (.ok none, c.skip)

/-- Reads the next token. -/
def next : Parser (Option Token) :=
  takeIf fun _ => true

/-- The place of the next token, or of the last one read if there is none. -/
def here : Parser Position := do
  match ← peek with
  | some t => return t.pos
  | none => return (← get).last

/-- Whether the next token satisfies the condition. -/
def check (cond : Token → Bool) : Parser Bool := do
  match ← peek with
  | some t => return cond t
  | none => return false

/-- Drops tokens of every kind up to the first that satisfies the condition. The place of the last
token read stays as it is. -/
def skipUntil (cond : Token → Bool) : Parser Unit :=
  modify fun c => { c with tokens := c.tokens.dropWhile fun t => !cond t }

/-- Reads the next token, which must satisfy the condition. -/
def expect (cond : Token → Bool) (expected : String) : Parser Token := do
  match ← takeIf cond with
  | some t => return t
  | none =>
    match ← peek with
    | some t => failAt t.pos (.unexpectedToken expected t.kind.describe)
    | none => failAt (← get).last (.unexpectedEnd expected)

/-- Whether a token is the given symbol. -/
def isSymbol (s : Symbol) (t : Token) : Bool :=
  t.kind == .symbol s

/-- Whether a token is the given keyword. -/
def isKeyword (k : Keyword) (t : Token) : Bool :=
  t.kind == .keyword k

/-- Reads the given symbol if it comes next. -/
def takeSymbol (s : Symbol) : Parser Bool := do
  return (← takeIf (isSymbol s)).isSome

/-- Reads the given keyword if it comes next. -/
def takeKeyword (k : Keyword) : Parser Bool := do
  return (← takeIf (isKeyword k)).isSome

/-- Reads the given symbol, which must come next. -/
def expectSymbol (s : Symbol) : Parser Token :=
  expect (isSymbol s) ("`" ++ s.text ++ "`")

/-- Reads a name, which must come next. -/
def name : Parser String := do
  let t ← expect (fun t => match t.kind with | .ident _ => true | _ => false) "identifier"
  match t.kind with
  | .ident x => return x
  | _ => return ""

/-! ## Repetition

A repetition runs at most once per unread token: every element and every separator is at least one
token. The bounds below are therefore never what ends it. -/

/-- Elements up to a closing symbol, which stays unread, or the end of the tokens. -/
def manyUntil {α : Type} (close : Symbol) (elem : Parser α) : Parser (List α) := do
  go (← remaining)
where
  /-- At most the given number of elements. -/
  go : Nat → Parser (List α)
    | 0 => return []
    | n + 1 => do
      if ← check (isSymbol close) then return []
      if (← peek).isNone then return []
      let x ← elem
      return x :: (← go n)

/-- Elements with commas between them, and perhaps after the last, up to a closing symbol, which stays
unread. -/
def commaList {α : Type} (close : Symbol) (elem : Parser α) : Parser (List α) := do
  go (← remaining)
where
  /-- At most one element more than the given number. -/
  go : Nat → Parser (List α)
    | 0 => do
      if ← check (isSymbol close) then return []
      return [← elem]
    | n + 1 => do
      if ← check (isSymbol close) then return []
      let x ← elem
      if ← takeSymbol .comma then
        return x :: (← go n)
      return [x]

end Parser

end Sigil
