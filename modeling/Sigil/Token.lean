import Sigil.Source

/-!
# Tokens

The tokens of a source text: symbols, keywords, names, literals and comments. A piece of text that is
no token becomes an error token, so that the rest of its line can still be read.
-/

namespace Sigil

/-- A 64-bit machine word. -/
abbrev Word := BitVec 64

/-- The greatest number in a word. -/
def maxWord : Nat := 0xffffffffffffffff

/-- Operators and punctuation. -/
inductive Symbol where
  | equalEqual | notEqual | greaterEqual | lessEqual | colonEqual | andAnd | orOr
  | plusPlus | minusMinus | plusEqual | minusEqual | starEqual | slashEqual | percentEqual
  | equal | plus | minus | star | slash | percent | ampersand | bang | question | colon
  | semicolon | comma | period | leftParen | rightParen | leftBracket | rightBracket
  | leftBrace | rightBrace | less | greater
deriving DecidableEq, Repr

namespace Symbol

/-- How the symbol is written. -/
def text : Symbol → String
  | equalEqual => "==" | notEqual => "!=" | greaterEqual => ">=" | lessEqual => "<="
  | colonEqual => ":=" | andAnd => "&&" | orOr => "||" | plusPlus => "++" | minusMinus => "--"
  | plusEqual => "+=" | minusEqual => "-=" | starEqual => "*=" | slashEqual => "/="
  | percentEqual => "%=" | equal => "=" | plus => "+" | minus => "-" | star => "*" | slash => "/"
  | percent => "%" | ampersand => "&" | bang => "!" | question => "?" | colon => ":"
  | semicolon => ";" | comma => "," | period => "." | leftParen => "(" | rightParen => ")"
  | leftBracket => "[" | rightBracket => "]" | leftBrace => "\x7b" | rightBrace => "\x7d"
  | less => "<" | greater => ">"

/-- The symbol of two characters. -/
def ofPair? (c d : Char) : Option Symbol :=
  match c, d with
  | '=', '=' => some equalEqual
  | '!', '=' => some notEqual
  | '<', '=' => some lessEqual
  | '>', '=' => some greaterEqual
  | ':', '=' => some colonEqual
  | '&', '&' => some andAnd
  | '|', '|' => some orOr
  | '+', '+' => some plusPlus
  | '-', '-' => some minusMinus
  | '+', '=' => some plusEqual
  | '-', '=' => some minusEqual
  | '*', '=' => some starEqual
  | '/', '=' => some slashEqual
  | '%', '=' => some percentEqual
  | _, _ => none

/-- The symbol of one character. -/
def ofChar? (c : Char) : Option Symbol :=
  match c with
  | '=' => some equal
  | '+' => some plus
  | '-' => some minus
  | '*' => some star
  | '/' => some slash
  | '%' => some percent
  | '&' => some ampersand
  | '!' => some bang
  | '?' => some question
  | ':' => some colon
  | ';' => some semicolon
  | ',' => some comma
  | '.' => some period
  | '(' => some leftParen
  | ')' => some rightParen
  | '[' => some leftBracket
  | ']' => some rightBracket
  | '{' => some leftBrace
  | '}' => some rightBrace
  | '<' => some less
  | '>' => some greater
  | _ => none

end Symbol

/-- Words with a meaning of their own. -/
inductive Keyword where
  | fn | struct | enum | const | have_ | return_ | if_ | else_ | loop | break_ | continue_
  | true_ | false_ | nil | int | short | char | bool | str | void
deriving DecidableEq, Repr

namespace Keyword

/-- All keywords. -/
def all : List Keyword :=
  [fn, struct, enum, const, have_, return_, if_, else_, loop, break_, continue_,
    true_, false_, nil, int, short, char, bool, str, void]

/-- How the keyword is written. -/
def text : Keyword → String
  | fn => "fn" | struct => "struct" | enum => "enum" | const => "const" | have_ => "have"
  | return_ => "return" | if_ => "if" | else_ => "else" | loop => "loop" | break_ => "break"
  | continue_ => "continue" | true_ => "true" | false_ => "false" | nil => "nil" | int => "int"
  | short => "short" | char => "char" | bool => "bool" | str => "str" | void => "void"

end Keyword

/-- Why a piece of text is no token. -/
inductive LexError where
  | unexpectedChar (c : Char)
  | unterminatedString
  | unterminatedChar
  | invalidEscape (c : Char)
  | invalidChar
  | integerOverflow (lexeme : String)
deriving DecidableEq, Repr

/-- The wording of a lexical error. -/
def LexError.message : LexError → String
  | unexpectedChar c => "unexpected character `" ++ c.toString ++ "`"
  | unterminatedString => "unterminated string literal"
  | unterminatedChar => "unterminated character literal"
  | invalidEscape c => "invalid escape sequence `\\" ++ c.toString ++ "`"
  | invalidChar => "character literal must be a single ASCII character"
  | integerOverflow lexeme => "integer literal `" ++ lexeme ++ "` does not fit in 64 bits"

/-- What a token is. -/
inductive TokenKind where
  | symbol (s : Symbol)
  | keyword (k : Keyword)
  /-- A name. -/
  | ident (name : String)
  /-- A name after `@`. -/
  | builtin (name : String)
  /-- A number, as it is written and as it is read. -/
  | number (lexeme : String) (value : Word)
  /-- The contents of a string literal. -/
  | text (contents : String)
  /-- The value of a character literal. -/
  | char (value : UInt8)
  /-- A comment, without its mark and the blanks after it. -/
  | comment (body : String)
  | error (e : LexError)
deriving DecidableEq, Repr

namespace TokenKind

/-- The token for a reader. -/
def describe : TokenKind → String
  | symbol s => "`" ++ s.text ++ "`"
  | keyword k => "`" ++ k.text ++ "`"
  | ident name => "identifier `" ++ name ++ "`"
  | builtin name => "`@" ++ name ++ "`"
  | number lexeme _ => "number `" ++ lexeme ++ "`"
  | text _ => "string literal"
  | char _ => "character literal"
  | comment _ => "comment"
  | error e => e.message

/-- Whether the token means nothing to the grammar: a comment or a lexical error. -/
def isSkipped : TokenKind → Bool
  | comment _ | error _ => true
  | _ => false

/-- Whether the token is a word for an integer type, after which `!` is a mark of its own. -/
def isIntWord : TokenKind → Bool
  | keyword .int | keyword .short => true
  | _ => false

end TokenKind

/-- A token and the place of its first character. -/
structure Token where
  kind : TokenKind
  pos : Position
deriving DecidableEq, Repr

end Sigil
