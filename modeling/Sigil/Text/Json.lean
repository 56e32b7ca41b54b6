/-!
# JSON documents

The documents that are written, with members in a given order, and their text: one value per line,
indented by two spaces.
-/

namespace Sigil.Text

/-- A JSON document. -/
inductive Json where
  | str (s : String)
  | num (n : Int)
  | arr (items : List Json)
  | obj (members : List (String × Json))

namespace Json

/-- The hexadecimal digit of `n` modulo sixteen. -/
def hexDigit (n : Nat) : Char :=
  Nat.digitChar (n % 16)

/-- A character inside a JSON string. -/
def escapedChar (c : Char) : List Char :=
  match c with
  | '"' => ['\\', '"']
  | '\\' => ['\\', '\\']
  | '\n' => ['\\', 'n']
  | '\r' => ['\\', 'r']
  | '\t' => ['\\', 't']
  | '\x08' => ['\\', 'b']
  | '\x0c' => ['\\', 'f']
  | c =>
    if c.toNat < 0x20 then ['\\', 'u', '0', '0', hexDigit (c.toNat / 16), hexDigit c.toNat]
    else [c]

/-- A JSON string. -/
def quote (s : String) : String :=
  String.ofList ('"' :: s.toList.flatMap escapedChar ++ ['"'])

/-- A line feed and the indentation of a depth. -/
def newline (depth : Nat) : String :=
  "\n" ++ String.ofList (List.replicate (2 * depth) ' ')

/-- Items between brackets, a line each. -/
def bracket (left right : String) (depth : Nat) : List String → String
  | [] => left ++ right
  | items =>
    left ++ newline (depth + 1) ++ String.intercalate ("," ++ newline (depth + 1)) items
      ++ newline depth ++ right

mutual

/-- The text of a document at a depth. -/
def textAt (depth : Nat) : Json → String
  | str s => quote s
  | num n => toString n
  | arr items => bracket "[" "]" depth (itemTexts (depth + 1) items)
  | obj members => bracket "\x7b" "\x7d" depth (memberTexts (depth + 1) members)

/-- The texts of items. -/
def itemTexts (depth : Nat) : List Json → List String
  | [] => []
  | j :: js => textAt depth j :: itemTexts depth js

/-- The texts of members. -/
def memberTexts (depth : Nat) : List (String × Json) → List String
  | [] => []
  | (k, j) :: js => (quote k ++ ": " ++ textAt depth j) :: memberTexts depth js

end

/-- The text of a document. -/
def text (j : Json) : String :=
  j.textAt 0

end Json

end Sigil.Text
