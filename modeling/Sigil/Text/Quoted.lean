import Sigil.Text.Printable

/-!
# Quoted text

How a string or a character is shown to a reader: in its quotes, with the usual short escapes, and
with `\u{…}` and the hexadecimal code point for what cannot be shown as it is.
-/

namespace Sigil.Text

/-- The lower-case hexadecimal digits of `n`, without leading zeros. -/
def hexDigits (n : Nat) : List Char :=
  Nat.toDigits 16 n

/-- The escape `\u{…}` of a character. -/
def unicodeEscape (c : Char) : List Char :=
  ['\\', 'u', '{'] ++ hexDigits c.toNat ++ ['}']

/-- A character inside a quoted string: a single quote stands for itself, a double quote does not. -/
def quotedChar (c : Char) : List Char :=
  match c with
  | '\x00' => ['\\', '0']
  | '\t' => ['\\', 't']
  | '\r' => ['\\', 'r']
  | '\n' => ['\\', 'n']
  | '"' => ['\\', '"']
  | '\\' => ['\\', '\\']
  | c => if isPrintable c then [c] else unicodeEscape c

/-- A string in double quotes. -/
def quoteString (s : String) : String :=
  String.ofList ('"' :: s.toList.flatMap quotedChar ++ ['"'])

/-- A byte, read as the character with that code point, in single quotes. Only printable ASCII stands
for itself, and both kinds of quote are escaped. -/
def quoteByte (b : UInt8) : String :=
  let c := Char.ofNat b.toNat
  let shown :=
    match c with
    | '\t' => ['\\', 't']
    | '\r' => ['\\', 'r']
    | '\n' => ['\\', 'n']
    | '\'' => ['\\', '\'']
    | '"' => ['\\', '"']
    | '\\' => ['\\', '\\']
    | c => if 0x20 ≤ c.toNat && c.toNat ≤ 0x7e then [c] else unicodeEscape c
  String.ofList ('\'' :: shown ++ ['\''])

end Sigil.Text
