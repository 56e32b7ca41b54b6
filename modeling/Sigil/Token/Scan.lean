import Sigil.Text.Blank
import Sigil.Token

/-!
# From text to tokens

Each line is read on its own, from left to right. `scanToken` reads the token that starts at a
character that is not blank; what it leaves unread is a suffix of what followed that character, so
reading a line ends.
-/

namespace Sigil.Token

/-- What was read, and the characters that are still unread. -/
abbrev Scanned := TokenKind × List Char

/-- Whether a name can start with `c`. -/
def isWordStart (c : Char) : Bool :=
  c.isAlpha || c == '_'

/-- Whether `c` can stand in a name. -/
def isWordChar (c : Char) : Bool :=
  c.isAlphanum || c == '_'

/-- The character that an escape sequence stands for. -/
def unescape? (c : Char) : Option Char :=
  match c with
  | 'n' => some '\n'
  | 't' => some '\t'
  | 'r' => some '\r'
  | '0' => some '\x00'
  | '\\' => some '\\'
  | '\'' => some '\''
  | '"' => some '"'
  | _ => none

/-- A word is a keyword, one of the operators that have a word for them, or a name. -/
def wordKind (word : String) : TokenKind :=
  match Keyword.all.find? fun k => k.text == word with
  | some k => .keyword k
  | none =>
    if word == "and" then .symbol .andAnd
    else if word == "or" then .symbol .orOr
    else .ident word

/-- Reads a word. -/
def scanWord (cs : List Char) : String × List Char :=
  (String.ofList (cs.takeWhile isWordChar), cs.dropWhile isWordChar)

/-- The value of a hexadecimal digit. -/
def hexValue (c : Char) : Nat :=
  if c.isDigit then c.toNat - '0'.toNat
  else if c.isUpper then c.toNat - 'A'.toNat + 10
  else c.toNat - 'a'.toNat + 10

/-- Whether `c` is a hexadecimal digit. -/
def isHexDigit (c : Char) : Bool :=
  c.isDigit || ('a' ≤ c && c ≤ 'f') || ('A' ≤ c && c ≤ 'F')

/-- The number that digits stand for in a base, where underscores count for nothing. There must be a
digit, and the number must fit in a word. -/
def numberValue? (base : Nat) (digits : List Char) : Option Word :=
  let ds := digits.filter (· ≠ '_')
  let n := ds.foldl (fun n d => n * base + hexValue d) 0
  if ds.isEmpty || maxWord < n then none else some (BitVec.ofNat 64 n)

/-- The token of a number, as it is written and as its digits are read. -/
def numberKind (lexeme : String) (base : Nat) (digits : List Char) : TokenKind :=
  match numberValue? base digits with
  | some value => .number lexeme value
  | none => .error (.integerOverflow lexeme)

/-- Reads a number of the given base whose mark, if any, has been read. -/
def scanDigits (mark : String) (base : Nat) (isDigit : Char → Bool) (cs : List Char) : Scanned :=
  let digits := cs.takeWhile fun c => c == '_' || isDigit c
  (numberKind (mark ++ String.ofList digits) base digits,
    cs.dropWhile fun c => c == '_' || isDigit c)

/-- Reads a number that starts with the digit `c`: hexadecimal after `0x` or `0X`, else decimal. -/
def scanNumber (c : Char) (cs : List Char) : Scanned :=
  match c, cs with
  | '0', 'x' :: ds => scanDigits "0x" 16 isHexDigit ds
  | '0', 'X' :: ds => scanDigits "0x" 16 isHexDigit ds
  | c, ds =>
    let digits := c :: ds.takeWhile fun c => c == '_' || c.isDigit
    (numberKind (String.ofList digits) 10 digits, ds.dropWhile fun c => c == '_' || c.isDigit)

/-- Reads the closing quote of a character literal. If another character stands there, the literal is
malformed and everything up to the next quote belongs to it. -/
def closeChar (value : Char) (cs : List Char) : Scanned :=
  match cs with
  | '\'' :: rest =>
    (if value.toNat < 128 then .char value.toNat.toUInt8 else .error .invalidChar, rest)
  | cs =>
    match cs.dropWhile (· ≠ '\'') with
    | [] => (.error .unterminatedChar, [])
    | _ :: rest => (.error .invalidChar, rest)

/-- Reads a character literal after its opening quote. Reading stops right after an invalid escape. -/
def scanChar (cs : List Char) : Scanned :=
  match cs with
  | [] => (.error .unterminatedChar, [])
  | '\'' :: rest => (.error .unterminatedChar, rest)
  | '\\' :: [] => (.error .unterminatedChar, [])
  | '\\' :: c :: rest =>
    match unescape? c with
    | some value => closeChar value rest
    | none => (.error (.invalidEscape c), rest)
  | c :: rest => closeChar c rest

/-- Reads the contents of a string literal up to and with its closing quote. A missing quote outranks
an invalid escape, and the first invalid escape outranks the others. -/
def scanString (cs : List Char) : Except LexError (List Char) × List Char :=
  match cs with
  | [] => (.error .unterminatedString, [])
  | '"' :: rest => (.ok [], rest)
  | '\\' :: [] => (.error .unterminatedString, [])
  | '\\' :: c :: rest =>
    let (contents, after) := scanString rest
    match unescape? c, contents with
    | some value, contents => (contents.map (value :: ·), after)
    | none, .error .unterminatedString => (.error .unterminatedString, after)
    | none, _ => (.error (.invalidEscape c), after)
  | c :: rest =>
    let (contents, after) := scanString rest
    (contents.map (c :: ·), after)

/-- Reads a string literal after its opening quote. -/
def scanText (cs : List Char) : Scanned :=
  match scanString cs with
  | (.ok contents, rest) => (.text (String.ofList contents), rest)
  | (.error e, rest) => (.error e, rest)

/-- The symbol of two characters that starts with `c`, unless `!` has to stand on its own as the mark of
the integer type before it. -/
def pair? (afterInt : Bool) (c : Char) (cs : List Char) : Option (Symbol × List Char) :=
  match cs with
  | [] => none
  | d :: rest =>
    match Symbol.ofPair? c d with
    | some .notEqual => if afterInt then none else some (.notEqual, rest)
    | some s => some (s, rest)
    | none => none

/-- Reads the token that starts with the character `c`, which is not blank. The flag says whether the
token before it is a word for an integer type. -/
def scanToken (afterInt : Bool) (c : Char) (cs : List Char) : Scanned :=
  if c == '#' then (.comment (String.ofList (cs.dropWhile Text.isBlank)), [])
  else
    match pair? afterInt c cs with
    | some (s, rest) => (.symbol s, rest)
    | none =>
      match Symbol.ofChar? c with
      | some s => (.symbol s, cs)
      | none =>
        if c.isDigit then scanNumber c cs
        else if c == '\'' then scanChar cs
        else if c == '"' then scanText cs
        else if c == '@' then
          match cs with
          | d :: _ =>
            if isWordStart d then
              let (name, rest) := scanWord cs
              (.builtin name, rest)
            else (.error (.unexpectedChar '@'), cs)
          | [] => (.error (.unexpectedChar '@'), cs)
        else if isWordStart c then
          let (word, rest) := scanWord (c :: cs)
          (wordKind word, rest)
        else (.error (.unexpectedChar c), cs)

/-! ## Reading moves forward -/

theorem scanDigits_suffix (mark : String) (base : Nat) (isDigit : Char → Bool) (cs : List Char) :
    (scanDigits mark base isDigit cs).2 <:+ cs :=
  List.dropWhile_suffix _

theorem scanNumber_suffix (c : Char) (cs : List Char) : (scanNumber c cs).2 <:+ cs := by
  unfold scanNumber
  split
  · exact (scanDigits_suffix ..).trans (List.suffix_cons _ _)
  · exact (scanDigits_suffix ..).trans (List.suffix_cons _ _)
  · exact List.dropWhile_suffix _

theorem closeChar_suffix (value : Char) (cs : List Char) : (closeChar value cs).2 <:+ cs := by
  unfold closeChar
  split
  · exact List.suffix_cons _ _
  · split
    · exact List.nil_suffix
    · next h =>
      exact (List.suffix_cons _ _).trans (h ▸ List.dropWhile_suffix _)

theorem scanChar_suffix (cs : List Char) : (scanChar cs).2 <:+ cs := by
  unfold scanChar
  split
  · exact List.nil_suffix
  · exact List.suffix_cons _ _
  · exact List.nil_suffix
  · split
    · exact (closeChar_suffix ..).trans ((List.suffix_cons _ _).trans (List.suffix_cons _ _))
    · exact (List.suffix_cons _ _).trans (List.suffix_cons _ _)
  · exact (closeChar_suffix ..).trans (List.suffix_cons _ _)

theorem scanString_suffix (cs : List Char) : (scanString cs).2 <:+ cs := by
  fun_induction scanString cs with
  | case1 => exact List.nil_suffix
  | case2 => exact List.suffix_cons _ _
  | case3 => exact List.nil_suffix
  | case4 _ _ _ _ _ _ h ih | case5 _ _ _ _ h ih =>
    rw [h] at ih
    exact ih.trans ((List.suffix_cons _ _).trans (List.suffix_cons _ _))
  | case6 _ _ _ _ h _ _ ih =>
    rw [h] at ih
    exact ih.trans ((List.suffix_cons _ _).trans (List.suffix_cons _ _))
  | case7 _ _ _ _ _ _ _ h ih =>
    rw [h] at ih
    exact ih.trans (List.suffix_cons _ _)

theorem scanText_suffix (cs : List Char) : (scanText cs).2 <:+ cs := by
  have h := scanString_suffix cs
  unfold scanText
  split <;> simp_all

theorem pair?_suffix {afterInt : Bool} {c : Char} {cs rest : List Char} {s : Symbol}
    (h : pair? afterInt c cs = some (s, rest)) : rest <:+ cs := by
  unfold pair? at h
  split at h
  · simp at h
  · split at h
    · split at h
      · simp at h
      · simp only [Option.some.injEq, Prod.mk.injEq] at h
        exact h.2 ▸ List.suffix_cons _ _
    · simp only [Option.some.injEq, Prod.mk.injEq] at h
      exact h.2 ▸ List.suffix_cons _ _
    · simp at h

/-- What a token leaves unread is a suffix of what followed its first character. -/
theorem scanToken_suffix (afterInt : Bool) (c : Char) (cs : List Char) :
    (scanToken afterInt c cs).2 <:+ cs := by
  unfold scanToken
  split
  · exact List.nil_suffix
  · split
    · next h => exact pair?_suffix h
    · split
      · exact List.suffix_refl _
      · split
        · exact scanNumber_suffix c cs
        · split
          · exact scanChar_suffix cs
          · split
            · exact scanText_suffix cs
            · split
              · split
                · split
                  · exact List.dropWhile_suffix _
                  · exact List.suffix_refl _
                · exact List.suffix_refl _
              · split
                · next h =>
                  have hc : isWordChar c = true := by
                    simp only [isWordStart, Bool.or_eq_true] at h
                    simp only [isWordChar, Char.isAlphanum, Bool.or_eq_true]
                    exact h.imp Or.inl id
                  simp only [scanWord, List.dropWhile_cons, hc, if_true]
                  exact List.dropWhile_suffix _
                · exact List.suffix_refl _

/-! ## Lines and texts -/

/-- The tokens of a line from column `col` on. -/
def scanLine (row col : Nat) (afterInt : Bool) (cs : List Char) : List Token :=
  match cs with
  | [] => []
  | c :: cs =>
    if Text.isBlank c then scanLine row (col + c.utf8Size) afterInt cs
    else
      let kind := (scanToken afterInt c cs).1
      let rest := (scanToken afterInt c cs).2
      let width := Source.byteLength (c :: cs) - Source.byteLength rest
      ⟨kind, ⟨row, col⟩⟩ :: scanLine row (col + width) kind.isIntWord rest
termination_by cs.length
decreasing_by
  · simp
  · exact Nat.lt_succ_of_le (scanToken_suffix afterInt c cs).length_le

/-- The tokens of a text. -/
def scan (code : String) : List Token :=
  (Source.lines code.toList).zipIdx.flatMap fun (line, row) => scanLine row 0 false line

end Sigil.Token
