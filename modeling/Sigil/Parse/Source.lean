import Sigil.Error
import Sigil.Parse.Program
import Sigil.Token.Scan

/-!
# From text to trees

A text becomes a program if it has neither lexical nor grammatical errors. Lexical errors are reported
alone.
-/

namespace Sigil

/-- The lexical errors among some tokens. -/
def lexicalErrors (tokens : List Token) : List Error :=
  tokens.filterMap fun t =>
    match t.kind with
    | .error e => some (.lexical ⟨t.pos, e⟩)
    | _ => none

/-- Reads a program from its text. -/
def parseSource (code : String) : Except (List Error) Program :=
  let tokens := Token.scan code
  match lexicalErrors tokens with
  | [] =>
    match Parser.program tokens with
    | (program, []) => .ok program
    | (_, errors) => .error (errors.map .grammar)
  | errors => .error errors

end Sigil
