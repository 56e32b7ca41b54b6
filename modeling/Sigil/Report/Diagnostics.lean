import Sigil.Error
import Sigil.Text.Style

/-!
# Diagnostics

Errors for a terminal, each with the line of the source that it is about and a caret below.
-/

namespace Sigil

/-- The errors of a compilation, with the file they are about and its text. -/
structure Diagnostics where
  file : String
  code : String
  errors : List Error

namespace Diagnostics

/-- The place of an error: the file, the line and a caret below the column. On a short line the caret
stands behind the end. -/
def place (d : Diagnostics) (p : Position) : List String :=
  let line := (Source.lines d.code.toList)[p.row]?.getD []
  let bar := "      " ++ Text.paint .blue "|"
  ["     " ++ Text.paint .blue "-->" ++ " " ++ Text.underline (d.file ++ ":" ++ p.text),
    bar,
    " " ++ Text.paint .blue (Text.padLeft 4 (toString (p.row + 1)) ++ " |") ++ " " ++ String.ofList line,
    bar ++ " " ++ String.ofList (List.replicate (min p.col line.length) ' ')
      ++ Text.paintBold .red "^"]

/-- An error. -/
def report (d : Diagnostics) (e : Error) : List String :=
  (Text.paintBold .red e.kind ++ ": " ++ e.message) :: (e.pos?.map d.place).getD []

/-- All lines that are printed. -/
def lines (d : Diagnostics) : List String :=
  d.errors.flatMap d.report

/-- The errors in a few words. -/
def summary (d : Diagnostics) : String :=
  toString d.errors.length ++ " error(s) in " ++ d.file

/-- Whether the compilation was stopped from outside. -/
def isExternal (d : Diagnostics) : Bool :=
  d.errors.any Error.isExternal

end Diagnostics

end Sigil
