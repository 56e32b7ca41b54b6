import Sigil.Report.SymbolMap
import Sigil.Text.Quoted

/-!
# Listings

A compiled program for a terminal: its functions with their frames, its routines and its texts.
-/

namespace Sigil

open Machine (Block Line)

namespace Listing

/-- A line with or without a title across the page. -/
def rule (title : String) : String :=
  title ++ String.ofList (List.replicate 72 '-')

/-- A line of code. -/
def line : Line → String
  | .label l => "| " ++ Text.paint .magenta l ++ ":"
  | l => "| " ++ l.styled

/-- A named slot. -/
def slot (x : String) (s : Slot) : String :=
  "|  " ++ Text.padLeft 5 (toString s.offset) ++ " | " ++ Text.paint .cyan x ++ " : " ++ s.ty.text

/-- A function with its frame. -/
def function (t : Symbols) (x : String) (f : FunctionCode) : List String :=
  ["+--------+ " ++ Text.paint .green x ++ " : " ++ t.signatureText x ++ " "
    ++ Text.dim ("(frame " ++ toString f.frame ++ " bytes)")]
    ++ f.slots.map (fun (y, s) => slot y s) ++ f.code.map line

/-- A routine. -/
def routine (r : Routine) : List String :=
  ("+--------+ " ++ Text.paint .red r.label) :: r.body.map line

/-- A text under its label. -/
def string (label : Machine.Label) (s : String) : String :=
  "| " ++ Text.paint .yellow label ++ " : " ++ Text.quoteString s

end Listing

open Listing in
/-- The lines of a program's listing. -/
def Assembly.listing (a : Assembly) (t : Symbols) : List String :=
  [rule "+-[Text]-+"] ++ a.funcs.flatMap (fun (x, f) => function t x f)
    ++ a.pool.closure.flatMap routine
    ++ [rule "+-[Data]-+"] ++ a.pool.sorted.map (fun (l, s) => string l s)
    ++ [rule "+--------+"]

end Sigil
