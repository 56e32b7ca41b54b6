/-!
# Terminal styles

Coloured and emphasised text by the escape sequences of a terminal.
-/

namespace Sigil.Text

/-- The foreground colours in use. -/
inductive Colour where
  | red | green | yellow | blue | magenta | cyan
deriving DecidableEq, Repr

/-- The sequence that selects a colour. -/
def Colour.start : Colour → String
  | .red => "\x1b[31m"
  | .green => "\x1b[32m"
  | .yellow => "\x1b[33m"
  | .blue => "\x1b[34m"
  | .magenta => "\x1b[35m"
  | .cyan => "\x1b[36m"

/-- The sequence that goes back to the default colour. -/
def colourStop : String := "\x1b[39m"

/-- The sequence that ends both bold and dim text. -/
def weightStop : String := "\x1b[22m"

/-- Text in one colour. -/
def paint (c : Colour) (s : String) : String :=
  c.start ++ s ++ colourStop

/-- Text in one colour and bold. The two are closed in the order in which they were opened. -/
def paintBold (c : Colour) (s : String) : String :=
  c.start ++ "\x1b[1m" ++ s ++ colourStop ++ weightStop

/-- Two texts side by side, each in its colour: the second colour replaces the first, which is not
closed on its own. -/
def paintPair (c₁ : Colour) (s₁ : String) (c₂ : Colour) (s₂ : String) : String :=
  c₁.start ++ s₁ ++ c₂.start ++ s₂ ++ colourStop

/-- Dim text. -/
def dim (s : String) : String :=
  "\x1b[2m" ++ s ++ weightStop

/-- Underlined text. -/
def underline (s : String) : String :=
  "\x1b[4m" ++ s ++ "\x1b[24m"

/-- The text, followed by spaces up to the given width in characters. -/
def padRight (width : Nat) (s : String) : String :=
  s ++ String.ofList (List.replicate (width - s.length) ' ')

/-- The text, preceded by spaces up to the given width in characters. -/
def padLeft (width : Nat) (s : String) : String :=
  String.ofList (List.replicate (width - s.length) ' ') ++ s

end Sigil.Text
