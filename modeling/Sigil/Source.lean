/-!
# Source text

Positions in a source text and the division of a text into lines.
-/

namespace Sigil

/-- A place in a source text: the line, and the offset in bytes of its UTF-8 form within the line. Both
count from zero. -/
structure Position where
  row : Nat
  col : Nat
deriving DecidableEq, Repr, Inhabited

namespace Position

/-- The first place of a text. -/
def origin : Position := ⟨0, 0⟩

/-- The position for a reader, who counts from one. -/
def text (p : Position) : String :=
  s!"{p.row + 1}:{p.col + 1}"

end Position

/-- A cause at a place in a source text. -/
structure Located (ε : Type) where
  pos : Position
  cause : ε
deriving DecidableEq, Repr

namespace Source

/-- A line without the carriage return before its line feed. -/
def dropReturn (line : List Char) : List Char :=
  match line.getLast? with
  | some '\r' => line.dropLast
  | _ => line

/-- The lines of a text. A line feed ends a line, together with one carriage return before it; what
follows the last line feed is a line if it is not empty. -/
def lines (cs : List Char) : List (List Char) :=
  go [] cs
where
  /-- The lines, given the characters read so far of the first one, last first. -/
  go (seen : List Char) : List Char → List (List Char)
    | [] => if seen.isEmpty then [] else [seen.reverse]
    | '\n' :: cs => dropReturn seen.reverse :: go [] cs
    | c :: cs => go (c :: seen) cs

/-- The length in bytes of the UTF-8 form of some characters. -/
def byteLength : List Char → Nat
  | [] => 0
  | c :: cs => c.utf8Size + byteLength cs

@[simp] theorem byteLength_append (cs ds : List Char) :
    byteLength (cs ++ ds) = byteLength cs + byteLength ds := by
  induction cs with
  | nil => simp [byteLength]
  | cons c cs ih => simp [byteLength, ih, Nat.add_assoc]

end Source

end Sigil
