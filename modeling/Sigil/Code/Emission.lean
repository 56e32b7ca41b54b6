import Sigil.Code.Pool
import Sigil.Code.Transfer
import Sigil.Frame
import Sigil.Symbols

/-!
# Emission

The state in which the code of a function is generated: its frame, the number of labels it has used so
far, and the pool that it shares with the other functions.
-/

namespace Sigil.Code

open Machine (Block Label)

/-- What holds throughout a function. -/
structure Site where
  symbols : Symbols
  /-- The name of the function. -/
  name : String
  /-- The result type of the function. -/
  ret : Ty

/-- The state of generating a function. -/
structure Emission where
  frame : Frame
  /-- The number of labels so far. -/
  labels : Nat
  pool : Pool

/-- Generates something, or finds that the tree has no code. -/
abbrev Emit := Attempt Emission Error

/-- Fails since the tree does not come from a checked program. -/
def refuse {α : Type} (e : CodeError) : Emit α :=
  throw (.code e)

/-- The label of a function. -/
def functionLabel (name : String) : Label :=
  "zu_" ++ name

/-- The label of a function's end. -/
def Site.returnLabel (site : Site) : Label :=
  ".L" ++ site.name ++ "_return"

/-- A new label. -/
def Site.label (site : Site) (what : String) : Emit Label := do
  modify fun s => { s with labels := s.labels + 1 }
  return ".L" ++ site.name ++ "_" ++ what ++ toString (← get).labels

/-- The size of a type that is used at the given place. -/
def Site.sizeOf (site : Site) (pos : Position) (t : Ty) : Emit Nat :=
  match site.symbols.settled (site.symbols.names.sizeOf t) with
  | .ok n => return n
  | .error e => throw (.type ⟨pos, e⟩)

/-- The layout of a struct that is used at the given place. -/
def Site.layout (site : Site) (pos : Position) (x : String) : Emit Layout :=
  match site.symbols.settled (site.symbols.layout x) with
  | .ok l => return l
  | .error e => throw (.type ⟨pos, e⟩)

/-- A new slot without a name. -/
def temp (size : Nat) : Emit Int := fun s =>
  let (offset, frame) := s.frame.temp size
  (.ok offset, { s with frame })

/-- Names a slot. -/
def bind (x : String) (t : Ty) (offset : Int) (mutable : Bool) : Emit Unit :=
  modify fun s => { s with frame := s.frame.bind x t offset mutable }

/-- The label of a text. -/
def string (text : String) : Emit Label := fun s =>
  let (label, pool) := s.pool.string text
  (.ok label, { s with pool })

/-- The label of a routine, which is needed from now on. -/
def routine (r : Routine) : Emit Label := do
  modify fun s => { s with pool := s.pool.use r }
  return r.label

/-- The type of an expression. -/
def typed (t : Option Ty) : Emit Ty :=
  match t with
  | some t => return t
  | none => refuse .untyped

end Sigil.Code
