import Sigil.Ty

/-!
# Struct layouts

The fields of a struct lie side by side in the order of their declaration, with no space between them.
-/

namespace Sigil

/-- The size in bytes of the largest object: a displacement in an instruction has 32 bits. -/
def maxObject : Nat := 0x7fffffff

/-- A field of a struct. -/
structure Field where
  name : String
  ty : Ty
  /-- The offset from the start of the struct. -/
  offset : Nat
deriving DecidableEq, Repr

/-- The fields of a struct and its size in bytes. -/
structure Layout where
  fields : List Field
  size : Nat
deriving DecidableEq, Repr, Inhabited

namespace Layout

/-- The layout of no fields. -/
def empty : Layout := ⟨[], 0⟩

/-- The field with the given name. -/
def field? (l : Layout) (x : String) : Option Field :=
  l.fields.find? fun f => f.name == x

/-- The layout with one more field of the given size. -/
def append (l : Layout) (x : String) (ty : Ty) (size : Nat) : Layout :=
  ⟨l.fields ++ [⟨x, ty, l.size⟩], l.size + size⟩

end Layout

end Sigil
