import Sigil.Assoc
import Sigil.Constant
import Sigil.Ty

/-!
# Stack frames

The named and unnamed slots of a function's frame, by their offset from the frame pointer. Arguments
lie above the frame pointer, in order, behind the return address and the saved frame pointer and, if
the function returns an aggregate, behind the pointer to it. Locals lie below, in the order of their
declaration; a slot is never used again. Names live in scopes that open and close, innermost first.

Sizes and offsets are 64-bit and stay at the end of their range rather than wrap.
-/

namespace Sigil

/-- A name's slot. -/
structure Slot where
  ty : Ty
  mutable : Bool
  /-- The offset from the frame pointer. -/
  offset : Int
  /-- The value of an immutable local, if it is known. -/
  value : Option Constant
deriving DecidableEq, Repr

/-- The frame of a function. -/
structure Frame where
  /-- The open scopes, innermost first. -/
  scopes : List (Assoc Slot)
  /-- The offset of the lowest slot so far. -/
  low : Int
  /-- Every slot that was ever named, in order. -/
  named : List (String × Slot)
deriving Repr

namespace Frame

/-- The greatest size. -/
def maxSize : Nat := 0xffffffffffffffff

/-- The greatest offset. -/
def maxOffset : Int := 0x7fffffffffffffff

/-- The least offset. -/
def minOffset : Int := -0x8000000000000000

/-- A size rounded up to a multiple of eight. -/
def round8 (n : Nat) : Nat :=
  min (n + 7) maxSize / 8 * 8

/-- The distance that an object of the given size takes up. -/
def span (size : Nat) : Int :=
  min (round8 size) maxOffset

/-- The slots of the arguments, from the given offset on. -/
def argSlots (offset : Int) : List (String × Ty × Nat) → Assoc Slot → Assoc Slot
  | [], slots => slots
  | (x, ty, size) :: args, slots =>
    argSlots (min (offset + span size) maxOffset) args (slots.put x ⟨ty, true, offset, none⟩)

/-- The frame of a function with the given arguments, each with its size, which may get a pointer for
its result before them. -/
def ofArgs (args : List (String × Ty × Nat)) (hiddenResult : Bool) : Frame :=
  let slots := argSlots (if hiddenResult then 24 else 16) args []
  ⟨[slots], 0, slots⟩

/-- Opens a scope. -/
def enter (f : Frame) : Frame :=
  { f with scopes := [] :: f.scopes }

/-- Closes the innermost scope. -/
def leave (f : Frame) : Frame :=
  { f with scopes := f.scopes.tail }

/-- Takes a new slot, of at least one byte, without a name. -/
def temp (f : Frame) (size : Nat) : Int × Frame :=
  let offset := max (f.low - span (max size 1)) minOffset
  (offset, { f with low := offset })

/-- Names a slot in the innermost scope. -/
def bind (f : Frame) (x : String) (ty : Ty) (offset : Int) (mutable : Bool) : Frame :=
  let slot : Slot := ⟨ty, mutable, offset, none⟩
  { f with
    named := f.named ++ [(x, slot)]
    scopes :=
      match f.scopes with
      | [] => []
      | scope :: rest => scope.put x slot :: rest }

/-- Takes a new slot with a name. -/
def push (f : Frame) (x : String) (ty : Ty) (size : Nat) (mutable : Bool) : Int × Frame :=
  let (offset, f') := f.temp size
  (offset, f'.bind x ty offset mutable)

/-- The innermost slot of a name among some scopes. -/
def find? (x : String) : List (Assoc Slot) → Option Slot
  | [] => none
  | scope :: rest =>
    match scope.get? x with
    | some slot => some slot
    | none => find? x rest

/-- The slot that a name means. -/
def get? (f : Frame) (x : String) : Option Slot :=
  find? x f.scopes

/-- Whether a name is local. -/
def isLocal (f : Frame) (x : String) : Bool :=
  (f.get? x).isSome

/-- Records the value of the innermost binding of a name among some scopes. -/
def record (x : String) (value : Constant) : List (Assoc Slot) → List (Assoc Slot)
  | [] => []
  | scope :: rest =>
    match scope.get? x with
    | some slot => scope.put x { slot with value := some value } :: rest
    | none => scope :: record x value rest

/-- Records the value of an immutable local. -/
def setValue (f : Frame) (x : String) (value : Constant) : Frame :=
  { f with scopes := record x value f.scopes }

/-- The size of the frame below the frame pointer, a multiple of sixteen. -/
def size (f : Frame) : Nat :=
  min (f.low.natAbs + 15) maxSize / 16 * 16

@[simp] theorem leave_enter (f : Frame) : f.enter.leave = f := rfl

/-- A new scope binds nothing. -/
@[simp] theorem get?_enter (f : Frame) (x : String) : f.enter.get? x = f.get? x := rfl

/-- A name means what it was last bound to. -/
theorem get?_bind_self {f : Frame} (h : f.scopes ≠ []) (x : String) (ty : Ty) (offset : Int)
    (mutable : Bool) : (f.bind x ty offset mutable).get? x = some ⟨ty, mutable, offset, none⟩ := by
  cases hs : f.scopes with
  | nil => exact absurd hs h
  | cons scope rest => simp [get?, bind, hs, find?]

/-- Binding a name leaves the other names alone. -/
theorem get?_bind_of_ne {x y : String} (h : x ≠ y) (f : Frame) (ty : Ty) (offset : Int)
    (mutable : Bool) : (f.bind x ty offset mutable).get? y = f.get? y := by
  cases hs : f.scopes with
  | nil => simp [get?, bind, hs]
  | cons scope rest => simp [get?, bind, hs, find?, Assoc.get?_put_of_ne h]

end Frame

end Sigil
