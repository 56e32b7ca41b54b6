import Sigil.Proofs.Stores

/-!
# Sizes of types

The size of a type is a matter of the layouts that are kept (`Ty.sizeIn?`). The fields of a struct, of the sizes
they had when they were laid out, lie side by side in the struct (`Layout.Packed`), and no object is larger than
the largest one. Since what is kept stays, this holds for good (`Layout.Packed.within`).
-/

namespace Sigil

variable {layouts : Assoc Layout} {n : Nat}

/-- The size of a type by the given layouts. -/
def Ty.sizeIn? (layouts : Assoc Layout) : Ty → Option Nat
  | .array length elem =>
    (elem.sizeIn? layouts).bind fun size =>
      if length * size ≤ maxObject then some (length * size) else none
  | .struct x => (layouts.get? x).map (·.size)
  | t => some (t.scalarSize?.getD 0)

/-- The fields lie side by side, the first of them at `start`, and the last of them ends at `stop`. -/
def Layout.Tiles (layouts : Assoc Layout) (start : Nat) : List Field → Nat → Prop
  | [], stop => start = stop
  | f :: fields, stop =>
    f.offset = start ∧ ∃ n, f.ty.sizeIn? layouts = some n ∧ Tiles layouts (start + n) fields stop

theorem Layout.Tiles.append {start mid stop : Nat} {fields more : List Field}
    (h : Tiles layouts start fields mid) (h' : Tiles layouts mid more stop) :
    Tiles layouts start (fields ++ more) stop := by
  induction fields generalizing start with
  | nil =>
    obtain rfl : start = mid := h
    exact h'
  | cons f fields ih =>
    obtain ⟨hf, n, hn, hrest⟩ := h
    exact ⟨hf, n, hn, ih hrest⟩

/-- The fields fill the struct, so each of them lies inside it, and the struct is not too large. -/
structure Layout.Packed (layouts : Assoc Layout) (l : Layout) : Prop where
  size_le : l.size ≤ maxObject
  field : ∀ f ∈ l.fields, ∃ n, f.ty.sizeIn? layouts = some n ∧ f.offset + n ≤ l.size
  tiles : Tiles layouts 0 l.fields l.size

/-- All structs are packed. -/
def Packed (layouts : Assoc Layout) : Prop :=
  ∀ {x : String} {l : Layout}, layouts.get? x = some l → l.Packed layouts

/-- The size of a struct is that of its layout. -/
@[simp] theorem Ty.sizeIn?_struct (layouts : Assoc Layout) (x : String) :
    (Ty.struct x).sizeIn? layouts = (layouts.get? x).map (·.size) := rfl

theorem Ty.sizeIn?_array {length : Nat} {elem : Ty} :
    (Ty.array length elem).sizeIn? layouts = some n ↔
      ∃ size, elem.sizeIn? layouts = some size ∧ n = length * size ∧ n ≤ maxObject := by
  rw [sizeIn?, Option.bind_eq_some_iff]
  constructor
  · rintro ⟨size, hsize, h⟩
    split at h
    · next hle =>
      obtain rfl := Option.some.inj h
      exact ⟨size, hsize, rfl, hle⟩
    · cases h
  · rintro ⟨size, hsize, rfl, hle⟩
    exact ⟨size, hsize, if_pos hle⟩

/-- No aggregate is larger than the largest object. -/
theorem Packed.size_le (h : Packed layouts) {t : Ty}
    (ht : t.isAggregate = true) (hn : t.sizeIn? layouts = some n) : n ≤ maxObject := by
  cases t with
  | array length elem =>
    obtain ⟨size, -, -, hle⟩ := Ty.sizeIn?_array.1 hn
    exact hle
  | struct x =>
    obtain ⟨l, hl, rfl⟩ := Option.map_eq_some_iff.1 hn
    exact (h hl).size_le
  | _ => cases ht

/-! ## Layouts stay as they are -/

section

variable {s s' : Memo}
variable {l : Layout}

/-- A type keeps its size. -/
theorem Memo.Within.sizeIn? (h : s.Within s') {t : Ty} (hn : t.sizeIn? s.layouts = some n) :
    t.sizeIn? s'.layouts = some n := by
  induction t generalizing n with
  | array length elem ih =>
    obtain ⟨size, hsize, rfl, hle⟩ := Ty.sizeIn?_array.1 hn
    exact Ty.sizeIn?_array.2 ⟨size, ih hsize, rfl, hle⟩
  | struct x =>
    obtain ⟨l, hl, rfl⟩ := Option.map_eq_some_iff.1 hn
    exact Option.map_eq_some_iff.2 ⟨l, h .layouts x l hl, rfl⟩
  | _ => exact hn

theorem Layout.Tiles.within (h : s.Within s') {start stop : Nat} {fields : List Field}
    (hf : Tiles s.layouts start fields stop) : Tiles s'.layouts start fields stop := by
  induction fields generalizing start with
  | nil => exact hf
  | cons f fields ih =>
    obtain ⟨hoffset, n, hn, hrest⟩ := hf
    exact ⟨hoffset, n, h.sizeIn? hn, ih hrest⟩

theorem Layout.Packed.within (hl : l.Packed s.layouts) (h : s.Within s') :
    l.Packed s'.layouts := by
  refine ⟨hl.size_le, fun f hf => ?_, hl.tiles.within h⟩
  obtain ⟨n, hn, hle⟩ := hl.field f hf
  exact ⟨n, h.sizeIn? hn, hle⟩

/-- One more field comes behind all others and ends where the struct ends. -/
theorem Layout.Packed.append (hl : l.Packed layouts) {t : Ty}
    (hn : t.sizeIn? layouts = some n) (hle : l.size + n ≤ maxObject) (x : String) :
    (l.append x t n).Packed layouts := by
  refine ⟨hle, fun f hf => ?_, hl.tiles.append ⟨rfl, n, hn, rfl⟩⟩
  rcases List.mem_append.1 hf with hf | hf
  · obtain ⟨k, hk, hend⟩ := hl.field f hf
    exact ⟨k, hk, Nat.le_add_right_of_le hend⟩
  · rw [List.mem_singleton.1 hf]
    exact ⟨n, hn, Nat.le_refl _⟩

end

end Sigil
