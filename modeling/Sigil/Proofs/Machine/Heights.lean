import Sigil.Proofs.Machine.Lines

/-!
# The height of the stack

The ways through a block that control can take, with the bytes by which the stack has grown on the way
(`Block.Path`). In a block with jumps the number of bytes could depend on the way. It does not if every jump
goes to a label at which the stack is as high as at the jump, counted line by line (`Levels`): then a line is
met at the same height on every way (`Levels.eq_of_path`).
-/

namespace Sigil.Machine

open Block List

/-- The label to which a line may jump. -/
def Line.goto? : Line → Option Label
  | .instr (.jump x) | .instr (.jumpIf _ x) => some x
  | _ => none

/-- Whether control may go on to the next line. -/
def Line.passes : Line → Bool
  | .instr (.jump _) | .instr .ret => false
  | _ => true

/-- `Path b i j k`: control can get from the line `i` of the block to the line `j` while the stack grows by
`k` bytes. -/
inductive Block.Path (b : Block) (i : Nat) : Nat → Int → Prop where
  | refl : Path b i i 0
  | next {j : Nat} {k : Int} {l : Line} (h : Path b i j k) (hl : b[j]? = some l)
    (hpasses : l.passes = true) : Path b i (j + 1) (k + l.growth)
  | jump {j j' : Nat} {k : Int} {l : Line} {x : Label} (h : Path b i j k) (hl : b[j]? = some l)
    (hx : l.goto? = some x) (hj' : b[j']? = some (.label x)) : Path b i j' k

/-- The line is met on some way from the start of the block, and on every way at the same height. -/
def Block.Always (b : Block) (i : Nat) (k : Int) : Prop :=
  Block.Path b 0 i k ∧ ∀ k', Block.Path b 0 i k' → k' = k

/-! ## Ways through a block -/

namespace Block

variable {b b' : Block} {i j m : Nat} {k k' : Int}

namespace Path

theorem trans (h : Path b i j k) (h' : Path b j m k') : Path b i m (k + k') := by
  induction h' with
  | refl => rwa [Int.add_zero]
  | next _ hl hpasses ih =>
    rw [← Int.add_assoc]
    exact ih.next hl hpasses
  | jump _ hl hx hj' ih => exact ih.jump hl hx hj'

/-- A way through a part is a way through the whole. -/
theorem embed (h : Path b i j k) (before after : Block) :
    Path (before ++ b ++ after) (before.length + i) (before.length + j) k := by
  have hget : ∀ {j l}, b[j]? = some l → (before ++ b ++ after)[before.length + j]? = some l := by
    intro j l hl
    obtain ⟨hj, -⟩ := List.getElem?_eq_some_iff.1 hl
    rw [append_assoc, getElem?_append_right (Nat.le_add_right _ _), Nat.add_sub_cancel_left,
      getElem?_append_left hj, hl]
  induction h with
  | refl => exact .refl
  | next _ hl hpasses ih => exact ih.next (hget hl) hpasses
  | jump _ hl hx hj' ih => exact ih.jump (hget hl) hx (hget hj')

end Path

/-- Control can get from the start of the block to its end while the stack grows by `k` bytes. -/
def Crosses (b : Block) (k : Int) : Prop :=
  Path b 0 b.length k

theorem crosses_nil : Crosses [] 0 :=
  .refl

theorem crosses_line {l : Line} (h : l.passes = true) : Crosses [l] l.growth := by
  have hpath : Path [l] 0 1 (0 + l.growth) := Path.refl.next rfl h
  rwa [Int.zero_add] at hpath

theorem Crosses.append (h : Crosses b k) (h' : Crosses b' k') : Crosses (b ++ b') (k + k') := by
  have hfirst := Path.embed h [] b'
  have hsecond := Path.embed h' b []
  rw [append_nil, Nat.add_zero, ← length_append] at hsecond
  simp only [nil_append, length_nil, Nat.zero_add] at hfirst
  exact hfirst.trans hsecond

/-- Control may jump over the middle of a block. -/
theorem Crosses.skip (h : Crosses b k) {l : Line} {x : Label} (hl : l.goto? = some x) (middle : Block)
    (h' : Crosses b' k') : Crosses (b ++ l :: middle ++ .label x :: b') (k + k') := by
  have hfirst := Path.embed h [] (l :: middle ++ .label x :: b')
  have hlabel : Crosses (.label x :: b') (0 + k') := (crosses_line rfl).append h'
  have hrest := Path.embed hlabel (b ++ l :: middle) []
  simp only [nil_append, length_nil, Nat.zero_add, Nat.add_zero, ← append_assoc] at hfirst
  rw [append_nil, ← length_append, Nat.add_zero, Int.zero_add] at hrest
  refine (hfirst.jump ?_ hl ?_).trans hrest
  · simp
  · simp

end Block

/-! ## Jumps -/

/-- What `m` says of the lines in front of a jump it says also of those in front of its label. A jump out of the
block goes to `outs`, and `m` says `out` in front of it. -/
def Jumps {α : Type} (outs : List Label) (b : Block) (m : Block → α) (out : α) : Prop :=
  ∀ i l x, b[i]? = some l → l.goto? = some x →
    (∃ j, b[j]? = some (.label x) ∧ m (b.take j) = m (b.take i)) ∨ x ∈ outs ∧ m (b.take i) = out

namespace Jumps

variable {α : Type} {outs outs' : List Label} {b b' : Block} {m : Block → α} {out : α} {x : Label}

theorem nil : Jumps outs [] m out :=
  fun _ _ _ hl => by cases hl

theorem mono (h : Jumps outs b m out) (houts : outs ⊆ outs') : Jumps outs' b m out :=
  fun i l x hl hx => (h i l x hl hx).imp id fun hout => ⟨houts hout.1, hout.2⟩

/-- A single line, which may jump out. -/
theorem line {l : Line} (h : ∀ x, l.goto? = some x → x ∈ outs ∧ m [] = out) : Jumps outs [l] m out := by
  intro i l' x hl hx
  obtain ⟨hi, hl⟩ := List.getElem?_eq_some_iff.1 hl
  obtain rfl : i = 0 := Nat.lt_one_iff.1 hi
  obtain rfl : l = l' := hl
  exact Or.inr (h x hx)

/-- The second block is measured with the first in front of it. -/
theorem append (h : Jumps outs b m out) (h' : Jumps outs b' (fun p => m (b ++ p)) out) :
    Jumps outs (b ++ b') m out := by
  have hleft : ∀ {i l}, b[i]? = some l → (b ++ b')[i]? = some l ∧ (b ++ b').take i = b.take i := by
    intro i l hl
    obtain ⟨hi, -⟩ := List.getElem?_eq_some_iff.1 hl
    exact ⟨by rw [getElem?_append_left hi, hl], take_append_of_le_length (Nat.le_of_lt hi)⟩
  intro i l x hl hx
  rcases Nat.lt_or_ge i b.length with hi | hi
  · -- a jump in the first block
    rw [getElem?_append_left hi] at hl
    rw [(hleft hl).2]
    refine (h i l x hl hx).imp (fun ⟨j, hj, heq⟩ => ⟨j, (hleft hj).1, ?_⟩) id
    rw [(hleft hj).2, heq]
  · -- a jump in the second
    obtain ⟨i, rfl⟩ := Nat.exists_eq_add_of_le hi
    rw [getElem?_append_right hi, Nat.add_sub_cancel_left] at hl
    rw [take_length_add_append]
    refine (h' i l x hl hx).imp (fun ⟨j, hj, heq⟩ => ⟨b.length + j, ?_, ?_⟩) id
    · rw [getElem?_append_right (Nat.le_add_right _ _), Nat.add_sub_cancel_left, hj]
    · rw [take_length_add_append]
      exact heq

/-- A label inside a block is no longer outside. -/
theorem enclose (h : Jumps (x :: outs) (b ++ .label x :: b') m out) (hb : m b = out) :
    Jumps outs (b ++ .label x :: b') m out := by
  intro i l y hl hy
  rcases h i l y hl hy with hin | ⟨hmem, heq⟩
  · exact Or.inl hin
  · rcases mem_cons.1 hmem with rfl | hmem
    · refine Or.inl ⟨b.length, by simp, ?_⟩
      rw [take_left, hb, heq]
    · exact Or.inr ⟨hmem, heq⟩

end Jumps

theorem eq_of_label {b : Block} (h : (labels b).Nodup) {i j : Nat} {x : Label}
    (hi : b[i]? = some (.label x)) (hj : b[j]? = some (.label x)) : i = j := by
  have hdistinct := pairwise_filterMap.1 h
  rw [pairwise_iff_getElem] at hdistinct
  obtain ⟨hilt, hi⟩ := List.getElem?_eq_some_iff.1 hi
  obtain ⟨hjlt, hj⟩ := List.getElem?_eq_some_iff.1 hj
  rcases Nat.lt_trichotomy i j with hlt | heq | hlt
  · exact absurd rfl (hdistinct i j hilt hjlt hlt x (by rw [hi]; rfl) x (by rw [hj]; rfl))
  · exact heq
  · exact absurd rfl (hdistinct j i hjlt hilt hlt x (by rw [hj]; rfl) x (by rw [hi]; rfl))

/-! ## Heights of lines -/

namespace Block

/-- The bytes by which a block makes the stack grow, line by line. -/
def depth : Block → Int
  | [] => 0
  | l :: b => l.growth + depth b

theorem depth_append (b b' : Block) : depth (b ++ b') = depth b + depth b' := by
  induction b with
  | nil => exact (Int.zero_add _).symm
  | cons l b ih => rw [cons_append, depth, depth, ih, Int.add_assoc]

theorem depth_line (l : Line) : depth [l] = l.growth :=
  Int.add_zero _

end Block

/-- Jumps agree with the running depth, which is `n` at the end of the block. -/
structure Levels (outs : List Label) (b : Block) (n : Int) : Prop where
  jumps : Jumps outs b Block.depth 0
  depth : Block.depth b = n

namespace Levels

variable {outs outs' : List Label} {b b' : Block} {n n' : Int} {x : Label}

theorem nil : Levels outs [] 0 :=
  ⟨.nil, rfl⟩

theorem mono (h : Levels outs b n) (houts : outs ⊆ outs') : Levels outs' b n :=
  ⟨h.jumps.mono houts, h.depth⟩

theorem line {l : Line} (h : ∀ x, l.goto? = some x → x ∈ outs) : Levels outs [l] l.growth :=
  ⟨.line fun x hx => ⟨h x hx, rfl⟩, depth_line l⟩

/-- A second block may jump out if nothing is on the stack where it starts. -/
theorem append (h : Levels outs b n) (h' : Levels outs' b' n') (houts : ∀ x ∈ outs', x ∈ outs ∧ n = 0) :
    Levels outs (b ++ b') (n + n') := by
  refine ⟨h.jumps.append fun i l x hl hx => ?_, by rw [depth_append, h.depth, h'.depth]⟩
  simp only [depth_append, h.depth]
  refine (h'.jumps i l x hl hx).imp (fun ⟨j, hj, heq⟩ => ⟨j, hj, by rw [heq]⟩) fun ⟨hmem, heq⟩ => ?_
  obtain ⟨hout, rfl⟩ := houts x hmem
  exact ⟨hout, by rw [heq]; rfl⟩

/-- One block behind another that leaves nothing on the stack. -/
theorem andThen (h : Levels outs b 0) (h' : Levels outs b' n) : Levels outs (b ++ b') n := by
  have happend := h.append h' fun _ hx => ⟨hx, rfl⟩
  rwa [Int.zero_add] at happend

/-- A label inside a block is no longer outside. -/
theorem enclose (h : Levels (x :: outs) b 0) (h' : Levels (x :: outs) b' n) :
    Levels outs (b ++ .label x :: b') n := by
  have hlabel : Levels (x :: outs) [.label x] 0 := line fun _ hx => by cases hx
  have hall := h.andThen (hlabel.andThen h')
  exact ⟨hall.jumps.enclose h.depth, hall.depth⟩

/-- A line is met at the same height on every way. -/
theorem eq_of_path (h : Levels [] b n) (hlabels : (labels b).Nodup) {i : Nat} {k : Int}
    (hpath : Path b 0 i k) : k = Block.depth (b.take i) := by
  induction hpath with
  | refl => rfl
  | next _ hl _ ih =>
    rw [take_add_one, hl, Option.toList_some, depth_append, depth_line, ih]
  | jump _ hl hx hj' ih =>
    rcases h.jumps _ _ _ hl hx with ⟨j, hj, heq⟩ | ⟨hmem, -⟩
    · rw [ih, ← heq, eq_of_label hlabels hj' hj]
    · cases hmem

/-- Between two blocks that jump nowhere the stack is always at the height of the first. -/
theorem always_append (h : Levels [] b n) (h' : Levels [] b' n') (hcross : Crosses b n)
    (hlabels : (labels (b ++ b')).Nodup) : Always (b ++ b') b.length n := by
  refine ⟨?_, fun k hk => ?_⟩
  · have hpath := Block.Path.embed hcross [] b'
    simpa using hpath
  · have hboth := h.append h' fun _ hx => by cases hx
    rw [hboth.eq_of_path hlabels hk, take_left, h.depth]

end Levels

end Sigil.Machine
