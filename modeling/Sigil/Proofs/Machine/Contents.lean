import Sigil.Proofs.Machine.Heights

/-!
# The contents of the stack

What is on the stack while a block runs, cell by cell, each with the line that has put it there. A line
that takes off what is not there, or a part of a cell, is stuck (`Line.effect`). Read from the first line
to the last, whatever the jumps, a block gives contents to each of its lines (`Block.carry`), and their
size is the running depth of the pushes (`Block.depth`). If every jump goes to a line with the same
contents (`Stacks`), then each way that control can take through the block finds those contents
(`Stacks.contents_of_holds`). A word is popped by the line that matches its push, as brackets match
(`Block.Matches`).
-/

namespace Sigil.Machine

open Block List

variable {i : Nat} {l : Line}

/-! ## Cells -/

/-- What is put on the stack at once: a word, or room for a number of bytes. -/
inductive Form where
  | word
  | room (size : Nat)
deriving DecidableEq, Repr

/-- The number of bytes. -/
def Form.size : Form → Nat
  | .word => 8
  | .room n => n

/-- Something on the stack, and the line that has put it there. -/
structure Cell where
  line : Nat
  form : Form
deriving DecidableEq, Repr

/-- What is on the stack, the top first. -/
abbrev Contents := List Cell

namespace Contents

/-- The number of bytes on the stack. -/
def size : Contents → Nat
  | [] => 0
  | c :: st => c.form.size + size st

/-- Makes room for some bytes. -/
def reserve (i n : Nat) (st : Contents) : Contents :=
  if n = 0 then st else ⟨i, .room n⟩ :: st

/-- Takes bytes off the stack, which have to be whole cells. -/
def drop : Contents → Nat → Option Contents
  | st, 0 => some st
  | [], _ + 1 => none
  | c :: st, n + 1 => if c.form.size ≤ n + 1 then drop st (n + 1 - c.form.size) else none

/-- Takes off the word on top. -/
def pop : Contents → Option Contents
  | ⟨_, .word⟩ :: st => some st
  | _ => none

theorem size_append (cells st : Contents) : size (cells ++ st) = size cells + size st := by
  induction cells with
  | nil => exact (Nat.zero_add _).symm
  | cons c cells ih => rw [cons_append, size, size, ih, Nat.add_assoc]

/-- What is taken off is whole cells of that size. -/
theorem drop_eq_some {st st' : Contents} {n : Nat} (h : drop st n = some st') :
    ∃ cells, st = cells ++ st' ∧ size cells = n := by
  induction st generalizing n with
  | nil =>
    cases n with
    | zero => exact ⟨[], Option.some.inj h, rfl⟩
    | succ n => cases h
  | cons c st ih =>
    cases n with
    | zero => exact ⟨[], Option.some.inj h, rfl⟩
    | succ n =>
      rw [drop] at h
      split at h
      · next hle =>
        obtain ⟨cells, rfl, hsize⟩ := ih h
        exact ⟨c :: cells, rfl, by rw [size]; omega⟩
      · cases h

/-- Cells that hold something can be taken off together. -/
theorem drop_append {cells : Contents} (hpos : ∀ c ∈ cells, 0 < c.form.size) (st : Contents) :
    drop (cells ++ st) (size cells) = some st := by
  induction cells with
  | nil =>
    rw [size, nil_append, drop]
  | cons c cells ih =>
    obtain ⟨hc, hrest⟩ := forall_mem_cons.1 hpos
    obtain ⟨n, hn⟩ := Nat.exists_eq_add_of_lt hc
    have hsize : size (c :: cells) = (n + size cells) + 1 := by rw [size]; omega
    rw [cons_append, hsize, drop, if_pos (by omega), ← ih hrest]
    congr 1
    omega

end Contents

/-! ## What lines do to the stack -/

/-- What an instruction in the line `i` makes of the contents of the stack, if it is not stuck. -/
def Instruction.effect (i : Nat) : Instruction → Contents → Option Contents
  | .push _, st => some (⟨i, .word⟩ :: st)
  | .pop _, st => Contents.pop st
  | .arith .sub (.imm n) .rsp, st => if 0 ≤ n then some (Contents.reserve i n.toNat st) else none
  | .arith .add (.imm n) .rsp, st => if 0 ≤ n then Contents.drop st n.toNat else none
  | _, st => some st

/-- What a line makes of the contents of the stack. -/
def Line.effect (i : Nat) : Line → Contents → Option Contents
  | .instr ins, st => ins.effect i st
  | _, st => some st

/-- A line either puts one cell of its own on the stack, a word only if it pushes, or takes cells off,
and the stack grows by what that makes. -/
theorem Line.effect_cases {st st' : Contents} (h : l.effect i st = some st') :
    (∃ f, st' = ⟨i, f⟩ :: st ∧ l.growth = f.size ∧ (f = .word → ∃ o, l = .instr (.push o))) ∨
      ∃ cells, st = cells ++ st' ∧ l.growth = -Contents.size cells := by
  cases l with
  | instr ins =>
    unfold Line.effect Instruction.effect at h
    unfold Line.growth Instruction.growth
    dsimp only at h ⊢
    split at h
    · -- push: a word
      exact Or.inl ⟨.word, (Option.some.inj h).symm, rfl, fun _ => ⟨_, rfl⟩⟩
    · -- pop: off with a word
      unfold Contents.pop at h
      split at h
      · next line st => exact Or.inr ⟨[⟨line, .word⟩], by rw [← Option.some.inj h]; rfl, rfl⟩
      · cases h
    · -- sub: room, unless it is for nothing
      split at h
      · rw [← Option.some.inj h, Contents.reserve]
        split
        · exact Or.inr ⟨[], rfl, by simp only [Contents.size]; omega⟩
        · exact Or.inl ⟨_, rfl, by simp only [Form.size]; omega, fun hroom => by cases hroom⟩
      · cases h
    · -- add: off with whole cells
      split at h
      · obtain ⟨cells, hst, hsize⟩ := Contents.drop_eq_some h
        exact Or.inr ⟨cells, hst, by simp only; omega⟩
      · cases h
    · next hpush hpop hsub hadd =>
      refine Or.inr ⟨[], Option.some.inj h, ?_⟩
      split
      · exact absurd rfl (hpush _)
      · exact absurd rfl (hpop _)
      · exact absurd rfl (hsub _)
      · exact absurd rfl (hadd _)
      · rfl
  | _ => exact Or.inr ⟨[], Option.some.inj h, rfl⟩

/-- The contents grow by as much as the stack does. -/
theorem Line.size_effect {st st' : Contents} (h : l.effect i st = some st') :
    (Contents.size st' : Int) = Contents.size st + l.growth := by
  rcases Line.effect_cases h with ⟨f, rfl, hgrowth, -⟩ | ⟨cells, rfl, hgrowth⟩
  · simp only [hgrowth, Contents.size]
    omega
  · rw [hgrowth, Contents.size_append]
    omega

/-- A quiet line leaves the stack as it is. -/
theorem Line.Quiet.effect (h : l.Quiet) (i : Nat) (st : Contents) :
    l.effect i st = some st := by
  have hstack := h.stack
  cases l with
  | instr ins =>
    unfold Line.effect Instruction.effect
    dsimp only
    split
    -- The first four change the stack pointer.
    · cases hstack
    · cases hstack
    · cases hstack
    · cases hstack
    · rfl
  | _ => rfl

/-- Only a push leaves a word. -/
theorem Line.eq_push_of_effect {j : Nat} {st : Contents}
    (h : l.effect i st = some (⟨j, .word⟩ :: st)) : ∃ o, l = .instr (.push o) := by
  rcases Line.effect_cases h with ⟨f, hst, -, hpush⟩ | ⟨cells, hst, -⟩
  · cases hst
    exact hpush rfl
  · have hlength := congrArg length hst
    rw [length_append, length_cons] at hlength
    omega

/-! ## Blocks, line by line -/

namespace Block

variable {st : Contents} {b : Block} {j : Nat}

/-- The contents of the stack behind a block of which the first line is line `i`. -/
def carry : Nat → Block → Contents → Option Contents
  | _, [], st => some st
  | i, l :: b, st => (l.effect i st).bind (carry (i + 1) b)

theorem carry_append (i : Nat) (b b' : Block) (st : Contents) :
    carry i (b ++ b') st = (carry i b st).bind (carry (i + b.length) b') := by
  induction b generalizing i st with
  | nil => rfl
  | cons l b ih =>
    rw [cons_append, carry, carry, Option.bind_assoc, length_cons]
    congr 1
    funext st'
    rw [ih, Nat.add_assoc, Nat.add_comm 1]

theorem carry_line (i : Nat) (l : Line) (st : Contents) : carry i [l] st = l.effect i st := by
  rw [carry]
  cases l.effect i st <;> rfl

theorem size_carry {st' : Contents} (h : carry i b st = some st') :
    (Contents.size st' : Int) = Contents.size st + depth b := by
  induction b generalizing i st with
  | nil =>
    rw [← Option.some.inj h]
    exact (Int.add_zero _).symm
  | cons l b ih =>
    obtain ⟨st1, hl, hb⟩ := Option.bind_eq_some_iff.1 h
    rw [ih hb, Line.size_effect hl, depth, Int.add_assoc]

/-- The contents of the stack in front of a line, read from the first line on. -/
def contents (b : Block) (i : Nat) : Option Contents :=
  carry 0 (b.take i) []

theorem contents_succ (hl : b[i]? = some l) :
    contents b (i + 1) = (contents b i).bind (l.effect i) := by
  obtain ⟨hi, -⟩ := List.getElem?_eq_some_iff.1 hl
  unfold contents
  rw [take_add_one, hl, Option.toList_some, carry_append, length_take,
    Nat.min_eq_left (Nat.le_of_lt hi), Nat.zero_add]
  congr 1
  funext st
  exact carry_line i l st

/-- If nothing is stuck up to some line, nothing is before. -/
theorem contents_of_le (h : contents b j = some st)
    (hij : i ≤ j) : ∃ st', contents b i = some st' := by
  have hsplit : b.take j = b.take i ++ (b.take j).drop i := by
    have hparts := take_append_drop i (b.take j)
    rw [take_take, Nat.min_eq_left hij] at hparts
    exact hparts.symm
  unfold contents at h ⊢
  rw [hsplit, carry_append] at h
  obtain ⟨st', hst', -⟩ := Option.bind_eq_some_iff.1 h
  exact ⟨st', hst'⟩

theorem size_contents (h : contents b i = some st) :
    (Contents.size st : Int) = depth (b.take i) := by
  rw [size_carry h]
  exact Int.zero_add _

/-- Two lines belong together like brackets: the first pushes a word and the second pops one at the same
depth, and the stack has been higher all the way between. -/
structure Matches (b : Block) (i j : Nat) : Prop where
  push : ∃ o, b[i]? = some (.instr (.push o))
  pop : ∃ r, b[j]? = some (.pop r)
  lt : i < j
  depth_eq : depth (b.take j) = depth (b.take i) + 8
  above : ∀ k, i < k → k ≤ j → depth (b.take i) + 8 ≤ depth (b.take k)

/-- A cell has been put on the stack by its line, and all that lies below it has not changed since. -/
theorem founded (hj : j ≤ b.length)
    (h : contents b j = some st) {top below : Contents} {c : Cell} (hst : st = top ++ c :: below) :
    c.line < j ∧ contents b c.line = some below ∧
      (∃ l, b[c.line]? = some l ∧ l.effect c.line below = some (c :: below)) ∧
      ∀ k, c.line < k → k ≤ j → ∃ top', contents b k = some (top' ++ c :: below) := by
  induction j generalizing st top with
  | zero =>
    have hnil : st = [] := (Option.some.inj h).symm
    rw [hnil] at hst
    exact absurd hst.symm (append_ne_nil_of_right_ne_nil _ (cons_ne_nil _ _))
  | succ j ih =>
    obtain ⟨l, hl⟩ : ∃ l, b[j]? = some l := ⟨_, getElem?_eq_getElem hj⟩
    have hnext := h
    rw [contents_succ hl] at hnext
    obtain ⟨st0, hst0, heffect⟩ := Option.bind_eq_some_iff.1 hnext
    -- A cell that was there before has been put there before.
    have hbefore : ∀ {top0 : Contents}, st0 = top0 ++ c :: below → c.line < j + 1 ∧
        contents b c.line = some below ∧
        (∃ l, b[c.line]? = some l ∧ l.effect c.line below = some (c :: below)) ∧
        ∀ k, c.line < k → k ≤ j + 1 → ∃ top', contents b k = some (top' ++ c :: below) := by
      intro top0 htop
      obtain ⟨hlt, hbelow, hput, hkept⟩ := ih (Nat.le_of_lt hj) hst0 htop
      refine ⟨Nat.lt_succ_of_lt hlt, hbelow, hput, fun k hk hkj => ?_⟩
      rcases Nat.lt_or_ge j k with hjk | hjk
      · obtain rfl : k = j + 1 := by omega
        exact ⟨top, hst ▸ h⟩
      · exact hkept k hk hjk
    rcases Line.effect_cases heffect with ⟨f, hcons, -⟩ | ⟨cells, hcells, -⟩
    · cases top with
      | nil =>
        have hboth : c = ⟨j, f⟩ ∧ below = st0 := by
          rw [hcons] at hst
          injection hst with hc hbelow
          exact ⟨hc.symm, hbelow.symm⟩
        obtain ⟨rfl, rfl⟩ := hboth
        refine ⟨Nat.lt_succ_self j, hst0, ⟨l, hl, hcons ▸ heffect⟩, fun k hk hkj => ?_⟩
        obtain rfl : k = j + 1 := Nat.le_antisymm hkj hk
        exact ⟨[], hst ▸ h⟩
      | cons c' top =>
        rw [hcons] at hst
        injection hst with _ htail
        exact hbefore htail
    · rw [hst, ← append_assoc] at hcells
      exact hbefore hcells

/-- The word on top of the stack is popped by the line that matches its push. -/
theorem matches_of_contents {r : Register}
    (hpop : b[j]? = some (.pop r)) (h : contents b j = some (⟨i, .word⟩ :: st)) : Matches b i j := by
  obtain ⟨hj, -⟩ := List.getElem?_eq_some_iff.1 hpop
  obtain ⟨hlt, hbelow, ⟨l, hl, heffect⟩, hkept⟩ := founded (Nat.le_of_lt hj) h (nil_append _).symm
  obtain ⟨o, rfl⟩ := Line.eq_push_of_effect heffect
  have hi := size_contents hbelow
  refine ⟨⟨o, hl⟩, ⟨r, hpop⟩, hlt, ?_, fun k hk hkj => ?_⟩
  · rw [← size_contents h, ← hi]
    simp only [Contents.size, Form.size]
    omega
  · obtain ⟨top, htop⟩ := hkept k hk hkj
    rw [← size_contents htop, ← hi, Contents.size_append]
    simp only [Contents.size, Form.size]
    omega

/-! ## Ways through a block -/

/-- `Holds b i st`: control can get from the start of the block to the line `i` with `st` on the stack. -/
inductive Holds (b : Block) : Nat → Contents → Prop where
  | start : Holds b 0 []
  | next {i : Nat} {st st' : Contents} {l : Line} (h : Holds b i st) (hl : b[i]? = some l)
    (hpasses : l.passes = true) (heffect : l.effect i st = some st') : Holds b (i + 1) st'
  | jump {i j : Nat} {st : Contents} {l : Line} {x : Label} (h : Holds b i st) (hl : b[i]? = some l)
    (hx : l.goto? = some x) (hj : b[j]? = some (.label x)) : Holds b j st

/-- The stack is used in an orderly way. -/
structure Disciplined (b : Block) : Prop where
  /-- The running depth is never negative. -/
  nonneg : ∀ i, 0 ≤ depth (b.take i)
  /-- A jump goes to one line, which is at the same depth. -/
  jump : ∀ {i l x}, b[i]? = some l → l.goto? = some x →
    ∃ j, b[j]? = some (.label x) ∧ depth (b.take j) = depth (b.take i) ∧
      ∀ j', b[j']? = some (.label x) → j' = j
  /-- On every way to a line the stack is as high as the depth says, and the line is not stuck. -/
  safe : ∀ {i st l}, Holds b i st → b[i]? = some l →
    (Contents.size st : Int) = depth (b.take i) ∧ ∃ st', l.effect i st = some st'
  /-- On every way to it, a line that pops a word finds the one that the matching line has pushed. -/
  pop : ∀ {j st r}, Holds b j st → b[j]? = some (.pop r) →
    ∃ i rest, st = ⟨i, .word⟩ :: rest ∧ Matches b i j

end Block

/-- Wherever the block stands, it takes cells of the forms `pre` off the stack and leaves cells of the
forms `post` in their place. A jump finds its label with the same contents of the stack as it has itself;
where it goes out to `outs`, nothing is left of all that. -/
structure Stacks (outs : List Label) (pre : List Form) (b : Block) (post : List Form) : Prop where
  leaves : ∀ i (cells : Contents) st, cells.map Cell.form = pre →
    ∃ cells' : Contents, Block.carry i b (cells ++ st) = some (cells' ++ st) ∧
      cells'.map Cell.form = post
  jumps : ∀ i (cells : Contents) st, cells.map Cell.form = pre →
    Jumps outs b (Block.carry i · (cells ++ st)) (some st)

namespace Stacks

variable {outs outs' : List Label} {b b' : Block} {pre mid post forms : List Form} {x : Label} {l : Line}

theorem nil : Stacks outs forms [] forms :=
  ⟨fun _ cells _ hforms => ⟨cells, rfl, hforms⟩, fun _ _ _ _ => .nil⟩

theorem mono (h : Stacks outs pre b post) (houts : outs ⊆ outs') : Stacks outs' pre b post :=
  ⟨h.leaves, fun i cells st hforms => (h.jumps i cells st hforms).mono houts⟩

/-- A block that takes and leaves nothing leaves the stack as it was. -/
theorem carry_eq (h : Stacks outs [] b []) (i : Nat) (st : Contents) :
    carry i b st = some st := by
  obtain ⟨cells, hcarry, hforms⟩ := h.leaves i [] st rfl
  rw [map_eq_nil_iff.1 hforms] at hcarry
  exact hcarry

theorem depth_eq (h : Stacks outs [] b []) : depth b = 0 := by
  have hsize := size_carry (h.carry_eq 0 [])
  omega

/-- What lies below is left alone by a block that does not jump out. -/
theorem frame (h : Stacks [] pre b post) (forms : List Form) :
    Stacks outs (pre ++ forms) b (post ++ forms) := by
  refine ⟨fun i cells st hforms => ?_, fun i cells st hforms k l x hl hx => ?_⟩
  · obtain ⟨above, below, rfl, habove, rfl⟩ := map_eq_append_iff.1 hforms
    obtain ⟨cells', hcarry, rfl⟩ := h.leaves i above (below ++ st) habove
    exact ⟨cells' ++ below, by rw [append_assoc, hcarry, append_assoc], map_append⟩
  · obtain ⟨above, below, rfl, habove, rfl⟩ := map_eq_append_iff.1 hforms
    rw [append_assoc]
    rcases h.jumps i above (below ++ st) habove k l x hl hx with hin | ⟨hmem, -⟩
    · exact Or.inl hin
    · cases hmem

/-- The same where the block takes nothing. -/
theorem above (h : Stacks [] [] b post) (forms : List Form) : Stacks outs forms b (post ++ forms) :=
  h.frame forms

/-- One block behind another. -/
theorem append (h : Stacks outs pre b mid) (h' : Stacks outs mid b' post) :
    Stacks outs pre (b ++ b') post := by
  refine ⟨fun i cells st hforms => ?_, fun i cells st hforms => (h.jumps i cells st hforms).append ?_⟩
  · obtain ⟨cells1, hcarry, hmid⟩ := h.leaves i cells st hforms
    rw [carry_append, hcarry, Option.bind_some]
    exact h'.leaves (i + b.length) cells1 st hmid
  · obtain ⟨cells1, hcarry, hmid⟩ := h.leaves i cells st hforms
    simp only [carry_append, hcarry, Option.bind_some]
    exact h'.jumps (i + b.length) cells1 st hmid

/-- A label inside a block is no longer outside. -/
theorem enclose (h : Stacks (x :: outs) [] b []) (h' : Stacks (x :: outs) [] b' []) :
    Stacks outs [] (b ++ .label x :: b') [] := by
  have hlabel : Stacks (x :: outs) [] [.label x] [] :=
    ⟨fun i cells st hforms => ⟨cells, rfl, hforms⟩, fun i cells st _ => .line fun _ hy => by cases hy⟩
  have hall : Stacks (x :: outs) [] (b ++ .label x :: b') [] := h.append (hlabel.append h')
  refine ⟨hall.leaves, fun i cells st hforms => (hall.jumps i cells st hforms).enclose ?_⟩
  rw [map_eq_nil_iff.1 hforms]
  exact h.carry_eq i st

/-! ### Single lines -/

/-- A line that does not jump. -/
theorem line (hgoto : l.goto? = none) (h : ∀ i (cells : Contents) st, cells.map Cell.form = pre →
      ∃ cells' : Contents, l.effect i (cells ++ st) = some (cells' ++ st) ∧
        cells'.map Cell.form = post) :
    Stacks outs pre [l] post := by
  refine ⟨fun i cells st hforms => ?_, fun i cells st _ => .line fun x hx => ?_⟩
  · rw [carry_line]
    exact h i cells st hforms
  · rw [hgoto] at hx
    cases hx

/-- A line that neither jumps nor changes the stack. -/
theorem still (hgoto : l.goto? = none) (h : ∀ i st, l.effect i st = some st) :
    Stacks outs forms [l] forms :=
  line hgoto fun i cells st hforms => ⟨cells, h i (cells ++ st), hforms⟩

/-- A line that jumps out, perhaps. -/
theorem leap (hx : l.goto? = some x) (hmem : x ∈ outs) (h : ∀ i st, l.effect i st = some st) :
    Stacks outs [] [l] [] := by
  refine ⟨fun i cells st hforms => ⟨cells, ?_, hforms⟩, fun i cells st hforms => .line fun y hy => ?_⟩
  · rw [carry_line, h]
  · obtain rfl : x = y := Option.some.inj (hx.symm.trans hy)
    obtain rfl := map_eq_nil_iff.1 hforms
    exact ⟨hmem, rfl⟩

theorem push (o : Operand) : Stacks outs forms [.instr (.push o)] (.word :: forms) :=
  line rfl fun i cells st hforms => ⟨⟨i, .word⟩ :: cells, rfl, by rw [map_cons, hforms]⟩

theorem pop (r : Register) : Stacks outs (.word :: forms) [.pop r] forms := by
  refine line rfl fun i cells st hforms => ?_
  obtain ⟨⟨j, f⟩, cells, rfl, rfl, rfl⟩ := map_eq_cons_iff.1 hforms
  exact ⟨cells, rfl, rfl⟩

/-- The cells of an area of the given size, none if it is empty. -/
def rooms (n : Nat) : List Form :=
  if n = 0 then [] else [.room n]

theorem reserve (n : Nat) : Stacks outs forms [.sub (.imm n) .rsp] (rooms n ++ forms) := by
  refine line rfl fun i cells st hforms => ?_
  refine ⟨Contents.reserve i n cells, ?_, ?_⟩
  · change (if (0 : Int) ≤ n then some (Contents.reserve i (n : Int).toNat (cells ++ st)) else none) = _
    rw [if_pos (Int.natCast_nonneg n), Int.toNat_natCast]
    unfold Contents.reserve
    split <;> rfl
  · unfold Contents.reserve rooms
    split
    · exact hforms
    · rw [map_cons, hforms]
      rfl

/-- The number of bytes in cells of the given forms. -/
def bytes : List Form → Nat
  | [] => 0
  | f :: forms => f.size + bytes forms

theorem bytes_append (forms forms' : List Form) : bytes (forms ++ forms') = bytes forms + bytes forms' := by
  induction forms with
  | nil => exact (Nat.zero_add _).symm
  | cons f forms ih => rw [cons_append, bytes, bytes, ih, Nat.add_assoc]

theorem bytes_rooms (n : Nat) : bytes (rooms n) = n := by
  unfold rooms
  split
  · next h => exact h.symm
  · rfl

theorem size_eq_bytes (cells : Contents) : Contents.size cells = bytes (cells.map Cell.form) := by
  induction cells with
  | nil => rfl
  | cons c cells ih => rw [Contents.size, map_cons, bytes, ih]

/-- Cells that hold something are taken off together. -/
theorem drop (hpos : ∀ f ∈ pre, 0 < f.size) :
    Stacks outs (pre ++ forms) [.add (.imm (bytes pre)) .rsp] forms := by
  refine line rfl fun i cells st hforms => ?_
  obtain ⟨above, below, rfl, rfl, rfl⟩ := map_eq_append_iff.1 hforms
  refine ⟨below, ?_, rfl⟩
  rw [← size_eq_bytes, append_assoc]
  change (if (0 : Int) ≤ Contents.size above then
    Contents.drop (above ++ (below ++ st)) (Contents.size above : Int).toNat else none) = _
  rw [if_pos (Int.natCast_nonneg _), Int.toNat_natCast]
  exact Contents.drop_append (fun c hc => hpos c.form (mem_map_of_mem hc)) _

/-! ### Whole blocks -/

/-- On every way to a line the stack has the contents that the lines before give it. -/
theorem contents_of_holds (h : Stacks [] [] b []) (hlabels : (labels b).Nodup)
    {st : Contents} (hholds : Holds b i st) : contents b i = some st := by
  induction hholds with
  | start => rfl
  | next _ hl _ heffect ih => rw [contents_succ hl, ih, Option.bind_some, heffect]
  | jump _ hl hx hj ih =>
    rcases h.jumps 0 [] [] rfl _ _ _ hl hx with ⟨j, hj', heq⟩ | ⟨hmem, -⟩
    · rw [eq_of_label hlabels hj hj']
      exact heq.trans ih
    · cases hmem

/-- No line is stuck. -/
theorem exists_contents (h : Stacks [] [] b []) (i : Nat) : ∃ st, contents b i = some st := by
  have hend : contents b b.length = some [] := by
    unfold contents
    rw [take_length]
    exact h.carry_eq 0 []
  rcases Nat.lt_or_ge i b.length with hi | hi
  · exact contents_of_le hend (Nat.le_of_lt hi)
  · refine ⟨[], ?_⟩
    rw [← hend, contents, contents, take_of_length_le hi, take_length]

/-- A block without jumps out that leaves nothing on the stack uses it in an orderly way. -/
theorem disciplined (h : Stacks [] [] b []) (hlabels : (labels b).Nodup) :
    Disciplined b := by
  have hsafe : ∀ {i st l}, Holds b i st → b[i]? = some l → ∃ st', l.effect i st = some st' := by
    intro i st l hholds hl
    obtain ⟨st', hnext⟩ := h.exists_contents (i + 1)
    rw [contents_succ hl, h.contents_of_holds hlabels hholds, Option.bind_some] at hnext
    exact ⟨st', hnext⟩
  refine ⟨fun i => ?_, fun {i l x} hl hx => ?_, fun {i st l} hholds hl => ?_, fun {j st r} hholds hpop => ?_⟩
  · obtain ⟨st, hst⟩ := h.exists_contents i
    rw [← size_contents hst]
    exact Int.natCast_nonneg _
  · rcases h.jumps 0 [] [] rfl _ _ _ hl hx with ⟨j, hj, heq⟩ | ⟨hmem, -⟩
    · obtain ⟨st, hst⟩ := h.exists_contents i
      have hst' : contents b j = some st := heq.trans hst
      refine ⟨j, hj, ?_, fun j' hj' => eq_of_label hlabels hj' hj⟩
      rw [← size_contents hst, ← size_contents hst']
    · cases hmem
  · exact ⟨size_contents (h.contents_of_holds hlabels hholds), hsafe hholds hl⟩
  · -- A line that pops is not stuck only if a word is on top.
    obtain ⟨st', hst'⟩ := hsafe hholds hpop
    have hword : Contents.pop st = some st' := hst'
    unfold Contents.pop at hword
    split at hword
    · next i rest =>
      exact ⟨i, rest, rfl, matches_of_contents hpop (h.contents_of_holds hlabels hholds)⟩
    · cases hword

end Stacks

end Sigil.Machine
