import Sigil.Proofs.Emission.Labels

/-!
# Numbers in instructions

Immediate operands and displacements have 32 bits with a sign. A single object is kept below that bound,
but nothing bounds what the objects of a function add up to. So the lines of an assembly can be encoded if
and only if three sums stay below the bound in every function: the size of the frame, the bytes that are
pushed for a call, and the offset of an argument that is referred to (`Compile.encodable_iff_small`). All
other numbers fit.

Every number that could be too large is an instance of `Quantity`. That all numbers in the code of a
function are small or quantities of it is shown piece by piece, in `linewise_measured`.
-/

namespace Sigil

open List

open Machine (Block Fits32 Instruction Label Line Operand)

/-! ## Slots of locals -/

namespace Frame

/-- Every local is an argument or lies in the part of the frame that has been taken. -/
def Holds (args : Assoc Slot) (f : Frame) : Prop :=
  ∀ scope ∈ f.scopes, ∀ q ∈ scope, f.Covers q.2.offset ∨ q ∈ args

variable {args : Assoc Slot} {f : Frame}

theorem Holds.reaches (h : f.Holds args) {d : Int} (hd : f.Reaches d) :
    f.Covers d ∨ ∃ q ∈ args, q.2.offset = d := by
  rcases hd with hd | ⟨x, slot, hx, rfl⟩
  · exact Or.inl hd
  · obtain ⟨scope, hscope, hmem⟩ := mem_of_find? hx
    exact (h scope hscope _ hmem).imp id fun hq => ⟨_, hq, rfl⟩

theorem Holds.temp (h : f.Holds args) (hf : f.Bounded) (size : Nat) : (f.temp size).2.Holds args :=
  fun scope hscope q hq => (h scope hscope q hq).imp
    (fun hd => ⟨(hf.temp size).2.trans hd.1, hd.2⟩) id

theorem Holds.bind (h : f.Holds args) {d : Int} (hd : f.Covers d) (x : String) (t : Ty)
    (mutable : Bool) : (f.bind x t d mutable).Holds args := by
  intro scope hscope q hq
  unfold Frame.bind at hscope
  cases hs : f.scopes with
  | nil =>
    rw [hs] at hscope
    cases hscope
  | cons scope0 rest =>
    rw [hs] at hscope
    rcases mem_cons.1 hscope with rfl | hscope
    · rcases Assoc.mem_put hq with rfl | hq
      · exact Or.inl hd
      · exact h scope0 (hs ▸ mem_cons_self) q hq
    · exact h scope (hs ▸ mem_cons_of_mem _ hscope) q hq

theorem Holds.leave (h : f.Holds args) : f.leave.Holds args :=
  fun scope hscope => h scope (mem_of_mem_tail hscope)

theorem Holds.enter (h : f.Holds args) : f.enter.Holds args := by
  intro scope hscope q hq
  rcases mem_cons.1 hscope with rfl | hscope
  · cases hq
  · exact h scope hscope q hq

end Frame

namespace Code

theorem tracks_holds (args : Assoc Slot) : Emission.Tracks fun s s' =>
    s.frame.Bounded ∧ s.frame.Holds args → s'.frame.Bounded ∧ s'.frame.Holds args where
  refl _ h := h
  trans h h' hs := h' (h hs)
  number _ _ h := h
  text _ _ h := h
  routine _ _ h := h
  temp _ size h := ⟨(h.1.temp size).1, h.2.temp h.1 size⟩
  bind _ _ x t mutable hd h := ⟨⟨h.1.least, h.1.nonpos⟩, h.2.bind hd x t mutable⟩
  enter _ h := ⟨⟨h.1.least, h.1.nonpos⟩, h.2.enter⟩
  leave _ h := ⟨⟨h.1.least, h.1.nonpos⟩, h.2.leave⟩

/-! ## Numbers in a piece -/

/-- The numbers in a block that no check keeps small: the offsets of slots from `low` on, those of
arguments that the block refers to, and the bytes that are on the stack. `n` of these stay there. -/
inductive Quantity (t : Symbols) (args : Assoc Slot) (low : Int) (n : Nat) (code : Block) : Int → Prop where
  | slot {d : Int} (hlow : low ≤ d) (hd : d ≤ 0) : Quantity t args low n code d
  | arg {q : String × Slot} (hq : q ∈ args) (h : ∃ l ∈ code, Code.slot q.2.offset ∈ l.operands) :
    Quantity t args low n code q.2.offset
  | stack {k : Nat} (hk : k ≤ n) : Quantity t args low n code k
  | pushed {x : String} {sig : Signature} {k : Nat} (hx : t.funcs.get? x = some sig)
    (hcall : .call (functionLabel x) ∈ code) (hk : k ≤ t.pushedFor sig) : Quantity t args low n code k

theorem Quantity.mono {t : Symbols} {args : Assoc Slot} {low low' : Int} {n n' : Nat}
    {code code' : Block} {m : Int} (h : Quantity t args low n code m) (hlow : low' ≤ low) (hn : n ≤ n')
    (hcode : code ⊆ code') : Quantity t args low' n' code' m := by
  cases h with
  | slot h hd => exact .slot (hlow.trans h) hd
  | arg hq h =>
    obtain ⟨l, hl, hmem⟩ := h
    exact .arg hq ⟨l, hcode hl, hmem⟩
  | stack hk => exact .stack (hk.trans hn)
  | pushed hx hcall hk => exact .pushed hx (hcode hcall) hk

/-- A line of the block can be encoded if some quantity of the block can. -/
def Measured (t : Symbols) (args : Assoc Slot) (low : Int) (n : Nat) (code : Block) (l : Line) : Prop :=
  ∃ m, Quantity t args low n code m ∧ (Fits32 m → l.Encodable)

namespace Measured

variable {t : Symbols} {args : Assoc Slot} {low low' : Int} {n n' : Nat} {code code' : Block} {l : Line}

theorem mono (h : Measured t args low n code l) (hlow : low' ≤ low) (hn : n ≤ n')
    (hcode : code ⊆ code') : Measured t args low' n' code' l := by
  obtain ⟨m, hm, henc⟩ := h
  exact ⟨m, hm.mono hlow hn hcode, henc⟩

theorem of_encodable (h : l.Encodable) : Measured t args low n code l :=
  ⟨(0 : Nat), .stack (Nat.zero_le n), fun _ => h⟩

theorem of_operands (h : ∀ o ∈ l.operands, o.Encodable) : Measured t args low n code l := by
  refine of_encodable ?_
  cases l with
  | instr i => exact Or.inr h
  | _ => trivial

theorem of_nil (h : l.operands = []) : Measured t args low n code l := by
  refine of_operands ?_
  rw [h]
  exact forall_mem_nil _

/-- A few words on the stack are never too many. -/
theorem popped (h : Measured t args low (n + 8) code l) (hn : n ≤ 24) :
    Measured t args low n code l := by
  obtain ⟨m, hm, henc⟩ := h
  cases hm with
  | slot hlow hd => exact ⟨_, .slot hlow hd, henc⟩
  | arg hq h => exact ⟨_, .arg hq h, henc⟩
  | @stack k hk =>
    have hfits : Fits32 k := by
      unfold Fits32
      omega
    exact of_encodable (henc hfits)
  | pushed hx hcall hk => exact ⟨_, .pushed hx hcall hk, henc⟩

/-- What is on the stack at a call has been pushed for it. -/
theorem called {x : String} {sig : Signature} (h : Measured t args low (t.pushedFor sig) code l)
    (hx : t.funcs.get? x = some sig) (hcall : .call (functionLabel x) ∈ code) :
    Measured t args low 0 code l := by
  obtain ⟨m, hm, henc⟩ := h
  cases hm with
  | slot hlow hd => exact ⟨_, .slot hlow hd, henc⟩
  | arg hq h => exact ⟨_, .arg hq h, henc⟩
  | stack hk => exact ⟨_, .pushed hx hcall hk, henc⟩
  | pushed hx hcall hk => exact ⟨_, .pushed hx hcall hk, henc⟩

end Measured

theorem encodable_sub_iff (n : Int) : (Line.sub (.imm n) .rsp).Encodable ↔ Fits32 n := by
  simp [Line.sub, Line.Encodable, Instruction.Encodable, Instruction.isWide, Instruction.parts,
    Operand.Encodable]

theorem encodable_add_iff (n : Int) : (Line.add (.imm n) .rsp).Encodable ↔ Fits32 n := by
  simp [Line.add, Line.Encodable, Instruction.Encodable, Instruction.isWide, Instruction.parts,
    Operand.Encodable]

/-- Every number in a piece that is not small by itself is a quantity of it. -/
theorem linewise_measured (site : Site) (args : Assoc Slot) :
    Linewise site (fun f => f.Bounded ∧ f.Holds args) fun _ s n code l =>
      Measured site.symbols args s.frame.low n code l where
  keeps h hs := h.tracks (tracks_holds args) hs
  later h hs _ _ _ _ hl :=
    hl.mono (h.tracks tracks_bounded hs.1).2 (le_refl _) (List.Subset.refl _)
  wider hl hn hcode := hl.mono (le_refl _) hn hcode
  outer hl := hl
  inner hl _ _ := hl
  plain h := .of_encodable h.encodable
  slot {_ _ _ l} hs hd h := by
    refine ⟨_, ?_, h.encodable⟩
    rcases hs.2.reaches hd with hd | ⟨q, hq, rfl⟩
    · exact .slot hd.1 hd.2
    · exact .arg hq ⟨l, mem_singleton_self l, h.mem⟩
  text _ _ _ _ := .of_operands (by simp [Line.operands, Line.lea, Instruction.parts, Operand.Encodable])
  routine _ _ _ _ := .of_nil rfl
  push _ _ _ _ := .of_operands (by simp [Line.operands, Line.push, Instruction.parts, Operand.Encodable])
  reserve _ _ k _ := ⟨k, .stack (le_refl k), (encodable_sub_iff k).2⟩
  pop _ _ _ _ _ _ := .of_operands (by simp [Line.operands, Line.pop, Instruction.parts, Operand.Encodable])
  popped hl hn := hl.popped hn
  call hx hcode l hl := by
    rcases mem_cons.1 hl with rfl | hl
    · exact .of_nil rfl
    · rw [mem_dropBytes hl]
      exact ⟨_, .pushed hx (hcode _ mem_cons_self) (le_refl _), (encodable_add_iff _).2⟩
  called hl hx hcall := hl.called hx hcall
  jump _ := .of_nil rfl
  jumpIf _ _ := .of_nil rfl
  label _ _ _ _ := .of_nil rfl

/-- Behind a call of a function, what was pushed is dropped. -/
theorem linewise_drops (site : Site) : Linewise site (fun _ => True) fun _ _ _ code l =>
    ∀ x sig, l = .call (functionLabel x) → site.symbols.funcs.get? x = some sig →
      dropBytes (site.symbols.pushedFor sig) ⊆ code where
  keeps _ _ := trivial
  later _ _ _ _ _ _ hl := hl
  wider hl _ hcode x sig hx hsig := List.Subset.trans (hl x sig hx hsig) hcode
  outer hl := hl
  inner hl _ _ := hl
  plain h x _ hx := by
    subst hx
    exact nomatch h.stack
  slot _ _ h x _ hx := by
    subst hx
    exact nomatch h.stack
  text _ _ _ _ _ _ hx := nomatch hx
  routine _ _ r _ x _ hx := by
    have hlabel : r.label = functionLabel x := by simpa [Line.call] using hx
    exact absurd hlabel (r.label_ne_functionLabel x)
  push _ _ _ _ _ _ hx := nomatch hx
  reserve _ _ _ _ _ _ hx := nomatch hx
  pop _ _ _ _ _ _ _ _ hx := nomatch hx
  popped hl _ := hl
  call := by
    intro _ _ y sig code hy hcode l hl x sig' hx hsig'
    rcases mem_cons.1 hl with rfl | hl
    · have hlabel : functionLabel y = functionLabel x := by simpa [Line.call] using hx
      obtain rfl := (String.append_right_inj _).1 hlabel
      obtain rfl := Option.some.inj (hy.symm.trans hsig')
      exact fun l hl => hcode l (mem_cons_of_mem _ hl)
    · rw [mem_dropBytes hl] at hx
      exact nomatch hx
  called hl _ _ := hl
  jump _ _ _ hx := nomatch hx
  jumpIf _ _ _ _ hx := nomatch hx
  label _ _ _ _ _ _ hx := nomatch hx

/-! ## Functions -/

/-- The sums in the code of a function fit into 32 bits: the size of the frame, the bytes that are pushed
for a call, and the offset of a slot that is referred to. -/
structure Small (t : Symbols) (fc : FunctionCode) : Prop where
  frame : (fc.frame : Int) ≤ 2 ^ 31 - 1
  calls : ∀ x sig, t.funcs.get? x = some sig → .call (functionLabel x) ∈ fc.code →
    (t.pushedFor sig : Int) ≤ 2 ^ 31 - 1
  slots : ∀ q ∈ fc.slots, (∃ l ∈ fc.code, slot q.2.offset ∈ l.operands) → q.2.offset ≤ 2 ^ 31 - 1

/-- The arguments of a function lie above the frame pointer. -/
theorem nonneg_of_mem_argSlots {offset : Int} (hoffset : 0 ≤ offset) {args : List (String × Ty × Nat)}
    {slots : Assoc Slot} (hslots : ∀ q ∈ slots, 0 ≤ q.2.offset) :
    ∀ q ∈ Frame.argSlots offset args slots, 0 ≤ q.2.offset := by
  induction args generalizing offset slots with
  | nil => exact hslots
  | cons arg args ih =>
    obtain ⟨x, t, size⟩ := arg
    refine ih ?_ fun q hq => ?_
    · have hspan := Frame.span_nonneg size
      unfold Frame.maxOffset
      omega
    · rcases Assoc.mem_put hq with rfl | hq
      · exact hoffset
      · exact hslots q hq

theorem nonneg_of_mem_startFrame (t : Symbols) (sig : Signature) :
    ∀ q ∈ (t.startFrame sig).named, 0 ≤ q.2.offset :=
  nonneg_of_mem_argSlots (by split <;> decide) fun _ hq => nomatch hq

theorem holds_startFrame (t : Symbols) (sig : Signature) :
    (t.startFrame sig).Bounded ∧ (t.startFrame sig).Holds (t.startFrame sig).named := by
  refine ⟨⟨show Frame.minOffset ≤ 0 by decide, Int.le_refl 0⟩, fun scope hscope q hq => Or.inr ?_⟩
  rw [mem_singleton.1 hscope] at hq
  exact hq

/-- A frame that fits reaches down no further than 32 bits. -/
theorem le_low_of_size {f : Frame} (h : (f.size : Int) ≤ 2 ^ 31 - 1) : -2 ^ 31 ≤ f.low := by
  unfold Frame.size Frame.maxSize at h
  omega

theorem fits_of_mem_operands {l : Line} {r : Machine.Register} {d : Int} (h : l.Encodable)
    (hd : .mem r d ∈ l.operands) : Fits32 d := by
  cases l with
  | instr i =>
    rcases h with hwide | hparts
    · unfold Instruction.isWide at hwide
      split at hwide
      · simp [Line.operands, Instruction.parts] at hd
      · cases hwide
    · exact hparts _ hd
  | _ => cases hd

section Functions

variable {t : Symbols} {x : String} {sig : Signature} {fc : FunctionCode} {pool : Pool}

/-- The sums are operands of lines, so they fit if the lines can be encoded. -/
theorem Built.small_of_encodable (h : Built t x sig fc pool) (henc : ∀ l ∈ fc.code, l.Encodable) :
    Small t fc := by
  obtain ⟨start, s', body, -, -, hpiece, -, -, -, hcode⟩ := h
  refine ⟨?_, fun y sig' hy hcall => ?_, fun q _ ⟨l, hl, hq⟩ => ?_⟩
  · by_cases hzero : fc.frame = 0
    · rw [hzero]
      decide
    · have hsub : Line.sub (.imm fc.frame) .rsp ∈ fc.code := by
        rw [hcode]
        simp [prologue, hzero]
      exact ((encodable_sub_iff _).1 (henc _ hsub)).2
  · -- The call is in the body, and behind it the bytes are dropped.
    have hbody : .call (functionLabel y) ∈ body := by
      rw [hcode] at hcall
      simp only [mem_append, mem_cons, not_mem_nil, or_false] at hcall
      rcases hcall with (((h | h) | h) | h | h) | h
      · cases h
      · rcases mem_prologue h with h | h | h <;> cases h
      · exact h
      · cases h
      · cases h
      · rcases mem_epilogue h with h | h | h <;> cases h
    have hdrop := (linewise_drops _).of_piece hpiece trivial _ hbody y sig' rfl hy
    by_cases hzero : t.pushedFor sig' = 0
    · rw [hzero]
      decide
    · have hadd : Line.add (.imm (t.pushedFor sig')) .rsp ∈ body := hdrop (by simp [dropBytes, hzero])
      exact ((encodable_add_iff _).1 (henc _ (by simp [hcode, hadd]))).2
  · exact (fits_of_mem_operands (henc l hl) hq).2

/-- Every operand of a line is within one of the sums. -/
theorem Built.encodable_of_small (h : Built t x sig fc pool) (hsmall : Small t fc) :
    ∀ l ∈ fc.code, l.Encodable := by
  obtain ⟨start, s', body, hstart, -, hpiece, -, hsize, hslots, hcode⟩ := h
  have hbody : body ⊆ fc.code := fun l hl => by simp [hcode, hl]
  have hargs : (t.startFrame sig).named ⊆ fc.slots := by
    rw [← hstart, hslots]
    exact (hpiece.tracks tracks_named).subset
  have hmeasured := (linewise_measured _ (t.startFrame sig).named).of_piece hpiece
    (hstart ▸ holds_startFrame t sig)
  -- Each quantity that a line may hold is bounded by what the function as a whole takes.
  have hfits : ∀ m, Quantity t (t.startFrame sig).named s'.frame.low 0 body m → Fits32 m := by
    intro m hm
    cases hm with
    | slot hlow hd => exact ⟨(le_low_of_size (hsize ▸ hsmall.frame)).trans hlow, hd.trans (by decide)⟩
    | arg hq hmem =>
      obtain ⟨l, hl, hmem⟩ := hmem
      have hnonneg := nonneg_of_mem_startFrame t sig _ hq
      exact ⟨(by decide : (-2 ^ 31 : Int) ≤ 0).trans hnonneg, hsmall.slots _ (hargs hq) ⟨l, hbody hl, hmem⟩⟩
    | stack hk =>
      rw [Nat.le_zero.1 hk]
      decide
    | pushed hy hcall hk =>
      have hle := hsmall.calls _ _ hy (hbody hcall)
      unfold Fits32
      omega
  intro l hl
  rw [hcode] at hl
  simp only [mem_append, mem_cons, not_mem_nil, or_false] at hl
  rcases hl with (((rfl | hl) | hl) | rfl | rfl) | hl
  · trivial
  · rcases mem_prologue hl with rfl | rfl | rfl
    · decide
    · decide
    · refine (encodable_sub_iff _).2 ⟨?_, hsmall.frame⟩
      omega
  · obtain ⟨m, hm, henc⟩ := hmeasured l hl
    exact henc (hfits m hm)
  · decide
  · trivial
  · rcases mem_epilogue hl with rfl | rfl | rfl <;> decide

end Functions

end Code

/-! ## Programs -/

theorem Routine.encodable (r : Routine) : ∀ l ∈ r.text ++ r.data, l.Encodable := by
  cases r <;> decide

namespace Compile

/-- The lines of the assembly of an accepted program can be encoded if and only if the sums in the code of
each function are small. -/
theorem encodable_iff_small {code : String} {front : Frontend} {a : Assembly}
    (h : frontend code = .ok front) (ha : generate front = .ok a) :
    (∀ l ∈ a.lines, l.Encodable) ↔ ∀ p ∈ a.funcs, Code.Small front.symbols p.2 := by
  obtain ⟨hall, -⟩ := built_of_generate h ha
  refine ⟨fun henc p hp => ?_, fun hsmall l hl => ?_⟩
  · obtain ⟨sig, -, hbuilt⟩ := hall.built p hp
    refine hbuilt.small_of_encodable fun l hl => henc l ?_
    simp only [Assembly.lines, mem_append, mem_flatMap]
    exact Or.inl (Or.inl (Or.inl (Or.inl (Or.inr ⟨p, hp, hl⟩))))
  · simp only [Assembly.lines, mem_append, mem_flatMap, mem_singleton] at hl
    rcases hl with (((((rfl | hl) | ⟨p, hp, hl⟩) | ⟨r, -, hl⟩) | rfl) | ⟨r, -, hl⟩) | hl
    · trivial
    · simp only [entry, Routine.system, mem_append, mem_cons, not_mem_nil, or_false] at hl
      rcases hl with (rfl | rfl | rfl | rfl) | rfl | rfl <;> decide +kernel
    · obtain ⟨sig, -, hbuilt⟩ := hall.built p hp
      exact hbuilt.encodable_of_small (hsmall p hp) l hl
    · exact r.encodable l (mem_append_left _ hl)
    · trivial
    · exact r.encodable l (mem_append_right _ hl)
    · obtain ⟨s, -, hl⟩ := mem_flatMap.1 hl
      simp only [mem_cons, not_mem_nil, or_false] at hl
      rcases hl with rfl | rfl <;> trivial

/-- A program with an aggregate that is passed by value. -/
def byValue : String :=
  "const f := fn (a: [3]char, n: int!) int! \x7b return n; \x7d;
  const main := fn () int! \x7b have a: [3]char; return f(a, 5); \x7d;"

theorem encodable_iff_small_byValue :
    ∃ front a, frontend byValue = .ok front ∧ generate front = .ok a ∧ a.funcs.length = 2 ∧
      (∀ l ∈ a.lines, l.Encodable) ∧ ∀ p ∈ a.funcs, Code.Small front.symbols p.2 := by
  obtain ⟨front, a, hfront, ha, htest⟩ := exists_of_testCode byValue
    (fun _ a => a.funcs.length == 2 && decide (∀ l ∈ a.lines, l.Encodable)) (by decide +kernel)
  rw [Bool.and_eq_true, beq_iff_eq, decide_eq_true_eq] at htest
  exact ⟨front, a, hfront, ha, htest.1, htest.2, (encodable_iff_small hfront ha).1 htest.2⟩

/-- A program with one local of the greatest size that an object may have. -/
def wholeFrame : String :=
  "const main := fn () int! \x7b have a: [2147483647]char; return 0; \x7d;"

/-- A single object of the greatest size makes a frame whose size cannot be encoded. -/
theorem exists_line_not_encodable :
    ∃ front a, frontend wholeFrame = .ok front ∧ generate front = .ok a ∧
      Line.sub (.imm 2147483648) .rsp ∈ a.lines ∧ ¬(Line.sub (.imm 2147483648) .rsp).Encodable := by
  obtain ⟨front, a, hfront, ha, htest⟩ := exists_of_testCode wholeFrame
    (fun _ a => decide (Line.sub (.imm 2147483648) .rsp ∈ a.lines)) (by decide +kernel)
  exact ⟨front, a, hfront, ha, of_decide_eq_true htest, by decide⟩

end Compile

end Sigil
