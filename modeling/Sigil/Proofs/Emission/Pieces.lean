import Sigil.Proofs.Frames
import Sigil.Proofs.Lowering.Expressions

/-!
# How code is put together

The forms of expressions and statements are many, but the ways in which their code is put together are
few: lines that stand for themselves, references to slots, to texts and to routines, values that are
pushed and popped, calls, and jumps over the code of a part. `Piece` lists these ways. A derivation of
it follows the generation of a block from one state of the generator to another and counts the bytes
that the block leaves on the stack. What holds of all generated code is then proved by induction on the
ways, not on the forms.
-/

namespace Sigil

open List

open Machine (Block Condition Label Line Register)

/-! ## Slots -/

/-- The offset is in the part of the frame that has been taken. -/
def Frame.Covers (f : Frame) (d : Int) : Prop :=
  f.low ≤ d ∧ d ≤ 0

/-- The offset is in the part of the frame that has been taken, or is that of a local. -/
def Frame.Reaches (f : Frame) (d : Int) : Prop :=
  f.Covers d ∨ ∃ x slot, f.get? x = some slot ∧ slot.offset = d

/-! ## Arguments -/

/-- The bytes that an argument takes up on the stack: a word, or the whole of an aggregate. -/
def Symbols.pushed (t : Symbols) (ty : Ty) : Nat :=
  if ty.isAggregate then Frame.round8 ((t.size? ty).getD 0) else 8

/-- The bytes that a call pushes: the arguments, and the address for a result that is an aggregate. -/
def Symbols.pushedFor (t : Symbols) (sig : Signature) : Nat :=
  (sig.params.map fun p => t.pushed p.2).sum + if sig.ret.isAggregate then 8 else 0

namespace Code

/-- The block has been generated, from the state `s` on, for a call of the function `x` with the given
expressions as arguments. -/
def CallOf (site : Site) (x : String) (es : List Expr) (s : Emission) (code : Block) : Prop :=
  s.frame.Bounded ∧ ∃ m m' Γ s', (Expr.call m (.ident m' x) es).Typed site.symbols Γ ∧
    (lower site (.call m (.ident m' x) es)).value s = (.ok code, s')

/-- `Piece site outs s code n s'`: the block is generated from the state `s` to `s'`, leaves `n` bytes on
the stack, and may jump to the labels `outs` outside of it, but only while it has nothing on the stack. -/
inductive Piece (site : Site) : List Label → Emission → Block → Nat → Emission → Prop where
  | nil {outs : List Label} {s : Emission} : Piece site outs s [] 0 s
  | append {outs : List Label} {s s1 s2 : Emission} {c c' : Block} {n : Nat}
    (h : Piece site outs s c 0 s1) (h' : Piece site outs s1 c' n s2) : Piece site outs s (c ++ c') n s2
  /-- What is on the stack stays there while more is put on it. -/
  | stack {outs : List Label} {s s1 s2 : Emission} {c c' : Block} {n n' : Nat}
    (h : Piece site [] s c n s1) (h' : Piece site [] s1 c' n' s2) :
    Piece site outs s (c ++ c') (n + n') s2
  | plain {outs : List Label} {s : Emission} {l : Line} (h : l.Plain) : Piece site outs s [l] 0 s
  | slot {outs : List Label} {s : Emission} {l : Line} {d : Int} (hd : s.frame.Reaches d)
    (h : l.Touches d) : Piece site outs s [l] 0 s
  | text {outs : List Label} {s : Emission} (t : String) :
    Piece site outs s [.lea (.label (s.pool.string t).1) .rax] 0
      { s with pool := (s.pool.string t).2 }
  | routine {outs : List Label} {s : Emission} (r : Routine) :
    Piece site outs s [.call r.label] 0 { s with pool := s.pool.use r }
  /-- A slot is taken. -/
  | temp {outs : List Label} {s : Emission} (size : Nat) :
    Piece site outs s [] 0 { s with frame := (s.frame.temp size).2 }
  /-- A slot that has been taken gets a name. -/
  | bind {outs : List Label} {s : Emission} {d : Int} (hd : s.frame.Covers d) (x : String) (t : Ty)
    (mutable : Bool) : Piece site outs s [] 0 { s with frame := s.frame.bind x t d mutable }
  | enter {outs : List Label} {s : Emission} : Piece site outs s [] 0 { s with frame := s.frame.enter }
  | leave {outs : List Label} {s : Emission} : Piece site outs s [] 0 { s with frame := s.frame.leave }
  | push {outs : List Label} {s : Emission} (r : Register) : Piece site outs s [.push r] 8 s
  /-- Room for an aggregate. -/
  | reserve {outs : List Label} {s : Emission} (k : Nat) :
    Piece site outs s [.sub (.imm k) .rsp] k s
  /-- Only a few words are taken back one by one. -/
  | pop {outs : List Label} {s s' : Emission} {c : Block} {n : Nat} (h : Piece site outs s c (n + 8) s')
    (hn : n ≤ 24) {r : Register} (hr : r ≠ .rsp) : Piece site outs s (c ++ [Line.pop r]) n s'
  /-- Behind a call, what was pushed for it is dropped. -/
  | call {outs : List Label} {s s' : Emission} {c : Block} {n : Nat} {x : String} {sig : Signature}
    {es : List Expr} (h : Piece site outs s c n s') (hx : site.symbols.funcs.get? x = some sig)
    (hn : n = site.symbols.pushedFor sig)
    (hcode : CallOf site x es s (c ++ [Line.call (functionLabel x)] ++ dropBytes n)) :
    Piece site outs s (c ++ [Line.call (functionLabel x)] ++ dropBytes n) 0 s'
  | jump {outs : List Label} {s : Emission} {l : Label} (hl : l ∈ outs) : Piece site outs s [.jump l] 0 s
  | logic {outs : List Label} {s s1 s2 : Emission} {l r : Block} (skip : Condition)
    (hl : Piece site outs (s.number 1) l 0 s1) (hr : Piece site outs s1 r 0 s2) :
    Piece site outs s (l ++ [Line.test .rax, .jumpIf skip (site.numbered "logic" (s.labels + 1))] ++ r ++
      [Line.label (site.numbered "logic" (s.labels + 1))]) 0 s2
  | cond {outs : List Label} {s s1 s2 s3 : Emission} {test yes no : Block}
    (htest : Piece site outs (s.number 2) test 0 s1) (hyes : Piece site outs s1 yes 0 s2)
    (hno : Piece site outs s2 no 0 s3) :
    Piece site outs s (test ++ [Line.jumpIf .e (site.numbered "else" (s.labels + 1))] ++ yes ++
      [Line.jump (site.numbered "endif" (s.labels + 2)), .label (site.numbered "else" (s.labels + 1))] ++
      no ++ [Line.label (site.numbered "endif" (s.labels + 2))]) 0 s3
  /-- From inside a loop one can jump to its next round and to its end. -/
  | loop {outs : List Label} {s s1 s2 s3 s4 : Emission} {init test body post : Block}
    (hinit : Piece site outs (s.number 3) init 0 s1) (htest : Piece site outs s1 test 0 s2)
    (hbody : Piece site (site.numbered "next" (s.labels + 2) :: site.numbered "endloop" (s.labels + 3)
      :: outs) s2 body 0 s3)
    (hpost : Piece site (site.numbered "next" (s.labels + 2) :: site.numbered "endloop" (s.labels + 3)
      :: outs) s3 post 0 s4) :
    Piece site outs s (init ++ [Line.label (site.numbered "loop" (s.labels + 1))] ++ test ++
      [Line.jumpIf .e (site.numbered "endloop" (s.labels + 3))] ++ body ++
      [Line.label (site.numbered "next" (s.labels + 2))] ++ post ++
      [Line.jump (site.numbered "loop" (s.labels + 1)), .label (site.numbered "endloop" (s.labels + 3))])
      0 s4

namespace Piece

variable {site : Site} {outs : List Label} {s s' s1 s2 : Emission} {c c' : Block} {n : Nat}

theorem of_eq (h : Piece site outs s c n s') (hc : c = c') : Piece site outs s c' n s' :=
  hc ▸ h

theorem plains (h : ∀ l ∈ c, l.Plain) : Piece site outs s c 0 s := by
  induction c with
  | nil => exact .nil
  | cons l c ih =>
    exact .append (.plain (h l mem_cons_self)) (ih fun l hl => h l (mem_cons_of_mem _ hl))

/-- What jumps nowhere may stand anywhere. -/
theorem anywhere (h : Piece site [] s c n s') : Piece site outs s c n s' :=
  (h.stack .nil).of_eq (append_nil c)

/-- A value is kept on the stack while a block runs, and comes back in a register. -/
theorem kept (h : Piece site [] s c 0 s') {r : Register} (hr : r ≠ .rsp) :
    Piece site outs s ([.push .rax] ++ c ++ [Line.pop r]) 0 s' :=
  .pop (((Piece.push .rax).stack h : Piece site outs s _ (0 + 8) s')) (Nat.zero_le 24) hr

/-- Values come back into registers one by one. -/
theorem pops {regs : List Register} (h : Piece site outs s c (8 * regs.length) s')
    (hlength : regs.length ≤ 4) (hregs : ∀ r ∈ regs, r ≠ .rsp) :
    Piece site outs s (c ++ regs.map Line.pop) 0 s' := by
  induction regs generalizing c with
  | nil => simpa using h
  | cons r regs ih =>
    rw [length_cons] at hlength
    have hfew : 8 * regs.length ≤ 24 := by omega
    have hr : Piece site outs s (c ++ [Line.pop r]) (8 * regs.length) s' :=
      .pop h hfew (hregs r mem_cons_self)
    exact (ih hr (by omega) fun r hr => hregs r (mem_cons_of_mem _ hr)).of_eq (by simp)

end Piece

/-! ## What happens to the state -/

/-- A relation between states that every step of generation keeps. -/
structure Emission.Tracks (R : Emission → Emission → Prop) : Prop where
  refl : ∀ s, R s s
  trans : ∀ {s s' s''}, R s s' → R s' s'' → R s s''
  number : ∀ s k, R s (s.number k)
  text : ∀ (s : Emission) t, R s { s with pool := (s.pool.string t).2 }
  routine : ∀ (s : Emission) r, R s { s with pool := s.pool.use r }
  temp : ∀ (s : Emission) size, R s { s with frame := (s.frame.temp size).2 }
  bind : ∀ (s : Emission) {d} x t mutable, s.frame.Covers d →
    R s { s with frame := s.frame.bind x t d mutable }
  enter : ∀ s : Emission, R s { s with frame := s.frame.enter }
  leave : ∀ s : Emission, R s { s with frame := s.frame.leave }

namespace Piece

variable {site : Site} {outs : List Label} {s s' : Emission} {c : Block} {n : Nat}

/-- What every step of generation keeps, a piece of code keeps. -/
theorem tracks {R : Emission → Emission → Prop} (hR : Emission.Tracks R)
    (h : Piece site outs s c n s') : R s s' := by
  induction h with
  | append _ _ ih ih' | stack _ _ ih ih' => exact hR.trans ih ih'
  | text t => exact hR.text _ t
  | routine r => exact hR.routine _ r
  | temp size => exact hR.temp _ size
  | bind hd x t mutable => exact hR.bind _ x t mutable hd
  | enter => exact hR.enter _
  | leave => exact hR.leave _
  | pop _ _ _ ih => exact ih
  | call _ _ _ _ ih => exact ih
  | logic _ _ _ ihl ihr => exact hR.trans (hR.number _ 1) (hR.trans ihl ihr)
  | cond _ _ _ ih1 ih2 ih3 => exact hR.trans (hR.number _ 2) (hR.trans ih1 (hR.trans ih2 ih3))
  | loop _ _ _ _ ih1 ih2 ih3 ih4 =>
    exact hR.trans (hR.number _ 3) (hR.trans ih1 (hR.trans ih2 (hR.trans ih3 ih4)))
  | _ => exact hR.refl _

end Piece

/-! ## Line by line -/

/-- A property that the lines of a piece get one by one, while an invariant `I` of the frame holds.
`P outs s n code l` says it of the line `l` in the block `code` that has been generated up to the state `s`,
leaves `n` bytes on the stack and may jump to `outs`. -/
structure Linewise (site : Site) (I : Frame → Prop)
    (P : List Label → Emission → Nat → Block → Line → Prop) : Prop where
  keeps : ∀ {outs s c n s'}, Piece site outs s c n s' → I s.frame → I s'.frame
  later : ∀ {outs s c n s'}, Piece site outs s c n s' → I s.frame →
    ∀ {outs n code l}, P outs s n code l → P outs s' n code l
  wider : ∀ {outs s n n' code code' l}, P outs s n code l → n ≤ n' → code ⊆ code' →
    P outs s n' code' l
  outer : ∀ {outs s n code l}, P [] s n code l → P outs s n code l
  /-- Labels outside of a part that are inside the whole. -/
  inner : ∀ {a b outs s n code l}, P (a :: b :: outs) s n code l → .label a ∈ code → .label b ∈ code →
    P outs s n code l
  plain : ∀ {outs s code l}, l.Plain → P outs s 0 code l
  slot : ∀ {outs s d l}, I s.frame → s.frame.Reaches d → l.Touches d → P outs s 0 [l] l
  text : ∀ outs (s : Emission) t code, P outs { s with pool := (s.pool.string t).2 } 0 code
    (.lea (.label (s.pool.string t).1) .rax)
  routine : ∀ outs (s : Emission) r code, P outs { s with pool := s.pool.use r } 0 code (.call r.label)
  push : ∀ outs s r code, P outs s 8 code (.push r)
  reserve : ∀ outs s k code, P outs s k code (.sub (.imm k) .rsp)
  pop : ∀ outs s n {r} code, r ≠ .rsp → P outs s n code (.pop r)
  popped : ∀ {outs s n code l}, P outs s (n + 8) code l → n ≤ 24 → P outs s n code l
  call : ∀ {outs s x sig code}, site.symbols.funcs.get? x = some sig →
    (∀ l ∈ .call (functionLabel x) :: dropBytes (site.symbols.pushedFor sig), l ∈ code) →
    ∀ l ∈ .call (functionLabel x) :: dropBytes (site.symbols.pushedFor sig), P outs s 0 code l
  called : ∀ {outs s x sig code l}, P outs s (site.symbols.pushedFor sig) code l →
    site.symbols.funcs.get? x = some sig → .call (functionLabel x) ∈ code → P outs s 0 code l
  jump : ∀ {outs s code l}, l ∈ outs ∨ .label l ∈ code → P outs s 0 code (.jump l)
  jumpIf : ∀ {outs s code l} c, .label l ∈ code → P outs s 0 code (.jumpIf c l)
  label : ∀ outs s code l, P outs s 0 code (.label l)

/-- What the lines get one by one holds of all lines of a piece. -/
theorem Linewise.of_piece {site : Site} {I : Frame → Prop}
    {P : List Label → Emission → Nat → Block → Line → Prop} (hP : Linewise site I P)
    {outs : List Label} {s s' : Emission} {c : Block} {n : Nat} (h : Piece site outs s c n s') (hs : I s.frame) :
    ∀ l ∈ c, P outs s' n c l := by
  have hpart : ∀ {outs s n} {c code : Block}, (∀ l ∈ c, P outs s n c l) → c ⊆ code →
      ∀ l ∈ c, P outs s n code l := fun h hc l hl => hP.wider (h l hl) (le_refl _) hc
  induction h with
  | nil | temp | bind | enter | leave => exact fun _ hl => nomatch hl
  | append h h' ih ih' =>
    have hs1 := hP.keeps h hs
    intro l hl
    rcases mem_append.1 hl with hl | hl
    · exact hP.wider (hP.later h' hs1 (ih hs l hl)) (Nat.zero_le _) (by simp)
    · exact hP.wider (ih' hs1 l hl) (le_refl _) (by simp)
  | stack h h' ih ih' =>
    have hs1 := hP.keeps h hs
    intro l hl
    rcases mem_append.1 hl with hl | hl
    · exact hP.outer (hP.wider (hP.later h' hs1 (ih hs l hl)) (Nat.le_add_right _ _) (by simp))
    · exact hP.outer (hP.wider (ih' hs1 l hl) (Nat.le_add_left _ _) (by simp))
  | plain h => exact forall_mem_singleton.2 (hP.plain h)
  | slot hd h => exact forall_mem_singleton.2 (hP.slot hs hd h)
  | text t => exact forall_mem_singleton.2 (hP.text _ _ t _)
  | routine r => exact forall_mem_singleton.2 (hP.routine _ _ r _)
  | push r => exact forall_mem_singleton.2 (hP.push _ _ r _)
  | reserve k => exact forall_mem_singleton.2 (hP.reserve _ _ k _)
  | jump hl => exact forall_mem_singleton.2 (hP.jump (Or.inl hl))
  | pop _ hn hr ih =>
    intro l hl
    rcases mem_append.1 hl with hl | hl
    · exact hP.wider (hP.popped (ih hs l hl) hn) (le_refl _) (by simp)
    · rw [mem_singleton.1 hl]
      exact hP.pop _ _ _ _ hr
  | call _ hx hn _ ih =>
    subst hn
    intro l hl
    rw [append_assoc] at hl ⊢
    rcases mem_append.1 hl with hl | hl
    · exact hP.called (hP.wider (ih hs l hl) (le_refl _) (by simp)) hx (by simp)
    · exact hP.call hx (fun l hl => mem_append_right _ hl) l hl
  | logic skip hl hr ihl ihr =>
    have hs1 := hP.keeps hl hs
    intro l hmem
    simp only [mem_append, mem_cons, not_mem_nil, or_false] at hmem
    rcases hmem with ((h | rfl | rfl) | h) | rfl
    · exact hP.wider (hP.later hr hs1 (ihl hs l h)) (le_refl _) (by simp)
    · exact hP.plain (by decide)
    · exact hP.jumpIf _ (by simp)
    · exact hP.wider (ihr hs1 l h) (le_refl _) fun l hl => by simp [hl]
    · exact hP.label _ _ _ _
  | cond htest hyes hno ih1 ih2 ih3 =>
    have hs1 := hP.keeps htest hs
    have hs2 := hP.keeps hyes hs1
    intro l hmem
    simp only [mem_append, mem_cons, not_mem_nil, or_false] at hmem
    rcases hmem with ((((h | rfl) | h) | rfl | rfl) | h) | rfl
    · exact hP.wider (hP.later hno hs2 (hP.later hyes hs1 (ih1 hs l h))) (le_refl _) (by simp)
    · exact hP.jumpIf _ (by simp)
    · exact hP.wider (hP.later hno hs2 (ih2 hs1 l h)) (le_refl _) fun l hl => by simp [hl]
    · exact hP.jump (Or.inr (by simp))
    · exact hP.label _ _ _ _
    · exact hP.wider (ih3 hs2 l h) (le_refl _) fun l hl => by simp [hl]
    · exact hP.label _ _ _ _
  | loop hinit htest hbody hpost ih1 ih2 ih3 ih4 =>
    have hs1 := hP.keeps hinit hs
    have hs2 := hP.keeps htest hs1
    have hs3 := hP.keeps hbody hs2
    intro l hmem
    simp only [mem_append, mem_cons, not_mem_nil, or_false] at hmem
    rcases hmem with ((((((h | rfl) | h) | rfl) | h) | rfl) | h) | rfl | rfl
    · have hl := hP.later htest hs1 (ih1 hs l h)
      exact hP.wider (hP.later hpost hs3 (hP.later hbody hs2 hl)) (le_refl _) (by simp)
    · exact hP.label _ _ _ _
    · have hl := hP.later hbody hs2 (ih2 hs1 l h)
      exact hP.wider (hP.later hpost hs3 hl) (le_refl _) fun l hl => by simp [hl]
    · exact hP.jumpIf _ (by simp)
    · -- The next round and the end of the loop are inside the loop.
      have hl := hP.later hpost hs3 (ih3 hs2 l h)
      exact hP.inner (hP.wider hl (le_refl _) fun l hl => by simp [hl]) (by simp) (by simp)
    · exact hP.label _ _ _ _
    · have hl := ih4 hs3 l h
      exact hP.inner (hP.wider hl (le_refl _) fun l hl => by simp [hl]) (by simp) (by simp)
    · exact hP.jump (Or.inr (by simp))
    · exact hP.label _ _ _ _

end Code

namespace Frame

/-- An object that is not too large takes up at least its size. -/
theorem min_le_span (size : Nat) : (min size maxObject : Nat) ≤ span (max size 1) := by
  unfold span round8 maxSize maxOffset maxObject
  omega

variable {f : Frame}

/-- A slot that has just been taken is covered. -/
theorem Bounded.covers_temp (h : f.Bounded) (size : Nat) :
    (f.temp size).2.Covers (f.temp size).1 :=
  ⟨le_refl _, (h.temp size).1.nonpos⟩

/-- There is room for the whole object between its slot and the frame pointer. -/
theorem Bounded.temp_add_le (h : f.Bounded) (size : Nat) :
    (f.temp size).1 + (min size maxObject : Nat) ≤ 0 := by
  have hspan := min_le_span size
  have hnonpos := h.nonpos
  have hoffset : (f.temp size).1 = max (f.low - span (max size 1)) (-0x8000000000000000) := rfl
  have hmax : min size maxObject ≤ 0x7fffffff := Nat.min_le_right _ _
  omega

end Frame

namespace Code

/-- A frame that is bounded stays so and only grows. -/
theorem tracks_bounded : Emission.Tracks fun s s' =>
    s.frame.Bounded → s'.frame.Bounded ∧ s'.frame.low ≤ s.frame.low where
  refl _ h := ⟨h, le_refl _⟩
  trans h h' hs := ⟨(h' (h hs).1).1, (h' (h hs).1).2.trans (h hs).2⟩
  number _ _ h := ⟨h, le_refl _⟩
  text _ _ h := ⟨h, le_refl _⟩
  routine _ _ h := ⟨h, le_refl _⟩
  temp _ size h := h.temp size
  bind _ _ _ _ _ _ h := ⟨⟨h.least, h.nonpos⟩, le_refl _⟩
  enter _ h := ⟨⟨h.least, h.nonpos⟩, le_refl _⟩
  leave _ h := ⟨⟨h.least, h.nonpos⟩, le_refl _⟩

end Code

end Sigil
