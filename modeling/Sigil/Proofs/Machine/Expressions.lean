import Sigil.Proofs.Machine.Values

/-!
# Code for simple expressions

The code of an expression on integers, characters, truth values and enums leaves in `rax` the word for
the value of the expression, with the stack as it was and all memory above its top untouched. What is
proved of a block of code (`Block.Computes`) holds wherever the block stands in a program, so that the
code of an operator follows from the code of its operands.
-/

namespace Sigil

open Code Machine Meaning

/-! ## Locals in memory -/

namespace Machine.State

/-- The value of a simple type that is stored at an address. -/
def valueAt (s : State) (t : Ty) (a : Word) : Int :=
  let size := t.scalarSize?.getD 0
  if t.isSigned then (s.mem.load a size : Int).bmod (256 ^ size) else s.mem.load a size

/-- A slot lies at or above the top of the stack, and holds a value in the range of its type. -/
structure Stores (s : State) (slot : Slot) (v : Int) : Prop where
  value : s.valueAt slot.ty (s.address .rbp slot.offset) = v
  range : slot.ty.wrap v = v
  above : (s.regs .rsp).toNat ≤ (s.address .rbp slot.offset).toNat
  inside : (s.address .rbp slot.offset).toNat + slot.ty.scalarSize?.getD 0 ≤ 2 ^ 64

/-- The slots of the names in an expression hold the given values. -/
def Holds (s : State) (f : Frame) (σ : String → Int) (e : Expr) : Prop :=
  ∀ m x, .ident m x ∈ e.nodes → ∀ slot, f.get? x = some slot → s.Stores slot (σ x)

/-- Slots are out of reach for what happens below the top of the stack. -/
theorem Within.stores {s s' : State} (h : s.Within s') {slot : Slot} {v : Int}
    (hs : s.Stores slot v) : s'.Stores slot v := by
  have haddress : s'.address .rbp slot.offset = s.address .rbp slot.offset := by
    rw [address, address, h.rbp]
  have hload : s'.mem.load (s.address .rbp slot.offset) (slot.ty.scalarSize?.getD 0) =
      s.mem.load (s.address .rbp slot.offset) (slot.ty.scalarSize?.getD 0) := by
    -- The slot does not wrap around, so all of its bytes are at or above the top of the stack.
    refine Memory.load_congr fun i hi => h.mem _ ?_
    have habove := hs.above
    have hinside := hs.inside
    rw [BitVec.toNat_add, BitVec.toNat_ofNat, Nat.mod_eq_of_lt (by omega), Nat.mod_eq_of_lt (by omega)]
    omega
  refine ⟨?_, hs.range, ?_, ?_⟩
  · rw [haddress, ← hs.value, valueAt, valueAt, hload]
  · rw [haddress]
    exact Nat.le_trans h.rsp hs.above
  · rw [haddress]
    exact hs.inside

theorem Within.holds {s s' : State} (h : s.Within s') {f : Frame} {σ : String → Int} {e : Expr}
    (hs : s.Holds f σ e) : s'.Holds f σ e :=
  fun m x hx slot hslot => h.stores (hs m x hx slot hslot)

end Machine.State

theorem widthOf_eq {t : Ty} (ht : t.isScalar = true) :
    widthOf t = resultWidth t ∧ t.scalarSize? = some (resultWidth t).bytes := by
  cases t with
  | int bits signed => rcases Ty.isScalar_int ht with rfl | rfl | rfl | rfl <;> exact ⟨rfl, rfl⟩
  | char | bool | enum => exact ⟨rfl, rfl⟩
  | _ => exact nomatch ht

/-- What is stored at an address is the value that its bytes stand for in the type. -/
theorem valueAt_eq {t : Ty} (ht : t.isScalar = true) (hb : t ≠ .bool) (s : State) (a : Word) :
    s.valueAt t a = t.wrap (s.mem.load a (resultWidth t).bytes) := by
  have hlt := s.mem.load_lt a (resultWidth t).bytes
  unfold State.valueAt
  rw [(widthOf_eq ht).2, Option.getD_some]
  dsimp only
  generalize s.mem.load a (resultWidth t).bytes = n at hlt
  have hmod : ∀ k : Nat, n < k → (n : Int) = n % (k : Int) := fun k hk =>
    (Int.emod_eq_of_lt (Int.natCast_nonneg n) (Int.ofNat_lt.2 hk)).symm
  cases t with
  | int bits signed =>
    have hsize : 256 ^ (resultWidth (.int bits signed)).bytes = 2 ^ min bits 64 := by
      rcases Ty.isScalar_int ht with rfl | rfl | rfl | rfl <;> rfl
    rw [hsize] at hlt ⊢
    cases signed with
    | true => rfl
    | false =>
      have hn := hmod _ hlt
      rw [Nat.cast_pow] at hn
      exact hn
  | char => exact hmod _ hlt
  | enum x => exact hmod _ hlt
  | bool => exact absurd rfl hb
  | _ => exact nomatch ht

/-- A load extends the bytes at the address to a word. -/
theorem gives_load (t : Ty) (s : State) :
    Block.Gives (load t) s ((widthOf t).extended t.isSigned
      (.ofNat 64 (s.mem.load (s.regs .rax) (widthOf t).bytes))) := by
  have haddress : s.address .rax 0 = s.regs .rax := by simp [State.address]
  unfold load
  split
  · next hw =>
    simp only [Block.Gives, Line.mov, State.run, State.exec, State.read, State.write, haddress,
      Option.bind_eq_bind, Option.bind_some]
    rw [hw, Width.extended_quad]
    exact ⟨_, rfl, State.keeps_of_regs rfl rfl rfl, rfl⟩
  · next w hw =>
    simp only [Block.Gives, State.run, State.exec, State.read, haddress, Option.bind_eq_bind,
      Option.bind_some, Option.pure_def]
    exact ⟨_, rfl, State.keeps_of_regs rfl rfl rfl, rfl⟩

/-- A load replaces an address by the word for what is stored there. -/
theorem exists_gives_load {t : Ty} (ht : t.isScalar = true) {s : State} {v : Int}
    (hv : s.valueAt t (s.regs .rax) = v) (hrange : t.wrap v = v) :
    ∃ w, Block.Gives (load t) s w ∧ t.Represents w v := by
  have hwidth := (widthOf_eq ht).1
  -- The byte of a truth value is taken as it is, and is zero or one because it is in range.
  have hbool : t = .bool → (s.mem.load (s.regs .rax) (resultWidth t).bytes : Int) = v := by
    rintro rfl
    exact hv
  have hvalue : t.wrap (s.mem.load (s.regs .rax) (resultWidth t).bytes) = v := by
    by_cases hb : t = .bool
    · rw [hbool hb, hrange]
    · rw [← valueAt_eq ht hb, hv]
  have htruth : t = .bool → (s.mem.load (s.regs .rax) (resultWidth t).bytes : Int) = 0 ∨
      (s.mem.load (s.regs .rax) (resultWidth t).bytes : Int) = 1 := by
    intro hb
    rw [hbool hb, ← hrange, hb]
    exact Ty.wrap_bool v
  have hrep := represents_extended ht htruth
  rw [hvalue, BitVec.ofInt_natCast] at hrep
  rw [← hwidth] at hrep
  exact ⟨_, gives_load t s, hrep⟩

/-! ## Code that computes a value -/

/-- Wherever the block stands in a program, from every state in `P` with enough room on the stack it
leaves in `rax` a word of type `t` for what `x` works out. -/
def Machine.Block.Computes (code : Block) (t : Ty) (x : Run Int) (room : Nat) (P : State → Prop) :
    Prop :=
  ∀ ⦃prog : Block⦄ ⦃i : Nat⦄, CodeAt prog i code → (Block.labels prog).Nodup →
    ∀ ⦃s : State⦄, P s → room ≤ (s.regs .rsp).toNat →
      ∀ ⦃h h' : History⦄ ⦃v : Int⦄, x h = (.ok v, h') →
        ∃ s', Steps prog ⟨i, s⟩ ⟨i + code.length, s'⟩ ∧ s.Keeps s' ∧ t.Represents (s'.regs .rax) v

namespace Machine.Block

variable {code code' tail : Block} {t u : Ty} {x y : Run Int} {room room' : Nat} {P : State → Prop}

theorem Computes.mono {Q : State → Prop} (h : Computes code t x room P) (hQ : ∀ s, Q s → P s)
    (hroom : room ≤ room') : Computes code t x room' Q :=
  fun _ _ hcode hlabels _ hs hr => h hcode hlabels (hQ _ hs) (Nat.le_trans hroom hr)

/-- A block without jumps. -/
theorem computes_of_gives {v : Int}
    (h : ∀ s, P s → ∃ w, Gives code s w ∧ t.Represents w v)
    (hx : ∀ h h' r, x h = (.ok r, h') → r = v) : Computes code t x room P := by
  intro prog i hcode _ s hs _ h0 h1 r hr
  obtain ⟨w, ⟨s', hrun, hkeeps, hrax⟩, hrep⟩ := h s hs
  rw [hx h0 h1 r hr]
  exact ⟨s', hcode.steps hrun, hkeeps, hrax ▸ hrep⟩

/-- A block without jumps works on what has been computed. -/
theorem Computes.andThen (hx : Computes code t x room P) {k : Int → Run Int}
    (htail : ∀ s a h h' r, t.Represents (s.regs .rax) a → k a h = (.ok r, h') →
      ∃ w, Gives tail s w ∧ u.Represents w r) : Computes (code ++ tail) u (x >>= k) room P := by
  intro prog i hcode hlabels s hs hroom h h' r hr
  obtain ⟨a, h1, ha, hk⟩ := Attempt.bind_eq_ok.1 hr
  obtain ⟨s1, hsteps, hkeeps, hrep⟩ := hx hcode.left hlabels hs hroom ha
  obtain ⟨w, ⟨s2, hrun, hkeeps', hrax⟩, hrep'⟩ := htail s1 a h1 h' r hrep hk
  have hsteps' := hcode.right.steps hrun
  rw [Nat.add_assoc, ← List.length_append] at hsteps'
  exact ⟨s2, hsteps.trans hsteps', hkeeps.trans hkeeps', hrax ▸ hrep'⟩

end Machine.Block

namespace Machine.State

/-- The state after a push of `rax`. -/
def pushed (s : State) : State :=
  { s.set .rsp (s.regs .rsp - 8) with
    mem := s.mem.store (s.regs .rsp - 8) 8 (s.regs .rax).toNat }

theorem run_push (s : State) : s.run [.push .rax] = some s.pushed := by
  simp [run, Line.push, exec, read, pushed]

variable {s s' : State}

theorem toNat_sub_eight (h : 8 ≤ (s.regs .rsp).toNat) :
    (s.regs .rsp - 8).toNat = (s.regs .rsp).toNat - 8 := by
  have hlt := (s.regs .rsp).isLt
  rw [BitVec.toNat_sub]
  change (2 ^ 64 - 8 + (s.regs .rsp).toNat) % 2 ^ 64 = _
  omega

/-- A push writes below the top of the stack. -/
theorem within_pushed (h : 8 ≤ (s.regs .rsp).toNat) : s.Within s.pushed := by
  have htop := toNat_sub_eight h
  refine ⟨rfl, ?_, fun a ha => ?_⟩
  · change (s.regs .rsp - 8).toNat ≤ _
    omega
  · refine Memory.store_of_le ?_
    rw [BitVec.toNat_sub, htop]
    have halt := a.isLt
    omega

/-- What has been pushed is on top as long as the stack is kept. -/
theorem load_pushed (h : 8 ≤ (s.regs .rsp).toNat) (hkeeps : s.pushed.Keeps s') :
    s'.mem.load (s'.regs .rsp) 8 = (s.regs .rax).toNat := by
  have htop := toNat_sub_eight h
  have hrsp : s'.regs .rsp = s.regs .rsp - 8 := hkeeps.rsp
  have hlt := (s.regs .rsp).isLt
  have hload : s'.mem.load (s.regs .rsp - 8) 8 = s.pushed.mem.load (s.regs .rsp - 8) 8 := by
    refine Memory.load_congr fun i hi => hkeeps.mem _ ?_
    change (s.regs .rsp - 8).toNat ≤ _
    rw [BitVec.toNat_add, BitVec.toNat_ofNat, htop, Nat.mod_eq_of_lt (by omega),
      Nat.mod_eq_of_lt (by omega)]
    omega
  rw [hrsp, hload]
  change (s.mem.store _ 8 _).load _ 8 = _
  rw [Memory.load_store _ _ (le_refl 8) (by decide)]
  exact Nat.mod_eq_of_lt (s.regs .rax).isLt

/-- As long as the stack is kept, a pop gives back what has been pushed, and the stack is as it was. -/
theorem run_pop (h : 8 ≤ (s.regs .rsp).toNat) (hkeeps : s.pushed.Keeps s') :
    ∃ s'', s'.run [.copy .rax .rcx, .pop .rax] = some s'' ∧ s.Keeps s'' ∧
      s''.regs .rax = s.regs .rax ∧ s''.regs .rcx = s'.regs .rax := by
  have htop := toNat_sub_eight h
  have hload := load_pushed h hkeeps
  simp only [run, Line.copy, Line.mov, Line.pop, exec, read, write, Width.extended_quad, Width.merged,
    Option.bind_eq_bind, Option.bind_some, regs_set, mem_set, reduceCtorEq, if_false, hload]
  refine ⟨_, rfl, ⟨hkeeps.rbp, ?_, fun a ha => ?_⟩, ?_, rfl⟩
  · change s'.regs .rsp + 8 = s.regs .rsp
    rw [hkeeps.rsp]
    exact BitVec.sub_add_cancel _ _
  · have hlow : (s.pushed.regs .rsp).toNat ≤ a.toNat := by
      change (s.regs .rsp - 8).toNat ≤ _
      omega
    exact (hkeeps.mem a hlow).trans ((within_pushed h).mem a ha)
  · change BitVec.ofNat 64 (s.regs .rax).toNat = _
    rw [BitVec.ofNat_toNat, BitVec.setWidth_eq]

end Machine.State

namespace Machine.Block

variable {code code' tail : Block} {t u : Ty} {x y : Run Int} {room room' : Nat} {P : State → Prop}

/-- The first operand waits on the stack while the second one is computed. -/
theorem Computes.operands (hP : ∀ s s' : State, s.Within s' → P s → P s')
    (hx : Computes code t x room P) (hy : Computes code' t y room' P) {k : Int → Int → Run Int}
    (htail : ∀ s a b h h' r, t.Represents (s.regs .rax) a → t.Represents (s.regs .rcx) b →
      k a b h = (.ok r, h') → ∃ w, Gives tail s w ∧ u.Represents w r) :
    Computes (code ++ [Line.push .rax] ++ code' ++ [Line.copy .rax .rcx, .pop .rax] ++ tail) u
      (x >>= fun a => y >>= k a) (max room (8 + room')) P := by
  intro prog i hcode hlabels s hs hroom h h' r hr
  obtain ⟨a, h1, ha, hr⟩ := Attempt.bind_eq_ok.1 hr
  obtain ⟨b, h2, hb, hk⟩ := Attempt.bind_eq_ok.1 hr
  -- The left operand, which is pushed.
  obtain ⟨s1, hsteps1, hkeeps1, hrep1⟩ :=
    hx hcode.left.left.left.left hlabels hs (by omega) ha
  have hroom1 : 8 + room' ≤ (s1.regs .rsp).toNat := by
    rw [hkeeps1.rsp]
    omega
  have hsteps2 := hcode.left.left.left.right.steps s1.run_push
  -- The right operand, from the state with the other one on the stack.
  have hwithin : s.Within s1.pushed := hkeeps1.within.trans (State.within_pushed (by omega))
  have hroom2 : room' ≤ (s1.pushed.regs .rsp).toNat := by
    have htop := State.toNat_sub_eight (s := s1) (by omega)
    change room' ≤ (s1.regs .rsp - 8).toNat
    omega
  obtain ⟨s3, hsteps3, hkeeps3, hrep3⟩ :=
    hy hcode.left.left.right hlabels (hP _ _ hwithin hs) hroom2 hb
  -- Both are brought into their registers.
  obtain ⟨s4, hrun4, hkeeps4, hrax, hrcx⟩ := State.run_pop (by omega) hkeeps3
  have hsteps4 := hcode.left.right.steps hrun4
  obtain ⟨w, ⟨s5, hrun5, hkeeps5, hrax5⟩, hrep5⟩ :=
    htail s4 a b h2 h' r (hrax ▸ hrep1) (hrcx ▸ hrep3) hk
  have hsteps5 := hcode.right.steps hrun5
  refine ⟨s5, ?_, hkeeps1.trans (hkeeps4.trans hkeeps5), hrax5 ▸ hrep5⟩
  simp only [List.length_append, ← Nat.add_assoc] at hsteps2 hsteps3 hsteps4 hsteps5 ⊢
  exact hsteps1.trans (hsteps2.trans (hsteps3.trans (hsteps4.trans hsteps5)))

/-- The second operand is computed only if the first one does not decide, which is then the result. -/
theorem Computes.shortCircuit {skip : Condition} {done : Label}
    (hP : ∀ s s' : State, s.Within s' → P s → P s') (hx : Computes code t x room P)
    (hy : Computes code' t y room' P) {k : Int → Run Int}
    (hk : ∀ (w : Word) (a : Int), t.Represents w a →
      k a = if skip.holds (.of (w &&& w) false false) then pure a else y) :
    Computes (code ++ [Line.test .rax, .jumpIf skip done] ++ code' ++ [Line.label done]) t (x >>= k)
      (max room room') P := by
  intro prog i hcode hlabels s hs hroom h h' r hr
  obtain ⟨a, h1, ha, hr⟩ := Attempt.bind_eq_ok.1 hr
  obtain ⟨s1, hsteps1, hkeeps1, hrep1⟩ := hx hcode.left.left.left hlabels hs (by omega) ha
  rw [hk _ _ hrep1] at hr
  -- The test sets the flags for the jump, which goes behind the second operand.
  have htest := hcode.left.left.right
  have hline := hcode.right.head
  let f : Flags := .of (s1.regs .rax &&& s1.regs .rax) false false
  let s2 : State := { s1 with flags := some f }
  have hkeeps2 : s.Keeps s2 := hkeeps1.trans (State.keeps_of_regs rfl rfl rfl)
  have hstep2 : step prog ⟨i + code.length, s1⟩ = some ⟨i + code.length + 1, s2⟩ :=
    step_of_exec htest.head rfl
  have hstep3 := step_jumpIf (s := s2) htest.tail.head (idxOf?_label hlabels hline) rfl
  have hstart : Steps prog ⟨i, s⟩ ⟨i + code.length + 1, s2⟩ := hsteps1.tail hstep2
  cases hholds : skip.holds f with
  | true =>
    rw [if_pos hholds] at hr hstep3
    obtain rfl : a = r := Except.ok.inj (congrArg Prod.fst hr)
    have hend := (hstart.tail hstep3).tail (step_label hline s2)
    refine ⟨s2, ?_, hkeeps2, hrep1⟩
    simp only [List.length_append, ← Nat.add_assoc] at hend ⊢
    exact hend
  | false =>
    rw [if_neg (by rw [hholds]; exact Bool.false_ne_true)] at hr hstep3
    have hroom2 : room' ≤ (s2.regs .rsp).toNat := by
      rw [hkeeps2.rsp]
      omega
    obtain ⟨s4, hsteps4, hkeeps4, hrep4⟩ :=
      hy hcode.left.right hlabels (hP _ _ hkeeps2.within hs) hroom2 hr
    have hmiddle := hstart.tail hstep3
    simp only [List.length_append, ← Nat.add_assoc] at hsteps4 hline ⊢
    exact ⟨s4, (hmiddle.trans hsteps4).tail (step_label hline s4), hkeeps2.trans hkeeps4, hrep4⟩

end Machine.Block

end Sigil
