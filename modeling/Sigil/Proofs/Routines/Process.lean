import Sigil.Proofs.Machine.Values
import Sigil.Proofs.Machine.Writes

/-!
# Running programs

The steps of a program with its calls, its returns and the one service of the system that routines for
output ask for (`Image.step`). A call leaves the address of the line behind it on the stack, and a return
goes to the line whose address is on top. Writing hands over all bytes at once, and of the machine it
changes three registers only, to values that nothing is known of (`System`).

What a routine uses of the stack lies below the place that it has been called with. This is said around the
end of the address space too: all bytes keep their contents but for some directly below that place
(`Memory.SameAbove`).
-/

namespace Sigil.Machine

open State

/-! ## Memory above a place -/

namespace Memory

/-- Some bytes side by side. -/
def slice (m : Memory) (a : Word) (n : Nat) : List (BitVec 8) :=
  (addresses a n).map m

/-- From the address on, upwards and around, memory is the same but for the last `n` bytes, which are those
directly below the address. -/
def SameAbove (m m' : Memory) (top : Word) (n : Nat) : Prop :=
  ∀ a : Word, (a - top).toNat < 2 ^ 64 - n → m' a = m a

variable {m m' m'' : Memory} {top : Word} {n k : Nat}

theorem SameAbove.refl (m : Memory) (top : Word) (n : Nat) : m.SameAbove m top n :=
  fun _ _ => rfl

theorem SameAbove.trans (h : m.SameAbove m' top n) (h' : m'.SameAbove m'' top n) : m.SameAbove m'' top n :=
  fun a ha => (h' a ha).trans (h a ha)

theorem SameAbove.mono (h : m.SameAbove m' top n) (hk : n ≤ k) : m.SameAbove m' top k :=
  fun a ha => h a (by omega)

/-- How far an address lies above a lower place. -/
theorem toNat_sub_lower (a top : Word) (k : Nat) :
    (a - (top - .ofNat 64 k)).toNat = ((a - top).toNat + k) % 2 ^ 64 := by
  have hoffset : a - (top - .ofNat 64 k) = (a - top) + .ofNat 64 k := by
    rw [BitVec.sub_eq_iff_eq_add, BitVec.add_assoc, BitVec.add_comm (.ofNat 64 k), BitVec.sub_add_cancel,
      BitVec.sub_add_cancel]
  rw [hoffset, BitVec.toNat_add, BitVec.toNat_ofNat, Nat.add_mod_mod]

/-- What is the same above a lower place is the same above a higher one. -/
theorem SameAbove.above (h : m.SameAbove m' (top - .ofNat 64 k) n) {room : Nat} (hroom : n + k ≤ room) :
    m.SameAbove m' top room := by
  intro a ha
  refine h a ?_
  rw [toNat_sub_lower, Nat.mod_eq_of_lt (by omega)]
  omega

theorem sameAbove_store (m : Memory) (top : Word) (n v : Nat) :
    m.SameAbove (m.store (top - .ofNat 64 n) n v) top n := by
  intro a ha
  refine store_of_le ?_
  rw [toNat_sub_lower, Nat.mod_eq_of_lt (by omega)]
  exact Nat.le_add_left n _

/-- At addresses that are not smaller, memory is the same, as long as there is room below. -/
theorem SameAbove.of_le (h : m.SameAbove m' top n) (hroom : n ≤ top.toNat) {a : Word}
    (ha : top.toNat ≤ a.toNat) : m' a = m a := by
  refine h a ?_
  have hoffset : (a - top).toNat = a.toNat - top.toNat := BitVec.toNat_sub_of_le ha
  have hlt := a.isLt
  omega

/-- What is loaded from there is the same. -/
theorem SameAbove.load_eq (h : m.SameAbove m' top n) (hk : k + n ≤ 2 ^ 64) : m'.load top k = m.load top k := by
  refine load_congr fun i hi => h _ ?_
  rw [sub_self_add top (by omega)]
  omega

theorem SameAbove.slice_eq (h : m.SameAbove m' top n) (hk : k + n ≤ 2 ^ 64) :
    m'.slice top k = m.slice top k := by
  refine List.map_congr_left fun a ha => h a ?_
  obtain ⟨i, hi, rfl⟩ := List.mem_map.1 ha
  have hlt := List.mem_range.1 hi
  rw [sub_self_add top (by omega)]
  omega

theorem slice_succ (m : Memory) (a : Word) (n : Nat) : m.slice a (n + 1) = m a :: m.slice (a + 1) n := by
  rw [slice, addresses_succ]
  rfl

/-- The first byte of what has been stored. -/
theorem store_self (m : Memory) (a : Word) (hn : 0 < n) (v : Nat) : m.store a n v a = .ofNat 8 v := by
  simp [store, hn]

end Memory

/-! ## Processes -/

/-- A program as it lies in memory, apart from its data. -/
structure Image where
  code : Block
  /-- The address of a line. -/
  address : Nat → Word
  /-- The line that begins at an address. -/
  lineAt : Word → Option Nat
  /-- A call takes up room, so the line behind it is the first one to begin where it does. -/
  lineAt_address : ∀ i l, code[i]? = some (.instr (.call l)) → lineAt (address (i + 1)) = some (i + 1)

/-- A program on its way: the line that it has come to, the state of the machine, and what has been written
to each descriptor. -/
structure Process where
  pc : Nat
  state : State
  output : Word → List (BitVec 8)

/-- The registers that a call of the system does not keep. -/
def systemRegisters : List Register := [.rax, .rcx, .r11]

/-- The system: what it leaves in the registers that it does not keep. -/
abbrev System := Process → Register → Word

/-- The bytes that begin at `rsi`, as many as `rdx` says, are written to the descriptor in `rdi`. -/
def System.write (sys : System) (p : Process) : Process :=
  let s := p.state
  let written := p.output (s.regs .rdi) ++ s.mem.slice (s.regs .rsi) (s.regs .rdx).toNat
  { pc := p.pc + 1
    state := { s with regs := fun q => if q ∈ systemRegisters then sys p q else s.regs q }
    output := Function.update p.output (s.regs .rdi) written }

/-- A word is put on the stack. -/
def State.push (s : State) (v : Word) : State :=
  { s.set .rsp (s.regs .rsp - 8) with mem := s.mem.store (s.regs .rsp - 8) 8 v.toNat }

/-- The word on top of the stack. -/
def State.top (s : State) : Word :=
  .ofNat 64 (s.mem.load (s.regs .rsp) 8)

/-! ## Single lines -/

namespace State

variable {s : State} {code : Block}
variable {v : Word} {m : Memory} {n : Nat}

@[simp] theorem regs_push (s : State) (v : Word) (q : Register) :
    (s.push v).regs q = if q = .rsp then s.regs .rsp - 8 else s.regs q := rfl

@[simp] theorem mem_push (s : State) (v : Word) :
    (s.push v).mem = s.mem.store (s.regs .rsp - 8) 8 v.toNat := rfl

/-- What has been done below a word on the stack has been done below the place of the word. -/
theorem sameAbove_of_push {room : Nat}
    (h : (s.push v).mem.SameAbove m (s.regs .rsp - 8) n) (hroom : n + 8 ≤ room) :
    s.mem.SameAbove m (s.regs .rsp) room :=
  ((s.mem.sameAbove_store (s.regs .rsp) 8 v.toNat).mono (by omega)).trans (h.above (k := 8) hroom)

/-- A word stays on the stack as long as only memory below it is used. -/
theorem load_of_push
    (h : (s.push v).mem.SameAbove m (s.regs .rsp - 8) n) (hn : 8 + n ≤ 2 ^ 64) :
    BitVec.ofNat 64 (m.load (s.regs .rsp - 8) 8) = v := by
  have hfits : v.toNat < 256 ^ 8 := v.isLt
  rw [h.load_eq hn, mem_push, Memory.load_store _ _ (Nat.le_refl 8) (by decide),
    Nat.mod_eq_of_lt hfits, BitVec.ofNat_toNat, BitVec.setWidth_eq]

theorem run_copy (src dst : Register) :
    s.run (.copy src dst :: code) = (s.set dst (s.regs src)).run code := by
  simp [run, Line.copy, Line.mov, exec, read, write, Width.merged]

theorem run_const (n : Int) (dst : Register) :
    s.run (.const n dst :: code) = (s.set dst (.ofInt 64 n)).run code := by
  simp [run, Line.const, Line.mov, exec, read, write, Width.merged]

theorem run_lea (base dst : Register) (disp : Int) :
    s.run (.lea (.mem base disp) dst :: code) = (s.set dst (s.address base disp)).run code := rfl

theorem run_push_cons (r : Register) : s.run (.push r :: code) = (s.push (s.regs r)).run code := by
  simp [run, Line.push, exec, read, push]

theorem run_pop_cons (r : Register) :
    s.run (.pop r :: code) = ((s.set .rsp (s.regs .rsp + 8)).set r s.top).run code := rfl

theorem run_arith {op : ArithOp} {src : Operand} (hv : s.read .quad src = some v)
    (dst : Register) :
    s.run (.instr (.arith op src dst) :: code) =
      run { s.set dst (op.apply (s.regs dst) v).1 with flags := (op.apply (s.regs dst) v).2 } code := by
  simp [run, exec, hv]

theorem run_clear (r : Register) :
    s.run (.clear r :: code) = run { s.set r 0 with flags := some (.of 0 false false) } code := by
  simp [run, Line.clear, Line.xor, exec, read, ArithOp.apply]

theorem run_divide {signed : Bool} {d : Register} {q r : Word}
    (h : Machine.divide signed (s.regs .rdx) (s.regs .rax) (s.regs d) = some (q, r)) :
    s.run (.instr (.divide signed d) :: code) =
      run { (s.set .rax q).set .rdx r with flags := none } code := by
  simp [run, exec, h]

theorem run_neg (r : Register) :
    s.run (.instr (.unary .neg r) :: code) = run { s.set r (-s.regs r) with
      flags := some (.of (-s.regs r) (s.regs r != 0) (s.regs r).negOverflow) } code := rfl

theorem run_test (r : Register) :
    s.run (.test r :: code) = run { s with flags := some (.of (s.regs r) false false) } code := by
  simp [run, Line.test, exec]

theorem run_dec (r : Register) :
    s.run (.instr (.unary .dec r) :: code) = run { s.set r (s.regs r - 1) with
      flags := s.flags.map fun f => .of (s.regs r - 1) f.carry ((s.regs r).ssubOverflow 1) } code := rfl

/-- A byte goes to memory. -/
theorem run_storeByte (src base : Register) :
    s.run (.instr (.mov .byte (.reg src) (.mem base 0)) :: code) =
      run { s with mem := s.mem.store (s.regs base) 1 (s.regs src).toNat } code := by
  have hstore : ∀ a v, s.mem.store a 1 (v % 256) = s.mem.store a 1 v := by
    intro a v
    funext b
    unfold Memory.store
    split
    · next hb =>
      rw [Nat.lt_one_iff.1 hb, Nat.pow_zero, Nat.div_one, Nat.div_one]
      apply BitVec.eq_of_toNat_eq
      simp
    · rfl
  have hbyte : (Width.byte.extended false (s.regs src)).toNat = (s.regs src).toNat % 256 := by
    simp only [Width.extended, Width.bytes, Bool.false_eq_true, if_false, BitVec.toNat_setWidth]
    omega
  simp [run, exec, read, write, address, Width.bytes, hbyte, hstore]

theorem read_imm (n : Int) : s.read .quad (.imm n) = some (.ofInt 64 n) := by
  simp [read]

theorem read_reg (r : Register) : s.read .quad (.reg r) = some (s.regs r) := by
  simp [read]

end State

namespace Image

variable (image : Image) (sys : System)
variable {l : Label} {c : Config}

/-- One step of a process. Of the system only writing is asked for. -/
def step (p : Process) : Option Process :=
  match image.code[p.pc]? with
  | some (.instr (.call l)) => do
    let target ← image.code.idxOf? (.label l)
    return { p with pc := target, state := p.state.push (image.address (p.pc + 1)) }
  | some (.instr .ret) => do
    let target ← image.lineAt p.state.top
    return { p with pc := target, state := p.state.set .rsp (p.state.regs .rsp + 8) }
  | some (.instr .syscall) =>
    if p.state.regs .rax = .ofInt 64 Routine.sysWrite then some (sys.write p) else none
  | _ => do
    let c ← Machine.step image.code ⟨p.pc, p.state⟩
    return { p with pc := c.pc, state := c.state }

/-- Any number of steps. -/
abbrev Runs : Process → Process → Prop :=
  Relation.ReflTransGen fun p p' => image.step sys p = some p'

variable {image sys} {i : Nat} {s s' : State} {out : Word → List (BitVec 8)}

/-- A step without the system and without calls is a step of the machine. -/
theorem step_of_step (h : Machine.step image.code ⟨i, s⟩ = some c) :
    image.step sys ⟨i, s, out⟩ = some ⟨c.pc, c.state, out⟩ := by
  unfold step
  split
  -- The machine alone is stuck at a call, a return and a call of the system.
  · next hline => simp [Machine.step, hline, exec] at h
  · next hline => simp [Machine.step, hline, exec] at h
  · next hline => simp [Machine.step, hline, exec] at h
  · simp [h]

theorem runs_of_steps {c' : Config} (h : Steps image.code c c') :
    image.Runs sys ⟨c.pc, c.state, out⟩ ⟨c'.pc, c'.state, out⟩ := by
  induction h with
  | refl => exact .refl
  | tail _ hstep ih => exact ih.tail (step_of_step hstep)

/-- A block without jumps, wherever it stands. -/
theorem runs_block {code : Block} (hcode : CodeAt image.code i code) (h : s.run code = some s') :
    image.Runs sys ⟨i, s, out⟩ ⟨i + code.length, s', out⟩ :=
  runs_of_steps (hcode.steps h)

theorem runs_label (hline : image.code[i]? = some (.label l)) :
    image.Runs sys ⟨i, s, out⟩ ⟨i + 1, s, out⟩ :=
  .single (step_of_step (step_label hline s))

theorem runs_jumpIf {target : Nat} {cond : Condition}
    (hline : image.code[i]? = some (.jumpIf cond l)) (htarget : image.code.idxOf? (.label l) = some target)
    {f : Flags} (hf : s.flags = some f) :
    image.Runs sys ⟨i, s, out⟩ ⟨if cond.holds f then target else i + 1, s, out⟩ :=
  .single (step_of_step (step_jumpIf hline htarget hf))

theorem runs_jump {target : Nat} (hline : image.code[i]? = some (.jump l))
    (htarget : image.code.idxOf? (.label l) = some target) :
    image.Runs sys ⟨i, s, out⟩ ⟨target, s, out⟩ := by
  refine .single (step_of_step (c := ⟨target, s⟩) ?_)
  unfold Machine.step
  rw [hline]
  simp [Line.jump, htarget]

theorem runs_call {target : Nat} (hline : image.code[i]? = some (.call l))
    (htarget : image.code.idxOf? (.label l) = some target) :
    image.Runs sys ⟨i, s, out⟩ ⟨target, s.push (image.address (i + 1)), out⟩ := by
  refine .single ?_
  unfold step
  simp [hline, Line.call, htarget]

theorem runs_ret {target : Nat} (hline : image.code[i]? = some .ret)
    (htarget : image.lineAt s.top = some target) :
    image.Runs sys ⟨i, s, out⟩ ⟨target, s.set .rsp (s.regs .rsp + 8), out⟩ := by
  refine .single ?_
  unfold step
  simp [hline, Line.ret, htarget]

/-- The system writes, and keeps memory and all registers but three. -/
theorem runs_write (sys : System) (out : Word → List (BitVec 8))
    (hline : image.code[i]? = some (.instr .syscall)) (hrax : s.regs .rax = 1) :
    ∃ s', image.Runs sys ⟨i, s, out⟩ ⟨i + 1, s', Function.update out (s.regs .rdi)
        (out (s.regs .rdi) ++ s.mem.slice (s.regs .rsi) (s.regs .rdx).toNat)⟩ ∧
      s'.mem = s.mem ∧ ∀ q, q ∉ systemRegisters → s'.regs q = s.regs q := by
  refine ⟨(sys.write ⟨i, s, out⟩).state, .single ?_, rfl, fun q hq => if_neg hq⟩
  unfold step
  simp [hline, hrax, Routine.sysWrite, System.write]

end Image

end Sigil.Machine
