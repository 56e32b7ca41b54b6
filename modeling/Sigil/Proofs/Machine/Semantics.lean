import Mathlib.Data.Nat.ModEq
import Mathlib.Logic.Relation
import Sigil.Machine.Block
import Sigil.Token

/-!
# What generated code does

The instructions of generated code as steps of a machine with 64-bit registers, four flags and memory
made of bytes, where words are stored with their low byte first. Sums and addresses wrap around. A
division without a result is a step that the machine cannot take, and so is a test of flags that the
last instruction left undefined. Calls, system calls and the string instructions are not modelled.

A program is a list of lines, and a jump goes to the line with its label.
-/

namespace Sigil.Machine

/-! ## Memory -/

/-- The contents of memory, byte by byte. -/
abbrev Memory := Word → BitVec 8

namespace Memory

/-- The number that `n` bytes from an address on stand for, the low byte first. -/
def load (m : Memory) (a : Word) : Nat → Nat
  | 0 => 0
  | n + 1 => m.load a n + 256 ^ n * (m (a + .ofNat 64 n)).toNat

/-- The low `n` bytes of a number are stored from an address on. -/
def store (m : Memory) (a : Word) (n v : Nat) : Memory := fun b =>
  if (b - a).toNat < n then .ofNat 8 (v / 256 ^ (b - a).toNat) else m b

theorem load_lt (m : Memory) (a : Word) (n : Nat) : m.load a n < 256 ^ n := by
  induction n with
  | zero => exact Nat.one_pos
  | succ n ih =>
    have hbyte : 256 ^ n * (m (a + .ofNat 64 n)).toNat ≤ 256 ^ n * 255 :=
      Nat.mul_le_mul_left _ (Nat.le_of_lt_succ (m (a + .ofNat 64 n)).isLt)
    rw [load, Nat.pow_succ]
    omega

/-- What is loaded depends on the bytes that are loaded only. -/
theorem load_congr {m m' : Memory} {a : Word} {n : Nat}
    (h : ∀ i < n, m' (a + .ofNat 64 i) = m (a + .ofNat 64 i)) : m'.load a n = m.load a n := by
  induction n with
  | zero => rfl
  | succ n ih =>
    rw [load, load, h n (Nat.lt_succ_self n), ih fun i hi => h i (Nat.lt_succ_of_lt hi)]

theorem sub_self_add (a : Word) {i : Nat} (hi : i < 2 ^ 64) : (a + .ofNat 64 i - a).toNat = i := by
  have h : a + .ofNat 64 i - a = .ofNat 64 i := by
    rw [BitVec.add_comm, BitVec.add_sub_cancel]
  rw [h, BitVec.toNat_ofNat, Nat.mod_eq_of_lt hi]

/-- What has been stored is loaded again. -/
theorem load_store (m : Memory) (a : Word) {k n : Nat} (hk : k ≤ n) (hn : n ≤ 2 ^ 64) (v : Nat) :
    (m.store a n v).load a k = v % 256 ^ k := by
  induction k with
  | zero => rw [load, Nat.pow_zero, Nat.mod_one]
  | succ k ih =>
    -- The next byte of the number, which does not wrap around the memory.
    have hoffset : (a + .ofNat 64 k - a).toNat = k := sub_self_add a (by omega)
    have hbyte : (m.store a n v (a + .ofNat 64 k)).toNat = v / 256 ^ k % 256 := by
      rw [store, hoffset, if_pos (by omega), BitVec.toNat_ofNat]
    rw [load, ih (by omega), hbyte, Nat.mod_pow_succ]

/-- Bytes that are not stored stay. -/
theorem store_of_le {m : Memory} {a b : Word} {n v : Nat} (h : n ≤ (b - a).toNat) :
    m.store a n v b = m b := by
  rw [store, if_neg (by omega)]

end Memory

/-! ## Registers and flags -/

namespace Width

/-- The low part of a word, extended to a whole word by its sign or by zeros. -/
def extended (w : Width) (signed : Bool) (v : Word) : Word :=
  let low := v.setWidth (8 * w.bytes)
  if signed then low.signExtend 64 else low.setWidth 64

/-- What a register holds after its low part has been written: a write of 32 bits clears the rest, and
a narrower one leaves it. -/
def merged (w : Width) (old v : Word) : Word :=
  match w with
  | quad => v
  | long => long.extended false v
  | w =>
    let size := 256 ^ w.bytes
    .ofNat 64 (old.toNat / size * size + v.toNat % size)

end Width

/-- The flags that generated code tests. -/
structure Flags where
  zero : Bool
  sign : Bool
  carry : Bool
  overflow : Bool
deriving DecidableEq, Repr

/-- The flags of a result. -/
def Flags.of (v : Word) (carry overflow : Bool) : Flags :=
  ⟨v == 0, v.msb, carry, overflow⟩

/-- The flags of a difference. -/
def Flags.ofSub (a b : Word) : Flags :=
  .of (a - b) (a.usubOverflow b) (a.ssubOverflow b)

/-- Whether the flags satisfy a condition. -/
def Condition.holds (f : Flags) : Condition → Bool
  | e => f.zero
  | ne => !f.zero
  | l => f.sign != f.overflow
  | le => f.zero || f.sign != f.overflow
  | g => !(f.zero || f.sign != f.overflow)
  | ge => !(f.sign != f.overflow)
  | b => f.carry
  | be => f.carry || f.zero
  | a => !(f.carry || f.zero)
  | ae => !f.carry
  | s => f.sign
  | ns => !f.sign

/-- The state of the machine; flags may be undefined. -/
structure State where
  regs : Register → Word
  flags : Option Flags
  mem : Memory

namespace State

/-- A register gets another value. -/
def set (s : State) (r : Register) (v : Word) : State :=
  { s with regs := fun q => if q = r then v else s.regs q }

/-- The address of a cell. -/
def address (s : State) (base : Register) (disp : Int) : Word :=
  s.regs base + .ofInt 64 disp

/-- What an operand holds, as a word. -/
def read (s : State) (w : Width) : Operand → Option Word
  | .reg r => some (w.extended false (s.regs r))
  | .imm n => some (w.extended false (.ofInt 64 n))
  | .mem base disp => some (.ofNat 64 (s.mem.load (s.address base disp) w.bytes))
  | .label _ => none

/-- The low part of a word goes to an operand. -/
def write (s : State) (w : Width) (v : Word) : Operand → Option State
  | .reg r => some (s.set r (w.merged (s.regs r) v))
  | .mem base disp => some { s with mem := s.mem.store (s.address base disp) w.bytes v.toNat }
  | .imm _ | .label _ => none

@[simp] theorem regs_set (s : State) (r q : Register) (v : Word) :
    (s.set r v).regs q = if q = r then v else s.regs q := rfl

@[simp] theorem mem_set (s : State) (r : Register) (v : Word) : (s.set r v).mem = s.mem := rfl

end State

/-! ## Instructions -/

/-- The result of an operation and its flags. A product leaves flags undefined. -/
def ArithOp.apply (dst src : Word) : ArithOp → Word × Option Flags
  | add => (dst + src, some (.of (dst + src) (dst.uaddOverflow src) (dst.saddOverflow src)))
  | sub => (dst - src, some (.ofSub dst src))
  | imul => (dst * src, none)
  | and => (dst &&& src, some (.of (dst &&& src) false false))
  | or => (dst ||| src, some (.of (dst ||| src) false false))
  | xor => (dst ^^^ src, some (.of (dst ^^^ src) false false))

/-- The same for one operand. Counting leaves the carry alone, and negating bits all flags. -/
def UnaryOp.apply (v : Word) (flags : Option Flags) : UnaryOp → Word × Option Flags
  | neg => (-v, some (.of (-v) (v != 0) v.negOverflow))
  | not => (~~~v, flags)
  | inc => (v + 1, flags.map fun f => .of (v + 1) f.carry (v.saddOverflow 1))
  | dec => (v - 1, flags.map fun f => .of (v - 1) f.carry (v.ssubOverflow 1))

/-- The quotient and the remainder of a double word by a word, if there is a divisor and the quotient
fits. -/
def divide (signed : Bool) (high low divisor : Word) : Option (Word × Word) :=
  if signed then
    let n := high.toInt * 2 ^ 64 + low.toNat
    let q := n.tdiv divisor.toInt
    if divisor = 0 ∨ q < -2 ^ 63 ∨ 2 ^ 63 ≤ q then none
    else some (.ofInt 64 q, .ofInt 64 (n.tmod divisor.toInt))
  else
    let n := high.toNat * 2 ^ 64 + low.toNat
    let q := n / divisor.toNat
    if divisor = 0 ∨ 2 ^ 64 ≤ q then none
    else some (.ofNat 64 q, .ofNat 64 (n % divisor.toNat))

/-- Carries out an instruction that does not jump. -/
def State.exec (s : State) : Instruction → Option State
  | .mov w src dst => do s.write w (← s.read w src) dst
  | .extend signed w src dst => do return s.set dst (w.extended signed (← s.read w src))
  | .lea (.mem base disp) dst => some (s.set dst (s.address base disp))
  | .push src => do
    let v ← s.read .quad src
    let top := s.regs .rsp - 8
    return { s.set .rsp top with mem := s.mem.store top 8 v.toNat }
  | .pop dst =>
    some ((s.set .rsp (s.regs .rsp + 8)).set dst (.ofNat 64 (s.mem.load (s.regs .rsp) 8)))
  | .arith op src dst => do
    let (v, flags) := op.apply (s.regs dst) (← s.read .quad src)
    return { s.set dst v with flags }
  | .unary op dst =>
    let (v, flags) := op.apply (s.regs dst) s.flags
    some { s.set dst v with flags }
  | .spreadSign => some (s.set .rdx (if (s.regs .rax).msb then -1 else 0))
  | .divide signed d => do
    let (q, r) ← divide signed (s.regs .rdx) (s.regs .rax) (s.regs d)
    return { (s.set .rax q).set .rdx r with flags := none }
  | .cmp src dst => do return { s with flags := some (.ofSub (s.regs dst) (← s.read .quad src)) }
  | .test l r => some { s with flags := some (.of (s.regs l &&& s.regs r) false false) }
  | .set c dst => do s.write .byte (if c.holds (← s.flags) then 1 else 0) (.reg dst)
  | _ => none

/-! ## Programs -/

/-- A place in a program, by the number of lines before it, and the state there. -/
structure Config where
  pc : Nat
  state : State

/-- One step of a program. Labels do nothing. -/
def step (code : Block) (c : Config) : Option Config := do
  match ← code[c.pc]? with
  | .label _ | .comment _ => return ⟨c.pc + 1, c.state⟩
  | .directive _ => none
  | .instr (.jump l) => return ⟨← code.idxOf? (.label l), c.state⟩
  | .instr (.jumpIf cond l) =>
    if cond.holds (← c.state.flags) then return ⟨← code.idxOf? (.label l), c.state⟩
    else return ⟨c.pc + 1, c.state⟩
  | .instr i => return ⟨c.pc + 1, ← c.state.exec i⟩

/-- Any number of steps. -/
abbrev Steps (code : Block) : Config → Config → Prop :=
  Relation.ReflTransGen fun c c' => step code c = some c'

/-- Behind its last line a program has ended. -/
theorem step_length (code : Block) (s : State) : step code ⟨code.length, s⟩ = none := by
  simp [step]

end Sigil.Machine
