import Mathlib.Logic.Function.Basic
import Sigil.Proofs.Machine.Execution

/-!
# Bytes that are written

What the lines of a block write, byte by byte and in order (`State.trace`), where the string instructions
are carried out too: each goes on from byte to byte, upwards, as often as `rcx` says. Memory is what it was
apart from these bytes (`State.mem_of_trace`).
-/

namespace Sigil.Machine

/-- A byte and the address that it is written to. -/
abbrev Write := Word × BitVec 8

/-- Some addresses side by side. -/
def addresses (a : Word) (n : Nat) : List Word :=
  (List.range n).map fun i => a + .ofNat 64 i

theorem addresses_succ (a : Word) (n : Nat) : addresses a (n + 1) = a :: addresses (a + 1) n := by
  have hstep : ∀ i, a + BitVec.ofNat 64 (i + 1) = a + 1 + .ofNat 64 i := by
    intro i
    rw [BitVec.ofNat_add, BitVec.add_comm (.ofNat 64 i), ← BitVec.add_assoc]
    rfl
  rw [addresses, List.range_succ_eq_map, List.map_cons, List.map_map, addresses]
  exact congrArg₂ List.cons (BitVec.add_zero a) (List.map_congr_left fun i _ => hstep i)

namespace Memory

/-- Memory after some bytes have been written, one after another. -/
def apply (m : Memory) (ws : List Write) : Memory :=
  ws.foldl (fun m w => Function.update m w.1 w.2) m

theorem apply_append (m : Memory) (ws ws' : List Write) : m.apply (ws ++ ws') = (m.apply ws).apply ws' :=
  List.foldl_append

/-- The low bytes of a number, on their way to addresses side by side. -/
def bytes (a : Word) (n v : Nat) : List Write :=
  (List.range n).map fun i => (a + .ofNat 64 i, .ofNat 8 (v / 256 ^ i))

/-- Bytes that are copied one after another, so that a byte may be copied again. -/
def copies (m : Memory) (src dst : Word) : Nat → List Write
  | 0 => []
  | n + 1 => (dst, m src) :: copies (Function.update m dst (m src)) (src + 1) (dst + 1) n

theorem map_fst_bytes (a : Word) (n v : Nat) : (bytes a n v).map (·.1) = addresses a n := by
  simp [bytes, addresses]

theorem map_fst_copies (m : Memory) (src dst : Word) (n : Nat) :
    (m.copies src dst n).map (·.1) = addresses dst n := by
  induction n generalizing m src dst with
  | zero => rfl
  | succ n ih => rw [copies, List.map_cons, ih, addresses_succ]

/-- To store a number is to write its bytes. -/
theorem apply_bytes (m : Memory) (a : Word) {n : Nat} (hn : n ≤ 2 ^ 64) (v : Nat) :
    m.apply (bytes a n v) = m.store a n v := by
  induction n with
  | zero => rfl
  | succ n ih =>
    have hbytes : bytes a (n + 1) v = bytes a n v ++ [(a + .ofNat 64 n, .ofNat 8 (v / 256 ^ n))] := by
      simp [bytes, List.range_succ]
    rw [hbytes, apply_append, ih (by omega)]
    funext b
    show Function.update (m.store a n v) (a + .ofNat 64 n) _ b = _
    by_cases hb : b = a + .ofNat 64 n
    · have hoffset : (b - a).toNat = n := by
        rw [hb]
        exact sub_self_add a (by omega)
      rw [hb, Function.update_self, ← hb, store, hoffset, if_pos (Nat.lt_succ_self n)]
    · -- The offset of another address is another one.
      have hoffset : (b - a).toNat ≠ n := by
        intro h
        apply hb
        rw [← h, BitVec.ofNat_toNat, BitVec.setWidth_eq, BitVec.add_comm, BitVec.sub_add_cancel]
      rw [Function.update_of_ne hb, store, store]
      simp only [show (b - a).toNat < n ↔ (b - a).toNat < n + 1 by omega]

end Memory

namespace State

variable {s s' : State} {i : Instruction}

/-- What an instruction writes to memory. -/
def writes (s : State) : Instruction → List Write
  | .mov w src (.mem base disp) =>
    (s.read w src).elim [] fun v => Memory.bytes (s.address base disp) w.bytes v.toNat
  | .push src => (s.read .quad src).elim [] fun v => Memory.bytes (s.regs .rsp - 8) 8 v.toNat
  | .copyBytes => s.mem.copies (s.regs .rsi) (s.regs .rdi) (s.regs .rcx).toNat
  | .fillBytes => (addresses (s.regs .rdi) (s.regs .rcx).toNat).map fun a => (a, (s.regs .rax).setWidth 8)
  | _ => []

theorem map_fst_fill (s : State) :
    (s.writes .fillBytes).map (·.1) = addresses (s.regs .rdi) (s.regs .rcx).toNat := by
  rw [writes, List.map_map]
  exact List.map_id _

/-- Carries out an instruction that does not jump. The string instructions leave the registers behind the
last byte. -/
def perform (s : State) (i : Instruction) : Option State :=
  match i with
  | .copyBytes =>
    let moved := (s.set .rsi (s.regs .rsi + s.regs .rcx)).set .rdi (s.regs .rdi + s.regs .rcx)
    some { moved.set .rcx 0 with mem := s.mem.apply (s.writes i) }
  | .fillBytes =>
    some { (s.set .rdi (s.regs .rdi + s.regs .rcx)).set .rcx 0 with mem := s.mem.apply (s.writes i) }
  | i => s.exec i

/-- Memory is what it was, apart from the bytes that the instruction writes. -/
theorem mem_of_perform (h : s.perform i = some s') : s'.mem = s.mem.apply (s.writes i) := by
  cases i with
  | copyBytes | fillBytes =>
    cases h
    rfl
  | mov w src dst =>
    obtain ⟨v, hv, hwrite⟩ := Option.bind_eq_some_iff.1 h
    cases dst with
    | reg r =>
      cases hwrite
      rfl
    | mem base disp =>
      cases hwrite
      rw [writes, hv]
      exact (Memory.apply_bytes _ _ (by cases w <;> decide) _).symm
    | imm | label => cases hwrite
  | push src =>
    obtain ⟨v, hv, hwrite⟩ := Option.bind_eq_some_iff.1 h
    cases hwrite
    rw [writes, hv]
    exact (Memory.apply_bytes _ _ (by decide) _).symm
  | lea src dst =>
    cases src with
    | mem =>
      cases h
      rfl
    | _ => cases h
  | extend | arith | cmp | divide =>
    obtain ⟨_, -, hwrite⟩ := Option.bind_eq_some_iff.1 h
    cases hwrite
    rfl
  | set c dst =>
    obtain ⟨_, -, hwrite⟩ := Option.bind_eq_some_iff.1 h
    cases hwrite
    rfl
  | pop | unary | spreadSign | test =>
    cases h
    rfl
  | jump | jumpIf | call | ret | syscall => cases h

/-- Carries out a block of instructions that do not jump. Also what they write. -/
def trace (s : State) : Block → Option (State × List Write)
  | [] => some (s, [])
  | .instr i :: code => do
    let s' ← s.perform i
    let (s'', ws) ← s'.trace code
    return (s'', s.writes i ++ ws)
  | _ :: _ => none

theorem trace_cons {code : Block} {s1 : State} {ws : List Write} (h : s.perform i = some s1)
    (hcode : s1.trace code = some (s', ws)) :
    s.trace (.instr i :: code) = some (s', s.writes i ++ ws) := by
  rw [trace, h]
  simp [hcode]

/-- The writes of a run, one after the other, are all it does to the memory. -/
theorem mem_of_trace {code : Block} {ws : List Write} (h : s.trace code = some (s', ws)) :
    s'.mem = s.mem.apply ws := by
  induction code generalizing s ws with
  | nil =>
    cases h
    rfl
  | cons line code ih =>
    cases line with
    | instr i =>
      rw [trace] at h
      obtain ⟨s1, hperform, h1⟩ := Option.bind_eq_some_iff.1 h
      obtain ⟨⟨s2, ws2⟩, htrace, h2⟩ := Option.bind_eq_some_iff.1 h1
      cases h2
      rw [ih htrace, mem_of_perform hperform, Memory.apply_append]
    | label | directive | comment => cases h

end State

end Sigil.Machine
