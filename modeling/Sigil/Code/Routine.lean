import Sigil.Machine.Block

/-!
# Routines of the run-time library

The pieces of fixed code that generated programs call for input, output and memory. They take their
arguments in `rdi`, `rsi`, `rdx` and `rcx`, in this order, and go into a program if it needs them.
-/

namespace Sigil

open Machine (Block Label Line)

/-- A routine of the run-time library. -/
inductive Routine where
  /-- The length of a text. -/
  | length
  /-- Writes a text. -/
  | writeText
  /-- Writes a text that has no more than a given number of bytes. -/
  | writeBounded
  | writeChar
  | writeBool
  /-- Writes an unsigned number. -/
  | writeUnsigned
  /-- Writes a signed number. -/
  | writeSigned
  | read
  | alloc
  | free
  | open_
  | close
  | copy
deriving DecidableEq, Repr

namespace Routine

/-- All routines, in the order in which they stand in a program. -/
def all : List Routine :=
  [length, writeText, writeBounded, writeChar, writeBool, writeUnsigned, writeSigned, read, alloc,
    free, open_, close, copy]

/-- The label of a routine. -/
def label : Routine → Label
  | length => "zr_strlen"
  | writeText => "zr_write_str"
  | writeBounded => "zr_write_strn"
  | writeChar => "zr_write_char"
  | writeBool => "zr_write_bool"
  | writeUnsigned => "zr_write_u64"
  | writeSigned => "zr_write_i64"
  | read => "zr_read"
  | alloc => "zr_alloc"
  | free => "zr_free"
  | open_ => "zr_open"
  | close => "zr_close"
  | copy => "zr_memcpy"

/-- The routines that a routine calls. -/
def deps : Routine → List Routine
  | writeText => [length]
  | writeSigned => [writeChar, writeUnsigned]
  | _ => []

/-- A label inside a routine. -/
def inner (r : Routine) (what : String) : Label :=
  ".L" ++ r.label ++ "_" ++ what

/-- A call of the system by its number. -/
def system (number : Int) : Block :=
  [.const number .rax, .instr .syscall]

/-- The number of the system's `read`. -/
def sysRead : Int := 0

/-- The number of the system's `write`. -/
def sysWrite : Int := 1

/-- The number of the system's `open`. -/
def sysOpen : Int := 2

/-- The number of the system's `close`. -/
def sysClose : Int := 3

/-- The number of the system's `mmap`. -/
def sysMap : Int := 9

/-- The number of the system's `munmap`. -/
def sysUnmap : Int := 11

/-- The number of the system's `exit`. -/
def sysExit : Int := 60

/-- Loads the byte at an address. -/
def loadByte (src dst : Machine.Register) : Line :=
  .instr (.extend false .byte (.mem src 0) dst)

/-- The code of a routine behind its label. -/
def body : Routine → Block
  | length =>
    [.copy .rdi .rcx,
      .label (length.inner "loop"),
      loadByte .rcx .rdx,
      .test .rdx,
      .jumpIf .e (length.inner "done"),
      .instr (.unary .inc .rcx),
      .jump (length.inner "loop"),
      .label (length.inner "done"),
      .copy .rcx .rax,
      .sub (.reg .rdi) .rax,
      .ret]
  | writeText =>
    [.push .rdi, .push .rsi, .copy .rsi .rdi, .call length.label, .copy .rax .rdx, .pop .rsi,
      .pop .rdi] ++ system sysWrite ++ [.ret]
  | writeBounded =>
    [.const 0 .rcx,
      .label (writeBounded.inner "loop"),
      .instr (.cmp (.reg .rdx) .rcx),
      .jumpIf .ae (writeBounded.inner "done"),
      .copy .rsi .r8,
      .add (.reg .rcx) .r8,
      loadByte .r8 .r9,
      .test .r9,
      .jumpIf .e (writeBounded.inner "done"),
      .instr (.unary .inc .rcx),
      .jump (writeBounded.inner "loop"),
      .label (writeBounded.inner "done"),
      .copy .rcx .rdx] ++ system sysWrite ++ [.ret]
  | writeChar =>
    [.push .rsi, .copy .rsp .rsi, .const 1 .rdx] ++ system sysWrite ++ [.pop .rsi, .ret]
  | writeBool =>
    [.test .rsi,
      .jumpIf .e (writeBool.inner "false"),
      .lea (.label (writeBool.inner "true_text")) .rsi,
      .const 4 .rdx,
      .jump (writeBool.inner "write"),
      .label (writeBool.inner "false"),
      .lea (.label (writeBool.inner "false_text")) .rsi,
      .const 5 .rdx,
      .label (writeBool.inner "write")] ++ system sysWrite ++ [.ret]
  | writeUnsigned =>
    -- The digits go into a buffer on the stack, the last one first.
    [.sub (.imm 32) .rsp,
      .lea (.mem .rsp 32) .r8,
      .copy .rsi .rax,
      .const 10 .rcx,
      .label (writeUnsigned.inner "loop"),
      .clear .rdx,
      .instr (.divide false .rcx),
      .add (.imm 48) .rdx,
      .instr (.unary .dec .r8),
      .instr (.mov .byte (.reg .rdx) (.mem .r8 0)),
      .test .rax,
      .jumpIf .ne (writeUnsigned.inner "loop"),
      .copy .r8 .rsi,
      .lea (.mem .rsp 32) .rdx,
      .sub (.reg .r8) .rdx] ++ system sysWrite ++ [.add (.imm 32) .rsp, .ret]
  | writeSigned =>
    [.test .rsi,
      .jumpIf .ns writeUnsigned.label,
      .push .rsi,
      .push .rdi,
      .const 45 .rsi,
      .call writeChar.label,
      .pop .rdi,
      .pop .rsi,
      .instr (.unary .neg .rsi),
      .jump writeUnsigned.label]
  | read => system sysRead ++ [.ret]
  | alloc =>
    [.copy .rdi .rsi, .const 0 .rdi, .const 3 .rdx, .const 0x22 .r10, .const (-1) .r8,
      .const 0 .r9] ++ system sysMap ++
    [.test .rax,
      .jumpIf .ns (alloc.inner "done"),
      .const 0 .rax,
      .label (alloc.inner "done"),
      .ret]
  | free => system sysUnmap ++ [.ret]
  | open_ =>
    [.const 0 .r8,
      .test .rdx,
      .jumpIf .e (open_.inner "go"),
      .const 1 .r8,
      .test .rsi,
      .jumpIf .e (open_.inner "create"),
      .const 2 .r8,
      .label (open_.inner "create"),
      .test .rcx,
      .jumpIf .e (open_.inner "go"),
      .instr (.arith .or (.imm 0x240) .r8),
      .label (open_.inner "go"),
      .copy .r8 .rsi,
      .const 0o644 .rdx] ++ system sysOpen ++ [.ret]
  | close => system sysClose ++ [.ret]
  | copy =>
    [.copy .rdi .rax, .copy .rsi .rdi, .copy .rax .rsi, .copy .rdx .rcx, .instr .copyBytes, .ret]

/-- The code of a routine. -/
def text (r : Routine) : Block :=
  .label r.label :: r.body

/-- A text without a closing zero, under a label. -/
def ascii (label : Label) (s : String) : Block :=
  [.label label, .directive ("ascii " ++ Machine.quoteBytes s.toUTF8.toList)]

/-- The data of a routine. -/
def data : Routine → Block
  | writeBool =>
    ascii (writeBool.inner "true_text") "true" ++ ascii (writeBool.inner "false_text") "false"
  | _ => []

/-- Some routines with everything they call, in the order of a program. -/
def closure (used : List Routine) : List Routine :=
  all.filter fun r => used.contains r || used.any (·.deps.contains r)

/-- A routine that is called by another calls none itself. -/
theorem deps_deps (r s : Routine) (h : s ∈ r.deps) : s.deps = [] := by
  cases r <;> simp [deps] at h <;> rcases h with rfl | rfl <;> rfl

/-- What the routines of a closure call is in it. -/
theorem mem_closure_of_mem_deps {used : List Routine} {r s : Routine} (hr : r ∈ closure used)
    (hs : s ∈ r.deps) : s ∈ closure used := by
  have mem_all : ∀ r : Routine, r ∈ all := by intro r; cases r <;> decide
  simp only [closure, List.mem_filter, Bool.or_eq_true, List.any_eq_true,
    List.contains_iff_mem] at hr ⊢
  refine ⟨mem_all s, Or.inr ?_⟩
  rcases hr.2 with h | ⟨u, _, hu⟩
  · exact ⟨r, h, hs⟩
  · simp [deps_deps u r hu] at hs

end Routine

/-- Where a program starts: it runs a function and exits with its result. -/
def entry (function : Label) : Block :=
  [.directive "globl _start", .label "_start", .call function, .copy .rax .rdi] ++
    Routine.system Routine.sysExit

end Sigil
