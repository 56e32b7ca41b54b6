/-!
# Registers and access widths

The sixteen general registers of x86-64 and the four widths at which a register or a memory cell is
read and written. A register has one name per width.
-/

namespace Sigil.Machine

/-- The width of a register or memory access. -/
inductive Width where
  | byte | word | long | quad
deriving DecidableEq, Repr, Inhabited

namespace Width

/-- The number of bytes accessed. -/
def bytes : Width → Nat
  | byte => 1
  | word => 2
  | long => 4
  | quad => 8

/-- The letter that a mnemonic carries for this width. -/
def suffix : Width → String
  | byte => "b"
  | word => "w"
  | long => "l"
  | quad => "q"

/-- The width of `n` bytes, if there is one. -/
def ofBytes? : Nat → Option Width
  | 1 => some byte
  | 2 => some word
  | 4 => some long
  | 8 => some quad
  | _ => none

@[simp] theorem ofBytes?_bytes (w : Width) : ofBytes? w.bytes = some w := by
  cases w <;> rfl

/-- Only the byte count of a width has one. -/
theorem bytes_of_ofBytes? {n : Nat} {w : Width} (h : ofBytes? n = some w) : w.bytes = n := by
  unfold ofBytes? at h
  split at h <;> simp_all [bytes] <;> subst h <;> rfl

end Width

/-- A general register. -/
inductive Register where
  | rax | rcx | rdx | rbx | rsp | rbp | rsi | rdi
  | r8 | r9 | r10 | r11 | r12 | r13 | r14 | r15
deriving DecidableEq, Repr, Inhabited

namespace Register

/-- All registers, in the order of their numbers. -/
def all : List Register :=
  [rax, rcx, rdx, rbx, rsp, rbp, rsi, rdi, r8, r9, r10, r11, r12, r13, r14, r15]

/-- The number by which instructions encode the register. -/
def number : Register → Nat
  | rax => 0 | rcx => 1 | rdx => 2 | rbx => 3 | rsp => 4 | rbp => 5 | rsi => 6 | rdi => 7
  | r8 => 8 | r9 => 9 | r10 => 10 | r11 => 11 | r12 => 12 | r13 => 13 | r14 => 14 | r15 => 15

/-- The register with the given number; a number that none has means `rax`. -/
def ofNumber (n : Nat) : Register :=
  (all[n]?).getD rax

@[simp] theorem ofNumber_number (r : Register) : ofNumber r.number = r := by
  cases r <;> rfl

/-- The four names of a register: byte, word, long and quad. -/
def names : Register → String × String × String × String
  | rax => ("al", "ax", "eax", "rax")
  | rcx => ("cl", "cx", "ecx", "rcx")
  | rdx => ("dl", "dx", "edx", "rdx")
  | rbx => ("bl", "bx", "ebx", "rbx")
  | rsp => ("spl", "sp", "esp", "rsp")
  | rbp => ("bpl", "bp", "ebp", "rbp")
  | rsi => ("sil", "si", "esi", "rsi")
  | rdi => ("dil", "di", "edi", "rdi")
  | r8 => ("r8b", "r8w", "r8d", "r8")
  | r9 => ("r9b", "r9w", "r9d", "r9")
  | r10 => ("r10b", "r10w", "r10d", "r10")
  | r11 => ("r11b", "r11w", "r11d", "r11")
  | r12 => ("r12b", "r12w", "r12d", "r12")
  | r13 => ("r13b", "r13w", "r13d", "r13")
  | r14 => ("r14b", "r14w", "r14d", "r14")
  | r15 => ("r15b", "r15w", "r15d", "r15")

/-- The name of a register at a width. -/
def name (r : Register) (w : Width) : String :=
  let (b, w', l, q) := r.names
  match w with
  | .byte => b
  | .word => w'
  | .long => l
  | .quad => q

/-- The register as an operand is written: its name after a percent sign. -/
def operand (r : Register) (w : Width) : String :=
  "%" ++ r.name w

/-- Reads the quad name of a register, in either case and after any number of percent signs. A text
that names none is handed back without its percent signs. -/
def parse (s : String) : Except String Register :=
  let bare := String.ofList (s.toList.dropWhile (· == '%'))
  let lower := bare.map Char.toLower
  match all.find? fun r => r.name .quad == lower with
  | some r => .ok r
  | none => .error bare

/-- The complaint about a text that names no register. -/
def unknownMessage (bare : String) : String :=
  s!"Unknown reg name: {bare}"

end Register

end Sigil.Machine
