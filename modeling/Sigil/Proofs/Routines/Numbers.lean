import Sigil.Proofs.Routines.Process

/-!
# Writing numbers

The routines that write integers, run on the machine: an unsigned number is written as its decimal digits
and a signed one with a minus sign in front if it is negative, for all words
(`Routine.integers_written`).
-/

namespace Sigil

open List Machine State

/-- The byte of an ASCII character. -/
def asciiByte (c : Char) : BitVec 8 := .ofNat 8 c.toNat

/-- The bytes of a text of ASCII characters. -/
def asciiBytes (text : String) : List (BitVec 8) := text.toList.map asciiByte

namespace Machine

theorem CodeAt.slice {prog code : Block} {i : Nat} (h : CodeAt prog i code) (n k : Nat) :
    CodeAt prog (i + n) ((code.drop n).take k) := by
  intro j hj
  rw [length_take, length_drop] at hj
  rw [Nat.add_assoc, h (n + j) (by omega), getElem?_take_of_lt (by omega), getElem?_drop]

end Machine

namespace Routine

/-- The registers that the routines for output do not keep; the stack pointer is put back by a return. -/
def scratch : List Register := [.rsp, .rax, .rcx, .rdx, .rsi, .r8, .r11]

/-- The registers that the routines keep are as before. -/
def Kept (s s' : State) : Prop :=
  ∀ q, q ∉ scratch → s'.regs q = s.regs q

/-- A routine has come back from where it was called: the return address is off the stack, some bytes below
have been used, and some have been written. -/
structure Returned (p p' : Process) (room : Nat) (written : List (BitVec 8)) : Prop where
  rsp : p'.state.regs .rsp = p.state.regs .rsp + 8
  kept : Kept p.state p'.state
  mem : p.state.mem.SameAbove p'.state.mem (p.state.regs .rsp) room
  output : p'.output = Function.update p.output (p.state.regs .rdi)
    (p.output (p.state.regs .rdi) ++ written)

variable {image : Image} {sys : System} {i : Nat} {s s' : State} {out : Word → List (BitVec 8)}

theorem Kept.refl (s : State) : Kept s s :=
  fun _ _ => rfl

theorem Kept.trans {s'' : State} (h : Kept s s') (h' : Kept s' s'') : Kept s s'' :=
  fun q hq => (h' q hq).trans (h q hq)

theorem Kept.set (h : Kept s s') {r : Register} (hr : r ∈ scratch) (v : Word) : Kept s (s'.set r v) := by
  intro q hq
  rw [regs_set, if_neg (by rintro rfl; exact hq hr)]
  exact h q hq

/-- The system keeps more. -/
theorem kept_of_system (h : ∀ q, q ∉ systemRegisters → s'.regs q = s.regs q) : Kept s s' := by
  have hsubset : systemRegisters ⊆ scratch := by decide
  exact fun q hq => h q fun hmem => hq (hsubset hmem)

/-! ## A character -/

/-- One character is written, from a word on the stack, and the call returns. -/
theorem writeChar_returns (hcode : CodeAt image.code i writeChar.text) {target : Nat}
    (htarget : image.lineAt s.top = some target) :
    ∃ p', image.Runs sys ⟨i, s, out⟩ p' ∧ p'.pc = target ∧
      Returned ⟨i, s, out⟩ p' 8 [.ofNat 8 (s.regs .rsi).toNat] := by
  have hbefore : CodeAt image.code (i + 1) [.push .rsi, .copy .rsp .rsi, .const 1 .rdx, .const 1 .rax] :=
    hcode.slice 1 4
  have hafter : CodeAt image.code (i + 6) [.pop .rsi] := hcode.slice 6 1
  -- The character is pushed, and the byte on top is what is written.
  have hsame := s.mem.sameAbove_store (s.regs .rsp) 8 (s.regs .rsi).toNat
  obtain ⟨s1, hrun, hrsp, hrsi, hrdx, hrax, hmem, hkept⟩ :
      ∃ s1, s.run [.push .rsi, .copy .rsp .rsi, .const 1 .rdx, .const 1 .rax] = some s1 ∧
        s1.regs .rsp = s.regs .rsp - 8 ∧ s1.regs .rsi = s.regs .rsp - 8 ∧ s1.regs .rdx = 1 ∧
        s1.regs .rax = 1 ∧ s1.mem = s.mem.store (s.regs .rsp - 8) 8 (s.regs .rsi).toNat ∧ Kept s s1 := by
    refine ⟨_, by rw [run_push_cons, run_copy, run_const, run_const, run], ?_⟩
    refine ⟨rfl, rfl, rfl, rfl, rfl, ?_⟩
    exact (((Kept.refl s).set (by decide) _ : Kept s (s.push _)).set (by decide) _).set (by decide) _
      |>.set (by decide) _
  obtain ⟨s2, hwrite, hmem2, hregs2⟩ := Image.runs_write sys out (hcode.slice 5 1).head hrax
  have hrsp2 : s2.regs .rsp + 8 = s.regs .rsp := by
    rw [hregs2 _ (by decide), hrsp, BitVec.sub_add_cancel]
  -- The return address is above the pushed word, so it is still there.
  have htop : top ((s2.set .rsp (s2.regs .rsp + 8)).set .rsi s2.top) = s.top := by
    change BitVec.ofNat 64 (s2.mem.load (s2.regs .rsp + 8) 8) = _
    rw [hrsp2, hmem2, hmem]
    exact congrArg (BitVec.ofNat 64) (hsame.load_eq (by omega))
  refine ⟨_, (Image.runs_label hcode.head).trans <| (Image.runs_block hbefore hrun).trans <|
    hwrite.trans <| (Image.runs_block hafter (run_pop_cons .rsi)).trans <|
    Image.runs_ret (hcode.slice 7 1).head (htop ▸ htarget), rfl, ?_⟩
  constructor
  · change s2.regs .rsp + 8 + 8 = s.regs .rsp + 8
    rw [hrsp2]
  · exact (((hkept.trans (kept_of_system hregs2)).set (by decide) _).set (by decide) _).set (by decide) _
  · change s.mem.SameAbove s2.mem (s.regs .rsp) 8
    rw [hmem2, hmem]
    exact hsame
  · -- The byte at the stack pointer is the low one of the word.
    change Function.update out (s1.regs .rdi) (out (s1.regs .rdi) ++ _) = _
    have hslice : s1.mem.slice (s1.regs .rsi) (s1.regs .rdx).toNat = [.ofNat 8 (s.regs .rsi).toNat] := by
      rw [hrsi, hrdx, hmem]
      exact (Memory.slice_succ _ _ 0).trans (congrArg (fun b => [b]) (s.mem.store_self _ (by decide) _))
    rw [hkept .rdi (by decide), hslice]

/-! ## Digits -/

/-- What is done for each digit: it is split off and put in front of those that are in the buffer. -/
def digitRound : Block :=
  [.clear .rdx, .instr (.divide false .rcx), .add (.imm 48) .rdx, .instr (.unary .dec .r8),
    .instr (.mov .byte (.reg .rdx) (.mem .r8 0)), .test .rax]

/-- The buffer lies below the place of the call and is filled from its end: some digits are in it, and a
number is left. -/
structure Filling (s0 s : State) (n : Nat) (digits : List Char) : Prop where
  rsp : s.regs .rsp = s0.regs .rsp - 32
  rax : (s.regs .rax).toNat = n
  rcx : s.regs .rcx = 10
  r8 : s.regs .r8 = s0.regs .rsp - .ofNat 64 digits.length
  kept : Kept s0 s
  mem : s0.mem.SameAbove s.mem (s0.regs .rsp) 32
  digits : s.mem.slice (s.regs .r8) digits.length = digits.map asciiByte

variable {s0 : State} {n : Nat} {digits : List Char}

theorem divide_ten (v : Word) :
    divide false 0 v 10 = some (.ofNat 64 (v.toNat / 10), .ofNat 64 (v.toNat % 10)) := by
  have hfits : v.toNat / 10 < 2 ^ 64 := Nat.lt_of_le_of_lt (Nat.div_le_self _ _) v.isLt
  simpa [divide] using hfits

theorem asciiByte_digitChar : ∀ d < 10, asciiByte d.digitChar = .ofNat 8 (BitVec.ofNat 64 d + 48).toNat := by
  decide

/-- A round puts one more digit in front of the others and leaves the rest of the number. -/
theorem run_digitRound (h : Filling s0 s n digits) (hroom : digits.length < 32) :
    ∃ s', s.run digitRound = some s' ∧ Filling s0 s' (n / 10) ((n % 10).digitChar :: digits) ∧
      ∃ f, s'.flags = some f ∧ Condition.ne.holds f = decide (n / 10 ≠ 0) := by
  have hdivide : divide false 0 (s.regs .rax) (s.regs .rcx) = some (.ofNat 64 (n / 10), .ofNat 64 (n % 10)) := by
    rw [h.rcx, divide_ten, h.rax]
  obtain ⟨s', hrun, hrsp, hrax, hrcx, hr8, hkept, hmem, hflags⟩ :
      ∃ s', s.run digitRound = some s' ∧ s'.regs .rsp = s.regs .rsp ∧ s'.regs .rax = .ofNat 64 (n / 10) ∧
        s'.regs .rcx = s.regs .rcx ∧ s'.regs .r8 = s.regs .r8 - 1 ∧ Kept s s' ∧
        s'.mem = s.mem.store (s.regs .r8 - 1) 1 (BitVec.ofNat 64 (n % 10) + 48).toNat ∧
        s'.flags = some (.of (s'.regs .rax) false false) := by
    refine ⟨_, by
      rw [digitRound, run_clear, run_divide hdivide, Line.add,
        run_arith (read_imm 48), run_dec, run_storeByte, run_test,
        run], ?_⟩
    refine ⟨rfl, rfl, rfl, rfl, fun q hq => ?_, rfl, rfl⟩
    simp only [scratch, mem_cons, not_or] at hq
    simp [hq]
  -- The quotient is no larger than the word, so nothing is cut off.
  have hquotient : (s'.regs .rax).toNat = n / 10 := by
    have hlt := (s.regs .rax).isLt
    rw [h.rax] at hlt
    rw [hrax, BitVec.toNat_ofNat, Nat.mod_eq_of_lt (by omega)]
  have hlast : s.regs .r8 - 1 = s0.regs .rsp - .ofNat 64 (digits.length + 1) := by
    rw [h.r8, BitVec.ofNat_add, BitVec.sub_sub]
    rfl
  have hsame : s.mem.SameAbove s'.mem (s.regs .r8) 1 := hmem ▸ s.mem.sameAbove_store (s.regs .r8) 1 _
  refine ⟨s', hrun, ⟨hrsp.trans h.rsp, hquotient, hrcx.trans h.rcx, hr8.trans hlast, h.kept.trans hkept,
    ?_, ?_⟩, _, hflags, ?_⟩
  · -- The stored byte is below everything the buffer held.
    rw [h.r8] at hsame
    exact h.mem.trans (hsame.above (by omega))
  · -- The new digit comes first, and the ones behind it are as they were.
    have hbyte : s'.mem (s.regs .r8 - 1) = asciiByte (n % 10).digitChar := by
      rw [hmem, Memory.store_self _ _ (by decide), asciiByte_digitChar _ (Nat.mod_lt n (by decide))]
    rw [hr8, length_cons, Memory.slice_succ, BitVec.sub_add_cancel, hsame.slice_eq (by omega), hbyte,
      h.digits]
    rfl
  · change (!(s'.regs .rax == 0)) = _
    rw [← hquotient, Bool.eq_iff_iff]
    simp [← BitVec.toNat_inj]

/-- From the head of the loop on, all digits of the number are put in front of those that are there. -/
theorem runs_digits (hlabels : (Block.labels image.code).Nodup)
    (hcode : CodeAt image.code i writeUnsigned.text) (h : Filling s0 s n digits)
    (hroom : (Nat.toDigits 10 n).length + digits.length ≤ 32) :
    ∃ s', image.Runs sys ⟨i + 5, s, out⟩ ⟨i + 13, s', out⟩ ∧
      Filling s0 s' 0 (Nat.toDigits 10 n ++ digits) := by
  induction n using Nat.strongRecOn generalizing s digits with
  | ind n ih =>
  have hloop : image.code[i + 5]? = some (.label (writeUnsigned.inner "loop")) := (hcode.slice 5 1).head
  have hround : CodeAt image.code (i + 6) digitRound := hcode.slice 6 6
  have hpos := Nat.length_toDigits_pos (b := 10) (n := n)
  obtain ⟨s1, hrun, hfilling, f, hflags, hcond⟩ := run_digitRound h (by omega)
  have hjump : image.Runs sys ⟨i + 12, s1, out⟩ ⟨if Condition.ne.holds f then i + 5 else i + 13, s1, out⟩ :=
    Image.runs_jumpIf (hcode.slice 12 1).head (idxOf?_label hlabels hloop) hflags
  rw [hcond] at hjump
  have hturn := (Image.runs_label hloop).trans ((Image.runs_block hround hrun).trans hjump)
  rcases Nat.lt_or_ge n 10 with hlt | hge
  · have hzero : n / 10 = 0 := Nat.div_eq_of_lt hlt
    rw [Nat.toDigits_of_lt_base hlt]
    rw [hzero] at hturn
    rw [hzero, Nat.mod_eq_of_lt hlt] at hfilling
    exact ⟨s1, hturn, hfilling⟩
  · have hdigits := Nat.toDigits_of_base_le (by decide) hge
    rw [if_pos (by simp; omega)] at hturn
    rw [hdigits, length_append, length_singleton] at hroom
    obtain ⟨s2, hruns, hfilled⟩ := ih (n / 10) (by omega) hfilling (by rw [length_cons]; omega)
    rw [hdigits, append_assoc]
    exact ⟨s2, hturn.trans hruns, hfilled⟩

/-- What is done before the first digit. -/
def bufferSetUp : Block :=
  [.sub (.imm 32) .rsp, .lea (.mem .rsp 32) .r8, .copy .rsi .rax, .const 10 .rcx]

/-- The buffer is empty at first, and the whole number is left. -/
theorem run_bufferSetUp (s : State) :
    ∃ s', s.run bufferSetUp = some s' ∧ Filling s s' (s.regs .rsi).toNat [] := by
  refine ⟨_, by rw [bufferSetUp, Line.sub, run_arith (read_imm 32), run_lea,
    run_copy, run_const, run], ?_⟩
  refine ⟨rfl, rfl, rfl, ?_, fun q hq => ?_, .refl _ _ _, rfl⟩
  · change s.regs .rsp - 32 + 32 = s.regs .rsp - 0
    rw [BitVec.sub_add_cancel]
    exact (BitVec.sub_zero _).symm
  · simp only [scratch, mem_cons, not_or] at hq
    simp [hq]

/-- What is done behind the last digit: the buffer is handed over. -/
def bufferHandOver : Block :=
  [.copy .r8 .rsi, .lea (.mem .rsp 32) .rdx, .sub (.reg .r8) .rdx, .const 1 .rax]

/-- What is handed over to the system is the part of the buffer that has been filled. -/
theorem run_bufferHandOver (h : Filling s0 s n digits) (hroom : digits.length ≤ 32) :
    ∃ s', s.run bufferHandOver = some s' ∧ s'.regs .rax = 1 ∧ s'.regs .rsp = s.regs .rsp ∧ s'.mem = s.mem ∧
      Kept s s' ∧ s'.mem.slice (s'.regs .rsi) (s'.regs .rdx).toNat = digits.map asciiByte := by
  obtain ⟨s', hrun, hrax, hrsp, hmem, hrsi, hrdx, hkept⟩ :
      ∃ s', s.run bufferHandOver = some s' ∧ s'.regs .rax = 1 ∧ s'.regs .rsp = s.regs .rsp ∧
        s'.mem = s.mem ∧ s'.regs .rsi = s.regs .r8 ∧ s'.regs .rdx = s.regs .rsp + 32 - s.regs .r8 ∧
        Kept s s' := by
    refine ⟨_, by rw [bufferHandOver, run_copy, run_lea, Line.sub,
      run_arith (read_reg .r8), run_const, run], ?_⟩
    refine ⟨rfl, rfl, rfl, rfl, rfl, fun q hq => ?_⟩
    simp only [scratch, mem_cons, not_or] at hq
    simp [hq]
  refine ⟨s', hrun, hrax, hrsp, hmem, hkept, ?_⟩
  have hcount : (s'.regs .rdx).toNat = digits.length := by
    rw [hrdx, h.rsp, h.r8, BitVec.sub_add_cancel, Memory.toNat_sub_lower, BitVec.sub_self,
      BitVec.toNat_zero, Nat.mod_eq_of_lt (by omega), Nat.zero_add]
  rw [hmem, hrsi, hcount, h.digits]

/-- An unsigned number is written in decimal and the call returns: set-up, the rounds of the loop, and the
hand-over one after another. -/
theorem writeUnsigned_returns (hlabels : (Block.labels image.code).Nodup)
    (hcode : CodeAt image.code i writeUnsigned.text) {target : Nat} (htarget : image.lineAt s.top = some target) :
    ∃ p', image.Runs sys ⟨i, s, out⟩ p' ∧ p'.pc = target ∧
      Returned ⟨i, s, out⟩ p' 32 ((Nat.toDigits 10 (s.regs .rsi).toNat).map asciiByte) := by
  have hsetUp : CodeAt image.code (i + 1) bufferSetUp := hcode.slice 1 4
  have hhandOver : CodeAt image.code (i + 13) bufferHandOver := hcode.slice 13 4
  have hdrop : CodeAt image.code (i + 18) [.add (.imm 32) .rsp] := hcode.slice 18 1
  -- A word has at most 20 digits, and the buffer has room for 32.
  have hlength : (Nat.toDigits 10 (s.regs .rsi).toNat).length ≤ 20 := by
    have hlt := (s.regs .rsi).isLt
    exact (Nat.length_toDigits_le_iff (by decide) (by decide)).2 (by omega)
  obtain ⟨s1, hrun1, hempty⟩ := run_bufferSetUp s
  obtain ⟨s2, hruns2, hfull⟩ :
      ∃ s2, image.Runs sys ⟨i + 5, s1, out⟩ ⟨i + 13, s2, out⟩ ∧
        Filling s s2 0 (Nat.toDigits 10 (s.regs .rsi).toNat ++ []) :=
    runs_digits hlabels hcode hempty (by rw [length_nil]; omega)
  rw [append_nil] at hfull
  obtain ⟨s3, hrun3, hrax, hrsp3, hmem3, hkept3, hslice⟩ := run_bufferHandOver hfull (by omega)
  obtain ⟨s4, hwrite, hmem4, hregs4⟩ := Image.runs_write sys out (hcode.slice 17 1).head hrax
  have hrsp4 : s4.regs .rsp + 32 = s.regs .rsp := by
    rw [hregs4 _ (by decide), hrsp3, hfull.rsp, BitVec.sub_add_cancel]
  obtain ⟨s5, hrun5, hrsp5, hmem5, hkept5⟩ :
      ∃ s5, s4.run [.add (.imm 32) .rsp] = some s5 ∧ s5.regs .rsp = s.regs .rsp ∧ s5.mem = s4.mem ∧
        Kept s4 s5 := by
    refine ⟨_, by rw [Line.add, run_arith (read_imm 32), run], ?_⟩
    exact ⟨hrsp4, rfl, (Kept.refl s4).set (by decide) _⟩
  have hsame : s.mem.SameAbove s5.mem (s.regs .rsp) 32 := by
    rw [hmem5, hmem4, hmem3]
    exact hfull.mem
  -- The return address is above the buffer.
  have htop : s5.top = s.top := by
    rw [top, hrsp5]
    exact congrArg (BitVec.ofNat 64) (hsame.load_eq (by omega))
  have hkept : Kept s s5 := ((hfull.kept.trans hkept3).trans (kept_of_system hregs4)).trans hkept5
  refine ⟨_, (Image.runs_label hcode.head).trans <| (Image.runs_block hsetUp hrun1).trans <|
    hruns2.trans <| (Image.runs_block hhandOver hrun3).trans <| hwrite.trans <|
    (Image.runs_block hdrop hrun5).trans <| Image.runs_ret (hcode.slice 19 1).head (htop ▸ htarget), rfl, ?_⟩
  constructor
  · exact congrArg (· + 8) hrsp5
  · exact hkept.set (by decide) _
  · exact hsame
  · -- What was handed over is the digits, for the same descriptor.
    have hrdi : s3.regs .rdi = s.regs .rdi := (hfull.kept.trans hkept3) _ (by decide)
    rw [hrdi, hslice]

/-! ## Signs -/

/-- The flags at the call do not matter. -/
theorem Returned.of_flags {j room : Nat} {p' : Process} {written : List (BitVec 8)} {flags : Option Flags}
    (h : Returned ⟨j, { s with flags := flags }, out⟩ p' room written) :
    Returned ⟨i, s, out⟩ p' room written :=
  ⟨h.rsp, h.kept, h.mem, h.output⟩

/-- A routine that goes on to another one comes back with it. -/
theorem Returned.after {j room : Nat} {p' : Process} {written written' : List (BitVec 8)}
    (h : Returned ⟨j, s', Function.update out (s.regs .rdi) (out (s.regs .rdi) ++ written)⟩ p' room written')
    (hrsp : s'.regs .rsp = s.regs .rsp) (hkept : Kept s s')
    (hmem : s.mem.SameAbove s'.mem (s.regs .rsp) room) :
    Returned ⟨i, s, out⟩ p' room (written ++ written') := by
  have hrdi : s'.regs .rdi = s.regs .rdi := hkept _ (by decide)
  refine ⟨h.rsp.trans (congrArg (· + 8) hrsp), hkept.trans h.kept, hmem.trans (hrsp ▸ h.mem), ?_⟩
  rw [h.output]
  simp only [hrdi, Function.update_self, Function.update_idem, append_assoc]

theorem asciiBytes_nat (n : Nat) : asciiBytes (toString n) = (Nat.toDigits 10 n).map asciiByte := by
  rw [asciiBytes, Nat.toString_eq_ofList_toDigits, String.toList_ofList]

theorem asciiBytes_neg (hn : 0 < n) :
    asciiBytes (toString (-(n : Int))) = [asciiByte '-'] ++ (Nat.toDigits 10 n).map asciiByte := by
  obtain ⟨m, rfl⟩ : ∃ m, n = m + 1 := ⟨n - 1, by omega⟩
  have htext : toString (-((m + 1 : Nat) : Int)) = "-" ++ toString (m + 1) := rfl
  rw [htext, asciiBytes, String.toList_append, map_append, ← asciiBytes_nat]
  rfl

/-- A negative number is minus its negation; for the smallest one the negation is read as unsigned. -/
theorem toInt_of_msb {v : Word} (h : v.msb = true) : v.toInt = -((-v).toNat : Int) ∧ 0 < (-v).toNat := by
  have hge := BitVec.toNat_ge_of_msb_true h
  have hlt := v.isLt
  have hneg : (-v).toNat = 2 ^ 64 - v.toNat := by
    rw [BitVec.toNat_neg, Nat.mod_eq_of_lt (by omega)]
  rw [BitVec.toInt_eq_msb_cond, if_pos h, hneg]
  omega

/-- The number is saved with the descriptor while the minus sign is written, and then negated. -/
theorem runs_sign (hlabels : (Block.labels image.code).Nodup) {j k : Nat}
    (hchar : CodeAt image.code k writeChar.text) (hunsigned : CodeAt image.code j writeUnsigned.text)
    (hcode : CodeAt image.code i writeSigned.text) :
    ∃ s', image.Runs sys ⟨i + 3, s, out⟩ ⟨j, s', Function.update out (s.regs .rdi)
        (out (s.regs .rdi) ++ [asciiByte '-'])⟩ ∧
      s'.regs .rsi = -s.regs .rsi ∧ s'.regs .rsp = s.regs .rsp ∧ Kept s s' ∧
      s.mem.SameAbove s'.mem (s.regs .rsp) 32 := by
  have hsave : CodeAt image.code (i + 3) [.push .rsi, .push .rdi, .const 45 .rsi] := hcode.slice 3 3
  have hrestore : CodeAt image.code (i + 7) [.pop .rdi, .pop .rsi, .instr (.unary .neg .rsi)] :=
    hcode.slice 7 3
  have hcallLine : image.code[i + 6]? = some (.call writeChar.label) := (hcode.slice 6 1).head
  have hjumpLine : image.code[i + 10]? = some (.jump writeUnsigned.label) := (hcode.slice 10 1).head
  -- The arguments are saved while the sign is written.
  let saved := (s.push (s.regs .rsi)).push (s.regs .rdi)
  let called := (saved.set .rsi 45).push (image.address (i + 7))
  have hrunSave : s.run [.push .rsi, .push .rdi, .const 45 .rsi] = some (saved.set .rsi 45) := by
    rw [run_push_cons, run_push_cons, run_const, run]
    rfl
  have hreturn : image.lineAt called.top = some (i + 7) := by
    have htop : called.top = image.address (i + 7) :=
      load_of_push (s := saved.set .rsi 45) (.refl _ _ 0) (by decide)
    rw [htop]
    exact image.lineAt_address _ _ hcallLine
  obtain ⟨⟨_, s1, out1⟩, hwritten, rfl, hreturned⟩ :
      ∃ p, image.Runs sys ⟨k, called, out⟩ p ∧ p.pc = i + 7 ∧ Returned ⟨k, called, out⟩ p 8 _ :=
    writeChar_returns hchar hreturn
  -- The call writes below its own frame only, so both words are still there.
  have hsame1 : saved.mem.SameAbove s1.mem (s.regs .rsp - 8 - 8) 16 :=
    sameAbove_of_push hreturned.mem (by decide)
  have hsame2 : (s.push (s.regs .rsi)).mem.SameAbove s1.mem (s.regs .rsp - 8) 24 :=
    sameAbove_of_push hsame1 (by decide)
  have hsame3 : s.mem.SameAbove s1.mem (s.regs .rsp) 32 := sameAbove_of_push hsame2 (by decide)
  have hrsp : s1.regs .rsp = s.regs .rsp - 8 - 8 := hreturned.rsp.trans (BitVec.sub_add_cancel _ 8)
  have hrdi : s1.top = s.regs .rdi := by
    rw [top, hrsp]
    exact load_of_push (s := s.push (s.regs .rsi)) hsame1 (by decide)
  have hrsi : .ofNat 64 (s1.mem.load (s1.regs .rsp + 8) 8) = s.regs .rsi := by
    rw [hrsp, BitVec.sub_add_cancel]
    exact load_of_push (s := s) hsame2 (by decide)
  obtain ⟨s2, hrunRestore, hrsp2, hrdi2, hrsi2, hmem2, hregs2⟩ :
      ∃ s2, s1.run [.pop .rdi, .pop .rsi, .instr (.unary .neg .rsi)] = some s2 ∧
        s2.regs .rsp = s.regs .rsp ∧ s2.regs .rdi = s.regs .rdi ∧ s2.regs .rsi = -s.regs .rsi ∧
        s2.mem = s1.mem ∧ ∀ q, q ∉ scratch → q ≠ .rdi → s2.regs q = s1.regs q := by
    refine ⟨_, by rw [run_pop_cons, run_pop_cons, run_neg, run], ?_⟩
    refine ⟨?_, hrdi, congrArg Neg.neg hrsi, rfl, fun q hq hne => ?_⟩
    · change s1.regs .rsp + 8 + 8 = s.regs .rsp
      rw [hrsp, BitVec.sub_add_cancel, BitVec.sub_add_cancel]
    · simp only [scratch, mem_cons, not_or] at hq
      simp [hq, hne]
  have hkept : Kept s s2 := by
    intro q hq
    rcases eq_or_ne q .rdi with rfl | hne
    · exact hrdi2
    · rw [hregs2 q hq hne, hreturned.kept q hq]
      simp only [scratch, mem_cons, not_or] at hq
      simp [called, saved, hq]
  have hruns : image.Runs sys ⟨i + 3, s, out⟩ ⟨j, s2, out1⟩ :=
    (Image.runs_block hsave hrunSave).trans <|
    (Image.runs_call hcallLine (idxOf?_label hlabels hchar.head)).trans <| hwritten.trans <|
    (Image.runs_block hrestore hrunRestore).trans <|
    Image.runs_jump hjumpLine (idxOf?_label hlabels hunsigned.head)
  have hout : out1 = Function.update out (s.regs .rdi) (out (s.regs .rdi) ++ [asciiByte '-']) :=
    hreturned.output
  exact ⟨s2, hout ▸ hruns, hrsi2, hrsp2, hkept, hmem2 ▸ hsame3⟩

/-- A signed number is written in decimal and the call returns. The sign comes from a call of one routine, the
digits from going on with another. -/
theorem writeSigned_returns (hlabels : (Block.labels image.code).Nodup) {j k : Nat}
    (hchar : CodeAt image.code k writeChar.text) (hunsigned : CodeAt image.code j writeUnsigned.text)
    (hcode : CodeAt image.code i writeSigned.text) {target : Nat} (htarget : image.lineAt s.top = some target) :
    ∃ p', image.Runs sys ⟨i, s, out⟩ p' ∧ p'.pc = target ∧
      Returned ⟨i, s, out⟩ p' 32 (asciiBytes (toString (s.regs .rsi).toInt)) := by
  have htest : CodeAt image.code (i + 1) [.test .rsi] := hcode.slice 1 1
  let tested : State := { s with flags := some (.of (s.regs .rsi) false false) }
  have hflags : tested.flags = some (.of (s.regs .rsi) false false) := rfl
  have hbranch : image.Runs sys ⟨i, s, out⟩ ⟨if !(s.regs .rsi).msb then j else i + 3, tested, out⟩ :=
    (Image.runs_label hcode.head).trans <| (Image.runs_block htest (run_test .rsi)).trans <|
    Image.runs_jumpIf (hcode.slice 2 1).head (idxOf?_label hlabels hunsigned.head) hflags
  cases hsign : (s.regs .rsi).msb with
  | false =>
    -- Not negative: the word goes on to the unsigned routine.
    rw [hsign] at hbranch
    obtain ⟨p', hruns, hpc, hreturned⟩ := writeUnsigned_returns (s := tested) hlabels hunsigned htarget
    refine ⟨p', hbranch.trans hruns, hpc, ?_⟩
    rw [BitVec.toInt_eq_toNat_of_msb hsign]
    exact asciiBytes_nat _ ▸ hreturned.of_flags
  | true =>
    -- Negative: the sign first, then the magnitude through the unsigned routine.
    rw [hsign] at hbranch
    obtain ⟨s1, hminus, hrsi, hrsp, hkept, hmem⟩ := runs_sign (s := tested) hlabels hchar hunsigned hcode
    have htop : s1.top = s.top := by
      rw [top, hrsp]
      exact congrArg (BitVec.ofNat 64) (hmem.load_eq (by decide))
    obtain ⟨p', hruns, hpc, hreturned⟩ := writeUnsigned_returns (s := s1) hlabels hunsigned (htop ▸ htarget)
    obtain ⟨hvalue, hpos⟩ := toInt_of_msb hsign
    refine ⟨p', hbranch.trans (hminus.trans hruns), hpc, ?_⟩
    rw [hvalue, asciiBytes_neg hpos]
    rw [hrsi] at hreturned
    exact (hreturned.after (i := i) hrsp hkept hmem).of_flags

/-! ## Numbers -/

/-- Called in a state, the code at a line writes a text to the descriptor that it has been given and goes
back to the caller. The stack pointer is then put back, registers outside `scratch` are kept, and as long as
the stack has 32 bytes left, memory is unchanged from the stack pointer of the call on. -/
def Writes (image : Image) (sys : System) (i : Nat) (s : State) (out : Word → List (BitVec 8)) (caller : Nat)
    (text : String) : Prop :=
  ∃ p', image.Runs sys ⟨i, s, out⟩ p' ∧ p'.pc = caller ∧
    Returned ⟨i, s, out⟩ p' 32 (asciiBytes text) ∧
    (32 ≤ (s.regs .rsp).toNat → ∀ a : Word, (s.regs .rsp).toNat ≤ a.toNat → p'.state.mem a = s.mem a)

theorem Returned.writes {p' : Process} {caller : Nat} {text : String}
    (h : Returned ⟨i, s, out⟩ p' 32 (asciiBytes text)) (hruns : image.Runs sys ⟨i, s, out⟩ p')
    (hpc : p'.pc = caller) : Writes image sys i s out caller text :=
  ⟨p', hruns, hpc, h, fun hroom _ ha => h.mem.of_le hroom ha⟩

/-- Wherever it stands in a program, the routine for unsigned numbers writes the decimal form of any word as it
is without a sign, with no other routine around. In a program that also has the routine for characters, the
one for signed numbers writes the decimal form of any word as it is with a sign. -/
theorem integers_written (hlabels : (Block.labels image.code).Nodup) (sys : System)
    (out : Word → List (BitVec 8)) {caller : Nat} (hcaller : image.lineAt s.top = some caller) :
    (∀ i, CodeAt image.code i writeUnsigned.text →
      Writes image sys i s out caller (toString (s.regs .rsi).toNat)) ∧
    ∀ i j k, CodeAt image.code i writeSigned.text → CodeAt image.code j writeUnsigned.text →
      CodeAt image.code k writeChar.text →
      Writes image sys i s out caller (toString (s.regs .rsi).toInt) := by
  constructor
  · intro i hunsigned
    obtain ⟨p', hruns, hpc, hreturned⟩ := writeUnsigned_returns hlabels hunsigned hcaller
    rw [← asciiBytes_nat] at hreturned
    exact hreturned.writes hruns hpc
  · intro i j k hsigned hunsigned hchar
    obtain ⟨p', hruns, hpc, hreturned⟩ := writeSigned_returns hlabels hchar hunsigned hsigned hcaller
    exact hreturned.writes hruns hpc

/-- A call of a routine with the routine and those that it needs behind it, all lines one byte long. -/
def callOf (r : Routine) : Image where
  code := .call r.label :: (r.deps ++ [r]).flatMap text
  address := .ofNat 64
  lineAt a := some a.toNat
  lineAt_address := by
    intro i l hline
    have hlength : ((r.deps ++ [r]).flatMap text).length < 40 := by cases r <;> decide
    obtain ⟨hlt, -⟩ := List.getElem?_eq_some_iff.1 hline
    rw [length_cons] at hlt
    rw [BitVec.toNat_ofNat, Nat.mod_eq_of_lt (by omega)]

/-- The least number is in `rsi`, and the call has put the address of the line behind it on the stack. -/
def stateOfCall : State where
  regs q := if q = .rsi then .intMin 64 else if q = .rsp then 4096 else 1
  flags := none
  mem a := if a = 4096 then 1 else 0

theorem least_integer_written :
    Writes (callOf writeUnsigned) (fun _ _ => 0) 1 stateOfCall (fun _ => []) 1 "9223372036854775808" ∧
      Writes (callOf writeSigned) (fun _ _ => 0) 29 stateOfCall (fun _ => []) 1 "-9223372036854775808" := by
  constructor
  · -- Only the routine for unsigned numbers is there.
    have hcode : CodeAt (callOf writeUnsigned).code 1 writeUnsigned.text := (codeAt_self _).tail
    exact (integers_written (by decide) _ _ (by decide)).1 1 hcode
  · have hcode : CodeAt (callOf writeSigned).code 1
        (writeChar.text ++ (writeUnsigned.text ++ writeSigned.text)) := (codeAt_self _).tail
    exact (integers_written (by decide) _ _ (by decide)).2 29 9 1 hcode.right.right hcode.right.left hcode.left

end Routine

end Sigil
