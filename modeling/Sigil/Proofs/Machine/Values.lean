import Sigil.Proofs.Machine.Execution
import Sigil.Proofs.Meaning.Folding

/-!
# Values in registers

How a word in a register stands for a value of a simple type (`Ty.Represents`), and that the
instructions of generated code do on words what operators do on values: bringing a result back to the
width of its type, arithmetic, division and comparison.
-/

namespace Sigil

open Code Machine Meaning State

variable {op : BinOp} {u : Ty} {r : Int} {bits : Nat} {signed : Bool}

/-- The types that have their values in registers, but for addresses. -/
def Ty.isScalar : Ty → Bool
  | .int bits _ => bits == 8 || bits == 16 || bits == 32 || bits == 64
  | .char | .bool | .enum _ => true
  | _ => false

/-- The word stands for the value of the type: it is read as the value, and a truth value is zero or
one. -/
structure Ty.Represents (t : Ty) (w : Word) (v : Int) : Prop where
  read : readWord (some t) w = v
  truth : t = .bool → v = 0 ∨ v = 1

theorem Ty.isScalar_int (h : (Ty.int bits signed).isScalar = true) :
    bits = 8 ∨ bits = 16 ∨ bits = 32 ∨ bits = 64 := by
  simpa [isScalar, or_assoc] using h

/-- A word is the one for the integer that is read from it. -/
theorem ofInt_readWord (ty : Option Ty) (w : Word) : BitVec.ofInt 64 (readWord ty w) = w := by
  have hnat : BitVec.ofInt 64 (w.toNat : Int) = w := by
    rw [BitVec.ofInt_natCast, BitVec.ofNat_toNat, BitVec.setWidth_eq]
  unfold readWord
  split
  · split
    · exact BitVec.ofInt_toInt
    · exact hnat
  · exact hnat

theorem Ty.Represents.word {t : Ty} {w : Word} {v : Int} (h : t.Represents w v) :
    w = BitVec.ofInt 64 v := by
  rw [← h.read, ofInt_readWord]

theorem readWord_signed {t : Ty} (h : t.isSigned = true) (w : Word) :
    readWord (some t) w = w.toInt := by
  simp [readWord, h]

theorem readWord_unsigned {t : Ty} (h : t.isSigned = false) (w : Word) :
    readWord (some t) w = w.toNat := by
  simp [readWord, h]

/-! ## Widths -/

@[simp] theorem Machine.Width.extended_quad (signed : Bool) (w : Word) :
    Width.quad.extended signed w = w := by
  cases signed <;> simp [Width.extended, Width.bytes]

theorem setWidth_ofInt {n : Nat} (hn : n ≤ 64) (v : Int) :
    (BitVec.ofInt 64 v).setWidth n = BitVec.ofInt n v := by
  have hdvd : ((2 ^ n : Nat) : Int) ∣ ((2 ^ 64 : Nat) : Int) :=
    Int.natCast_dvd_natCast.2 (Nat.pow_dvd_pow 2 hn)
  have hnonneg : 0 ≤ v % ((2 ^ 64 : Nat) : Int) := Int.emod_nonneg v (by decide)
  apply BitVec.eq_of_toNat_eq
  rw [BitVec.toNat_setWidth, BitVec.toNat_ofInt, BitVec.toNat_ofInt, ← Int.emod_emod_of_dvd v hdvd,
    Int.toNat_emod hnonneg (Int.natCast_nonneg _), Int.toNat_natCast]

/-- A word that is cut down is the one for its value in the integer type of that width. -/
theorem extended_ofInt (w : Width) (signed : Bool) (v : Int) :
    w.extended signed (BitVec.ofInt 64 v) = wrapWord (8 * w.bytes) signed v := by
  cases w <;> cases signed <;> simp [Width.extended, Width.bytes, wrapWord, setWidth_ofInt]

theorem bits_widthOf (h : (Ty.int bits signed).isScalar = true) :
    8 * (widthOf (.int bits signed)).bytes = bits := by
  rcases Ty.isScalar_int h with rfl | rfl | rfl | rfl <;> rfl

/-- A result is brought back to the width of its type. -/
theorem represents_extended {t : Ty} (ht : t.isScalar = true) {v : Int}
    (hv : t = .bool → v = 0 ∨ v = 1) :
    t.Represents ((resultWidth t).extended t.isSigned (BitVec.ofInt 64 v)) (t.wrap v) := by
  rw [extended_ofInt]
  cases t with
  | int bits signed =>
    refine ⟨?_, by simp⟩
    rw [resultWidth, bits_widthOf ht, Ty.isSigned, readWord_wrapWord]
  | char => exact ⟨readWord_wrapWord 8 false v, by simp⟩
  | bool =>
    refine ⟨?_, fun _ => Ty.wrap_bool v⟩
    rcases hv rfl with rfl | rfl <;> decide
  | enum x => exact ⟨readWord_wrapWord 64 false v, by simp⟩
  | _ => cases ht

/-! ## Comparisons -/

theorem holds_e (a b : Word) : Condition.e.holds (.ofSub a b) = decide (a = b) := by
  unfold Condition.holds Flags.ofSub Flags.of
  dsimp only
  rw [Bool.eq_iff_iff]
  simp [BitVec.sub_eq_iff_eq_add]

/-- The sign of a difference that may have wrapped around tells the order, if one knows whether it has. -/
theorem sign_ne_overflow {d : Int} (h : -2 ^ 64 < d) (h' : d < 2 ^ 64) :
    (decide (d.bmod (2 ^ 64) < 0) != (decide (2 ^ 63 ≤ d) || decide (d < -2 ^ 63))) =
      decide (d < 0) := by
  -- A difference beyond either end has wrapped around once, and its sign is the opposite one.
  rcases lt_or_ge d (-2 ^ 63) with hlow | hlow
  · have hsign : ¬d.bmod (2 ^ 64) < 0 := by
      rw [Int.bmod_def]
      split <;> omega
    have hneg : d < 0 := by omega
    rw [decide_eq_false hsign, decide_eq_true hlow, decide_eq_true hneg, Bool.or_true]
    rfl
  rcases lt_or_ge d (2 ^ 63) with hhigh | hhigh
  · have hsame : d.bmod (2 ^ 64) = d := by
      rw [Int.bmod_def]
      split <;> omega
    rw [hsame, decide_eq_false (not_le.2 hhigh), decide_eq_false (not_lt.2 hlow)]
    simp
  · have hsign : d.bmod (2 ^ 64) < 0 := by
      rw [Int.bmod_def]
      split <;> omega
    have hnonneg : ¬d < 0 := by omega
    rw [decide_eq_true hsign, decide_eq_true hhigh, decide_eq_false hnonneg, Bool.true_or]
    rfl

theorem holds_l (a b : Word) : Condition.l.holds (.ofSub a b) = decide (a.toInt < b.toInt) := by
  have ha := a.toInt_lt
  have ha' := a.le_toInt
  have hb := b.toInt_lt
  have hb' := b.le_toInt
  have hd : _ = decide (a.toInt - b.toInt < 0) := sign_ne_overflow (by omega) (by omega)
  unfold Condition.holds Flags.ofSub Flags.of BitVec.ssubOverflow
  dsimp only
  rw [BitVec.msb_eq_toInt, BitVec.toInt_sub]
  exact hd.trans (decide_eq_decide.2 (by omega))

theorem holds_le (signed : Bool) (f : Flags) : (conditionOf signed .le).holds f =
    (Condition.e.holds f || (conditionOf signed .lt).holds f) := by
  cases signed with
  | true => rfl
  | false => exact Bool.or_comm _ _

theorem holds_gt (signed : Bool) (f : Flags) :
    (conditionOf signed .gt).holds f = !(conditionOf signed .le).holds f := by
  cases signed <;> rfl

theorem holds_ge (signed : Bool) (f : Flags) :
    (conditionOf signed .ge).holds f = !(conditionOf signed .lt).holds f := by
  cases signed <;> rfl

/-- The flags of a difference tell how the values compare. -/
theorem holds_conditionOf {t : Ty} {a b : Word} {v w : Int} (ha : t.Represents a v)
    (hb : t.Represents b w) (hop : op.isCompare = true) :
    (conditionOf t.isSigned op).holds (.ofSub a b) = Fold.compare op v w := by
  -- All conditions are made of equality and order; only the latter depends on the sign of the type.
  have heq : Condition.e.holds (.ofSub a b) = decide (v = w) := by
    rw [holds_e, decide_eq_decide]
    constructor
    · rintro rfl
      exact ha.read.symm.trans hb.read
    · rintro rfl
      exact ha.word.trans hb.word.symm
  have hlt : (conditionOf t.isSigned .lt).holds (.ofSub a b) = decide (v < w) := by
    rw [← ha.read, ← hb.read]
    cases hs : t.isSigned with
    | true =>
      rw [readWord_signed hs, readWord_signed hs]
      exact holds_l a b
    | false =>
      rw [readWord_unsigned hs, readWord_unsigned hs]
      exact decide_eq_decide.2 Int.ofNat_lt.symm
  have hle : (conditionOf t.isSigned .le).holds (.ofSub a b) = decide (v ≤ w) := by
    rw [holds_le, heq, hlt, ← Bool.decide_or, decide_eq_decide]
    omega
  cases op with
  | eq => exact heq
  | ne =>
    change (!Condition.e.holds (.ofSub a b)) = !decide (v = w)
    rw [heq]
  | lt => exact hlt
  | le => exact hle
  | gt =>
    rw [holds_gt, hle, ← decide_not]
    exact decide_eq_decide.2 not_le
  | ge =>
    rw [holds_ge, hlt, ← decide_not]
    exact decide_eq_decide.2 not_lt
  | _ => exact nomatch hop

/-! ## Division -/

/-- But for one case, a quotient of 64-bit integers is one. -/
theorem tdiv_bounds {v w : Int} (hv : -2 ^ 63 ≤ v) (hv' : v < 2 ^ 63) (hw : w ≠ 0)
    (h : ¬(v = -2 ^ 63 ∧ w = -1)) : -2 ^ 63 ≤ v.tdiv w ∧ v.tdiv w < 2 ^ 63 := by
  by_cases hone : w = 1
  · subst hone
    rw [Int.tdiv_one]
    exact ⟨hv, hv'⟩
  by_cases hneg : w = -1
  · subst hneg
    rw [Int.tdiv_neg, Int.tdiv_one]
    omega
  · -- Any other divisor at least halves the absolute value.
    have hq : (v.tdiv w).natAbs = v.natAbs / w.natAbs := Int.natAbs_tdiv v w
    have hle : v.natAbs / w.natAbs ≤ v.natAbs / 2 := Nat.div_le_div_left (by omega) (by omega)
    omega

/-- The two halves of a dividend, as they are set up before a division, stand for it. -/
theorem toInt_spread (a : Word) :
    (if a.msb then -1 else 0 : Word).toInt * 2 ^ 64 + a.toNat = a.toInt := by
  have ha := BitVec.toInt_eq_msb_cond a
  cases hm : a.msb with
  | true =>
    have hhigh : (if true = true then -1 else 0 : Word).toInt = -1 := by decide
    rw [hm, if_pos rfl] at ha
    rw [hhigh]
    omega
  | false =>
    have hhigh : (if false = true then -1 else 0 : Word).toInt = 0 := by decide
    rw [hm, if_neg Bool.false_ne_true] at ha
    rw [hhigh]
    omega

/-- Division gives the quotient and the remainder of the values. -/
theorem divide_of_represents {t : Ty} {a b : Word} {v w : Int} (ha : t.Represents a v)
    (hb : t.Represents b w) (hw : w ≠ 0) (h : ¬(v = -2 ^ 63 ∧ w = -1)) :
    divide t.isSigned (if t.isSigned then if a.msb then -1 else 0 else 0) a b =
      some (BitVec.ofInt 64 (v.tdiv w), BitVec.ofInt 64 (v.tmod w)) := by
  have hne : b ≠ 0 := by
    rintro rfl
    exact hw (hb.read.symm.trans (readWord_eq_zero.2 rfl))
  have hav := ha.read
  have hbw := hb.read
  unfold divide
  cases hs : t.isSigned with
  | true =>
    rw [readWord_signed hs] at hav hbw
    have hbounds := tdiv_bounds (hav ▸ a.le_toInt) (hav ▸ a.toInt_lt) hw h
    simp only [if_true, toInt_spread, hav, hbw]
    rw [if_neg]
    rintro (h0 | hlow | hhigh)
    · exact hne h0
    · omega
    · omega
  | false =>
    rw [readWord_unsigned hs] at hav hbw
    have hlt : a.toNat / b.toNat < 2 ^ 64 := lt_of_le_of_lt (Nat.div_le_self _ _) a.isLt
    have hn : (0 : Word).toNat * 2 ^ 64 + a.toNat = a.toNat := by simp
    simp only [Bool.false_eq_true, if_false, hn]
    rw [if_neg, ← hav, ← hbw, ← Int.ofNat_tdiv, ← Int.ofNat_tmod, BitVec.ofInt_natCast,
      BitVec.ofInt_natCast]
    rintro (h0 | hhigh)
    · exact hne h0
    · omega

/-! ## Blocks of instructions -/

theorem extended_extended (w : Width) (signed : Bool) (v : Word) :
    w.extended signed (w.extended false v) = w.extended signed v := by
  cases w <;> cases signed <;> simp [Width.extended, Width.bytes]

/-- A truth value that is set in the low byte of a register fills it when the byte is extended. -/
theorem extended_merged (b : Bool) (old : Word) :
    Width.byte.extended false (Width.byte.merged old (if b then 1 else 0)) =
      BitVec.ofInt 64 (truth b) := by
  apply BitVec.eq_of_toNat_eq
  cases b <;> simp [Width.extended, Width.merged, Width.bytes, truth]

/-- From `s`, the block ends with the word in `rax`, and leaves the stack alone. -/
def Machine.Block.Gives (code : Block) (s : State) (w : Word) : Prop :=
  ∃ s', s.run code = some s' ∧ s.Keeps s' ∧ s'.regs .rax = w

theorem Machine.Block.Gives.after {code tail : Block} {s s' : State} {w : Word}
    (hrun : s.run code = some s') (hkeeps : s.Keeps s') (h : Block.Gives tail s' w) :
    Block.Gives (code ++ tail) s w := by
  obtain ⟨s'', hrun', hkeeps', hrax⟩ := h
  refine ⟨s'', ?_, hkeeps.trans hkeeps', hrax⟩
  rw [run_append, hrun]
  exact hrun'

theorem gives_normalize (t : Ty) (s : State) :
    Block.Gives (normalize t) s ((resultWidth t).extended t.isSigned (s.regs .rax)) := by
  unfold Code.normalize
  split
  · next hw =>
    rw [hw, Width.extended_quad]
    exact ⟨s, rfl, .refl s, rfl⟩
  · next w hw =>
    refine ⟨_, rfl, keeps_of_regs rfl rfl rfl, ?_⟩
    exact extended_extended _ _ _

variable {t : Ty} {s : State} {v w : Int}

/-- The dividend is extended, so quotient and remainder are truncated toward zero. -/
theorem run_division (ha : t.Represents (s.regs .rax) v) (hb : t.Represents (s.regs .rcx) w)
    (hw : w ≠ 0) (h : ¬(v = -2 ^ 63 ∧ w = -1)) :
    ∃ s', s.run (division t.isSigned) = some s' ∧ s.Keeps s' ∧
      s'.regs .rax = BitVec.ofInt 64 (v.tdiv w) ∧ s'.regs .rdx = BitVec.ofInt 64 (v.tmod w) := by
  -- The upper half of the dividend is its sign or zero, by the instruction before the division.
  have hdivide := divide_of_represents ha hb hw h
  unfold division
  cases hs : t.isSigned with
  | true =>
    rw [hs, if_pos rfl] at hdivide
    simp only [if_true, State.run, State.exec, State.regs_set, reduceCtorEq, if_false, hdivide,
      Option.bind_eq_bind, Option.bind_some, Option.pure_def]
    exact ⟨_, rfl, keeps_of_regs rfl rfl rfl, rfl, rfl⟩
  | false =>
    rw [hs, if_neg Bool.false_ne_true] at hdivide
    have hclear : s.regs .rdx ^^^ s.regs .rdx = 0 := BitVec.xor_self
    simp only [Bool.false_eq_true, if_false, Line.clear, Line.xor, State.run, State.exec, State.read,
      Width.extended_quad, ArithOp.apply, hclear, State.regs_set, reduceCtorEq, if_true,
      hdivide, Option.bind_eq_bind, Option.bind_some, Option.pure_def]
    exact ⟨_, rfl, keeps_of_regs rfl rfl rfl, rfl, rfl⟩

/-- A comparison leaves its truth value. -/
theorem gives_compare (ha : t.Represents (s.regs .rax) v) (hb : t.Represents (s.regs .rcx) w)
    (hop : op.isCompare = true) :
    Block.Gives (operate t.isSigned op) s (BitVec.ofInt 64 (truth (Fold.compare op v w))) := by
  have hholds := holds_conditionOf ha hb hop
  have hoperate : operate t.isSigned op =
      [.instr (.cmp (.reg .rcx) .rax), .instr (.set (conditionOf t.isSigned op) .rax),
        .instr (.extend false .byte (.reg .rax) .rax)] := by
    cases op with
    | eq | ne | lt | le | gt | ge => rfl
    | _ => exact nomatch hop
  rw [hoperate]
  simp only [Block.Gives, State.run, State.exec, State.read, State.write, Width.extended_quad,
    Option.bind_eq_bind, Option.bind_some, Option.pure_def, hholds]
  refine ⟨_, rfl, keeps_of_regs rfl rfl rfl, ?_⟩
  simp only [State.regs_set, if_true]
  rw [extended_extended, extended_merged]

/-- An operation on words with the result in `rax`. -/
theorem gives_apply (op : ArithOp) (s : State) :
    Block.Gives [.instr (.arith op (.reg .rcx) .rax)] s (op.apply (s.regs .rax) (s.regs .rcx)).1 := by
  simp only [Block.Gives, State.run, State.exec, State.read, Width.extended_quad, Option.bind_eq_bind,
    Option.bind_some, Option.pure_def]
  exact ⟨_, rfl, keeps_of_regs rfl rfl rfl, rfl⟩

theorem of_quotient {f : Int → Int → Int} {h h' : History}
    (hr : quotient (some u) f v w h = (.ok r, h')) :
    u.wrap (f v w) = r ∧ w ≠ 0 ∧ ¬(v = -2 ^ 63 ∧ w = -1) := by
  unfold quotient at hr
  split at hr
  · exact nomatch hr
  · next hfault =>
    rw [not_or] at hfault
    exact ⟨Except.ok.inj (congrArg Prod.fst hr), hfault⟩

/-- Arithmetic does on words what it does on values, up to the width of the result. -/
theorem gives_arith (ha : t.Represents (s.regs .rax) v) (hb : t.Represents (s.regs .rcx) w)
    (hop : op.isArith = true) {h h' : History}
    (hr : calculate (some u) op v w h = (.ok r, h')) :
    Block.Gives (operate t.isSigned op) s (BitVec.ofInt 64 (Fold.arith op v w)) ∧
      u.wrap (Fold.arith op v w) = r := by
  cases op with
  | add =>
    refine ⟨?_, Except.ok.inj (congrArg Prod.fst hr)⟩
    have hadd := gives_apply .add s
    rwa [ha.word, hb.word, ArithOp.apply, ← BitVec.ofInt_add] at hadd
  | sub =>
    refine ⟨?_, Except.ok.inj (congrArg Prod.fst hr)⟩
    have hsub := gives_apply .sub s
    rwa [ha.word, hb.word, ArithOp.apply, BitVec.sub_eq_add_neg, ← BitVec.ofInt_neg,
      ← BitVec.ofInt_add, ← Int.sub_eq_add_neg] at hsub
  | mul =>
    refine ⟨?_, Except.ok.inj (congrArg Prod.fst hr)⟩
    have hmul := gives_apply .imul s
    rwa [ha.word, hb.word, ArithOp.apply, ← BitVec.ofInt_mul] at hmul
  | div =>
    obtain ⟨hwrap, hw, hfault⟩ := of_quotient hr
    obtain ⟨s', hrun, hkeeps, hrax, -⟩ := run_division ha hb hw hfault
    exact ⟨⟨s', hrun, hkeeps, hrax⟩, hwrap⟩
  | rem =>
    obtain ⟨hwrap, hw, hfault⟩ := of_quotient hr
    obtain ⟨s', hrun, hkeeps, -, hrdx⟩ := run_division ha hb hw hfault
    refine ⟨⟨s'.set .rax (s'.regs .rdx), ?_, ?_, ?_⟩, hwrap⟩
    · rw [operate, run_append, hrun]
      simp [State.run, Line.copy, Line.mov, State.exec, State.read, State.write, Width.merged]
    · exact hkeeps.trans (keeps_of_regs rfl rfl rfl)
    · rw [State.regs_set, if_pos rfl]
      exact hrdx
  | _ => cases hop

/-- Operators do on words what they do on values, up to the width of the result. -/
theorem gives_operate (ha : t.Represents (s.regs .rax) v) (hb : t.Represents (s.regs .rcx) w)
    (hop : op.isArith = true ∧ u ≠ .bool ∨ op.isCompare = true ∧ u = .bool)
    {h h' : History} (hr : calculate (some u) op v w h = (.ok r, h')) :
    ∃ x, Block.Gives (operate t.isSigned op) s (BitVec.ofInt 64 x) ∧ u.wrap x = r ∧
      (u = .bool → x = 0 ∨ x = 1) := by
  -- The exact result of arithmetic may be out of range; the word for it is right modulo the width.
  rcases hop with ⟨hop, hu⟩ | ⟨hop, rfl⟩
  · obtain ⟨hgives, hwrap⟩ := gives_arith ha hb hop hr
    exact ⟨_, hgives, hwrap, fun h => absurd h hu⟩
  · rw [calculate_compare hop] at hr
    obtain rfl : truth (Fold.compare op v w) = r := Except.ok.inj (congrArg Prod.fst hr)
    refine ⟨_, gives_compare ha hb hop, ?_, fun _ => ?_⟩
    · cases Fold.compare op v w <;> rfl
    · cases Fold.compare op v w <;> simp [truth]

/-! ## Results -/

/-- What a block leaves in `rax` is brought to the width of a type by the lines after it. -/
theorem Machine.Block.Gives.normalize {code : Block} {x : Int}
    (h : Block.Gives code s (BitVec.ofInt 64 x)) (ht : t.isScalar = true)
    (hx : t = .bool → x = 0 ∨ x = 1) :
    ∃ w, Block.Gives (code ++ Code.normalize t) s w ∧ t.Represents w (t.wrap x) := by
  obtain ⟨s1, hrun, hkeeps, hrax⟩ := h
  have hlast := gives_normalize t s1
  rw [hrax] at hlast
  exact ⟨_, .after hrun hkeeps hlast, represents_extended ht hx⟩

theorem gives_const (n : Int) (s : State) : Block.Gives [.const n .rax] s (BitVec.ofInt 64 n) := by
  refine ⟨_, rfl, keeps_of_regs rfl rfl rfl, ?_⟩
  simp [Width.merged]

theorem gives_neg (ha : t.Represents (s.regs .rax) v) :
    Block.Gives [.instr (.unary .neg .rax)] s (BitVec.ofInt 64 (-v)) := by
  refine ⟨_, rfl, keeps_of_regs rfl rfl rfl, ?_⟩
  rw [BitVec.ofInt_neg, ← ha.word]
  rfl

/-- Flipping the lowest bit of a truth value gives the opposite one. -/
theorem exists_gives_opposite (ha : Ty.bool.Represents (s.regs .rax) v) :
    ∃ w, Block.Gives [.xor (.imm 1) .rax] s w ∧ Ty.bool.Represents w (truth (decide (v = 0))) := by
  refine ⟨s.regs .rax ^^^ 1, ⟨_, rfl, keeps_of_regs rfl rfl rfl, rfl⟩, ?_⟩
  rw [ha.word]
  rcases ha.truth rfl with rfl | rfl
  · exact ⟨by decide, fun _ => Or.inr rfl⟩
  · exact ⟨by decide, fun _ => Or.inl rfl⟩

end Sigil
