import Sigil.Proofs.Machine.Expressions

/-!
# Wrapping around

An integer that does not fit its type is brought into range in four places: by the literal that folding makes of
it, by the code that brings a register back to the width of the type, and by a store that keeps the low bytes
together with a load that extends them. For integers of all widths and both signs, and for `char`, all of them
come to the same value (`wrapping_agrees`).
-/

namespace Sigil

open Code Machine

/-! ## Ranges -/

/-- The integer types of one, two, four and eight bytes, and `char`. -/
def Ty.isSized : Ty → Bool
  | .int bits _ => [8, 16, 32, 64].contains bits
  | .char => true
  | _ => false

theorem Ty.isSized_iff {t : Ty} : t.isSized = true ↔ t.isOrdered = true ∧ t.isScalar = true := by
  cases t <;> simp [isSized, isOrdered, isScalar, or_assoc]

/-- A value that is brought into range is in range. -/
theorem Ty.exists_range_wrap {t : Ty} (ht : t.isSized = true) (v : Int) :
    ∃ lo hi, t.range? = some (lo, hi) ∧ lo ≤ t.wrap v ∧ t.wrap v ≤ hi := by
  obtain ⟨hordered, hscalar⟩ := Ty.isSized_iff.1 ht
  rcases Ty.isOrdered_iff.1 hordered with ⟨bits, signed, rfl⟩ | rfl
  · obtain ⟨k, rfl, hmin⟩ : ∃ k, bits = k + 1 ∧ min bits 64 = k + 1 := by
      rcases Ty.isScalar_int hscalar with rfl | rfl | rfl | rfl <;> exact ⟨_, rfl, rfl⟩
    have hpow : 2 ^ (k + 1) = 2 * 2 ^ k := Nat.pow_succ'
    have hpos : 0 < 2 ^ k := Nat.two_pow_pos k
    cases signed with
    | true =>
      have hle := Int.le_bmod (x := v) (m := 2 ^ (k + 1)) (by omega)
      have hlt := Int.bmod_lt (x := v) (m := 2 ^ (k + 1)) (by omega)
      refine ⟨-((2 ^ k : Nat) : Int), ((2 ^ k : Nat) : Int) - 1, rfl, ?_⟩
      rw [wrap, hmin]
      constructor <;> omega
    | false =>
      have hnonneg := Int.emod_nonneg v (b := ((2 ^ (k + 1) : Nat) : Int)) (by omega)
      have hlt := Int.emod_lt_of_pos v (b := ((2 ^ (k + 1) : Nat) : Int)) (by omega)
      refine ⟨0, ((2 ^ (k + 1) : Nat) : Int) - 1, rfl, ?_⟩
      have hcast : ((2 ^ (k + 1) : Nat) : Int) = 2 ^ (k + 1) := Nat.cast_pow 2 (k + 1)
      rw [wrap, hmin, ← hcast]
      exact ⟨hnonneg, Int.le_sub_one_of_lt hlt⟩
  · have hnonneg := Int.emod_nonneg v (b := 256) (by decide)
    have hlt := Int.emod_lt_of_pos v (b := 256) (by decide)
    exact ⟨0, 255, rfl, hnonneg, Int.le_of_lt_add_one hlt⟩

/-! ## Stores and loads -/

theorem run_store (t : Ty) (s : State) :
    s.run (store t) = some { s with
      mem := s.mem.store (s.regs .rcx) (widthOf t).bytes
        ((widthOf t).extended false (s.regs .rax)).toNat } := by
  have haddress : s.address .rcx 0 = s.regs .rcx := by simp [State.address]
  simp [store, storeTo, State.run, State.exec, State.read, State.write, haddress]

theorem toNat_extended_lt (w : Width) (v : Word) : (w.extended false v).toNat < 256 ^ w.bytes := by
  have hlt := (v.setWidth (8 * w.bytes)).isLt
  have hle : (w.extended false v).toNat ≤ (v.setWidth (8 * w.bytes)).toNat := by
    rw [Width.extended, if_neg Bool.false_ne_true, BitVec.toNat_setWidth]
    exact Nat.mod_le _ _
  rw [Nat.pow_mul] at hlt
  exact Nat.lt_of_le_of_lt hle hlt

/-- What has been stored is loaded as the register would be at the width of the type. -/
theorem gives_load_of_store {t : Ty} {s s₁ s₂ : State} (hstore : s.run (store t) = some s₁)
    (hrax : s₂.regs .rax = s.regs .rcx)
    (hmem : ∀ i < (widthOf t).bytes,
      s₂.mem (s.regs .rcx + .ofNat 64 i) = s₁.mem (s.regs .rcx + .ofNat 64 i)) :
    Block.Gives (load t) s₂ ((widthOf t).extended t.isSigned (s.regs .rax)) := by
  rw [run_store] at hstore
  obtain rfl := Option.some.inj hstore
  have hload := gives_load t s₂
  have hbytes : (widthOf t).bytes ≤ 2 ^ 64 := by
    cases widthOf t <;> decide
  rw [hrax, Memory.load_congr hmem, Memory.load_store _ _ (Nat.le_refl _) hbytes,
    Nat.mod_eq_of_lt (toNat_extended_lt _ _), BitVec.ofNat_toNat, BitVec.setWidth_eq, extended_extended] at hload
  exact hload

/-! ## Agreement -/

theorem gives_normalize_widthOf {t : Ty} (ht : t.isScalar = true) (s : State) :
    Block.Gives (normalize t) s ((widthOf t).extended t.isSigned (s.regs .rax)) := by
  rw [(widthOf_eq ht).1]
  exact gives_normalize t s

/-- Folding wraps around as generated code does. The literal that folding makes of an integer stands for a value
in the range of the type that agrees with the integer modulo the number of values of the type. A register that
holds the integer modulo the number of words is brought to the word for this value, and what a register holds is
loaded after a store as it is brought back to the width of the type. -/
theorem wrapping_agrees {t : Ty} (ht : t.isSized = true) :
    (∀ (pos : Position) (v : Int), ∃ n,
      (Expr.ofValue ⟨pos, some t⟩ v t).value? = some n ∧
      (∃ lo hi, t.range? = some (lo, hi) ∧ lo ≤ n ∧ n ≤ hi) ∧
      n ≡ v [ZMOD t.modulus] ∧
      ∀ s : State, s.regs .rax = .ofInt 64 v → Block.Gives (Code.normalize t) s (.ofInt 64 n)) ∧
    ∀ s : State, ∃ s₁, s.run (Code.store t) = some s₁ ∧
      ∀ s₂ : State, s₂.regs .rax = s.regs .rcx →
        (∀ i < (Code.widthOf t).bytes,
          s₂.mem (s.regs .rcx + .ofNat 64 i) = s₁.mem (s.regs .rcx + .ofNat 64 i)) →
        ∃ w, Block.Gives (Code.load t) s₂ w ∧ Block.Gives (Code.normalize t) s w := by
  obtain ⟨hordered, hscalar⟩ := Ty.isSized_iff.1 ht
  refine ⟨fun pos v => ⟨t.wrap v, value?_ofValue rfl hordered v, Ty.exists_range_wrap ht v,
    Ty.wrap_modEq hordered v, fun s hrax => ?_⟩, fun s => ⟨_, run_store t s, fun s₂ hrax hmem => ?_⟩⟩
  · -- Only a boolean would have to be 0 or 1.
    have hbool : t ≠ .bool := by
      rintro rfl
      cases hordered
    have hnormal := gives_normalize t s
    rw [hrax, (represents_extended hscalar fun h => absurd h hbool).word] at hnormal
    exact hnormal
  · exact ⟨_, gives_load_of_store (run_store t s) hrax hmem, gives_normalize_widthOf hscalar s⟩

theorem wrapping_agrees_short :
    (Ty.int 16 true).isSized = true ∧
      ∃ n, (Expr.ofValue ⟨.origin, some (.int 16 true)⟩ 40000 (.int 16 true)).value? = some n ∧
        n ≡ 40000 [ZMOD 65536] ∧ -32768 ≤ n ∧ n ≤ 32767 := by
  obtain ⟨n, hvalue, ⟨lo, hi, hrange, hlo, hhi⟩, hmod, -⟩ :=
    (wrapping_agrees (t := .int 16 true) rfl).1 .origin 40000
  cases hrange
  exact ⟨rfl, n, hvalue, hmod, hlo, hhi⟩

end Sigil
