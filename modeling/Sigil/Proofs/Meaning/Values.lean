import Mathlib.Data.Int.ModEq
import Sigil.Fold.Literal
import Sigil.Proofs.Typing.Rules

/-!
# Values of types

The value of an expression is an integer, which its type brings into range (`Ty.wrap`): an integer type
keeps the low bits of it, read with the sign of the type, a `char` the low byte, a `bool` whether it is
zero, and an address or an enum the low 64 bits. What is brought into range depends only on the integer
modulo the width (`Ty.wrap_eq_wrap`), so sums, differences and products may be brought into range as
often as one likes.
-/

namespace Sigil

namespace Ty

/-- The value of a type that an integer stands for. -/
def wrap : Ty → Int → Int
  | .int bits true, v => v.bmod (2 ^ min bits 64)
  | .int bits false, v => v % 2 ^ min bits 64
  | .char, v => v % 256
  | .bool, v => if v = 0 then 0 else 1
  | .str, v | .ptr _, v | .enum _, v => v % 2 ^ 64
  | .void, v | .array _ _, v | .struct _, v => v

/-- The number of values of an integer type or of `char`. -/
def modulus : Ty → Nat
  | .int bits _ => 2 ^ min bits 64
  | _ => 256

/-- Bringing a value into range twice is as good as once. -/
@[simp] theorem wrap_wrap (t : Ty) (v : Int) : t.wrap (t.wrap v) = t.wrap v := by
  match t with
  | .int bits true => exact Int.bmod_bmod
  | .int bits false | .char | .str | .ptr _ | .enum _ => exact Int.emod_emod_of_dvd v (dvd_refl _)
  | .bool =>
    by_cases hv : v = 0 <;> simp [wrap, hv]
  | .void | .array _ _ | .struct _ => rfl

/-- Two integers stand for the same value if they agree modulo the number of values. -/
theorem wrap_eq_wrap {t : Ty} (ht : t.isOrdered = true) {v w : Int} :
    t.wrap v = t.wrap w ↔ v ≡ w [ZMOD t.modulus] := by
  rcases isOrdered_iff.1 ht with ⟨bits, signed, rfl⟩ | rfl
  · cases signed with
    | true =>
      constructor
      · intro h
        have h' : v.bmod (2 ^ min bits 64) % (2 ^ min bits 64 : Nat) =
            w.bmod (2 ^ min bits 64) % (2 ^ min bits 64 : Nat) := congrArg (· % _) h
        rwa [Int.bmod_emod, Int.bmod_emod] at h'
      · intro h
        have h' : v % (2 ^ min bits 64 : Nat) = w % (2 ^ min bits 64 : Nat) := h
        change v.bmod (2 ^ min bits 64) = w.bmod (2 ^ min bits 64)
        rw [← Int.emod_bmod, h', Int.emod_bmod]
    | false => simp [wrap, modulus, Int.ModEq]
  · simp [wrap, modulus, Int.ModEq]

/-- A value stands for what it came from. -/
theorem wrap_modEq {t : Ty} (ht : t.isOrdered = true) (v : Int) : t.wrap v ≡ v [ZMOD t.modulus] :=
  (wrap_eq_wrap ht).1 (wrap_wrap t v)

/-- A truth value is zero or one. -/
theorem wrap_bool (v : Int) : Ty.bool.wrap v = 0 ∨ Ty.bool.wrap v = 1 := by
  by_cases hv : v = 0 <;> simp [wrap, hv]

end Ty

/-! ## Literals -/

/-- The word for an integer is read as the value of the type that the integer stands for. -/
theorem readWord_wrapWord (bits : Nat) (signed : Bool) (v : Int) :
    readWord (some (.int bits signed)) (wrapWord bits signed v) = (Ty.int bits signed).wrap v := by
  unfold wrapWord
  by_cases hbits : 64 ≤ bits
  · -- The word itself.
    have hmin : min bits 64 = 64 := Nat.min_eq_right hbits
    cases signed with
    | true => simp [readWord, Ty.isSigned, Ty.wrap, hbits]
    | false =>
      simp only [readWord, Ty.isSigned, Ty.wrap, hbits, hmin, if_true, Bool.false_eq_true, if_false,
        BitVec.toNat_ofInt]
      exact Int.toNat_of_nonneg (Int.emod_nonneg _ (by decide))
  · -- A part of the word, extended again.
    have hmin : min bits 64 = bits := Nat.min_eq_left (by omega)
    have hle : bits ≤ 64 := by omega
    cases signed with
    | true => simp [readWord, Ty.isSigned, Ty.wrap, hbits, hmin, BitVec.toInt_signExtend_of_le hle]
    | false =>
      have hlt : (BitVec.ofInt bits v).toNat < 2 ^ 64 :=
        lt_of_lt_of_le (BitVec.isLt _) (Nat.pow_le_pow_right (by decide) hle)
      have hnonneg : 0 ≤ v % ((2 ^ bits : Nat) : Int) :=
        Int.emod_nonneg v (Int.natCast_ne_zero.2 (NeZero.ne (2 ^ bits)))
      have hword : (((BitVec.ofInt bits v).setWidth 64).toNat : Int) = v % ((2 ^ bits : Nat) : Int) := by
        rw [BitVec.toNat_setWidth, Nat.mod_eq_of_lt hlt, BitVec.toNat_ofInt, Int.toNat_of_nonneg hnonneg]
      simpa [readWord, Ty.isSigned, Ty.wrap, hbits, hmin] using hword

/-- The literal for an integer stands for the value of the type that the integer stands for. -/
theorem value?_ofValue {m : Mark} {t : Ty} (hm : m.ty = some t) (ht : t.isOrdered = true) (v : Int) :
    (Expr.ofValue m v t).value? = some (t.wrap v) := by
  rcases Ty.isOrdered_iff.1 ht with ⟨bits, signed, rfl⟩ | rfl
  · rw [Expr.ofValue, Expr.value?, hm]
    exact congrArg some (readWord_wrapWord bits signed v)
  · have hbyte : (((BitVec.ofInt 8 v).toNat.toUInt8.toNat : Nat) : Int) = v % 256 := by
      have hlt : (BitVec.ofInt 8 v).toNat < 256 := (BitVec.ofInt 8 v).isLt
      have hnonneg : 0 ≤ v % 256 := Int.emod_nonneg v (by decide)
      rw [Nat.toUInt8_eq, UInt8.toNat_ofNat', Nat.mod_eq_of_lt hlt, BitVec.toNat_ofInt]
      exact Int.toNat_of_nonneg hnonneg
    exact congrArg some hbyte

/-- A word is read as zero only if it is. -/
theorem readWord_eq_zero {ty : Option Ty} {n : Word} : readWord ty n = 0 ↔ n = 0 := by
  have hnat : (n.toNat : Int) = 0 ↔ n = 0 := by simp [← BitVec.toNat_inj]
  unfold readWord
  split
  · split
    · simp [← BitVec.toInt_inj]
    · exact hnat
  · exact hnat

end Sigil
