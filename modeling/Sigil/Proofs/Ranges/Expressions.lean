import Sigil.Proofs.Meaning.Literals
import Sigil.Proofs.Parsing.Programs

/-!
# Literals in checked expressions

Where a value is stored, passed or tested, a literal is in the range of its type. An operand of a binary
operator or of a conversion takes over a type without a check of its range, so two kinds of literals may be
out of it there (`Expr.Exceeds`): the magnitude of the least value of a signed type, which is let pass for
the sake of a minus sign before it, and the size of a type.

A check is trusted with a hint: if it is followed by no comparison with the range, its result may be such a
literal, of the type that was hinted at (`Check.Hopes`).
-/

namespace Sigil

open List

variable {bits : Nat} {signed : Bool} {v : Int}

/-! ## Ranges -/

theorem inRange_iff {lo hi : Int}
    (h : (Ty.int bits signed).range? = some (lo, hi)) : InRange bits signed v ↔ lo ≤ v ∧ v ≤ hi := by
  cases signed <;> simp only [Ty.range?, Option.some.injEq, Prod.mk.injEq] at h <;>
    obtain ⟨rfl, rfl⟩ := h <;> exact and_congr_right fun _ => Int.le_sub_one_iff.symm

/-- A word is in the range of every integer type that is as wide. -/
theorem inRange_readWord (h : 64 ≤ bits) (signed : Bool) (n : Word) :
    InRange bits signed (readWord (some (.int bits signed)) n) := by
  cases signed with
  | false =>
    change 0 ≤ (n.toNat : Int) ∧ (n.toNat : Int) < 2 ^ bits
    have hlt : n.toNat < 2 ^ bits := n.isLt.trans_le (Nat.pow_le_pow_right (by decide) h)
    exact ⟨Int.natCast_nonneg _, by exact_mod_cast hlt⟩
  | true =>
    change -2 ^ (bits - 1) ≤ n.toInt ∧ n.toInt < 2 ^ (bits - 1)
    have hpow : (2 : Int) ^ 63 ≤ 2 ^ (bits - 1) := by
      exact_mod_cast Nat.pow_le_pow_right (n := 2) (by decide) (by omega : 63 ≤ bits - 1)
    have hle : -2 ^ 63 ≤ n.toInt := BitVec.le_toInt n
    have hlt : n.toInt < 2 ^ 63 := BitVec.toInt_lt
    omega

/-- An integer in the range of a type that is narrower than a word is the value of its own word. -/
theorem readWord_ofInt (h : bits < 64)
    (hv : InRange bits signed v) : readWord (some (.int bits signed)) (.ofInt 64 v) = v := by
  cases signed with
  | false =>
    change ((BitVec.ofInt 64 v).toNat : Int) = v
    have hpow : (2 : Int) ^ bits ≤ 2 ^ 64 := by
      exact_mod_cast Nat.pow_le_pow_right (n := 2) (by decide) (by omega : bits ≤ 64)
    obtain ⟨hlo, hhi⟩ := hv
    rw [BitVec.toNat_ofInt]
    omega
  | true =>
    change (BitVec.ofInt 64 v).toInt = v
    have hpow : (2 : Int) ^ (bits - 1) ≤ 2 ^ 63 := by
      exact_mod_cast Nat.pow_le_pow_right (n := 2) (by decide) (by omega : bits - 1 ≤ 63)
    obtain ⟨hlo, hhi⟩ := hv
    rw [BitVec.toInt_ofInt]
    refine Int.bmod_eq_of_le ?_ ?_ <;> omega

/-! ## Literals -/

namespace Expr

/-- If the expression is a literal of an integer type, its value is in the range of the type. -/
def Ranged : Expr → Prop
  | .intLit m n => ∀ bits signed, m.ty = some (.int bits signed) → InRange bits signed (readWord m.ty n)
  | _ => True

/-- A literal of a signed type, one above its range: the magnitude of the least value. -/
def Brims : Expr → Prop
  | .intLit m n => ∃ bits, m.ty = some (.int bits true) ∧ n.toNat = 2 ^ (bits - 1)
  | _ => False

/-- A literal for the size of a type, which one of the given expressions asks for at its place. -/
def Measures (T : Symbols) (sources : List Expr) : Expr → Prop
  | .intLit m n => ∃ m0 type size, Expr.sizeof m0 type ∈ sources ∧ m0.pos = m.pos ∧
    n = .ofNat 64 size ∧ ∃ c : Check.Context, c.symbols = T ∧ ∃ f, T.ask (do
      (c.names f).sizeOf (← (c.names f).resolve type)) = .ok size
  | _ => False

/-- A literal that may be out of range. -/
def Exceeds (T : Symbols) (sources : List Expr) (e : Expr) : Prop :=
  e.Brims ∨ e.Measures T sources

/-- Whether an operand takes over a type without a check of its range. -/
def adopts : Expr → Bool
  | .binary .. | .cast .. => true
  | _ => false

/-- Whether this is a negation. -/
def isNeg : Expr → Bool
  | .unary _ .neg _ => true
  | _ => false

/-- The part `k` of `e` is in range, or it stands where it need not be. -/
def Admits (T : Symbols) (sources : List Expr) (e k : Expr) : Prop :=
  k.Ranged ∨ e.isNeg = true ∨ e.adopts = true ∧ k.Exceeds T sources

/-- The literals inside an expression are in range, but for those that stand where they need not be. -/
def RangedInside (T : Symbols) (sources : List Expr) (e : Expr) : Prop :=
  ∀ n ∈ e.nodes, ∀ k ∈ n.children, n.Admits T sources k

end Expr

namespace Check

open Expr

variable {c : Context} {f : Frame} {sources : List Expr} {tree e k : Expr} {t : Ty} {T : Symbols} {m : Mark}
  {hint : Option Ty} {r : Expr × Ty}

/-- All literals of an expression are in range, but for those that stand where they need not be. -/
def Fine (c : Context) (sources : List Expr) (e : Expr) : Prop :=
  e.Ranged ∧ e.RangedInside c.symbols sources

/-- What the check of `tree` promises: an expression with literals in range, unless it is a literal that has
got the type that was hinted at. -/
def Hopes (c : Context) (f : Frame) (sources : List Expr) (tree : Expr) (hint : Option Ty) (e : Expr) :
    Prop :=
  e.RangedInside c.symbols sources ∧
    (e.Ranged ∨ e.Exceeds c.symbols sources ∧ e.ty = hint ∧ c.isOpen f tree = true)

/-- An expression whose check keeps its promise, whatever is hinted at. -/
def Hopeful (c : Context) (f : Frame) (sources : List Expr) (k : Expr) : Prop :=
  ∀ hint r, Result c f k hint r → Hopes c f sources k hint r.1

theorem ranged_of_wide (h : ∀ bits signed, e.ty = some (.int bits signed) → 64 ≤ bits) :
    e.Ranged := by
  unfold Ranged
  split
  · next m n =>
    intro bits signed hm
    rw [hm]
    exact inRange_readWord (h bits signed hm) signed n
  · trivial

/-- A hint at a word or at no integer type cannot put a literal out of range. -/
theorem Hopes.fine (h : Hopes c f sources tree hint e)
    (hhint : ∀ bits signed, hint = some (.int bits signed) → 64 ≤ bits) : Fine c sources e := by
  refine ⟨?_, h.1⟩
  rcases h.2 with h | ⟨-, hty, -⟩
  · exact h
  · exact ranged_of_wide (hty ▸ hhint)

theorem Hopes.admits (h : Hopes c f sources tree hint k)
    (he : e.adopts = true) : e.Admits c.symbols sources k :=
  h.2.imp_right fun h => Or.inr ⟨he, h.1⟩

theorem rangedInside_iff :
    e.RangedInside T sources ↔
      (∀ k ∈ e.children, e.Admits T sources k) ∧ ∀ k ∈ e.children, k.RangedInside T sources :=
  forall_nodes

theorem admits_withTy (h : e.Admits T sources k) :
    (e.withTy t).Admits T sources k := by
  cases e with
  | unary m op e => cases op <;> exact h
  | _ => exact h

/-- An expression that is no literal, with parts that may stand there. -/
theorem hopes_accepted (he : (e.withTy t).Ranged)
    (hk : ∀ k ∈ e.children, e.Admits c.symbols sources k ∧ k.RangedInside c.symbols sources) :
    Hopes c f sources tree hint (accepted e t).1 := by
  refine ⟨rangedInside_iff.2 ?_, Or.inl he⟩
  rw [accepted, children_withTy]
  exact ⟨fun k h => admits_withTy (hk k h).1, fun k h => (hk k h).2⟩

/-- An expression with parts that are in range themselves. -/
theorem hopes_accepted_fine (he : (e.withTy t).Ranged) (hk : ∀ k ∈ e.children, Fine c sources k) :
    Hopes c f sources tree hint (accepted e t).1 :=
  hopes_accepted he fun k h => ⟨Or.inl (hk k h).1, (hk k h).2⟩

theorem hopes_leaf (he : (e.withTy t).Ranged) (hleaf : e.children = []) :
    Hopes c f sources tree hint (accepted e t).1 :=
  hopes_accepted_fine he fun _ hk => absurd hk (by simp [hleaf])

/-- An expression without parts that is no integer literal. -/
theorem fine_leaf (h : e.Ranged) (hleaf : e.children = []) : Fine c sources e :=
  ⟨h, rangedInside_iff.2 (by simp [hleaf])⟩

theorem Hopeful.fine_none (hk : Hopeful c f sources k) (h : Result c f k none r) : Fine c sources r.1 :=
  (hk _ _ h).fine fun _ _ h => nomatch h

theorem Hopeful.fine_bool (hk : Hopeful c f sources k) (h : Result c f k (some .bool) r) :
    Fine c sources r.1 :=
  (hk _ _ h).fine fun _ _ h => nomatch h

/-- A value that is coerced is in range: it is an open literal only if its value has been looked at. -/
theorem Hopeful.fine_coerced (hk : Hopeful c f sources k) (h : Coerced c f t e k) : Fine c sources e := by
  obtain ⟨u, he, -⟩ := h.result
  obtain ⟨hinside, hranged⟩ := hk _ _ he
  refine ⟨?_, hinside⟩
  rcases hranged with hranged | ⟨-, hty, hopen⟩
  · exact hranged
  · unfold Ranged
    split
    · next m n =>
      intro bits signed hm
      obtain rfl : t = .int bits signed := Option.some.inj (hty.symm.trans hm)
      obtain ⟨⟨lo, hi⟩, hrange⟩ : ∃ r, (Ty.int bits signed).range? = some r := by
        cases signed <;> exact ⟨_, rfl⟩
      exact (inRange_iff hrange).2 (h.holds hopen _ rfl lo hi hrange)
    · trivial

/-! ## Literals and names -/

/-- The magnitude of a literal lets one number too many pass, and only in a signed type. -/
theorem ranged_or_brims {n : Word} {lo hi : Int}
    (hm : m.ty = some (.int bits signed)) (hrange : (Ty.int bits signed).range? = some (lo, hi))
    (hn : ¬magnitude (lo, hi) < n.toNat) : (Expr.intLit m n).Ranged ∨ (Expr.intLit m n).Brims := by
  have hranged : InRange bits signed (readWord m.ty n) → (Expr.intLit m n).Ranged := by
    intro h bits' signed' hm'
    cases hm.symm.trans hm'
    exact h
  by_cases hwide : 64 ≤ bits
  · exact Or.inl (hranged (hm ▸ inRange_readWord hwide signed n))
  · cases signed with
    | false =>
      have hle : (n.toNat : Int) ≤ 2 ^ bits - 1 := by
        cases hrange
        simpa [magnitude] using hn
      refine Or.inl (hranged (hm ▸ ⟨Int.natCast_nonneg _, ?_⟩))
      exact Int.lt_of_le_sub_one hle
    | true =>
      have hle : (n.toNat : Int) ≤ 2 ^ (bits - 1) := by
        cases hrange
        refine (Int.not_lt.1 hn).trans ?_
        unfold magnitude
        split <;> simp
      have hle : n.toNat ≤ 2 ^ (bits - 1) := by exact_mod_cast hle
      rcases Nat.lt_or_eq_of_le hle with hlt | heq
      · -- The literal is too small for its sign to be read.
        have hpow : 2 ^ (bits - 1) ≤ 2 ^ 63 := Nat.pow_le_pow_right (by decide) (by omega)
        have hlt' : (n.toNat : Int) < 2 ^ (bits - 1) := by exact_mod_cast hlt
        rcases WrittenInt.readWord_cases bits true n with ⟨-, hge, -⟩ | ⟨-, hread⟩
        · omega
        · refine Or.inl (hranged ?_)
          rw [hm, hread]
          exact ⟨by omega, hlt'⟩
      · exact Or.inr ⟨bits, hm, heq⟩

theorem FormsInt.hopes {n : Word} (htree : c.isOpen f tree = true) (h : FormsInt m n hint r) :
    Hopes c f sources tree hint r.1 := by
  cases h with
  | hinted hrange hn =>
    refine ⟨rangedInside_iff.2 ⟨forall_mem_nil _, forall_mem_nil _⟩, ?_⟩
    refine (ranged_or_brims (m := ⟨m.pos, some _⟩) rfl hrange hn).imp_right fun h => ?_
    exact ⟨Or.inl h, rfl, htree⟩
  | code =>
    refine hopes_leaf (ranged_of_wide ?_) rfl
    rintro bits signed ⟨⟩
  | plain =>
    refine hopes_leaf (ranged_of_wide ?_) rfl
    rintro bits signed ⟨⟩
    exact Nat.le_refl 64

theorem FormsNeg.hopes {N : Option Ty → Expr × Ty → Prop}
    (hN : ∀ hint r, N hint r → r.1.RangedInside c.symbols sources) (h : FormsNeg m N hint r) :
    Hopes c f sources tree hint r.1 := by
  obtain ⟨isOpen, e, t, he, -, rfl⟩ := h
  exact hopes_accepted trivial (forall_mem_singleton.2 ⟨Or.inr (Or.inl rfl), hN _ _ he⟩)

theorem FormsConst.hopes {g : GlobalConst} (hg : g.value.check g.ty = .ok ())
    (htree : g.ty = none → c.isOpen f tree = true) (h : FormsConst m hint g r) :
    Hopes c f sources tree hint r.1 := by
  obtain ⟨ty, value⟩ := g
  cases value with
  | int n =>
    cases ty with
    | none =>
      simp only [FormsConst] at h
      split at h
      · refine h.hopes fun hint r h => ?_
        have hliteral : Hopes c f sources (.intLit ⟨m.pos, none⟩ (.ofNat 64 n.natAbs)) hint r.1 := h.hopes rfl
        exact hliteral.1
      · exact h.hopes (htree rfl)
    | some t =>
      -- The value has been compared with the range of its type.
      cases h
      refine hopes_leaf ?_ rfl
      intro bits signed hm
      obtain rfl : t = .int bits signed := Option.some.inj hm
      obtain ⟨⟨lo, hi⟩, hrange⟩ : ∃ r, (Ty.int bits signed).range? = some r := by
        cases signed <;> exact ⟨_, rfl⟩
      have hin : InRange bits signed n := by
        rw [inRange_iff hrange]
        simp only [Constant.check, hrange] at hg
        split at hg
        · cases hg
        · omega
      by_cases hwide : 64 ≤ bits
      · exact inRange_readWord hwide signed _
      · change InRange bits signed (readWord (some (.int bits signed)) _)
        rw [readWord_ofInt (Nat.lt_of_not_le hwide) hin]
        exact hin
  | _ =>
    cases h
    exact hopes_leaf trivial rfl

/-! ## All forms -/

/-- The operands of an operator may be out of range. -/
theorem Operands.admits {l l' : Expr} {x y : Expr × Ty} (hl : Hopeful c f sources l)
    (hl' : Hopeful c f sources l') (h : Operands c f l l' hint x y) (m : Mark) (op : BinOp) :
    ∀ k ∈ [x.1, y.1], (Expr.binary m op x.1 y.1).Admits c.symbols sources k ∧
      k.RangedInside c.symbols sources := by
  rcases h with ⟨hx, hy⟩ | ⟨hy, hx⟩ <;>
    exact forall_mem_cons.2 ⟨⟨(hl _ _ hx).admits rfl, (hl _ _ hx).1⟩,
      forall_mem_singleton.2 ⟨(hl' _ _ hy).admits rfl, (hl' _ _ hy).1⟩⟩

/-- The check of an expression that has no types yet keeps its promise. -/
theorem hopes_of_result (hc : c.symbols.Complete) (he : e.Unchecked)
    (hsources : ∀ n ∈ e.nodes, n ∈ sources) : Hopeful c f sources e := by
  induction e using by_children with
  | h e ih =>
    obtain ⟨hty, hchildren⟩ := all_iff.1 he
    obtain ⟨hself, hinside⟩ := forall_nodes.1 hsources
    replace ih : ∀ k ∈ e.children, Hopeful c f sources k :=
      fun k hk => ih k hk (hchildren k hk) (hinside k hk)
    intro hint r h
    replace h := h.forms
    cases e with
    | intLit m n => exact FormsInt.hopes (Option.isNone_iff_eq_none.2 hty) h
    | boolLit | charLit | enumLit =>
      cases h
      exact hopes_leaf trivial rfl
    | strLit m s =>
      rcases h with rfl | ⟨length, -, -, rfl⟩
      · exact hopes_leaf trivial rfl
      · refine hopes_accepted_fine trivial fun e he => ?_
        obtain ⟨b, -, rfl⟩ := mem_map.1 he
        exact fine_leaf trivial rfl
    | nil m =>
      obtain ⟨t, -, rfl⟩ := h
      exact hopes_leaf trivial rfl
    | zeroed m =>
      obtain ⟨t, -, rfl⟩ := h
      exact hopes_leaf trivial rfl
    | ident m x =>
      rcases h with ⟨slot, -, rfl⟩ | ⟨hlocal, hk, g, hask, hg⟩
      · exact hopes_leaf trivial rfl
      · obtain ⟨g', hg', hcheck⟩ := hc.globalConst hk
        cases hg'.symm.trans hask
        refine hg.hopes hcheck fun hty => ?_
        simp [Context.isOpen, Context.isGlobalConst, Frame.isLocal, hlocal, hk, hg', hty]
    | sizeof m type =>
      obtain ⟨size, hsize, rfl⟩ := h
      cases hfilter : hint.filter Ty.isInt with
      | none =>
        refine hopes_leaf (ranged_of_wide ?_) rfl
        rintro bits signed ⟨⟩
        exact Nat.le_refl 64
      | some t =>
        have hm : m.ty = none := hty
        refine ⟨rangedInside_iff.2 ⟨forall_mem_nil _, forall_mem_nil _⟩, Or.inr ?_⟩
        refine ⟨Or.inr ⟨m, type, size, hself, rfl, rfl, c, rfl, f, hsize⟩, ?_, by simp [Context.isOpen, hm]⟩
        exact (Option.filter_eq_some_iff.1 hfilter).1.symm
    | binary m op l r =>
      have hl := ih l left_mem_children
      have hr := ih r right_mem_children
      cases h with
      | logic _ hl' hr' =>
        exact hopes_accepted_fine trivial
          (forall_mem_cons.2 ⟨hl.fine_bool hl', forall_mem_singleton.2 (hr.fine_bool hr')⟩)
      | arith _ h | compare _ h => exact hopes_accepted trivial (h.admits hl hr m op)
    | unary m op k =>
      have hk := ih k mem_cons_self
      cases op with
      | neg => exact FormsNeg.hopes (fun hint r h => (hk hint r h).1) h
      | not =>
        obtain ⟨e, he, rfl⟩ := h
        exact hopes_accepted_fine trivial (forall_mem_singleton.2 (hk.fine_bool he))
    | addrOf m k =>
      obtain ⟨e, t, inner, -, he, hplace, rfl⟩ := h
      -- A literal is no place.
      have hranged : e.Ranged := by
        cases e with
        | intLit m n => cases hplace
        | _ => trivial
      exact hopes_accepted_fine trivial (forall_mem_singleton.2 ⟨hranged, (ih k mem_cons_self _ _ he).1⟩)
    | deref m k =>
      obtain ⟨e, t, he, -, rfl⟩ := h
      refine hopes_accepted_fine trivial (forall_mem_singleton.2 ?_)
      refine (ih k mem_cons_self _ _ he).fine fun bits signed h => ?_
      obtain ⟨u, -, hu⟩ := Option.map_eq_some_iff.1 h
      cases hu
    | member m k x =>
      rcases h with ⟨enum, n, rfl⟩ | ⟨e, t, base, s, layout, fld, he, hbase, -, -, rfl⟩
      · exact hopes_leaf trivial rfl
      · have he := (ih k mem_cons_self).fine_none he
        refine hopes_accepted_fine trivial (forall_mem_singleton.2 ?_)
        rcases hbase with ⟨-, rfl⟩ | ⟨-, rfl⟩
        · exact he
        · exact ⟨trivial, rangedInside_iff.2
            ⟨forall_mem_singleton.2 (Or.inl he.1), forall_mem_singleton.2 he.2⟩⟩
    | index m k i =>
      obtain ⟨b, t, i', it, u, hb, hi, -, -, rfl⟩ := h
      refine hopes_accepted_fine trivial (forall_mem_cons.2 ⟨(ih k mem_cons_self).fine_none hb, ?_⟩)
      refine forall_mem_singleton.2 ((ih i (by simp [children]) _ _ hi).fine ?_)
      rintro bits signed ⟨⟩
      exact Nat.le_refl 64
    | structLit m fields =>
      obtain ⟨s, layout, es, -, -, hes, rfl⟩ := h
      refine hopes_accepted_fine trivial fun e he => ?_
      obtain ⟨g, hg, rfl⟩ := mem_map.1 he
      obtain ⟨fld, -, -, k, hk, hcoerced⟩ := forall₂_left hes hg
      exact (ih k hk).fine_coerced hcoerced
    | arrayLit m ks =>
      have hfine : ∀ {t ks' es}, ks' ⊆ ks → Forall₂ (Coerced c f t) es ks' → ∀ e ∈ es, Fine c sources e := by
        intro t ks' es hks hes e he
        obtain ⟨k, hk, h⟩ := forall₂_left hes he
        exact (ih k (hks hk)).fine_coerced h
      rcases h with ⟨length, elem, rfl, rfl | ⟨-, es, hes, rfl⟩⟩ | ⟨k, rest, e, elem, es, rfl, he, hes, rfl⟩
      · exact hopes_leaf trivial rfl
      · exact hopes_accepted_fine trivial (hfine (Subset.refl _) hes)
      · exact hopes_accepted_fine trivial
          (forall_mem_cons.2 ⟨(ih k mem_cons_self).fine_none he, hfine (subset_cons_self _ _) hes⟩)
    | cast m type k =>
      -- The operand of a conversion may be out of range.
      obtain ⟨target, e, source, -, he, -, rfl⟩ := h
      have he := ih k mem_cons_self _ _ he
      exact hopes_accepted trivial (forall_mem_singleton.2 ⟨he.admits rfl, he.1⟩)
    | call m callee args =>
      obtain ⟨m', x, sig, es, -, -, -, -, hes, rfl⟩ := h
      refine hopes_accepted_fine trivial fun e he => ?_
      obtain ⟨a, ha, h⟩ := forall₂_left hes he
      exact (ih a.1 (of_mem_zip ha).1).fine_coerced h
    | builtin m b args =>
      obtain ⟨rs, es, -, hes, rfl⟩ := h
      refine hopes_accepted_fine trivial fun e he => ?_
      obtain ⟨⟨k, role⟩, ha, t, h, -⟩ := forall₂_left hes he
      refine (ih k (of_mem_zip ha).1 _ _ h).fine fun bits signed h => ?_
      cases role <;> cases h
      exact Nat.le_refl 64

end Check

end Sigil
