import Sigil.Proofs.Emission.Labels
import Sigil.Proofs.Machine.Expressions

/-!
# Generated code computes what expressions mean

For every well-typed expression that is made of literals, locals, operators and conversions on integers,
characters, truth values and enums there is code, and the code computes the value of the expression
(`Code.compiles_lower`). Its jumps are those of `&&` and `||`, and none of their labels stands twice.
-/

namespace Sigil

open Attempt Expr List Machine Meaning Typing

variable {f : Frame}

/-! ## Simple expressions -/

/-- The forms that are computed in registers. -/
def Expr.isSimple : Expr → Bool
  | .intLit .. | .boolLit .. | .charLit .. | .enumLit .. | .ident .. | .unary .. | .binary ..
  | .cast .. => true
  | _ => false

/-- Whether an expression has only such forms and simple types in it. -/
def Expr.isScalar (e : Expr) : Bool :=
  e.nodes.all fun n => n.isSimple && n.ty.all Ty.isScalar

/-- The bytes of stack that the code of an expression needs. -/
def Expr.room : Expr → Nat
  | .unary _ _ e | .cast _ _ e => e.room
  | .binary _ .and l r | .binary _ .or l r => max l.room r.room
  | .binary _ _ l r => max l.room (8 + r.room)
  | _ => 0

/-- Whether every name in an expression has a slot of its type. -/
def Frame.binds (f : Frame) (e : Expr) : Bool :=
  e.nodes.all fun n =>
    match n with
    | .ident m x =>
      match f.get? x with
      | some slot => m.ty == some slot.ty
      | none => false
    | _ => true

/-- Answers by the values of locals. -/
def Meaning.locals (σ : String → Int) : Oracle := fun _ q _ =>
  match q with
  | .value (.name x) _ => some (σ x)
  | _ => none

theorem Expr.isScalar_iff {e : Expr} :
    e.isScalar = true ↔ (e.isSimple = true ∧ ∀ t, e.ty = some t → t.isScalar = true) ∧
      ∀ c ∈ e.children, c.isScalar = true := by
  have h : ∀ e : Expr, e.isScalar = true ↔
      ∀ n ∈ e.nodes, n.isSimple = true ∧ ∀ t, n.ty = some t → t.isScalar = true := by
    intro e
    simp [isScalar, Option.all_eq_true]
  rw [h, forall_nodes]
  simp [h]

theorem Frame.binds_child {e c : Expr} (h : f.binds e = true) (hc : c ∈ e.children) :
    f.binds c = true := by
  unfold Frame.binds at h ⊢
  rw [all_eq_true] at h ⊢
  rw [forall_nodes] at h
  exact h.2 c hc

theorem Machine.State.Holds.child {s : State} {σ : String → Int} {e c : Expr}
    (h : s.Holds f σ e) (hc : c ∈ e.children) : s.Holds f σ c := by
  intro m x hx
  refine h m x ?_
  rw [nodes_eq]
  exact mem_cons_of_mem _ (mem_flatMap.2 ⟨c, hc, hx⟩)

/-! ## Code for each form -/

namespace Code

variable {op : BinOp}

theorem value_computed (site : Site) {m : Mark} {t : Ty} (hm : m.ty = some t)
    (compute : Ty → Emit Block) : (computed site m compute).value = compute t := by
  unfold computed
  rw [hm]
  rfl

/-- The code of an expression that is generated in `s`: it leaves the frame alone and computes the value of the
expression. -/
structure Correct (e : Expr) (s : Emission) (code : Block) (s' : Emission) : Prop where
  frame : s'.frame = s.frame
  computes : ∀ σ t, e.ty = some t →
    Block.Computes code t (eval (locals σ) e) e.room (fun m => m.Holds s.frame σ e)

/-- Wherever all names have slots, there is code for the expression, and it is correct. -/
def Compiles (site : Site) (e : Expr) : Prop :=
  ∀ s : Emission, s.frame.binds e = true →
    ∃ code s', (lower site e).value s = (.ok code, s') ∧ Correct e s code s'

variable {site : Site} {m : Mark} {e l r : Expr} {t u : Ty}

theorem compiles_constant {n v : Int} (ht : e.ty = some t)
    (hlower : lower site e = constant site e.mark n) (hv : t.Represents (BitVec.ofInt 64 n) v)
    (heval : ∀ σ, eval (locals σ) e = pure v) : Compiles site e := by
  intro s _
  refine ⟨[.const n .rax], s, ?_, rfl, fun σ t' ht' => ?_⟩
  · rw [hlower, constant, value_computed site ht]
    rfl
  · obtain rfl : t = t' := Option.some.inj (ht.symm.trans ht')
    refine Block.computes_of_gives (v := v) (fun m _ => ⟨_, gives_const n m, hv⟩) fun h h' r hr => ?_
    rw [heval] at hr
    exact (Except.ok.inj (congrArg Prod.fst hr)).symm

/-- A form that computes its part and then goes on without jumps. -/
theorem Compiles.andThen {c : Expr} (hc : Compiles site c) (tail : Block) (k : Int → Run Int)
    (hmem : c ∈ e.children) (hct : c.ty = some u) (ht : e.ty = some t) (hroom : e.room = c.room)
    (hlower : (lower site e).value = do return (← (lower site c).value) ++ tail)
    (heval : ∀ σ, eval (locals σ) e = eval (locals σ) c >>= k)
    (htail : ∀ s a h h' r, u.Represents (s.regs .rax) a → k a h = (.ok r, h') →
      ∃ w, Block.Gives tail s w ∧ t.Represents w r) : Compiles site e := by
  intro s hs
  obtain ⟨code, s', hcode, hcorrect⟩ := hc s (Frame.binds_child hs hmem)
  refine ⟨code ++ tail, s', ?_, hcorrect.frame, fun σ t' ht' => ?_⟩
  · rw [hlower, bind_of_ok hcode]
    rfl
  · obtain rfl : t = t' := Option.some.inj (ht.symm.trans ht')
    rw [heval, hroom]
    refine Block.Computes.andThen ?_ htail
    exact (hcorrect.computes σ u hct).mono (fun m hm => hm.child hmem) (le_refl _)

/-- A name is read from its slot. -/
theorem compiles_ident {x : String} (ht : m.ty = some t) (hscalar : t.isScalar = true) :
    Compiles site (.ident m x) := by
  intro s hs
  obtain ⟨slot, hslot, rfl⟩ : ∃ slot, s.frame.get? x = some slot ∧ slot.ty = t := by
    simp only [Frame.binds, nodes, all_cons, all_nil, Bool.and_true] at hs
    split at hs
    · next slot hslot => exact ⟨slot, hslot, Option.some.inj ((eq_of_beq hs).symm.trans ht)⟩
    · cases hs
  have hplain : slot.ty.isAggregate = false := by
    cases hty : slot.ty <;> simp [hty, Ty.isScalar, Ty.isAggregate] at hscalar ⊢
  refine ⟨[Line.lea (Code.slot slot.offset) .rax] ++ load slot.ty, s, ?_, rfl, fun σ t' ht' => ?_⟩
  · simp [lower, localName, placed, typed, ht, hslot, hplain, bind_apply, pure_bind]
  · obtain rfl : slot.ty = t' := Option.some.inj (ht.symm.trans ht')
    refine Block.computes_of_gives (v := slot.ty.wrap (σ x)) (fun k hk => ?_) fun h h' v hv => ?_
    · have hstores := hk m x mem_cons_self slot hslot
      obtain ⟨w, hload, hw⟩ := exists_gives_load hscalar
        (s := k.set .rax (k.address .rbp slot.offset)) hstores.value hstores.range
      rw [hstores.range]
      exact ⟨w, .after rfl (State.keeps_of_regs rfl rfl rfl) hload, hw⟩
    · rw [← show bring m.ty (σ x) = slot.ty.wrap (σ x) by rw [ht]; rfl]
      exact (Except.ok.inj (congrArg Prod.fst hv)).symm

/-- Both operands are compiled one after the other, and the code of each computes its value wherever the
names in the whole have their slots. -/
theorem Compiles.operands (hl : Compiles site l) (hr : Compiles site r)
    (hlt : l.ty = some t) (hrt : r.ty = some t) {s : Emission}
    (hs : s.frame.binds (.binary m op l r) = true) :
    ∃ code s1 code' s2, (lower site l).value s = (.ok code, s1) ∧
      (lower site r).value s1 = (.ok code', s2) ∧ s2.frame = s.frame ∧
      ∀ σ, Block.Computes code t (eval (locals σ) l) l.room
          (fun k => k.Holds s.frame σ (.binary m op l r)) ∧
        Block.Computes code' t (eval (locals σ) r) r.room
          (fun k => k.Holds s.frame σ (.binary m op l r)) := by
  obtain ⟨code, s1, hcode, hcorrect⟩ := hl s (Frame.binds_child hs left_mem_children)
  have hbinds : s1.frame.binds r = true := by
    rw [hcorrect.frame]
    exact Frame.binds_child hs right_mem_children
  obtain ⟨code', s2, hcode', hcorrect'⟩ := hr s1 hbinds
  refine ⟨code, s1, code', s2, hcode, hcode', hcorrect'.frame.trans hcorrect.frame, fun σ => ⟨?_, ?_⟩⟩
  · refine (hcorrect.computes σ t hlt).mono (fun k hk => ?_) (le_refl _)
    exact hk.child left_mem_children
  · refine (hcorrect'.computes σ t hrt).mono (fun k hk => ?_) (le_refl _)
    rw [hcorrect.frame]
    exact hk.child right_mem_children

theorem ty_lower (site : Site) (e : Expr) : (lower site e).ty = e.ty := by
  cases e with
  | unary _ op _ => cases op <;> rfl
  | binary _ op _ _ => cases op <;> rfl
  | _ => rfl

/-- Arithmetic and comparisons compute both operands, the left one first, and the left one waits on the
stack. -/
theorem lower_binary (hop : op ≠ .and ∧ op ≠ .or) (site : Site) (m : Mark) (l r : Expr) :
    lower site (.binary m op l r) = operation site m op (lower site l) (lower site r) ∧
      (Expr.binary m op l r).room = max l.room (8 + r.room) := by
  cases op with
  | and => exact absurd rfl hop.1
  | or => exact absurd rfl hop.2
  | _ => exact ⟨rfl, rfl⟩

/-- Both operands are computed and combined, and the result is brought back to its width. -/
theorem compiles_operation (hl : Compiles site l) (hr : Compiles site r)
    (hlt : l.ty = some t) (hrt : r.ty = some t) (hm : m.ty = some u) (hu : u.isScalar = true)
    (hop : op.isArith = true ∧ u ≠ .bool ∨ op.isCompare = true ∧ u = .bool) :
    Compiles site (.binary m op l r) := by
  have hlogic : op ≠ .and ∧ op ≠ .or :=
    hop.elim (fun h => not_logic_of_isArith h.1) fun h => not_logic_of_isCompare h.1
  obtain ⟨hlower, hroom⟩ := lower_binary hlogic site m l r
  intro s hs
  obtain ⟨code, s1, code', s2, hcode, hcode', hframe, hcomputes⟩ :=
    hl.operands hr hlt hrt hs
  refine ⟨code ++ [Line.push .rax] ++ code' ++ [Line.copy .rax .rcx, .pop .rax] ++
    (operate t.isSigned op ++ normalize u), s2, ?_, hframe, fun σ u' hu' => ?_⟩
  · rw [hlower, operation, value_computed site hm, ty_lower, hlt]
    change ((lower site l).value >>= _) s = _
    rw [bind_of_ok hcode, bind_of_ok hcode', ← append_assoc]
    rfl
  · obtain rfl : u = u' := Option.some.inj (hm.symm.trans hu')
    rw [eval_binary hlogic, hroom]
    refine Block.Computes.operands (fun k k' hwithin hk => hwithin.holds hk) (hcomputes σ).1
      (hcomputes σ).2 fun k a b h h' v ha hb hv => ?_
    rw [hm] at hv
    obtain ⟨x, hgives, rfl, hx⟩ := gives_operate ha hb hop hv
    exact hgives.normalize hu hx

/-- What `&&` and `||` have in common: the left operand decides if the flags that it sets meet a
condition, and is then the result. -/
structure Lazy (op : BinOp) (skip : Condition) (k : Run Int → Int → Run Int) : Prop where
  lower : ∀ site m l r, lower site (.binary m op l r) =
    logic site m skip (Code.lower site l) (Code.lower site r)
  eval : ∀ o m l r, eval o (.binary m op l r) = Meaning.eval o l >>= k (Meaning.eval o r)
  room : ∀ m l r, (Expr.binary m op l r).room = max l.room r.room
  decides : ∀ y w a, Ty.bool.Represents w a →
    k y a = if skip.holds (.of (w &&& w) false false) then pure a else y

theorem exists_lazy (hop : op = .and ∨ op = .or) : ∃ skip k, Lazy op skip k := by
  rcases hop with rfl | rfl
  · refine ⟨.e, fun y a => if a = 0 then pure 0 else y, fun _ _ _ _ => rfl, fun _ _ _ _ => rfl,
      fun _ _ _ => rfl, fun y w a hw => ?_⟩
    rw [hw.word]
    rcases hw.truth rfl with rfl | rfl <;> rfl
  · refine ⟨.ne, fun y a => if a = 0 then y else pure 1, fun _ _ _ _ => rfl, fun _ _ _ _ => rfl,
      fun _ _ _ => rfl, fun y w a hw => ?_⟩
    rw [hw.word]
    rcases hw.truth rfl with rfl | rfl <;> rfl

/-- The right operand is computed only if the left one does not decide. -/
theorem compiles_logic (hop : op = .and ∨ op = .or) (hl : Compiles site l)
    (hr : Compiles site r) (hlt : l.ty = some .bool) (hrt : r.ty = some .bool)
    (hm : m.ty = some .bool) : Compiles site (.binary m op l r) := by
  obtain ⟨skip, k, hlazy⟩ := exists_lazy hop
  intro s hs
  -- The label is numbered before those of the operands.
  obtain ⟨code, s1, code', s2, hcode, hcode', hframe, hcomputes⟩ :=
    hl.operands hr hlt hrt (s := s.number 1) hs
  have hlabel : site.label "logic" s = (.ok (site.numbered "logic" (s.labels + 1)), s.number 1) := rfl
  refine ⟨code ++ [Line.test .rax, .jumpIf skip (site.numbered "logic" (s.labels + 1))] ++ code' ++
    [Line.label (site.numbered "logic" (s.labels + 1))], s2, ?_, hframe, fun σ t ht => ?_⟩
  · rw [hlazy.lower, logic, value_computed site hm, bind_of_ok hlabel, bind_of_ok hcode,
      bind_of_ok hcode']
    rfl
  · obtain rfl : Ty.bool = t := Option.some.inj (hm.symm.trans ht)
    rw [hlazy.eval, hlazy.room]
    exact Block.Computes.shortCircuit (fun k k' hwithin hk => hwithin.holds hk) (hcomputes σ).1
      (hcomputes σ).2 fun w a hw => hlazy.decides _ w a hw

end Code

/-! ## All simple expressions -/

theorem Ty.eq_of_matches {t u : Ty} (ht : t.isScalar = true) (h : t.Matches u) : u = t := by
  have hptr : t.isPtr = false ∧ t ≠ .str ∧ ∀ u, t ≠ .ptr u := by
    cases t <;> simp [isScalar, isPtr] at ht ⊢
  rcases h with rfl | ⟨h, -⟩ | ⟨rfl, -⟩ | ⟨rfl, -⟩
  · rfl
  · have : t = u := by simpa [assignable_iff, hptr] using h
    exact this.symm
  · exact absurd rfl hptr.2.1
  · exact absurd rfl (hptr.2.2 .void)

theorem Ty.eq_bool_of_castable {t : Ty} (h : t.castable .bool = true) : t = .bool := by
  unfold castable at h
  rcases Bool.or_eq_true _ _ ▸ h with h | h
  · exact eq_of_beq h
  · split at h <;> simp_all [isAddress]

namespace Code

/-- A literal that is given by its word. -/
theorem compiles_word {n : Word} (ht : e.ty = some t) (hb : t ≠ .bool)
    (hlower : lower site e = constant site e.mark n.toInt)
    (heval : ∀ σ, eval (locals σ) e = pure (readWord e.ty n)) : Compiles site e := by
  refine compiles_constant ht hlower ⟨?_, fun h => absurd h hb⟩ heval
  rw [BitVec.ofInt_toInt, ht]

/-- The operand is computed and negated. -/
theorem compiles_neg {bits : Nat} {signed : Bool} (he : Compiles site e)
    (het : e.ty = some (.int bits signed)) (hm : m.ty = some (.int bits signed))
    (hscalar : (Ty.int bits signed).isScalar = true) : Compiles site (.unary m .neg e) := by
  refine he.andThen ([Line.instr (.unary .neg .rax)] ++ normalize (.int bits signed))
    (fun v => pure (bring m.ty (-v))) mem_cons_self het hm rfl ?_ (fun σ => rfl) ?_
  · rw [lower, negation, value_computed site hm]
    simp only [append_assoc]
  · intro s a h h' r ha hr
    obtain rfl : (Ty.int bits signed).wrap (-a) = r := by
      rw [hm] at hr
      exact Except.ok.inj (congrArg Prod.fst hr)
    exact (gives_neg ha).normalize hscalar (by simp)

theorem compiles_not (he : Compiles site e) (het : e.ty = some .bool) (hm : m.ty = some .bool) :
    Compiles site (.unary m .not e) := by
  refine he.andThen [.xor (.imm 1) .rax] (fun v => pure (truth (decide (v = 0))))
    mem_cons_self het hm rfl ?_ (fun σ => rfl) ?_
  · rw [lower, opposite, value_computed site hm]
  · intro s a h h' r ha hr
    obtain rfl : truth (decide (a = 0)) = r := Except.ok.inj (congrArg Prod.fst hr)
    exact exists_gives_opposite ha

/-- The value is brought to the width of the type. -/
theorem compiles_cast {type : TypeExpr} (he : Compiles site e) (het : e.ty = some u)
    (hm : m.ty = some t) (hscalar : t.isScalar = true) (hc : u.castable t = true) :
    Compiles site (.cast m type e) := by
  refine he.andThen (normalize t) (fun v => pure (bring m.ty v)) mem_cons_self het
    hm rfl ?_ (fun σ => rfl) ?_
  · rw [lower, conversion, value_computed site hm]
  · intro s a h h' r ha hr
    obtain rfl : t.wrap a = r := by
      rw [hm] at hr
      exact Except.ok.inj (congrArg Prod.fst hr)
    -- The word is there already, and only its width may change.
    have hgives : Block.Gives [] s (BitVec.ofInt 64 a) := ⟨s, rfl, .refl s, ha.word⟩
    refine hgives.normalize hscalar fun ht => ha.truth ?_
    rw [ht] at hc
    exact Ty.eq_bool_of_castable hc

/-- There is code for every well-typed simple expression, and the code computes its value. -/
theorem compiles_lower {T : Symbols} {Γ : Env} (site : Site) {e : Expr} (he : e.Typed T Γ)
    (hs : e.isScalar = true) : Compiles site e := by
  induction e using by_children with
  | h e ih =>
    -- By the parts of the expression; the rule of the node gives the types of its operands.
    obtain ⟨⟨hsimple, hscalar⟩, hchildren⟩ := isScalar_iff.1 hs
    have hcompiles : ∀ c ∈ e.children, Compiles site c := fun c hc =>
      ih c hc (he.child hc) (hchildren c hc)
    cases he.node.rule with
    | int h => exact compiles_word h (by simp) rfl fun σ => rfl
    | code h hn => exact compiles_word h (by simp) rfl fun σ => rfl
    | @bool m b h =>
      refine compiles_constant h rfl ⟨?_, fun _ => ?_⟩ fun σ => rfl
      · cases b <;> rfl
      · cases b <;> simp [truth]
    | @char m c h =>
      refine compiles_constant h rfl ⟨?_, by simp⟩ fun σ => rfl
      have hlt : c.toNat < 2 ^ 64 := lt_trans c.toNat_lt (by decide)
      rw [readWord_unsigned rfl, BitVec.ofInt_natCast, BitVec.toNat_ofNat, Nat.mod_eq_of_lt hlt]
    | @enumLit m x n h =>
      have hty : (enumLit m x n).ty = some (.enum x) := h
      refine compiles_word hty (by simp) rfl fun σ => ?_
      rw [hty, readWord_unsigned rfl]
      rfl
    | ident hx h => exact compiles_ident h (hscalar _ h)
    | neg het h => exact compiles_neg (hcompiles _ mem_cons_self) het h (hscalar _ h)
    | not het h => exact compiles_not (hcompiles _ mem_cons_self) het h
    | cast hw het hc h =>
      exact compiles_cast (hcompiles _ mem_cons_self) het h (hscalar _ h) hc
    | @arith m op l r t hop hord hl hr h =>
      have hnot : t ≠ .bool := by
        rintro rfl
        cases hord
      exact compiles_operation (hcompiles l left_mem_children)
        (hcompiles r right_mem_children) hl hr h (hscalar t h)
        (Or.inl ⟨hop, hnot⟩)
    | @compare m op l r t u hop hl hr hm hc ho h =>
      -- Operands of simple types are compared only with those of the same type.
      have hlscalar : t.isScalar = true :=
        (isScalar_iff.1 (hchildren l left_mem_children)).1.2 t hl
      rw [Ty.eq_of_matches hlscalar hm] at hr
      exact compiles_operation (hcompiles l left_mem_children)
        (hcompiles r right_mem_children) hl hr h rfl (Or.inr ⟨hop, rfl⟩)
    | @logic m op l r hop hl hr h =>
      exact compiles_logic hop (hcompiles l left_mem_children)
        (hcompiles r right_mem_children) hl hr h
    | _ => cases hsimple

end Code

/-! ## Values that are worked out -/

namespace Meaning

theorem ends_calculate (ty : Option Ty) (op : BinOp) (a b : Int) (h : History) :
    (calculate ty op a b).Ends h (fun _ _ => True) fun x _ => x = .fault := by
  have hquotient : ∀ f, (quotient ty f a b).Ends h (fun _ _ => True) fun x _ => x = .fault := by
    intro f
    unfold quotient
    split
    · exact ends_throw rfl
    · exact ends_pure trivial
  cases op with
  | div => exact hquotient Int.tdiv
  | rem => exact hquotient Int.tmod
  | _ => exact ends_pure trivial

/-- The value of a simple expression is worked out unless a division faults. -/
theorem ends_eval (σ : String → Int) {e : Expr} (hs : e.isScalar = true) (h : History) :
    (eval (locals σ) e).Ends h (fun _ _ => True) fun x _ => x = .fault := by
  induction e using by_children generalizing h with
  | h e ih =>
    obtain ⟨⟨hsimple, -⟩, hchildren⟩ := isScalar_iff.1 hs
    -- A part may fault, and then so does the whole.
    have hpart : ∀ c ∈ e.children, ∀ {k : Int → Run Int} (h : History),
        (∀ a h, (k a).Ends h (fun _ _ => True) fun x _ => x = .fault) →
          (eval (locals σ) c >>= k).Ends h (fun _ _ => True) fun x _ => x = .fault := by
      intro c hc k h hk
      exact ends_bind ((ih c hc (hchildren c hc) h).mono (fun a h' _ => hk a h') fun _ _ hx => hx)
    cases e with
    | intLit | boolLit | charLit | enumLit => exact ends_pure trivial
    | ident => exact trivial
    | unary m op c =>
      refine hpart c mem_cons_self h fun a h' => ?_
      cases op <;> exact ends_pure trivial
    | cast m type c => exact hpart c mem_cons_self h fun a h' => ends_pure trivial
    | binary m op l r =>
      refine hpart l left_mem_children h fun a h' => ?_
      have hr := ih r right_mem_children (hchildren r right_mem_children) h'
      have hboth := hpart r right_mem_children h' fun b h'' => ends_calculate m.ty op a b h''
      cases op with
      | and =>
        dsimp only
        split
        · exact ends_pure trivial
        · exact hr
      | or =>
        dsimp only
        split
        · exact hr
        · exact ends_pure trivial
      | _ => exact hboth
    | _ => cases hsimple

end Meaning

/-! ## Accepted programs -/

namespace Compile

/-- A program that divides, compares and decides on a signed 16-bit local. -/
def halving : String :=
  "const main := fn () int! \x7b have x: short? = -7; return @cast<int!>(x < x / 2 && !(x == 3)); \x7d;"

/-- A frame with that local. -/
def halvingFrame : Frame := .ofArgs [("x", .int 16 true, 2)] false

/-- A state with minus seven in its slot. -/
def halvingState : State where
  regs
    | .rbp => 0x1100
    | .rsp => 0x1000
    | _ => 0
  flags := none
  mem a := if a = 0x1110 then 0xF9 else if a = 0x1111 then 0xFF else 0

theorem holds_halvingState (e : Expr) : halvingState.Holds halvingFrame (fun _ => -7) e := by
  intro m x _ slot hslot
  have hname : x = "x" := by
    by_contra hx
    simp [halvingFrame, Frame.ofArgs, Frame.argSlots, Frame.get?, Frame.find?, Assoc.get?,
      Assoc.get?_put_of_ne (Ne.symm hx)] at hslot
  subst hname
  have hx : halvingFrame.get? "x" = some ⟨.int 16 true, true, 16, none⟩ := by decide
  obtain rfl := Option.some.inj (hx.symm.trans hslot)
  exact ⟨by decide, by decide, by decide, by decide⟩

/-- An expression of an accepted program, folded any number of times, that is made of literals, locals,
operators and conversions on simple types. Wherever its names have slots there is code for it. Run on a
state in which those slots hold values in the ranges of their types, and with room on the stack, the code
ends behind its last line unless a division faults. Then `rax` holds the value of the expression, the
stack pointers are as they were, and nothing from the top of the stack on has changed. -/
theorem computes_of_check {p : Program} {c : Checked} (h : check p = .ok c) {d : Def}
    (hd : d ∈ c.program) {f : Func} (hf : d.body = .func f) {n : Nat} {e : Expr}
    (he : e ∈ Stmt.nodesOfAll (Fold.pass^[n] f.body)) (hs : e.isScalar = true) (site : Code.Site)
    {s : Code.Emission} (hbinds : s.frame.binds e = true) :
    ∃ t code s', e.ty = some t ∧ (Code.lower site e).value s = (.ok code, s') ∧
      ∀ (σ : String → Int) (m : State), m.Holds s.frame σ e → e.room ≤ (m.regs .rsp).toNat →
        (eval (locals σ) e []).1 ≠ .error .fault →
        ∃ v m', (eval (locals σ) e []).1 = .ok v ∧ Steps code ⟨0, m⟩ ⟨code.length, m'⟩ ∧
          step code ⟨code.length, m'⟩ = none ∧ readWord (some t) (m'.regs .rax) = v ∧
          m'.regs .rbp = m.regs .rbp ∧ m'.regs .rsp = m.regs .rsp ∧
          ∀ a : Word, (m.regs .rsp).toNat ≤ a.toNat → m'.mem a = m.mem a := by
  obtain ⟨sig, -, hbody⟩ := wellTyped_of_check h hd hf
  obtain ⟨Γ, htyped⟩ := (Fold.allTyped_iterate hbody n).exists_typed he
  obtain ⟨t, ht, -⟩ := htyped.node.ty
  obtain ⟨code, s', hcode, hcorrect⟩ := Code.compiles_lower site htyped hs s hbinds
  have hfresh := ((Code.composes_fresh site).laws.gives_lower (Code.serve_true e.nodes)).value.of_ok trivial hcode
  refine ⟨t, code, s', ht, hcode, fun σ m hm hroom hfault => ?_⟩
  -- The value is worked out, since nothing but a fault could prevent it.
  have hends := ends_eval σ hs []
  unfold Ends at hends
  rcases hvalue : eval (locals σ) e [] with ⟨r, h'⟩
  rw [hvalue] at hends hfault
  cases r with
  | error x => exact absurd (congrArg Except.error hends) hfault
  | ok v =>
    obtain ⟨m', hsteps, hkeeps, hrep⟩ :=
      hcorrect.computes σ t ht (codeAt_self code) (Code.Fresh.nodup hfresh) hm hroom hvalue
    rw [Nat.zero_add] at hsteps
    exact ⟨v, m', rfl, hsteps, step_length code m', hrep.read, hkeeps.rbp, hkeeps.rsp, hkeeps.mem⟩

theorem computes_of_check_halving :
    ∃ p c d f e code s' m', parse halving = .ok p ∧ check p = .ok c ∧ d ∈ c.program ∧
      d.body = .func f ∧ e ∈ Stmt.nodesOfAll f.body ∧ e.room = 16 ∧
      (Code.lower ⟨c.symbols, "main", .uint⟩ e).value ⟨halvingFrame, 0, .empty⟩ = (.ok code, s') ∧
      Steps code ⟨0, halvingState⟩ ⟨code.length, m'⟩ ∧ (m'.regs .rax).toNat = 1 ∧
      m'.regs .rsp = 0x1000 := by
  obtain ⟨p, c, d, f, hp, hc, hd, hf, htest⟩ := exists_of_testSource halving
    (fun _ f => (Stmt.nodesOfAll f.body).any fun e =>
      e.isScalar && halvingFrame.binds e && e.room == 16 && e.ty == some .uint &&
        match (eval (locals fun _ => -7) e []).1 with
        | .ok v => v == 1
        | .error _ => false) (by decide +kernel)
  obtain ⟨e, he, htest⟩ := any_eq_true.1 htest
  simp only [Bool.and_eq_true, beq_iff_eq] at htest
  obtain ⟨⟨⟨⟨hs, hbinds⟩, hroom⟩, hty⟩, hvalue⟩ := htest
  obtain ⟨t, code, s', ht, hcode, hrun⟩ := computes_of_check hc hd hf (n := 0) he hs
    ⟨c.symbols, "main", .uint⟩ (s := ⟨halvingFrame, 0, .empty⟩) hbinds
  split at hvalue
  · next v hv =>
    obtain ⟨v', m', hv', hsteps, -, hread, -, hrsp, -⟩ :=
      hrun _ halvingState (holds_halvingState e) (by rw [hroom]; decide) (by rw [hv]; exact nofun)
    obtain rfl : v' = 1 := (Except.ok.inj (hv'.symm.trans hv)).trans (eq_of_beq hvalue)
    obtain rfl : t = .uint := Option.some.inj (ht.symm.trans hty)
    refine ⟨p, c, d, f, e, code, s', m', hp, hc, hd, hf, he, hroom, hcode, hsteps, ?_, hrsp⟩
    exact Int.ofNat_inj.1 ((readWord_unsigned rfl _).symm.trans hread)
  · exact nomatch hvalue

end Compile

end Sigil
