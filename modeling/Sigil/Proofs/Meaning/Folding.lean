import Sigil.Proofs.Meaning.Evaluator
import Sigil.Proofs.Typing.Program

/-!
# Folding keeps the meaning of programs

A run refines another if it does the same from every history on which the other does not fault
(`Meaning.Refines`). Every rewrite of a node refines it, so a pass over an expression does
(`Meaning.refines_expr`), and a pass over the body of a function does, pruned branches included
(`Meaning.refines_stmts`).
-/

namespace Sigil.Meaning

open Attempt Expr Fold Typing

variable {e : Expr} {op : BinOp} {T : Symbols} {Γ : Env} {t : Ty} {v c : Int} {g : Expr → Expr} {m : Mark}
  {looping : Bool}

/-! ## Refinement -/

variable {α β : Type}

/-- Wherever `x` does not fault, `y` ends like `x` with the same history. -/
def Refines (x y : Run α) : Prop :=
  ∀ h, (x h).1 ≠ .error .fault → y h = x h

namespace Refines

theorem refl (x : Run α) : Refines x x :=
  fun _ _ => rfl

theorem of_eq {x y : Run α} (h : x = y) : Refines x y :=
  h ▸ refl x

theorem trans {x y z : Run α} (hxy : Refines x y) (hyz : Refines y z) : Refines x z := by
  intro h hx
  have hy : y h = x h := hxy h hx
  rw [hyz h (hy ▸ hx), hy]

/-- Parts that refine make a whole that refines, where the second part may rely on what is known about
the value of the first. -/
theorem bind_of_ends {x x' : Run α} {k k' : α → Run β} {P : α → Prop} (hx : Refines x x')
    (hP : ∀ h, x.Ends h (fun a _ => P a) fun _ _ => True)
    (hk : ∀ a, P a → Refines (k a) (k' a)) : Refines (x >>= k) (x' >>= k') := by
  intro h hfault
  have hends := hP h
  rcases hr : x h with ⟨r, h'⟩
  cases r with
  | ok a =>
    have hx' : x' h = (.ok a, h') := (hx h (by simp [hr])).trans hr
    rw [bind_of_ok hr] at hfault
    rw [bind_of_ok hr, bind_of_ok hx']
    exact hk a (hends.of_ok hr) h' hfault
  | error e =>
    -- The first part ends the whole, so it does not fault either.
    rw [bind_of_error hr] at hfault
    have hx' : x' h = (.error e, h') := (hx h (by simpa [hr] using hfault)).trans hr
    rw [bind_of_error hr, bind_of_error hx']

theorem bind {x x' : Run α} {k k' : α → Run β} (hx : Refines x x')
    (hk : ∀ a, Refines (k a) (k' a)) : Refines (x >>= k) (x' >>= k') := by
  refine bind_of_ends (P := fun _ => True) hx (fun h => ?_) fun a _ => hk a
  unfold Ends
  split <;> trivial

end Refines

/-! ## Literals and marks -/

variable {o : Oracle}

/-- A literal has its value. -/
theorem eval_of_value? (h : e.value? = some v) : eval o e = pure v := by
  cases e with
  | intLit m n =>
    simp only [value?] at h
    split at h <;> cases h
    rfl
  | charLit m c =>
    cases h
    rfl
  | enumLit m x n =>
    cases h
    rfl
  | _ => cases h

/-- The meaning of an expression does not depend on its place. -/
theorem sense_withMark (hm : m.ty = e.ty) :
    sense o (e.withMark m) = sense o e := by
  cases e <;>
    simp only [withMark, sense, asked, unary, binary, cast, address, form, hm, ty, mark]
  case call m' f args => cases f <;> rfl

/-- The literal for an integer has the value that the integer stands for. -/
theorem eval_ofValue (hm : m.ty = some t) (ht : t.isOrdered = true) (v : Int) :
    eval o (.ofValue m v t) = pure (t.wrap v) :=
  eval_of_value? (value?_ofValue hm ht v)

theorem eval_of_castValue? (h : castValue? t e = some v) :
    eval o e = pure v := by
  cases t with
  | int bits signed =>
    simp only [castValue?] at h
    split at h
    · cases h
      rfl
    · exact eval_of_value? h
  | char => exact eval_of_value? h
  | _ => exact nomatch h

/-! ## Values stay in range -/

/-- The result of a run, if it has one, is in the range of the type. -/
def Stays (t : Ty) (x : Run Int) : Prop :=
  ∀ h, x.Ends h (fun v _ => t.wrap v = v) fun _ _ => True

namespace Stays

variable {t : Ty} {ty : Option Ty}

theorem pure {v : Int} (hv : t.wrap v = v) : Stays t (pure v) :=
  fun _ => ends_pure hv

/-- What is brought into range is in range. -/
theorem bring (ht : ty = some t) (v : Int) : Stays t (Pure.pure (bring ty v)) := by
  subst ht
  exact pure (Ty.wrap_wrap t v)

theorem bind {x : Run α} {k : α → Run Int} (hk : ∀ a, Stays t (k a)) : Stays t (x >>= k) := by
  intro h
  refine ends_bind ?_
  unfold Ends
  split
  · next a h' _ => exact hk a h'
  · trivial

theorem quotient (ht : ty = some t) (f : Int → Int → Int) (a b : Int) :
    Stays t (quotient ty f a b) := by
  unfold Meaning.quotient
  split
  · exact fun _ => ends_throw trivial
  · exact bring ht _

/-- The result of an arithmetic operator is in range. -/
theorem calculate (ht : ty = some t) {op : BinOp} (hop : op.isArith = true) (a b : Int) :
    Stays t (calculate ty op a b) := by
  cases op with
  | add | sub | mul => exact bring ht _
  | div | rem => exact quotient ht _ a b
  | _ => exact nomatch hop

/-- What the oracle answers is brought into range. -/
theorem asked {m : Mark} (hm : m.ty = some t) (form : Form) (operands : Run (List Int)) :
    Stays t (asked o m form operands).value :=
  bind fun _ => bind fun v => bring hm v

end Stays

/-- The value of a well-typed expression that is no literal is in the range of its type. -/
theorem stays_eval (he : Rule T Γ e)
    (ht : e.ty = some t) (ho : t.isOrdered = true) (hv : e.value? = none) : Stays t (eval o e) := by
  cases he with
  | int h =>
    rw [value?] at hv
    simp [h] at hv
  | @code m n h hn =>
    cases ht.symm.trans h
    refine .pure ?_
    rw [h]
    simp only [readWord, Ty.isSigned, Bool.false_eq_true, if_false, Ty.wrap]
    omega
  | char | enumLit => cases hv
  | bool h | not _ h | logic _ _ _ h | compare _ _ _ _ _ _ h | str h | nil h | addrOf _ _ h
  | structLit _ _ h | arrayLit _ h =>
    cases ht.symm.trans h
    cases ho
  | ident | deref | call | member | index | builtin | zeroed => exact .asked ht _ _
  | @arith m op l r u hop =>
    refine .bind fun a => ?_
    cases op with
    | and | or | eq | ne | lt | le | gt | ge => cases hop
    | _ => exact .bind fun b => .calculate ht rfl a b
  | neg => exact .bind fun v => .bring ht _
  | cast => exact .bind fun v => .bring ht _

/-! ## Rewrites of a node -/

theorem eval_binary (hop : op ≠ .and ∧ op ≠ .or) (m : Mark) (l r : Expr) :
    eval o (.binary m op l r) =
      eval o l >>= fun a => eval o r >>= fun b => calculate m.ty op a b := by
  cases op with
  | and => exact absurd rfl hop.1
  | or => exact absurd rfl hop.2
  | _ => rfl

theorem not_logic_of_isArith (h : op.isArith = true) : op ≠ .and ∧ op ≠ .or := by
  cases op <;> simp [BinOp.isArith] at h ⊢

theorem not_logic_of_isCompare (h : op.isCompare = true) : op ≠ .and ∧ op ≠ .or := by
  cases op <;> simp [BinOp.isCompare] at h ⊢

/-- A comparison gives the truth value of the comparison. -/
theorem calculate_compare {ty : Option Ty} (h : op.isCompare = true) (a b : Int) :
    calculate ty op a b = pure (truth (Fold.compare op a b)) := by
  cases op with
  | eq => simp [calculate, Fold.compare, beq_eq_decide]
  | ne => simp [calculate, Fold.compare, bne, beq_eq_decide]
  | lt | le | gt | ge => rfl
  | _ => exact nomatch h

/-- Arithmetic that does not fault gives the exact result, brought into range. -/
theorem refines_calculate (h : op.isArith = true) (a b : Int) :
    Refines (calculate (some t) op a b) (pure (t.wrap (arith op a b))) := by
  have hquot : ∀ f : Int → Int → Int,
      Refines (quotient (some t) f a b) (pure (t.wrap (f a b))) := by
    intro f
    unfold quotient
    split
    · exact fun _ hfault => absurd rfl hfault
    · exact .refl _
  cases op with
  | add | sub | mul => exact .refl _
  | div | rem => exact hquot _
  | _ => exact nomatch h

/-- A neutral operand changes nothing about a value in range. -/
theorem calculate_neutral (h : isNeutral op c = true)
    (hv : t.wrap v = v) : calculate (some t) op v c = pure v := by
  cases op with
  | add | sub =>
    cases eq_of_beq h
    simp [calculate, bring, hv]
  | mul =>
    cases eq_of_beq h
    simp [calculate, bring, hv]
  | div =>
    cases eq_of_beq h
    simp [calculate, quotient, bring, hv]
  | _ => exact nomatch h

/-- Two operations by literals are one, since the result in between may be brought into range or not. -/
theorem calculate_combine (ht : t.isOrdered = true) {inner op' : BinOp} {c1 c2 : Int}
    (h : combine? inner op c1 c2 = some (op', c)) (x : Int) :
    (calculate (some t) inner x c1 >>= fun v => calculate (some t) op v c2) =
      calculate (some t) op' x (t.wrap c) := by
  have hwrap := fun v => Ty.wrap_modEq ht v
  have hpure : ∀ v w : Int, v ≡ w [ZMOD t.modulus] →
      (pure (bring (some t) v) : Run Int) = pure (bring (some t) w) :=
    fun v w hvw => congrArg pure ((Ty.wrap_eq_wrap ht).2 hvw)
  -- Both sides agree modulo the number of values, whichever of the five pairs of operators it is.
  unfold combine? at h
  split at h <;> cases h
  · refine hpure _ _ (((hwrap _).add_right c2).trans ?_)
    rw [Int.add_assoc]
    exact ((hwrap _).symm.add_left x)
  · refine hpure _ _ (((hwrap _).sub_right c2).trans ?_)
    rw [Int.add_sub_assoc]
    exact ((hwrap _).symm.add_left x)
  · refine hpure _ _ (((hwrap _).add_right c2).trans ?_)
    rw [show x - c1 + c2 = x - (c1 - c2) by omega]
    exact ((hwrap _).symm.sub_left x)
  · refine hpure _ _ (((hwrap _).sub_right c2).trans ?_)
    rw [show x - c1 - c2 = x - (c1 + c2) by omega]
    exact ((hwrap _).symm.sub_left x)
  · refine hpure _ _ (((hwrap _).mul_right c2).trans ?_)
    rw [Int.mul_assoc]
    exact ((hwrap _).symm.mul_left x)

theorem calculate_comm {ty : Option Ty} (h : op = .add ∨ op = .mul) (a b : Int) :
    calculate ty op a b = calculate ty op b a := by
  rcases h with rfl | rfl
  · simp [calculate, Int.add_comm]
  · simp [calculate, Int.mul_comm]

/-- A rewrite of a well-typed node refines it. -/
theorem refines_rewrites {e' : Expr} (h : Rewrites e e')
    (he : e.Typed T Γ) : Refines (eval o e) (eval o e') := by
  have hrule : Rule T Γ e := he.node.rule
  cases h with
  | @neg m t e v hm hv =>
    cases hrule with
    | neg _ h =>
      cases hm.symm.trans h
      refine .of_eq ?_
      rw [eval_ofValue h rfl]
      change (eval o e >>= fun v => pure (bring m.ty (-v))) = _
      rw [eval_of_value? hv, hm]
      rfl
  | @not m m' b => cases b <;> exact .refl _
  | @cast m t type e v hm hv =>
    refine .of_eq ?_
    rw [eval_ofValue hm (isOrdered_of_castValue? hv)]
    change (eval o e >>= fun v => pure (bring m.ty v)) = _
    rw [eval_of_castValue? hv, hm]
    rfl
  | decided hop ha =>
    subst ha
    rcases hop with rfl | rfl <;> exact .refl _
  | @undecided m m' op a r hop ha =>
    obtain ⟨-, hr, hm⟩ := hrule.of_logic hop
    have hsense : eval o (r.withMark m) = eval o r :=
      congrArg Sense.value (sense_withMark (hm.trans hr.symm))
    rw [hsense]
    rcases hop with rfl | rfl
    · cases a with
      | false => exact absurd rfl ha
      | true => exact .refl _
    · cases a with
      | false => exact .refl _
      | true => exact absurd rfl ha
  | @sameBool m m1 m2 a b => cases a <;> cases b <;> exact .refl _
  | @otherBool m m1 m2 a b => cases a <;> cases b <;> exact .refl _
  | @compare m op l r a b hop ha hb =>
    rw [eval_binary (not_logic_of_isCompare hop), eval_of_value? ha, eval_of_value? hb]
    exact .of_eq (calculate_compare hop a b)
  | @arith m t op l r a b hm hop ha hb =>
    obtain ⟨u, hu, -, -, hm'⟩ := hrule.of_arith hop
    cases hm.symm.trans hm'
    rw [eval_binary (not_logic_of_isArith hop), eval_of_value? ha, eval_of_value? hb, hm,
      eval_ofValue hm hu]
    exact refines_calculate hop a b
  | @swap m op l r a hop ha =>
    have hlogic := not_logic_of_isArith (isArith_of_swap hop)
    rw [eval_binary hlogic, eval_binary hlogic, eval_of_value? ha, pure_bind]
    exact .bind (.refl _) fun b => .of_eq (calculate_comm hop a b)
  | @neutral m op l r c hop hl hc hn =>
    obtain ⟨t, ht, hlt, -, hm⟩ := hrule.of_arith hop
    have hsense : eval o (l.withMark m) = eval o l >>= pure := by
      rw [bind_pure]
      exact congrArg Sense.value (sense_withMark (hm.trans hlt.symm))
    -- The operand stands for itself only because its value is in range already.
    have hlrule := (he.child (c := l) left_mem_children).node.rule
    rw [eval_binary (not_logic_of_isArith hop), eval_of_value? hc, hm, hsense]
    refine .bind_of_ends (.refl _) (stays_eval hlrule hlt ht hl) fun v hv => ?_
    exact .of_eq (calculate_neutral hn hv)
  | @reassociate m m' t op inner op' x l r c1 c2 c hm h1 h2 hc =>
    obtain ⟨hinner, hop, hop'⟩ := isArith_of_combine? hc
    obtain ⟨u, ht, hl, -, hm'⟩ := hrule.of_arith hop
    cases hm.symm.trans hm'
    have hleft : (Expr.binary m' inner x l).Typed T Γ := he.child left_mem_children
    obtain ⟨u, -, -, -, hu⟩ := hleft.node.rule.of_arith hinner
    cases hl.symm.trans hu
    rw [eval_binary (not_logic_of_isArith hop), eval_binary (not_logic_of_isArith hinner),
      eval_binary (not_logic_of_isArith hop'), eval_of_value? h1, eval_of_value? h2,
      eval_ofValue rfl ht, hm, hu, bind_assoc]
    exact .bind (.refl _) fun v => .of_eq (calculate_combine ht hc v)

/-! ## Expressions -/

theorem form_mapChildren (g : Expr → Expr) (e : Expr) : form (e.mapChildren g) = form e := by
  cases e with
  | call m f args => cases f <;> rfl
  | structLit m fields => simp [form, mapChildren]
  | _ => rfl

theorem refines_values {es : List Expr}
    (h : ∀ e ∈ es, Refines (eval o e) (eval o (g e))) :
    Refines (values o es) (values o (es.map g)) ∧
      Refines (valuesBack o es) (valuesBack o (es.map g)) := by
  induction es with
  | nil => exact ⟨.refl _, .refl _⟩
  | cons e es ih =>
    have he := h e List.mem_cons_self
    obtain ⟨hfront, hback⟩ := ih fun e' he' => h e' (List.mem_cons_of_mem e he')
    exact ⟨.bind he fun v => .bind hfront fun vs => .refl _,
      .bind hback fun vs => .bind he fun v => .refl _⟩

theorem refines_fieldValues {fields : List (String × Expr)}
    (h : ∀ e ∈ fields.map (·.2), Refines (eval o e) (eval o (g e))) :
    Refines (fieldValues o fields) (fieldValues o (fields.map fun f => (f.1, g f.2))) := by
  induction fields with
  | nil => exact .refl _
  | cons f fields ih =>
    have hf := h f.2 List.mem_cons_self
    have hrest := ih fun e he => h e (List.mem_cons_of_mem _ he)
    exact .bind hf fun v => .bind hrest fun vs => .refl _

/-- The meaning of an expression depends on the values of its parts only, except that a place whose
address is taken is not read. -/
theorem refines_mapChildren
    (h : ∀ c ∈ e.children, Refines (eval o c) (eval o (g c)))
    (hplace : ∀ m c, e = .addrOf m c →
      Refines (sense o c).operands (sense o (g c)).operands ∧ form (g c) = form c) :
    Refines (eval o e) (eval o (e.mapChildren g)) ∧
      Refines (sense o e).operands (sense o (e.mapChildren g)).operands := by
  -- An expression that is left to the oracle.
  have hasked : ∀ (m : Mark) {q q' : Form} {x y : Run (List Int)}, q' = q → Refines x y →
      Refines (asked o m q x).value (asked o m q' y).value ∧ Refines x y := by
    rintro m q _ x y rfl hxy
    exact ⟨.bind hxy fun vs => .refl _, hxy⟩
  -- An expression with one part.
  have hone : ∀ {c : Expr} {k : Int → Run Int}, Refines (eval o c) (eval o (g c)) →
      Refines (eval o c >>= k) (eval o (g c) >>= k) ∧
        Refines (eval o c >>= fun v => pure [v]) (eval o (g c) >>= fun v => pure [v]) :=
    fun hc => ⟨.bind hc fun v => .refl _, .bind hc fun v => .refl _⟩
  cases e with
  | intLit | boolLit | charLit | strLit | nil | ident | sizeof | zeroed | enumLit =>
    exact ⟨.refl _, .refl _⟩
  | unary m op e => exact hone (h e (by simp [children]))
  | cast m type e => exact hone (h e (by simp [children]))
  | binary m op l r =>
    have hl := h l left_mem_children
    have hr := h r right_mem_children
    refine ⟨.bind hl fun a => ?_, .bind hl fun a => .bind hr fun b => .refl _⟩
    cases op with
    | and =>
      dsimp only
      split
      · exact .refl _
      · exact hr
    | or =>
      dsimp only
      split
      · exact hr
      · exact .refl _
    | _ => exact .bind hr fun b => .refl _
  | addrOf m e =>
    obtain ⟨hops, hform⟩ := hplace m e rfl
    refine ⟨?_, hops⟩
    change Refines (address o m (form e) (sense o e)).value
      (address o m (form (g e)) (sense o (g e))).value
    rw [hform]
    exact .bind hops fun vs => .refl _
  | deref m e => exact hasked m rfl (.bind (h e (by simp [children])) fun v => .refl _)
  | member m e x => exact hasked m rfl (.bind (h e (by simp [children])) fun v => .refl _)
  | index m e i =>
    exact hasked m rfl (.bind (h e (by simp [children])) fun a =>
      .bind (h i (by simp [children])) fun b => .refl _)
  | call m f args =>
    exact hasked m (form_mapChildren g (.call m f args)) (refines_values h).2
  | builtin m b args => exact hasked m rfl (refines_values h).1
  | arrayLit m es => exact hasked m rfl (refines_values h).1
  | structLit m fields =>
    exact hasked m (form_mapChildren g (.structLit m fields)) (refines_fieldValues h)

/-- A place is not folded itself. -/
theorem result_place (h : e.isPlace = true) :
    (expr e).result = e.mapChildren fun c => (expr c).result := by
  rw [result_expr]
  refine congrArg Folded.result (node_eq_keep ?_)
  cases e with
  | ident | deref | member | index => simp [mapChildren]
  | _ => cases h

/-- A pass over a well-typed expression refines it. -/
theorem refines_expr (he : e.Typed T Γ) :
    Refines (eval o e) (eval o (expr e).result) ∧
      (e.isPlace = true → Refines (sense o e).operands (sense o (expr e).result).operands ∧
        form (expr e).result = form e) := by
  induction e using by_children with
  | h e ih =>
    have hparts : ∀ c ∈ e.children, Refines (eval o c) (eval o (expr c).result) :=
      fun c hc => (ih c hc (he.child hc)).1
    have hplaces : ∀ m c, e = .addrOf m c →
        Refines (sense o c).operands (sense o (expr c).result).operands ∧
          form (expr c).result = form c := by
      rintro m c rfl
      have hc : c ∈ (addrOf m c).children := by simp [children]
      refine (ih c hc (he.child hc)).2 ?_
      have hrule := he.node.rule
      cases hrule with
      | addrOf hp _ _ => exact hp
    -- First the parts change, then the node; a place keeps its form, so it is done by then.
    have hmap := refines_mapChildren hparts hplaces
    constructor
    · rw [result_expr]
      exact node_cases hmap.1 fun e' h =>
        hmap.1.trans (refines_rewrites h (typed_mapChildren he))
    · intro hp
      rw [result_place hp, form_mapChildren]
      exact ⟨hmap.2, rfl⟩

/-! ## Statements -/

theorem refines_evalOption {e : Option Expr}
    (he : ∀ e' ∈ e, e'.Typed T Γ) :
    Refines (evalOption o e) (evalOption o (optionExpr e).result) := by
  cases e with
  | none => exact .refl _
  | some e => exact .bind (refines_expr (he e rfl)).1 fun v => .refl _

theorem refines_inScope {x y : Run α} (h : Refines x y) : Refines (inScope o x) (inScope o y) :=
  .bind (.refl _) fun _ => .bind h fun _ => .refl _

/-- By induction on the number of rounds. -/
theorem refines_rounds {test test' : Run Int} {body body' post post' : Run Flow}
    (htest : Refines test test') (hbody : Refines body body') (hpost : Refines post post') (n : Nat) :
    Refines (rounds test body post n) (rounds test' body' post' n) := by
  -- By the number of rounds that are left.
  induction n with
  | zero => exact .bind htest fun v => .refl _
  | succ n ih =>
    refine .bind htest fun v => ?_
    split
    · exact .refl _
    · refine .bind hbody fun flow => ?_
      cases flow with
      | brk | ret => exact .refl _
      | next | cont =>
        refine .bind hpost fun flow => ?_
        cases flow with
        | brk | ret => exact .refl _
        | next | cont => exact ih

theorem refines_count {init : Option (String × Expr)}
    (h : ∀ x e, init = some (x, e) → e.Typed T Γ) :
    Refines (count o init) (count o (counter init).result) := by
  cases init with
  | none => exact .refl _
  | some xe =>
    obtain ⟨x, e⟩ := xe
    refine .bind (refines_expr (h x e rfl)).1 fun v => ?_
    rw [ty_expr]
    exact .refl _

/-- Ending in the ordinary way after a statement is ending as the statement does. -/
theorem andThen_next (flow : Flow) : flow.andThen (pure .next) = pure flow := by
  cases flow <;> rfl

theorem execAll_singleton (n : Nat) (s : Stmt) : execAll o n [s] = exec o n s := by
  change (exec o n s >>= fun flow => flow.andThen (pure .next)) = _
  simp only [andThen_next, bind_pure]

theorem execAll_toList (n : Nat) (s : Option Stmt) : execAll o n s.toList = execOption o n s := by
  cases s with
  | none => rfl
  | some s => exact execAll_singleton n s

/-- A condition that is known has a value, which is zero if it does not hold. -/
theorem exists_eval_of_truth? {b : Bool} (h : truth? e = some b) :
    ∃ v, eval o e = pure v ∧ (v = 0 ↔ b = false) := by
  cases e with
  | boolLit m a =>
    cases h
    exact ⟨truth b, rfl, by cases b <;> decide⟩
  | intLit m n =>
    cases h
    refine ⟨readWord m.ty n, rfl, ?_⟩
    rw [readWord_eq_zero]
    simp
  | _ => exact nomatch h

/-- A loop whose condition does not hold has no rounds. -/
theorem rounds_of_false {test : Run Int} (h : test = pure 0) (body post : Run Flow) (n : Nat) :
    rounds test body post n = pure .next := by
  subst h
  cases n <;> rfl

/-- Statements without parts that are statements are refined. -/
theorem refines_simple {ret : Ty} {s : Stmt}
    (h : s.Simple T ret looping Γ) (n : Nat) : Refines (exec o n s) (exec o n (stmt s).result) := by
  cases h with
  | expr he => exact .bind (refines_expr he).1 fun _ => .refl _
  | @assign pos l r t hl hr hp ht hf =>
    obtain ⟨hops, hform⟩ := (refines_expr (o := o) hl).2 hp
    refine .bind (refines_expr hr).1 fun v => ?_
    rw [hform, ty_expr]
    exact .bind hops fun vs => .refl _
  | var hd hv ht hi =>
    exact .bind (refines_evalOption fun e he => (hi e he).1) fun v => .refl _
  | done | brk | cont => exact .refl _
  | ret he hv hf =>
    exact .bind (.bind (refines_expr he).1 fun v => .refl _) fun v => .refl _

mutual

/-- A pass over a well-typed statement refines it. -/
theorem refines_stmt {T : Symbols} {ret : Ty} {looping : Bool} {Γ : Env} {s : Stmt}
    (h : s.Typed T ret looping Γ) (n : Nat) : Refines (exec o n s) (exec o n (stmt s).result) := by
  match s with
  | .block pos body =>
    have hbody : Stmt.AllTyped T ret looping Γ body := h
    exact refines_inScope (refines_stmts hbody n)
  | .cond pos test yes no =>
    obtain ⟨htest, hyes, hno⟩ := h
    have htest' := (refines_expr (o := o) htest.1).1
    have hyes' := refines_inScope (o := o) (refines_stmt hyes n)
    have hno' := refines_inScope (o := o) (refines_optionStmt (s := no) hno n)
    have hparts : Refines (exec o n (.cond pos test yes no))
        (exec o n (.cond pos (expr test).result (stmt yes).result
          (optionStmt no).result)) := by
      refine .bind htest' fun v => ?_
      split
      · exact hno'
      · exact hyes'
    rw [result_cond]
    -- The scope of the branch that runs becomes that of the block that replaces the conditional.
    split
    · next hknown =>
      obtain ⟨v, hv, hb⟩ := exists_eval_of_truth? (o := o) hknown
      refine hparts.trans (.of_eq ?_)
      simp only [exec, hv, pure_bind, show v ≠ 0 by simpa using hb, if_false, execAll_singleton]
    · next hknown =>
      obtain ⟨v, hv, hb⟩ := exists_eval_of_truth? (o := o) hknown
      refine hparts.trans (.of_eq ?_)
      simp only [exec, hv, pure_bind, show v = 0 by simpa using hb, if_true, execAll_toList]
    · exact hparts
  | .loop pos init test post body =>
    obtain ⟨hinit, htest, hbody, hpost⟩ := h
    have htest' := (refines_expr (o := o) htest.1).1
    have hbody' := refines_inScope (o := o) (refines_stmt hbody n)
    have hpost' := refines_inScope (o := o) (refines_optionStmt (s := post) hpost n)
    have hparts : Refines (exec o n (.loop pos init test post body))
        (exec o n (.loop pos (counter init).result (expr test).result
          (optionStmt post).result (stmt body).result)) := by
      refine refines_inScope (.bind (refines_count fun x e hx => (hinit x e hx).1) fun _ => ?_)
      exact refines_rounds htest' hbody' hpost' n
    rw [result_loop]
    split
    · next hknown =>
      rw [Bool.and_eq_true, Option.isNone_iff_eq_none, beq_iff_eq] at hknown
      obtain ⟨hnone, htruth⟩ := hknown
      obtain ⟨v, hv, hb⟩ := exists_eval_of_truth? (o := o) htruth
      cases hb.2 rfl
      refine hparts.trans (.of_eq ?_)
      simp only [exec, hnone, count, pure_bind, rounds_of_false hv, execAll]
    · exact hparts
  | .expr _ _ | .assign _ _ _ | .var _ _ | .ret _ _ | .brk _ | .cont _ => exact refines_simple h n

theorem refines_optionStmt {T : Symbols} {ret : Ty} {looping : Bool} {Γ : Env} {s : Option Stmt}
    (h : Stmt.OptionTyped T ret looping Γ s) (n : Nat) :
    Refines (execOption o n s) (execOption o n (optionStmt s).result) := by
  match s with
  | none => exact .refl _
  | some s => exact refines_stmt (s := s) h n

/-- A pass over well-typed statements refines them. -/
theorem refines_stmts {T : Symbols} {ret : Ty} {looping : Bool} {Γ : Env} {sts : List Stmt}
    (h : Stmt.AllTyped T ret looping Γ sts) (n : Nat) :
    Refines (execAll o n sts) (execAll o n (stmts sts).result) := by
  match sts with
  | [] => exact .refl _
  | s :: rest =>
    have hrest := refines_stmts h.2 n
    refine .bind (refines_stmt h.1 n) fun flow => ?_
    cases flow with
    | next => exact hrest
    | brk | cont | ret => exact .refl _

end

/-- Any number of passes refines. -/
theorem refines_iterate {ret : Ty} {sts : List Stmt}
    (h : Stmt.AllTyped T ret looping Γ sts) (n k : Nat) :
    Refines (execAll o n sts) (execAll o n (pass^[k] sts)) := by
  induction k generalizing sts with
  | zero => exact .refl _
  | succ k ih => exact (refines_stmts h n).trans (ih (allTyped_stmts h))

/-- A program with something to fold: a branch, literals around a variable and a neutral operand. -/
def foldable : String :=
  "const main := fn () int! \x7b have x: int! = 2 * 3; if (1 < 2) \x7b x = (x + 2) - 1 + 0; \x7d return x / 2; \x7d;"

/-- An oracle that answers with the number of questions so far. -/
def counting : Oracle :=
  fun past _ _ => some past.length

/-- Of a function of an accepted program, any number of folding passes, or as many as the folder makes,
leave a body that ends in the same way after the same questions and answers, for every oracle and from
every history on which the body itself does not fault. -/
theorem execAll_folded {p : Program} {c : Checked} (h : Compile.check p = .ok c) {d : Def}
    (hd : d ∈ c.program) {f : Func} (hf : d.body = .func f) (o : Oracle) (n : Nat) (past : History)
    (hfault : (execAll o n f.body past).1 ≠ .error .fault) (k : Nat) :
    execAll o n (Fold.pass^[k] f.body) past = execAll o n f.body past ∧
      execAll o n (Fold.passes k f.body).result past = execAll o n f.body past := by
  obtain ⟨sig, -, hbody⟩ := Compile.wellTyped_of_check h hd hf
  refine ⟨refines_iterate hbody n k past hfault, ?_⟩
  obtain ⟨j, hj⟩ := exists_iterate_of_passes k f.body
  rw [hj]
  exact refines_iterate hbody n j past hfault

theorem execAll_folded_foldable :
    ∃ p c d f, Compile.parse foldable = .ok p ∧ Compile.check p = .ok c ∧ d ∈ c.program ∧
      d.body = .func f ∧ (execAll counting 5 f.body []).1 = .ok (.ret (some 3)) ∧
      (Fold.stmts f.body).changes = 5 ∧
      execAll counting 5 (Fold.pass^[2] f.body) [] = execAll counting 5 f.body [] := by
  obtain ⟨p, c, d, f, hp, hc, hd, hf, htest⟩ := Compile.exists_of_testSource foldable
    (fun _ f => decide ((execAll counting 5 f.body []).1 = .ok (.ret (some 3)) ∧
      (stmts f.body).changes = 5)) (by decide +kernel)
  obtain ⟨hend, hchanges⟩ := of_decide_eq_true htest
  have hfault : (execAll counting 5 f.body []).1 ≠ .error .fault := by simp [hend]
  exact ⟨p, c, d, f, hp, hc, hd, hf, hend, hchanges,
    (execAll_folded hc hd hf counting 5 [] hfault 2).1⟩

end Sigil.Meaning
