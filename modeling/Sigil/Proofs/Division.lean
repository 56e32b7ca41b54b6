import Sigil.Proofs.Laws.Folding
import Sigil.Proofs.Laws.Statements
import Sigil.Proofs.Lowering.Program
import Sigil.Proofs.Structs.Containment

/-!
# Division by a literal zero

Folding reports a division whose divisor is a literal of value zero, but it does not take every literal for a
value: an integer literal that stands for a character, where one is expected, is none. So a literal zero may
be left as a divisor in an accepted program only if it is such a literal
(`Compile.zero_divisor_of_frontend`), and it may well be one (`Compile.exists_division_by_zero`).

This goes for all divisions in a function, wherever they stand (`Stmt.Mentions`). Those in the lengths of
arrays have been evaluated when the type was resolved, which fails for a zero divisor of any kind
(`Names.sane_of_eval`). Those in expressions have been folded, and a pass without errors leaves no divisor of
value zero (`Fold.Lasting`).
-/

namespace Sigil

open Attempt Fold List

namespace Expr

/-- The lengths in the type that is written in an expression itself. -/
def lengths (e : Expr) : List Expr :=
  e.type?.toList.flatMap TypeExpr.lengths

/-- One expression is the other one or is inside it: as a part, as what is called, or as a length in a
type. -/
inductive Occurs (n : Expr) : Expr → Prop where
  | here : Occurs n n
  | part {e k : Expr} (hk : k ∈ e.children) (h : Occurs n k) : Occurs n e
  | callee {e k : Expr} (hk : k ∈ e.callees) (h : Occurs n k) : Occurs n e
  | length {e k : Expr} (hk : k ∈ e.lengths) (h : Occurs n k) : Occurs n e

/-- Whether this is an integer or a character literal for zero. -/
def isZero : Expr → Bool
  | .intLit _ n => n == 0
  | .charLit _ c => c == 0
  | _ => false

/-- Whether an expression divides by a literal zero. -/
def dividesByZero : Expr → Bool
  | .binary _ op _ r => Fold.divides op && r.isZero
  | _ => false

/-- No expression inside divides by a literal zero. -/
def Sane (e : Expr) : Prop :=
  ∀ n : Expr, n.Occurs e → n.dividesByZero = false

theorem occurs_of_mem_nodes {e n : Expr} (h : n ∈ e.nodes) : n.Occurs e := by
  induction e using by_children with
  | h e ih =>
    rw [nodes_eq] at h
    rcases mem_cons.1 h with rfl | h
    · exact .here
    · obtain ⟨k, hk, hn⟩ := mem_flatMap.1 h
      exact .part hk (ih k hk hn)

theorem sane_of_parts {e : Expr} (he : e.dividesByZero = false) (hparts : ∀ k ∈ e.children, k.Sane)
    (hcallees : e.callees = []) (hlengths : ∀ k ∈ e.lengths, k.Sane) : e.Sane := by
  intro n hn
  cases hn with
  | here => exact he
  | part hk h => exact hparts _ hk n h
  | callee hk h =>
    rw [hcallees] at hk
    cases hk
  | length hk h => exact hlengths _ hk n h

theorem sane_leaf {e : Expr} (he : e.dividesByZero = false) (hleaf : e.children = [])
    (hcallees : e.callees = []) (hlengths : e.lengths = []) : e.Sane :=
  sane_of_parts he (by simp [hleaf]) hcallees (by simp [hlengths])

end Expr

/-- No length in a type divides by a literal zero. -/
def TypeExpr.Sane (type : TypeExpr) : Prop :=
  ∀ k ∈ type.lengths, k.Sane

/-- The expression is somewhere in the statements: inside an expression, or inside a length in the type of a
local. -/
def Stmt.Mentions (sts : List Stmt) (n : Expr) : Prop :=
  (∃ e ∈ rootsOfAll sts, n.Occurs e) ∨ ∃ type ∈ declaredOfAll sts, ∃ k ∈ type.lengths, n.Occurs k

/-! ## Lengths -/

namespace Names

open Expr

variable {names : Names}

/-- A zero is evaluated to zero. -/
theorem eval_of_isZero {e : Expr} (h : e.isZero = true) (s : Memo) :
    ∃ v, names.eval e s = (.ok v, s) ∧ v.asInt? = some 0 := by
  cases e with
  | intLit m n =>
    cases eq_of_beq h
    refine ⟨.int (readWord m.ty 0), by unfold eval; rfl, ?_⟩
    unfold readWord
    split
    · split <;> rfl
    · rfl
  | charLit m c =>
    cases eq_of_beq h
    exact ⟨.char 0, by unfold eval; rfl, rfl⟩
  | _ => cases h

theorem binary_ne_ok_of_zero {op : BinOp} (hop : divides op = true) {b : Constant}
    (hb : b.asInt? = some 0) (a v : Constant) : a.binary op b ≠ .ok v := by
  intro h
  unfold Constant.binary at h
  split at h
  · cases hb
  · split at h
    · next hb' =>
      cases hb.symm.trans hb'
      cases op <;> cases hop <;> cases h
    · cases h

mutual

/-- An expression that has a value divides nowhere by a literal zero. -/
theorem sane_of_eval {e : Expr} {s s' : Memo} {v : Constant} (h : names.eval e s = (.ok v, s')) :
    e.Sane := by
  match e with
  | .intLit _ _ | .boolLit _ _ | .charLit _ _ | .strLit _ _ | .enumLit _ _ _ | .ident _ _ =>
    exact sane_leaf rfl rfl rfl rfl
  | .member _ base _ =>
    cases base with
    | ident m x =>
      refine sane_of_parts rfl (forall_mem_singleton.2 ?_) rfl (forall_mem_nil _)
      exact sane_leaf rfl rfl rfl rfl
    | _ =>
      unfold eval at h
      cases h
  | .sizeof _ type =>
    unfold eval at h
    obtain ⟨t, s1, ht, -⟩ := bind_eq_ok.1 h
    refine sane_of_parts rfl (forall_mem_nil _) rfl ?_
    intro k hk
    exact sane_of_resolve ht k (by simpa [lengths, type?] using hk)
  | .cast _ type e =>
    cases type with
    | char | int =>
      unfold eval at h
      obtain ⟨a, s1, ha, -⟩ := bind_eq_ok.1 h
      exact sane_of_parts rfl (forall_mem_singleton.2 (sane_of_eval ha)) rfl (forall_mem_nil _)
    | _ =>
      unfold eval at h
      cases h
  | .unary _ op e =>
    unfold eval at h
    obtain ⟨a, s1, ha, -⟩ := bind_eq_ok.1 h
    exact sane_of_parts rfl (forall_mem_singleton.2 (sane_of_eval ha)) rfl (forall_mem_nil _)
  | .binary m op l r =>
    unfold eval at h
    obtain ⟨a, s1, ha, h⟩ := bind_eq_ok.1 h
    obtain ⟨b, s2, hb, h⟩ := bind_eq_ok.1 h
    refine sane_of_parts ?_ ?_ rfl (forall_mem_nil _)
    · -- A literal zero as the divisor would have been found.
      rw [Bool.eq_false_iff]
      intro hzero
      obtain ⟨hop, hr⟩ := Bool.and_eq_true_iff.1 hzero
      obtain ⟨b', hb', hint⟩ := eval_of_isZero hr s1
      cases hb.symm.trans hb'
      cases hbin : a.binary op b with
      | ok w => exact binary_ne_ok_of_zero hop hint a w hbin
      | error e =>
        rw [hbin] at h
        cases h
    · exact forall_mem_cons.2 ⟨sane_of_eval ha, forall_mem_singleton.2 (sane_of_eval hb)⟩
  | .nil _ | .addrOf _ _ | .deref _ _ | .call _ _ _ | .index _ _ _ | .structLit _ _ | .arrayLit _ _
  | .builtin _ _ _ | .zeroed _ =>
    unfold eval at h
    cases h

theorem sane_of_resolve {type : TypeExpr} {s s' : Memo} {t : Ty} (h : names.resolve type s = (.ok t, s')) :
    type.Sane := by
  match type with
  | .int _ _ | .char | .bool | .str | .void | .named _ => exact forall_mem_nil _
  | .ptr target =>
    unfold resolve at h
    obtain ⟨t', s1, ht, -⟩ := bind_eq_ok.1 h
    have htarget : target.Sane := sane_of_resolve ht
    exact htarget
  | .array length elem =>
    unfold resolve at h
    obtain ⟨v, s1, hv, h⟩ := bind_eq_ok.1 h
    obtain ⟨n, s2, -, h⟩ := bind_eq_ok.1 h
    obtain ⟨t', s3, ht, -⟩ := bind_eq_ok.1 h
    exact forall_mem_cons.2 ⟨sane_of_eval hv, sane_of_resolve ht⟩

end

end Names

/-- What can be resolved divides nowhere by a literal zero. -/
theorem Check.Context.covers_sane (c : Context) : c.Covers TypeExpr.Sane := by
  intro f type t h
  unfold Symbols.ask at h
  rcases hr : (c.names f).resolve type c.symbols.memo with ⟨r, s'⟩
  rw [hr] at h
  cases h
  exact Names.sane_of_resolve hr

/-! ## What is left of divisions by zero -/

namespace Fold

open Expr Stmt Typing

variable {T : Symbols} {Γ : Env}

/-- A literal zero that folding takes for no value is the code of a character. -/
theorem code_of_isZero {r : Expr} (hr : Rule T Γ r) (hzero : r.isZero = true) (hv : r.value? ≠ some 0) :
    ∃ m, r = .intLit m 0 ∧ m.ty = some .char := by
  cases hr with
  | int hm =>
    cases eq_of_beq hzero
    exact absurd (by simp [Expr.value?, hm, readWord]) hv
  | code hm =>
    cases eq_of_beq hzero
    exact ⟨_, rfl, hm⟩
  | char =>
    cases eq_of_beq hzero
    exact absurd rfl hv
  | _ => cases hzero

theorem callee_of_rule {e k : Expr} (he : Rule T Γ e) (hk : k ∈ e.callees) : ∃ m x, k = .ident m x := by
  cases he with
  | call => exact ⟨_, _, mem_singleton.1 hk⟩
  | _ => cases hk

/-- A division by zero that is left is one of characters. -/
theorem code_of_occurs {n e : Expr} (hn : n.Occurs e) (ht : e.Typed T Γ) (hs : Steady e)
    (hw : e.All (Fit (fun _ => True) TypeExpr.Sane)) (hzero : n.dividesByZero = true) :
    ∃ m op l m', n = .binary m op l (.intLit m' 0) ∧ l.ty = some .char ∧ m'.ty = some .char := by
  induction hn with
  | here =>
    cases n with
    | binary m op l r =>
      obtain ⟨hop, hr⟩ := Bool.and_eq_true_iff.1 hzero
      -- A divisor of value zero would have been reported.
      have hlasting := (steady_iff.1 hs).1.2.2.2 hop
      obtain ⟨m', rfl, hm'⟩ := code_of_isZero (ht.child right_mem_children).node.rule hr hlasting
      refine ⟨m, op, l, m', rfl, ?_, hm'⟩
      cases ht.node.rule with
      | arith _ _ hl hr => exact hl.trans (hr.symm.trans hm')
      | compare hop' => cases op <;> cases hop <;> cases hop'
      | logic hop' => rcases hop' with rfl | rfl <;> cases hop
    | _ => cases hzero
  | part hk _ ih => exact ih (ht.child hk) (hs.child hk) (hw.child hk)
  | callee hk h =>
    obtain ⟨m, x, rfl⟩ := callee_of_rule ht.node.rule hk
    rw [sane_leaf (e := .ident m x) rfl rfl rfl rfl n h] at hzero
    cases hzero
  | length hk h =>
    -- The lengths in a type have been evaluated with it.
    obtain ⟨type, htype, hk⟩ := mem_flatMap.1 hk
    have hsane : type.Sane := hw.self.type type (Option.mem_toList.1 htype)
    rw [hsane _ hk n h] at hzero
    cases hzero

theorem code_of_mentions {body : List Stmt} (ht : AllRootsTyped T body) (hs : AllRootsSteady body)
    (hw : AllHave (All (Fit (fun _ => True) TypeExpr.Sane)) TypeExpr.Sane body) {n : Expr}
    (hn : Mentions body n) (hzero : n.dividesByZero = true) :
    ∃ m op l m', n = .binary m op l (.intLit m' 0) ∧ l.ty = some .char ∧ m'.ty = some .char := by
  rcases hn with ⟨e, he, hn⟩ | ⟨type, htype, k, hk, hn⟩
  · obtain ⟨Γ, hte⟩ := ht e he
    exact code_of_occurs hn hte (hs e he) (hw.1 e he) hzero
  · rw [hw.2 type htype k hk n hn] at hzero
    cases hzero

end Fold

namespace Compile

/-- In a function of an accepted program all expressions are typed and steady, and all types have been
resolved. -/
theorem steady_of_frontend {code : String} {front : Frontend} (h : frontend code = .ok front) {d : Def}
    (hd : d ∈ front.program) {f : Func} (hf : d.body = .func f) :
    AllRootsTyped front.symbols f.body ∧ AllRootsSteady f.body ∧
      Stmt.AllHave (Expr.All (Expr.Fit (fun _ => True) TypeExpr.Sane)) TypeExpr.Sane f.body := by
  obtain ⟨p, c, -, hc, hsymbols, hfold⟩ := stages_of_frontend h
  obtain ⟨herrors, hresult, -⟩ := Program.folded_eq_ok_iff.1 hfold
  rw [(definitions_eq c.program).2.1, flatMap_eq_nil_iff] at herrors
  rw [← hresult, (definitions_eq c.program).1] at hd
  obtain ⟨d0, hd0, rfl⟩ := mem_map.1 hd
  obtain ⟨-, g, hg, hbody, herrors'⟩ := passes_of_definition hf
  rw [hsymbols, hbody]
  have htyped : AllRootsTyped c.symbols g.body := by
    obtain ⟨sig, -, hall⟩ := wellTyped_of_check hc hd0 hg
    intro e he
    exact hall.exists_typed (Stmt.mem_nodesOfAll he)
  have hwrite : Stmt.AllHave (Expr.All (Expr.Fit (fun _ => True) TypeExpr.Sane)) TypeExpr.Sane g.body := by
    obtain ⟨-, hknows, hdefs⟩ := of_check hc
    obtain ⟨d1, hd1, hdef⟩ := forall₂_left hdefs.flip hd0
    obtain ⟨f1, hf1⟩ := Check.func_of_definition hdef hg
    exact Check.fit_of_definition (fun c _ => c.covers_sane) (hknows d1 hd1) hdef hf1 hg
      fun _ _ _ _ => trivial
  obtain ⟨hresultTyped, hsteady⟩ := steady_of_passes htyped (herrors'.symm.trans (herrors d0 hd0))
  obtain ⟨k, hk⟩ := exists_iterate_of_passes maxPasses g.body
  exact ⟨hresultTyped, hsteady, hk ▸ fit_iterate hwrite k⟩

/-- If a literal zero is left as a divisor anywhere in an accepted program, then it is an integer literal
that stands for a character, and it divides a character. -/
theorem zero_divisor_of_frontend {code : String} {front : Frontend} (h : frontend code = .ok front) {d : Def}
    (hd : d ∈ front.program) {f : Func} (hf : d.body = .func f) {n : Expr} (hn : Stmt.Mentions f.body n)
    (hzero : n.dividesByZero = true) :
    ∃ m op l m', n = .binary m op l (.intLit m' 0) ∧ l.ty = some .char ∧ m'.ty = some .char := by
  obtain ⟨htyped, hsteady, hwrite⟩ := steady_of_frontend h hd hf
  exact code_of_mentions htyped hsteady hwrite hn hzero

/-- A program that divides a character by zero. -/
def codeDivision : String :=
  "const main := fn () int! \x7b have c: char = 'a'; have d: char = c / 0; return 0; \x7d;"

/-- Whether the program is accepted with a literal zero as a divisor. -/
def leavesZeroDivisor (code : String) : Bool :=
  match frontend code with
  | .ok front => front.program.any fun d =>
    match d.body with
    | .func f => (Stmt.nodesOfAll f.body).any Expr.dividesByZero
    | _ => false
  | .error _ => false

theorem exists_of_leavesZeroDivisor {code : String} (h : leavesZeroDivisor code = true) :
    ∃ front d f n, frontend code = .ok front ∧ d ∈ front.program ∧ d.body = .func f ∧
      Stmt.Mentions f.body n ∧ n.dividesByZero = true := by
  unfold leavesZeroDivisor at h
  split at h
  · next front hfront =>
    obtain ⟨d, hd, hdef⟩ := any_eq_true.1 h
    split at hdef
    · next f hf =>
      obtain ⟨n, hn, hzero⟩ := any_eq_true.1 hdef
      rw [Stmt.nodesOfAll_eq_roots] at hn
      obtain ⟨e, he, hn⟩ := mem_flatMap.1 hn
      exact ⟨front, d, f, n, hfront, hd, hf, .inl ⟨e, he, Expr.occurs_of_mem_nodes hn⟩, hzero⟩
    · cases hdef
  · cases h

theorem leavesZeroDivisor_codeDivision : leavesZeroDivisor codeDivision = true := by
  decide +kernel

theorem zero_divisor_of_frontend_codeDivision :
    ∃ front d f n, frontend codeDivision = .ok front ∧ d ∈ front.program ∧ d.body = .func f ∧
      Stmt.Mentions f.body n ∧
      ∃ m op l m', n = .binary m op l (.intLit m' 0) ∧ l.ty = some .char ∧ m'.ty = some .char := by
  obtain ⟨front, d, f, n, h, hd, hf, hn, hzero⟩ :=
    exists_of_leavesZeroDivisor leavesZeroDivisor_codeDivision
  exact ⟨front, d, f, n, h, hd, hf, hn, zero_divisor_of_frontend h hd hf hn hzero⟩

/-- So a division by a literal zero may be accepted. -/
theorem exists_division_by_zero :
    ∃ code front d f n, frontend code = .ok front ∧ d ∈ front.program ∧ d.body = .func f ∧
      Stmt.Mentions f.body n ∧ n.dividesByZero = true :=
  ⟨codeDivision, exists_of_leavesZeroDivisor leavesZeroDivisor_codeDivision⟩

end Compile

end Sigil
