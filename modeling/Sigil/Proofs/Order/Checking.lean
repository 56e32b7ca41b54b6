import Sigil.Check.Program
import Sigil.Proofs.Order.Tables

/-!
# Checking by what is kept

Checking asks a table what it keeps, and nothing else. So the tables that two orders of the same definitions
lead to give the same answers (`Check.Context.Same`), and every check runs in the same way with either of
them: expressions, statements, the passes over a function, and whole definitions
(`Check.definition_eq`).
-/

namespace Sigil

open List

namespace Symbols

/-- Both evaluations end in the same way and change nothing. -/
def Agrees (s s' : Memo) (α : Type) (x y : Eval α) : Prop :=
  ∃ r, x s = (r, s) ∧ y s' = (r, s')

/-- Agreement of two tables is kept by all that questions are composed of. -/
theorem relation_agrees (s s' : Memo) : Eval.Relation (Agrees s s') where
  pure a := ⟨.ok a, rfl, rfl⟩
  throw e := ⟨.error e, rfl, rfl⟩
  bind := by
    rintro α β x y f g ⟨r, hx, hy⟩ hf
    cases r with
    | error e => exact ⟨.error e, Attempt.bind_of_error hx, Attempt.bind_of_error hy⟩
    | ok a =>
      obtain ⟨r', hfa, hga⟩ := hf a
      exact ⟨r', by rw [Attempt.bind_of_ok hx, hfa], by rw [Attempt.bind_of_ok hy, hga]⟩

/-- Tables give the same answer. -/
theorem Agrees.ask {t t' : Symbols} {α : Type} {x y : Eval α}
    (h : Agrees t.memo t'.memo α x y) : t.ask x = t'.ask y := by
  obtain ⟨r, hx, hy⟩ := h
  unfold Symbols.ask
  rw [hx, hy]

/-- The same is kept in both tables, and everything that is defined. -/
structure Settled (t t' : Symbols) : Prop extends t.Same t' where
  kept : ∀ (k : Store) (names : Names) (x : String), (k.body t names x).isSome = true →
    (k.get? t.memo x).isSome = true

namespace Settled

variable {t t' : Symbols}

/-- A question to one of two settled tables has the answer that the other one gives. -/
theorem consult (h : t.Settled t') (names : Names) (k : Store) (x : String) :
    Agrees t.memo t'.memo k.Value (t.consult names k x) (t'.consult names k x) := by
  have hsame := h.memo k x
  cases hv : k.get? t.memo x with
  | some v =>
    rw [hv] at hsame
    exact ⟨.ok v, consult_of_kept hv, consult_of_kept hsame.symm⟩
  | none =>
    rw [hv] at hsame
    have hb : k.body t names x = none := by
      rw [Option.eq_none_iff_forall_not_mem]
      intro b hb
      have hkept := h.kept k names x (Option.isSome_iff_exists.2 ⟨b, hb⟩)
      rw [hv] at hkept
      cases hkept
    have hb' : k.body t' names x = none := (h.alike.body names k x).symm.trans hb
    exact ⟨_, consult_of_unknown hv hb, consult_of_unknown hsame.symm hb'⟩

theorem layout (h : t.Settled t') (x : String) :
    Agrees t.memo t'.memo Layout (t.layout x) (t'.layout x) := by
  have hlayout := h.consult (t.namesOfDepth t.depth) .layouts x
  rw [consult_layouts, consult_layouts] at hlayout
  unfold Symbols.layout
  rwa [← h.alike.depth, ← h.alike.namesOfDepth]

theorem globalConst (h : t.Settled t') (x : String) :
    Agrees t.memo t'.memo GlobalConst (t.globalConst x) (t'.globalConst x) := by
  have hconst := h.consult (t.namesOfDepth t.depth) .constants x
  rw [consult_constants, consult_constants] at hconst
  unfold Symbols.globalConst
  rwa [← h.alike.depth, ← h.alike.namesOfDepth]

/-- Names mean the same in two settled tables. -/
theorem names (h : t.Settled t') : t.names.Related (Agrees t.memo t'.memo) t'.names := by
  refine ⟨?_, ?_, ?_, ?_⟩
  · exact h.alike.kind
  · exact h.alike.variant
  · intro x
    have hconst : Agrees t.memo t'.memo (Option Constant) (t.valueBy t.globalConst x)
        (t.valueBy t'.globalConst x) := (relation_agrees _ _).valueBy t (h.globalConst x)
    rw [h.alike.valueBy t'.globalConst] at hconst
    exact hconst
  · exact h.layout

end Settled

end Symbols

namespace Check

/-- Two contexts that differ only in the order in which their tables were filled. -/
structure Context.Same (c c' : Context) : Prop where
  symbols : c.symbols.Settled c'.symbols
  ret : c.ret = c'.ret
  signed : c.signed = c'.signed

section

variable {c c' : Context} {τ α : Type}

/-! ## Questions -/

/-- With the locals added, names still mean the same. -/
theorem Context.Same.names (h : c.Same c') (f : Frame) :
    (c.names f).Related (Symbols.Agrees c.symbols.memo c'.symbols.memo) (c'.names f) := by
  refine ⟨h.symbols.alike.kind, ?_, ?_, h.symbols.layout⟩
  · unfold Context.names
    rw [h.symbols.alike.variant]
  · intro x
    unfold Context.names
    dsimp only
    split
    · exact (Symbols.relation_agrees _ _).pure _
    · exact h.symbols.names.constant x

theorem Context.ask_eq {question question' : Names → Eval α}
    (h : ∀ f, Symbols.Agrees c.symbols.memo c'.symbols.memo α (question (c.names f))
      (question' (c'.names f))) :
    (c.ask question : Checker τ _) = c'.ask question' := by
  funext s
  unfold Context.ask
  rw [(h s.frame).ask]

theorem Context.demand_eq {question question' : Names → Eval α}
    (h : ∀ f, Symbols.Agrees c.symbols.memo c'.symbols.memo α (question (c.names f))
      (question' (c'.names f))) (tree : τ) (pos : Position) :
    c.demand tree pos question = c'.demand tree pos question' := by
  unfold Context.demand
  rw [Context.ask_eq h]

namespace Context.Same

variable (h : c.Same c')

include h

theorem demand_resolve (tree : τ) (pos : Position) (type : TypeExpr) :
    c.demand tree pos (·.resolve type) = c'.demand tree pos (·.resolve type) :=
  Context.demand_eq (fun f => (h.names f).resolve (Symbols.relation_agrees _ _) type) tree pos

theorem demand_sizeOf (tree : τ) (pos : Position) (t : Ty) :
    c.demand tree pos (·.sizeOf t) = c'.demand tree pos (·.sizeOf t) :=
  Context.demand_eq (fun f => (h.names f).sizeOf (Symbols.relation_agrees _ _) t) tree pos

theorem demand_sizeof (tree : τ) (pos : Position) (type : TypeExpr) :
    c.demand tree pos (fun names => do names.sizeOf (← names.resolve type)) =
      c'.demand tree pos (fun names => do names.sizeOf (← names.resolve type)) := by
  refine Context.demand_eq ?_ tree pos
  intro f
  have hR := Symbols.relation_agrees c.symbols.memo c'.symbols.memo
  exact hR.bind ((h.names f).resolve hR type) fun t => (h.names f).sizeOf hR t

theorem demand_layout (tree : τ) (pos : Position) (x : String) :
    c.demand tree pos (fun _ => c.symbols.layout x) =
      c'.demand tree pos (fun _ => c'.symbols.layout x) :=
  Context.demand_eq (fun _ => h.symbols.layout x) tree pos

theorem demand_globalConst (tree : τ) (pos : Position) (x : String) :
    c.demand tree pos (fun _ => c.symbols.globalConst x) =
      c'.demand tree pos (fun _ => c'.symbols.globalConst x) :=
  Context.demand_eq (fun _ => h.symbols.globalConst x) tree pos

theorem value? (e : Expr) : (c.value? e : Checker τ _) = c'.value? e := by
  have hask : (c.ask (·.eval e) : Checker τ _) = c'.ask (·.eval e) :=
    Context.ask_eq fun f => (h.names f).eval (Symbols.relation_agrees _ _) e
  unfold Context.value?
  rw [hask]

theorem intValue? (e : Expr) : (c.intValue? e : Checker τ _) = c'.intValue? e := by
  unfold Context.intValue?
  rw [h.value?]

theorem isGlobalConst (f : Frame) (x : String) : c.isGlobalConst f x = c'.isGlobalConst f x := by
  unfold Context.isGlobalConst
  rw [h.symbols.alike.kind]

/-- Whether an expression has a type of its own does not depend on the order. -/
theorem isOpen (f : Frame) (e : Expr) : c.isOpen f e = c'.isOpen f e := by
  induction e using Expr.by_children with
  | h e ih =>
    cases e with
    | ident m x =>
      rw [Context.isOpen, Context.isOpen, h.isGlobalConst,
        (h.symbols.globalConst x).ask]
    | unary m op e =>
      cases op with
      | neg =>
        rw [Context.isOpen, Context.isOpen]
        exact ih e mem_cons_self
      | not => rfl
    | binary m op l r =>
      rw [Context.isOpen, Context.isOpen, ih l mem_cons_self,
        ih r (mem_cons_of_mem _ mem_cons_self)]
    | _ => rfl

/-! ## Rules -/

theorem partIsOpen (p : Part) : (p.isOpen c : Checker τ Bool) = p.isOpen c' := by
  unfold Part.isOpen
  simp only [h.isOpen]

theorem coerce (p : Part) (dst : Ty) : Check.coerce c p dst = Check.coerce c' p dst := by
  unfold Check.coerce
  simp only [h.partIsOpen, h.intValue?]

theorem negRule (m : Mark) (p : Part) (hint : Option Ty) :
    Check.negRule c m p hint = Check.negRule c' m p hint := by
  unfold Check.negRule
  simp only [h.partIsOpen]

theorem constRule (m : Mark) (const : GlobalConst) (hint : Option Ty) :
    Check.constRule c m const hint = Check.constRule c' m const hint := by
  unfold Check.constRule
  simp only [h.negRule]

theorem identRule (m : Mark) (x : String) (hint : Option Ty) :
    Check.identRule c m x hint = Check.identRule c' m x hint := by
  unfold Check.identRule
  simp only [h.symbols.alike.kind, h.demand_globalConst, h.constRule]

theorem sizeofRule (m : Mark) (type : TypeExpr) (hint : Option Ty) :
    Check.sizeofRule c m type hint = Check.sizeofRule c' m type hint := by
  unfold Check.sizeofRule
  rw [h.demand_sizeof]

theorem binaryRule (m : Mark) (op : BinOp) (l r : Part) (hint : Option Ty) :
    Check.binaryRule c m op l r hint = Check.binaryRule c' m op l r hint := by
  unfold Check.binaryRule Check.arithRule Check.compareRule Check.operandsRule
  simp only [h.partIsOpen]

theorem memberRule (m : Mark) (p : Part) (x : String) :
    Check.memberRule c m p x = Check.memberRule c' m p x := by
  have hname : ∀ f e, enumName? c f e = enumName? c' f e := by
    intro f e
    unfold enumName?
    rw [h.symbols.alike.kind]
  unfold Check.memberRule Check.fieldRule
  simp only [hname, h.symbols.alike.variant, h.demand_layout]

theorem indexRule (m : Mark) (base idx : Part) :
    Check.indexRule c m base idx = Check.indexRule c' m base idx := by
  unfold Check.indexRule
  simp only [h.intValue?]

theorem fillFields (pos : Position) (given : List (String × Part)) (fields : List Field) :
    Check.fillFields c pos given fields = Check.fillFields c' pos given fields := by
  induction fields with
  | nil => rfl
  | cons f rest ih =>
    unfold Check.fillFields
    simp only [h.coerce, ih]

theorem structRule (m : Mark) (given : List (String × Part)) (hint : Option Ty) :
    Check.structRule c m given hint = Check.structRule c' m given hint := by
  unfold Check.structRule
  simp only [h.demand_layout, h.fillFields]

theorem arrayRule (m : Mark) (ps : List Part) (hint : Option Ty) :
    Check.arrayRule c m ps hint = Check.arrayRule c' m ps hint := by
  unfold Check.arrayRule
  simp only [h.coerce]

theorem castRule (m : Mark) (type : TypeExpr) (p : Part) :
    Check.castRule c m type p = Check.castRule c' m type p := by
  unfold Check.castRule
  simp only [h.demand_resolve]

theorem callRule (m : Mark) (callee : Expr) (args : List Part) :
    Check.callRule c m callee args = Check.callRule c' m callee args := by
  unfold Check.callRule
  simp only [h.symbols.funcs, h.symbols.alike.kind, h.coerce]

/-! ## Expressions and statements -/

/-- By the form of the expression: each rule asks only what both contexts agree on. -/
theorem expr (e : Expr) : Check.expr c e = Check.expr c' e := by
  induction e using Expr.by_children with
  | h e ih =>
    -- Lists of operands are checked alike if the operands are.
    have hparts : ∀ es : List Expr, (∀ e ∈ es, Check.expr c e = Check.expr c' e) →
        parts c es = parts c' es := by
      intro es hes
      induction es with
      | nil => rfl
      | cons e es ihes =>
        obtain ⟨he, hes⟩ := forall_mem_cons.1 hes
        rw [parts, parts, he, ihes hes]
    have hfields : ∀ fs : List (String × Expr), (∀ e ∈ fs.map (·.2), Check.expr c e = Check.expr c' e) →
        fieldParts c fs = fieldParts c' fs := by
      intro fs hfs
      induction fs with
      | nil => rfl
      | cons f fs ihfs =>
        obtain ⟨hf, hfs⟩ := forall_mem_cons.1 hfs
        rw [fieldParts, fieldParts, hf, ihfs hfs]
    funext hint
    cases e with
    | intLit | boolLit | charLit | strLit | nil | zeroed | enumLit => rfl
    | ident m x => exact h.identRule m x hint
    | sizeof m type => exact h.sizeofRule m type hint
    | binary m op l r =>
      rw [Check.expr, Check.expr, ih l mem_cons_self,
        ih r (mem_cons_of_mem _ mem_cons_self), h.binaryRule]
    | unary m op e =>
      have he := ih e mem_cons_self
      cases op with
      | neg => rw [Check.expr, Check.expr, he, h.negRule]
      | not => rw [Check.expr, Check.expr, he]
    | addrOf m e | deref m e => rw [Check.expr, Check.expr, ih e mem_cons_self]
    | call m callee args => rw [Check.expr, Check.expr, hparts args ih, h.callRule]
    | member m e x => rw [Check.expr, Check.expr, ih e mem_cons_self, h.memberRule]
    | index m e i =>
      rw [Check.expr, Check.expr, ih e mem_cons_self,
        ih i (mem_cons_of_mem _ mem_cons_self), h.indexRule]
    | structLit m fields =>
      rw [Check.expr, Check.expr, hfields fields ih, h.structRule]
    | arrayLit m es => rw [Check.expr, Check.expr, hparts es ih, h.arrayRule]
    | cast m type e => rw [Check.expr, Check.expr, ih e mem_cons_self, h.castRule]
    | builtin m b args => rw [Check.expr, Check.expr, hparts args ih]

theorem part (e : Expr) : Check.part c e = Check.part c' e := by
  unfold Check.part
  rw [h.expr]

theorem condition (e : Expr) : Check.condition c e = Check.condition c' e := by
  unfold Check.condition
  rw [h.expr]

theorem inferInt (p : Part) (bits : Nat) (decl : Position) :
    Check.inferInt c p bits decl = Check.inferInt c' p bits decl := by
  unfold Check.inferInt
  simp only [h.partIsOpen, h.intValue?, h.coerce, h.signed]

theorem varDecl (pos : Position) (d : VarDecl) : Check.varDecl c pos d = Check.varDecl c' pos d := by
  unfold Check.varDecl Check.initialise
  simp only [h.demand_resolve, h.demand_sizeOf, h.expr, h.part, h.inferInt, h.coerce, h.value?]

theorem target (e : Expr) : Check.target c e = Check.target c' e := by
  unfold Check.target
  simp only [h.symbols.alike.kind, h.expr]

theorem assignStmt (pos : Position) (l r : Expr) :
    Check.assignStmt c pos l r = Check.assignStmt c' pos l r := by
  unfold Check.assignStmt
  simp only [h.target, h.part, h.coerce]

theorem retStmt (pos : Position) (e : Option Expr) : Check.retStmt c pos e = Check.retStmt c' pos e := by
  unfold Check.retStmt
  simp only [h.ret, h.expr, h.part, h.coerce]

theorem counter (pos : Position) (init : Option (String × Expr)) :
    Check.counter c pos init = Check.counter c' pos init := by
  unfold Check.counter
  simp only [h.part, h.inferInt]

end Context.Same

mutual

/-- Statements are checked alike, by recursion on the statement. -/
theorem Context.Same.stmt (h : c.Same c') (s : Stmt) : Check.stmt c s = Check.stmt c' s := by
  match s with
  | .block pos body => rw [Check.stmt, Check.stmt, Context.Same.stmts h body]
  | .expr pos e =>
    rw [Check.stmt, Check.stmt]
    unfold exprStmt
    rw [h.expr]
  | .assign pos l r => rw [Check.stmt, Check.stmt, h.assignStmt]
  | .var pos d => rw [Check.stmt, Check.stmt, h.varDecl]
  | .cond pos test yes no =>
    rw [Check.stmt, Check.stmt, h.condition, Context.Same.stmt h yes, Context.Same.optional h no]
  | .loop pos init test post body =>
    rw [Check.stmt, Check.stmt, h.counter, h.condition, Context.Same.stmt h body,
      Context.Same.optional h post]
  | .ret pos e => rw [Check.stmt, Check.stmt, h.retStmt]
  | .brk pos | .cont pos => rfl

theorem Context.Same.optional (h : c.Same c') (s : Option Stmt) :
    Check.optional c s = Check.optional c' s := by
  match s with
  | none => rfl
  | some s => rw [Check.optional, Check.optional, Context.Same.stmt h s]

theorem Context.Same.stmts (h : c.Same c') (ss : List Stmt) : Check.stmts c ss = Check.stmts c' ss := by
  match ss with
  | [] => rfl
  | s :: rest =>
    rw [Check.stmts, Check.stmts, Context.Same.stmt h s, Context.Same.stmts h rest]

end

end

/-! ## Definitions -/

section

variable {t t' : Symbols} (h : t.Settled t')

include h

/-- A pass starts from the same frame in both tables and goes the same way. -/
theorem pass_congr (sig : Signature) (signed : List Position) (body : List Stmt) :
    pass t sig signed body = pass t' sig signed body := by
  have hsame : (Context.mk t sig.ret signed).Same ⟨t', sig.ret, signed⟩ := ⟨h, rfl, rfl⟩
  have hsize : ∀ ty, t.ask (t.names.sizeOf ty) = t'.ask (t'.names.sizeOf ty) := by
    intro ty
    exact (h.names.sizeOf (Symbols.relation_agrees _ _) ty).ask
  have hstart : Scope.start t sig = Scope.start t' sig := by
    unfold Scope.start
    simp only [hsize]
  unfold pass
  rw [hsame.stmts, hstart]

/-- All passes are the same, since each learns the same from the one before it. -/
theorem passes_congr (sig : Signature) (body : List Stmt) (n : Nat) (signed : List Position) :
    passes t sig body n signed = passes t' sig body n signed := by
  induction n generalizing signed with
  | zero =>
    unfold passes
    rw [pass_congr h]
  | succ n ih =>
    unfold passes
    simp only [pass_congr h, ih]

/-- A definition is checked in the same way with both tables. -/
theorem definition_eq (d : Def) : definition t d = definition t' d := by
  unfold definition
  simp only [h.funcs, passes_congr h]

end

end Check

end Sigil
