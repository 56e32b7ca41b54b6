import Sigil.Parse.Program
import Sigil.Proofs.Laws.Trees
import Sigil.Proofs.Parsing.Steps

/-!
# The grammar in step

Every rule of the grammar is in step with itself over parsers for what is nested in it that are in step. A
rule reads a token before it comes to anything nested, so parsers bounded by different depths are in step as
long as both depths are at least the number of visible tokens, and so is every parser with itself.

What is read from tokens stands at their places: a node of a tree is at the place of a token that has been read
or comes next, and so is an error. The grammar leaves the types of expressions open, and it has two widths of
integers (`Def.Read`).
-/

namespace Sigil

open List Stmt

/-! ## What is read -/

section

variable (P : Position → Prop)

/-- The node stands at a place with the property, and it has no type yet. -/
structure Expr.Raw (n : Expr) : Prop where
  pos : P n.pos
  ty : n.ty = none

/-- No expression has a type yet. -/
def Expr.Unchecked (e : Expr) : Prop :=
  e.All fun n => n.ty = none

/-- The type can be written: an integer type has one of two widths. -/
def TypeExpr.Written : TypeExpr → Prop
  | .int bits _ => bits = 64 ∨ bits = 16
  | _ => True

/-- The types of the parameters can be written, and everything in the body stands at places with the property
and has no type yet. -/
structure Func.Read (f : Func) : Prop where
  params : ∀ p ∈ f.params, p.2.Written
  body : Stmt.AllOver P (Expr.All (Expr.Raw P)) f.body

/-- The definition stands at a place with the property, and it may be a function that has been read. -/
structure Def.Read (d : Def) : Prop where
  pos : P d.pos
  body : ∀ f, d.body = .func f → f.Read P

/-- The expression stands at such places and has no type yet. -/
abbrev Expr.Read (e : Expr) : Prop :=
  e.All (Expr.Raw P)

/-- The statement stands at such places, and no expression in it has a type yet. -/
abbrev Stmt.Read (s : Stmt) : Prop :=
  s.Over P (Expr.Read P)

end

namespace Parser

variable {P : Position → Prop} {ts : List Token} {n : Nat}
variable {α : Type} {Q : α → Prop}

/-- The parsers for nested parts are in step where fewer than the given number of tokens are visible. -/
structure Nested.InStep (P : Position → Prop) (n : Nat) (g g' : Nested) : Prop where
  expr : ∀ ts : List Token, ts.length < n → Parser.InStep P ts 1 (Expr.Read P) g.expr g'.expr
  operand : ∀ ts : List Token, ts.length < n → Parser.InStep P ts 1 (Expr.Read P) g.operand g'.operand
  type : ∀ ts : List Token, ts.length < n → Parser.InStep P ts 1 TypeExpr.Written g.type g'.type

section

variable {g g' : Nested}

theorem Nested.InStep.mono {m : Nat} (hg : Nested.InStep P n g g') (hm : m ≤ n) : Nested.InStep P m g g' :=
  ⟨fun ts h => hg.expr ts (by omega), fun ts h => hg.operand ts (by omega),
    fun ts h => hg.type ts (by omega)⟩

theorem Nested.inStep_zero : Nested.InStep P 0 g g' :=
  ⟨fun _ h => absurd h (Nat.not_lt_zero _), fun _ h => absurd h (Nat.not_lt_zero _),
    fun _ h => absurd h (Nat.not_lt_zero _)⟩

/-! ## Types -/

theorem inStep_signMark : InStep P ts 0 (fun _ => True) signMark signMark :=
  inStep_takeSymbol (Nat.zero_le 1) (fun _ _ => inStep_pure trivial)
    (inStep_takeSymbol (Nat.zero_le 1) (fun _ _ => inStep_pure trivial) (inStep_pure trivial))

/-- A type that is read has one of the two widths if it is an integer type. -/
theorem inStep_typeRule (hg : Nested.InStep P ts.length g g') :
    InStep P ts 1 TypeExpr.Written (typeRule g) (typeRule g') := by
  refine (inStep_expect _ _).first fun t ts1 h1 _ => ?_
  split
  · exact inStep_signMark.map fun _ _ => Or.inl rfl
  · exact inStep_signMark.map fun _ _ => Or.inr rfl
  · exact inStep_pure trivial
  · exact inStep_pure trivial
  · exact inStep_pure trivial
  · exact inStep_pure trivial
  · exact inStep_pure trivial
  · exact (hg.type ts1 h1).bind fun _ _ _ _ => inStep_pure trivial
  · refine (hg.expr ts1 h1).bind fun length ts2 h2 _ => ?_
    refine (inStep_expectSymbol _).bind fun _ ts3 h3 _ => ?_
    exact (hg.type ts3 (by omega)).bind fun _ _ _ _ => inStep_pure trivial

/-! ## Primary expressions -/

theorem inStep_fieldRule (hg : Nested.InStep P n g g') (hts : ts.length < n) :
    InStep P ts 1 (fun f => f.2.Read P) (fieldRule g) (fieldRule g') := by
  refine inStep_name.first fun x ts1 h1 _ => ?_
  refine (inStep_expectSymbol _).bind fun _ ts2 h2 _ => ?_
  exact (hg.expr ts2 (by omega)).bind fun _ _ _ he => inStep_pure he

/-- Elements between commas, each of which has fewer than the given number of tokens before it. -/
theorem inStep_listed {β : Type} {R : β → Prop} {elem elem' : Parser α} (close : Symbol)
    (helem : ∀ ts' : List Token, ts'.length < n → InStep P ts' 1 Q elem elem') (hts : ts.length < n)
    {f : List α → β} (hf : ∀ as, (∀ a ∈ as, Q a) → R (f as)) :
    InStep P ts 0 R (do let elems ← commaList close elem; let _ ← expectSymbol close; return f elems)
      (do let elems ← commaList close elem'; let _ ← expectSymbol close; return f elems) :=
  (inStep_commaList fun ts' h' => helem ts' (by omega)).endedBy close hf

theorem inStep_argsRule (hg : Nested.InStep P n g g') (hts : ts.length < n) :
    InStep P ts 0 (fun es => ∀ e ∈ es, e.Read P) (argsRule g) (argsRule g') :=
  inStep_listed .rightParen hg.expr hts (f := id) fun _ hargs => hargs

/-- A cast and a size take types, and all other builtins take arguments. -/
theorem inStep_builtinRule (hg : Nested.InStep P n g g') (hts : ts.length < n) {pos : Position} (hpos : P pos)
    (x : String) :
    InStep P ts 0 (Expr.Read P) (builtinRule g (unchecked pos) x) (builtinRule g' (unchecked pos) x) := by
  unfold builtinRule
  split
  · refine (inStep_expectSymbol _).bind fun _ ts1 h1 _ => ?_
    refine (hg.type ts1 (by omega)).bind fun target ts2 h2 _ => ?_
    refine (inStep_expectSymbol _).bind fun _ ts3 h3 _ => ?_
    refine (inStep_expectSymbol _).bind fun _ ts4 h4 _ => ?_
    exact (hg.expr ts4 (by omega)).zero.endedBy _ fun _ he =>
      Expr.all_one ⟨hpos, rfl⟩ rfl he
  · split
    · refine (inStep_expectSymbol _).bind fun _ ts1 h1 _ => ?_
      exact (hg.type ts1 (by omega)).zero.endedBy _ fun _ _ =>
        Expr.all_leaf ⟨hpos, rfl⟩ rfl
    · split
      · exact inStep_failAt hpos _
      · refine (inStep_expectSymbol _).bind fun _ ts1 h1 _ => ?_
        exact (inStep_argsRule hg (by omega)).map fun _ hargs => Expr.all_many ⟨hpos, rfl⟩ rfl hargs

/-- The first token of a primary expression tells what is nested in it, if anything. -/
theorem inStep_primaryTail (hg : Nested.InStep P n g g') (hts : ts.length < n) {pos : Position} (hpos : P pos)
    (kind : TokenKind) :
    InStep P ts 0 (Expr.Read P) (primaryTail g (unchecked pos) kind) (primaryTail g' (unchecked pos) kind) := by
  have leaf : ∀ {e : Expr}, e.pos = pos → e.ty = none → e.children = [] →
      InStep P ts 0 (Expr.Read P) (pure e) (pure e) :=
    fun hp hty hchildren => inStep_pure (Expr.all_leaf ⟨hp ▸ hpos, hty⟩ hchildren)
  have elements := inStep_listed .rightBracket hg.expr hts (f := Expr.arrayLit (unchecked pos)) fun _ hes =>
    Expr.all_many ⟨hpos, rfl⟩ rfl hes
  cases kind with
  | number | char | text | ident => exact leaf rfl rfl rfl
  | builtin x => exact inStep_builtinRule hg hts hpos x
  | keyword w =>
    cases w with
    | true_ | false_ | nil => exact leaf rfl rfl rfl
    | _ => exact elements
  | symbol y =>
    cases y with
    | leftParen => exact (hg.expr ts hts).zero.endedBy _ (f := id) fun _ he => he
    | leftBrace =>
      refine inStep_listed _ (fun ts' h' => inStep_fieldRule hg h') hts fun fields hfields => ?_
      exact Expr.all_many ⟨hpos, rfl⟩ rfl (forall_mem_map.2 hfields)
    | _ => exact elements
  | _ => exact elements

theorem inStep_primaryRule (hg : Nested.InStep P ts.length g g') :
    InStep P ts 1 (Expr.Read P) (primaryRule g) (primaryRule g') := by
  refine inStep_here.bind fun pos ts1 h1 hpos => ?_
  refine (inStep_expect _ _).first fun t ts2 h2 _ => ?_
  exact inStep_primaryTail hg (by omega) hpos _

/-! ## Operators -/

theorem idles_suffixes (e : Expr) : Idles e (suffixes g n e) := by
  cases n with
  | zero => exact idles_pure e
  | succ n =>
    unfold suffixes
    refine idles_here fun pos => ?_
    exact idles_takeSymbol (idles_takeSymbol (idles_takeSymbol (idles_takeSymbol (idles_pure e))))

/-- A round reads one suffix. -/
theorem inStep_suffixes (hg : Nested.InStep P n g g') (hts : ts.length < n) {i j : Nat}
    (hi : ts.length ≤ i) (hj : ts.length ≤ j) {e : Expr} (he : e.Read P) :
    InStep P ts 0 (Expr.Read P) (suffixes g i e) (suffixes g' j e) := by
  refine inStep_rounds (f := suffixes g) (g := suffixes g')
    (fun i j e he => (idles_suffixes e).inStep (idles_suffixes e) he)
    (fun ts0 i j e h0 he ih => ?_) (Nat.le_sub_one_of_lt hts) hi hj e he
  unfold suffixes
  refine inStep_here.bind fun pos ts1 h1 hpos => ?_
  refine inStep_takeSymbol (Nat.zero_le 1) (fun ts2 h2 => ?_) ?_
  · refine (inStep_argsRule hg (by omega)).bind fun args ts3 h3 hargs => ?_
    exact ih ts3 _ (by omega) (Expr.all_many ⟨hpos, rfl⟩ rfl hargs)
  refine inStep_takeSymbol (Nat.zero_le 1) (fun ts2 h2 => ?_) ?_
  · refine (hg.expr ts2 (by omega)).bind fun index ts3 h3 hindex => ?_
    refine (inStep_expectSymbol _).bind fun _ ts4 h4 _ => ?_
    exact ih ts4 _ (by omega) (Expr.all_two ⟨hpos, rfl⟩ rfl he hindex)
  have one : ∀ {e' : Expr}, e'.pos = pos → e'.ty = none → e'.children = [e] → e'.Read P :=
    fun hp hty hchildren => Expr.all_one ⟨hp ▸ hpos, hty⟩ hchildren he
  refine inStep_takeSymbol (Nat.zero_le 1) (fun ts2 h2 => ?_) ?_
  · refine inStep_name.bind fun x ts3 h3 _ => ?_
    exact ih ts3 _ (by omega) (one rfl rfl rfl)
  refine inStep_takeSymbol (Nat.zero_le 1) (fun ts2 h2 => ?_) (inStep_pure he)
  exact ih ts2 _ (by omega) (one rfl rfl rfl)

/-- An operand is a prefix operator before an operand, or a primary expression with its suffixes. -/
theorem inStep_operandRule (hg : Nested.InStep P ts.length g g') :
    InStep P ts 1 (Expr.Read P) (operandRule g) (operandRule g') := by
  refine inStep_here.bind fun pos ts1 h1 hpos => ?_
  have nested : ∀ {f : Expr → Expr}, (∀ e, e.Read P → (f e).Read P) → ∀ ts2 : List Token,
      ts2.length < ts1.length →
        InStep P ts2 0 (Expr.Read P) (g.operand >>= fun e => pure (f e)) (g'.operand >>= fun e => pure (f e)) := by
    intro f hf ts2 h2
    exact (hg.operand ts2 (by omega)).bind fun e _ _ he => inStep_pure (hf e he)
  refine inStep_takeSymbol (Nat.le_refl 1) (nested fun _ he => Expr.all_one ⟨hpos, rfl⟩ rfl he) ?_
  refine inStep_takeSymbol (Nat.le_refl 1) (nested fun _ he => Expr.all_one ⟨hpos, rfl⟩ rfl he) ?_
  refine inStep_takeSymbol (Nat.le_refl 1) (nested fun _ he => Expr.all_one ⟨hpos, rfl⟩ rfl he) ?_
  refine (inStep_primaryRule (hg.mono h1)).first fun e ts2 h2 he => ?_
  exact inStep_remaining fun i j hi hj => inStep_suffixes hg (by omega) hi hj he

theorem idles_chain (op? : Symbol → Option BinOp) (operand : Parser Expr) (left : Expr) :
    Idles left (chain.go op? operand n left) := by
  cases n with
  | zero => exact idles_pure left
  | succ n => exact idles_peek (idles_pure left)

section

variable {op? : Symbol → Option BinOp} {operand operand' : Parser Expr}

/-- A round reads one operator and the operand behind it. -/
theorem inStep_chain_go
    (hop : ∀ ts' : List Token, ts'.length ≤ ts.length → InStep P ts' 1 (Expr.Read P) operand operand')
    {i j : Nat} (hi : ts.length ≤ i) (hj : ts.length ≤ j) {left : Expr} (hleft : left.Read P) :
    InStep P ts 0 (Expr.Read P) (chain.go op? operand i left) (chain.go op? operand' j left) := by
  refine inStep_rounds (f := chain.go op? operand) (g := chain.go op? operand')
    (fun i j left h => (idles_chain op? operand left).inStep (idles_chain op? operand' left) h)
    (fun ts0 i j left h0 hleft ih => ?_) (Nat.le_refl _) hi hj left hleft
  unfold chain.go
  refine inStep_of_places fun hts => inStep_peek ?_
  split
  · next t hhead ht =>
    cases ts0 with
    | nil => cases ht
    | cons t ts1 =>
      cases ht
      rw [length_cons] at h0
      split
      · refine InStep.zero (inStep_next ?_)
        refine (hop ts1 (by omega)).bind fun right ts2 h2 hright => ?_
        refine ih ts2 _ ?_ (Expr.all_two ⟨hts _ mem_cons_self, rfl⟩ rfl hleft hright)
        rw [length_cons]
        omega
      · exact inStep_pure hleft
  · exact inStep_pure hleft

theorem inStep_chain
    (hop : ∀ ts' : List Token, ts'.length ≤ ts.length → InStep P ts' 1 (Expr.Read P) operand operand') :
    InStep P ts 1 (Expr.Read P) (chain op? operand) (chain op? operand') := by
  refine (hop ts (Nat.le_refl _)).first fun left ts1 h1 hleft => ?_
  exact inStep_remaining fun i j hi hj => inStep_chain_go (fun ts' h' => hop ts' (by omega)) hi hj hleft

end

theorem inStep_exprRule (hg : Nested.InStep P ts.length g g') :
    InStep P ts 1 (Expr.Read P) (exprRule g) (exprRule g') := by
  unfold exprRule andRule compareRule sumRule productRule
  refine inStep_chain fun ts1 h1 => inStep_chain fun ts2 h2 => inStep_chain fun ts3 h3 => ?_
  refine inStep_chain fun ts4 h4 => inStep_chain fun ts5 h5 => ?_
  exact inStep_operandRule (hg.mono (by omega))

end

/-! ## The knot -/

/-- The rules nested so deep, over the given parsers. -/
def Nested.deepened (g : Nested) : Nat → Nested
  | 0 => g
  | n + 1 => ⟨exprRule (g.deepened n), operandRule (g.deepened n), typeRule (g.deepened n)⟩

theorem Nested.ofDepth_eq (n : Nat) : Nested.ofDepth n = (Nested.ofDepth 0).deepened n := by
  induction n with
  | zero => rfl
  | succ n ih =>
    rw [Nested.deepened, ← ih]
    rfl

/-- Each level takes a token, so with as many levels as tokens none is left for what is below. -/
theorem inStep_deepened {g g' : Nested} {i j : Nat} (hi : n ≤ i) (hj : n ≤ j) :
    Nested.InStep P n (g.deepened i) (g'.deepened j) := by
  induction i generalizing n j with
  | zero =>
    obtain rfl := Nat.le_zero.1 hi
    exact Nested.inStep_zero
  | succ i ih =>
    cases j with
    | zero =>
      obtain rfl := Nat.le_zero.1 hj
      exact Nested.inStep_zero
    | succ j =>
      exact ⟨fun ts h => inStep_exprRule (ih (by omega) (by omega)),
        fun ts h => inStep_operandRule (ih (by omega) (by omega)),
        fun ts h => inStep_typeRule (ih (by omega) (by omega))⟩

theorem inStep_ofDepth {i j : Nat} (hi : n ≤ i) (hj : n ≤ j) :
    Nested.InStep P n (Nested.ofDepth i) (Nested.ofDepth j) := by
  rw [Nested.ofDepth_eq i, Nested.ofDepth_eq j]
  exact inStep_deepened hi hj

theorem inStep_expr : InStep P ts 1 (Expr.Read P) expr expr :=
  inStep_remaining fun _ _ hi hj => inStep_exprRule (inStep_ofDepth hi hj)

theorem inStep_typeExpr : InStep P ts 1 TypeExpr.Written typeExpr typeExpr :=
  inStep_remaining fun _ _ hi hj => inStep_typeRule (inStep_ofDepth hi hj)

/-! ## Statements -/

section

variable {pos : Position}

/-- An assignment with an operator reads its target twice, both times at the place of the target. -/
theorem inStep_assign (hpos : P pos) {opPos : Position} (hop : P opPos) {left right : Expr}
    (hleft : left.Read P) (hright : right.Read P) (op : Option BinOp) {x : Parser Stmt}
    (hx : x = match op with
      | none => pure (.assign pos left right)
      | some op => pure (.assign pos left (.binary (unchecked opPos) op left right))) :
    InStep P ts 0 (Read P) x x := by
  have hassign : ∀ {right : Expr}, right.Read P → (assign pos left right).Read P :=
    fun hright => over_of_roots hpos rfl
      (forall_mem_cons.2 ⟨hleft, forall_mem_singleton.2 hright⟩)
  cases op with
  | none => exact hx ▸ inStep_pure (hassign hright)
  | some op => exact hx ▸ inStep_pure (hassign (Expr.all_two ⟨hop, rfl⟩ rfl hleft hright))

/-- In a compound assignment, the operation stands at the place of the operator. -/
theorem inStep_simple : InStep P ts 1 (Read P) simple simple := by
  refine inStep_here.bind fun pos ts1 h1 hpos => ?_
  refine inStep_expr.first fun left ts2 h2 hleft => inStep_of_places fun hts => inStep_peek ?_
  have hexpr : (Stmt.expr pos left).Read P :=
    over_of_roots hpos rfl (forall_mem_singleton.2 hleft)
  cases ts2 with
  | nil => exact inStep_pure hexpr
  | cons t ts2 =>
    have hop := hts t mem_cons_self
    split
    · next opSymbol opPos ht =>
      cases ht
      split
      · exact inStep_pure hexpr
      · refine InStep.zero (inStep_next ?_)
        dsimp only
        split
        · exact inStep_failAt hleft.self.pos _
        · -- What comes behind the operator is a one, or is read.
          split
          · have hone : (Expr.intLit (unchecked opPos) 1).Read P := Expr.all_leaf ⟨hop, rfl⟩ rfl
            exact inStep_assign hpos hop hleft hone _ rfl
          · refine inStep_expr.bind fun right _ _ hright => ?_
            exact inStep_assign hpos hop hleft hright _ rfl
    · exact inStep_pure hexpr

theorem inStep_assignSign : InStep P ts 1 (fun _ => True) assignSign assignSign :=
  inStep_expect _ _

theorem inStep_haveRule (hpos : P pos) : InStep P ts 0 (Read P) (haveRule pos) (haveRule pos) := by
  refine inStep_name.bind fun x _ _ _ => ?_
  refine (inStep_expectSymbol _).bind fun _ _ _ _ => ?_
  refine inStep_typeExpr.bind fun type _ _ _ => ?_
  refine inStep_takeSymbol (Nat.zero_le 1) (fun _ _ => ?_) ?_
  · exact inStep_expr.zero.endedBy _ fun _ he =>
      over_of_roots hpos rfl (forall_mem_singleton.2 he)
  · exact (inStep_expectSymbol _).zero.map fun _ _ => over_of_roots hpos rfl (forall_mem_nil _)

theorem inStep_constRule (hpos : P pos) : InStep P ts 0 (Read P) (constRule pos) (constRule pos) := by
  have hinit : ∀ x type ts, InStep P ts 0 (Read P)
      (do let init ← expr; let _ ← expectSymbol .semicolon; return .var pos ⟨x, type, some init, false, none⟩)
      (do let init ← expr; let _ ← expectSymbol .semicolon; return .var pos ⟨x, type, some init, false, none⟩) :=
    fun x type ts => inStep_expr.zero.endedBy _ fun _ he =>
      over_of_roots hpos rfl (forall_mem_singleton.2 he)
  refine inStep_name.bind fun x _ _ _ => ?_
  refine inStep_takeSymbol (Nat.zero_le 1) (fun _ _ => ?_) ?_
  · refine inStep_typeExpr.bind fun type _ _ _ => ?_
    exact inStep_assignSign.bind fun _ _ _ _ => hinit x _ _
  · exact (inStep_expectSymbol _).bind fun _ _ _ _ => hinit x _ _

/-- What a loop starts with holds expressions that have been read. -/
theorem inStep_loopHead :
    InStep P ts 1 (fun r => (∀ e ∈ r.1.toList.map (·.2), e.Read P) ∧ r.2.Read P) loopHead loopHead := by
  refine inStep_expr.first fun first ts1 h1 hfirst => ?_
  refine inStep_takeSymbol (Nat.zero_le 1) (fun _ _ => ?_) (inStep_pure ⟨forall_mem_nil _, hfirst⟩)
  simp only [↓reduceIte]
  split
  · refine inStep_expr.bind fun value _ _ hvalue => ?_
    refine (inStep_expectSymbol _).bind fun _ _ _ _ => ?_
    exact inStep_expr.zero.map fun _ htest => ⟨forall_mem_singleton.2 hvalue, htest⟩
  · exact inStep_failAt hfirst.self.pos _

theorem inStep_returnRule (hpos : P pos) : InStep P ts 0 (Read P) (returnRule pos) (returnRule pos) := by
  refine (inStep_check _).bind fun bare _ _ _ => ?_
  split
  · exact (inStep_expectSymbol _).zero.map fun _ _ => over_of_roots hpos rfl (forall_mem_nil _)
  · exact inStep_expr.zero.endedBy _ fun _ he =>
      over_of_roots hpos rfl (forall_mem_singleton.2 he)

variable {stmt stmt' : Parser Stmt}

theorem inStep_blockRule
    (hstmt : ∀ ts' : List Token, ts'.length < ts.length → InStep P ts' 1 (Read P) stmt stmt') :
    InStep P ts 1 (AllOver P (Expr.Read P)) (blockRule stmt) (blockRule stmt') := by
  refine (inStep_expectSymbol _).first fun _ ts1 h1 _ => ?_
  exact (inStep_manyUntil fun ts' h' => hstmt ts' (by omega)).endedBy _ (f := id) fun _ hbody =>
    allOver_of_forall hbody

/-- A condition has a test, a branch, and another branch that may be missing. -/
theorem inStep_ifRule
    (hstmt : ∀ ts' : List Token, ts'.length ≤ ts.length → InStep P ts' 1 (Read P) stmt stmt')
    (hpos : P pos) : InStep P ts 0 (Read P) (ifRule stmt pos) (ifRule stmt' pos) := by
  refine (inStep_expectSymbol _).bind fun _ ts1 h1 _ => ?_
  refine inStep_expr.bind fun test ts2 h2 htest => ?_
  refine (inStep_expectSymbol _).bind fun _ ts3 h3 _ => ?_
  refine (hstmt ts3 (by omega)).bind fun yes ts4 h4 hyes => ?_
  refine inStep_takeKeyword (Nat.zero_le 1) (fun ts5 h5 => ?_) ?_
  · exact (hstmt ts5 (by omega)).zero.map fun _ hno => over_cond hpos htest hyes hno
  · exact inStep_pure (over_cond hpos htest hyes optionOver_none)

/-- A loop has a head, a step that may be missing, and a body. -/
theorem inStep_loopRule
    (hstmt : ∀ ts' : List Token, ts'.length ≤ ts.length → InStep P ts' 1 (Read P) stmt stmt')
    (hpos : P pos) : InStep P ts 0 (Read P) (loopRule stmt pos) (loopRule stmt' pos) := by
  refine (inStep_expectSymbol _).bind fun _ ts1 h1 _ => ?_
  refine inStep_loopHead.bind fun head ts2 h2 hhead => ?_
  refine (inStep_expectSymbol _).bind fun _ ts3 h3 _ => ?_
  have hbody : ∀ {post : Option Stmt}, OptionOver P (Expr.Read P) post → ∀ ts' : List Token,
      ts'.length ≤ ts.length → InStep P ts' 0 (Read P)
        (do return .loop pos head.1 head.2 post (← stmt)) (do return .loop pos head.1 head.2 post (← stmt')) :=
    fun hpost ts' h' => (hstmt ts' h').zero.map fun _ hbody =>
      over_loop hpos hhead.1 hhead.2 hpost hbody
  refine inStep_takeSymbol (Nat.zero_le 1) (fun ts4 h4 => ?_) (hbody optionOver_none ts3 (by omega))
  refine (inStep_expectSymbol _).bind fun _ ts5 h5 _ => ?_
  refine inStep_simple.bind fun post ts6 h6 hpost => ?_
  refine (inStep_expectSymbol _).bind fun _ ts7 h7 _ => ?_
  have hsome : OptionOver P (Expr.Read P) (some post) := hpost
  exact hbody hsome ts7 (by omega)

/-- Which statement it is depends on the first token. -/
theorem inStep_statementRule
    (hstmt : ∀ ts' : List Token, ts'.length < ts.length → InStep P ts' 1 (Read P) stmt stmt') :
    InStep P ts 1 (Read P) (statementRule stmt) (statementRule stmt') := by
  -- The first token is only looked at: a block and an expression read it themselves.
  refine inStep_here.bind fun pos ts1 h1 hpos => inStep_peek ?_
  have hjump : ∀ {s : Stmt}, s.pos = pos → s.places = [s.pos] → s.roots = [] → s.Read P :=
    fun hp hplaces hroots => over_of_roots (hp ▸ hpos) hplaces (hroots ▸ forall_mem_nil _)
  cases ts1 with
  | nil => exact inStep_failAt hpos _
  | cons t ts1 =>
    rw [length_cons] at h1
    have nested : ∀ ts' : List Token, ts'.length ≤ ts1.length → InStep P ts' 1 (Read P) stmt stmt' :=
      fun ts' h' => hstmt ts' (by omega)
    simp only [head?_cons]
    split
    · refine (inStep_blockRule fun ts' h' => nested ts' ?_).map fun _ hbody => over_block hpos hbody
      rw [length_cons] at h'
      omega
    · exact inStep_next (inStep_haveRule hpos)
    · exact inStep_next (inStep_constRule hpos)
    · exact inStep_next (inStep_ifRule nested hpos)
    · exact inStep_next (inStep_loopRule nested hpos)
    · exact inStep_next (inStep_returnRule hpos)
    · exact inStep_next ((inStep_expectSymbol _).zero.map fun _ _ => hjump rfl rfl rfl)
    · exact inStep_next ((inStep_expectSymbol _).zero.map fun _ _ => hjump rfl rfl rfl)
    · exact inStep_simple.endedBy _ (f := id) fun _ hs => hs

end

/-- The rule for statements nested so deep, over the given parser. -/
def statementDeepened (stmt : Parser Stmt) : Nat → Parser Stmt
  | 0 => stmt
  | n + 1 => statementRule (statementDeepened stmt n)

theorem statementOfDepth_eq (n : Nat) : statementOfDepth n = statementDeepened (statementOfDepth 0) n := by
  induction n with
  | zero => rfl
  | succ n ih =>
    rw [statementDeepened, ← ih]
    rfl

/-- With more levels than tokens, it does not matter what stands below the last level. -/
theorem inStep_statementDeepened {stmt stmt' : Parser Stmt} {i j : Nat} (hi : ts.length < i)
    (hj : ts.length < j) :
    InStep P ts 1 (Read P) (statementDeepened stmt i) (statementDeepened stmt' j) := by
  induction i generalizing ts j with
  | zero => exact absurd hi (Nat.not_lt_zero _)
  | succ i ih =>
    cases j with
    | zero => exact absurd hj (Nat.not_lt_zero _)
    | succ j => exact inStep_statementRule fun ts' h' => ih (by omega) (by omega)

theorem inStep_statementOfDepth {i j : Nat} (hi : ts.length < i) (hj : ts.length < j) :
    InStep P ts 1 (Read P) (statementOfDepth i) (statementOfDepth j) := by
  rw [statementOfDepth_eq i, statementOfDepth_eq j]
  exact inStep_statementDeepened hi hj

theorem inStep_statement : InStep P ts 1 (Read P) statement statement := by
  refine inStep_remaining fun i j hi hj => inStep_statementRule fun ts' h' => ?_
  exact inStep_statementOfDepth (by omega) (by omega)

theorem inStep_block : InStep P ts 1 (AllOver P (Expr.Read P)) block block := by
  refine inStep_remaining fun i j hi hj => inStep_blockRule fun ts' h' => ?_
  exact inStep_statementOfDepth (by omega) (by omega)

/-! ## Definitions -/

theorem inStep_typedName : InStep P ts 1 (fun p => p.2.Written) typedName typedName := by
  refine inStep_name.first fun x _ _ _ => ?_
  refine (inStep_expectSymbol _).bind fun _ _ _ _ => ?_
  exact inStep_typeExpr.zero.map fun _ htype => htype

/-- A value after which a semicolon may stand. -/
theorem inStep_optional_semicolon {a : α} (ha : Q a) :
    InStep P ts 0 Q (do let _ ← takeSymbol .semicolon; return a) (do let _ ← takeSymbol .semicolon; return a) :=
  inStep_takeSymbol (Nat.zero_le 1) (fun _ _ => inStep_pure ha) (inStep_pure ha)

/-- The body of a definition may be a function that has been read. -/
def BodyRead (P : Position → Prop) (body : DefBody) : Prop :=
  ∀ f, body = .func f → f.Read P

/-- The types of the parameters can be written, and the body has been read. -/
theorem inStep_funcRule : InStep P ts 0 (BodyRead P) funcRule funcRule := by
  refine (inStep_expectSymbol _).bind fun _ _ _ _ => ?_
  refine (inStep_commaList fun _ _ => inStep_typedName).bind fun params _ _ hparams => ?_
  have hend : ∀ ret ts, InStep P ts 0 (BodyRead P)
      (do let body ← block; let _ ← takeSymbol .semicolon; return .func ⟨params, ret, body⟩)
      (do let body ← block; let _ ← takeSymbol .semicolon; return .func ⟨params, ret, body⟩) := by
    refine fun ret ts => inStep_block.bind fun body _ _ hbody => inStep_optional_semicolon ?_
    rintro f ⟨⟩
    exact ⟨hparams, hbody⟩
  refine (inStep_expectSymbol _).bind fun _ _ _ _ => ?_
  refine (inStep_check _).bind fun bare _ _ _ => ?_
  split
  · exact hend _ _
  · exact inStep_typeExpr.bind fun ret _ _ _ => hend ret _

theorem inStep_braced {item : Parser α}
    (hitem : ∀ ts' : List Token, InStep P ts' 1 Q item item) :
    InStep P ts 0 (fun _ => True) (braced item) (braced item) := by
  refine (inStep_expectSymbol _).bind fun _ _ _ _ => ?_
  refine (inStep_commaList fun ts' _ => hitem ts').bind fun items _ _ _ => ?_
  exact (inStep_expectSymbol _).bind fun _ _ _ _ => inStep_optional_semicolon trivial

theorem inStep_valueRule : InStep P ts 0 (BodyRead P) valueRule valueRule := by
  refine inStep_takeKeyword (Nat.zero_le 1) (fun _ _ => inStep_funcRule) ?_
  refine inStep_takeKeyword (Nat.zero_le 1) (fun _ _ => ?_) ?_
  · exact (inStep_braced fun _ => inStep_typedName).map fun _ _ _ hf => by cases hf
  refine inStep_takeKeyword (Nat.zero_le 1) (fun _ _ => ?_) ?_
  · exact (inStep_braced fun _ => inStep_name).map fun _ _ _ hf => by cases hf
  · exact inStep_expr.zero.endedBy _ fun _ _ _ hf => by cases hf

/-- A definition is read alike wherever its tokens are alike. -/
theorem inStep_definition : InStep P ts 1 (Def.Read P) definition definition := by
  refine (inStep_expect _ _).first fun _ _ _ _ => ?_
  refine inStep_here.bind fun pos _ _ hpos => ?_
  refine inStep_name.bind fun x _ _ _ => ?_
  refine inStep_takeSymbol (Nat.zero_le 1) (fun _ _ => ?_) ?_
  · refine inStep_typeExpr.bind fun type _ _ _ => ?_
    refine inStep_assignSign.bind fun _ _ _ _ => ?_
    exact inStep_expr.zero.endedBy _ fun _ _ => ⟨hpos, fun _ hf => by cases hf⟩
  · refine (inStep_expectSymbol _).bind fun _ _ _ _ => ?_
    exact inStep_valueRule.map fun body hbody => ⟨hpos, hbody⟩

end Parser

end Sigil
