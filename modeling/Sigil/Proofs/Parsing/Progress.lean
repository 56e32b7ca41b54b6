import Sigil.Proofs.Parsing.Programs

/-!
# Progress

No parser goes back in the tokens, and whatever is read takes at least one of them (`Parser.Advances`). So each
round of reading a program takes a token, whether it ends with a definition or with an error and recovery from
it, and the rounds come to an end without a bound on their number (`Parser.Rounds`).

The bounds in the definitions of the parsers are never what ends them. A repetition may run more often than there
are tokens without a difference (`Parser.Boundless`), and rules that are nested as deep as there are tokens do not
come to what is below them, whatever it is (`Parser.DepthEnough`).
-/

namespace Sigil.Parser

variable {α : Type} {c : Cursor}

/-! ## Reading takes tokens -/

/-- From the cursor on, tokens are dropped from the front only, and a success has read one that the grammar
sees. -/
structure Advances (x : Parser α) (c : Cursor) : Prop where
  suffix : (x c).2.tokens <:+ c.tokens
  visible : ∀ a, (x c).1 = .ok a → (x c).2.visible.length < c.visible.length
  tokens : ∀ a, (x c).1 = .ok a → (x c).2.tokens.length < c.tokens.length

/-- Where fewer tokens can be seen, there are fewer tokens. -/
theorem length_lt_of_visible {c' : Cursor} (hsuffix : c'.tokens <:+ c.tokens)
    (hvisible : c'.visible.length < c.visible.length) : c'.tokens.length < c.tokens.length := by
  refine Nat.lt_of_le_of_ne hsuffix.length_le fun hlength => ?_
  have hsame : c'.visible = c.visible := congrArg Token.visible (hsuffix.eq_of_length hlength)
  rw [hsame] at hvisible
  exact Nat.lt_irrefl _ hvisible

theorem advances_of_inStep {Q : α → Prop} {x : Parser α}
    (hx : ∀ ts : List Token, InStep (fun _ => True) ts 1 Q x x) (c : Cursor) : Advances x c := by
  have hends := hx c.visible c c rfl (.refl c) c.at_any
  have hvisible : ∀ a, (x c).1 = .ok a → (x c).2.visible.length < c.visible.length :=
    fun a ha => (hends.read a ha).1
  exact ⟨hends.suffix, hvisible, fun a ha => length_lt_of_visible hends.suffix (hvisible a ha)⟩

/-! ## Bounds on nesting -/

/-- Two ends of reading that look the same. -/
structure Agree (r r' : Except (Located ParseError) α × Cursor) : Prop where
  same : r.1 = r'.1
  alike : r.2.Alike r'.2

theorem agree_of_inStep {Q : α → Prop} {x y : Parser α} {k : Nat}
    (h : InStep (fun _ => True) c.visible k Q x y) : Agree (x c) (y c) := by
  have hends := h c c rfl (.refl c) c.at_any
  exact ⟨hends.same, hends.alike⟩

/-- From the cursor on, the rules nested so deep do what the parsers do, whatever parsers are below the rules. -/
structure DepthEnough (n : Nat) (c : Cursor) : Prop where
  type : ∀ g : Nested, Agree (typeRule (g.deepened n) c) (typeExpr c)
  expr : ∀ g : Nested, Agree (exprRule (g.deepened n) c) (expr c)
  statement : ∀ stmt, Agree (statementRule (statementDeepened stmt n) c) (statement c)
  block : ∀ stmt, Agree (blockRule (statementDeepened stmt n) c) (block c)

/-- A parser takes its depth from the cursor that it starts at. -/
theorem bind_remaining (f : Nat → Parser α) (c : Cursor) : (remaining >>= f) c = f c.tokens.length c := rfl

/-- Rules that are nested as deep as there are visible tokens do what the parsers do. -/
theorem depthEnough {n : Nat} (h : c.visible.length ≤ n) : DepthEnough n c := by
  have hnested : ∀ g : Nested,
      Nested.InStep (fun _ => True) c.visible.length (g.deepened n) (.ofDepth c.tokens.length) := by
    intro g
    rw [Nested.ofDepth_eq]
    exact inStep_deepened h c.length_visible_le
  have hstatement : ∀ stmt, ∀ ts : List Token, ts.length < c.visible.length →
      InStep (fun _ => True) ts 1 (Stmt.Read fun _ => True) (statementDeepened stmt n)
        (statementOfDepth c.tokens.length) := by
    intro stmt ts hts
    rw [statementOfDepth_eq]
    exact inStep_statementDeepened (by omega) (Nat.lt_of_lt_of_le hts c.length_visible_le)
  refine ⟨fun g => ?_, fun g => ?_, fun stmt => ?_, fun stmt => ?_⟩
  · rw [typeExpr, bind_remaining]
    exact agree_of_inStep (inStep_typeRule (hnested g))
  · rw [Parser.expr, bind_remaining]
    exact agree_of_inStep (inStep_exprRule (hnested g))
  · rw [statement, bind_remaining]
    exact agree_of_inStep (inStep_statementRule (hstatement stmt))
  · rw [block, bind_remaining]
    exact agree_of_inStep (inStep_blockRule (hstatement stmt))

/-! ## Bounds on repetition -/

/-- From the cursor on, it does not matter how often the repetition may run, if it is as often as there are
visible tokens. -/
def Boundless (loop : Nat → Parser α) (c : Cursor) : Prop :=
  ∀ n m, c.visible.length ≤ n → c.visible.length ≤ m → Agree (loop n c) (loop m c)

/-- The levels of precedence, each with its operators and the parser for its operands. -/
def levels (g : Nested) : List ((Symbol → Option BinOp) × Parser Expr) :=
  [(productOp?, operandRule g), (sumOp?, productRule g), (compareOp?, sumRule g), (andOp?, compareRule g),
    (orOp?, andRule g)]

/-- The repetitions of the grammar, over the parsers for what is nested at most so deep. -/
structure RepeatsBoundless (depth : Nat) (c : Cursor) : Prop where
  statements : Boundless (manyUntil.go .rightBrace (statementOfDepth depth)) c
  names : Boundless (commaList.go .rightBrace name) c
  typedNames : ∀ close, Boundless (commaList.go close typedName) c
  exprs : ∀ close, Boundless (commaList.go close (Nested.ofDepth depth).expr) c
  fields : Boundless (commaList.go .rightBrace (fieldRule (.ofDepth depth))) c
  suffixes : ∀ e, e.Read (fun _ => True) → Boundless (fun n => suffixes (.ofDepth depth) n e) c
  operators : ∀ l ∈ levels (.ofDepth depth), ∀ left, left.Read (fun _ => True) →
    Boundless (fun n => chain.go l.1 l.2 n left) c

/-- Every level of the operators reads alike from tokens that are alike, and takes one at least. -/
theorem inStep_levels {P : Position → Prop} {g : Nested} {l : (Symbol → Option BinOp) × Parser Expr}
    {ts : List Token} (hl : l ∈ levels g) (hg : Nested.InStep P ts.length g g) :
    InStep P ts 1 (Expr.Read P) l.2 l.2 := by
  -- Each level chains the one below it, on fewer tokens.
  have hoperand : ∀ {ts' : List Token}, ts'.length ≤ ts.length →
      InStep P ts' 1 (Expr.Read P) (operandRule g) (operandRule g) :=
    fun h => inStep_operandRule (hg.mono h)
  have hproduct : ∀ {ts' : List Token}, ts'.length ≤ ts.length →
      InStep P ts' 1 (Expr.Read P) (productRule g) (productRule g) :=
    fun h => inStep_chain fun ts1 h1 => hoperand (by omega)
  have hsum : ∀ {ts' : List Token}, ts'.length ≤ ts.length →
      InStep P ts' 1 (Expr.Read P) (sumRule g) (sumRule g) :=
    fun h => inStep_chain fun ts1 h1 => hproduct (by omega)
  have hcompare : ∀ {ts' : List Token}, ts'.length ≤ ts.length →
      InStep P ts' 1 (Expr.Read P) (compareRule g) (compareRule g) :=
    fun h => inStep_chain fun ts1 h1 => hsum (by omega)
  have hand : InStep P ts 1 (Expr.Read P) (andRule g) (andRule g) :=
    inStep_chain fun ts1 h1 => hcompare h1
  simp only [levels, List.mem_cons, List.not_mem_nil, or_false] at hl
  rcases hl with rfl | rfl | rfl | rfl | rfl
  · exact hoperand (Nat.le_refl _)
  · exact hproduct (Nat.le_refl _)
  · exact hsum (Nat.le_refl _)
  · exact hcompare (Nat.le_refl _)
  · exact hand

/-- No repetition over parsers that are deep enough is ended by its bound, if that is large enough. -/
theorem repeatsBoundless {depth : Nat} (h : c.visible.length < depth) : RepeatsBoundless depth c := by
  have hnested : Nested.InStep (fun _ => True) depth (.ofDepth depth) (.ofDepth depth) :=
    inStep_ofDepth (Nat.le_refl _) (Nat.le_refl _)
  exact {
    statements := fun n m hn hm => agree_of_inStep <|
      inStep_manyUntil_go (fun ts hts => inStep_statementOfDepth (by omega) (by omega)) hn hm
    names := fun n m hn hm => agree_of_inStep <| inStep_commaList_go (fun _ _ => inStep_name) hn hm
    typedNames := fun _ n m hn hm => agree_of_inStep <|
      inStep_commaList_go (fun _ _ => inStep_typedName) hn hm
    exprs := fun _ n m hn hm => agree_of_inStep <|
      inStep_commaList_go (fun ts hts => hnested.expr ts (by omega)) hn hm
    fields := fun n m hn hm => agree_of_inStep <|
      inStep_commaList_go (fun ts hts => inStep_fieldRule hnested (by omega)) hn hm
    suffixes := fun e he n m hn hm => agree_of_inStep <| inStep_suffixes hnested h hn hm he
    operators := fun l hl left hleft n m hn hm => agree_of_inStep <|
      inStep_chain_go (fun ts hts => inStep_levels hl (hnested.mono (by omega))) hn hm hleft }

/-! ## Rounds of reading a program -/

/-- One round: a definition, or the error in it and what recovery leaves. -/
def round (c : Cursor) : Except (Located ParseError) Def × Cursor :=
  match definition c.skip with
  | (.ok d, c') => (.ok d, c')
  | (.error e, c') => (.error e, (recover c').2)

/-- The results of the rounds from the cursor on, until no token is left that the grammar sees. -/
inductive Rounds : Cursor → List (Except (Located ParseError) Def) → Prop where
  | nil {c : Cursor} : c.visible = [] → Rounds c []
  | cons {c : Cursor} {rs : List (Except (Located ParseError) Def)} :
    c.visible ≠ [] → Rounds (round c).2 rs → Rounds c ((round c).1 :: rs)

/-- The definitions among the results, and the errors. -/
def collect : List (Except (Located ParseError) Def) → Result
  | [] => ([], [])
  | .ok d :: rs => (d :: (collect rs).1, (collect rs).2)
  | .error e :: rs => ((collect rs).1, e :: (collect rs).2)

/-- Recovery only drops tokens from the front. -/
theorem suffix_recover (c : Cursor) : (recover c).2.tokens <:+ c.tokens := by
  cases hc : c.visible with
  | nil =>
    rw [recover_of_nil hc]
    exact List.nil_suffix
  | cons t ts =>
    obtain ⟨rest, hrest, -, heq⟩ := recover_of_cons hc
    have hskip : t :: rest <:+ c.tokens := hrest ▸ c.suffix_tokens_skip
    rw [heq]
    exact (List.dropWhile_suffix _).trans ((List.suffix_cons t rest).trans hskip)

/-- A round takes a token, also if it fails. -/
theorem round_advances (hc : c.visible ≠ []) :
    (round c).2.tokens <:+ c.tokens ∧ (round c).2.visible.length < c.visible.length := by
  have hpos := List.length_pos_iff.2 hc
  have hsuffix := (advances_of_inStep (fun _ => inStep_definition) c.skip).suffix
  unfold round
  rcases h : definition c.skip with ⟨r, c'⟩
  rw [h] at hsuffix
  cases r with
  | ok d => exact ⟨hsuffix.trans c.suffix_tokens_skip, length_visible_of_ok h⟩
  | error e =>
    have hlength := length_visible_of_error h
    refine ⟨(suffix_recover c').trans (hsuffix.trans c.suffix_tokens_skip), ?_⟩
    dsimp only
    omega

/-- The first of the rounds is done, and the others follow. -/
theorem definitions_succ (hc : c.visible ≠ []) (n : Nat) (rs : List (Except (Located ParseError) Def))
    (hrest : definitions n (round c).2 = collect rs) :
    definitions (n + 1) c = collect ((round c).1 :: rs) := by
  unfold round at hrest ⊢
  rcases h : definition c.skip with ⟨r, c'⟩
  rw [h] at hrest
  cases r with
  | ok d =>
    dsimp only at hrest ⊢
    rw [definitions_of_ok hc h, hrest, collect]
  | error e =>
    dsimp only at hrest ⊢
    rw [definitions_of_error hc h, hrest, collect]

/-- The rounds come to an end, and reading is what they give. -/
theorem exists_rounds (n : Nat) (hn : c.visible.length ≤ n) :
    ∃ rs, Rounds c rs ∧ rs.length ≤ c.visible.length ∧ definitions n c = collect rs := by
  induction n generalizing c with
  | zero =>
    have hc := List.eq_nil_of_length_eq_zero (Nat.le_zero.1 hn)
    exact ⟨[], .nil hc, Nat.zero_le _, rfl⟩
  | succ n ih =>
    by_cases hc : c.visible = []
    · exact ⟨[], .nil hc, Nat.zero_le _, definitions_of_nil hc⟩
    · have hfewer := (round_advances hc).2
      obtain ⟨rs, hrounds, hlength, hrest⟩ := ih (c := (round c).2) (by omega)
      refine ⟨(round c).1 :: rs, .cons hc hrounds, ?_, definitions_succ hc n rs hrest⟩
      rw [List.length_cons]
      omega

theorem length_collect_errors (rs : List (Except (Located ParseError) Def)) :
    (collect rs).2.length ≤ rs.length := by
  fun_induction collect rs with
  | case1 => exact Nat.le_refl _
  | case2 d rs ih => exact Nat.le_succ_of_le ih
  | case3 e rs ih => exact Nat.succ_le_succ ih

/-- Reading makes progress. Every parser drops tokens from the front only, and at least one for whatever it reads,
and so does every round of reading a program, also if it fails. No bound is therefore what ends reading: neither
that on the nesting of the rules, nor that on a repetition, nor that on the rounds, which end by themselves after
at most as many as there are tokens, with at most as many errors. -/
theorem parsing_advances :
    (∀ c : Cursor, Advances typeExpr c ∧ Advances expr c ∧ Advances statement c ∧ Advances block c ∧
      Advances definition c) ∧
    (∀ c : Cursor, c.visible ≠ [] →
      (round c).2.tokens <:+ c.tokens ∧ (round c).2.tokens.length < c.tokens.length) ∧
    (∀ c : Cursor, ∀ n, c.tokens.length ≤ n → DepthEnough n c ∧ RepeatsBoundless (n + 1) c) ∧
    ∀ tokens : List Token,
      (∃ rs, Rounds (.start tokens) rs ∧ rs.length ≤ tokens.length ∧ program tokens = collect rs) ∧
        (program tokens).2.length ≤ tokens.length := by
  refine ⟨fun c => ?_, fun c hc => ?_, fun c n hn => ?_, fun tokens => ?_⟩
  · exact ⟨advances_of_inStep (fun _ => inStep_typeExpr) c, advances_of_inStep (fun _ => inStep_expr) c,
      advances_of_inStep (fun _ => inStep_statement) c, advances_of_inStep (fun _ => inStep_block) c,
      advances_of_inStep (fun _ => inStep_definition) c⟩
  · obtain ⟨hsuffix, hfewer⟩ := round_advances hc
    exact ⟨hsuffix, length_lt_of_visible hsuffix hfewer⟩
  · have hvisible := Nat.le_trans c.length_visible_le hn
    exact ⟨depthEnough hvisible, repeatsBoundless (Nat.lt_succ_of_le hvisible)⟩
  · have hle := (Cursor.start tokens).length_visible_le
    obtain ⟨rs, hrounds, hlength, hprogram⟩ := exists_rounds _ hle
    have hrs : rs.length ≤ tokens.length := Nat.le_trans hlength hle
    have hcollected : program tokens = collect rs := hprogram
    refine ⟨⟨rs, hrounds, hrs, hcollected⟩, ?_⟩
    rw [hcollected]
    exact Nat.le_trans (length_collect_errors rs) hrs

end Sigil.Parser
