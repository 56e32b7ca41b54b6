import Sigil.Proofs.Printing.Forms
import Sigil.Token.Scan

/-!
# Reading what is printed

The grammar reads every surface expression back from its tokens (`legible`), at every depth of nesting:
what is nested stands behind a token of its own, so the number of tokens bounds the depth. Comments and
lexical errors may stand between the tokens. Main statement: `expr_of_tokens`, for whole lists of tokens.
-/

namespace Sigil.Parser

open Expr List Token

variable {n : Nat} {ts : List Token} {e : Expr}

/-! ## Operands in parentheses -/

/-- With parsers for what is nested at most `n` deep, the expression is read from its tokens: an
expression with an operator in front or between operands at its own level, any other as what can take
further suffixes. -/
inductive Legible (n : Nat) (e : Expr) : Prop
  | suffixed (hlevel : e.level = 6) (h : OpensSuffixes (.ofDepth n) e.tokens e)
  | prefixed (hlevel : e.level = 5) (h : ReadsAt (.ofDepth n) 5 e.tokens e)
  | between (hlevel : e.level ≤ 4) (h : OpensAt (.ofDepth n) e.level e.tokens e)

section

variable {n k : Nat} {e : Expr}

/-- A legible expression is read at every level up to its own. -/
theorem Legible.readsAt (h : Legible n e) (hk : k ≤ e.level) (hk5 : k ≤ 5) :
    ReadsAt (.ofDepth n) k e.tokens e := by
  cases h with
  | suffixed _ h => exact h.readsAt.lower (Nat.le_refl 5) hk5
  | prefixed _ h => exact h.lower (Nat.le_refl 5) hk5
  | between hlevel h => exact h.readsAt.lower (by omega) hk

theorem Legible.readsExpr (h : Legible n e) : (Nested.ofDepth (n + 1)).ReadsExpr e.tokens e := by
  intro c ks hc hstops
  have hreads := h.readsAt (Nat.zero_le _) (Nat.zero_le _) c ks hc hstops
  exact hreads.mono fun _ _ he => he.1

theorem ReadsTypeAt.readsType {w : List TokenKind} {t : TypeExpr}
    (h : ReadsTypeAt (.ofDepth n) w t) : (Nested.ofDepth (n + 1)).ReadsType w t :=
  h

/-- Parentheses turn a legible expression into a primary one. -/
theorem opensSuffixes_paren (h : ∀ n, e.tokens.length ≤ n → Legible n e)
    (hn : e.tokens.length + 2 ≤ n) :
    OpensSuffixes (.ofDepth n) (.symbol .leftParen :: (e.tokens ++ [.symbol .rightParen])) e := by
  obtain ⟨n, rfl⟩ : ∃ k, n = k + 1 := ⟨n - 1, by omega⟩
  exact (isPrimary_paren (h n (by omega)).readsExpr).opensSuffixes

variable (h : ∀ n, e.tokens.length ≤ n → Legible n e)

include h

/-- Where a level is asked for, a legible expression is read in parentheses if it needs them. -/
theorem readsAt_enclosed (hk : k ≤ 5) (hn : (e.enclosed k e.tokens).length ≤ n) :
    ReadsAt (.ofDepth n) k (e.enclosed k e.tokens) e := by
  by_cases hlow : e.level < k
  · simp only [enclosed, if_pos hlow, length_cons, length_append,
      length_nil] at hn ⊢
    exact (opensSuffixes_paren h hn).readsAt.lower (Nat.le_refl 5) hk
  · simp only [enclosed, if_neg hlow] at hn ⊢
    exact (h n hn).readsAt (by omega) hk

/-- In parentheses where the level demands it, an expression is read on any level. -/
theorem opensAt_enclosed (hk : k ≤ 4) (hn : (e.enclosed k e.tokens).length ≤ n) :
    OpensAt (.ofDepth n) k (e.enclosed k e.tokens) e := by
  by_cases hsame : e.level = k
  · -- An operand of the operator's own level opens the loop that reads the operator.
    subst hsame
    simp only [enclosed, Nat.lt_irrefl, if_false] at hn ⊢
    cases h n hn with
    | between _ h => exact h
    | suffixed hlevel _ | prefixed hlevel _ => omega
  · -- At any other level it is read as an operand of the next level would be.
    have hnext : e.enclosed k e.tokens = e.enclosed (k + 1) e.tokens := by
      unfold enclosed
      congr 1
      exact propext (by omega)
    rw [hnext] at hn ⊢
    exact (readsAt_enclosed h (by omega) hn).opensAt hk

/-- The same before a suffix. -/
theorem opensSuffixes_enclosed (hn : (e.enclosed 6 e.tokens).length ≤ n) :
    OpensSuffixes (.ofDepth n) (e.enclosed 6 e.tokens) e := by
  by_cases hlow : e.level < 6
  · simp only [enclosed, if_pos hlow, length_cons, length_append,
      length_nil] at hn ⊢
    exact opensSuffixes_paren h hn
  · simp only [enclosed, if_neg hlow] at hn ⊢
    cases h n hn with
    | suffixed _ h => exact h
    | prefixed hlevel _ | between hlevel _ => omega

theorem readsOperand_enclosed (hn : (e.enclosed 5 e.tokens).length ≤ n) :
    (Nested.ofDepth (n + 1)).ReadsOperand (e.enclosed 5 e.tokens) e :=
  readsAt_enclosed h (Nat.le_refl 5) hn

end

/-! ## Every surface expression is legible -/

/-- A part is no longer than all of them with commas in between. -/
theorem length_le_commas {w : List TokenKind} {ws : List (List TokenKind)} (hw : w ∈ ws) :
    w.length ≤ (commas ws).length := by
  induction ws with
  | nil => cases hw
  | cons w' ws ih =>
    rw [commas_cons, length_append]
    rcases mem_cons.1 hw with rfl | hw
    · omega
    · have hrest := ih hw
      cases ws with
      | nil => cases hw
      | cons _ _ =>
        simp only [length_cons]
        omega

theorem readsExprs {es : List Expr}
    (h : ∀ e ∈ es, e.Surface ∧ ∀ n, e.tokens.length ≤ n → Legible n e)
    (hn : (commas (tokensAll es)).length ≤ n) :
    ∀ e ∈ es, e.Surface ∧ (Nested.ofDepth (n + 1)).ReadsExpr e.tokens e := by
  intro e he
  rw [tokensAll_eq] at hn
  have hlength := length_le_commas (mem_map_of_mem (f := tokens) he)
  exact ⟨(h e he).1, ((h e he).2 n (by omega)).readsExpr⟩

theorem readsFields {fields : List (String × Expr)}
    (h : ∀ field ∈ fields, ∀ n, field.2.tokens.length ≤ n → Legible n field.2)
    (hn : (commas (tokensFields fields)).length ≤ n) :
    ∀ field ∈ fields, (Nested.ofDepth (n + 1)).ReadsExpr field.2.tokens field.2 := by
  intro field hfield
  rw [tokensFields_eq] at hn
  have hlength := length_le_commas (mem_map_of_mem (f := fieldTokens) hfield)
  simp only [fieldTokens, length_cons] at hlength
  exact (h field hfield n (by omega)).readsExpr

theorem legible_leaf {m : Mark} {k : TokenKind} (f : Mark → Expr) (hm : m.ty = none)
    (htokens : (f m).tokens = [k]) (hlevel : (f m).level = 6)
    (hk : ∀ pos, startsPrimary ⟨k, pos⟩ = true) (htail : ∀ g m, primaryTail g m k = pure (f m))
    (hf : ∀ m, (f m).unplaced = f m.unplaced) : Legible n (f m) := by
  apply Legible.suffixed hlevel
  rw [htokens]
  exact (isPrimary_leaf f hm hk (htail _) hf).opensSuffixes

theorem tokens_pos (he : e.Surface) : 0 < e.tokens.length := by
  cases e <;> simp_all [tokens, Surface] <;> omega

mutual

/-- Every surface expression is legible with parsers for what is nested as deep as it has tokens. -/
theorem legible (e : Expr) (he : e.Surface) (n : Nat) (hn : e.tokens.length ≤ n) : Legible n e := by
  -- What stands behind a token of its own is read one level of depth further down.
  obtain ⟨n, rfl⟩ := Nat.exists_eq_add_one.2 (Nat.lt_of_lt_of_le (tokens_pos he) hn)
  match e with
  | .intLit m v =>
    exact legible_leaf (.intLit · v) he rfl rfl (fun _ => rfl) (fun _ _ => rfl) fun _ => rfl
  | .boolLit m true =>
    exact legible_leaf (.boolLit · true) he rfl rfl (fun _ => rfl) (fun _ _ => rfl) fun _ => rfl
  | .boolLit m false =>
    exact legible_leaf (.boolLit · false) he rfl rfl (fun _ => rfl) (fun _ _ => rfl) fun _ => rfl
  | .charLit m v =>
    exact legible_leaf (.charLit · v) he rfl rfl (fun _ => rfl) (fun _ _ => rfl) fun _ => rfl
  | .strLit m s =>
    exact legible_leaf (.strLit · s) he rfl rfl (fun _ => rfl) (fun _ _ => rfl) fun _ => rfl
  | .nil m =>
    exact legible_leaf .nil he rfl rfl (fun _ => rfl) (fun _ _ => rfl) fun _ => rfl
  | .ident m x =>
    exact legible_leaf (.ident · x) he rfl rfl (fun _ => rfl) (fun _ _ => rfl) fun _ => rfl
  | .binary m op l r =>
    -- The left operand may have the operator's own level: it opens the loop. The right one may not.
    obtain ⟨hm, hl, hr⟩ := he
    simp only [tokens, length_append, length_cons] at hn
    have hopens := opensAt_enclosed (legible l hl) op.level_le (n := n + 1) (by omega)
    have hreads := readsAt_enclosed (legible r hr) (k := op.level + 1) (n := n + 1)
      (Nat.succ_le_succ op.level_le) (by omega)
    exact .between op.level_le (hopens.binary hreads hm)
  | .unary m op e =>
    simp only [tokens, length_cons] at hn
    have harg := readsOperand_enclosed (legible e he.2) (n := n) (by omega)
    exact .prefixed rfl (readsAt_unary harg he.1 op)
  | .addrOf m e =>
    simp only [tokens, length_cons] at hn
    have harg := readsOperand_enclosed (legible e he.2) (n := n) (by omega)
    exact .prefixed rfl (readsAt_addrOf harg he.1)
  | .deref m e =>
    simp only [tokens, length_append] at hn
    have hbase := opensSuffixes_enclosed (legible e he.2) (n := n + 1) (by omega)
    exact .suffixed rfl (hbase.deref he.1)
  | .member m e x =>
    simp only [tokens, length_append] at hn
    have hbase := opensSuffixes_enclosed (legible e he.2) (n := n + 1) (by omega)
    exact .suffixed rfl (hbase.member he.1 x)
  | .index m e i =>
    obtain ⟨hm, he, hi⟩ := he
    simp only [tokens, length_append, length_cons] at hn
    have hbase := opensSuffixes_enclosed (legible e he) (n := n + 1) (by omega)
    exact .suffixed rfl (hbase.index hm (legible i hi n (by omega)).readsExpr)
  | .call m f args =>
    obtain ⟨hm, hf, hargs⟩ := he
    simp only [tokens, length_append, length_cons] at hn
    have hbase := opensSuffixes_enclosed (legible f hf) (n := n + 1) (by omega)
    exact .suffixed rfl (hbase.call hm (readsExprs (legibleAll args hargs) (by omega)))
  | .structLit m fields =>
    simp only [tokens, length_append, length_cons] at hn
    have hfields := readsFields (legibleFields fields he.2) (n := n) (by omega)
    exact .suffixed rfl (isPrimary_structLit he.1 hfields).opensSuffixes
  | .arrayLit m es =>
    simp only [tokens, length_append, length_cons] at hn
    have hes := readsExprs (legibleAll es he.2) (n := n) (by omega)
    exact .suffixed rfl (isPrimary_arrayLit he.1 hes).opensSuffixes
  | .cast m t e =>
    obtain ⟨hm, ht, he⟩ := he
    simp only [tokens, length_append, length_cons] at hn
    have htype := (legibleType t ht n (by omega)).readsType
    have harg := (legible e he n (by omega)).readsExpr
    exact .suffixed rfl (isPrimary_cast hm htype harg).opensSuffixes
  | .sizeof m t =>
    simp only [tokens, length_append, length_cons] at hn
    have htype := (legibleType t he.2 n (by omega)).readsType
    exact .suffixed rfl (isPrimary_sizeof he.1 htype).opensSuffixes
  | .builtin m b args =>
    simp only [tokens, length_append, length_cons] at hn
    have hargs := readsExprs (legibleAll args he.2) (n := n) (by omega)
    exact .suffixed rfl (isPrimary_builtin he.1 hargs).opensSuffixes

theorem legibleAll (es : List Expr) (hes : SurfaceAll es) :
    ∀ e ∈ es, e.Surface ∧ ∀ n, e.tokens.length ≤ n → Legible n e := by
  match es with
  | [] => exact forall_mem_nil _
  | e :: es =>
    exact forall_mem_cons.2 ⟨⟨hes.1, legible e hes.1⟩, legibleAll es hes.2⟩

theorem legibleFields (fields : List (String × Expr)) (hfields : SurfaceFields fields) :
    ∀ field ∈ fields, ∀ n, field.2.tokens.length ≤ n → Legible n field.2 := by
  match fields with
  | [] => exact forall_mem_nil _
  | (x, e) :: fields =>
    exact forall_mem_cons.2 ⟨legible e hfields.1, legibleFields fields hfields.2⟩

/-- By recursion on the type, whose array lengths are expressions. -/
theorem legibleType (t : TypeExpr) (ht : t.Surface) (n : Nat) (hn : t.tokens.length ≤ n) :
    ReadsTypeAt (.ofDepth n) t.tokens t := by
  match t with
  | .int bits signed => exact readsTypeAt_int ht signed
  | .char | .bool | .str | .void | .named _ =>
    intro c ks hc _
    refine (leaves_expect hc fun _ => rfl).bind ?_
    rintro ⟨_, _⟩ c1 h1 - rfl
    exact leaves_pure h1 rfl
  | .ptr t =>
    simp only [TypeExpr.tokens, length_cons] at hn
    obtain ⟨n, rfl⟩ : ∃ k, n = k + 1 := ⟨n - 1, by omega⟩
    exact readsTypeAt_ptr (legibleType t ht n (by omega)).readsType
  | .array length t =>
    simp only [TypeExpr.tokens, length_append, length_cons] at hn
    obtain ⟨n, rfl⟩ : ∃ k, n = k + 1 := ⟨n - 1, by omega⟩
    have hlength := (legible length ht.1 n (by omega)).readsExpr
    exact readsTypeAt_array hlength (legibleType t ht.2 n (by omega)).readsType

end

/-! ## Whole lists of tokens -/

/-- An expression is read from whatever the grammar sees as its tokens, with comments anywhere between
them. -/
theorem leaves_expr {c : Cursor} {ks : List TokenKind} (he : e.Surface)
    (hc : c.kinds = e.tokens ++ ks) (hstops : Stops 0 ks) :
    Leaves expr c ks fun e' c' => e'.unplaced = e.unplaced ∧ c'.skip = c' := by
  have hlength : e.tokens.length ≤ c.tokens.length := by
    have hkinds := c.length_kinds_le
    rw [hc, length_append] at hkinds
    omega
  refine (leaves_remaining c).bind ?_
  rintro _ _ - - ⟨rfl, rfl⟩
  exact (legible e he _ hlength).readsAt (Nat.zero_le _) (Nat.zero_le _) _ ks hc hstops

theorem dropWhile_append_of_significant (h : significant ts = [])
    (rest : List Token) :
    (ts ++ rest).dropWhile (·.kind.isSkipped) = rest.dropWhile (·.kind.isSkipped) := by
  apply dropWhile_append_of_pos
  intro t ht
  have hnone := filter_eq_nil_iff.1 h t.kind (mem_map_of_mem ht)
  simpa using hnone

/-- Of two ends of the same tokens, the grammar sees the same in both only if they differ in what it
passes over. -/
theorem dropWhile_eq_of_suffix {ts' all : List Token} (h : ts <:+ all) (h' : ts' <:+ all)
    (hseen : significant ts = significant ts') :
    ts.dropWhile (·.kind.isSkipped) = ts'.dropWhile (·.kind.isSkipped) := by
  -- One of them is an end of the other, and the grammar sees nothing of what it has in front.
  rcases suffix_or_suffix_of_suffix h h' with ⟨front, rfl⟩ | ⟨front, rfl⟩
  · rw [significant_append, self_eq_append_left] at hseen
    exact (dropWhile_append_of_significant hseen ts).symm
  · rw [significant_append, append_left_eq_self] at hseen
    exact dropWhile_append_of_significant hseen ts'

theorem significant_of_map_kind (h : ts.map (·.kind) = e.tokens) :
    significant ts = e.tokens := by
  unfold significant
  rw [h, filter_eq_self]
  intro k hk
  simp [e.seen_tokens k hk]

/-- The expression parser inverts printing: it reads a surface expression from its tokens, whatever
follows that does not continue it, up to places, and leaves what follows unread, from its first token
that is neither a comment nor a lexical error. -/
theorem expr_of_tokens (e : Expr) (he : e.Surface) (ts rest : List Token) (last : Position)
    (hts : ts.map (·.kind) = e.tokens) (hrest : Stops 0 (Token.significant rest)) :
    ∃ e' last', expr ⟨ts ++ rest, last⟩
        = (.ok e', ⟨rest.dropWhile (·.kind.isSkipped), last'⟩) ∧
      e'.unplaced = e.unplaced := by
  have hc : Cursor.kinds ⟨ts ++ rest, last⟩ = e.tokens ++ significant rest := by
    rw [Cursor.kinds, significant_append, significant_of_map_kind hts]
  obtain ⟨e', ⟨tokens, last'⟩, hexpr, hsuffix, hkinds, hsame, hskip⟩ :=
    (leaves_expr he hc hrest).exists_eq
  -- The last thing the parser did was to look for an operator, past everything that is passed over.
  have htokens : tokens = rest.dropWhile (·.kind.isSkipped) := by
    have hunskipped : tokens.dropWhile (·.kind.isSkipped) = tokens := congrArg Cursor.tokens hskip
    rw [← hunskipped]
    exact dropWhile_eq_of_suffix hsuffix (suffix_append ts rest) hkinds
  exact ⟨e', last', htokens ▸ hexpr, hsame⟩

/-- An expression with operators, suffixes, a written type and brackets of every kind. -/
def crowded : Expr :=
  let m : Mark := ⟨.origin, none⟩
  .binary m .mul
    (.binary m .add (.ident m "a")
      (.cast m (.array (.binary m .sub (.ident m "n") (.intLit m 1)) (.int 16 (some true)))
        (.unary m .neg (.ident m "b"))))
    (.call m (.deref m (.index m (.member m (.ident m "s") "f") (.intLit m 0)))
      [.addrOf m (.ident m "x"), .structLit m [("y", .nil m)]])

/-- The text of `crowded`. -/
def crowdedText : String :=
  "(a + @cast<[n - 1]short?>(-b)) * s.f[0]&(&x, \x7by: nil\x7d)"

/-- A comment after the expression is passed over. -/
theorem expr_of_tokens_crowded :
    crowded.Surface ∧ (Token.scan crowdedText).map (·.kind) = crowded.tokens ∧
      ∃ e' last', expr ⟨Token.scan crowdedText ++
            [⟨.comment "done", .origin⟩, ⟨.symbol .semicolon, .origin⟩], .origin⟩
          = (.ok e', ⟨[⟨.symbol .semicolon, .origin⟩], last'⟩) ∧
        e'.unplaced = crowded.unplaced := by
  have hsurface : crowded.Surface := by
    simp [crowded, Surface, SurfaceAll, SurfaceFields, TypeExpr.Surface]
  have hkinds : (scan crowdedText).map (·.kind) = crowded.tokens := by decide +kernel
  have hstops : Stops 0 [.symbol .semicolon] := by
    constructor
    · decide
    · intro op
      cases op <;> decide
  refine ⟨hsurface, hkinds, ?_⟩
  exact expr_of_tokens crowded hsurface _ _ .origin hkinds hstops

/-- What follows cannot be told by its first token alone: behind a comment, an operator continues the
expression. -/
theorem exists_expr_past_comment :
    ∃ (e : Expr) (ts rest : List Token), e.Surface ∧ ts.map (·.kind) = e.tokens ∧
      Stops 0 (rest.map (·.kind)) ∧ ts ++ rest = Token.scan "a # c\n+ b" ∧
      ¬∃ e' last', expr ⟨ts ++ rest, .origin⟩ = (.ok e', ⟨rest, last'⟩) ∧
        e'.unplaced = e.unplaced := by
  refine ⟨.ident ⟨.origin, none⟩ "a", [⟨.ident "a", ⟨0, 0⟩⟩],
    [⟨.comment "c", ⟨0, 2⟩⟩, ⟨.symbol .plus, ⟨1, 0⟩⟩, ⟨.ident "b", ⟨1, 2⟩⟩], rfl, rfl, ?_, ?_, ?_⟩
  · exact ⟨by simp, by simp⟩
  · decide +kernel
  · -- The sum is read, and no token is left.
    rintro ⟨e', last', h, -⟩
    have htokens := congrArg (·.2.tokens) h
    cases htokens

end Sigil.Parser
