import Sigil.Proofs.Printing.Levels

/-!
# Forms of expressions and types

One lemma for each form that is no operator between operands: how it is read from its tokens if the
parsers for what is nested in it read those parts from theirs (`Nested.ReadsExpr`, `Nested.ReadsOperand`,
`Nested.ReadsType`).
-/

namespace Sigil.Parser

open Expr List

/-! ## Lists -/

/-- The parser reads the tokens as an element of a list that ends with the given symbol. -/
structure ReadsElement {α : Type} (close : Symbol) (elem : Parser α) (w : List TokenKind)
    (P : α → Prop) : Prop where
  starts : ∃ k w', w = k :: w' ∧ k ≠ .symbol close
  reads : ∀ c ks, c.kinds = w ++ ks → Stops 0 ks → Leaves elem c ks fun y _ => P y

section

variable {α β : Type} {close : Symbol} {elem : Parser α} {piece : α → List TokenKind} {view : α → β}
  {xs : List α} {c : Cursor} {ks : List TokenKind}

/-- A list of elements is read up to its end. The induction is on the elements: after each of them comes
either a comma and the rest or the end. -/
theorem leaves_commaList_go (hclose : close ∈ [Symbol.rightParen, .rightBracket, .rightBrace])
    (n : Nat) (hxs : ∀ x ∈ xs, ReadsElement close elem (piece x) fun y => view y = view x)
    (hc : c.kinds = commas (xs.map piece) ++ .symbol close :: ks) (hn : c.kinds.length ≤ n) :
    Leaves (commaList.go close elem n) c (.symbol close :: ks)
      fun ys _ => ys.map view = xs.map view := by
  have hends : ∀ ks, Stops 0 (.symbol close :: ks) :=
    fun ks => stops_symbol (mem_cons_of_mem _ hclose)
  induction xs generalizing n c with
  | nil =>
    have hc : c.kinds = .symbol close :: ks := hc
    obtain ⟨n, rfl⟩ : ∃ k, n = k + 1 := ⟨n - 1, by simp [hc] at hn; omega⟩
    unfold commaList.go
    refine (leaves_check hc).bind ?_
    rintro _ c1 h1 - rfl
    exact leaves_pure (h1.trans hc) rfl
  | cons x xs ih =>
    obtain ⟨hx, hxs⟩ := forall_mem_cons.1 hxs
    obtain ⟨k, w, hpiece, hk⟩ := hx.starts
    rw [map_cons, commas_cons, append_assoc] at hc
    obtain ⟨n, rfl⟩ : ∃ k, n = k + 1 := ⟨n - 1, by simp [hc, hpiece] at hn; omega⟩
    unfold commaList.go
    have hhead : c.kinds.head? ≠ some (.symbol close) := by
      simpa [hc, hpiece] using hk
    refine (leaves_check_none hhead).bind ?_
    rintro _ c1 h1 - rfl
    cases xs with
    | nil =>
      -- The last element: the end of the list comes next, and no comma is taken.
      refine (hx.reads c1 _ (h1.trans hc) (hends ks)).bind ?_
      rintro y c2 h2 - hy
      have hcomma : c2.kinds.head? ≠ some (.symbol .comma) := by
        rw [h2]
        revert hclose
        cases close <;> simp
      refine (leaves_takeSymbol_none hcomma).bind ?_
      rintro _ c3 h3 - ⟨rfl, -⟩
      exact leaves_pure (h3.trans h2) (by simp [hy])
    | cons x' xs =>
      have hc : c.kinds = piece x ++
          .symbol .comma :: (commas ((x' :: xs).map piece) ++ .symbol close :: ks) := hc
      refine (hx.reads c1 _ (h1.trans hc) (stops_symbol (by simp))).bind ?_
      rintro y c2 h2 - hy
      refine (leaves_takeSymbol h2).bind ?_
      rintro _ c3 h3 - ⟨rfl, -⟩
      have hshorter : c3.kinds.length ≤ n := by
        rw [hc, hpiece] at hn
        rw [h3]
        simp only [length_append, length_cons] at hn ⊢
        omega
      refine (ih n hxs h3 hshorter).bind ?_
      rintro ys c4 h4 - hys
      exact leaves_pure h4 (by simp [hy, hys])

theorem leaves_commaList (hclose : close ∈ [Symbol.rightParen, .rightBracket, .rightBrace])
    (hxs : ∀ x ∈ xs, ReadsElement close elem (piece x) fun y => view y = view x)
    (hc : c.kinds = commas (xs.map piece) ++ .symbol close :: ks) :
    Leaves (commaList close elem) c (.symbol close :: ks) fun ys _ => ys.map view = xs.map view := by
  refine (leaves_remaining c).bind ?_
  rintro _ _ - - ⟨rfl, rfl⟩
  exact leaves_commaList_go hclose _ hxs hc (Cursor.length_kinds_le _)

end

/-! ## Nested expressions -/

/-- The parser for nested expressions reads the tokens as the tree, up to what ends an expression. -/
def Nested.ReadsExpr (g : Nested) (w : List TokenKind) (e : Expr) : Prop :=
  ∀ c ks, c.kinds = w ++ ks → Stops 0 ks → Leaves g.expr c ks fun e' _ => e'.unplaced = e.unplaced

/-- The parser for nested operands reads the tokens as the tree, up to what ends an operand. -/
def Nested.ReadsOperand (g : Nested) (w : List TokenKind) (e : Expr) : Prop :=
  ∀ c ks, c.kinds = w ++ ks → Stops 5 ks →
    Leaves g.operand c ks fun e' c' => e'.unplaced = e.unplaced ∧ c'.skip = c'

/-- No mark of a sign comes next. -/
def Unmarked (ks : List TokenKind) : Prop :=
  ks.head? ≠ some (.symbol .bang) ∧ ks.head? ≠ some (.symbol .question)

/-- The parser for nested types reads the tokens as the tree, up to anything but the mark of a sign. -/
def Nested.ReadsType (g : Nested) (w : List TokenKind) (t : TypeExpr) : Prop :=
  ∀ c ks, c.kinds = w ++ ks → Unmarked ks → Leaves g.type c ks fun t' _ => t'.unplaced = t.unplaced

/-- There is a first token, and it does not close a list. -/
def Starts (w : List TokenKind) : Prop :=
  ∃ k w', w = k :: w' ∧ ∀ s ∈ [Symbol.rightParen, .rightBracket], k ≠ .symbol s

theorem Starts.append {w : List TokenKind} (h : Starts w) (w' : List TokenKind) :
    Starts (w ++ w') := by
  obtain ⟨k, w, rfl, hk⟩ := h
  exact ⟨k, w ++ w', rfl, hk⟩

theorem Starts.enclosed {w : List TokenKind} (h : Starts w) (n : Nat) (e : Expr) :
    Starts (e.enclosed n w) := by
  unfold Expr.enclosed
  split
  · exact ⟨_, _, rfl, by simp⟩
  · exact h

/-- What an expression starts with is what its leftmost part starts with. -/
theorem starts_tokens (e : Expr) (he : e.Surface) : Starts e.tokens := by
  match e with
  | .binary _ _ l _ => exact ((starts_tokens l he.2.1).enclosed _ l).append _
  | .deref _ e | .member _ e _ => exact ((starts_tokens e he.2).enclosed _ e).append _
  | .call _ e _ | .index _ e _ => exact ((starts_tokens e he.2.1).enclosed _ e).append _
  | .unary _ op _ => exact ⟨_, _, rfl, by cases op <;> simp [UnOp.symbol]⟩
  | .intLit _ _ | .boolLit _ _ | .charLit _ _ | .strLit _ _ | .nil _ | .ident _ _ | .addrOf _ _
  | .structLit _ _ | .arrayLit _ _ | .cast _ _ _ | .sizeof _ _ | .builtin _ _ _ =>
    exact ⟨_, _, rfl, by simp⟩

section

variable {g : Nested} {close : Symbol} {es : List Expr} {c : Cursor} {ks : List TokenKind}

/-- Expressions with commas between them are read one by one. -/
theorem leaves_exprs (hclose : close ∈ [Symbol.rightParen, .rightBracket])
    (hes : ∀ e ∈ es, e.Surface ∧ g.ReadsExpr e.tokens e)
    (hc : c.kinds = commas (tokensAll es) ++ .symbol close :: ks) :
    Leaves (commaList close g.expr) c (.symbol close :: ks)
      fun es' _ => unplacedAll es' = unplacedAll es := by
  simp only [unplacedAll_eq]
  rw [tokensAll_eq] at hc
  refine leaves_commaList (by revert hclose; cases close <;> simp) ?_ hc
  intro e he
  obtain ⟨hsurface, hreads⟩ := hes e he
  obtain ⟨k, w, hw, hk⟩ := starts_tokens e hsurface
  exact ⟨⟨k, w, hw, hk close hclose⟩, hreads⟩

theorem leaves_args (hes : ∀ e ∈ es, e.Surface ∧ g.ReadsExpr e.tokens e)
    (hc : c.kinds = commas (tokensAll es) ++ .symbol .rightParen :: ks) :
    Leaves (argsRule g) c ks fun es' _ => unplacedAll es' = unplacedAll es :=
  (leaves_exprs (by simp) hes hc).closed fun _ _ hes' => hes'

/-- Fields with commas between them are read one by one. -/
theorem leaves_fields {fields : List (String × Expr)}
    (hfields : ∀ field ∈ fields, g.ReadsExpr field.2.tokens field.2)
    (hc : c.kinds = commas (tokensFields fields) ++ .symbol .rightBrace :: ks) :
    Leaves (commaList .rightBrace (fieldRule g)) c (.symbol .rightBrace :: ks)
      fun fields' _ => unplacedFields fields' = unplacedFields fields := by
  simp only [unplacedFields_eq]
  rw [tokensFields_eq] at hc
  refine leaves_commaList (by simp) ?_ hc
  rintro ⟨x, e⟩ hfield
  refine ⟨⟨_, _, rfl, by simp⟩, ?_⟩
  intro c ks hc hstops
  refine (leaves_name hc).bind ?_
  rintro _ c1 h1 - rfl
  refine (leaves_expectSymbol h1).bind ?_
  rintro _ c2 h2 - -
  refine (hfields _ hfield c2 ks h2 hstops).bind ?_
  rintro e' c3 h3 - he
  exact leaves_pure h3 (by rw [he])

end

/-! ## Primary expressions -/

/-- The tokens are those of a primary expression: its first token decides how it goes on. -/
def IsPrimary (g : Nested) (w : List TokenKind) (e : Expr) : Prop :=
  ∃ k w', w = k :: w' ∧ (∀ pos, startsPrimary ⟨k, pos⟩ = true) ∧
    ∀ p c ks, c.kinds = w' ++ ks →
      Leaves (primaryTail g (unchecked p) k) c ks fun e' _ => e'.unplaced = e.unplaced

section

variable {g : Nested} {w : List TokenKind} {e : Expr} {m : Mark}

/-- A primary expression may be followed by suffixes. -/
theorem IsPrimary.opensSuffixes (h : IsPrimary g w e) : OpensSuffixes g w e := by
  obtain ⟨k, w, rfl, hk, htail⟩ := h
  intro c ks ks' P hc hgo
  unfold operandRule
  refine (leaves_here c).bind ?_
  rintro p _ h1 - rfl
  rw [hc] at h1
  -- No prefix operator starts a primary expression.
  have hno : ∀ s, startsPrimary ⟨.symbol s, .origin⟩ = false →
      (k :: w ++ ks).head? ≠ some (.symbol s) := by
    rintro s hs hhead
    obtain rfl : k = .symbol s := Option.some.inj hhead
    exact absurd (hk .origin) (by simp [hs])
  apply leaves_choice_none c.skip_skip h1 (hno .minus rfl)
  apply leaves_choice_none c.skip_skip h1 (hno .bang rfl)
  apply leaves_choice_none c.skip_skip h1 (hno .ampersand rfl)
  have hprimary : Leaves (primaryRule g) c.skip ks fun e' _ => e'.unplaced = e.unplaced := by
    refine (leaves_here c.skip).bind ?_
    rintro p _ h2 - rfl
    refine (leaves_expect (h2.trans h1) hk).bind ?_
    rintro ⟨_, _⟩ c3 h3 - rfl
    exact htail p c3 ks h3
  refine hprimary.bind ?_
  rintro e' c2 h2 - he
  refine (leaves_remaining c2).bind ?_
  rintro _ _ - - ⟨rfl, rfl⟩
  exact hgo e' _ _ h2 (Nat.le_refl _) he

/-- A literal or a name is one token. -/
theorem isPrimary_leaf {k : TokenKind} (f : Mark → Expr) (hm : m.ty = none)
    (hk : ∀ pos, startsPrimary ⟨k, pos⟩ = true)
    (htail : ∀ m, primaryTail g m k = pure (f m)) (hf : ∀ m, (f m).unplaced = f m.unplaced) :
    IsPrimary g [k] (f m) := by
  refine ⟨k, [], rfl, hk, ?_⟩
  intro p c ks hc
  rw [htail]
  exact leaves_pure hc (by rw [hf, hf, unplaced_unchecked hm])

theorem isPrimary_paren (h : g.ReadsExpr w e) :
    IsPrimary g (.symbol .leftParen :: (w ++ [.symbol .rightParen])) e := by
  refine ⟨_, _, rfl, fun _ => rfl, ?_⟩
  intro p c ks hc
  rw [append_assoc] at hc
  exact (h c _ hc (stops_symbol (by simp))).closed fun _ _ he => he

theorem isPrimary_structLit {fields : List (String × Expr)} (hm : m.ty = none)
    (hfields : ∀ field ∈ fields, g.ReadsExpr field.2.tokens field.2) :
    IsPrimary g (structLit m fields).tokens (.structLit m fields) := by
  refine ⟨_, _, rfl, fun _ => rfl, ?_⟩
  intro p c ks hc
  rw [append_assoc] at hc
  apply (leaves_fields hfields hc).closed
  intro fields' _ hfields'
  simp [unplaced, unplaced_unchecked hm, hfields']

theorem isPrimary_arrayLit {es : List Expr} (hm : m.ty = none)
    (hes : ∀ e ∈ es, e.Surface ∧ g.ReadsExpr e.tokens e) :
    IsPrimary g (arrayLit m es).tokens (.arrayLit m es) := by
  refine ⟨_, _, rfl, fun _ => rfl, ?_⟩
  intro p c ks hc
  rw [append_assoc] at hc
  apply (leaves_exprs (by simp) hes hc).closed
  intro es' _ hes'
  simp [unplaced, unplaced_unchecked hm, hes']

theorem isPrimary_cast {t : TypeExpr} (hm : m.ty = none) (ht : g.ReadsType t.tokens t)
    (he : g.ReadsExpr e.tokens e) : IsPrimary g (Expr.cast m t e).tokens (.cast m t e) := by
  refine ⟨_, _, rfl, fun _ => rfl, ?_⟩
  intro p c ks hc
  simp only [cons_append, append_assoc, nil_append] at hc
  refine (leaves_expectSymbol hc).bind ?_
  rintro _ c1 h1 - -
  refine (ht c1 _ h1 (by simp [Unmarked])).bind ?_
  rintro t' c2 h2 - ht'
  refine (leaves_expectSymbol h2).bind ?_
  rintro _ c3 h3 - -
  refine (leaves_expectSymbol h3).bind ?_
  rintro _ c4 h4 - -
  apply (he c4 _ h4 (stops_symbol (by simp))).closed
  intro e' _ he'
  simp [unplaced, unplaced_unchecked hm, ht', he']

theorem isPrimary_sizeof {t : TypeExpr} (hm : m.ty = none) (ht : g.ReadsType t.tokens t) :
    IsPrimary g (sizeof m t).tokens (.sizeof m t) := by
  refine ⟨_, _, rfl, fun _ => rfl, ?_⟩
  intro p c ks hc
  simp only [cons_append, append_assoc, nil_append] at hc
  refine (leaves_expectSymbol hc).bind ?_
  rintro _ c1 h1 - -
  apply (ht c1 _ h1 (by simp [Unmarked])).closed
  intro t' _ ht'
  simp [unplaced, unplaced_unchecked hm, ht']

/-- A service of the run-time library goes by its own name, which is neither `cast` nor `sizeof`. -/
theorem builtinRule_name (b : Builtin) (m : Mark) :
    builtinRule g m b.name = do
      let _ ← expectSymbol .leftParen
      return .builtin m b (← argsRule g) := by
  cases b <;> rfl

theorem isPrimary_builtin {b : Builtin} {args : List Expr} (hm : m.ty = none)
    (hargs : ∀ e ∈ args, e.Surface ∧ g.ReadsExpr e.tokens e) :
    IsPrimary g (builtin m b args).tokens (.builtin m b args) := by
  refine ⟨_, _, rfl, fun _ => rfl, ?_⟩
  intro p c ks hc
  simp only [cons_append, append_assoc, nil_append] at hc
  change Leaves (builtinRule g (unchecked p) b.name) c ks _
  rw [builtinRule_name]
  refine (leaves_expectSymbol hc).bind ?_
  rintro _ c1 h1 - -
  refine (leaves_args hargs h1).bind ?_
  rintro args' c2 h2 - hargs'
  exact leaves_pure h2 (by simp [unplaced, unplaced_unchecked hm, hargs'])

end

/-! ## Operands -/

section

variable {g : Nested} {w : List TokenKind} {e : Expr} {m : Mark}

/-- What follows a prefix operator is an operand, which ends where the whole does. -/
theorem leaves_prefixed {e1 : Expr} {f : Expr → Expr} {c : Cursor} {ks : List TokenKind}
    (h : g.ReadsOperand w e) (hf : ∀ e', e'.unplaced = e.unplaced → (f e').unplaced = e1.unplaced)
    (hc : c.kinds = w ++ ks) (hstops : Stops 5 ks) :
    Leaves (do return f (← g.operand)) c ks
      fun e' c' => e'.unplaced = e1.unplaced ∧ c'.skip = c' := by
  refine (h c ks hc hstops).bind ?_
  rintro e' c1 h1 - ⟨he, hskip⟩
  exact leaves_pure h1 ⟨hf e' he, hskip⟩

/-- A prefix operator and its operand are read back. -/
theorem readsAt_unary (h : g.ReadsOperand w e) (hm : m.ty = none) (op : UnOp) :
    ReadsAt g 5 (.symbol op.symbol :: w) (.unary m op e) := by
  intro c ks hc hstops
  change Leaves (operandRule g) c ks _
  unfold operandRule
  refine (leaves_here c).bind ?_
  rintro p _ h1 - rfl
  rw [hc] at h1
  have hnode : ∀ e', e'.unplaced = e.unplaced →
      (unary (unchecked p) op e').unplaced = (unary m op e).unplaced := by
    intro e' he
    simp [unplaced, unplaced_unchecked hm, he]
  cases op with
  | neg =>
    apply leaves_choice h1
    intro c1 h2 _
    exact leaves_prefixed h hnode h2 hstops
  | not =>
    apply leaves_choice_none c.skip_skip h1 (by simp [UnOp.symbol])
    apply leaves_choice h1
    intro c1 h2 _
    exact leaves_prefixed h hnode h2 hstops

/-- So is the address of an operand. -/
theorem readsAt_addrOf (h : g.ReadsOperand w e) (hm : m.ty = none) :
    ReadsAt g 5 (.symbol .ampersand :: w) (.addrOf m e) := by
  intro c ks hc hstops
  change Leaves (operandRule g) c ks _
  unfold operandRule
  refine (leaves_here c).bind ?_
  rintro p _ h1 - rfl
  rw [hc] at h1
  apply leaves_choice_none c.skip_skip h1 (by simp)
  apply leaves_choice_none c.skip_skip h1 (by simp)
  apply leaves_choice h1
  intro c1 h2 _
  refine leaves_prefixed h ?_ h2 hstops
  intro e' he
  simp [unplaced, unplaced_unchecked hm, he]

/-- An index is one more suffix. -/
theorem OpensSuffixes.index {i : Expr} (h : OpensSuffixes g w e) (hm : m.ty = none)
    (hi : g.ReadsExpr i.tokens i) :
    OpensSuffixes g (w ++ .symbol .leftBracket :: (i.tokens ++ [.symbol .rightBracket]))
      (.index m e i) := by
  apply h.extend
  intro base k c ks ks' P hc hk hbase hgo
  unfold suffixes
  refine (leaves_here c).bind ?_
  rintro p _ h1 hle rfl
  rw [hc, append_assoc] at h1
  apply leaves_choice_none c.skip_skip h1 (by simp)
  apply leaves_choice h1
  intro c2 h2 hlt
  refine (hi c2 _ h2 (stops_symbol (by simp))).bind ?_
  rintro i' c3 h3 hle3 hi'
  refine (leaves_expectSymbol h3).bind ?_
  rintro _ c4 h4 hle4 -
  apply hgo _ c4 h4 (by omega)
  simp [unplaced, hbase, hi', unplaced_unchecked hm]

/-- So is a call. -/
theorem OpensSuffixes.call {args : List Expr} (h : OpensSuffixes g w e) (hm : m.ty = none)
    (hargs : ∀ e ∈ args, e.Surface ∧ g.ReadsExpr e.tokens e) :
    OpensSuffixes g
      (w ++ .symbol .leftParen :: (commas (tokensAll args) ++ [.symbol .rightParen]))
      (.call m e args) := by
  apply h.extend
  intro base k c ks ks' P hc hk hbase hgo
  unfold suffixes
  refine (leaves_here c).bind ?_
  rintro p _ h1 hle rfl
  rw [hc, append_assoc] at h1
  apply leaves_choice h1
  intro c2 h2 hlt
  refine (leaves_args hargs h2).bind ?_
  rintro args' c3 h3 hle3 hargs'
  apply hgo _ c3 h3 (by omega)
  simp [unplaced, hbase, hargs', unplaced_unchecked hm]

end

/-! ## Types -/

/-- The rule for types reads the tokens as the tree, up to anything but the mark of a sign. -/
def ReadsTypeAt (g : Nested) (w : List TokenKind) (t : TypeExpr) : Prop :=
  ∀ c ks, c.kinds = w ++ ks → Unmarked ks →
    Leaves (typeRule g) c ks fun t' _ => t'.unplaced = t.unplaced

section

variable {g : Nested}

/-- A sign is read if there is one. -/
theorem leaves_signMark {c : Cursor} {ks : List TokenKind} {signed : Option Bool}
    (hc : c.kinds =
      (signed.map fun b => TokenKind.symbol (if b then .question else .bang)).toList ++ ks)
    (hks : Unmarked ks) : Leaves signMark c ks fun signed' _ => signed' = signed := by
  unfold signMark
  match signed with
  | some false =>
    apply leaves_choice hc
    intro c1 h1 _
    exact leaves_pure h1 rfl
  | some true =>
    refine (leaves_takeSymbol_none (by simp [hc])).bind ?_
    rintro _ c1 h1 - ⟨rfl, -⟩
    apply leaves_choice (h1.trans hc)
    intro c2 h2 _
    exact leaves_pure h2 rfl
  | none =>
    refine (leaves_takeSymbol_none (by rw [hc]; exact hks.1)).bind ?_
    rintro _ c1 h1 - ⟨rfl, -⟩
    refine (leaves_takeSymbol_none (by rw [h1, hc]; exact hks.2)).bind ?_
    rintro _ c2 h2 - ⟨rfl, -⟩
    exact leaves_pure (h2.trans (h1.trans hc)) rfl

/-- An integer type is read back with its sign, if it has one. -/
theorem readsTypeAt_int {bits : Nat} (hbits : bits = 64 ∨ bits = 16) (signed : Option Bool) :
    ReadsTypeAt g (TypeExpr.int bits signed).tokens (.int bits signed) := by
  intro c ks hc hks
  rcases hbits with rfl | rfl
  · refine (leaves_expect hc fun _ => rfl).bind ?_
    rintro ⟨_, _⟩ c1 h1 - rfl
    refine (leaves_signMark h1 hks).bind ?_
    rintro _ c2 h2 - rfl
    exact leaves_pure h2 rfl
  · refine (leaves_expect hc fun _ => rfl).bind ?_
    rintro ⟨_, _⟩ c1 h1 - rfl
    refine (leaves_signMark h1 hks).bind ?_
    rintro _ c2 h2 - rfl
    exact leaves_pure h2 rfl

theorem readsTypeAt_ptr {t : TypeExpr} (h : g.ReadsType t.tokens t) :
    ReadsTypeAt g (TypeExpr.ptr t).tokens (.ptr t) := by
  intro c ks hc hks
  refine (leaves_expect hc fun _ => rfl).bind ?_
  rintro ⟨_, _⟩ c1 h1 - rfl
  refine (h c1 ks h1 hks).bind ?_
  rintro t' c2 h2 - ht
  exact leaves_pure h2 (by simp [TypeExpr.unplaced, ht])

/-- An array type is read back with its length. -/
theorem readsTypeAt_array {t : TypeExpr} {length : Expr} (hlength : g.ReadsExpr length.tokens length)
    (h : g.ReadsType t.tokens t) : ReadsTypeAt g (TypeExpr.array length t).tokens (.array length t) := by
  intro c ks hc hks
  have hc : c.kinds = .symbol .leftBracket ::
      (length.tokens ++ .symbol .rightBracket :: (t.tokens ++ ks)) := by
    simpa [TypeExpr.tokens] using hc
  refine (leaves_expect hc fun _ => rfl).bind ?_
  rintro ⟨_, _⟩ c1 h1 - rfl
  refine (hlength c1 _ h1 (stops_symbol (by simp))).bind ?_
  rintro length' c2 h2 - hlength'
  refine (leaves_expectSymbol h2).bind ?_
  rintro _ c3 h3 - -
  refine (h c3 ks h3 hks).bind ?_
  rintro t' c4 h4 - ht
  exact leaves_pure h4 (by simp [TypeExpr.unplaced, hlength', ht])

end

end Sigil.Parser
