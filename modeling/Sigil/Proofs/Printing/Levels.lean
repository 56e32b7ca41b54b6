import Sigil.Proofs.Printing.Printer
import Sigil.Proofs.Printing.Reading

/-!
# Levels of the grammar

The rules for expressions, by level of precedence (`ruleAt`). A rule reads a tree from its tokens if what
follows cannot continue the tree at that level (`ReadsAt`). Levels with operators between operands, and
the suffixes of an operand, are loops: there the rule reads the tokens of a tree and then goes on with
the loop, so that what follows may extend the tree to the right (`OpensAt`, `OpensSuffixes`). One lemma
says of each form how it is read from its parts.
-/

namespace Sigil.Parser

/-! ## Rules and operators by level -/

/-- The rule for expressions that bind at least as tightly as the given level. -/
def ruleAt (g : Nested) : Nat → Parser Expr
  | 0 => exprRule g
  | 1 => andRule g
  | 2 => compareRule g
  | 3 => sumRule g
  | 4 => productRule g
  | _ => operandRule g

/-- The operators of a level. -/
def opAt? : Nat → Symbol → Option BinOp
  | 0 => orOp?
  | 1 => andOp?
  | 2 => compareOp?
  | 3 => sumOp?
  | 4 => productOp?
  | _ => fun _ => none

theorem ruleAt_eq_chain (g : Nested) {n : Nat} (hn : n ≤ 4) :
    ruleAt g n = chain (opAt? n) (ruleAt g (n + 1)) := by
  match n, hn with
  | 0, _ | 1, _ | 2, _ | 3, _ | 4, _ => rfl

theorem opAt?_symbol (op : BinOp) : opAt? op.level op.symbol = some op := by
  cases op <;> rfl

/-- Each level has its own operators. -/
theorem eq_of_opAt? {n : Nat} {s : Symbol} {op : BinOp} (h : opAt? n s = some op) :
    s = op.symbol ∧ n = op.level := by
  unfold opAt? at h
  split at h
  · unfold orOp? at h
    split at h <;> cases h
    exact ⟨rfl, rfl⟩
  · unfold andOp? at h
    split at h <;> cases h
    exact ⟨rfl, rfl⟩
  · unfold compareOp? at h
    split at h <;> cases h
    all_goals exact ⟨rfl, rfl⟩
  · unfold sumOp? at h
    split at h <;> cases h
    all_goals exact ⟨rfl, rfl⟩
  · unfold productOp? at h
    split at h <;> cases h
    all_goals exact ⟨rfl, rfl⟩
  · cases h

/-! ## What ends an expression -/

/-- The symbols with which a suffix starts. -/
def suffixSymbols : List Symbol :=
  [.leftParen, .leftBracket, .period, .ampersand]

/-- An expression of the given level does not go on with these tokens: they start with no suffix and
with no operator that binds at least as tightly. -/
structure Stops (n : Nat) (ks : List TokenKind) : Prop where
  suffix : ∀ s ∈ suffixSymbols, ks.head? ≠ some (.symbol s)
  operator : ∀ op : BinOp, n ≤ op.level → ks.head? ≠ some (.symbol op.symbol)

section

variable {n m : Nat} {ks : List TokenKind}

theorem Stops.mono (h : Stops n ks) (hn : n ≤ m) : Stops m ks :=
  ⟨h.suffix, fun op hop => h.operator op (Nat.le_trans hn hop)⟩

/-- Commas and closing brackets end an expression. -/
theorem stops_symbol {s : Symbol} (hs : s ∈ [Symbol.comma, .rightParen, .rightBracket, .rightBrace]) :
    Stops 0 (.symbol s :: ks) := by
  constructor
  · intro s' hs' h
    obtain rfl := TokenKind.symbol.inj (Option.some.inj h)
    revert hs hs'
    cases s <;> decide
  · intro op _ h
    obtain rfl := TokenKind.symbol.inj (Option.some.inj h)
    revert hs
    cases op <;> decide

/-- An operator ends operands that bind more tightly. -/
theorem stops_operator (op : BinOp) : Stops (op.level + 1) (.symbol op.symbol :: ks) := by
  constructor
  · intro s hs h
    obtain rfl := TokenKind.symbol.inj (Option.some.inj h)
    revert hs
    cases op <;> decide
  · intro op' hop h
    have hsymbol : op.symbol = op'.symbol := TokenKind.symbol.inj (Option.some.inj h)
    revert hop hsymbol
    cases op <;> cases op' <;> decide

end

/-! ## Loops over operators -/

/-- A new node has no type, and so differs from a node without a type in its place only. -/
theorem unplaced_unchecked {m : Mark} (hm : m.ty = none) (p : Position) :
    (unchecked p).unplaced = m.unplaced := by
  rw [Mark.unplaced, Mark.unplaced, hm]
  rfl

/-- The rule of the level reads the tokens as the tree, whatever follows that does not continue it. -/
def ReadsAt (g : Nested) (n : Nat) (w : List TokenKind) (e : Expr) : Prop :=
  ∀ c ks, c.kinds = w ++ ks → Stops n ks →
    Leaves (ruleAt g n) c ks fun e' c' => e'.unplaced = e.unplaced ∧ c'.skip = c'

/-- The rule of the level reads the tokens as the tree and goes on with the operators of the level. -/
def OpensAt (g : Nested) (n : Nat) (w : List TokenKind) (e : Expr) : Prop :=
  ∀ c ks ks' P, c.kinds = w ++ ks → Stops (n + 1) ks →
    (∀ e' m c', c'.kinds = ks → c'.tokens.length ≤ m → e'.unplaced = e.unplaced →
      Leaves (chain.go (opAt? n) (ruleAt g (n + 1)) m e') c' ks' P) →
    Leaves (ruleAt g n) c ks' P

section

variable {g : Nested} {n k : Nat} {w w' ks ks' : List TokenKind} {e l r : Expr} {c : Cursor} {m : Mark}

/-- The loop stops where no operator of its level follows. -/
theorem leaves_go_of_stops {x : Parser Expr} {left : Expr} (hc : c.kinds = ks)
    (hk : c.tokens.length ≤ k) (hstops : Stops n ks) (he : left.unplaced = e.unplaced) :
    Leaves (chain.go (opAt? n) x k left) c ks
      fun e' c' => e'.unplaced = e.unplaced ∧ c'.skip = c' := by
  cases k with
  | zero =>
    -- If no round is left, no token is left either, and nothing is there to be passed over.
    exact leaves_pure hc ⟨he, Cursor.skip_of_length_le_zero hk⟩
  | succ k =>
    unfold chain.go
    refine (leaves_peek c).bind ?_
    rintro t? _ hkinds - ⟨hhead, rfl⟩
    rw [hc] at hkinds hhead
    split
    · next s pos =>
      split
      · next op hop =>
        obtain ⟨rfl, rfl⟩ := eq_of_opAt? hop
        exact absurd hhead.symm (hstops.operator op (Nat.le_refl _))
      · exact leaves_pure hkinds ⟨he, c.skip_skip⟩
    · exact leaves_pure hkinds ⟨he, c.skip_skip⟩

/-- The loop reads an operator of its level with the operand on its right, and goes on. -/
theorem leaves_go_of_operator {op : BinOp} {left : Expr} {P : Expr → Cursor → Prop}
    (hc : c.kinds = .symbol op.symbol :: (w ++ ks)) (hk : c.tokens.length ≤ k)
    (hr : ReadsAt g (op.level + 1) w r) (hstops : Stops (op.level + 1) ks)
    (hgo : ∀ p r' k' c', c'.kinds = ks → c'.tokens.length ≤ k' → r'.unplaced = r.unplaced →
      Leaves (chain.go (opAt? op.level) (ruleAt g (op.level + 1)) k'
        (.binary (unchecked p) op left r')) c' ks' P) :
    Leaves (chain.go (opAt? op.level) (ruleAt g (op.level + 1)) k left) c ks' P := by
  cases k with
  | zero =>
    -- The operator is a token, so a round is left.
    have hlength := c.length_kinds_le
    rw [hc, List.length_cons] at hlength
    omega
  | succ k =>
    unfold chain.go
    refine (leaves_peek c).bind ?_
    rintro t? _ hkinds hskip ⟨hhead, rfl⟩
    rw [hc] at hkinds hhead
    obtain ⟨⟨kind, pos⟩, rfl, hkind⟩ := Option.map_eq_some_iff.1 hhead
    obtain rfl : kind = .symbol op.symbol := hkind
    simp only [opAt?_symbol]
    refine (leaves_next hkinds).bind ?_
    rintro _ c1 h1 - hlength
    refine (hr c1 ks h1 hstops).bind ?_
    rintro r' c2 h2 hle ⟨hr', -⟩
    exact hgo pos r' k c2 h2 (by omega) hr'

theorem ReadsAt.opensAt (h : ReadsAt g (n + 1) w e) (hn : n ≤ 4) : OpensAt g n w e := by
  intro c ks ks' P hc hstops hgo
  rw [ruleAt_eq_chain g hn]
  refine (h c ks hc hstops).bind ?_
  rintro e' c1 h1 - ⟨he, -⟩
  refine (leaves_remaining c1).bind ?_
  rintro _ _ - - ⟨rfl, rfl⟩
  exact hgo e' _ _ h1 (Nat.le_refl _) he

theorem OpensAt.readsAt (h : OpensAt g n w e) : ReadsAt g n w e := by
  intro c ks hc hstops
  apply h c ks ks _ hc (hstops.mono (Nat.le_succ n))
  intro e' k c' hc' hk he
  exact leaves_go_of_stops hc' hk hstops he

/-- What is read at a level is read at every level below. -/
theorem ReadsAt.lower (h : ReadsAt g n w e) (hn : n ≤ 5) (hk : k ≤ n) : ReadsAt g k w e := by
  induction n with
  | zero =>
    obtain rfl := Nat.le_zero.1 hk
    exact h
  | succ n ih =>
    by_cases hlast : k = n + 1
    · exact hlast ▸ h
    · have hbelow := (h.opensAt (by omega)).readsAt
      exact ih hbelow (by omega) (by omega)

/-- An operator is read on its level, to the right of an expression of that level. -/
theorem OpensAt.binary {op : BinOp} (hl : OpensAt g op.level w l)
    (hr : ReadsAt g (op.level + 1) w' r) (hm : m.ty = none) :
    OpensAt g op.level (w ++ .symbol op.symbol :: w') (.binary m op l r) := by
  intro c ks ks' P hc hstops hgo
  rw [List.append_assoc] at hc
  -- The left operand is read up to the operator, which does not belong to any level above its own.
  apply hl c (.symbol op.symbol :: (w' ++ ks)) ks' P hc (stops_operator op)
  intro l' k c1 h1 hk hl'
  apply leaves_go_of_operator h1 hk hr hstops
  intro p r' k' c2 h2 hk' hr'
  apply hgo _ k' c2 h2 hk'
  simp [Expr.unplaced, hl', hr', unplaced_unchecked hm]

end

/-! ## Suffixes -/

/-- The rule for operands reads the tokens as the tree and goes on with its suffixes. -/
def OpensSuffixes (g : Nested) (w : List TokenKind) (e : Expr) : Prop :=
  ∀ c ks ks' P, c.kinds = w ++ ks →
    (∀ e' k c', c'.kinds = ks → c'.tokens.length ≤ k → e'.unplaced = e.unplaced →
      Leaves (suffixes g k e') c' ks' P) →
    Leaves (operandRule g) c ks' P

section

variable {g : Nested} {k : Nat} {w w' ks ks' : List TokenKind} {e e1 : Expr} {c : Cursor} {m : Mark}

/-- The loop stops where no suffix follows. -/
theorem leaves_suffixes_of_stops {base : Expr} (hc : c.kinds = ks) (hk : c.tokens.length ≤ k)
    (hstops : Stops 5 ks) (he : base.unplaced = e.unplaced) :
    Leaves (suffixes g k base) c ks fun e' c' => e'.unplaced = e.unplaced ∧ c'.skip = c' := by
  cases k with
  | zero => exact leaves_pure hc ⟨he, Cursor.skip_of_length_le_zero hk⟩
  | succ k =>
    unfold suffixes
    refine (leaves_here c).bind ?_
    rintro p _ h1 - rfl
    rw [hc] at h1
    apply leaves_choice_none c.skip_skip h1 (hstops.suffix .leftParen (by decide))
    apply leaves_choice_none c.skip_skip h1 (hstops.suffix .leftBracket (by decide))
    apply leaves_choice_none c.skip_skip h1 (hstops.suffix .period (by decide))
    apply leaves_choice_none c.skip_skip h1 (hstops.suffix .ampersand (by decide))
    exact leaves_pure h1 ⟨he, c.skip_skip⟩

theorem OpensSuffixes.readsAt (h : OpensSuffixes g w e) : ReadsAt g 5 w e := by
  intro c ks hc hstops
  apply h c ks ks _ hc
  intro e' k c' hc' hk he
  exact leaves_suffixes_of_stops hc' hk hstops he

/-- A tree with one more suffix is read if one round of the loop reads the suffix. -/
theorem OpensSuffixes.extend {s : Symbol} (h : OpensSuffixes g w e)
    (hround : ∀ base k c ks ks' P, c.kinds = .symbol s :: (w' ++ ks) → c.tokens.length ≤ k + 1 →
      base.unplaced = e.unplaced →
      (∀ e' c', c'.kinds = ks → c'.tokens.length ≤ k → e'.unplaced = e1.unplaced →
        Leaves (suffixes g k e') c' ks' P) →
      Leaves (suffixes g (k + 1) base) c ks' P) :
    OpensSuffixes g (w ++ .symbol s :: w') e1 := by
  intro c ks ks' P hc hgo
  rw [List.append_assoc] at hc
  apply h c (.symbol s :: (w' ++ ks)) ks' P hc
  intro base k c1 h1 hk hbase
  cases k with
  | zero =>
    -- The suffix starts with a token, so a round is left.
    have hlength := c1.length_kinds_le
    rw [h1, List.length_cons] at hlength
    omega
  | succ k =>
    apply hround base k c1 ks ks' P h1 hk hbase
    intro e' c'
    exact hgo e' k c'

/-- A dereference is one more suffix. -/
theorem OpensSuffixes.deref (h : OpensSuffixes g w e) (hm : m.ty = none) :
    OpensSuffixes g (w ++ [.symbol .ampersand]) (.deref m e) := by
  apply h.extend
  intro base k c ks ks' P hc hk hbase hgo
  unfold suffixes
  refine (leaves_here c).bind ?_
  rintro p _ h1 hle rfl
  rw [hc] at h1
  apply leaves_choice_none c.skip_skip h1 (by simp)
  apply leaves_choice_none c.skip_skip h1 (by simp)
  apply leaves_choice_none c.skip_skip h1 (by simp)
  apply leaves_choice h1
  intro c2 h2 hlt
  apply hgo _ c2 h2 (by omega)
  simp [Expr.unplaced, hbase, unplaced_unchecked hm]

/-- So is a field. -/
theorem OpensSuffixes.member (h : OpensSuffixes g w e) (hm : m.ty = none) (x : String) :
    OpensSuffixes g (w ++ [.symbol .period, .ident x]) (.member m e x) := by
  apply h.extend
  intro base k c ks ks' P hc hk hbase hgo
  unfold suffixes
  refine (leaves_here c).bind ?_
  rintro p _ h1 hle rfl
  rw [hc] at h1
  apply leaves_choice_none c.skip_skip h1 (by simp)
  apply leaves_choice_none c.skip_skip h1 (by simp)
  apply leaves_choice h1
  intro c2 h2 hlt
  refine (leaves_name h2).bind ?_
  rintro _ c3 h3 hle3 rfl
  apply hgo _ c3 h3 (by omega)
  simp [Expr.unplaced, hbase, unplaced_unchecked hm]

end

end Sigil.Parser
