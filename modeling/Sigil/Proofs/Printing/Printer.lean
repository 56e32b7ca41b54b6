import Sigil.Tree

/-!
# Printing expressions

An expression is printed to the kinds of its tokens, with parentheses only where the levels of
precedence ask for them:

    0  ||    1  &&    2  == != < <= > >=    3  + -    4  * / %    5  prefix - ! &    6  suffixes

An operator between two operands groups from the left, so its right operand has to bind more tightly
than the operator itself. What is written in brackets of any kind stands alone and needs none of its own.

Only surface expressions are printed: those that have no types yet, hold no zero fill and no enum value,
and name the two widths of integers that the grammar has (`Expr.Surface`). Two of them are the same up to
places if they are equal once every place is forgotten (`Expr.unplaced`).
-/

namespace Sigil

open TokenKind

/-! ## Levels of precedence -/

namespace BinOp

/-- The symbol of an operator. -/
def symbol : BinOp → Symbol
  | add => .plus | sub => .minus | mul => .star | div => .slash | rem => .percent
  | eq => .equalEqual | ne => .notEqual | lt => .less | le => .lessEqual | gt => .greater
  | ge => .greaterEqual | and => .andAnd | or => .orOr

/-- How tightly an operator binds. -/
def level : BinOp → Nat
  | or => 0
  | and => 1
  | eq | ne | lt | le | gt | ge => 2
  | add | sub => 3
  | mul | div | rem => 4

theorem level_le (op : BinOp) : op.level ≤ 4 := by
  cases op <;> decide

end BinOp

/-- The symbol of a prefix operator. -/
def UnOp.symbol : UnOp → Symbol
  | neg => .minus
  | not => .bang

namespace Expr

/-- How tightly the outermost operator of an expression binds. -/
def level : Expr → Nat
  | .binary _ op _ _ => op.level
  | .unary _ _ _ | .addrOf _ _ => 5
  | _ => 6

/-- The tokens of an expression where one of the given level is asked for: in parentheses if the
expression binds less tightly. -/
def enclosed (n : Nat) (e : Expr) (ts : List TokenKind) : List TokenKind :=
  if e.level < n then .symbol .leftParen :: (ts ++ [.symbol .rightParen]) else ts

end Expr

/-! ## The printer -/

/-- Pieces with commas between them. -/
def commas (pieces : List (List TokenKind)) : List TokenKind :=
  List.intercalate [.symbol .comma] pieces

theorem commas_cons (w : List TokenKind) (ws : List (List TokenKind)) :
    commas (w :: ws) = w ++ (match ws with
      | [] => []
      | _ => .symbol .comma :: commas ws) := by
  cases ws with
  | nil => simp [commas]
  | cons w' ws => simp [commas, List.intercalate_cons_cons]

mutual

/-- The tokens of an expression. Zero fill and enum values have none. -/
def Expr.tokens : Expr → List TokenKind
  | .intLit _ n => [.number (toString n.toNat) n]
  | .boolLit _ b => [.keyword (if b then .true_ else .false_)]
  | .charLit _ c => [.char c]
  | .strLit _ s => [.text s]
  | .nil _ => [.keyword .nil]
  | .ident _ x => [.ident x]
  | .binary _ op l r =>
    l.enclosed op.level l.tokens ++ .symbol op.symbol :: r.enclosed (op.level + 1) r.tokens
  | .unary _ op e => .symbol op.symbol :: e.enclosed 5 e.tokens
  | .addrOf _ e => .symbol .ampersand :: e.enclosed 5 e.tokens
  | .deref _ e => e.enclosed 6 e.tokens ++ [.symbol .ampersand]
  | .call _ f args =>
    f.enclosed 6 f.tokens ++
      .symbol .leftParen :: (commas (Expr.tokensAll args) ++ [.symbol .rightParen])
  | .member _ e x => e.enclosed 6 e.tokens ++ [.symbol .period, .ident x]
  | .index _ e i =>
    e.enclosed 6 e.tokens ++ .symbol .leftBracket :: (i.tokens ++ [.symbol .rightBracket])
  | .structLit _ fields =>
    .symbol .leftBrace :: (commas (Expr.tokensFields fields) ++ [.symbol .rightBrace])
  | .arrayLit _ es => .symbol .leftBracket :: (commas (Expr.tokensAll es) ++ [.symbol .rightBracket])
  | .cast _ t e =>
    .builtin "cast" :: .symbol .less :: (t.tokens ++
      .symbol .greater :: .symbol .leftParen :: (e.tokens ++ [.symbol .rightParen]))
  | .sizeof _ t =>
    .builtin "sizeof" :: .symbol .leftParen :: (t.tokens ++ [.symbol .rightParen])
  | .builtin _ b args =>
    .builtin b.name :: .symbol .leftParen :: (commas (Expr.tokensAll args) ++ [.symbol .rightParen])
  | .zeroed _ | .enumLit _ _ _ => []

/-- The tokens of each of some expressions. -/
def Expr.tokensAll : List Expr → List (List TokenKind)
  | [] => []
  | e :: es => e.tokens :: Expr.tokensAll es

/-- The tokens of each of some fields. -/
def Expr.tokensFields : List (String × Expr) → List (List TokenKind)
  | [] => []
  | (x, e) :: fields => (.ident x :: .symbol .colon :: e.tokens) :: Expr.tokensFields fields

/-- The tokens of a type. -/
def TypeExpr.tokens : TypeExpr → List TokenKind
  | .int bits signed =>
    .keyword (if bits = 64 then .int else .short) ::
      (signed.map fun b => TokenKind.symbol (if b then .question else .bang)).toList
  | .char => [.keyword .char]
  | .bool => [.keyword .bool]
  | .str => [.keyword .str]
  | .void => [.keyword .void]
  | .named x => [.ident x]
  | .ptr t => .symbol .star :: t.tokens
  | .array length t =>
    .symbol .leftBracket :: (length.tokens ++ .symbol .rightBracket :: t.tokens)

end

/-! ## Surface expressions -/

mutual

/-- The expression has a spelling: nothing in it is typed, zero fill or an enum value. -/
def Expr.Surface : Expr → Prop
  | .intLit m _ | .boolLit m _ | .charLit m _ | .strLit m _ | .nil m | .ident m _ => m.ty = none
  | .binary m _ l r => m.ty = none ∧ l.Surface ∧ r.Surface
  | .unary m _ e | .addrOf m e | .deref m e | .member m e _ => m.ty = none ∧ e.Surface
  | .index m e i => m.ty = none ∧ e.Surface ∧ i.Surface
  | .call m f args => m.ty = none ∧ f.Surface ∧ Expr.SurfaceAll args
  | .structLit m fields => m.ty = none ∧ Expr.SurfaceFields fields
  | .arrayLit m es => m.ty = none ∧ Expr.SurfaceAll es
  | .cast m t e => m.ty = none ∧ t.Surface ∧ e.Surface
  | .sizeof m t => m.ty = none ∧ t.Surface
  | .builtin m _ args => m.ty = none ∧ Expr.SurfaceAll args
  | .zeroed _ | .enumLit _ _ _ => False

/-- Some expressions have a spelling. -/
def Expr.SurfaceAll : List Expr → Prop
  | [] => True
  | e :: es => e.Surface ∧ Expr.SurfaceAll es

/-- Some fields have a spelling. -/
def Expr.SurfaceFields : List (String × Expr) → Prop
  | [] => True
  | (_, e) :: fields => e.Surface ∧ Expr.SurfaceFields fields

/-- The type has a spelling: an integer type has one of two widths. -/
def TypeExpr.Surface : TypeExpr → Prop
  | .int bits _ => bits = 64 ∨ bits = 16
  | .char | .bool | .str | .void | .named _ => True
  | .ptr t => t.Surface
  | .array length t => length.Surface ∧ t.Surface

end

/-! ## Trees without places -/

/-- A mark without its place. -/
def Mark.unplaced (m : Mark) : Mark :=
  { m with pos := .origin }

mutual

/-- An expression without its places. -/
def Expr.unplaced : Expr → Expr
  | .intLit m n => .intLit m.unplaced n
  | .boolLit m b => .boolLit m.unplaced b
  | .charLit m c => .charLit m.unplaced c
  | .strLit m s => .strLit m.unplaced s
  | .nil m => .nil m.unplaced
  | .ident m x => .ident m.unplaced x
  | .binary m op l r => .binary m.unplaced op l.unplaced r.unplaced
  | .unary m op e => .unary m.unplaced op e.unplaced
  | .addrOf m e => .addrOf m.unplaced e.unplaced
  | .deref m e => .deref m.unplaced e.unplaced
  | .call m f args => .call m.unplaced f.unplaced (Expr.unplacedAll args)
  | .member m e x => .member m.unplaced e.unplaced x
  | .index m e i => .index m.unplaced e.unplaced i.unplaced
  | .structLit m fields => .structLit m.unplaced (Expr.unplacedFields fields)
  | .arrayLit m es => .arrayLit m.unplaced (Expr.unplacedAll es)
  | .cast m t e => .cast m.unplaced t.unplaced e.unplaced
  | .sizeof m t => .sizeof m.unplaced t.unplaced
  | .builtin m b args => .builtin m.unplaced b (Expr.unplacedAll args)
  | .zeroed m => .zeroed m.unplaced
  | .enumLit m x n => .enumLit m.unplaced x n

/-- Some expressions without their places. -/
def Expr.unplacedAll : List Expr → List Expr
  | [] => []
  | e :: es => e.unplaced :: Expr.unplacedAll es

/-- Some fields without their places. -/
def Expr.unplacedFields : List (String × Expr) → List (String × Expr)
  | [] => []
  | (x, e) :: fields => (x, e.unplaced) :: Expr.unplacedFields fields

/-- A type without its places. -/
def TypeExpr.unplaced : TypeExpr → TypeExpr
  | .int bits signed => .int bits signed
  | .char => .char
  | .bool => .bool
  | .str => .str
  | .void => .void
  | .named x => .named x
  | .ptr t => .ptr t.unplaced
  | .array length t => .array length.unplaced t.unplaced

end

namespace Expr

theorem tokensAll_eq (es : List Expr) : tokensAll es = es.map tokens := by
  induction es with
  | nil => rfl
  | cons e es ih => simp [tokensAll, ih]

/-- The tokens of a field. -/
def fieldTokens (field : String × Expr) : List TokenKind :=
  .ident field.1 :: .symbol .colon :: field.2.tokens

theorem tokensFields_eq (fields : List (String × Expr)) :
    tokensFields fields = fields.map fieldTokens := by
  induction fields with
  | nil => rfl
  | cons field fields ih => simp [tokensFields, fieldTokens, ih]

theorem unplacedAll_eq (es : List Expr) : unplacedAll es = es.map unplaced := by
  induction es with
  | nil => rfl
  | cons e es ih => simp [unplacedAll, ih]

theorem unplacedFields_eq (fields : List (String × Expr)) :
    unplacedFields fields = fields.map fun field => (field.1, field.2.unplaced) := by
  induction fields with
  | nil => rfl
  | cons field fields ih => simp [unplacedFields, ih]

end Expr

/-! ## What is printed is seen -/

/-- The grammar sees all of the tokens: none is a comment or a lexical error. -/
def Seen (w : List TokenKind) : Prop :=
  ∀ k ∈ w, k.isSkipped = false

@[simp] theorem seen_nil : Seen [] :=
  List.forall_mem_nil _

@[simp] theorem seen_cons {k : TokenKind} {w : List TokenKind} :
    Seen (k :: w) ↔ k.isSkipped = false ∧ Seen w :=
  List.forall_mem_cons

@[simp] theorem seen_append {w w' : List TokenKind} : Seen (w ++ w') ↔ Seen w ∧ Seen w' :=
  List.forall_mem_append

theorem Seen.enclosed {w : List TokenKind} (h : Seen w) (n : Nat) (e : Expr) :
    Seen (e.enclosed n w) := by
  unfold Expr.enclosed
  split
  · simp [h, isSkipped]
  · exact h

theorem seen_commas {ws : List (List TokenKind)} (h : ∀ w ∈ ws, Seen w) : Seen (commas ws) := by
  induction ws with
  | nil => simp [commas]
  | cons w ws ih =>
    obtain ⟨hw, hws⟩ := List.forall_mem_cons.1 h
    rw [commas_cons, seen_append]
    refine ⟨hw, ?_⟩
    split
    · exact seen_nil
    · exact seen_cons.2 ⟨rfl, ih hws⟩

mutual

/-- All that is printed can be seen, by recursion on the expression. -/
theorem Expr.seen_tokens (e : Expr) : Seen e.tokens := by
  match e with
  | .intLit _ _ | .boolLit _ _ | .charLit _ _ | .strLit _ _ | .nil _ | .ident _ _ | .zeroed _
  | .enumLit _ _ _ => simp [Expr.tokens, isSkipped]
  | .binary _ op l r =>
    have hl := l.seen_tokens.enclosed op.level l
    have hr := r.seen_tokens.enclosed (op.level + 1) r
    simp [Expr.tokens, isSkipped, hl, hr]
  | .unary _ _ e | .addrOf _ e =>
    have he := e.seen_tokens.enclosed 5 e
    simp [Expr.tokens, isSkipped, he]
  | .deref _ e | .member _ e _ =>
    have he := e.seen_tokens.enclosed 6 e
    simp [Expr.tokens, isSkipped, he]
  | .index _ e i =>
    have he := e.seen_tokens.enclosed 6 e
    simp [Expr.tokens, isSkipped, he, i.seen_tokens]
  | .call _ f args =>
    have hf := f.seen_tokens.enclosed 6 f
    simp [Expr.tokens, isSkipped, hf, seen_commas (Expr.seen_tokensAll args)]
  | .arrayLit _ es | .builtin _ _ es =>
    simp [Expr.tokens, isSkipped, seen_commas (Expr.seen_tokensAll es)]
  | .structLit _ fields =>
    simp [Expr.tokens, isSkipped, seen_commas (Expr.seen_tokensFields fields)]
  | .cast _ t e => simp [Expr.tokens, isSkipped, t.seen_tokens, e.seen_tokens]
  | .sizeof _ t => simp [Expr.tokens, isSkipped, t.seen_tokens]

theorem Expr.seen_tokensAll (es : List Expr) : ∀ w ∈ Expr.tokensAll es, Seen w := by
  match es with
  | [] => exact List.forall_mem_nil _
  | e :: es => exact List.forall_mem_cons.2 ⟨e.seen_tokens, Expr.seen_tokensAll es⟩

theorem Expr.seen_tokensFields (fields : List (String × Expr)) :
    ∀ w ∈ Expr.tokensFields fields, Seen w := by
  match fields with
  | [] => exact List.forall_mem_nil _
  | (x, e) :: fields =>
    have hfield : Seen (.ident x :: .symbol .colon :: e.tokens) := by
      simp [isSkipped, e.seen_tokens]
    exact List.forall_mem_cons.2 ⟨hfield, Expr.seen_tokensFields fields⟩

theorem TypeExpr.seen_tokens (t : TypeExpr) : Seen t.tokens := by
  match t with
  | .int _ none | .int _ (some _) | .char | .bool | .str | .void | .named _ =>
    simp [TypeExpr.tokens, isSkipped]
  | .ptr t => simp [TypeExpr.tokens, isSkipped, t.seen_tokens]
  | .array length t =>
    simp [TypeExpr.tokens, isSkipped, length.seen_tokens, t.seen_tokens]

end

end Sigil
