import Sigil.Check.Argument
import Sigil.Proofs.Table
import Sigil.Proofs.Typing.Nodes

/-!
# Typing rules

What it means for a checked program to be well typed, apart from how a checker finds the types. Every
node of an expression satisfies the rule for its form (`Typing.Rule`), which relates its type to those
of its parts, to the symbol table and to the types of the locals in scope. Statements are typed under
the locals declared before them, and a name means what it was last declared as (`Typing.Env`).
-/

namespace Sigil

variable {T : Symbols} {Γ : Env} {e : Expr}

/-! ## Lists that go together -/

theorem forall₂_of_mem {α β : Type} {R S : α → β → Prop} {as : List α} {bs : List β}
    (h : List.Forall₂ R as bs) (hS : ∀ a b, a ∈ as → b ∈ bs → R a b → S a b) : List.Forall₂ S as bs := by
  induction h with
  | nil => exact .nil
  | cons hab _ ih =>
    refine .cons (hS _ _ List.mem_cons_self List.mem_cons_self hab) (ih fun a b ha hb => ?_)
    exact hS a b (List.mem_cons_of_mem _ ha) (List.mem_cons_of_mem _ hb)

/-- Of pairs with one list of components, the other components are related to what the pairs are. -/
theorem forall₂_zip {α β γ : Type} {R : α → γ → Prop} {es : List α} {xs : List β} {ys : List γ}
    (hlen : xs.length = ys.length)
    (h : List.Forall₂ (fun e (p : β × γ) => R e p.2) es (xs.zip ys)) : List.Forall₂ R es ys := by
  have hys : (xs.zip ys).map Prod.snd = ys := List.map_snd_zip (Nat.le_of_eq hlen.symm)
  rw [← hys, List.forall₂_map_right_iff]
  exact h

/-! ## Types -/

namespace Ty

variable {t u : Ty}

/-- What one gets by indexing: the element of an array, the target of a pointer, a character of a
string. -/
def elem? : Ty → Option Ty
  | .array _ t => some t
  | .ptr .void => none
  | .ptr t => some t
  | .str => some .char
  | _ => none

theorem Defined.elem {kind : String → Option SymbolKind} (h : u.Defined kind) (ht : u.elem? = some t) :
    t.Defined kind := by
  unfold elem? at ht
  split at ht <;> cases ht
  · exact h
  · exact h
  · trivial

theorem isInt_iff : t.isInt = true ↔ ∃ bits signed, t = .int bits signed := by
  cases t <;> simp [isInt]

/-- The operands of a comparison: they are of one type, each could be stored in place of the other, or
a string is compared with a pointer to anything. -/
def Matches (l r : Ty) : Prop :=
  l = r ∨ (l.assignable r = true ∧ r.assignable l = true)
    ∨ (l = .str ∧ r = .ptr .void) ∨ (l = .ptr .void ∧ r = .str)

theorem isVoidPtr_iff : t.isVoidPtr = true ↔ t = .ptr .void := by
  unfold isVoidPtr
  split <;> simp_all

theorem isOrdered_iff :
    t.isOrdered = true ↔ (∃ bits signed, t = .int bits signed) ∨ t = .char := by
  cases t <;> simp [isOrdered]

theorem assignable_iff {dst src : Ty} :
    dst.assignable src = true ↔ dst = src ∨ dst.isPtr = true ∧ src = .ptr .void
      ∨ dst = .ptr .void ∧ src.isAddress = true ∨ dst = .str ∧ src = .ptr .char
      ∨ dst = .ptr .char ∧ src = .str := by
  simp [assignable, isVoidPtr_iff, or_assoc]

/-- Types with an order are assignable to no other type, and from no other type. -/
theorem eq_of_isOrdered (ht : t.isOrdered = true)
    (h : t.assignable u = true ∨ u.assignable t = true) : u = t := by
  have hp : t.isPtr = false ∧ t.isAddress = false ∧ t ≠ .str := by
    rcases isOrdered_iff.1 ht with ⟨bits, signed, rfl⟩ | rfl <;> simp [isPtr, isAddress]
  have hv : ∀ u, t ≠ .ptr u := fun u hu => by simp [hu, isPtr] at hp
  rcases h with h | h
  · have : t = u := by simpa [assignable_iff, hp, hv] using h
    exact this.symm
  · simpa [assignable_iff, hp, hv] using h

/-- If one type can be stored in place of the other, the two can be compared. -/
theorem matches_of_assignable (h : t.assignable u = true) : t.Matches u := by
  rcases assignable_iff.1 h with rfl | ⟨ht, rfl⟩ | ⟨rfl, hu⟩ | ⟨rfl, rfl⟩ | ⟨rfl, rfl⟩
  · exact Or.inl rfl
  · refine Or.inr (Or.inl ⟨h, assignable_iff.2 (Or.inr (Or.inr (Or.inl ⟨rfl, ?_⟩)))⟩)
    cases t <;> simp [isPtr, isAddress] at ht ⊢
  · cases u with
    | str => exact Or.inr (Or.inr (Or.inr ⟨rfl, rfl⟩))
    | ptr u => exact Or.inr (Or.inl ⟨h, assignable_iff.2 (Or.inr (Or.inl ⟨rfl, rfl⟩))⟩)
    | _ => simp [isAddress] at hu
  · exact Or.inr (Or.inl ⟨rfl, rfl⟩)
  · exact Or.inr (Or.inl ⟨rfl, rfl⟩)

theorem Matches.symm (h : t.Matches u) : u.Matches t := by
  rcases h with rfl | ⟨h, h'⟩ | ⟨rfl, rfl⟩ | ⟨rfl, rfl⟩
  · exact Or.inl rfl
  · exact Or.inr (Or.inl ⟨h', h⟩)
  · exact Or.inr (Or.inr (Or.inr ⟨rfl, rfl⟩))
  · exact Or.inr (Or.inr (Or.inl ⟨rfl, rfl⟩))

end Ty

namespace Typing

/-- The types of the locals in scope. -/
abbrev Env := String → Option Ty

/-- One more local, which hides any other of that name. -/
def Env.bind (Γ : Env) (x : String) (t : Option Ty) : Env :=
  fun y => if y = x then t else Γ y

/-- The locals at the start of a function: its parameters. -/
def Env.ofParams (params : List (String × Ty)) : Env :=
  params.foldl (fun Γ p => Γ.bind p.1 (some p.2)) fun _ => none

/-- An expression with a value that can be stored where `dst` is expected. -/
def Fits (dst : Ty) (e : Expr) : Prop :=
  ∃ t, e.ty = some t ∧ dst.assignable t = true

/-- The rule that a node has to satisfy, by its form. -/
inductive Rule (T : Symbols) (Γ : Env) : Expr → Prop where
  | int {m : Mark} {n : Word} {bits : Nat} {signed : Bool} (h : m.ty = some (.int bits signed)) :
    Rule T Γ (.intLit m n)
  /-- The code of a character. -/
  | code {m : Mark} {n : Word} (h : m.ty = some .char) (hn : n.toNat ≤ 255) : Rule T Γ (.intLit m n)
  | bool {m : Mark} {b : Bool} (h : m.ty = some .bool) : Rule T Γ (.boolLit m b)
  | char {m : Mark} {c : UInt8} (h : m.ty = some .char) : Rule T Γ (.charLit m c)
  | str {m : Mark} {s : String} (h : m.ty = some .str) : Rule T Γ (.strLit m s)
  | nil {m : Mark} {t : Ty} (h : m.ty = some (.ptr t)) : Rule T Γ (.nil m)
  | ident {m : Mark} {x : String} {t : Ty} (hx : Γ x = some t) (h : m.ty = some t) :
    Rule T Γ (.ident m x)
  /-- Arithmetic has operands and a result of one type, which is an integer type or `char`. -/
  | arith {m : Mark} {op : BinOp} {l r : Expr} {t : Ty} (hop : op.isArith = true)
    (ht : t.isOrdered = true) (hl : l.ty = some t) (hr : r.ty = some t) (h : m.ty = some t) :
    Rule T Γ (.binary m op l r)
  /-- All simple types can be compared for equality, and those with arithmetic for order. -/
  | compare {m : Mark} {op : BinOp} {l r : Expr} {t u : Ty} (hop : op.isCompare = true)
    (hl : l.ty = some t) (hr : r.ty = some u) (hm : t.Matches u) (hc : t.isComparable = true)
    (ho : op = .eq ∨ op = .ne ∨ t.isOrdered = true ∧ u = t) (h : m.ty = some .bool) :
    Rule T Γ (.binary m op l r)
  | logic {m : Mark} {op : BinOp} {l r : Expr} (hop : op = .and ∨ op = .or) (hl : l.ty = some .bool)
    (hr : r.ty = some .bool) (h : m.ty = some .bool) : Rule T Γ (.binary m op l r)
  | neg {m : Mark} {e : Expr} {bits : Nat} {signed : Bool} (he : e.ty = some (.int bits signed))
    (h : m.ty = some (.int bits signed)) : Rule T Γ (.unary m .neg e)
  | not {m : Mark} {e : Expr} (he : e.ty = some .bool) (h : m.ty = some .bool) :
    Rule T Γ (.unary m .not e)
  | addrOf {m : Mark} {e : Expr} {t : Ty} (hp : e.isPlace = true) (he : e.ty = some t)
    (h : m.ty = some (.ptr t)) : Rule T Γ (.addrOf m e)
  | deref {m : Mark} {e : Expr} {t : Ty} (ht : t ≠ .void) (he : e.ty = some (.ptr t))
    (h : m.ty = some t) : Rule T Γ (.deref m e)
  /-- There is one argument for each parameter. -/
  | call {m m' : Mark} {x : String} {args : List Expr} {sig : Signature} (hx : Γ x = none)
    (hs : T.funcs.get? x = some sig)
    (ha : List.Forall₂ (fun a (p : String × Ty) => Fits p.2 a) args sig.params)
    (h : m.ty = some sig.ret) : Rule T Γ (.call m (.ident m' x) args)
  | member {m : Mark} {e : Expr} {x s : String} {l : Layout} {f : Field}
    (he : e.ty = some (.struct s)) (hl : T.ask (T.layout s) = .ok l) (hf : l.field? x = some f)
    (h : m.ty = some f.ty) : Rule T Γ (.member m e x)
  | index {m : Mark} {base idx : Expr} {t u : Ty} {bits : Nat} {signed : Bool}
    (hb : base.ty = some u) (hu : u.elem? = some t) (hi : idx.ty = some (.int bits signed))
    (h : m.ty = some t) : Rule T Γ (.index m base idx)
  /-- The fields are those of the struct, in the order of its layout. -/
  | structLit {m : Mark} {fields : List (String × Expr)} {s : String} {l : Layout}
    (hl : T.ask (T.layout s) = .ok l)
    (hf : List.Forall₂ (fun (g : String × Expr) (f : Field) => g.1 = f.name ∧ Fits f.ty g.2)
      fields l.fields)
    (h : m.ty = some (.struct s)) : Rule T Γ (.structLit m fields)
  | arrayLit {m : Mark} {es : List Expr} {t : Ty} (he : ∀ e ∈ es, Fits t e)
    (h : m.ty = some (.array es.length t)) : Rule T Γ (.arrayLit m es)
  | cast {m : Mark} {type : TypeExpr} {e : Expr} {s t : Ty} (hw : type.Means T.kind t)
    (he : e.ty = some s) (hc : s.castable t = true) (h : m.ty = some t) : Rule T Γ (.cast m type e)
  /-- Every argument will do for its role. -/
  | builtin {m : Mark} {b : Builtin} {args : List Expr} {rs : List Check.Role}
    (hr : Check.roles b args.length = .ok rs)
    (ha : List.Forall₂ (fun (a : Expr) (r : Check.Role) => ∃ t, a.ty = some t ∧ r.accepts t = true)
      args rs)
    (h : m.ty = some (Check.resultOf b)) : Rule T Γ (.builtin m b args)
  | zeroed {m : Mark} {t : Ty} (h : m.ty = some t) : Rule T Γ (.zeroed m)
  | enumLit {m : Mark} {x : String} {n : Word} (h : m.ty = some (.enum x)) : Rule T Γ (.enumLit m x n)

/-- A node that satisfies the rule for its form and has a type that exists. -/
structure Node (T : Symbols) (Γ : Env) (e : Expr) : Prop where
  rule : Rule T Γ e
  ty : ∃ t, e.ty = some t ∧ t.Defined T.kind

end Typing

open Typing

/-- An expression all of whose nodes are well typed. -/
def Expr.Typed (T : Symbols) (Γ : Env) (e : Expr) : Prop :=
  ∀ n ∈ e.nodes, Node T Γ n

/-- An expression that can stand as a condition. -/
def Expr.Tests (T : Symbols) (Γ : Env) (e : Expr) : Prop :=
  e.Typed T Γ ∧ ∃ t, e.ty = some t ∧ t.isCondition = true

theorem Expr.typed_iff :
    e.Typed T Γ ↔ Node T Γ e ∧ ∀ c ∈ e.children, c.Typed T Γ :=
  Expr.forall_nodes

theorem Expr.Typed.node (h : e.Typed T Γ) : Node T Γ e :=
  (typed_iff.1 h).1

theorem Expr.Typed.child {c : Expr} (h : e.Typed T Γ)
    (hc : c ∈ e.children) : c.Typed T Γ :=
  (typed_iff.1 h).2 c hc

/-! ## Statements -/

namespace Stmt

/-- The locals after a statement: a declaration adds one to those before. -/
def after (Γ : Env) : Stmt → Env
  | .var _ d => Γ.bind d.name d.resolved
  | _ => Γ

/-- The locals inside a loop: its counter comes to those outside. -/
def inside (Γ : Env) : Option (String × Expr) → Env
  | none => Γ
  | some (x, e) => Γ.bind x e.ty

/-- What the checks of declarations, assignments and results demand, with the locals of `Γ` in a
function that returns `ret`; `looping` tells whether there is a loop around. -/
inductive Simple (T : Symbols) (ret : Ty) (looping : Bool) (Γ : Env) : Stmt → Prop where
  | expr {pos : Position} {e : Expr} (h : e.Typed T Γ) : Simple T ret looping Γ (.expr pos e)
  | assign {pos : Position} {l r : Expr} {t : Ty} (hl : l.Typed T Γ) (hr : r.Typed T Γ)
    (hp : l.isPlace = true) (ht : l.ty = some t) (hf : Fits t r) :
    Simple T ret looping Γ (.assign pos l r)
  | var {pos : Position} {d : VarDecl} {t : Ty} (hd : d.resolved = some t) (hv : t ≠ .void)
    (ht : t.Defined T.kind) (hi : ∀ e ∈ d.init, e.Typed T Γ ∧ Fits t e) :
    Simple T ret looping Γ (.var pos d)
  | done {pos : Position} (h : ret = .void) : Simple T ret looping Γ (.ret pos none)
  /-- An integer result may be of any integer type. -/
  | ret {pos : Position} {e : Expr} (he : e.Typed T Γ) (hv : ret ≠ .void)
    (h : Fits ret e ∨ ret.isInt = true ∧ ∃ t, e.ty = some t ∧ t.isInt = true) :
    Simple T ret looping Γ (.ret pos (some e))
  | brk {pos : Position} (h : looping = true) : Simple T ret looping Γ (.brk pos)
  | cont {pos : Position} (h : looping = true) : Simple T ret looping Γ (.cont pos)

mutual

/-- A statement that is well typed where the locals are those of `Γ`. -/
def Typed (T : Symbols) (ret : Ty) (looping : Bool) (Γ : Env) : Stmt → Prop
  | .block _ body => AllTyped T ret looping Γ body
  | .cond _ test yes no =>
    test.Tests T Γ ∧ yes.Typed T ret looping Γ ∧ OptionTyped T ret looping Γ no
  | .loop _ init test post body =>
    (∀ x e, init = some (x, e) → e.Typed T Γ ∧ ∃ signed, e.ty = some (.int 64 signed)) ∧
      test.Tests T (inside Γ init) ∧ body.Typed T ret true (inside Γ init) ∧
      OptionTyped T ret true (inside Γ init) post
  | .expr pos e => Simple T ret looping Γ (.expr pos e)
  | .assign pos l r => Simple T ret looping Γ (.assign pos l r)
  | .var pos d => Simple T ret looping Γ (.var pos d)
  | .ret pos e => Simple T ret looping Γ (.ret pos e)
  | .brk pos => Simple T ret looping Γ (.brk pos)
  | .cont pos => Simple T ret looping Γ (.cont pos)

/-- A statement that may be missing. -/
def OptionTyped (T : Symbols) (ret : Ty) (looping : Bool) (Γ : Env) : Option Stmt → Prop
  | none => True
  | some s => s.Typed T ret looping Γ

/-- Statements one after another, each with the locals that those before it leave. -/
def AllTyped (T : Symbols) (ret : Ty) (looping : Bool) (Γ : Env) : List Stmt → Prop
  | [] => True
  | s :: rest => s.Typed T ret looping Γ ∧ AllTyped T ret looping (s.after Γ) rest

end

end Stmt

end Sigil
