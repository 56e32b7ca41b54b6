import Mathlib.Data.List.Nodup
import Mathlib.Data.Set.Card
import Mathlib.Logic.Relation
import Mathlib.Order.CompletePartialOrder
import Sigil.Symbols

/-!
# Containment of structs

What the struct definitions of a program say, apart from how layouts are worked out. A struct contains those
that its fields hold by value, which is through arrays but not behind pointers (`Program.Contains`). The
sizes of types follow from the definitions (`Program.Measures`), with no bound and no order of working
them out; a struct that contains itself has none. A struct is well made if it does not contain itself, and
if its own fields can be laid out (`Program.WellMade`).

From well-made structs containment leads down to ever fewer structs (`Program.within_ssubset`), so what holds
of a struct if it holds of those it contains holds of all that are well made throughout.
-/

namespace Sigil

open Relation

/-- The number of an integer literal. -/
def Expr.literal : Expr → Nat
  | .intLit _ n => n.toNat
  | _ => 0

/-- An integer literal as it is written, without a type. -/
def Expr.IsCount (e : Expr) : Prop :=
  ∃ m n, e = .intLit m n ∧ m.ty = none

namespace TypeExpr

/-- The size in bytes of a type that has neither a name nor elements. -/
def scalarSize? : TypeExpr → Option Nat
  | int bits _ => some (bits / 8)
  | char | bool => some 1
  | str | ptr _ => some 8
  | void => some 0
  | named _ | array _ _ => none

/-- The names in a type, also behind pointers. -/
def names : TypeExpr → List String
  | named x => [x]
  | ptr t | array _ t => t.names
  | _ => []

/-- The lengths in a type, also behind pointers. -/
def lengths : TypeExpr → List Expr
  | ptr t => t.lengths
  | array length t => length :: t.lengths
  | _ => []

/-- The array types that are stored by value: a type that is one, its elements if they are, and so on. -/
def arrays : TypeExpr → List TypeExpr
  | array length t => array length t :: t.arrays
  | _ => []

/-- The name whose values are stored by value. -/
def held? : TypeExpr → Option String
  | named x => some x
  | array _ t => t.held?
  | _ => none

end TypeExpr

namespace Program

/-- A struct is defined with these fields. -/
def Struct (p : Program) (x : String) (fields : List (String × TypeExpr)) : Prop :=
  ∃ d ∈ p, d.name = x ∧ d.body = .struct fields

/-- An enum is defined. -/
def Enum (p : Program) (x : String) : Prop :=
  ∃ d ∈ p, d.name = x ∧ ∃ variants, d.body = .enum variants

/-- The first struct has a field that holds the second one by value. -/
def Contains (p : Program) (x y : String) : Prop :=
  ∃ fields, p.Struct x fields ∧ (∃ f ∈ fields, f.2.held? = some y) ∧ ∃ fields', p.Struct y fields'

/-- The sizes in bytes of the types have the given sum. -/
inductive Measures (p : Program) : List TypeExpr → Nat → Prop where
  | nil : Measures p [] 0
  | scalar {t : TypeExpr} {n k : Nat} {rest : List TypeExpr} (h : t.scalarSize? = some n)
    (hrest : Measures p rest k) : Measures p (t :: rest) (n + k)
  | enum {x : String} {k : Nat} {rest : List TypeExpr} (h : p.Enum x) (hrest : Measures p rest k) :
    Measures p (.named x :: rest) (8 + k)
  | struct {x : String} {fields : List (String × TypeExpr)} {n k : Nat} {rest : List TypeExpr}
    (h : p.Struct x fields) (hfields : Measures p (fields.map (·.2)) n) (hrest : Measures p rest k) :
    Measures p (.named x :: rest) (n + k)
  | array {length : Expr} {t : TypeExpr} {n k : Nat} {rest : List TypeExpr} (h : Measures p [t] n)
    (hrest : Measures p rest k) : Measures p (.array length t :: rest) (length.literal * n + k)

/-- A type that a field can have: its names are those of types, and no length and no array that is stored
by value is too large. -/
structure Admits (p : Program) (t : TypeExpr) : Prop where
  names : ∀ x ∈ t.names, (∃ fields, p.Struct x fields) ∨ p.Enum x
  lengths : ∀ e ∈ t.lengths, e.literal ≤ maxObject
  arrays : ∀ a ∈ t.arrays, ∀ n, p.Measures [a] n → n ≤ maxObject

/-- The fields have distinct names, and types that fields can have, and the sizes of the first few, however
many, do not add up to too much. -/
structure Proper (p : Program) (fields : List (String × TypeExpr)) : Prop where
  distinct : (fields.map (·.1)).Nodup
  types : ∀ f ∈ fields, p.Admits f.2
  sums : ∀ first, first <+: fields → ∀ n, p.Measures (first.map (·.2)) n → n ≤ maxObject

/-- A struct that does not contain itself, with proper fields. -/
structure WellMade (p : Program) (x : String) : Prop where
  acyclic : ¬ TransGen p.Contains x x
  proper : ∀ fields, p.Struct x fields → p.Proper fields

variable {p : Program} {x y : String}

/-! ## Sizes -/

theorem Struct.unique (hnodup : (p.map (·.name)).Nodup) {fields fields' : List (String × TypeExpr)}
    (h : p.Struct x fields) (h' : p.Struct x fields') : fields = fields' := by
  obtain ⟨d, hd, hname, hbody⟩ := h
  obtain ⟨d', hd', hname', hbody'⟩ := h'
  have heq := List.inj_on_of_nodup_map hnodup hd hd' (hname.trans hname'.symm)
  rw [heq, hbody'] at hbody
  cases hbody
  rfl

theorem Struct.not_enum (hnodup : (p.map (·.name)).Nodup) {fields : List (String × TypeExpr)}
    (h : p.Struct x fields) : ¬ p.Enum x := by
  rintro ⟨d', hd', hname', variants, hbody'⟩
  obtain ⟨d, hd, hname, hbody⟩ := h
  have heq := List.inj_on_of_nodup_map hnodup hd hd' (hname.trans hname'.symm)
  rw [heq, hbody'] at hbody
  cases hbody

namespace Measures

variable {t : TypeExpr} {ts ts' : List TypeExpr} {n m : Nat}

/-- What two lists of types measure adds up. -/
theorem append (h : p.Measures ts n) (h' : p.Measures ts' m) : p.Measures (ts ++ ts') (n + m) := by
  induction h with
  | nil =>
    rw [Nat.zero_add]
    exact h'
  | scalar ht _ ih =>
    rw [Nat.add_assoc]
    exact .scalar ht ih
  | enum hx _ ih =>
    rw [Nat.add_assoc]
    exact .enum hx ih
  | struct hx hfields _ _ ih =>
    rw [Nat.add_assoc]
    exact .struct hx hfields ih
  | array ht _ _ ih =>
    rw [Nat.add_assoc]
    exact .array ht ih

/-- If no name is defined twice, there is only one sum. -/
theorem unique (hnodup : (p.map (·.name)).Nodup) (h : p.Measures ts n) (h' : p.Measures ts m) :
    n = m := by
  induction h generalizing m with
  | nil =>
    cases h'
    rfl
  | scalar ht _ ih =>
    cases h' with
    | scalar ht' hrest =>
      cases ht.symm.trans ht'
      rw [ih hrest]
    | _ => cases ht
  | enum hx _ ih =>
    cases h' with
    | scalar ht => cases ht
    | enum _ hrest => rw [ih hrest]
    | struct hx' => exact absurd hx (hx'.not_enum hnodup)
  | struct hx _ _ ihfields ih =>
    cases h' with
    | scalar ht => cases ht
    | enum hx' => exact absurd hx' (hx.not_enum hnodup)
    | struct hx' hfields hrest =>
      cases hx.unique hnodup hx'
      rw [ihfields hfields, ih hrest]
  | array _ _ iht ih =>
    cases h' with
    | scalar ht => cases ht
    | array ht hrest => rw [iht ht, ih hrest]

theorem scalar_single (h : t.scalarSize? = some n) : p.Measures [t] n :=
  .scalar h .nil

theorem array_single {length : Expr} (h : p.Measures [t] n) :
    p.Measures [.array length t] (length.literal * n) :=
  .array h .nil

end Measures

/-! ## Structs inside structs -/

theorem Contains.exists_struct (h : p.Contains x y) : ∃ fields, p.Struct y fields :=
  h.elim fun _ hx => hx.2.2

/-- The structs that a struct contains, at any depth. -/
def within (p : Program) (x : String) : Set String :=
  {y | TransGen p.Contains x y}

theorem finite_within (p : Program) (x : String) : (p.within x).Finite := by
  refine (p.map (·.name)).finite_toSet.subset ?_
  intro y hy
  obtain ⟨z, -, hz⟩ := TransGen.tail'_iff.1 hy
  obtain ⟨fields, d, hd, hname, -⟩ := hz.exists_struct
  exact List.mem_map.2 ⟨d, hd, hname⟩

/-- A struct that is contained, and does not contain itself, contains fewer structs. -/
theorem within_ssubset (h : p.Contains x y) (hy : ¬ TransGen p.Contains y y) :
    p.within y ⊂ p.within x := by
  refine ⟨fun z hz => TransGen.head h hz, ?_⟩
  intro hsub
  exact hy (hsub (TransGen.single h))

/-- What holds of a struct if it holds of those it contains holds of every struct that is well made
throughout. -/
theorem wellMade_induction {motive : String → Prop}
    (step : ∀ x, p.WellMade x → (∀ y, p.Contains x y → motive y) → motive x)
    (h : ∀ y, ReflTransGen p.Contains x y → p.WellMade y) : motive x := by
  -- By the number of structs inside, which is smaller for each of them.
  induction hn : (p.within x).ncard using Nat.strong_induction_on generalizing x with
  | _ n ih =>
    refine step x (h x .refl) ?_
    intro y hy
    have hbelow : ∀ z, ReflTransGen p.Contains y z → p.WellMade z := by
      intro z hz
      exact h z (.head hy hz)
    have hfewer := Set.ncard_lt_ncard (within_ssubset hy (hbelow y .refl).acyclic) (p.finite_within x)
    exact ih _ (hn ▸ hfewer) hbelow rfl

end Program

end Sigil
