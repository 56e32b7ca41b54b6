import Sigil.Proofs.Laws.Statements
import Sigil.Proofs.Ranges.Expressions

/-!
# Literals in accepted programs

The expressions of a statement are stored, passed, tested or dropped, so their own literals are in the range
of their types, whatever context gave them the types. The exceptions are operands of binary operators and of
conversions (`Compile.func_ranged_of_check`), and an accepted program may well have them
(`Compile.exists_literal_not_inRange`).
-/

namespace Sigil

open Stmt

namespace Check

variable {c : Context} {sources : List Expr}

/-- The expression has no types yet and is among the given ones with everything inside it. -/
structure From (sources : List Expr) (e : Expr) : Prop where
  unchecked : e.Unchecked
  mem : ∀ n ∈ e.nodes, n ∈ sources

theorem roots_fine (hc : c.symbols.Complete) : Roots c (From sources) (Fine c sources) where
  plain he _ _ h := (hopes_of_result hc he.unchecked he.mem).fine_none h
  test he _ _ h := (hopes_of_result hc he.unchecked he.mem).fine_bool h
  stored he _ _ _ h := (hopes_of_result hc he.unchecked he.mem).fine_coerced h
  name _ _ := fine_leaf trivial rfl

end Check

/-- The literals of a checked function `f'` that was written as `f`: those that stand for themselves are in
range, and so are the parts of other expressions, unless they follow a minus sign or are operands that
take over a type without a check. -/
structure Func.Ranged (T : Symbols) (f f' : Func) : Prop where
  roots : ∀ e ∈ Stmt.rootsOfAll f'.body, e.Ranged
  inside : ∀ n ∈ Stmt.nodesOfAll f'.body, ∀ k ∈ n.children, n.Admits T (Stmt.nodesOfAll f.body) k

/-- The function of an accepted definition has its literals in range. -/
theorem Check.ranged_of_definition {t : Symbols} (ht : t.Complete) {d d' : Def}
    (hd : t.Knows d.name d.body.kind)
    (hun : ∀ f, d.body = .func f → ∀ e ∈ rootsOfAll f.body, e.Unchecked)
    (h : definition t d = some (d', [])) {f' : Func} (hf' : d'.body = .func f') :
    ∃ f, d.body = .func f ∧ f.Ranged t f' := by
  obtain ⟨f, hf⟩ := func_of_definition h hf'
  -- The checker starts from trees as they were read, with nodes of this function.
  have hsources : ∀ e ∈ rootsOfAll f.body, From (nodesOfAll f.body) e := by
    intro e he
    have hmem : ∀ n ∈ e.nodes, n ∈ nodesOfAll f.body := by
      intro n hn
      rw [nodesOfAll_eq_roots]
      exact List.mem_flatMap.2 ⟨e, he, hn⟩
    exact ⟨hun f hf e he, hmem⟩
  have hroots : ∀ c : Context, c.symbols = t →
      Roots c (From (nodesOfAll f.body)) (Fine ⟨t, .void, []⟩ (nodesOfAll f.body)) := by
    rintro c rfl
    exact roots_fine ht
  obtain ⟨hfine, -⟩ := Roots.definition hroots (fun _ _ _ _ _ _ => trivial) hd h hf hf' hsources
  refine ⟨f, hf, fun e he => (hfine e he).1, fun n hn k hk => ?_⟩
  rw [nodesOfAll_eq_roots] at hn
  obtain ⟨e, he, hn⟩ := List.mem_flatMap.1 hn
  exact (hfine e he).2 n hn k hk

namespace Compile

theorem unchecked_of_parse {code : String} {p : Program} (h : parse code = .ok p) {d : Def} (hd : d ∈ p)
    {f : Func} (hf : d.body = .func f) : ∀ e ∈ rootsOfAll f.body, e.Unchecked := by
  unfold parse at h
  split at h <;> cases h
  have hread := Parser.read_of_parseSource (P := fun _ => True) (fun _ _ => trivial) ‹_› d hd
  exact fun e he n hn => ((hread.body f hf).body.2 e he n hn).ty

/-- In an accepted program, a literal of an integer type that follows no minus sign is in the range of its
type, wherever it stands and however it got the type, unless it is an operand of a binary operator or of a
conversion. Such an operand may be one above the range of a signed type, and it may be the size of a type. -/
theorem func_ranged_of_check {code : String} {p : Program} {c : Checked} (hp : parse code = .ok p)
    (h : check p = .ok c) :
    List.Forall₂ (fun d d' => d'.name = d.name ∧ d'.body.kind = d.body.kind ∧
      ∀ f', d'.body = .func f' → ∃ f, d.body = .func f ∧ f.Ranged c.symbols f') p c.program := by
  obtain ⟨hcomplete, hknows, hdefs⟩ := of_check h
  refine forall₂_of_mem hdefs fun d d' hd _ hdef => ?_
  obtain ⟨hname, hkind⟩ := Check.definition_keeps hdef
  refine ⟨hname, hkind, fun f' hf' => ?_⟩
  exact Check.ranged_of_definition hcomplete (hknows d hd) (fun f hf => unchecked_of_parse hp hd hf) hdef hf'

/-- A program that compares and converts with literals that are out of range. -/
def narrow : String :=
  "const main := fn () int! \x7b have x: short? = -5; if (x < 32768) \x7b x = @cast<short?>(32768); \x7d " ++
    "if (x < @sizeof([70000]char)) \x7b return 1; \x7d return 0; \x7d;"

theorem func_ranged_of_check_narrow :
    ∃ p c d d' f f', parse narrow = .ok p ∧ check p = .ok c ∧ d ∈ p ∧ d' ∈ c.program ∧ d.body = .func f ∧
      d'.body = .func f' ∧ (Stmt.nodesOfAll f'.body).length = 13 ∧ f.Ranged c.symbols f' := by
  obtain ⟨p, c, d', f', hp, hc, hd', hf', hlen⟩ := exists_of_testSource narrow
    (fun _ f => (nodesOfAll f.body).length == 13) (by decide +kernel)
  obtain ⟨d, hd, -, -, hfunc⟩ := forall₂_left (func_ranged_of_check hp hc).flip hd'
  obtain ⟨f, hf, hranged⟩ := hfunc f' hf'
  exact ⟨p, c, d, d', f, f', hp, hc, hd, hd', hf, hf', eq_of_beq hlen, hranged⟩

/-- A program that compares a short integer with a number one above the range of its type. -/
def shortTest : String :=
  "const main := fn () int! \x7b have x: short? = 1; if (x < 32768) \x7b return 1; \x7d return 0; \x7d;"

/-- Whether an expression has a part that is a literal out of the range of its type. -/
def hasExcess (e : Expr) : Bool :=
  e.children.any fun k =>
    match k with
    | .intLit ⟨_, some (.int bits signed)⟩ n =>
      !decide (InRange bits signed (readWord (some (.int bits signed)) n))
    | _ => false

/-- A literal of an accepted program may be out of range without a minus sign before it. -/
theorem exists_literal_not_inRange :
    ∃ p c d f, parse shortTest = .ok p ∧ check p = .ok c ∧ d ∈ c.program ∧ d.body = .func f ∧
      ∃ e ∈ Stmt.nodesOfAll f.body, e.isNeg = false ∧ ∃ k ∈ e.children, ¬k.Ranged := by
  obtain ⟨p, c, d, f, hp, hc, hd, hf, htest⟩ := exists_of_testSource shortTest
    (fun _ f => (nodesOfAll f.body).any fun e => !e.isNeg && hasExcess e) (by decide +kernel)
  obtain ⟨e, he, htest⟩ := List.any_eq_true.1 htest
  rw [Bool.and_eq_true, Bool.not_eq_true'] at htest
  obtain ⟨k, hk, hexcess⟩ := List.any_eq_true.1 htest.2
  refine ⟨p, c, d, f, hp, hc, hd, hf, e, he, htest.1, k, hk, fun hranged => ?_⟩
  split at hexcess
  · next bits signed n =>
    rw [Bool.not_eq_true', decide_eq_false_iff_not] at hexcess
    exact hexcess (hranged bits signed rfl)
  · cases hexcess

end Compile

end Sigil
