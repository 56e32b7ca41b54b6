import Mathlib.Data.List.Forall2
import Sigil.Compile
import Sigil.Proofs.Table

/-!
# The phases of a compilation

What is known of a program when a phase has succeeded with it, in terms of the phases before. Definitions are
checked one by one (`Check.definitions_eq_some`), a program is accepted if neither its table nor any of its
definitions has an error (`Program.typed_eq_some`), and what is handed to the generator has been read, checked
and folded (`Compile.stages_of_frontend`). The last section evaluates the phases on a given text.
-/

namespace Sigil

open List

namespace Check

variable {t : Symbols}

/-- What a definition is does not change. -/
theorem definition_keeps {d d' : Def} {es : List (Located TypeError)}
    (h : definition t d = some (d', es)) : d'.name = d.name ∧ d'.body.kind = d.body.kind := by
  unfold definition at h
  split at h
  · next f hf =>
    split at h
    · split at h
      · exact nomatch h
      · cases h
        exact ⟨rfl, by rw [hf]; rfl⟩
    · cases h
      exact ⟨rfl, rfl⟩
  · cases h
    exact ⟨rfl, rfl⟩

/-- Definitions are checked one by one, and nothing is reported exactly if nothing is for any of them. -/
theorem definitions_eq_some {ds ds' : Program} :
    definitions t ds = some (ds', []) ↔ Forall₂ (fun d d' => definition t d = some (d', [])) ds ds' := by
  induction ds generalizing ds' with
  | nil => simp [definitions, eq_comm]
  | cons d ds ih =>
    simp only [definitions, Option.bind_eq_bind, Option.bind_eq_some_iff, Option.pure_def,
      Option.some.injEq, Prod.mk.injEq, append_eq_nil_iff, Prod.exists, forall₂_cons_left_iff]
    constructor
    · rintro ⟨d', es, hd, ds'', es', hds, rfl, rfl, rfl⟩
      exact ⟨d', ds'', hd, ih.1 hds, rfl⟩
    · rintro ⟨d', ds'', hd, hds, rfl⟩
      exact ⟨d', [], hd, ds'', [], ih.2 hds, rfl, rfl, rfl⟩

end Check

/-- A program is without errors exactly if its table is and all of its definitions are. -/
theorem Program.typed_eq_some {p : Program} {c : Checked} : p.typed = some (c, []) ↔
    Symbols.ofProgram p = some (c.symbols, []) ∧
      Forall₂ (fun d d' => Check.definition c.symbols d = some (d', [])) p c.program := by
  rw [← Check.definitions_eq_some]
  simp only [Program.typed, Option.bind_eq_bind, Option.bind_eq_some_iff, Option.pure_def,
    Option.some.injEq, Prod.mk.injEq, append_eq_nil_iff, Prod.exists]
  constructor
  · rintro ⟨t, es, ht, p', es', hp, rfl, rfl, rfl⟩
    exact ⟨ht, hp⟩
  · rintro ⟨ht, hp⟩
    exact ⟨c.symbols, [], ht, c.program, [], hp, rfl, rfl, rfl⟩

namespace Compile

/-- An accepted program has no errors. -/
theorem typed_of_check {p : Program} {c : Checked} (h : check p = .ok c) : p.typed = some (c, []) := by
  unfold check at h
  split at h <;> cases h
  assumption

/-- What the stages before the generator have made of the text. -/
theorem stages_of_frontend {code : String} {front : Frontend} (h : frontend code = .ok front) :
    ∃ p c, parse code = .ok p ∧ check p = .ok c ∧ front.symbols = c.symbols ∧
      Program.folded c.program = .ok (front.program, front.folds) := by
  unfold frontend at h
  cases hp : parse code with
  | error e =>
    rw [hp] at h
    exact nomatch h
  | ok p =>
    rw [hp] at h
    change (check p >>= fold) = .ok front at h
    cases hc : check p with
    | error e =>
      rw [hc] at h
      exact nomatch h
    | ok c =>
      rw [hc] at h
      change fold c = .ok front at h
      refine ⟨p, c, rfl, hc, ?_⟩
      unfold fold at h
      split at h
      · next program folds hfold =>
        obtain rfl := Except.ok.inj h
        exact ⟨rfl, hfold⟩
      · exact nomatch h

/-! ## Given texts -/

/-- Runs a test on every function of a program that is read from its text and checked. -/
def testSource (code : String) (test : Checked → Func → Bool) : Bool :=
  match parse code with
  | .ok p =>
    match check p with
    | .ok c => c.program.any fun d =>
      match d.body with
      | .func f => test c f
      | _ => false
    | .error _ => false
  | .error _ => false

/-- A test that succeeds has found a function of an accepted program. -/
theorem exists_of_testSource (code : String) (test : Checked → Func → Bool)
    (h : testSource code test = true) :
    ∃ p c d f, parse code = .ok p ∧ check p = .ok c ∧ d ∈ c.program ∧ d.body = .func f ∧
      test c f = true := by
  unfold testSource at h
  split at h
  · next p hp =>
    split at h
    · next c hc =>
      obtain ⟨d, hd, hdef⟩ := any_eq_true.1 h
      split at hdef
      · next f hf => exact ⟨p, c, d, f, hp, hc, hd, hf, hdef⟩
      · exact nomatch hdef
    · exact nomatch h
  · exact nomatch h

/-- Runs a test on what becomes of a program that is read from its text. -/
def testCode (code : String) (test : Frontend → Assembly → Bool) : Bool :=
  match frontend code with
  | .ok front =>
    match generate front with
    | .ok a => test front a
    | .error _ => false
  | .error _ => false

/-- A test that succeeds has found a program with code. -/
theorem exists_of_testCode (code : String) (test : Frontend → Assembly → Bool)
    (h : testCode code test = true) :
    ∃ front a, frontend code = .ok front ∧ generate front = .ok a ∧ test front a = true := by
  unfold testCode at h
  split at h
  · next front hfront =>
    split at h
    · next a ha => exact ⟨front, a, hfront, ha, h⟩
    · exact nomatch h
  · exact nomatch h

/-- The errors that stop the compilation of a text before code generation. -/
def errorsOf (code : String) : List Error :=
  match frontend code with
  | .error (.errors es) => es
  | _ => []

/-- Where there are errors, they are what the compilation stops with. -/
theorem frontend_of_errorsOf {code : String} {es : List Error} (h : errorsOf code = es) (hne : es ≠ []) :
    frontend code = .error (.errors es) := by
  unfold errorsOf at h
  split at h
  · next hfront => rw [hfront, h]
  · exact absurd h.symm hne

end Compile

end Sigil
