import Mathlib.Algebra.Ring.Nat
import Sigil.Proofs.Folding.Stability
import Sigil.Proofs.Laws.Trees
import Sigil.Proofs.Typing.Program

/-!
# Folding twice

Passes over a function are repeated until one changes nothing, but not more than `Fold.maxPasses` times. A
pass without changes leaves everything as it is (`Fold.follows_stmts`), so a function whose body settles
within the limit is not changed by folding it again. One that does not settle is changed again. In no case
does the second run meet an error, since all literals are found by the first pass (`Program.folded_again`).
-/

namespace Sigil

open Fold Folded List Program

@[simp] theorem Folded.changes_map {α β : Type} (f : α → β) (x : Folded α) :
    (f <$> x).changes = x.changes := rfl

namespace Fold

open Stmt

variable {n : Nat} {e : Expr}

/-! ## A pass without changes -/

theorem node_of_changes (h : (node e).changes = 0) : (node e).result = e := by
  have hnode := becomes_node e
  generalize node e = x at hnode h ⊢
  cases hnode with
  | keep | fault => rfl
  | change => cases h

/-- With the same children, an expression is the same. -/
theorem mapChildren_eq {g : Expr → Expr} (h : ∀ c ∈ e.children, g c = c) : e.mapChildren g = e := by
  have hmap : ∀ es : List Expr, (∀ c ∈ es, g c = c) → es.map g = es := by
    intro es h
    rw [map_congr_left h, map_id']
  cases e with
  | call m callee es => rw [Expr.mapChildren, hmap es h]
  | arrayLit m es => rw [Expr.mapChildren, hmap es h]
  | builtin m b es => rw [Expr.mapChildren, hmap es h]
  | structLit m fields =>
    have hfields : ∀ f ∈ fields, (fun f : String × Expr => (f.1, g f.2)) f = id f :=
      fun f hf => Prod.ext rfl (h f.2 (mem_map_of_mem hf))
    rw [Expr.mapChildren, map_congr_left hfields, map_id]
  | _ => simp_all [Expr.mapChildren, Expr.children]

theorem expr_of_changes (h : (expr e).changes = 0) : (expr e).result = e := by
  induction e using Expr.by_children with
  | h e ih =>
    rw [changes_expr, Nat.add_eq_zero_iff, List.sum_eq_zero_iff_forall_eq_nat] at h
    obtain ⟨hparts, hnode⟩ := h
    have hsame : ∀ c ∈ e.children, (expr c).result = c :=
      fun c hc => ih c hc (hparts _ (mem_map_of_mem hc))
    rw [result_expr, node_of_changes hnode, mapChildren_eq hsame]

/-- How a pass over something depends on the passes over the expressions that it is made of: its errors are
theirs, no expression comes in from elsewhere, and without changes everything stays as it is. -/
structure Follows {α : Type} (view : α → List Expr) (a : α) (x : Folded α) : Prop where
  errors : x.errors = (view a).flatMap fun e => (expr e).errors
  roots : ∀ e' ∈ view x.result, ∃ e ∈ view a, e' = (expr e).result
  unchanged : x.changes = 0 → x.result = a

theorem follows_optionExpr (e : Option Expr) : Follows Option.toList e (optionExpr e) := by
  cases e with
  | none => exact ⟨rfl, by rintro _ ⟨⟩, fun _ => rfl⟩
  | some e =>
    refine ⟨by simp [optionExpr], by simp [optionExpr], fun h => ?_⟩
    exact congrArg some (expr_of_changes h)

theorem follows_counter (init : Option (String × Expr)) :
    Follows (fun init => init.toList.map (·.2)) init (counter init) := by
  cases init with
  | none => exact ⟨rfl, by rintro _ ⟨⟩, fun _ => rfl⟩
  | some xe =>
    refine ⟨by simp [counter], by simp [counter], fun h => ?_⟩
    exact congrArg (fun e => some (xe.1, e)) (expr_of_changes h)

/-- A conditional is kept, or one of its branches is. -/
theorem cond_spec (pos : Position) (test : Expr) (yes : Stmt) (no : Option Stmt) :
    (cond pos test yes no).errors = [] ∧
      (∀ e ∈ (cond pos test yes no).result.roots, e ∈ (Stmt.cond pos test yes no).roots) ∧
      ((cond pos test yes no).changes = 0 → (cond pos test yes no).result = .cond pos test yes no) := by
  unfold cond
  split
  · refine ⟨rfl, fun e he => ?_, by rintro ⟨⟩⟩
    simp only [change, roots, rootsOfAll, append_nil] at he
    exact mem_cons_of_mem _ (mem_append_left _ he)
  · refine ⟨rfl, fun e he => ?_, by rintro ⟨⟩⟩
    refine mem_cons_of_mem _ (mem_append_right _ ?_)
    cases no with
    | none => exact he
    | some s => simpa [change, roots, rootsOfAll, rootsOfOption] using he
  · exact ⟨rfl, fun e he => he, fun _ => rfl⟩

/-- A loop is kept, or nothing is left of it. -/
theorem loop_spec (pos : Position) (init : Option (String × Expr)) (test : Expr) (post : Option Stmt)
    (body : Stmt) :
    (loop pos init test post body).errors = [] ∧
      (∀ e ∈ (loop pos init test post body).result.roots, e ∈ (Stmt.loop pos init test post body).roots) ∧
      ((loop pos init test post body).changes = 0 →
        (loop pos init test post body).result = .loop pos init test post body) := by
  unfold loop
  split
  · exact ⟨rfl, by rintro _ ⟨⟩, by rintro ⟨⟩⟩
  · exact ⟨rfl, fun e he => he, fun _ => rfl⟩

mutual

/-- What a pass over a statement depends on. -/
theorem follows_stmt (s : Stmt) : Follows Stmt.roots s (stmt s) := by
  match s with
  | .block pos body =>
    have h := follows_stmts body
    refine ⟨?_, h.roots, fun hc => ?_⟩
    · simpa [stmt, roots] using h.errors
    · exact congrArg (Stmt.block pos) (h.unchanged hc)
  | .expr pos e =>
    refine ⟨by simp [stmt, roots], by simp [stmt, roots], fun hc => ?_⟩
    exact congrArg (Stmt.expr pos) (expr_of_changes hc)
  | .assign pos l r =>
    refine ⟨by simp [stmt, roots], by simp [stmt, roots], fun hc => ?_⟩
    simp only [stmt, changes_bind, changes_pure, Nat.add_zero, Nat.add_eq_zero_iff] at hc
    simp [stmt, expr_of_changes hc.1, expr_of_changes hc.2]
  | .var pos d =>
    have h := follows_optionExpr d.init
    refine ⟨?_, h.roots, fun hc => ?_⟩
    · simpa [stmt, roots] using h.errors
    · have hinit := h.unchanged hc
      simp [stmt, hinit]
  | .ret pos e =>
    have h := follows_optionExpr e
    refine ⟨?_, h.roots, fun hc => ?_⟩
    · simpa [stmt, roots] using h.errors
    · exact congrArg (Stmt.ret pos) (h.unchanged hc)
  | .brk pos => exact ⟨rfl, by rintro _ ⟨⟩, fun _ => rfl⟩
  | .cont pos => exact ⟨rfl, by rintro _ ⟨⟩, fun _ => rfl⟩
  | .cond pos test yes no =>
    have hyes := follows_stmt yes
    have hno := follows_optionStmt no
    obtain ⟨herrors, hroots, hkeep⟩ :=
      cond_spec pos (expr test).result (stmt yes).result (optionStmt no).result
    refine ⟨?_, fun e' he' => ?_, fun hc => ?_⟩
    · simp [stmt, roots, herrors, hyes.errors, hno.errors]
    · -- Each root left comes from a part, which its own fact traces back.
      rcases mem_cons.1 (hroots e' he') with rfl | he'
      · exact ⟨test, mem_cons_self, rfl⟩
      · rcases mem_append.1 he' with he' | he'
        · obtain ⟨e, he, rfl⟩ := hyes.roots e' he'
          exact ⟨e, mem_cons_of_mem _ (mem_append_left _ he), rfl⟩
        · obtain ⟨e, he, rfl⟩ := hno.roots e' he'
          exact ⟨e, mem_cons_of_mem _ (mem_append_right _ he), rfl⟩
    · -- Without changes no part has any, and the statement is kept.
      simp only [stmt, changes_bind, Nat.add_eq_zero_iff] at hc
      obtain ⟨htest, hyes', hno', hcond⟩ := hc
      refine (hkeep hcond).trans ?_
      rw [expr_of_changes htest, hyes.unchanged hyes', hno.unchanged hno']
  | .loop pos init test post body =>
    have hinit := follows_counter init
    have hbody := follows_stmt body
    have hpost := follows_optionStmt post
    obtain ⟨herrors, hroots, hkeep⟩ := loop_spec pos (counter init).result (expr test).result
      (optionStmt post).result (stmt body).result
    refine ⟨?_, fun e' he' => ?_, fun hc => ?_⟩
    · simp [stmt, roots, herrors, hinit.errors, hbody.errors, hpost.errors]
    · rcases mem_append.1 (hroots e' he') with he' | he'
      · obtain ⟨e, he, rfl⟩ := hinit.roots e' he'
        exact ⟨e, mem_append_left _ he, rfl⟩
      · rcases mem_cons.1 he' with rfl | he'
        · exact ⟨test, mem_append_right _ mem_cons_self, rfl⟩
        · rcases mem_append.1 he' with he' | he'
          · obtain ⟨e, he, rfl⟩ := hbody.roots e' he'
            exact ⟨e, by simp [roots, he], rfl⟩
          · obtain ⟨e, he, rfl⟩ := hpost.roots e' he'
            exact ⟨e, by simp [roots, he], rfl⟩
    · simp only [stmt, changes_bind, Nat.add_eq_zero_iff] at hc
      obtain ⟨hinit', htest, hbody', hpost', hloop⟩ := hc
      refine (hkeep hloop).trans ?_
      rw [hinit.unchanged hinit', expr_of_changes htest, hbody.unchanged hbody', hpost.unchanged hpost']

theorem follows_optionStmt (s : Option Stmt) : Follows rootsOfOption s (optionStmt s) := by
  match s with
  | none => exact ⟨rfl, by rintro _ ⟨⟩, fun _ => rfl⟩
  | some s =>
    have h := follows_stmt s
    refine ⟨?_, h.roots, fun hc => ?_⟩
    · simpa [optionStmt, rootsOfOption] using h.errors
    · exact congrArg some (h.unchanged hc)

/-- By recursion on the statements. -/
theorem follows_stmts (sts : List Stmt) : Follows rootsOfAll sts (stmts sts) := by
  match sts with
  | [] => exact ⟨rfl, by rintro _ ⟨⟩, fun _ => rfl⟩
  | s :: rest =>
    have hs := follows_stmt s
    have hrest := follows_stmts rest
    refine ⟨?_, ?_, fun hc => ?_⟩
    · simp [stmts, rootsOfAll, hs.errors, hrest.errors]
    · intro e' he'
      rcases mem_append.1 he' with he' | he'
      · obtain ⟨e, he, rfl⟩ := hs.roots e' he'
        exact ⟨e, mem_append_left _ he, rfl⟩
      · obtain ⟨e, he, rfl⟩ := hrest.roots e' he'
        exact ⟨e, mem_append_right _ he, rfl⟩
    · simp only [stmts, changes_bind, changes_pure, Nat.add_zero, Nat.add_eq_zero_iff] at hc
      simp [stmts, hs.unchanged hc.1, hrest.unchanged hc.2]

end

/-! ## Passes over a function -/

variable {T : Symbols} {body : List Stmt}

/-- The expressions of a function are well typed, each under some locals. -/
def AllRootsTyped (T : Symbols) (body : List Stmt) : Prop :=
  ∀ e ∈ rootsOfAll body, ∃ Γ, e.Typed T Γ

/-- The expressions of a function are steady. -/
def AllRootsSteady (body : List Stmt) : Prop :=
  ∀ e ∈ rootsOfAll body, Steady e

theorem AllRootsTyped.pass (h : AllRootsTyped T body) : AllRootsTyped T (pass body) := by
  intro e' he'
  obtain ⟨e, he, rfl⟩ := (follows_stmts body).roots e' he'
  obtain ⟨Γ, ht⟩ := h e he
  exact ⟨Γ, typed_expr ht⟩

/-- After an error-free pass everything is steady. -/
theorem allRootsSteady_pass (h : AllRootsTyped T body) (herrors : (stmts body).errors = []) :
    AllRootsSteady (pass body) := by
  intro e' he'
  obtain ⟨e, he, rfl⟩ := (follows_stmts body).roots e' he'
  obtain ⟨Γ, ht⟩ := h e he
  rw [(follows_stmts body).errors, flatMap_eq_nil_iff] at herrors
  exact steady_of_errors ht (herrors e he)

/-- There are no errors where everything is steady. -/
theorem errors_stmts (h : AllRootsTyped T body) (hs : AllRootsSteady body) : (stmts body).errors = [] := by
  rw [(follows_stmts body).errors, flatMap_eq_nil_iff]
  intro e he
  obtain ⟨Γ, ht⟩ := h e he
  exact (errors_of_steady ht (hs e he)).1

theorem errors_of_passes (h : (passes (n + 1) body).errors = []) : (stmts body).errors = [] := by
  rw [passes, errors_bind, append_eq_nil_iff] at h
  exact h.1

/-- A pass without changes is the last. -/
theorem passes_of_unchanged (n : Nat) (herrors : (stmts body).errors = [])
    (hc : (stmts body).changes = 0) : passes (n + 1) body = .keep body := by
  have hpass : stmts body = .keep body := by
    have hsame := (follows_stmts body).unchanged hc
    generalize stmts body = x at herrors hc hsame
    obtain ⟨result, changes, errors⟩ := x
    cases herrors
    cases hc
    cases hsame
    rfl
  rw [passes, hpass]
  rfl

/-- After a pass with changes come the others. -/
theorem passes_of_changed (n : Nat) (herrors : (stmts body).errors = [])
    (hc : (stmts body).changes ≠ 0) :
    (passes (n + 1) body).result = (passes n (pass body)).result ∧
      (passes (n + 1) body).errors = (passes n (pass body)).errors ∧
      (passes (n + 1) body).changes ≠ 0 := by
  have hpasses : passes (n + 1) body = (stmts body).andThen (passes n) := by
    rw [passes]
    simp [herrors, hc]
    rfl
  rw [hpasses]
  refine ⟨rfl, ?_, ?_⟩
  · show (stmts body).errors ++ _ = _
    rw [herrors]
    rfl
  · exact fun h => hc (Nat.add_eq_zero_iff.1 h).1

/-- A run over steady expressions meets no error, and leaves them steady. -/
theorem steady_passes (n : Nat) (h : AllRootsTyped T body) (hs : AllRootsSteady body) :
    (passes n body).errors = [] ∧ AllRootsTyped T (passes n body).result ∧
      AllRootsSteady (passes n body).result := by
  induction n generalizing body with
  | zero => exact ⟨rfl, h, hs⟩
  | succ n ih =>
    have herrors := errors_stmts h hs
    by_cases hc : (stmts body).changes = 0
    · rw [passes_of_unchanged n herrors hc]
      exact ⟨rfl, h, hs⟩
    · obtain ⟨hresult, herrors', -⟩ := passes_of_changed n herrors hc
      rw [hresult, herrors']
      exact ih h.pass (allRootsSteady_pass h herrors)

/-- An error-free run of at least one pass leaves everything steady. -/
theorem steady_of_passes (h : AllRootsTyped T body) (herrors : (passes (n + 1) body).errors = []) :
    AllRootsTyped T (passes (n + 1) body).result ∧ AllRootsSteady (passes (n + 1) body).result := by
  have hfirst := errors_of_passes herrors
  have hpass := allRootsSteady_pass h hfirst
  by_cases hc : (stmts body).changes = 0
  · have hsame : pass body = body := (follows_stmts body).unchanged hc
    rw [passes_of_unchanged n hfirst hc]
    exact ⟨h, hsame ▸ hpass⟩
  · rw [(passes_of_changed n hfirst hc).1]
    exact (steady_passes n h.pass hpass).2

/-- Among the body and what the first `n` passes make of it, there is one that a pass does not change. -/
def Settles (n : Nat) (body : List Stmt) : Prop :=
  ∃ i ≤ n, (stmts (pass^[i] body)).changes = 0

theorem settles_succ :
    Settles (n + 1) body ↔ (stmts body).changes = 0 ∨ Settles n (pass body) := by
  constructor
  · rintro ⟨i, hi, hc⟩
    cases i with
    | zero => exact Or.inl hc
    | succ i => exact Or.inr ⟨i, Nat.le_of_succ_le_succ hi, hc⟩
  · rintro (hc | ⟨i, hi, hc⟩)
    · exact ⟨0, Nat.zero_le _, hc⟩
    · exact ⟨i + 1, Nat.succ_le_succ hi, hc⟩

/-- After an error-free run, a pass changes nothing if the body has settled within the run. -/
theorem changes_passes_result (herrors : (passes n body).errors = []) :
    (stmts (passes n body).result).changes = 0 ↔ Settles n body := by
  induction n generalizing body with
  | zero =>
    constructor
    · exact fun h => ⟨0, Nat.le_refl 0, h⟩
    · rintro ⟨i, hi, hc⟩
      rwa [Nat.le_zero.1 hi] at hc
  | succ n ih =>
    have hfirst := errors_of_passes herrors
    rw [settles_succ]
    by_cases hc : (stmts body).changes = 0
    · rw [passes_of_unchanged n hfirst hc]
      exact iff_of_true hc (Or.inl hc)
    · obtain ⟨hresult, herrors', -⟩ := passes_of_changed n hfirst hc
      rw [hresult, or_iff_right hc, ih (herrors'.symm.trans herrors)]

/-- A run changes nothing if its first pass does not. -/
theorem changes_passes (herrors : (stmts body).errors = []) :
    (passes (n + 1) body).changes = 0 ↔ (stmts body).changes = 0 := by
  by_cases hc : (stmts body).changes = 0
  · rw [passes_of_unchanged n herrors hc]
    exact iff_of_true rfl hc
  · exact iff_of_false (passes_of_changed n herrors hc).2.2 hc

/-- What a second run does. -/
theorem passes_again (hn : 0 < n) (h : AllRootsTyped T body)
    (herrors : (passes n body).errors = []) :
    (passes n (passes n body).result).errors = [] ∧
      ((passes n (passes n body).result).changes = 0 ↔ Settles n body) ∧
      (Settles n body → (passes n (passes n body).result).result = (passes n body).result) := by
  obtain ⟨n, rfl⟩ := Nat.exists_eq_succ_of_ne_zero (Nat.ne_of_gt hn)
  obtain ⟨htyped, hsteady⟩ := steady_of_passes h herrors
  have hfirst := errors_stmts htyped hsteady
  have hsettles := changes_passes_result herrors
  refine ⟨(steady_passes (n + 1) htyped hsteady).1, (changes_passes hfirst).trans hsettles, ?_⟩
  intro hbody
  rw [passes_of_unchanged n hfirst (hsettles.2 hbody)]
  rfl

/-! ## Programs -/

/-- Folding a definition again. -/
theorem definition_again {d : Def} (h : ∀ f, d.body = .func f → AllRootsTyped T f.body)
    (herrors : (definition d).errors = []) :
    (definition (definition d).result).errors = [] ∧
      ((definition (definition d).result).changes = 0 ↔
        ∀ f, d.body = .func f → Settles maxPasses f.body) ∧
      ((∀ f, d.body = .func f → Settles maxPasses f.body) →
        (definition (definition d).result).result = (definition d).result) := by
  obtain ⟨name, pos, body⟩ := d
  cases body with
  | func f =>
    have hfunc : ∀ P : Func → Prop, (∀ g, DefBody.func f = .func g → P g) ↔ P f :=
      fun P => ⟨fun h => h f rfl, fun h g hg => DefBody.func.inj hg ▸ h⟩
    simp only [hfunc] at h ⊢
    simp only [definition, errors_bind, errors_pure, append_nil] at herrors
    obtain ⟨herrors', hchanges, hresult⟩ := passes_again (by decide) h herrors
    refine ⟨?_, ?_, fun hs => ?_⟩
    · simpa [definition] using herrors'
    · simpa [definition] using hchanges
    · simpa [definition] using hresult hs
  | _ => exact ⟨rfl, ⟨fun _ => by rintro _ ⟨⟩, fun _ => rfl⟩, fun _ => rfl⟩

theorem definitions_eq (p : Program) :
    (definitions p).result = p.map (fun d => (definition d).result) ∧
      (definitions p).errors = p.flatMap (fun d => (definition d).errors) ∧
      (definitions p).changes = (p.map fun d => (definition d).changes).sum := by
  induction p with
  | nil => exact ⟨rfl, rfl, rfl⟩
  | cons d p ih => simp [definitions, ih]

end Fold

theorem Program.folded_eq_ok_iff {p q : Program} {n : Nat} :
    folded p = .ok (q, n) ↔
      (definitions p).errors = [] ∧ (definitions p).result = q ∧
        (definitions p).changes = n := by
  unfold folded
  generalize definitions p = x
  obtain ⟨result, changes, errors⟩ := x
  cases errors with
  | nil => simp
  | cons e es => simp

/-- Folding an accepted program again meets no error. It changes nothing exactly if every function has
settled within the limit of passes, and then it leaves the program as it is. -/
theorem Program.folded_again {p q : Program} {c : Checked} {n : Nat} (h : Compile.check p = .ok c)
    (hq : Program.folded c.program = .ok (q, n)) :
    ∃ r k, Program.folded q = .ok (r, k) ∧
      (k = 0 ↔ ∀ d ∈ c.program, ∀ f, d.body = .func f → Fold.Settles Fold.maxPasses f.body) ∧
      (k = 0 → r = q) := by
  obtain ⟨herrors, rfl, -⟩ := folded_eq_ok_iff.1 hq
  obtain ⟨hresult, herrors', -⟩ := definitions_eq c.program
  rw [herrors', flatMap_eq_nil_iff] at herrors
  have hagain : ∀ d ∈ c.program, _ := fun d hd => by
    refine definition_again (T := c.symbols) (fun f hf => ?_) (herrors d hd)
    obtain ⟨sig, -, hbody⟩ := Compile.wellTyped_of_check h hd hf
    exact fun e he => hbody.exists_typed (Stmt.mem_nodesOfAll he)
  obtain ⟨hresult', herrors'', hchanges⟩ := definitions_eq (definitions c.program).result
  have hsum : (definitions (definitions c.program).result).changes = 0 ↔
      ∀ d ∈ c.program, ∀ f, d.body = .func f → Settles maxPasses f.body := by
    rw [hchanges, hresult, List.sum_eq_zero_iff_forall_eq_nat, map_map, forall_mem_map]
    exact forall₂_congr fun d hd => (hagain d hd).2.1
  refine ⟨_, _, folded_eq_ok_iff.2 ⟨?_, rfl, rfl⟩, hsum, fun hk => ?_⟩
  · rw [herrors'', hresult, flatMap_eq_nil_iff, forall_mem_map]
    exact fun d hd => (hagain d hd).1
  · rw [hresult', hresult, map_map]
    exact map_congr_left fun d hd => (hagain d hd).2.2 (hsum.1 hk d hd)

/-! ## Programs that take many passes -/

/-- A program that is one function. -/
def Program.ofMain (body : List Stmt) : Program :=
  [⟨"main", .origin, .func ⟨[], .int 64 (some false), body⟩⟩]

/-- `e * -1 + 1`, done `n` times. -/
def Expr.turned (n : Nat) (e : Expr) : Expr :=
  let m : Mark := ⟨.origin, none⟩
  (fun e => .binary m .add (.binary m .mul e (.unary m .neg (.intLit m 1))) (.intLit m 1))^[n] e

/-- `(e - 1) * -1`, done `n` times. -/
def Expr.turnedBack (n : Nat) (e : Expr) : Expr :=
  let m : Mark := ⟨.origin, none⟩
  (fun e => .binary m .mul (.binary m .sub e (.intLit m 1)) (.unary m .neg (.intLit m 1)))^[n] e

/-- `have x: int? = 4; return e;`, where `e` is `x` after `n` turns and as many turns back. The literals in
the middle meet first, and every pass takes away one of the operations. -/
def Program.turning (n : Nat) : Program :=
  let m : Mark := ⟨.origin, none⟩
  .ofMain [.var .origin ⟨"x", some (.int 64 (some true)), some (.intLit m 4), false, none⟩,
    .ret .origin (some (.turnedBack n (.turned n (.ident m "x"))))]

instance (n : Nat) (body : List Stmt) : Decidable (Fold.Settles n body) :=
  inferInstanceAs (Decidable (∃ i, i ≤ n ∧ _))

/-- Whether a definition is no function that takes more passes than there are. -/
def Def.settles (d : Def) : Bool :=
  match d.body with
  | .func f => decide (Fold.Settles Fold.maxPasses f.body)
  | _ => true

/-- Whether folding changes the program. -/
def Program.isChanged (p : Program) : Bool :=
  match Program.folded p with
  | .ok (_, k) => k != 0
  | .error _ => false

/-- Runs a test on a program that is checked and folded. -/
def Program.testFolded (p : Program) (test : Checked → Program → Nat → Bool) : Bool :=
  match Compile.check p with
  | .ok c =>
    match Program.folded c.program with
    | .ok (q, n) => test c q n
    | .error _ => false
  | .error _ => false

theorem Program.exists_of_testFolded (p : Program) (test : Checked → Program → Nat → Bool)
    (h : p.testFolded test = true) :
    ∃ c q n, Compile.check p = .ok c ∧ folded c.program = .ok (q, n) ∧ test c q n = true := by
  unfold testFolded at h
  split at h
  · next c hc =>
    split at h
    · next q n hq => exact ⟨c, q, n, hc, hq, h⟩
    · cases h
  · cases h

theorem Program.folded_again_turning :
    ∃ c q n, Compile.check (.turning 4) = .ok c ∧ Program.folded c.program = .ok (q, n) ∧ n = 24 ∧
      Program.folded q = .ok (q, 0) := by
  obtain ⟨c, q, n, hc, hq, htest⟩ := exists_of_testFolded (.turning 4)
    (fun c _ n => n == 24 && c.program.all Def.settles) (by decide +kernel)
  rw [Bool.and_eq_true, beq_iff_eq, all_eq_true] at htest
  obtain ⟨r, k, hr, hk, hsame⟩ := folded_again hc hq
  have hzero : k = 0 := by
    refine hk.2 fun d hd f hf => ?_
    have hsettles := htest.2 d hd
    rw [Def.settles, hf] at hsettles
    exact of_decide_eq_true hsettles
  subst hzero
  exact ⟨c, q, n, hc, hq, htest.1, hsame rfl ▸ hr⟩

/-- Sixteen turns take more passes than there are: folding the result again changes it. -/
theorem Program.exists_folded_again_changes :
    ∃ p c q n r k, Compile.check p = .ok c ∧ Program.folded c.program = .ok (q, n) ∧
      Program.folded q = .ok (r, k) ∧ k ≠ 0 := by
  obtain ⟨c, q, n, hc, hq, htest⟩ := exists_of_testFolded (.turning 16)
    (fun _ q _ => q.isChanged) (by decide +kernel)
  unfold isChanged at htest
  split at htest
  · next r k hr => exact ⟨_, c, q, n, r, k, hc, hq, hr, bne_iff_ne.1 htest⟩
  · cases htest

end Sigil
