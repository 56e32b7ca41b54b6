import Sigil.Proofs.Folding.Typing
import Sigil.Proofs.Phases
import Sigil.Proofs.Typing.Statements

/-!
# Checked programs are well typed

The last pass over a function reports nothing if the program is accepted, so its body is well typed
under the types of its parameters (`Compile.wellTyped_of_check`), and every expression in it satisfies
the rule for its form (`Compile.exists_rule_of_check`).
-/

namespace Sigil

open List Typing

/-! ## The locals at the start of a function -/

namespace Frame

theorem get?_argSlots (offset : Int) (args : List (String × Ty × Nat)) (slots : Assoc Slot) :
    (fun x => ((argSlots offset args slots).get? x).map (·.ty)) =
      args.foldl (fun (Γ : Env) a => Γ.bind a.1 (some a.2.1)) fun x => (slots.get? x).map (·.ty) := by
  induction args generalizing offset slots with
  | nil => rfl
  | cons arg args ih =>
    obtain ⟨x, t, size⟩ := arg
    rw [argSlots, ih, foldl_cons]
    congr 1
    funext y
    by_cases hy : x = y
    · subst hy
      simp [Env.bind]
    · simp [Env.bind, Assoc.get?_put_of_ne hy, Ne.symm hy]

/-- The locals at the start are the arguments, of which the last of a name counts. -/
theorem env_ofArgs (args : List (String × Ty × Nat)) (hiddenResult : Bool) :
    (ofArgs args hiddenResult).env = Env.ofParams (args.map fun a => (a.1, a.2.1)) := by
  have hfind : ∀ slots : Assoc Slot, ∀ x, find? x [slots] = slots.get? x := by
    intro slots x
    simp only [find?]
    split <;> simp_all
  unfold env get? ofArgs
  simp only [hfind]
  rw [get?_argSlots, Env.ofParams, foldl_map]
  rfl

end Frame

theorem Typing.Env.defined_ofParams {kind : String → Option SymbolKind} {params : List (String × Ty)}
    (h : ∀ p ∈ params, p.2.Defined kind) : (Env.ofParams params).Defined kind := by
  have hfold : ∀ Γ : Env, Γ.Defined kind → (∀ p ∈ params, p.2.Defined kind) →
      (params.foldl (fun Γ p => Γ.bind p.1 (some p.2)) Γ).Defined kind := by
    clear h
    induction params with
    | nil => exact fun Γ hΓ _ => hΓ
    | cons p params ih =>
      intro Γ hΓ h
      refine ih _ (hΓ.bind (h p mem_cons_self) p.1) fun q hq => ?_
      exact h q (mem_cons_of_mem p hq)
  exact hfold _ (fun _ _ hx => nomatch hx) h

namespace Check

variable {t : Symbols} {f : Func} {sig : Signature} {es : List (Located TypeError)}

theorem env_start (t : Symbols) (sig : Signature) :
    (Scope.start t sig).frame.env = Env.ofParams sig.params := by
  unfold Scope.start
  dsimp only
  rw [Frame.env_ofArgs, map_map]
  exact congrArg Env.ofParams (map_id sig.params)

/-! ## Functions and programs -/

/-- A pass that reports nothing leaves a well-typed body. -/
theorem allTyped_of_pass (ht : t.Complete) (hsig : sig.Defined t.kind)
    {signed : List Position} {body : List Stmt} (h : (pass t sig signed body).2.errors = []) :
    Stmt.AllTyped t sig.ret false (Env.ofParams sig.params) (pass t sig signed body).1 := by
  have hstart : (Scope.start t sig).Fit t.kind := by
    refine ⟨by simp [Scope.start, Frame.ofArgs], ?_⟩
    rw [env_start]
    exact Env.defined_ofParams hsig.params
  have hbody := surveys_stmts (c := ⟨t, sig.ret, signed⟩) ⟨ht, hsig.ret⟩ body _ hstart.enter
  have htyped := ((Surveys.enclosed hstart hbody).2 h).1
  have henv : (Scope.start t sig).frame.enter.env = Env.ofParams sig.params := env_start t sig
  rw [henv] at htyped
  exact htyped

/-- The body that remains after all passes is that of some pass. -/
theorem passes_eq (t : Symbols) (sig : Signature) (body : List Stmt) (n : Nat)
    (signed : List Position) :
    ∃ signed', passes t sig body n signed =
      ((pass t sig signed' body).1, (pass t sig signed' body).2.errors,
        (pass t sig signed' body).2.trapped) := by
  -- Each further pass only knows more signs.
  induction n generalizing signed with
  | zero =>
    refine ⟨signed, ?_⟩
    unfold passes
    dsimp only
    split <;> rfl
  | succ n ih =>
    unfold passes
    dsimp only
    split
    · exact ⟨signed, rfl⟩
    · exact ih _

/-- A function whose signature is known gets the body and the errors of one pass over it. -/
theorem definition_func {d d' : Def}
    (hf : d.body = .func f) (hsig : t.funcs.get? d.name = some sig)
    (h : definition t d = some (d', es)) :
    ∃ signed, d' = { d with body := .func { f with body := (pass t sig signed f.body).1 } } ∧
      es = (pass t sig signed f.body).2.errors := by
  obtain ⟨signed, hpasses⟩ := passes_eq t sig f.body (unsigiledAll f.body).length []
  refine ⟨signed, ?_⟩
  simp only [definition, hf, hsig, hpasses] at h
  split at h
  · exact nomatch h
  · next heq =>
    simp only [Prod.mk.injEq] at heq
    obtain ⟨rfl, rfl, -⟩ := heq
    simp only [Option.some.injEq, Prod.mk.injEq] at h
    exact ⟨h.1.symm, h.2.symm⟩

/-- A definition is checked by itself: its name stays, and a function gets a well-typed body if nothing
is reported. -/
theorem definition_spec (ht : t.Complete) {d d' : Def}
    (hd : t.Knows d.name d.body.kind) (h : definition t d = some (d', []))
    (hf : d'.body = .func f) :
    ∃ sig, t.funcs.get? d'.name = some sig ∧
      Stmt.AllTyped t sig.ret false (Env.ofParams sig.params) f.body := by
  cases hbody : d.body with
  | func g =>
    rw [hbody] at hd
    obtain ⟨sig, hsig⟩ := Option.isSome_iff_exists.1 hd
    obtain ⟨signed, rfl, herrors⟩ := definition_func hbody hsig h
    cases hf
    exact ⟨sig, hsig, allTyped_of_pass ht (ht.funcs hsig) herrors.symm⟩
  | _ =>
    simp only [definition, hbody] at h
    cases h
    cases hbody.symm.trans hf

end Check

/-! ## Every expression is well typed -/

theorem Expr.Typed.exists_typed {T : Symbols} {Γ : Env} {e n : Expr} (h : e.Typed T Γ)
    (hn : n ∈ e.nodes) : ∃ Γ, n.Typed T Γ :=
  ⟨Γ, fun _ hk => h _ (Expr.nodes_trans hn hk)⟩

namespace Stmt

theorem Simple.exists_typed {T : Symbols} {ret : Ty} {looping : Bool} {Γ : Env} {s : Stmt}
    (h : Simple T ret looping Γ s) {n : Expr} (hn : n ∈ s.nodes) : ∃ Γ, n.Typed T Γ := by
  cases h with
  | expr h => exact h.exists_typed hn
  | assign hl hr _ _ _ =>
    rcases mem_append.1 hn with hn | hn
    · exact hl.exists_typed hn
    · exact hr.exists_typed hn
  | var _ _ _ hi =>
    obtain ⟨e, he, hn⟩ := mem_flatMap.1 hn
    exact (hi e (Option.mem_toList.1 he)).1.exists_typed hn
  | done _ => cases hn
  | ret he _ _ => exact he.exists_typed (by simpa [Stmt.nodes] using hn)
  | brk _ => cases hn
  | cont _ => cases hn

mutual

/-- By recursion on the statement: each expression is well typed where it stands. -/
theorem Typed.exists_typed {T : Symbols} {ret : Ty} {looping : Bool} {Γ : Env} {s : Stmt}
    (h : s.Typed T ret looping Γ) {n : Expr} (hn : n ∈ s.nodes) : ∃ Γ, n.Typed T Γ := by
  match s with
  | .block _ body =>
    have hbody : AllTyped T ret looping Γ body := h
    exact hbody.exists_typed hn
  | .cond _ test yes no =>
    obtain ⟨htest, hyes, hno⟩ := h
    simp only [Stmt.nodes, mem_append] at hn
    rcases hn with (hn | hn) | hn
    · exact htest.1.exists_typed hn
    · exact hyes.exists_typed hn
    · exact OptionTyped.exists_typed (s := no) hno hn
  | .loop _ init test post body =>
    obtain ⟨hinit, htest, hbody, hpost⟩ := h
    simp only [Stmt.nodes, mem_append] at hn
    rcases hn with ((hn | hn) | hn) | hn
    · obtain ⟨e, he, hn⟩ := mem_flatMap.1 hn
      obtain ⟨⟨x, e'⟩, hx, rfl⟩ := mem_map.1 he
      exact (hinit x e' (Option.mem_toList.1 hx)).1.exists_typed hn
    · exact htest.1.exists_typed hn
    · exact hbody.exists_typed hn
    · exact OptionTyped.exists_typed (s := post) hpost hn
  | .expr _ _ | .assign _ _ _ | .var _ _ | .ret _ _ | .brk _ | .cont _ =>
    exact Simple.exists_typed h hn

theorem OptionTyped.exists_typed {T : Symbols} {ret : Ty} {looping : Bool} {Γ : Env} {s : Option Stmt}
    (h : OptionTyped T ret looping Γ s) {n : Expr} (hn : n ∈ nodesOfOption s) :
    ∃ Γ, n.Typed T Γ := by
  match s with
  | none => exact nomatch hn
  | some s => exact Typed.exists_typed (s := s) h hn

/-- Every expression in well-typed statements is well typed where it stands. -/
theorem AllTyped.exists_typed {T : Symbols} {ret : Ty} {looping : Bool} {Γ : Env} {body : List Stmt}
    (h : AllTyped T ret looping Γ body) {n : Expr} (hn : n ∈ nodesOfAll body) :
    ∃ Γ, n.Typed T Γ := by
  match body with
  | [] => exact nomatch hn
  | s :: rest =>
    rcases mem_append.1 hn with hn | hn
    · exact h.1.exists_typed hn
    · exact h.2.exists_typed hn

end

end Stmt

namespace Compile

variable {p : Program} {c : Checked}

/-- The table of an accepted program is complete and has the names of the program in it, and no definition
has an error. -/
theorem of_check (h : check p = .ok c) :
    c.symbols.Complete ∧ (∀ d ∈ p, c.symbols.Knows d.name d.body.kind) ∧
      Forall₂ (fun d d' => Check.definition c.symbols d = some (d', [])) p c.program := by
  obtain ⟨htable, hdefs⟩ := Program.typed_eq_some.1 (typed_of_check h)
  obtain ⟨hcomplete, hknows⟩ := Symbols.complete_of_ofProgram htable
  exact ⟨hcomplete, hknows, hdefs⟩

/-- The functions of an accepted program are well typed. -/
theorem wellTyped_of_check (h : check p = .ok c) {d : Def}
    (hd : d ∈ c.program) {f : Func} (hf : d.body = .func f) :
    ∃ sig, c.symbols.funcs.get? d.name = some sig ∧
      Stmt.AllTyped c.symbols sig.ret false (Env.ofParams sig.params) f.body := by
  obtain ⟨hcomplete, hknows, hdefs⟩ := of_check h
  obtain ⟨d0, hmem, hdef⟩ := forall₂_left hdefs.flip hd
  exact Check.definition_spec hcomplete (hknows d0 hmem) hdef hf

/-- A program that compares a string with `nil`. -/
def nilTest : String :=
  "const main := fn () int! \x7b have s: str = \"a\"; if (s == nil) \x7b return 1; \x7d return 0; \x7d;"

/-- Of an accepted program every definition is kept. The body of every function is well typed under the
types of its parameters, as it is and after any number of folding passes, and every expression in it has
a type and satisfies the rule for its form. -/
theorem exists_rule_of_check {p : Program} {c : Checked} (h : check p = .ok c) :
    List.Forall₂ (fun d d' => d'.name = d.name ∧ d'.body.kind = d.body.kind) p c.program ∧
    ∀ d ∈ c.program, ∀ f, d.body = .func f →
      ∃ sig, c.symbols.funcs.get? d.name = some sig ∧
        ∀ n, Stmt.AllTyped c.symbols sig.ret false (Env.ofParams sig.params) (Fold.pass^[n] f.body) ∧
          ∀ e ∈ Stmt.nodesOfAll (Fold.pass^[n] f.body), ∃ Γ t, e.ty = some t ∧ Rule c.symbols Γ e := by
  refine ⟨(of_check h).2.2.imp fun d d' h => Check.definition_keeps h, fun d hd f hf => ?_⟩
  obtain ⟨sig, hsig, hbody⟩ := wellTyped_of_check h hd hf
  refine ⟨sig, hsig, fun n => ?_⟩
  have hfolded := Fold.allTyped_iterate hbody n
  refine ⟨hfolded, fun e he => ?_⟩
  obtain ⟨Γ, htyped⟩ := hfolded.exists_typed he
  obtain ⟨t, ht, -⟩ := htyped.node.ty
  exact ⟨Γ, t, ht, htyped.node.rule⟩

theorem exists_rule_of_check_nilTest :
    ∃ p c d f, parse nilTest = .ok p ∧ check p = .ok c ∧ d ∈ c.program ∧ d.body = .func f ∧
      (Stmt.nodesOfAll f.body).length = 6 ∧
      ∀ e ∈ Stmt.nodesOfAll f.body, ∃ Γ t, e.ty = some t ∧ Rule c.symbols Γ e := by
  obtain ⟨p, c, d, f, hp, hc, hd, hf, hlen⟩ := exists_of_testSource nilTest
    (fun _ f => (Stmt.nodesOfAll f.body).length == 6) (by decide +kernel)
  obtain ⟨sig, -, h⟩ := (exists_rule_of_check hc).2 d hd f hf
  exact ⟨p, c, d, f, hp, hc, hd, hf, eq_of_beq hlen, (h 0).2⟩

/-- Whether an expression compares types that are neither equal nor assignable both ways. -/
def oneWay : Expr → Bool
  | .binary _ op l r =>
    match l.ty, r.ty with
    | some t, some u => op.isCompare && t != u && !(t.assignable u && u.assignable t)
    | _, _ => false
  | _ => false

/-- A string may be compared with `nil`, although a pointer to anything cannot be stored in place of a
string. -/
theorem exists_comparison_one_way :
    ∃ p c d f, parse nilTest = .ok p ∧ check p = .ok c ∧ d ∈ c.program ∧ d.body = .func f ∧
      ∃ m op l r t u, Expr.binary m op l r ∈ Stmt.nodesOfAll f.body ∧ op.isCompare = true ∧
        l.ty = some t ∧ r.ty = some u ∧ t ≠ u ∧ ¬(t.assignable u = true ∧ u.assignable t = true) := by
  obtain ⟨p, c, d, f, hp, hc, hd, hf, hone⟩ := exists_of_testSource nilTest
    (fun _ f => (Stmt.nodesOfAll f.body).any oneWay) (by decide +kernel)
  refine ⟨p, c, d, f, hp, hc, hd, hf, ?_⟩
  obtain ⟨e, he, hone⟩ := any_eq_true.1 hone
  unfold oneWay at hone
  split at hone
  · next m op l r =>
    split at hone
    · next t u hl hr =>
      simp only [Bool.and_eq_true, bne_iff_ne] at hone
      refine ⟨m, op, l, r, t, u, he, hone.1.1, hl, hr, hone.1.2, ?_⟩
      rintro ⟨htu, hut⟩
      simp [htu, hut] at hone
    · exact nomatch hone
  · exact nomatch hone

end Compile

end Sigil
