import Sigil.Proofs.Emission.Expressions

/-!
# The code of statements in pieces

The code of a well-typed statement is put together in the ways of `Piece` as well
(`Code.makes_stmt`). It jumps out to the end of the function, and inside a loop also to the next round
of the loop and to its end.
-/

namespace Sigil.Code

open Stmt

open Machine (Block Label Line)
open Typing

variable {site : Site} {outs : List Label} {s s' : Emission}

/-- The labels to which the code of a statement may jump are among those outside. -/
structure Leads (site : Site) (exits : Option Exits) (outs : List Label) : Prop where
  ret : site.returnLabel ∈ outs
  exits : ∀ x, exits = some x → x.next ∈ outs ∧ x.done ∈ outs

/-! ## Scopes -/

theorem of_enclosed {α : Type} {x : Emit α} {a : α} (h : enclosed x s = (.ok a, s')) :
    ∃ s1, x { s with frame := s.frame.enter } = (.ok a, s1) ∧
      s' = { s1 with frame := s1.frame.leave } := by
  obtain ⟨_, s1, henter, h1⟩ := Attempt.bind_eq_ok.1 h
  cases henter
  obtain ⟨b, s2, hb, h2⟩ := Attempt.bind_eq_ok.1 h1
  cases h2
  exact ⟨s2, hb, rfl⟩

theorem makes_enclosed {x : Emit Block} (hx : Makes site outs x) : Makes site outs (enclosed x) := by
  intro s code s' hs h
  obtain ⟨s1, hc, rfl⟩ := of_enclosed h
  have hpiece := hx (s := { s with frame := s.frame.enter }) ⟨hs.least, hs.nonpos⟩ hc
  exact ((Piece.enter.append hpiece).append .leave).of_eq (by simp)

theorem makes_nest {st : Stmt} {x : Emit Block} (hx : Makes site outs x) :
    Makes site outs (nest st x) := by
  cases st with
  | block pos body => exact hx
  | _ => exact makes_enclosed hx

/-! ## Simple statements -/

theorem makes_condition (hsite : site.Sound) {Γ : Env} {e : Expr} (he : e.Typed site.symbols Γ) :
    Makes site outs (condition site e) :=
  ((declLaws_pieces hsite).gives_condition ⟨Γ, he⟩).makes

theorem makes_counter (hsite : site.Sound) {Γ : Env} {init : Option (String × Expr)}
    (hinit : ∀ x e, init = some (x, e) →
      e.Typed site.symbols Γ ∧ ∃ signed, e.ty = some (.int 64 signed)) :
    Makes site outs (counter site init) := by
  refine ((declLaws_pieces hsite).gives_counter fun x e he => ?_).makes
  obtain ⟨htyped, signed, hty⟩ := hinit x e he
  refine ⟨⟨Γ, htyped⟩, fun t ht s hs => ?_⟩
  cases hty.symm.trans ht
  exact ⟨8, rfl, room_temp hs 8⟩

theorem makes_returnCode (hsite : site.Sound) (hret : site.ret.Defined site.symbols.kind)
    (hout : site.returnLabel ∈ outs) {Γ : Env} {pos : Position} {value : Option Expr}
    (hvalue : ∀ e ∈ value, e.Typed site.symbols Γ) : Makes site outs (returnCode site pos value) := by
  intro s code s' hs h
  cases value with
  | none =>
    cases h
    exact .jump hout
  | some e =>
    obtain ⟨c, hc, rfl⟩ := of_returnCode h
    have hmakes : Makes site outs (returnValue site pos e) :=
      ((declLaws_pieces hsite).gives_returnValue ⟨Γ, hvalue e rfl⟩ hret pos).makes
    exact (hmakes hs hc).append (.jump hout)

theorem makes_exit {exits : Option Exits} {target : Exits → Label}
    (h : ∀ x, exits = some x → target x ∈ outs) : Makes site outs (exit exits target) := by
  intro s code s' _ hcode
  cases exits with
  | none => cases hcode
  | some x =>
    cases hcode
    exact .jump (h x rfl)

theorem makes_nil : Makes site outs (pure []) := by
  intro s code s' _ h
  cases h
  exact .nil

/-! ## All statements -/

mutual

/-- The code of a well-typed statement is made of pieces. -/
theorem makes_stmt (hsite : site.Sound) (hret : site.ret.Defined site.symbols.kind) (st : Stmt)
    {looping : Bool} {exits : Option Exits} {outs : List Label} (hleads : Leads site exits outs)
    {Γ : Env} (h : st.Typed site.symbols site.ret looping Γ) : Makes site outs (stmt site exits st) := by
  match st with
  | .block pos body =>
    rw [Typed] at h
    exact makes_enclosed (makes_stmts hsite hret body hleads h)
  | .expr pos e =>
    rw [Typed] at h
    cases h with
    | expr he => exact makes_value hsite he
  | .var pos d =>
    rw [Typed] at h
    cases h with
    | var hd _ ht hinit =>
      refine ((declLaws_pieces hsite).gives_varDecl pos fun t hty => ?_).makes
      cases hd.symm.trans hty
      exact ⟨ht, fun e he => ⟨⟨Γ, (hinit e he).1⟩, (hinit e he).2⟩⟩
  | .assign pos l r =>
    rw [Typed] at h
    cases h with
    | assign hl hr _ _ => exact ((declLaws_pieces hsite).gives_assignment ⟨Γ, hl⟩ ⟨Γ, hr⟩ pos).makes
  | .cond pos test yes no =>
    rw [Typed] at h
    obtain ⟨⟨htest, -⟩, hyes, hno⟩ := h
    intro s code s' hs hcode
    obtain ⟨a, s1, ha, hs1, -, h1⟩ :=
      (makes_condition hsite htest).of_bind (s := s.number 2) hs (of_label (of_label hcode))
    obtain ⟨b, s2, hb, hs2, -, h2⟩ :=
      (makes_nest (makes_stmt hsite hret yes hleads hyes)).of_bind hs1 h1
    obtain ⟨c, s3, hc, -, -, h3⟩ := (makes_optional hsite hret no hleads hno).of_bind hs2 h2
    cases h3
    exact .cond ha hb hc
  | .loop pos init test post body =>
    rw [Typed] at h
    obtain ⟨hinit, ⟨htest, -⟩, hbody, hpost⟩ := h
    intro s code s' hs hcode
    obtain ⟨s5, hloop, rfl⟩ := of_enclosed (of_label (of_label (of_label hcode)))
    have hin : Leads site (some ⟨site.numbered "next" (s.labels + 2),
        site.numbered "endloop" (s.labels + 3)⟩)
        (site.numbered "next" (s.labels + 2) :: site.numbered "endloop" (s.labels + 3) :: outs) := by
      refine ⟨List.mem_cons_of_mem _ (List.mem_cons_of_mem _ hleads.ret), fun x hx => ?_⟩
      cases hx
      exact ⟨List.mem_cons_self, List.mem_cons_of_mem _ List.mem_cons_self⟩
    -- The scope of the counter is around the condition, the body and the step.
    have henter : Piece site outs (s.number 3) [] 0
        { s.number 3 with frame := (s.number 3).frame.enter } := .enter
    obtain ⟨a, s1, ha, hs1, -, h1⟩ := (makes_counter hsite hinit).of_bind
      (henter.bounded hs).1 hloop
    obtain ⟨b, s2, hb, hs2, -, h2⟩ := (makes_condition hsite htest).of_bind hs1 h1
    obtain ⟨c, s3, hc, hs3, -, h3⟩ :=
      (makes_nest (makes_stmt hsite hret body hin hbody)).of_bind hs2 h2
    obtain ⟨d, s4, hd, -, -, h4⟩ := (makes_optional hsite hret post hin hpost).of_bind hs3 h3
    cases h4
    exact ((Piece.loop (henter.append ha) hb hc hd).append .leave).of_eq (List.append_nil _)
  | .ret pos value =>
    rw [Typed] at h
    refine makes_returnCode hsite hret hleads.ret (Γ := Γ) ?_
    cases h with
    | done => exact fun _ he => nomatch he
    | ret he => exact fun _ he' => Option.some.inj he' ▸ he
  | .brk pos => exact makes_exit fun x hx => (hleads.exits x hx).2
  | .cont pos => exact makes_exit fun x hx => (hleads.exits x hx).1

theorem makes_optional (hsite : site.Sound) (hret : site.ret.Defined site.symbols.kind)
    (st : Option Stmt) {looping : Bool} {exits : Option Exits} {outs : List Label}
    (hleads : Leads site exits outs) {Γ : Env}
    (h : OptionTyped site.symbols site.ret looping Γ st) :
    Makes site outs (optional site exits st) := by
  match st with
  | none => exact makes_nil
  | some st =>
    rw [OptionTyped] at h
    exact makes_nest (makes_stmt hsite hret st hleads h)

theorem makes_stmts (hsite : site.Sound) (hret : site.ret.Defined site.symbols.kind)
    (sts : List Stmt) {looping : Bool} {exits : Option Exits} {outs : List Label}
    (hleads : Leads site exits outs) {Γ : Env}
    (h : AllTyped site.symbols site.ret looping Γ sts) :
    Makes site outs (stmts site exits sts) := by
  match sts with
  | [] => exact makes_nil
  | st :: rest =>
    rw [AllTyped] at h
    intro s code s' hs hcode
    obtain ⟨a, s1, ha, hs1, -, h1⟩ := (makes_stmt hsite hret st hleads h.1).of_bind hs hcode
    obtain ⟨b, s2, hb, -, -, h2⟩ := (makes_stmts hsite hret rest hleads h.2).of_bind hs1 h1
    cases h2
    exact ha.append hb

end

end Sigil.Code
