import Sigil.Proofs.Lowering.Statements
import Sigil.Proofs.Typing.Program

/-!
# Code for accepted programs

A program that has been read, checked and folded without errors has code, unless some object is too
large for the machine. Every expression that the generator comes to is well typed under the locals that
the generator has in scope at that time, so every name is found there with the type that the name was
given by the check.
-/

namespace Sigil

open Attempt Typing

namespace Code

/-! ## Functions -/

/-- The expressions that are met while the code of a function is generated. -/
def functionTrail (site : Site) (pos : Position) (sig : Signature) (body : List Stmt) : Trail :=
  onward (sizedArgs site pos sig.params) fun args s =>
    visitsAll site none body
      ({ s with frame := .ofArgs args sig.ret.isAggregate, labels := 0 } : Emission).enter

/-- The expressions that are met while the code of a program is generated. -/
def programTrail (t : Symbols) : Program → Trail
  | [] => fun _ => []
  | d :: ds =>
    match d.body, t.funcs.get? d.name with
    | .func f, some sig =>
      along (functionTrail ⟨t, d.name, sig.ret⟩ d.pos sig f.body)
        (function ⟨t, d.name, sig.ret⟩ d.pos sig f.body) fun _ => programTrail t ds
    | _, _ => programTrail t ds

variable {site : Site}

/-- Each parameter gets its size and keeps its name and its type. -/
theorem emits_sizedArgs (hT : site.symbols.Complete) {params : List (String × Ty)}
    (h : ∀ p ∈ params, p.2.Defined site.symbols.kind) (f : Frame) (pos : Position) :
    Emits f (fun args => args.map (fun a => (a.1, a.2.1)) = params) (sizedArgs site pos params) := by
  induction params with
  | nil => exact .pure rfl
  | cons p params ih =>
    obtain ⟨x, t⟩ := p
    have ht := h (x, t) List.mem_cons_self
    refine (generates_sizeOf hT ht pos).bind fun size _ => ?_
    refine (ih fun p hp => h p (List.mem_cons_of_mem _ hp)).bind fun args hargs => .pure ?_
    rw [List.map_cons, hargs]

/-- The code of a function with a well-typed body can be generated. -/
theorem walks_function {t : Symbols} (hT : t.Complete) {sig : Signature} (hsig : sig.Defined t.kind)
    {body : List Stmt} (hbody : Stmt.AllTyped t sig.ret false (Env.ofParams sig.params) body)
    (s : Emission) (name : String) (pos : Position) :
    Walks s (function ⟨t, name, sig.ret⟩ pos sig body) (functionTrail ⟨t, name, sig.ret⟩ pos sig body)
      (Stmt.nodesOfAll body) fun _ _ => True := by
  refine .onward (emits_sizedArgs hT hsig.params s.frame pos) fun args s1 hargs _ => ?_
  -- The frame starts with the arguments as its locals, in the order of the parameters.
  have hstart : ({ s1 with frame := .ofArgs args sig.ret.isAggregate, labels := 0 } : Emission).Sees
      (Env.ofParams sig.params) := by
    refine ⟨List.cons_ne_nil _ _, ?_⟩
    rw [← hargs]
    exact Frame.env_ofArgs args sig.ret.isAggregate
  have hexits : false = true → (none : Option Exits).isSome := fun h => nomatch h
  have hsite : (Site.mk t name sig.ret).symbols.Complete := hT
  have hin := walks_stmts hsite hsig.ret body hexits hstart.enter hbody
  refine ⟨ends_bind (ends_modify (ends_bind ?_)), hin.enclosed.typed⟩
  refine hin.enclosed.ends.mono ?_ fun _ _ he => he
  rintro code s2 ⟨-, hmet⟩
  exact ends_bind (ends_get (ends_pure ⟨trivial, hmet⟩))

/-- The expressions in the functions of a program. -/
def nodesOfFunctions (p : Program) : List Expr :=
  p.flatMap fun d =>
    match d.body with
    | .func f => Stmt.nodesOfAll f.body
    | _ => []

/-- The code of a program with well-typed functions can be generated. -/
theorem walks_functions {t : Symbols} (hT : t.Complete) {p : Program}
    (h : ∀ d ∈ p, ∀ f, d.body = .func f → ∃ sig, t.funcs.get? d.name = some sig ∧
      Stmt.AllTyped t sig.ret false (Env.ofParams sig.params) f.body)
    (done : Assoc FunctionCode) (s : Emission) :
    Walks s (functions t p done) (programTrail t p) (nodesOfFunctions p) fun _ _ => True := by
  induction p generalizing done s with
  | nil => exact .pure trivial
  | cons d ds ih =>
    have hrest := ih fun d hd => h d (List.mem_cons_of_mem _ hd)
    rw [functions, programTrail, nodesOfFunctions, List.flatMap_cons]
    cases hd : d.body with
    | func f =>
      obtain ⟨sig, hsig, hbody⟩ := h d List.mem_cons_self f hd
      rw [hsig]
      have hwalk := walks_function hT (hT.funcs hsig) hbody s d.name d.pos
      exact hwalk.along (fun code s1 _ => hrest _ s1) fun n hn => List.mem_append.1 hn
    | _ => exact hrest done s

end Code

namespace Fold

theorem result_definitions (p : Program) :
    (definitions p).result = p.map fun d => (definition d).result := by
  induction p with
  | nil => rfl
  | cons d ds ih => simp [definitions, ih]

/-- Folding keeps names, and all that it does to a function is done to its body. -/
theorem passes_of_definition {d : Def} {f : Func} (h : (definition d).result.body = .func f) :
    (definition d).result.name = d.name ∧
      ∃ g, d.body = .func g ∧ f.body = (passes maxPasses g.body).result ∧
        (definition d).errors = (passes maxPasses g.body).errors := by
  unfold definition at h ⊢
  split at h
  · next g hg =>
    obtain rfl := DefBody.func.inj h
    exact ⟨rfl, g, hg, rfl, List.append_nil _⟩
  · next hnot => exact absurd h (hnot f)

theorem exists_of_definition {d : Def} {f : Func} (h : (definition d).result.body = .func f) :
    (definition d).result.name = d.name ∧
      ∃ g k, d.body = .func g ∧ f.body = pass^[k] g.body := by
  obtain ⟨hname, g, hg, hbody, -⟩ := passes_of_definition h
  obtain ⟨k, hk⟩ := exists_iterate_of_passes maxPasses g.body
  exact ⟨hname, g, k, hg, hbody.trans hk⟩

end Fold

namespace Compile

/-- An accepted program is a checked one whose definitions have been folded. -/
theorem of_frontend {code : String} {front : Frontend} (h : frontend code = .ok front) :
    ∃ p c, parse code = .ok p ∧ check p = .ok c ∧ front.symbols = c.symbols ∧
      front.program = (Fold.definitions c.program).result := by
  obtain ⟨p, c, hp, hc, hsymbols, hfold⟩ := stages_of_frontend h
  refine ⟨p, c, hp, hc, hsymbols, ?_⟩
  unfold Program.folded at hfold
  split at hfold
  · next hdefs =>
    cases hfold
    rw [hdefs]
  · exact nomatch hfold

/-- What is left after folding is well typed as well. -/
theorem wellTyped_of_frontend {code : String} {front : Frontend} (h : frontend code = .ok front) :
    front.symbols.Complete ∧ ∀ d ∈ front.program, ∀ f, d.body = .func f →
      ∃ sig, front.symbols.funcs.get? d.name = some sig ∧
        Stmt.AllTyped front.symbols sig.ret false (Env.ofParams sig.params) f.body := by
  obtain ⟨p, c, -, hc, hsymbols, hprogram⟩ := of_frontend h
  rw [hsymbols, hprogram, Fold.result_definitions]
  refine ⟨(of_check hc).1, ?_⟩
  intro d hd f hf
  obtain ⟨d0, hd0, rfl⟩ := List.mem_map.1 hd
  obtain ⟨hname, g, k, hg, hbody⟩ := Fold.exists_of_definition hf
  obtain ⟨sig, hsig, htyped⟩ := wellTyped_of_check hc hd0 hg
  rw [hname, hbody]
  exact ⟨sig, hsig, Fold.allTyped_iterate htyped k⟩

/-- The expressions that are met while the code of a program is generated. -/
def visits (front : Frontend) : List Code.Visit :=
  Code.programTrail front.symbols front.program ⟨.ofArgs [] false, 0, .empty⟩

/-- A program in which a name has two types: of the two locals `z`, the one in the loop is signed. -/
def shadowing : String :=
  "const main := fn () int! \x7b have z: int! = 1; loop (i = 0; i < z) : (i++)
    \x7b have z: int? = -1; i = @cast<int!>(z); \x7d return z; \x7d;"

/-- For a program that has been read, checked and folded without errors there is code, unless some object
is too large. If there is, every expression of the program has been met. Whenever an expression is met,
code can be generated for every node of it without opening or closing a scope, and every name in it is
found in the scopes that are open then, with the type that it has been given by the check. -/
theorem generate_of_frontend {code : String} {front : Frontend} (h : frontend code = .ok front) :
    ((∃ a, generate front = .ok a ∧
        ∀ n ∈ Code.nodesOfFunctions front.program, ∃ v ∈ visits front, n ∈ v.expr.nodes) ∨
      ∃ e : Error, generate front = .error (.errors [e]) ∧ e.TooLarge) ∧
    ∀ v ∈ visits front, ∀ n ∈ v.expr.nodes,
      (Code.lower v.site n).Sound v.state.frame n ∧
        ∀ m x, n = .ident m x → ∀ f : Frame, f.scopes = v.state.frame.scopes →
          ∃ slot, f.get? x = some slot ∧ m.ty = some slot.ty := by
  obtain ⟨hT, htyped⟩ := wellTyped_of_frontend h
  have hwalk := Code.walks_functions hT htyped [] ⟨.ofArgs [] false, 0, .empty⟩
  refine ⟨?_, fun v hv n hn => ?_⟩
  · have hends := hwalk.ends
    unfold Ends at hends
    unfold generate Assembly.ofProgram
    split at hends
    · next funcs s hfuncs =>
      rw [hfuncs]
      exact Or.inl ⟨_, rfl, hends.2⟩
    · next e s hfuncs =>
      rw [hfuncs]
      exact Or.inr ⟨e, rfl, hends⟩
  · -- Well typed under the locals of the frame means that every name in it has a slot.
    obtain ⟨hcomplete, hv⟩ := hwalk.typed v hv
    have hnode : n.Typed v.site.symbols v.state.frame.env :=
      fun k hk => hv k (Expr.nodes_trans hn hk)
    refine ⟨Code.sound_lower hcomplete hnode, ?_⟩
    rintro m x rfl f hf
    cases hnode.node.rule with
    | ident hx hm =>
      obtain ⟨slot, hslot, rfl⟩ := Option.map_eq_some_iff.1 hx
      exact ⟨slot, (congrArg (Frame.find? x) hf).trans hslot, hm⟩

theorem generate_of_frontend_shadowing :
    ∃ front a, frontend shadowing = .ok front ∧ generate front = .ok a ∧
      (visits front).length = 9 ∧
      ∀ v ∈ visits front, ∀ m x, .ident m x ∈ v.expr.nodes →
        ∃ slot, v.state.frame.get? x = some slot ∧ m.ty = some slot.ty := by
  obtain ⟨front, a, hfront, ha, htest⟩ := exists_of_testCode shadowing
    (fun front _ => (visits front).length == 9) (by decide +kernel)
  refine ⟨front, a, hfront, ha, beq_iff_eq.1 htest, fun v hv m x hx => ?_⟩
  exact ((generate_of_frontend hfront).2 v hv _ hx).2 m x rfl v.state.frame rfl

end Compile

end Sigil
