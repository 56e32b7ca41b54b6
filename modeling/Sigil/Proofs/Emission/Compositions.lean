import Sigil.Proofs.Emission.Program
import Sigil.Proofs.Machine.Contents

/-!
# What all code of expressions has in common

A property of code that does not depend on where values are kept (`Composes`) holds of all code that is
generated for an expression (`Composes.laws`). The expression need not be well typed. At most, the routines
that it calls have to be given as many arguments as the property allows (`Serve`). A property that is also kept
by the ways in which conditionals and loops are put together (`Assembles`) holds of all code of statements.
-/

namespace Sigil

open Attempt List

open Machine (Block Condition Form Label Line Register)
open Machine.Stacks (bytes rooms)

variable {arity : Nat → Prop}

/-! ## Quiet lines -/

/-- Whether a line has nothing to do with labels, nor with the stack. -/
def Machine.Line.isQuiet (l : Line) : Bool :=
  l.label?.isNone && l.targets.isEmpty && l.sparesFrame

theorem Machine.quiet_of_all {b : Block} (h : b.all Line.isQuiet = true) : ∀ l ∈ b, l.Quiet := by
  intro l hl
  have hquiet := all_eq_true.1 h l hl
  unfold Line.isQuiet at hquiet
  simp only [Bool.and_eq_true, Option.isNone_iff_eq_none, List.isEmpty_iff] at hquiet
  exact ⟨hquiet.1.1, hquiet.1.2, hquiet.2⟩

/-- The number of arguments of every call of a routine among the nodes is as allowed. -/
def Serve (arity : Nat → Prop) (nodes : List Expr) : Prop :=
  ∀ n ∈ nodes, ∀ m b args, n = .builtin m b args → b = .output ∨ b = .outputln ∨ arity args.length

theorem Serve.mono {nodes nodes' : List Expr} (h : Serve arity nodes)
    (hsub : nodes' ⊆ nodes) : Serve arity nodes' :=
  fun n hn => h n (hsub hn)

theorem serve_append {nodes nodes' : List Expr} :
    Serve arity (nodes ++ nodes') ↔ Serve arity nodes ∧ Serve arity nodes' :=
  forall_mem_append

theorem Serve.child {e c : Expr} (h : Serve arity e.nodes)
    (hc : c ∈ e.children) : Serve arity c.nodes :=
  (Expr.forall_nodes.1 h).2 c hc

namespace Code

variable {c : Block}

/-! ## Ways of composing code -/

/-- Code that puts arguments on the stack. Their values are found by code that has the property `P`; what
has been put there last is the first of the forms. -/
inductive Pushes (P : Emission → Block → Emission → Prop) :
    Emission → Block → List Form → Emission → Prop where
  | nil {s : Emission} : Pushes P s [] [] s
  | append {s s1 s' : Emission} {c c' : Block} {forms forms' : List Form}
    (h : Pushes P s c forms s1) (h' : Pushes P s1 c' forms' s') :
    Pushes P s (c ++ c') (forms' ++ forms) s'
  | word {s s' : Emission} {c : Block} (h : P s c s') : Pushes P s (c ++ [Line.push .rax]) [.word] s'
  | room {s s' : Emission} {c : Block} (h : P s c s') (size n : Nat) :
    Pushes P s (c ++ [Line.copy .rax .rsi, .sub (.imm n) .rsp, .copy .rsp .rdi] ++ copyBytes size)
      (rooms n) s'

/-- Every form that has been pushed takes some bytes. -/
theorem Pushes.size_pos {P : Emission → Block → Emission → Prop} {s s' : Emission}
    {forms : List Form} (h : Pushes P s c forms s') : ∀ f ∈ forms, 0 < f.size := by
  induction h with
  | nil => exact forall_mem_nil _
  | append _ _ ih ih' => exact forall_mem_append.2 ⟨ih', ih⟩
  | word => exact forall_mem_singleton.2 (by decide)
  | room _ _ n =>
    unfold rooms
    split
    · exact forall_mem_nil _
    · next hn => exact forall_mem_singleton.2 (Nat.pos_of_ne_zero hn)

/-- A property of generated code that is kept by the ways in which the code of expressions is composed. -/
structure Composes (site : Site) (arity : Nat → Prop) (P : Emission → Block → Emission → Prop) :
    Prop where
  quiet : ∀ {s : Emission} {c : Block}, (∀ l ∈ c, l.Quiet) → P s c s
  append : ∀ {s s1 s' : Emission} {c c' : Block}, P s c s1 → P s1 c' s' → P s (c ++ c') s'
  temp : ∀ (s : Emission) (size : Nat), P s [] { s with frame := (s.frame.temp size).2 }
  bind : ∀ (s : Emission) (x : String) (t : Ty) (offset : Int) (mutable : Bool),
    P s [] { s with frame := s.frame.bind x t offset mutable }
  text : ∀ (s : Emission) (t : String),
    P s [.lea (.label (s.pool.string t).1) .rax] { s with pool := (s.pool.string t).2 }
  routine : ∀ (s : Emission) (r : Routine), P s [.call r.label] { s with pool := s.pool.use r }
  logic : ∀ {s s1 s' : Emission} {l r : Block} (skip : Condition), P (s.number 1) l s1 → P s1 r s' →
    P s (l ++ [Line.test .rax, .jumpIf skip (site.numbered "logic" (s.labels + 1))] ++ r ++
      [Line.label (site.numbered "logic" (s.labels + 1))]) s'
  kept : ∀ {s s' : Emission} {c : Block} (r : Register), P s c s' →
    P s ([.push .rax] ++ c ++ [Line.pop r]) s'
  call : ∀ {s s' : Emission} {c : Block} {forms : List Form} (x : String), Pushes P s c forms s' →
    P s (c ++ [Line.call (functionLabel x)] ++ dropBytes (bytes forms)) s'
  service : ∀ {s s' : Emission} {c : Block} {n : Nat}, Pushes P s c (List.replicate n .word) s' →
    arity n → P s (c ++ (argRegisters.take n).reverse.map Line.pop) s'

/-- Nothing is known but the number of arguments of the routines that are called. -/
def Ground.serving (arity : Nat → Prop) : Ground where
  expr e := Serve arity e.nodes
  type _ := True
  fits _ _ := True
  room _ _ _ := True
  state _ := True
  fault _ _ := True

section

variable {site : Site} {arity : Nat → Prop} {P : Emission → Block → Emission → Prop} {s s' : Emission}
  {code : Block} {n : Nat}

/-- Each argument is pushed as a word, or as room that its bytes are copied to. -/
theorem pushes_pushArgs {args : List (Lowered × Ty)} (h : ∀ a ∈ args, Gives (.serving arity) P a.1.value)
    (pos : Position) (hcode : pushArgs site pos args s = (.ok (code, n), s')) :
    ∃ forms, Pushes P s code forms s' ∧ bytes forms = n := by
  induction args generalizing s code n with
  | nil =>
    cases hcode
    exact ⟨[], .nil, rfl⟩
  | cons a args ih =>
    obtain ⟨l, t⟩ := a
    obtain ⟨hl, hrest⟩ := forall_mem_cons.1 h
    rw [pushArgs] at hcode
    split at hcode
    · obtain ⟨size, -, h1⟩ := of_sizeOf hcode
      obtain ⟨b, s1, hb, h2⟩ := bind_eq_ok.1 h1
      obtain ⟨⟨more, k⟩, s2, hmore, h3⟩ := bind_eq_ok.1 h2
      cases h3
      obtain ⟨forms, hforms, rfl⟩ := ih hrest hmore
      refine ⟨_, .append (.room (hl.of_ok trivial hb) size (Frame.round8 size)) hforms, ?_⟩
      rw [Machine.Stacks.bytes_append, Machine.Stacks.bytes_rooms, Nat.add_comm]
    · obtain ⟨b, s1, hb, h1⟩ := bind_eq_ok.1 hcode
      obtain ⟨⟨more, k⟩, s2, hmore, h2⟩ := bind_eq_ok.1 h1
      cases h2
      obtain ⟨forms, hforms, rfl⟩ := ih hrest hmore
      refine ⟨_, .append (.word (hl.of_ok trivial hb)) hforms, ?_⟩
      rw [Machine.Stacks.bytes_append, Nat.add_comm]
      rfl

theorem pushes_pushAll {args : List Lowered} (h : ∀ l ∈ args, Gives (.serving arity) P l.value)
    (hcode : pushAll args s = (.ok code, s')) : Pushes P s code (replicate args.length .word) s' := by
  induction args generalizing s code with
  | nil =>
    cases hcode
    exact .nil
  | cons l args ih =>
    obtain ⟨hl, hrest⟩ := forall_mem_cons.1 h
    obtain ⟨b, s1, hb, h1⟩ := bind_eq_ok.1 hcode
    obtain ⟨more, s2, hmore, h2⟩ := bind_eq_ok.1 h1
    cases h2
    rw [length_cons, replicate_succ']
    exact .append (.word (hl.of_ok trivial hb)) (ih hrest hmore)

end

namespace Composes

variable {site : Site} {arity : Nat → Prop} {P : Emission → Block → Emission → Prop}
  (hP : Composes site arity P)
variable {args : List Lowered}

include hP

theorem pushes_pushResult {pos : Position} {t : Ty} {s s' : Emission} {code : Block} {n : Nat}
    (hcode : pushResult site pos t s = (.ok (code, n), s')) :
    ∃ forms, Pushes P s code forms s' ∧ bytes forms = n := by
  unfold pushResult at hcode
  split at hcode
  · obtain ⟨size, -, h1⟩ := of_sizeOf hcode
    cases h1
    have hlea : ∀ l ∈ [Line.lea (slot (s.frame.temp size).1) .rax], l.Quiet :=
      Machine.quiet_of_all rfl
    exact ⟨[.word], .word (hP.append (hP.temp s size) (hP.quiet hlea)), rfl⟩
  · cases hcode
    exact ⟨[], .nil, rfl⟩

/-- A call is its pushes, the call itself and the drop. -/
theorem gives_call (h : ∀ l ∈ args, Gives (.serving arity) P l.value) (m : Mark)
    (callee : Expr) : Gives (.serving arity) P (Code.call site m callee args).value := by
  refine fun s _ => ends_of_ok fun code s' hcode => ?_
  obtain ⟨t, -, hcode⟩ := of_typed hcode
  cases callee with
  | ident m' x =>
    dsimp only at hcode
    cases hsig : site.symbols.funcs.get? x with
    | none =>
      rw [hsig] at hcode
      cases hcode
    | some sig =>
      rw [hsig] at hcode
      obtain ⟨⟨pushed, n⟩, s1, hpushed, h1⟩ := bind_eq_ok.1 hcode
      obtain ⟨⟨result, k⟩, s2, hresult, h2⟩ := bind_eq_ok.1 h1
      cases h2
      have hargs : ∀ a ∈ (args.zip (sig.params.map (·.2))).reverse, Gives (.serving arity) P a.1.value :=
        fun a ha => h a.1 (of_mem_zip (mem_reverse.1 ha)).1
      obtain ⟨forms, hforms, rfl⟩ := pushes_pushArgs hargs m.pos hpushed
      obtain ⟨forms', hforms', rfl⟩ := hP.pushes_pushResult hresult
      have hcall := hP.call x (hforms.append hforms')
      rwa [Machine.Stacks.bytes_append, Nat.add_comm] at hcall
  | _ => cases hcode

theorem gives_routineCall (h : ∀ l ∈ args, Gives (.serving arity) P l.value)
    (harity : arity args.length) (r : Routine) : Gives (.serving arity) P (routineCall r args) := by
  refine fun s _ => ends_of_ok fun code s' hcode => ?_
  obtain ⟨b, s1, hb, h1⟩ := bind_eq_ok.1 hcode
  have h2 := of_routine h1
  cases h2
  exact hP.append (hP.service (pushes_pushAll h hb) harity) (hP.routine s1 r)

/-- The property holds of all code that is generated for an expression. -/
theorem laws : DeclLaws site (.serving arity) P where
  child h hc := h.child hc
  typed _ _ := ⟨trivial, trivial⟩
  aggregate _ _ := Or.inr fun _ _ => trivial
  word := trivial
  field _ _ _ _ _ _ _ := ⟨trivial, trivial, fun _ _ _ => trivial⟩
  elem _ _ := ⟨trivial, fun _ _ => trivial, fun _ _ _ _ _ _ _ => trivial⟩
  stuck _ _ _ _ _ := trivial
  place _ := Or.inr fun _ _ => trivial
  large _ _ _ _ := trivial
  keeps _ _ := trivial
  later _ _ _ := trivial
  taken _ _ _ := trivial
  plain h := hP.quiet fun l hl => (h l hl).toQuiet
  slot _ h := hP.quiet (forall_mem_singleton.2 h.toQuiet)
  name _ := hP.quiet (Machine.quiet_of_all rfl)
  offset _ _ _ := hP.quiet (Machine.quiet_of_all rfl)
  append := hP.append
  temp := hP.temp
  text := hP.text
  routine := hP.routine
  number _ := trivial
  logic := hP.logic
  kept _ h := hP.kept _ h
  call {m callee args} _ h := by
    rw [lower, lowerAll_eq]
    exact hP.gives_call (forall_mem_map.2 fun a ha => (h a ha).value) m callee
  service {m b args} he hout houtln h r := by
    have hserved := he _ (by rw [Expr.nodes_eq]; exact mem_cons_self) m b args rfl
    have harity : arity args.length := by simpa [hout, houtln] using hserved
    rw [← length_map (lower site)] at harity
    exact hP.gives_routineCall (forall_mem_map.2 fun a ha => (h a ha).value) harity r
  bind x mutable _ := hP.bind _ x _ _ mutable
  lenient _ _ := trivial

theorem of_counter {init : Option (String × Expr)}
    (hserve : Serve arity ((init.toList.map (·.2)).flatMap Expr.nodes)) {s s' : Emission}
    (h : counter site init s = (.ok c, s')) : P s c s' := by
  have hinit : ∀ x e, init = some (x, e) → Serve arity e.nodes := by
    rintro x e rfl
    simpa using hserve
  exact (hP.laws.gives_counter fun x e he => ⟨hinit x e he, fun _ _ _ _ => trivial⟩).of_ok trivial h

end Composes

/-! ## Compound statements -/

/-- The code of a conditional. -/
def condCode (otherwise done : Label) (test yes no : Block) : Block :=
  test ++ [Line.jumpIf .e otherwise] ++ yes ++ [Line.jump done, .label otherwise] ++ no ++ [Line.label done]

/-- The code of a loop. -/
def loopCode (start : Label) (exits : Exits) (init test body post : Block) : Block :=
  init ++ [Line.label start] ++ test ++ [Line.jumpIf .e exits.done] ++ body ++ [Line.label exits.next] ++ post
    ++ [Line.jump start, .label exits.done]

/-- The labels of a loop for which three labels are taken behind the first `n`. -/
def Site.loopExits (site : Site) (n : Nat) : Exits :=
  ⟨site.numbered "next" (n + 2), site.numbered "endloop" (n + 3)⟩

/-- The state in which the code of a statement starts that depends on a condition. -/
def Emission.inside (s : Emission) : Stmt → Emission
  | .block _ _ => s
  | _ => s.enter

section

variable {site : Site} {exits : Option Exits} {s s' : Emission} {code : Block}
variable {st : Stmt}

theorem of_nest {x : Emit Block} (h : nest st x s = (.ok code, s')) :
    ∃ s1, x (s.inside st) = (.ok code, s1) ∧ s1.labels = s'.labels := by
  cases st with
  | block => exact ⟨s', h, rfl⟩
  | _ =>
    obtain ⟨s1, hx, rfl⟩ := of_enclosed h
    exact ⟨s1, hx, rfl⟩

theorem of_stmts {rest : List Stmt}
    (h : stmts site exits (st :: rest) s = (.ok code, s')) :
    ∃ c s1 c', stmt site exits st s = (.ok c, s1) ∧ stmts site exits rest s1 = (.ok c', s') ∧
      code = c ++ c' := by
  obtain ⟨c, s1, hc, h1⟩ := bind_eq_ok.1 h
  obtain ⟨c', s2, hc', h2⟩ := bind_eq_ok.1 h1
  cases h2
  exact ⟨c, s1, c', hc, hc', rfl⟩

/-- What the code of a condition is composed of. -/
theorem of_cond {pos : Position} {test : Expr} {yes : Stmt} {no : Option Stmt}
    (h : stmt site exits (.cond pos test yes no) s = (.ok code, s')) :
    ∃ t s1 y s2 n, condition site test (s.number 2) = (.ok t, s1) ∧
      nest yes (stmt site exits yes) s1 = (.ok y, s2) ∧ optional site exits no s2 = (.ok n, s') ∧
      code = condCode (site.numbered "else" (s.labels + 1)) (site.numbered "endif" (s.labels + 2))
        t y n := by
  have hlabels := of_label (of_label (k := fun otherwise => site.label "endif" >>= _) h)
  obtain ⟨t, s1, ht, h1⟩ := bind_eq_ok.1 hlabels
  obtain ⟨y, s2, hy, h2⟩ := bind_eq_ok.1 h1
  obtain ⟨n, s3, hn, h3⟩ := bind_eq_ok.1 h2
  cases h3
  exact ⟨t, s1, y, s2, n, ht, hy, hn, rfl⟩

/-- What the code of a loop is composed of. -/
theorem of_loop {pos : Position} {init : Option (String × Expr)} {test : Expr} {post : Option Stmt}
    {body : Stmt} (h : stmt site exits (.loop pos init test post body) s = (.ok code, s')) :
    ∃ i s1 t s2 b s3 p s4, counter site init (s.number 3).enter = (.ok i, s1) ∧
      condition site test s1 = (.ok t, s2) ∧
      nest body (stmt site (some (site.loopExits s.labels)) body) s2 = (.ok b, s3) ∧
      optional site (some (site.loopExits s.labels)) post s3 = (.ok p, s4) ∧
      s' = { s4 with frame := s4.frame.leave } ∧
      code = loopCode (site.numbered "loop" (s.labels + 1)) (site.loopExits s.labels) i t b p := by
  obtain ⟨s5, hloop, rfl⟩ := of_enclosed (of_label (of_label (of_label h)))
  obtain ⟨i, s1, hi, h1⟩ := bind_eq_ok.1 hloop
  obtain ⟨t, s2, ht, h2⟩ := bind_eq_ok.1 h1
  obtain ⟨b, s3, hb, h3⟩ := bind_eq_ok.1 h2
  obtain ⟨p, s4, hp, h4⟩ := bind_eq_ok.1 h3
  cases h4
  exact ⟨i, s1, t, s2, b, s3, p, s5, hi, ht, hb, hp, rfl, rfl⟩

/-- The code of a function is that of its statements, in a frame. -/
theorem of_function {pos : Position} {sig : Signature} {body : List Stmt} {fc : FunctionCode}
    (h : function site pos sig body s = (.ok fc, s')) :
    ∃ start c s1, start.labels = 0 ∧ stmts site none body start = (.ok c, s1) ∧
      fc.code = [.label (functionLabel site.name)] ++ prologue fc.frame ++ c ++
        [Line.const 0 .rax, .label site.returnLabel] ++ epilogue := by
  obtain ⟨args, s1, hargs, h1⟩ := bind_eq_ok.1 h
  obtain ⟨_, s2, hmodify, h2⟩ := bind_eq_ok.1 h1
  cases hmodify
  obtain ⟨c, s3, hc, h3⟩ := bind_eq_ok.1 h2
  cases h3
  obtain ⟨s4, hstmts, -⟩ := of_enclosed hc
  exact ⟨_, c, s4, rfl, hstmts, rfl⟩

end

/-! ## All statements -/

/-- A property `Q` of the code of statements, inside a loop with the given exits, that is kept by the ways in
which the code of statements is composed from code that has the property `P`. -/
structure Assembles (site : Site) (P : Emission → Block → Emission → Prop)
    (Q : Option Exits → Emission → Block → Emission → Prop) : Prop where
  simple : ∀ {x s c s'}, P s c s' → Q x s c s'
  append : ∀ {x s s1 s' c c'}, Q x s c s1 → Q x s1 c' s' → Q x s (c ++ c') s'
  enclosed : ∀ {x s c s'}, Q x s.enter c s' → Q x s c { s' with frame := s'.frame.leave }
  cond : ∀ {x s s1 s2 s' t y n}, P (s.number 2) t s1 → Q x s1 y s2 → Q x s2 n s' →
    Q x s (condCode (site.numbered "else" (s.labels + 1)) (site.numbered "endif" (s.labels + 2)) t y n) s'
  loop : ∀ {x s s1 s2 s3 s' i t b p}, P (s.number 3).enter i s1 → P s1 t s2 →
    Q (some (site.loopExits s.labels)) s2 b s3 → Q (some (site.loopExits s.labels)) s3 p s' →
    Q x s (loopCode (site.numbered "loop" (s.labels + 1)) (site.loopExits s.labels) i t b p)
      { s' with frame := s'.frame.leave }
  ret : ∀ {x s}, Q x s [.jump site.returnLabel] s
  jump : ∀ {x s}, Q (some x) s [.jump x.next] s ∧ Q (some x) s [.jump x.done] s

namespace Assembles

variable {site : Site} {arity : Nat → Prop} {P : Emission → Block → Emission → Prop}
  {Q : Option Exits → Emission → Block → Emission → Prop}
variable {x : Option Exits}

theorem of_exit {target : Exits → Label}
    (htarget : ∀ {x s}, Q (some x) s [.jump (target x)] s) {s s' : Emission}
    (h : exit x target s = (.ok c, s')) : Q x s c s' := by
  cases x with
  | none => cases h
  | some x =>
    cases h
    exact htarget

variable (hQ : Assembles site P Q)

include hQ

theorem of_nest {st : Stmt} {code : Emit Block}
    (hcode : ∀ {s c s'}, code s = (.ok c, s') → Q x s c s') {s s' : Emission}
    (h : nest st code s = (.ok c, s')) : Q x s c s' := by
  cases st with
  | block => exact hcode h
  | _ =>
    obtain ⟨s1, h1, rfl⟩ := of_enclosed h
    exact hQ.enclosed (hcode h1)

variable (hP : Composes site arity P)

include hP

mutual

/-- The property holds of all code that is generated for a statement. -/
theorem of_stmt (st : Stmt) {x : Option Exits} (hserve : Serve arity st.nodes) {s s' : Emission} {c : Block}
    (h : stmt site x st s = (.ok c, s')) : Q x s c s' := by
  match st with
  | .block pos body =>
    obtain ⟨s1, hbody, rfl⟩ := of_enclosed h
    exact hQ.enclosed (of_stmts body hserve hbody)
  | .expr pos e => exact hQ.simple ((hP.laws.gives_lower hserve).value.of_ok trivial h)
  | .var pos d =>
    -- The initial value's nodes are nodes of the declaration.
    have hinit : ∀ e ∈ d.init, Serve arity e.nodes := fun e he =>
      hserve.mono fun n hn => mem_flatMap.2 ⟨e, Option.mem_toList.2 he, hn⟩
    have hgives := hP.laws.gives_varDecl pos fun _ _ => ⟨trivial, fun e he => ⟨hinit e he, trivial⟩⟩
    exact hQ.simple (hgives.of_ok trivial h)
  | .assign pos l r =>
    obtain ⟨hl, hr⟩ := serve_append.1 hserve
    exact hQ.simple ((hP.laws.gives_assignment hl hr pos).of_ok trivial h)
  | .cond pos test yes no =>
    obtain ⟨t, s1, y, s2, n, ht, hy, hn, rfl⟩ := of_cond h
    rw [Stmt.nodes, serve_append, serve_append] at hserve
    obtain ⟨⟨htest, hyes⟩, hno⟩ := hserve
    exact hQ.cond ((hP.laws.gives_condition htest).of_ok trivial ht) (hQ.of_nest (of_stmt yes hyes) hy)
      (of_optional no hno hn)
  | .loop pos init test post body =>
    obtain ⟨i, s1, t, s2, b, s3, p, s4, hi, ht, hb, hp, rfl, rfl⟩ := of_loop h
    rw [Stmt.nodes, serve_append, serve_append, serve_append] at hserve
    obtain ⟨⟨⟨hinit, htest⟩, hbody⟩, hpost⟩ := hserve
    exact hQ.loop (hP.of_counter hinit hi) ((hP.laws.gives_condition htest).of_ok trivial ht)
      (hQ.of_nest (of_stmt body hbody) hb) (of_optional post hpost hp)
  | .ret pos none =>
    cases h
    exact hQ.ret
  | .ret pos (some e) =>
    obtain ⟨v, hv, rfl⟩ := of_returnCode h
    have he : Serve arity e.nodes := hserve.mono (by simp [Stmt.nodes])
    exact hQ.append (hQ.simple ((hP.laws.gives_returnValue he trivial pos).of_ok trivial hv)) hQ.ret
  | .brk pos => exact of_exit hQ.jump.2 h
  | .cont pos => exact of_exit hQ.jump.1 h

theorem of_optional (st : Option Stmt) {x : Option Exits} (hserve : Serve arity (Stmt.nodesOfOption st))
    {s s' : Emission} {c : Block} (h : optional site x st s = (.ok c, s')) : Q x s c s' := by
  match st with
  | none =>
    cases h
    exact hQ.simple (hP.quiet (forall_mem_nil _))
  | some st => exact hQ.of_nest (of_stmt st hserve) h

theorem of_stmts (sts : List Stmt) {x : Option Exits} (hserve : Serve arity (Stmt.nodesOfAll sts))
    {s s' : Emission} {c : Block} (h : stmts site x sts s = (.ok c, s')) : Q x s c s' := by
  match sts with
  | [] =>
    cases h
    exact hQ.simple (hP.quiet (forall_mem_nil _))
  | st :: rest =>
    obtain ⟨c1, s1, c2, h1, h2, rfl⟩ := Code.of_stmts h
    obtain ⟨hst, hrest⟩ := serve_append.1 hserve
    exact hQ.append (of_stmt st hst h1) (of_stmts rest hrest h2)

end

end Assembles

end Code

end Sigil
