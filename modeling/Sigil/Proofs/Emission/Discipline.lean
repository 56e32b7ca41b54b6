import Sigil.Proofs.Emission.Stack

/-!
# Stack discipline

The code of an accepted program uses the stack in an orderly way (`Compile.disciplined_of_generate`).
Counted line by line, whatever the jumps, its pushes and pops balance in the code of every expression
and of every statement; jumps go to labels at the same depth, so a word is popped where it is expected
on every way that control can take.

The statements of a function are found with the lines in front of their code (`Code.Within`).
-/

namespace Sigil

open List Stmt

open Machine (Block Form Label Line Stacks)

namespace Code

variable {outs : List Label} {site : Site} {c : Block} {forms : List Form} {x : Label} {exits : Option Exits}
  {st : Stmt}

/-! ## Expressions -/

theorem stacks_quiet {b : Block} (h : ∀ l ∈ b, l.Quiet) :
    Stacks outs forms b forms := by
  induction b with
  | nil => exact .nil
  | cons l b ih =>
    obtain ⟨hl, hb⟩ := forall_mem_cons.1 h
    exact (Stacks.still hl.goto?_eq_none hl.effect).append (ih hb)

/-- What has been pushed is dropped at once. -/
theorem stacks_dropBytes (hpos : ∀ f ∈ forms, 0 < f.size) :
    Stacks [] forms (dropBytes (Stacks.bytes forms)) [] := by
  unfold dropBytes
  split
  · next hzero =>
    cases forms with
    | nil => exact .nil
    | cons f forms =>
      have hf := hpos f mem_cons_self
      rw [Stacks.bytes] at hzero
      omega
  · have hdrop : Stacks [] (forms ++ []) [Line.add (.imm (Stacks.bytes forms)) .rsp] [] := .drop hpos
    rwa [append_nil] at hdrop

theorem stacks_pops {n : Nat} {regs : List Machine.Register} (h : regs.length = n) :
    Stacks [] (replicate n .word) (regs.map Line.pop) [] := by
  induction regs generalizing n with
  | nil =>
    subst h
    exact .nil
  | cons r regs ih =>
    subst h
    exact (Stacks.pop r).append (ih rfl)

theorem stacks_of_pushes {s s' : Emission}
    (h : Pushes (fun _ c _ => Stacks [] [] c []) s c forms s') : Stacks [] [] c forms := by
  induction h with
  | nil => exact .nil
  | append _ _ ih ih' => exact ih.append (ih'.above _)
  | word h => exact h.append (.push _)
  | room h size n =>
    have hcopy : ∀ l ∈ [Line.copy .rax .rsi], l.Quiet := Machine.quiet_of_all rfl
    have hcopy' : ∀ l ∈ Line.copy .rsp .rdi :: copyBytes size, l.Quiet := Machine.quiet_of_all rfl
    have hroom := (h.append (stacks_quiet hcopy)).append ((Stacks.reserve n).append (stacks_quiet hcopy'))
    simpa using hroom

/-- The pushes and pops in the code of an expression balance. -/
theorem composes_stacks (site : Site) :
    Composes site (· ≤ 4) fun _ c _ => Stacks [] [] c [] where
  quiet h := stacks_quiet h
  append h h' := h.append h'
  temp _ _ := .nil
  bind _ _ _ _ _ := .nil
  text _ _ := .still rfl fun _ _ => rfl
  routine _ _ := .still rfl fun _ _ => rfl
  logic := by
    intro s s₁ s' l r skip hl hr
    have hout := nil_subset [site.numbered "logic" (s.labels + 1)]
    have htest : ∀ l ∈ [Line.test .rax], l.Quiet := Machine.quiet_of_all rfl
    have hskip := ((hl.mono hout).append (stacks_quiet htest)).append
      (.leap (l := .jumpIf skip (site.numbered "logic" (s.labels + 1))) rfl mem_cons_self
        fun _ _ => rfl)
    have hlogic := (hskip.append (hr.mono hout)).enclose .nil
    simpa using hlogic
  kept r h := ((Stacks.push _).append (h.above _)).append (.pop r)
  call := by
    intro s s' c forms x h
    have hcall : Stacks [] forms [.call (functionLabel x)] forms := .still rfl fun _ _ => rfl
    exact ((stacks_of_pushes h).append hcall).append (stacks_dropBytes h.size_pos)
  service := by
    intro s s' c n h hn
    refine (stacks_of_pushes h).append (stacks_pops ?_)
    rw [length_reverse, length_take]
    exact Nat.min_eq_left hn

/-- The builtins of well-typed expressions are given no more arguments than there are registers. -/
theorem serve_of_typed {T : Symbols} {ns : List Expr} (h : ∀ n ∈ ns, ∃ Γ, n.Typed T Γ) :
    Serve (· ≤ 4) ns := by
  rintro n hn m b args rfl
  obtain ⟨Γ, htyped⟩ := h _ hn
  by_cases hout : b = .output ∨ b = .outputln
  · exact hout.imp id Or.inl
  · rw [not_or] at hout
    cases htyped.node.rule with
    | builtin hr _ _ => exact Or.inr (Or.inr (length_le_of_roles hr hout))

/-! ## Statements -/

theorem stacks_jump (h : x ∈ outs) : Stacks outs [] [.jump x] [] :=
  .leap rfl h fun _ _ => rfl

theorem stacks_jumpIf (h : x ∈ outs) :
    Stacks outs [] [.jumpIf .e x] [] :=
  .leap rfl h fun _ _ => rfl

theorem stacks_condCode {test yes no : Block} (otherwise done : Label)
    (htest : Stacks [] [] test []) (hyes : Stacks outs [] yes []) (hno : Stacks outs [] no []) :
    Stacks outs [] (condCode otherwise done test yes no) [] := by
  have hend := subset_cons_self done outs
  have hin := List.Subset.trans hend (subset_cons_self otherwise _)
  have hfirst := ((htest.mono (nil_subset _)).append (stacks_jumpIf mem_cons_self)).append
    (hyes.mono hin)
  have hjump := hfirst.append (stacks_jump (mem_cons_of_mem _ mem_cons_self))
  have helse := (hjump.enclose (hno.mono hin)).enclose .nil
  simpa [condCode] using helse

theorem stacks_loopCode {init test body post : Block} (start : Label)
    (exits : Exits) (hinit : Stacks [] [] init []) (htest : Stacks [] [] test [])
    (hbody : Stacks (exits.next :: exits.done :: outs) [] body [])
    (hpost : Stacks (exits.next :: exits.done :: outs) [] post []) :
    Stacks outs [] (loopCode start exits init test body post) [] := by
  -- The end of the loop is closed last, the next round first.
  have hround : exits.next :: exits.done :: outs ⊆ exits.next :: start :: exits.done :: outs :=
    cons_subset_cons _ (subset_cons_self _ _)
  have hnext := (hbody.mono hround).enclose (hpost.mono hround)
  have hdone : Stacks (start :: exits.done :: outs) [] (test ++ [Line.jumpIf .e exits.done]) [] :=
    (htest.mono (nil_subset _)).append
      (stacks_jumpIf (mem_cons_of_mem _ mem_cons_self))
  have hback := (hdone.append hnext).append (stacks_jump mem_cons_self)
  have hloop := ((hinit.mono (nil_subset _)).enclose hback).enclose .nil
  simpa [loopCode] using hloop

theorem leads_loop (hleads : Leads site exits outs)
    (n : Nat) : Leads site (some (site.loopExits n))
      ((site.loopExits n).next :: (site.loopExits n).done :: outs) := by
  refine ⟨mem_cons_of_mem _ (mem_cons_of_mem _ hleads.ret), fun x hx => ?_⟩
  cases hx
  exact ⟨mem_cons_self, mem_cons_of_mem _ mem_cons_self⟩

theorem assembles_stacks (site : Site) : Assembles site (fun _ c _ => Stacks [] [] c [])
    fun x _ c _ => ∀ outs, Leads site x outs → Stacks outs [] c [] where
  simple h outs _ := h.mono (nil_subset outs)
  append h h' outs hleads := (h outs hleads).append (h' outs hleads)
  enclosed h := h
  cond htest hyes hno outs hleads := stacks_condCode _ _ htest (hyes outs hleads) (hno outs hleads)
  loop {_ s _ _ _ _ _ _ _ _} hinit htest hbody hpost outs hleads := by
    have hin := leads_loop hleads s.labels
    exact stacks_loopCode _ _ hinit htest (hbody _ hin) (hpost _ hin)
  ret _ hleads := stacks_jump hleads.ret
  jump := ⟨fun _ hleads => stacks_jump (hleads.exits _ rfl).1, fun _ hleads => stacks_jump (hleads.exits _ rfl).2⟩

/-- The code of a statement leaves nothing on the stack, and jumps out with nothing on it. -/
theorem stacks_stmt (st : Stmt)
    (hleads : Leads site exits outs) (hserve : Serve (· ≤ 4) st.nodes) {s s' : Emission}
    (h : stmt site exits st s = (.ok c, s')) : Stacks outs [] c [] :=
  (assembles_stacks site).of_stmt (composes_stacks site) st hserve h outs hleads

/-! ## Where the code of a statement stands -/

/-- `Within site exits sts s before exits' st s'`: while the code of the statements is generated from the
state `s` on, that of the statement `st` is generated from the state `s'` on, behind the lines `before`. -/
inductive Within (site : Site) :
    Option Exits → List Stmt → Emission → Block → Option Exits → Stmt → Emission → Prop where
  | here {x : Option Exits} {st : Stmt} {rest : List Stmt} {s : Emission} :
    Within site x (st :: rest) s [] x st s
  | later {x y : Option Exits} {st0 st : Stmt} {rest : List Stmt} {s s₁ s' : Emission}
    {c before : Block} (hc : stmt site x st0 s = (.ok c, s₁))
    (h : Within site x rest s₁ before y st s') : Within site x (st0 :: rest) s (c ++ before) y st s'
  | block {x y : Option Exits} {pos : Position} {body rest : List Stmt} {st : Stmt} {s s' : Emission}
    {before : Block} (h : Within site x body s.enter before y st s') :
    Within site x (.block pos body :: rest) s before y st s'
  | yes {x y : Option Exits} {pos : Position} {test : Expr} {yes st : Stmt} {no : Option Stmt}
    {rest : List Stmt} {s s₁ s' : Emission} {t before : Block}
    (ht : condition site test (s.number 2) = (.ok t, s₁))
    (h : Within site x [yes] (s₁.inside yes) before y st s') :
    Within site x (.cond pos test yes no :: rest) s
      (t ++ [Line.jumpIf .e (site.numbered "else" (s.labels + 1))] ++ before) y st s'
  | no {x y : Option Exits} {pos : Position} {test : Expr} {yes no st : Stmt} {rest : List Stmt}
    {s s₁ s₂ s' : Emission} {t c before : Block}
    (ht : condition site test (s.number 2) = (.ok t, s₁))
    (hc : nest yes (stmt site x yes) s₁ = (.ok c, s₂))
    (h : Within site x [no] (s₂.inside no) before y st s') :
    Within site x (.cond pos test yes (some no) :: rest) s
      (t ++ [Line.jumpIf .e (site.numbered "else" (s.labels + 1))] ++ c ++
        [Line.jump (site.numbered "endif" (s.labels + 2)), .label (site.numbered "else" (s.labels + 1))]
        ++ before) y st s'
  | body {x y : Option Exits} {pos : Position} {init : Option (String × Expr)} {test : Expr}
    {post : Option Stmt} {body st : Stmt} {rest : List Stmt} {s s₁ s₂ s' : Emission}
    {i t before : Block} (hi : counter site init (s.number 3).enter = (.ok i, s₁))
    (ht : condition site test s₁ = (.ok t, s₂))
    (h : Within site (some (site.loopExits s.labels)) [body] (s₂.inside body) before y st s') :
    Within site x (.loop pos init test post body :: rest) s
      (i ++ [Line.label (site.numbered "loop" (s.labels + 1))] ++ t ++
        [Line.jumpIf .e (site.loopExits s.labels).done] ++ before) y st s'
  | post {x y : Option Exits} {pos : Position} {init : Option (String × Expr)} {test : Expr}
    {post body st : Stmt} {rest : List Stmt} {s s₁ s₂ s3 s' : Emission} {i t b before : Block}
    (hi : counter site init (s.number 3).enter = (.ok i, s₁))
    (ht : condition site test s₁ = (.ok t, s₂))
    (hb : nest body (stmt site (some (site.loopExits s.labels)) body) s₂ = (.ok b, s3))
    (h : Within site (some (site.loopExits s.labels)) [post] (s3.inside post) before y st s') :
    Within site x (.loop pos init test (some post) body :: rest) s
      (i ++ [Line.label (site.numbered "loop" (s.labels + 1))] ++ t ++
        [Line.jumpIf .e (site.loopExits s.labels).done] ++ b ++ [Line.label (site.loopExits s.labels).next]
        ++ before) y st s'

/-- The code of the statement is there, and the stack is empty in front of it and behind it. -/
structure Rests (site : Site) (code before : Block) (exits : Option Exits) (st : Stmt) (s : Emission) :
    Prop where
  code : ∃ c s' after, stmt site exits st s = (.ok c, s') ∧ code = before ++ c ++ after ∧
    Block.depth (before ++ c) = 0
  before : Block.depth before = 0

namespace Rests

variable {site : Site} {code before : Block} {exits : Option Exits} {st : Stmt} {s : Emission}

/-- The same with more code around, of which the part in front balances. -/
theorem embed (h : Rests site code before exits st s) (front after : Block)
    (hfront : Block.depth front = 0) : Rests site (front ++ code ++ after) (front ++ before) exits st s := by
  obtain ⟨⟨c, s', rest, hc, rfl, hdepth⟩, hbefore⟩ := h
  refine ⟨⟨c, s', rest ++ after, hc, by simp, ?_⟩, ?_⟩
  · rw [append_assoc, Block.depth_append, hfront, hdepth]
    rfl
  · rw [Block.depth_append, hfront, hbefore]
    rfl

end Rests

theorem stmts_singleton {x : Option Exits} {s s' : Emission}
    (h : stmt site x st s = (.ok c, s')) : stmts site x [st] s = (.ok c, s') := by
  have hboth : stmts site x [st] s = (.ok (c ++ []), s') :=
    Attempt.bind_eq_ok.2 ⟨c, s', h, Attempt.bind_eq_ok.2 ⟨[], s', rfl, rfl⟩⟩
  rwa [append_nil] at hboth

/-- Wherever the code of a statement stands, the stack is empty there. -/
theorem rests_of_within {x y : Option Exits} {sts : List Stmt} {s s' : Emission}
    {before : Block} (h : Within site x sts s before y st s')
    (hleads : Leads site x outs) (hserve : Serve (· ≤ 4) (nodesOfAll sts)) {code : Block}
    {s0 : Emission} (hcode : stmts site x sts s = (.ok code, s0)) :
    Rests site code before y st s' := by
  have hP := (composes_stacks site).laws
  -- The induction follows the way to the part: the code passed at each turn leaves the height as it was.
  induction h generalizing outs code s0 with
  | @here x st rest s =>
    obtain ⟨c, s₁, c', hc, -, rfl⟩ := of_stmts hcode
    obtain ⟨hst, -⟩ := serve_append.1 hserve
    exact ⟨⟨c, s₁, c', hc, rfl, (stacks_stmt st hleads hst hc).depth_eq⟩, rfl⟩
  | @later x y st0 st rest s s₁ s' c before hc _ ih =>
    obtain ⟨c1, s₂, c', hc1, hc', rfl⟩ := of_stmts hcode
    cases hc.symm.trans hc1
    obtain ⟨hst, hrest⟩ := serve_append.1 hserve
    have hdepth := (stacks_stmt st0 hleads hst hc).depth_eq
    simpa using (ih hleads hrest hc').embed c [] hdepth
  | @block x y pos body rest st s s' before _ ih =>
    obtain ⟨c, s₁, c', hc, -, rfl⟩ := of_stmts hcode
    obtain ⟨s₂, hbody, -⟩ := of_enclosed hc
    obtain ⟨hst, -⟩ := serve_append.1 hserve
    exact (ih hleads hst hbody).embed [] c' rfl
  | @yes x y pos test yes st no rest s s₁ s' t before ht _ ih =>
    obtain ⟨c, s₂, c', hc, -, rfl⟩ := of_stmts hcode
    obtain ⟨t', s3, b, s4, n, ht', hb, -, rfl⟩ := of_cond hc
    cases ht.symm.trans ht'
    obtain ⟨s5, hb', -⟩ := of_nest hb
    rw [nodesOfAll, nodes, serve_append, serve_append, serve_append] at hserve
    obtain ⟨⟨⟨htest, hyes⟩, -⟩, -⟩ := hserve
    have hin := ih hleads (serve_append.2 ⟨hyes, forall_mem_nil _⟩) (stmts_singleton hb')
    -- Up to the branch: the test, and the jump over it.
    have hdepth : Block.depth (t ++ [Line.jumpIf .e (site.numbered "else" (s.labels + 1))]) = 0 := by
      rw [Block.depth_append, Stacks.depth_eq ((hP.gives_condition htest).of_ok trivial ht)]
      rfl
    have hall := hin.embed _ ([Line.jump (site.numbered "endif" (s.labels + 2)),
      .label (site.numbered "else" (s.labels + 1))] ++ n ++
      [Line.label (site.numbered "endif" (s.labels + 2))] ++ c') hdepth
    simpa [condCode] using hall
  | @no x y pos test yes no st rest s s₁ s₂ s' t b before ht hb _ ih =>
    obtain ⟨c, s3, c', hc, -, rfl⟩ := of_stmts hcode
    obtain ⟨t', s4, b', s5, n, ht', hb', hn, rfl⟩ := of_cond hc
    cases ht.symm.trans ht'
    cases hb.symm.trans hb'
    obtain ⟨s6, hyes', -⟩ := of_nest hb
    obtain ⟨s7, hno', -⟩ := of_nest hn
    rw [nodesOfAll, nodes, serve_append, serve_append, serve_append] at hserve
    obtain ⟨⟨⟨htest, hyes⟩, hno⟩, -⟩ := hserve
    have hin := ih hleads (serve_append.2 ⟨hno, forall_mem_nil _⟩) (stmts_singleton hno')
    -- Up to the other branch: the first one leaves nothing behind either.
    have hdepth : Block.depth (t ++ [Line.jumpIf .e (site.numbered "else" (s.labels + 1))] ++ b ++
        [Line.jump (site.numbered "endif" (s.labels + 2)),
          .label (site.numbered "else" (s.labels + 1))]) = 0 := by
      rw [Block.depth_append, Block.depth_append, Block.depth_append,
        Stacks.depth_eq ((hP.gives_condition htest).of_ok trivial ht),
        (stacks_stmt yes hleads hyes hyes').depth_eq]
      rfl
    have hall := hin.embed _ ([Line.label (site.numbered "endif" (s.labels + 2))] ++ c') hdepth
    simpa [condCode] using hall
  | @body x y pos init test post body st rest s s₁ s₂ s' i t before hi ht _ ih =>
    obtain ⟨c, s3, c', hc, -, rfl⟩ := of_stmts hcode
    obtain ⟨i', s4, t', s5, b, s6, p, s7, hi', ht', hb, -, -, rfl⟩ := of_loop hc
    cases hi.symm.trans hi'
    cases ht.symm.trans ht'
    obtain ⟨s8, hb', -⟩ := of_nest hb
    rw [nodesOfAll, nodes, serve_append, serve_append, serve_append, serve_append] at hserve
    obtain ⟨⟨⟨⟨hinit, htest⟩, hbody⟩, -⟩, -⟩ := hserve
    -- Inside the loop there are its own labels to leave by.
    have hin := ih (leads_loop hleads s.labels) (serve_append.2 ⟨hbody, forall_mem_nil _⟩)
      (stmts_singleton hb')
    have hdepth : Block.depth (i ++ [Line.label (site.numbered "loop" (s.labels + 1))] ++ t ++
        [Line.jumpIf .e (site.loopExits s.labels).done]) = 0 := by
      rw [Block.depth_append, Block.depth_append, Block.depth_append,
        Stacks.depth_eq ((composes_stacks site).of_counter hinit hi),
        Stacks.depth_eq ((hP.gives_condition htest).of_ok trivial ht)]
      rfl
    have hall := hin.embed _ ([Line.label (site.loopExits s.labels).next] ++ p ++
      [Line.jump (site.numbered "loop" (s.labels + 1)), .label (site.loopExits s.labels).done] ++ c') hdepth
    simpa [loopCode] using hall
  | @post x y pos init test post body st rest s s₁ s₂ s3 s' i t b before hi ht hb _ ih =>
    obtain ⟨c, s4, c', hc, -, rfl⟩ := of_stmts hcode
    obtain ⟨i', s5, t', s6, b', s7, p, s8, hi', ht', hb', hp, -, rfl⟩ := of_loop hc
    cases hi.symm.trans hi'
    cases ht.symm.trans ht'
    cases hb.symm.trans hb'
    obtain ⟨s9, hbody', -⟩ := of_nest hb
    obtain ⟨s10, hpost', -⟩ := of_nest hp
    rw [nodesOfAll, nodes, serve_append, serve_append, serve_append, serve_append] at hserve
    obtain ⟨⟨⟨⟨hinit, htest⟩, hbody⟩, hpost⟩, -⟩ := hserve
    have hleads' := leads_loop hleads s.labels
    have hin := ih hleads' (serve_append.2 ⟨hpost, forall_mem_nil _⟩) (stmts_singleton hpost')
    -- Up to the step: the body has been passed as well.
    have hdepth : Block.depth (i ++ [Line.label (site.numbered "loop" (s.labels + 1))] ++ t ++
        [Line.jumpIf .e (site.loopExits s.labels).done] ++ b ++
        [Line.label (site.loopExits s.labels).next]) = 0 := by
      rw [Block.depth_append, Block.depth_append, Block.depth_append, Block.depth_append,
        Block.depth_append, (Stacks.depth_eq ((composes_stacks site).of_counter hinit hi)),
        Stacks.depth_eq ((hP.gives_condition htest).of_ok trivial ht),
        (stacks_stmt body hleads' hbody hbody').depth_eq]
      rfl
    have hall := hin.embed _ ([Line.jump (site.numbered "loop" (s.labels + 1)),
      .label (site.loopExits s.labels).done] ++ c') hdepth
    simpa [loopCode] using hall

end Code

mutual

/-- A statement and all statements inside it. -/
def Stmt.inner : Stmt → List Stmt
  | .block pos body => .block pos body :: innerAll body
  | .cond pos test yes no => .cond pos test yes no :: (yes.inner ++ innerOption no)
  | .loop pos init test post body => .loop pos init test post body :: (body.inner ++ innerOption post)
  | st => [st]

/-- The same for a statement that may be missing. -/
def Stmt.innerOption : Option Stmt → List Stmt
  | none => []
  | some st => st.inner

/-- The same for statements one after another. -/
def Stmt.innerAll : List Stmt → List Stmt
  | [] => []
  | st :: rest => st.inner ++ innerAll rest

end

namespace Code

mutual

/-- If there is code for a statement, then also for every statement inside it. -/
theorem exists_within_stmt {site : Site} (st0 : Stmt) (rest : List Stmt) {x : Option Exits}
    {s s0 : Emission} {code : Block} (h : stmt site x st0 s = (.ok code, s0)) {st : Stmt}
    (hst : st ∈ st0.inner) : ∃ before y s', Within site x (st0 :: rest) s before y st s' := by
  match st0 with
  | .block pos body =>
    rcases mem_cons.1 hst with rfl | hst
    · exact ⟨[], x, s, .here⟩
    · obtain ⟨s₁, hbody, -⟩ := of_enclosed h
      obtain ⟨before, y, s', hin⟩ := exists_within body hbody hst
      exact ⟨before, y, s', .block hin⟩
  | .cond pos test yes no =>
    rcases mem_cons.1 hst with rfl | hst
    · exact ⟨[], x, s, .here⟩
    · obtain ⟨t, s₁, c, s₂, n, ht, hc, hn, -⟩ := of_cond h
      rcases mem_append.1 hst with hst | hst
      · obtain ⟨s3, hyes, -⟩ := of_nest hc
        obtain ⟨before, y, s', hin⟩ := exists_within_stmt yes [] hyes hst
        exact ⟨_, y, s', .yes ht hin⟩
      · match no with
        | some no =>
          obtain ⟨s3, hno, -⟩ := of_nest hn
          obtain ⟨before, y, s', hin⟩ := exists_within_stmt no [] hno hst
          exact ⟨_, y, s', .no ht hc hin⟩
  | .loop pos init test post body =>
    rcases mem_cons.1 hst with rfl | hst
    · exact ⟨[], x, s, .here⟩
    · obtain ⟨i, s₁, t, s₂, b, s3, p, s4, hi, ht, hb, hp, -, -⟩ := of_loop h
      rcases mem_append.1 hst with hst | hst
      · obtain ⟨s5, hbody, -⟩ := of_nest hb
        obtain ⟨before, y, s', hin⟩ := exists_within_stmt body [] hbody hst
        exact ⟨_, y, s', .body hi ht hin⟩
      · match post with
        | some post =>
          obtain ⟨s5, hpost, -⟩ := of_nest hp
          obtain ⟨before, y, s', hin⟩ := exists_within_stmt post [] hpost hst
          exact ⟨_, y, s', .post hi ht hb hin⟩
  | .expr _ _ | .var _ _ | .assign _ _ _ | .ret _ _ | .brk _ | .cont _ =>
    rw [Stmt.inner, mem_singleton] at hst
    · exact ⟨[], x, s, hst ▸ .here⟩
    all_goals simp

theorem exists_within {site : Site} (sts : List Stmt) {x : Option Exits} {s s0 : Emission}
    {code : Block} (h : stmts site x sts s = (.ok code, s0)) {st : Stmt} (hst : st ∈ innerAll sts) :
    ∃ before y s', Within site x sts s before y st s' := by
  match sts with
  | [] => cases hst
  | st0 :: rest =>
    obtain ⟨c, s₁, c', hc, hc', -⟩ := of_stmts h
    rcases mem_append.1 hst with hst | hst
    · exact exists_within_stmt st0 rest hc hst
    · obtain ⟨before, y, s', hin⟩ := exists_within rest hc' hst
      exact ⟨c ++ before, y, s', .later hc hin⟩

end

/-! ## Functions -/

/-- The code of a function comes from its definition. -/
theorem exists_function {t : Symbols} {p : Program} {done funcs : Assoc FunctionCode}
    {s s' : Emission} (h : functions t p done s = (.ok funcs, s')) {x : String} {fc : FunctionCode}
    (hx : (x, fc) ∈ funcs) :
    (x, fc) ∈ done ∨ ∃ d ∈ p, ∃ f sig s₁ s₂, d.name = x ∧ d.body = .func f ∧
      t.funcs.get? x = some sig ∧ function ⟨t, x, sig.ret⟩ d.pos sig f.body s₁ = (.ok fc, s₂) := by
  induction p generalizing done s with
  | nil =>
    cases h
    exact Or.inl hx
  | cons d ds ih =>
    -- What a later definition has is had by the whole list.
    have hlater : ∀ {done s}, functions t ds done s = (.ok funcs, s') → (x, fc) ∈ done ∨
        ∃ d' ∈ d :: ds, ∃ f sig s₁ s₂, d'.name = x ∧ d'.body = .func f ∧
          t.funcs.get? x = some sig ∧ function ⟨t, x, sig.ret⟩ d'.pos sig f.body s₁ = (.ok fc, s₂) := by
      intro done s hds
      rcases ih hds with hdone | ⟨d', hd', hrest⟩
      · exact Or.inl hdone
      · exact Or.inr ⟨d', mem_cons_of_mem _ hd', hrest⟩
    rw [functions] at h
    cases hbody : d.body with
    | func f =>
      cases hsig : t.funcs.get? d.name with
      | none =>
        rw [hbody, hsig] at h
        exact hlater h
      | some sig =>
        rw [hbody, hsig] at h
        obtain ⟨code, s₁, hcode, hds⟩ := Attempt.bind_eq_ok.1 h
        rcases hlater hds with hput | hrest
        · rcases Assoc.mem_put hput with heq | hdone
          · cases heq
            exact Or.inr ⟨d, mem_cons_self, f, sig, s, s₁, rfl, hbody, hsig, hcode⟩
          · exact Or.inl hdone
        · exact Or.inr hrest
    | struct | const | enum =>
      rw [hbody] at h
      exact hlater h

theorem stacks_function {site : Site} {body : List Stmt} {start s : Emission} {c : Block}
    (hserve : Serve (· ≤ 4) (nodesOfAll body)) (h : stmts site none body start = (.ok c, s)) :
    Stacks [] [] (c ++ [Line.const 0 .rax, .label site.returnLabel]) [] := by
  have hleads : Leads site none [site.returnLabel] :=
    ⟨mem_singleton_self _, fun x hx => by cases hx⟩
  have hzero : ∀ l ∈ [Line.const 0 .rax], l.Quiet := Machine.quiet_of_all rfl
  have hstmts := (assembles_stacks site).of_stmts (composes_stacks site) body hserve h _ hleads
  have hbody := (hstmts.append (stacks_quiet hzero)).enclose .nil
  simpa using hbody

end Code

/-! ## Accepted programs -/

namespace Compile

open Code

/-- A program with words and an array on the stack, and with jumps out of expressions and statements. -/
def juggling : String :=
  "const f := fn (a: [3]char, n: int!) bool \x7b loop (n > 9 || a[n] == 'c') \x7b break; \x7d return n > 1; \x7d;
  const main := fn () int! \x7b have a: [3]char; if (f(a, 2 - 1)) return 1; return 0; \x7d;"

/-- In the code of every function of an accepted program, pushes and pops balance. With the bytes on the
stack counted line by line behind the prologue, the stack is used in an orderly way, it is empty in
front of the code of every statement and behind it, and the code for the value or the address of an
expression leaves it as it was. -/
theorem disciplined_of_generate {code : String} {front : Frontend} {a : Assembly}
    (h : frontend code = .ok front) (ha : generate front = .ok a) {x : String} {fc : FunctionCode}
    (hx : (x, fc) ∈ a.funcs) :
    ∃ d ∈ front.program, ∃ f sig start s' body, d.name = x ∧ d.body = .func f ∧
      front.symbols.funcs.get? x = some sig ∧
      stmts ⟨front.symbols, x, sig.ret⟩ none f.body start = (.ok body, s') ∧
      fc.code = [.label (functionLabel x)] ++ prologue fc.frame ++
        (body ++ [.const 0 .rax, .label (Site.mk front.symbols x sig.ret).returnLabel]) ++ epilogue ∧
      Block.Disciplined
        (body ++ [.const 0 .rax, .label (Site.mk front.symbols x sig.ret).returnLabel]) ∧
      (∀ st ∈ Stmt.innerAll f.body, ∃ before y s₁,
        Within ⟨front.symbols, x, sig.ret⟩ none f.body start before y st s₁) ∧
      (∀ st before y s₁, Within ⟨front.symbols, x, sig.ret⟩ none f.body start before y st s₁ →
        Rests ⟨front.symbols, x, sig.ret⟩ body before y st s₁) ∧
      ∀ e ∈ Stmt.nodesOfAll f.body, ∀ s₁ c s₂,
        (lower ⟨front.symbols, x, sig.ret⟩ e).value s₁ = (.ok c, s₂) ∨
          (lower ⟨front.symbols, x, sig.ret⟩ e).address s₁ = (.ok c, s₂) → Block.depth c = 0 := by
  obtain ⟨-, htyped⟩ := wellTyped_of_frontend h
  obtain ⟨sig', -, hbuilt⟩ := (built_of_generate h ha).1.built (x, fc) hx
  -- The code is that of a definition of the program.
  have hdef : ∃ d ∈ front.program, ∃ f sig s₁ s₂, d.name = x ∧ d.body = .func f ∧
      front.symbols.funcs.get? x = some sig ∧
      function ⟨front.symbols, x, sig.ret⟩ d.pos sig f.body s₁ = (.ok fc, s₂) := by
    unfold generate Assembly.ofProgram at ha
    rcases hr : functions front.symbols front.program [] ⟨.ofArgs [] false, 0, .empty⟩ with ⟨r, s⟩
    rw [hr] at ha
    cases r with
    | error e => cases ha
    | ok funcs =>
      cases ha
      rcases exists_function hr hx with hnil | hdef
      · cases hnil
      · exact hdef
  obtain ⟨d, hd, f, sig, s₁, s₂, rfl, hf, hsig, hfunction⟩ := hdef
  obtain ⟨start, body, s', -, hbody, hcode⟩ := of_function hfunction
  obtain ⟨sig'', -, hall⟩ := htyped d hd f hf
  have hserve : Serve (· ≤ 4) (nodesOfAll f.body) :=
    serve_of_typed fun n hn => hall.exists_typed hn
  have hleads : Leads ⟨front.symbols, d.name, sig.ret⟩ none
      [(Site.mk front.symbols d.name sig.ret).returnLabel] :=
    ⟨mem_singleton_self _, fun y hy => by cases hy⟩
  -- The labels are some of the function's, which are all apart.
  have hlabels : (Block.labels (body ++
      [.const 0 .rax, .label (Site.mk front.symbols d.name sig.ret).returnLabel])).Nodup := by
    have hnodup := hbuilt.nodup_labels.1
    rw [hcode, append_assoc _ body] at hnodup
    simp only [Block.labels_append] at hnodup ⊢
    exact (nodup_append.1 (nodup_append.1 hnodup).1).2.1
  refine ⟨d, hd, f, sig, start, s', body, rfl, hf, hsig, hbody, ?_, ?_, ?_, ?_, ?_⟩
  · rw [hcode]
    simp
  · exact (stacks_function hserve hbody).disciplined hlabels
  · intro st hst
    exact exists_within f.body hbody hst
  · intro st before y s₁ hin
    exact rests_of_within hin hleads hserve hbody
  · -- An expression by itself, wherever it stands.
    intro e he s₁ c s₂ hc
    obtain ⟨Γ, htyped'⟩ := hall.exists_typed he
    have hnodes : Serve (· ≤ 4) e.nodes :=
      serve_of_typed fun n hn => ⟨Γ, fun k hk => htyped' k (Expr.nodes_trans hn hk)⟩
    have hgives := (composes_stacks ⟨front.symbols, d.name, sig.ret⟩).laws.gives_lower hnodes
    rcases hc with hc | hc
    · exact Stacks.depth_eq (hgives.value.of_ok trivial hc)
    · exact Stacks.depth_eq ((hgives.address (Or.inr fun _ _ => trivial)).of_ok trivial hc)

theorem disciplined_of_generate_juggling :
    ∃ front a fc before body after, frontend juggling = .ok front ∧ generate front = .ok a ∧
      ("f", fc) ∈ a.funcs ∧ fc.code = before ++ body ++ after ∧ Block.Disciplined body ∧
      .pop .rcx ∈ fc.code ∧ .jumpIf .ne ".Lf_logic4" ∈ fc.code ∧ .jump ".Lf_endloop3" ∈ fc.code := by
  obtain ⟨front, a, hfront, ha, htest⟩ := exists_of_testCode juggling
    (fun _ a => match a.funcs.get? "f" with
      | some fc => decide (.pop .rcx ∈ fc.code) && decide (.jumpIf .ne ".Lf_logic4" ∈ fc.code) &&
          decide (.jump ".Lf_endloop3" ∈ fc.code)
      | none => false) (by decide +kernel)
  cases hget : a.funcs.get? "f" with
  | none =>
    rw [hget] at htest
    cases htest
  | some fc =>
    rw [hget] at htest
    simp only [Bool.and_eq_true, decide_eq_true_eq] at htest
    obtain ⟨⟨hpop, hlogic⟩, hjump⟩ := htest
    have hmem := Assoc.mem_of_get? hget
    obtain ⟨d, -, f, sig, start, s', body, -, -, -, -, hcode, hdisciplined, -⟩ :=
      disciplined_of_generate hfront ha hmem
    exact ⟨front, a, fc, _, _, _, hfront, ha, hmem, hcode, hdisciplined, hpop, hlogic, hjump⟩

end Compile

end Sigil
