import Sigil.Proofs.Frees.Events

/-!
# Reports of freed pointers

The use of a freed pointer is reported of a name that means a freed local. Whatever is taken as freed has been
freed by a statement before, and the report goes back to that statement (`Check.Told`). The two names mean
declarations with the same place in the frame. So the declaration that is reported is the one that was freed,
as long as every declaration has a place of its own (`Check.readAfterFree_of_typed`).

A parameter that takes up no room has the place of the one behind it. If that one is freed, the other is
reported, though it is never freed itself (`Check.exists_useAfterFree_not_freed`).
-/

namespace Sigil.Check

open List Scope

variable {e : Located TypeError} {t : Symbols} {sig : Signature} {es : List (Located TypeError)}

/-! ## Reports and events -/

/-- Every pointer that is taken as freed is one that a name meant when it was freed. -/
def Scope.Backed (args : List (String × Slot)) (past : List Event) (s : Scope) : Prop :=
  ∀ o ∈ s.freed, ∃ y f slot, Event.free y f ∈ past ∧ f.Orderly args ∧ f.named <+: s.frame.named ∧
    f.get? y = some slot ∧ slot.offset = o

/-- The complaint that a freed pointer is used is borne out by the events: something with the place of the
local has been freed before it is read. -/
def Justified (args : List (String × Slot)) (tr : List Event) (e : Located TypeError) : Prop :=
  ∀ x, e.cause.freed? = some x → ∃ y f slot r f' m slot', [Event.free y f, Event.read r f'].Sublist tr ∧
    Expr.ident m x ∈ r.nodes ∧ m.pos = e.pos ∧ f.Orderly args ∧ f'.Orderly args ∧ f.named <+: f'.named ∧
    f.get? y = some slot ∧ f'.get? x = some slot' ∧ slot'.offset = slot.offset

/-- A part of a check with the given events: what is freed afterwards, and what has been reported, goes back
to events. -/
structure Told (args : List (String × Slot)) (tr : List Event) (s s' : Scope) : Prop where
  runs : s.Runs s'
  freed : ∀ past, s.frame.Orderly args → s.Backed args past → s'.Backed args (past ++ tr)
  errors : ∀ past, s.frame.Orderly args → s.Backed args past →
    ∀ e ∈ s'.errors, e ∈ s.errors ∨ Justified args (past ++ tr) e

variable {args : List (String × Slot)} {past past' tr tr' : List Event} {s s' s'' : Scope}

theorem Scope.Backed.mono (h : s.Backed args past) (hsub : past ⊆ past') : s.Backed args past' := by
  intro o ho
  obtain ⟨y, f, slot, hfree, hf⟩ := h o ho
  exact ⟨y, f, slot, hsub hfree, hf⟩

/-- Later, with nothing freed in between. -/
theorem Scope.Backed.later (h : s.Backed args past) (hnamed : s.frame.named <+: s'.frame.named)
    (hfreed : s'.freed ⊆ s.freed) : s'.Backed args past := by
  intro o ho
  obtain ⟨y, f, slot, hfree, hf, hbefore, hslot⟩ := h o (hfreed ho)
  exact ⟨y, f, slot, hfree, hf, hbefore.trans hnamed, hslot⟩

theorem Justified.mono (h : Justified args tr e) (hsub : tr.Sublist tr') :
    Justified args tr' e := by
  intro x hx
  obtain ⟨y, f, slot, r, f', m, slot', horder, hrest⟩ := h x hx
  exact ⟨y, f, slot, r, f', m, slot', horder.trans hsub, hrest⟩

namespace Told

theorem refl (s : Scope) : Told args [] s s := by
  refine ⟨.quiet (.refl s), fun past _ h => ?_, fun past _ _ e he => Or.inl he⟩
  rwa [append_nil]

theorem trans (h : Told args tr s s') (h' : Told args tr' s' s'') : Told args (tr ++ tr') s s'' := by
  refine ⟨h.runs.trans h'.runs, fun past hs hb => ?_, fun past hs hb e he => ?_⟩
  · rw [← append_assoc]
    exact h'.freed _ (h.runs.orderly hs) (h.freed past hs hb)
  · rw [← append_assoc]
    rcases h'.errors _ (h.runs.orderly hs) (h.freed past hs hb) e he with he | he
    · exact (h.errors past hs hb e he).imp id fun hj => hj.mono (sublist_append_left _ _)
    · exact Or.inr he

/-- What is checked first may come second in the text if it frees nothing for certain. -/
theorem swap (h : Told args tr s s') (hfreed : s'.freed ⊆ s.freed) (h' : Told args tr' s' s'') :
    Told args (tr' ++ tr) s s'' := by
  have hbacked : ∀ past, s.Backed args past → s'.Backed args past :=
    fun past hb => hb.later h.runs.extends.named hfreed
  refine ⟨h.runs.trans h'.runs, fun past hs hb => ?_, fun past hs hb e he => ?_⟩
  · refine (h'.freed past (h.runs.orderly hs) (hbacked past hb)).mono ?_
    rw [← append_assoc]
    exact subset_append_left _ _
  · rcases h'.errors past (h.runs.orderly hs) (hbacked past hb) e he with he | he
    · refine (h.errors past hs hb e he).imp id fun hj => hj.mono ?_
      exact (List.Sublist.refl past).append (sublist_append_right _ _)
    · refine Or.inr (he.mono ?_)
      exact (List.Sublist.refl past).append (sublist_append_left _ _)

theorem enclosed (h : Told args tr s.enter s') : Told args tr s s'.leave :=
  ⟨.scope h.runs, fun past hs hb => h.freed past hs.enter hb,
    fun past hs hb => h.errors past hs.enter hb⟩

theorem branch (h : Told args tr s s') : Told args tr s (s.rejoin s') := by
  refine ⟨.branch h.runs, fun past hs hb => ?_, h.errors⟩
  have hfreed : (s.rejoin s').freed ⊆ s.freed := fun o ho => (mem_filter.1 ho).1
  exact (hb.later h.runs.branch.extends.named hfreed).mono (subset_append_left _ _)

theorem inLoop (h : Told args tr { s with loops := s.loops + 1 } s') :
    Told args tr s { s' with loops := s'.loops - 1 } :=
  ⟨.loop h.runs, h.freed, h.errors⟩

end Told

section

variable {τ α : Type} {x : Checker τ α} {es : List Expr} {xs : List String}

theorem Scope.Backed.frees (hb : s.Backed args past) (hs : s.frame.Orderly args) (h : s.Frees xs s')
    (hnamed : s.frame.named <+: s'.frame.named) : s'.Backed args (past ++ s.happens es xs) := by
  intro o ho
  rcases h.freed o ho with ho | ⟨y, hy, slot, hslot, rfl⟩
  · obtain ⟨y, f, slot, hfree, hf, hbefore, hslot⟩ := hb o ho
    exact ⟨y, f, slot, mem_append_left _ hfree, hf, hbefore.trans hnamed, hslot⟩
  · refine ⟨y, s.frame, slot, mem_append_right _ ?_, hs, hnamed, hslot, rfl⟩
    exact mem_append_right _ (mem_map.2 ⟨y, hy, rfl⟩)

/-- A freed pointer that is read has been freed before. -/
theorem Scope.Backed.justified (hb : s.Backed args past) (hs : s.frame.Orderly args)
    (he : s.Explains es e) : Justified args (past ++ s.happens es xs) e := by
  intro x hx
  obtain ⟨r, hr, m, slot', hnode, hpos, hslot', hfreed⟩ := he x hx
  obtain ⟨y, f, slot, hfree, hf, hbefore, hslot, hoffset⟩ := hb _ hfreed
  refine ⟨y, f, slot, r, s.frame, m, slot', ?_, hnode, hpos, hf, hs, hbefore, hslot, hslot', hoffset.symm⟩
  have hread : Event.read r s.frame ∈ s.happens es xs :=
    mem_append_left _ (mem_map.2 ⟨r, hr, rfl⟩)
  exact (singleton_sublist.2 hfree).append (singleton_sublist.2 hread)

theorem Scope.Frees.told (h : s.Frees xs s') (hruns : s.Runs s') : Told args (s.happens es xs) s s' := by
  refine ⟨hruns, fun past hs hb => hb.frees hs h hruns.extends.named, fun past hs hb e he => ?_⟩
  exact Or.inl (h.errors ▸ he)

theorem Told.report (h : Told args (s.happens es xs) s s') (he : s.Explains es e) :
    Told args (s.happens es xs) s (s'.report e) := by
  refine ⟨h.runs.trans (.report s' e), h.freed, fun past hs hb e' he' => ?_⟩
  rcases mem_append.1 he' with he' | he'
  · exact h.errors past hs hb e' he'
  · obtain rfl := mem_singleton.1 he'
    exact Or.inr (hb.justified hs he)

theorem Performs.told_of_ok (h : Performs es xs x) {a : α} (hx : x s = (.ok a, s')) (hruns : s.Runs s') :
    Told args (s.happens es xs) s s' := by
  have hends := h s
  unfold Attempt.Ends at hends
  rw [hx] at hends
  exact hends.told hruns

theorem Performs.told_of_error (h : Performs es xs x) {e : Spoiled τ} (hx : x s = (.error e, s'))
    (hruns : s.Runs s') : Told args (s.happens es xs) s (s'.report e.error) := by
  have hends := h s
  unfold Attempt.Ends at hends
  rw [hx] at hends
  exact (hends.1.told hruns).report hends.2

theorem Performs.told {x : Checker τ τ} (h : Performs es xs x) (hruns : s.Runs (x s).2) :
    Told args (s.happens es xs) s (settle x s).2 := by
  unfold settle
  rcases hr : x s with ⟨r, s'⟩
  rw [hr] at hruns
  cases r with
  | ok a => exact h.told_of_ok hr hruns
  | error e => exact h.told_of_error hr hruns

end

variable {c : Context}

/-- What depends on a condition frees nothing for certain. -/
theorem freed_nest_subset (st : Stmt) (check : Checker Stmt Stmt) (s : Scope) :
    (nest st check s).2.freed ⊆ s.freed := by
  intro o ho
  unfold nest at ho
  split at ho
  · exact (mem_filter.1 ho).1
  · exact (mem_filter.1 ho).1

theorem told_nest (st : Stmt) (h : ∀ s, Told args (events c st s) s (settle (stmt c st) s).2) (s : Scope) :
    Told args (events c st (s.nested st)) s (nest st (stmt c st) s).2 := by
  cases st with
  | block pos body => exact (h s).branch
  | _ => exact (h s.enter).enclosed.branch

/-- A single statement. -/
theorem told_of_performs (st : Stmt) (h : Performs (reads st) (frees st) (stmt c st)) (s : Scope) :
    Told args (s.happens (reads st) (frees st)) s (settle (stmt c st) s).2 :=
  h.told (runs_stmt c st s)

mutual

/-- By recursion on the statement: what is reported is justified by what has happened. -/
theorem told_stmt (c : Context) (st : Stmt) (s : Scope) :
    Told args (events c st s) s (settle (stmt c st) s).2 := by
  match st with
  | .block pos body =>
    rw [stmt, events]
    exact (told_stmts c body s.enter).enclosed
  | .expr pos e => exact told_of_performs (.expr pos e) (performs_exprStmt pos e) s
  | .assign pos l r => exact told_of_performs (.assign pos l r) (performs_assignStmt pos l r) s
  | .var pos d =>
    exact told_of_performs (.var pos d) (performs_within (performs_map (performs_varDecl pos d))) s
  | .cond pos test yes no =>
    rw [events]
    have hruns := runs_condition c test s
    rcases hr : condition c test s with ⟨r, t⟩
    rw [hr] at hruns
    cases r with
    | error e =>
      rw [settle_cond_of_error hr]
      exact (performs_condition test).told_of_error hr hruns
    | ok test' =>
      rw [settle_cond_of_ok hr]
      refine ((performs_condition test).told_of_ok hr hruns).trans ?_
      exact (told_nest yes (told_stmt c yes) t).trans (told_optional c no _)
  | .loop pos init test post body =>
    rw [events]
    have hruns := (stmtLaws_runs c).counter pos init s.enter
    rcases hinit : counter c pos init s.enter with ⟨r, t⟩
    rw [hinit] at hruns
    cases r with
    | error e =>
      rw [settle_loop_of_counter hinit, append_nil]
      exact ((performs_counter pos init).told_of_error hinit hruns).enclosed
    | ok init' =>
      have hcounter : Told args (s.enter.happens (init.toList.map (·.2)) []) s.enter t :=
        (performs_counter pos init).told_of_ok hinit hruns
      have hruns' := runs_condition c test t
      dsimp only
      rcases hr : condition c test t with ⟨r, u⟩
      rw [hr] at hruns'
      cases r with
      | error e =>
        rw [settle_loop_of_test hinit hr]
        exact (hcounter.trans ((performs_condition test).told_of_error hr hruns')).enclosed
      | ok test' =>
        rw [settle_loop_of_ok hinit hr]
        have htest : Told args (t.happens [test] []) t u :=
          (performs_condition test).told_of_ok hr hruns'
        refine (hcounter.trans (htest.trans (Told.inLoop ?_))).enclosed
        -- the step of the loop is checked after the body, and stands before it
        exact (told_nest body (told_stmt c body) _).swap (freed_nest_subset body _ _)
          (told_optional c post _)
  | .ret pos e => exact told_of_performs (.ret pos e) (performs_retStmt pos e) s
  | .brk pos => exact told_of_performs (.brk pos) (performs_jumpStmt _ _) s
  | .cont pos => exact told_of_performs (.cont pos) (performs_jumpStmt _ _) s

theorem told_optional (c : Context) (st : Option Stmt) (s : Scope) :
    Told args (eventsOfOption c st s) s (optional c st s).2 := by
  match st with
  | none => exact .refl s
  | some st => exact told_nest st (told_stmt c st) s

theorem told_stmts (c : Context) (sts : List Stmt) (s : Scope) :
    Told args (eventsOfAll c sts s) s (stmts c sts s).2 := by
  match sts with
  | [] => exact .refl s
  | st :: rest => exact (told_stmt c st s).trans (told_stmts c rest _)

end

/-! ## Reports and declarations -/

/-- In the events, the declaration `k'` is freed, and afterwards a name is read at the given place, which
means the declaration `k` of the frame there. -/
def ReadAfterFree (tr : List Event) (pos : Position) (x : String) (f : Frame) (k k' : Nat) : Prop :=
  ∃ y f' r m, [Event.free y f', Event.read r f].Sublist tr ∧ Expr.ident m x ∈ r.nodes ∧ m.pos = pos ∧
    f.Binds x k ∧ f'.Binds y k' ∧ f'.named <+: f.named

/-- A report that is borne out by the events is about a declaration that has been freed, or about one that
has the same place. -/
theorem Justified.readAfterFree (hdistinct : (sig.params.map (·.1)).Nodup)
    {pos : Position} {x : String}
    (h : Justified (start t sig).frame.named tr ⟨pos, .useAfterFree x⟩) :
    ∃ f k k', ReadAfterFree tr pos x f k k' ∧ (k = k' ∨ Shared t sig f k k') := by
  obtain ⟨y, f', slot', r, f, m, slot, horder, hnode, hpos, hf', hf, hnamed, hy, hx, hoffset⟩ := h x rfl
  obtain ⟨k, hk, hbinds⟩ := hf.binds hx
  obtain ⟨k', hk', hbinds'⟩ := hf'.binds hy
  refine ⟨f, k, k', ⟨y, f', r, m, horder, hnode, hpos, hbinds, hbinds', hnamed⟩, ?_⟩
  -- the declaration that was freed has kept its number
  obtain ⟨rest, hrest⟩ := hnamed
  have hlt := (List.getElem?_eq_some_iff.1 hk').1
  have hkept : f.named[k']? = some (y, slot'.blank) := by
    rw [← hrest, getElem?_append_left hlt]
    exact hk'
  exact eq_or_shared hdistinct hf hk hkept hoffset

/-- The events of a function in a pass with the given declarations taken as signed. -/
def eventsOfBody (t : Symbols) (sig : Signature) (signed : List Position) (body : List Stmt) : List Event :=
  eventsOfAll ⟨t, sig.ret, signed⟩ body (Scope.start t sig).enter

/-- Every error of a pass is justified by the events of the body. -/
theorem justified_of_pass {signed : List Position} {body : List Stmt}
    (h : e ∈ (pass t sig signed body).2.errors) :
    Justified (start t sig).frame.named (eventsOfBody t sig signed body) e := by
  have htold : Told (start t sig).frame.named (eventsOfBody t sig signed body)
      (start t sig).enter (stmts ⟨t, sig.ret, signed⟩ body (start t sig).enter).2 :=
    told_stmts ⟨t, sig.ret, signed⟩ body (start t sig).enter
  have hs := (orderly_start t sig).enter
  have hbacked : (start t sig).enter.Backed (start t sig).frame.named [] :=
    forall_mem_nil _
  rcases htold.errors [] hs hbacked e h with hold | hnew
  · cases hold
  · exact hnew

/-- What is reported of the definitions is reported of one of them. -/
theorem exists_of_definitions {p p' : Program}
    (h : definitions t p = some (p', es)) (he : e ∈ es) :
    ∃ d ∈ p, ∃ d' es', definition t d = some (d', es') ∧ e ∈ es' := by
  induction p generalizing p' es with
  | nil =>
    cases h
    cases he
  | cons d ds ih =>
    simp only [definitions, Option.bind_eq_bind, Option.bind_eq_some_iff, Option.pure_def,
      Option.some.injEq, Prod.mk.injEq, Prod.exists] at h
    obtain ⟨d', es', hd, ds', es'', hds, -, rfl⟩ := h
    rcases mem_append.1 he with he | he
    · exact ⟨d, mem_cons_self, d', es', hd, he⟩
    · obtain ⟨d1, hd1, hrest⟩ := ih hds he
      exact ⟨d1, mem_cons_of_mem _ hd1, hrest⟩

/-- What is reported of a definition is reported of a function. -/
theorem exists_pass_of_definition {d d' : Def}
    (h : definition t d = some (d', es)) (he : e ∈ es) :
    ∃ func sig signed, d.body = .func func ∧ t.funcs.get? d.name = some sig ∧
      e ∈ (pass t sig signed func.body).2.errors := by
  cases hbody : d.body with
  | func func =>
    cases hsig : t.funcs.get? d.name with
    | some sig =>
      obtain ⟨signed, -, rfl⟩ := definition_func hbody hsig h
      exact ⟨func, sig, signed, rfl, rfl, he⟩
    | none =>
      simp only [definition, hbody, hsig] at h
      cases h
      cases he
  | _ =>
    simp only [definition, hbody] at h
    cases h
    cases he

/-- Whenever the use of a freed pointer is reported, the name is read at that place in a function, and means
a declaration of the function. Before that in the text a statement gives a name to `@free` that means the same
declaration, or else one that has got the same place in the frame, for want of room. -/
theorem readAfterFree_of_typed {p : Program} {c : Checked} {es : List (Located TypeError)}
    (h : p.typed = some (c, es)) {pos : Position} {x : String} (hx : ⟨pos, .useAfterFree x⟩ ∈ es) :
    ∃ d ∈ p, ∃ func sig signed, d.body = .func func ∧ c.symbols.funcs.get? d.name = some sig ∧
      ⟨pos, .useAfterFree x⟩ ∈ (pass c.symbols sig signed func.body).2.errors ∧
      ∃ f k k', ReadAfterFree (eventsOfBody c.symbols sig signed func.body) pos x f k k' ∧
        (k = k' ∨ Shared c.symbols sig f k k') := by
  simp only [Program.typed, Option.bind_eq_bind, Option.bind_eq_some_iff, Option.pure_def,
    Option.some.injEq, Prod.mk.injEq, Prod.exists] at h
  obtain ⟨t, es1, htable, p', es2, hdefs, rfl, rfl⟩ := h
  rcases mem_append.1 hx with hx | hx
  · -- the symbol table knows nothing of freed pointers
    cases Symbols.freed?_of_ofProgram htable _ hx
  · obtain ⟨d, hd, d', es', hdef, he⟩ := exists_of_definitions hdefs hx
    obtain ⟨func, sig, signed, hbody, hsig, herror⟩ := exists_pass_of_definition hdef he
    obtain ⟨_, _, _, _, _, hof⟩ := Symbols.defines_ofProgram htable _ sig hsig
    exact ⟨d, hd, func, sig, signed, hbody, hsig, herror,
      (justified_of_pass herror).readAfterFree hof.distinct⟩

/-- A test of what is reported of a source text. -/
def testReport (code : String) (test : Program → List (Located TypeError) → Bool) : Bool :=
  match Compile.parse code with
  | .ok p =>
    match p.typed with
    | some (_, es) => test p es
    | none => false
  | .error _ => false

theorem exists_of_testReport (code : String) (test : Program → List (Located TypeError) → Bool)
    (h : testReport code test = true) :
    ∃ p c es, Compile.parse code = .ok p ∧ p.typed = some (c, es) ∧ test p es = true := by
  unfold testReport at h
  split at h
  · next p hp =>
    split at h
    · next c es hc => exact ⟨p, c, es, hp, hc, h⟩
    · cases h
  · cases h

/-- A pointer is freed, and before it another one of its name in an inner scope. -/
def freedTwice : String :=
  "const main := fn () int! \x7b have p: *int! = @alloc(8); if (true) \x7b have p: *int! = @alloc(8); " ++
    "@free(p, 8); \x7d @free(p, 8); p& = 1; return 0; \x7d;"

theorem readAfterFree_of_typed_shadowed :
    ∃ p c, Compile.parse freedTwice = .ok p ∧ p.typed = some (c, [⟨⟨0, 121⟩, .useAfterFree "p"⟩]) ∧
      ∃ d ∈ p, ∃ func sig signed, d.body = .func func ∧ c.symbols.funcs.get? d.name = some sig ∧
        ⟨⟨0, 121⟩, .useAfterFree "p"⟩ ∈ (pass c.symbols sig signed func.body).2.errors ∧
        ∃ f k k', ReadAfterFree (eventsOfBody c.symbols sig signed func.body) ⟨0, 121⟩ "p" f k k' ∧
          (k = k' ∨ Shared c.symbols sig f k k') := by
  obtain ⟨p, c, es, hp, hc, htest⟩ := exists_of_testReport freedTwice
    (fun _ es => es = [⟨⟨0, 121⟩, .useAfterFree "p"⟩]) (by decide +kernel)
  obtain rfl := of_decide_eq_true htest
  exact ⟨p, c, hp, hc, readAfterFree_of_typed hc mem_cons_self⟩

/-- A function with a parameter that takes up no room, and another one behind it, which it frees. -/
def emptyParam : String :=
  "const f := fn (e: [0]int!, p: *int!) void \x7b @free(p, 8); have g: [0]int! = e; return; \x7d; " ++
    "const main := fn () int! \x7b return 0; \x7d;"

/-- Whether no function gives the name to `@free`. -/
def neverFrees (x : String) (p : Program) : Bool :=
  p.all fun d =>
    match d.body with
    | .func f => (Stmt.nodesOfAll f.body).all fun e => e.freed? != some x
    | _ => true

/-- The use of a freed pointer may be reported of a name that is never given to `@free`. -/
theorem exists_useAfterFree_not_freed :
    ∃ p c es pos, Compile.parse emptyParam = .ok p ∧ p.typed = some (c, es) ∧
      ⟨pos, .useAfterFree "e"⟩ ∈ es ∧
      ∀ d ∈ p, ∀ f, d.body = .func f → ∀ e ∈ Stmt.nodesOfAll f.body, e.freed? ≠ some "e" := by
  obtain ⟨p, c, es, hp, hc, htest⟩ := exists_of_testReport emptyParam
    (fun p es => es = [⟨⟨0, 75⟩, .useAfterFree "e"⟩] && neverFrees "e" p) (by decide +kernel)
  rw [Bool.and_eq_true] at htest
  obtain rfl := of_decide_eq_true htest.1
  refine ⟨p, c, _, ⟨0, 75⟩, hp, hc, mem_cons_self, fun d hd f hf e he => ?_⟩
  have hnever := all_eq_true.1 htest.2 d hd
  rw [hf] at hnever
  exact bne_iff_ne.1 (all_eq_true.1 hnever e he)

end Sigil.Check
