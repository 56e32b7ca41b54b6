import Sigil.Proofs.Frees.Statements

/-!
# Signs from usage

A declaration without a sign is unsigned by default, and a pass over a function notes which declarations it has
taken so. Where one of them meets a signed operand, the pass learns that it should have been signed. If there
are errors, another pass is made in which all that has been learned so far is taken as signed (`Check.Retry`).

A pass adds little to what it notes (`Check.Scope.Defaults`): only declarations without a sign are noted, none
of them is one that is taken as signed, and only what has been noted is learned. So every further pass takes
at least one more declaration as signed, and there are at most as many further passes as there are
declarations without a sign (`Check.passes_settle`).
-/

namespace Sigil.Check

open List

/-! ## What a pass notes and learns -/

/-- From one state of a pass to a later one: the declarations noted since then are among the given ones and are
not taken as signed, and what has been learned since then is about declarations that are noted. -/
structure Scope.Defaults (signed decls : List Position) (s s' : Scope) : Prop where
  pending : ∃ noted, s'.pending = noted ++ s.pending ∧ ∀ q ∈ noted, q.2 ∈ decls ∧ q.2 ∉ signed
  learned : ∀ p ∈ s'.learned, p ∈ s.learned ∨ p ∈ s'.pending.map (·.2)

namespace Scope

variable {signed decls : List Position} {s s' s'' : Scope}

theorem Defaults.of_eq (hpending : s'.pending = s.pending) (hlearned : s'.learned = s.learned) :
    s.Defaults signed decls s' :=
  ⟨⟨[], hpending, fun _ hq => absurd hq not_mem_nil⟩, fun _ hp => Or.inl (hlearned ▸ hp)⟩

theorem Defaults.refl (s : Scope) : s.Defaults signed decls s :=
  .of_eq rfl rfl

theorem Defaults.trans (h : s.Defaults signed decls s') (h' : s'.Defaults signed decls s'') :
    s.Defaults signed decls s'' := by
  obtain ⟨noted, hnoted, hall⟩ := h.pending
  obtain ⟨noted', hnoted', hall'⟩ := h'.pending
  refine ⟨⟨noted' ++ noted, ?_, ?_⟩, fun p hp => ?_⟩
  · rw [hnoted', hnoted, append_assoc]
  · exact forall_mem_append.2 ⟨hall', hall⟩
  · rcases h'.learned p hp with hbefore | hnow
    · refine (h.learned p hbefore).imp_right fun hmem => ?_
      rw [hnoted', map_append]
      exact mem_append_right _ hmem
    · exact Or.inr hnow

theorem Learns.defaults (h : s.Learns s') : s.Defaults signed decls s' := by
  refine ⟨⟨[], h.pending, fun _ hq => absurd hq not_mem_nil⟩, fun p hp => ?_⟩
  rw [h.pending]
  exact h.learned p hp

/-- A declaration is noted if it has its sign by default. -/
theorem defaults_declared (x : String) (t : Ty) (size : Nat) (mutable byDefault : Bool) {pos : Position}
    (h : byDefault = true → pos ∈ decls ∧ pos ∉ signed) (s : Scope) :
    s.Defaults signed decls (s.declared x t size mutable byDefault pos) := by
  cases byDefault with
  | false => exact .of_eq rfl rfl
  | true =>
    refine ⟨⟨[((s.frame.push x t size mutable).1, pos)], rfl, ?_⟩, fun _ => Or.inl⟩
    exact forall_mem_singleton.2 (h rfl)

end Scope

/-! ## Checks -/

section

variable {τ α : Type} {signed decls : List Position}

theorem defaults_ask (c : Context) (question : Names → Eval α) (s : Scope) :
    s.Defaults signed decls ((c.ask question : Checker τ (Except TypeError α)) s).2 := by
  unfold Context.ask
  split
  · exact .refl s
  · exact .refl s
  · exact .of_eq rfl rfl

theorem defaults_value? (c : Context) (e : Expr) :
    ∀ s : Scope, s.Defaults signed decls ((c.value? e : Checker τ (Option Constant)) s).2 := by
  refine leads_bind .trans (defaults_ask c _) (returns_any _) fun r _ s => ?_
  cases r <;> exact .refl s

/-- Checking an expression declares nothing. -/
theorem exprLaws_defaults (c : Context) (decls : List Position) :
    ExprLaws c (fun _ => True) fun _ _ x => ∀ s : Scope, s.Defaults c.signed decls (x s).2 where
  pure _ s := .refl s
  reject _ _ _ _ _ s := .refl s
  bind := leads_bind .trans
  within := leads_within
  look _ hk s := hk s s
  demand tree _ _ _ _ := by
    refine leads_bind .trans (defaults_ask c _) (returns_any _) fun r _ s => ?_
    cases r <;> exact .refl s
  value? := defaults_value? c
  note hg s := (hg s).defaults
  pass hx hg := leads_pass .trans hx fun e s => (hg e s).defaults

theorem defaults_identRule (c : Context) (decls : List Position) (m : Mark) (x : String)
    (hint : Option Ty) (s : Scope) : s.Defaults c.signed decls (identRule c m x hint s).2 := by
  cases hslot : s.frame.get? x with
  | some slot =>
    rw [identRule_of_local hslot]
    split <;> exact .refl s
  | none =>
    rw [identRule_of_global hslot]
    exact ((exprLaws_defaults c decls).globalRule (m := m) trivial x hint).holds s

/-- Apart from declarations, statements note nothing. -/
theorem stepLaws_defaults (c : Context) (decls : List Position) :
    StepLaws c (fun _ => True) (fun _ _ x => ∀ s : Scope, s.Defaults c.signed decls (x s).2)
      (fun _ x => ∀ s : Scope, s.Defaults c.signed decls (x s).2) where
  toExprLaws := exprLaws_defaults c decls
  ident m x hint _ := defaults_identRule c decls m x hint
  free p s := by
    change s.Defaults _ _ (s.free p)
    unfold Scope.free
    split <;> exact .of_eq rfl rfl
  regain l s := by
    change s.Defaults _ _ (s.regain l)
    unfold Scope.regain
    split <;> exact .of_eq rfl rfl
  jump st what _ s := by
    unfold jumpStmt
    rw [Attempt.bind_of_ok (Attempt.get_apply s)]
    split <;> exact .refl s
  surveyed hx := hx
  inScope hx s := ⟨(hx s.enter).pending, (hx s.enter).learned⟩
  surveyPure _ s := .refl s
  surveyBind hx hk s := (hx s).trans (hk _ _)
  settle hx := leads_settle .trans hx fun _ _ => .of_eq rfl rfl
  enclosed hx s := ⟨(hx s.enter).pending, (hx s.enter).learned⟩
  branch hx s := ⟨(hx s).pending, (hx s).learned⟩
  inLoop hx s := ⟨(hx { s with loops := s.loops + 1 }).pending, (hx { s with loops := s.loops + 1 }).learned⟩

/-- A declaration that is kept is noted only if it may be. -/
theorem keeps_defaults (c : Context) (decls : List Position) :
    StepLaws.Keeps c (fun _ _ x => ∀ s : Scope, s.Defaults c.signed decls (x s).2)
      fun pos => pos ∈ decls ∧ pos ∉ c.signed := by
  intro τ x t size mutable byDefault pos init hpos
  unfold keep
  refine leads_bind .trans (fun s => s.defaults_declared x t size mutable byDefault hpos) (returns_any _)
    fun _ _ => ?_
  have hknown : ∀ s : Scope, s.Defaults c.signed decls ((known c mutable init : Checker τ _) s).2 := by
    unfold known
    split
    · exact defaults_value? c _
    · exact fun s => .refl s
  refine leads_bind .trans hknown (returns_any _) fun v _ s => ?_
  change s.Defaults _ _ (s.valued x v)
  unfold Scope.valued
  split <;> exact .of_eq rfl rfl

end

/-! ## Passes -/

section

variable (t : Symbols) (sig : Signature) (body : List Stmt)

/-- A pass is followed by another one: it has found errors, and it has learned about declarations that were not
taken as signed. The next pass takes them so as well. -/
structure Retry (signed signed' : List Position) : Prop where
  untrapped : (pass t sig signed body).2.trapped = false
  errors : (pass t sig signed body).2.errors ≠ []
  news : (pass t sig signed body).2.news signed ≠ []
  next : signed' = signed ++ (pass t sig signed body).2.news signed

/-- After so many further passes, the given declarations are taken as signed. -/
inductive Retried : Nat → List Position → Prop where
  | start : Retried 0 []
  | again {n : Nat} {signed signed' : List Position} (h : Retried n signed)
    (hr : Retry t sig body signed signed') : Retried (n + 1) signed'

/-- The declarations without a sign that are not taken as signed. -/
def unsettled (signed : List Position) : List Position :=
  (unsigiledAll body).filter fun p => !signed.contains p

end

section

variable {t : Symbols} {sig : Signature} {body : List Stmt} {signed signed' : List Position} {n : Nat}

theorem defaults_pass_start (t : Symbols) (sig : Signature) (signed : List Position) (body : List Stmt) :
    (Scope.start t sig).Defaults signed (unsigiledAll body) (pass t sig signed body).2 := by
  have hlaws := stepLaws_defaults ⟨t, sig.ret, signed⟩ (unsigiledAll body)
  have hbody := hlaws.stmts (keeps_defaults _ _) body ⟨fun _ _ => trivial, fun _ _ _ _ => trivial⟩
    fun p hp hsigned => ⟨hp, hsigned⟩
  exact hlaws.enclosed hbody (Scope.start t sig)

/-- A pass notes declarations without a sign, and none that it takes as signed. -/
theorem pending_of_pass (t : Symbols) (sig : Signature) (signed : List Position) (body : List Stmt) :
    ∀ q ∈ (pass t sig signed body).2.pending, q.2 ∈ unsigiledAll body ∧ q.2 ∉ signed := by
  obtain ⟨noted, hnoted, hall⟩ := (defaults_pass_start t sig signed body).pending
  rw [hnoted]
  exact forall_mem_append.2 ⟨hall, fun _ hq => absurd hq not_mem_nil⟩

/-- Whatever a pass learns is about a declaration without a sign that it has not taken as signed. -/
theorem learned_of_pass (t : Symbols) (sig : Signature) (signed : List Position) (body : List Stmt) :
    ∀ p ∈ (pass t sig signed body).2.learned, p ∈ unsigiledAll body ∧ p ∉ signed := by
  intro p hp
  rcases (defaults_pass_start t sig signed body).learned p hp with hstart | hnoted
  · exact absurd hstart not_mem_nil
  · obtain ⟨q, hq, rfl⟩ := mem_map.1 hnoted
    exact pending_of_pass t sig signed body q hq

/-- A further pass takes a declaration as signed that was not taken so before. -/
theorem Retry.exists_new (h : Retry t sig body signed signed') :
    ∃ p ∈ signed', p ∈ unsigiledAll body ∧ p ∉ signed := by
  obtain ⟨p, hp⟩ := exists_mem_of_ne_nil _ h.news
  refine ⟨p, ?_, learned_of_pass t sig signed body p (mem_filter.1 hp).1⟩
  rw [h.next]
  exact mem_append_right _ hp

/-- Every further pass settles one declaration at least. -/
theorem Retry.length_unsettled_lt (h : Retry t sig body signed signed') :
    (unsettled body signed').length < (unsettled body signed).length := by
  have hfewer : unsettled body signed' = (unsettled body signed).filter fun p => !signed'.contains p := by
    unfold unsettled
    rw [filter_filter]
    refine filter_congr fun p _ => ?_
    have hgrow : signed.contains p = true → signed'.contains p = true := by
      simp only [contains_iff_mem, h.next]
      exact mem_append_left _
    cases hp : signed.contains p with
    | false => simp
    | true => simp [contains_iff_mem.1 (hgrow hp)]
  obtain ⟨p, hp, hmem, hnew⟩ := h.exists_new
  rw [hfewer, length_filter_lt_length_iff_exists]
  exact ⟨p, mem_filter.2 ⟨hmem, by simpa using hnew⟩, by simpa using hp⟩

/-- Whatever is taken as signed has been declared without a sign. -/
theorem Retried.mem_unsigiledAll (h : Retried t sig body n signed) :
    ∀ p ∈ signed, p ∈ unsigiledAll body := by
  induction h with
  | start => exact fun _ hp => absurd hp not_mem_nil
  | again _ hr ih =>
    rw [hr.next]
    refine forall_mem_append.2 ⟨ih, fun p hp => ?_⟩
    exact (learned_of_pass _ _ _ _ p (mem_filter.1 hp).1).1

theorem Retried.length_le (h : Retried t sig body n signed) :
    n + (unsettled body signed).length ≤ (unsigiledAll body).length := by
  induction h with
  | start =>
    rw [Nat.zero_add]
    exact length_filter_le _ _
  | again _ hr ih =>
    have hless := hr.length_unsettled_lt
    omega

/-- As long as there are passes left for the declarations that are not settled, they end of themselves. -/
theorem exists_settled (n : Nat) {m : Nat} (h : Retried t sig body m signed)
    (hn : (unsettled body signed).length ≤ n) :
    ∃ k final, Retried t sig body k final ∧ (∀ signed', ¬Retry t sig body final signed') ∧
      passes t sig body n signed = ((pass t sig final body).1, (pass t sig final body).2.errors,
        (pass t sig final body).2.trapped) := by
  induction n generalizing signed m with
  | zero =>
    refine ⟨m, signed, h, fun signed' hr => ?_, ?_⟩
    · -- A retry would leave fewer positions unsettled, and there are none.
      have hless := hr.length_unsettled_lt
      omega
    · unfold passes
      dsimp only
      split <;> rfl
  | succ n ih =>
    unfold passes
    dsimp only
    split
    · next hstop =>
      refine ⟨m, signed, h, fun signed' hr => ?_, rfl⟩
      simp only [Bool.or_eq_true, List.isEmpty_iff] at hstop
      rcases hstop with (htrap | herrors) | hnews
      · rw [hr.untrapped] at htrap
        cases htrap
      · exact hr.errors herrors
      · exact hr.news hnews
    · next hgo =>
      simp only [Bool.or_eq_true, List.isEmpty_iff, not_or, Bool.not_eq_true] at hgo
      -- Another round, with fewer positions unsettled.
      have hr : Retry t sig body signed (signed ++ (pass t sig signed body).2.news signed) :=
        ⟨hgo.1.1, hgo.1.2, hgo.2, rfl⟩
      have hless := hr.length_unsettled_lt
      exact ih (h.again hr) (by omega)

end

/-- The passes over a function come to an end of themselves. Whatever is taken as signed in any of them has
been declared without a sign, and is not noted as unsigned by default again. Each further pass takes a
declaration as signed that was not taken so before. So there is at most one pass more than there are
declarations without a sign, and the bound on the number of passes is never what ends them. -/
theorem passes_settle (t : Symbols) (sig : Signature) (body : List Stmt) :
    (∀ n signed, Retried t sig body n signed →
      (∀ p ∈ signed, p ∈ unsigiledAll body) ∧
      (∀ q ∈ (pass t sig signed body).2.pending, q.2 ∉ signed) ∧
      (∀ signed', Retry t sig body signed signed' → ∃ p ∈ signed', p ∈ unsigiledAll body ∧ p ∉ signed) ∧
      n + 1 ≤ (unsigiledAll body).length + 1) ∧
    ∃ n signed, Retried t sig body n signed ∧ (∀ signed', ¬Retry t sig body signed signed') ∧
      passes t sig body (unsigiledAll body).length [] =
        ((pass t sig signed body).1, (pass t sig signed body).2.errors,
          (pass t sig signed body).2.trapped) := by
  constructor
  · intro n signed h
    have hlength := h.length_le
    refine ⟨h.mem_unsigiledAll, ?_, fun _ hr => hr.exists_new, by omega⟩
    exact fun q hq => (pending_of_pass t sig signed body q hq).2
  · exact exists_settled _ .start (length_filter_le _ _)

/-- A function that compares a counter and adds a local, both without a sign, with a signed integer. -/
def signsFromUsage : List Stmt :=
  let mark (row col : Nat) : Mark := ⟨⟨row, col⟩, none⟩
  let minusFive : Expr := .unary (mark 0 15) .neg (.intLit (mark 0 16) 5)
  let below : Expr := .binary (mark 3 15) .lt (.ident (mark 3 13) "i") (.ident (mark 3 17) "a")
  let sum : Expr := .binary (mark 4 9) .add (.ident (mark 4 7) "a") (.ident (mark 4 11) "b")
  [.var ⟨0, 0⟩ ⟨"a", some (.int 64 (some true)), some minusFive, true, none⟩,
    .var ⟨1, 0⟩ ⟨"b", some (.int 64 none), some (.intLit (mark 1 14) 12), true, none⟩,
    .var ⟨2, 0⟩ ⟨"c", some (.int 64 none), some (.intLit (mark 2 14) 1), true, none⟩,
    .loop ⟨3, 0⟩ (some ("i", .intLit (mark 3 10) 0)) below none (.block ⟨3, 20⟩ []),
    .ret ⟨4, 0⟩ (some sum)]

theorem passes_settle_signsFromUsage :
    Retried .empty ⟨[], .uint⟩ signsFromUsage 1 [⟨3, 0⟩, ⟨1, 0⟩] ∧
    (∀ p ∈ [(⟨3, 0⟩ : Position), ⟨1, 0⟩], p ∈ unsigiledAll signsFromUsage) ∧
    1 + 1 ≤ (unsigiledAll signsFromUsage).length + 1 := by
  have h : Retried .empty ⟨[], .uint⟩ signsFromUsage 1 [⟨3, 0⟩, ⟨1, 0⟩] :=
    .again .start ⟨by decide +kernel, by decide +kernel, by decide +kernel, by decide +kernel⟩
  have hall := (passes_settle .empty ⟨[], .uint⟩ signsFromUsage).1 1 _ h
  exact ⟨h, hall.1, hall.2.2.2⟩

end Sigil.Check
