import Sigil.Proofs.Frees.Statements

/-!
# Scopes after a statement

Whether the check of a statement succeeds or fails, and however deep in the statement a fault is, it closes the
scopes that it opens and leaves the loops that it enters. All that is left of it in the scopes that were open
before is the local that it declares if it is a declaration, and of one that fails not even that
(`Check.stmt_intact`). So what is reported behind a faulty statement is not a consequence of how checking got out
of it.
-/

namespace Sigil

open Attempt

/-! ## Bindings of the innermost scope -/

theorem Assoc.put_put {β : Type} (key : String) (value value' : β) (m : Assoc β) :
    put key value' (put key value m) = put key value' m := by
  induction m with
  | nil => simp [put]
  | cons kv rest ih =>
    obtain ⟨k, v⟩ := kv
    by_cases h : k = key <;> simp [put, h, ih]

namespace Frame

theorem scopes_bind_eq (f : Frame) (x : String) (t : Ty) (offset : Int) (mutable : Bool) :
    (f.bind x t offset mutable).scopes = f.scopes.modifyHead (Assoc.put x ⟨t, mutable, offset, none⟩) := by
  cases hs : f.scopes <;> simp [bind, hs]

/-- The value of a local that has just been bound is recorded in its binding. -/
theorem scopes_setValue_bind_eq (f : Frame) (x : String) (t : Ty) (offset : Int) (mutable : Bool)
    (v : Constant) :
    ((f.bind x t offset mutable).setValue x v).scopes =
      f.scopes.modifyHead (Assoc.put x ⟨t, mutable, offset, some v⟩) := by
  cases hs : f.scopes <;> simp [bind, setValue, record, hs, Assoc.put_put]

end Frame

namespace Check

namespace Scope

/-- The open scopes are as before. -/
def Kept (s s' : Scope) : Prop :=
  s'.frame.scopes = s.frame.scopes

/-- The declaration has bound its name in the innermost scope, to the lowest slot. -/
def Binds (d : VarDecl) (s s' : Scope) : Prop :=
  ∃ t v, s'.frame.scopes = s.frame.scopes.modifyHead (Assoc.put d.name ⟨t, d.mutable, s'.frame.low, v⟩)

/-- After a statement, the scopes and the loops are as before, but for what the statement itself declares, and no
slot has become free. -/
structure Intact (st : Stmt) (s s' : Scope) : Prop where
  count : s'.frame.scopes.length = s.frame.scopes.length
  loops : s'.loops = s.loops
  outer : s'.frame.scopes.tail = s.frame.scopes.tail
  inner : s.Kept s' ∨ ∃ pos d, st = .var pos d ∧ s.Binds d s'
  /-- Offsets are 64-bit. -/
  low : Frame.minOffset ≤ s.frame.low → Frame.minOffset ≤ s'.frame.low ∧ s'.frame.low ≤ s.frame.low

variable {s s' s'' : Scope}

theorem Kept.trans (h : s.Kept s') (h' : s'.Kept s'') : s.Kept s'' :=
  Eq.trans h' h

theorem led_kept : Scope.Led Scope.Kept where
  quiet h := congrArg Frame.scopes h.frame
  trans := Kept.trans
  report _ _ := rfl
  free s p := by
    unfold Scope.free
    split <;> rfl
  regain s l := by
    unfold Scope.regain
    split <;> rfl
  scope h := congrArg List.tail h
  branch h := h
  loop h := h

end Scope

variable {c : Context} {s : Scope}

/-! ## Statements other than declarations -/

theorem kept_block (pos : Position) (body : List Stmt) (s : Scope) :
    s.Kept (stmt c (.block pos body) s).2 := by
  unfold stmt
  exact (runs_stmts c body s.enter).scopes

/-- A statement that depends on a condition has a scope of its own. -/
theorem kept_nest (st : Stmt) (s : Scope) : s.Kept (nest st (stmt c st) s).2 := by
  have hlaws := Scope.led_kept.stepLaws c
  unfold nest
  split
  · exact hlaws.branch (hlaws.settle (kept_block _ _)) s
  · refine hlaws.branch (fun s => ?_) s
    exact (runs_settle (runs_stmt c st) s.enter).scopes

theorem kept_optional (st : Option Stmt) (s : Scope) : s.Kept (optional c st s).2 := by
  cases st with
  | none => rfl
  | some st =>
    unfold optional
    exact kept_nest st s

theorem kept_loop (pos : Position) (init : Option (String × Expr)) (test : Expr) (post : Option Stmt)
    (body : Stmt) (s : Scope) : s.Kept (stmt c (.loop pos init test post body) s).2 := by
  have hlaws := stmtLaws_runs c
  unfold stmt
  refine Scope.Runs.scopes (hlaws.next (hlaws.within _ (hlaws.counter pos init)) (fun init => ?_) s.enter)
  refine hlaws.next (hlaws.within _ (runs_condition c test)) fun test => ?_
  refine hlaws.surveyed (hlaws.inLoop (hlaws.surveyBind (hlaws.nest body (hlaws.stmt body)) fun body => ?_))
  exact hlaws.surveyBind (hlaws.optional post) fun post => hlaws.surveyPure _

/-- The declaration is the one statement that changes an open scope. -/
theorem kept_stmt {st : Stmt} (hst : ∀ pos d, st ≠ .var pos d) (s : Scope) : s.Kept (stmt c st s).2 := by
  have hlaws := Scope.led_kept.stepLaws c
  have hany : ∀ e : Expr, e.At fun _ => True := fun _ _ _ => trivial
  cases st with
  | block pos body => exact kept_block pos body s
  | expr pos e =>
    unfold stmt
    exact hlaws.exprStmt (hany e) s
  | assign pos l r =>
    unfold stmt
    exact hlaws.assignStmt (hany l) (hany r) s
  | var pos d => exact absurd rfl (hst pos d)
  | cond pos test yes no =>
    unfold stmt
    refine hlaws.next (hlaws.within _ (hlaws.condition (hlaws.lawful (hany test))).holds) (fun test => ?_) s
    refine hlaws.surveyed (hlaws.surveyBind (kept_nest yes) fun yes => ?_)
    exact hlaws.surveyBind (kept_optional no) fun no => hlaws.surveyPure _
  | loop pos init test post body => exact kept_loop pos init test post body s
  | ret pos e =>
    unfold stmt
    exact hlaws.retStmt trivial (fun e _ => hany e) s
  | brk pos | cont pos =>
    unfold stmt
    exact hlaws.jump _ _ trivial s

/-! ## Declarations -/

section

variable {τ α β : Type} {k : α → Checker τ β} {R : β → Scope → Prop}

/-- A step that changes no open scope, before others. -/
theorem ends_bind_of_kept {x : Checker τ α} (hx : ∀ s : Scope, s.Kept (x s).2) (s0 : Scope)
    (hs : s0.Kept s) (hk : ∀ a s', s0.Kept s' → (k a).Ends s' R fun _ s'' => s0.Kept s'') :
    (x >>= k).Ends s R fun _ s' => s0.Kept s' := by
  have hkept := hs.trans (hx s)
  refine ends_bind ?_
  unfold Ends
  rcases hr : x s with ⟨r, s'⟩
  rw [hr] at hkept
  cases r with
  | ok a => exact hk a s' hkept
  | error e => exact hkept

end

/-- The state after a local has been kept binds it in the innermost scope. -/
theorem binds_of_keep {d : VarDecl} {s0 s s' : Scope} (hs : s0.Kept s) {t : Ty} {size : Nat} {byDefault : Bool}
    {pos : Position} (h : (s.declared d.name t size d.mutable byDefault pos).Quiet s') (v : Option Constant) :
    s0.Binds d (s'.valued d.name v) := by
  -- Declaring touches the innermost scope only, and so does keeping the value.
  obtain ⟨pending, heq⟩ := s.declared_eq d.name t size d.mutable byDefault pos
  have hframe : s'.frame = (s.frame.push d.name t size d.mutable).2 := by rw [h.frame, heq]
  refine ⟨t, v, ?_⟩
  cases v with
  | none =>
    unfold Scope.valued
    dsimp only
    rw [hframe, ← hs]
    exact Frame.scopes_bind_eq _ _ _ _ _
  | some v =>
    unfold Scope.valued
    dsimp only
    rw [hframe, ← hs]
    exact Frame.scopes_setValue_bind_eq _ _ _ _ _ _

/-- A declaration binds its name last, so that one that fails has bound nothing. -/
theorem ends_varDecl (c : Context) (pos : Position) (d : VarDecl) (s : Scope) :
    (varDecl c pos d).Ends s (fun _ s' => s.Binds d s') fun _ s' => s.Kept s' := by
  have hlaws := Scope.led_kept.stepLaws c
  have hprepare := hlaws.prepare pos trivial fun e (_ : e ∈ d.init) => hlaws.lawful fun _ _ => trivial
  rw [varDecl_eq]
  refine ends_bind_of_kept hprepare.holds s rfl fun r s1 h1 => ?_
  obtain ⟨v, s2, hkeep, hquiet⟩ :=
    keep_eq (τ := VarDecl) c d.name r.1.2.1 r.2 d.mutable r.1.2.2 pos r.1.1 s1
  unfold Ends
  rw [bind_of_ok hkeep]
  exact binds_of_keep h1 hquiet v

/-! ## All statements -/

/-- On a failure the open scopes are as before, and after a success they may have one more binding if the
statement is a declaration. -/
theorem ends_stmt (c : Context) (st : Stmt) (s : Scope) :
    (stmt c st).Ends s (fun _ s' => s.Kept s' ∨ ∃ pos d, st = .var pos d ∧ s.Binds d s')
      fun _ s' => s.Kept s' := by
  by_cases hst : ∃ pos d, st = .var pos d
  · obtain ⟨pos, d, rfl⟩ := hst
    unfold stmt
    refine ends_mapFailure (ends_map ((ends_varDecl c pos d s).mono ?_ fun _ _ h => h))
    exact fun _ s' h => Or.inr ⟨pos, d, rfl, h⟩
  · have hkept := kept_stmt (c := c) (fun pos d h => hst ⟨pos, d, h⟩) s
    unfold Ends
    rcases hr : stmt c st s with ⟨r, s'⟩
    rw [hr] at hkept
    cases r with
    | ok a => exact Or.inl hkept
    | error e => exact hkept

theorem Scope.intact_of_runs {st : Stmt} {s s' : Scope} (hruns : s.Runs s')
    (hinner : s.Kept s' ∨ ∃ pos d, st = .var pos d ∧ s.Binds d s') : s.Intact st s' := by
  have hextends := hruns.extends
  refine ⟨?_, hextends.loops, hextends.outer, hinner, hextends.low⟩
  rcases hinner with hkept | ⟨pos, d, -, t, v, hscopes⟩
  · rw [hkept]
  · rw [hscopes, List.length_modifyHead]

/-- The check of a statement leaves the state intact, also if it fails. As many scopes are open and as many loops
are around as before, the scopes but the innermost have the same bindings, the innermost one has at most gained or
replaced the local that the statement declares, and the next free slot is not above the one before. A statement
that fails leaves all open scopes as they were. -/
theorem stmt_intact (c : Context) (st : Stmt) (s : Scope) :
    s.Intact st (stmt c st s).2 ∧ ∀ e, (stmt c st s).1 = .error e → s.Kept (stmt c st s).2 := by
  have hends := ends_stmt c st s
  have hruns := runs_stmt c st s
  unfold Ends at hends
  rcases hr : stmt c st s with ⟨r, s'⟩
  rw [hr] at hends hruns
  cases r with
  | ok a => exact ⟨Scope.intact_of_runs hruns hends, fun e he => by cases he⟩
  | error e => exact ⟨Scope.intact_of_runs hruns (Or.inl hends), fun _ _ => hends⟩

end Check

end Sigil
