import Sigil.Proofs.Frees.Twins

/-!
# Freed pointers in the branches of a conditional

The branches of a conditional are checked one after the other, and the second one starts from what the first
one has left: a pointer that was freed before, and that the first branch assigns, is no longer taken as freed
in the second one. Apart from that the first branch leaves no trace. So what is reported in the second branch
depends on the first only by the pointers that it leaves freed, and on all of these
(`Check.else_errors_eq_iff`). That the second branch is checked as if the first were not there does not hold
(`Check.exists_else_errors_ne`).
-/

namespace Sigil

open Frame List

namespace Frame

/-- A property of slots that holds of a new one and of all others. -/
theorem forall_bind {P : Slot → Prop} {f : Frame} (h : ∀ scope ∈ f.scopes, ∀ p ∈ scope, P p.2)
    {x : String} {t : Ty} {offset : Int} {mutable : Bool} (hnew : P ⟨t, mutable, offset, none⟩) :
    ∀ scope ∈ (f.bind x t offset mutable).scopes, ∀ p ∈ scope, P p.2 := by
  obtain ⟨scopes, low, named⟩ := f
  cases scopes with
  | nil => exact forall_mem_nil _
  | cons scope rest =>
    obtain ⟨hscope, hrest⟩ := forall_mem_cons.1 h
    refine forall_mem_cons.2 ⟨fun p hp => ?_, hrest⟩
    rcases Assoc.mem_put hp with rfl | hp
    · exact hnew
    · exact hscope p hp

/-- A property of slots that does not depend on the value. -/
theorem forall_record {P : Slot → Prop} (hP : ∀ slot v, P slot → P { slot with value := some v })
    (x : String) (v : Constant) {scopes : List (Assoc Slot)} (h : ∀ scope ∈ scopes, ∀ p ∈ scope, P p.2) :
    ∀ scope ∈ record x v scopes, ∀ p ∈ scope, P p.2 := by
  induction scopes with
  | nil => exact forall_mem_nil _
  | cons scope rest ih =>
    obtain ⟨hscope, hrest⟩ := forall_mem_cons.1 h
    unfold record
    split
    · next slot hslot =>
      refine forall_mem_cons.2 ⟨fun p hp => ?_, hrest⟩
      rcases Assoc.mem_put hp with rfl | hp
      · exact hP slot v (hscope _ (Assoc.mem_of_get? hslot))
      · exact hscope p hp
    · exact forall_mem_cons.2 ⟨hscope, ih hrest⟩

end Frame

namespace Check

namespace Scope

/-! ## Where slots lie -/

/-- Every slot and every freed pointer lies above the low end of the frame. -/
structure Placed (s : Scope) : Prop where
  least : Frame.minOffset ≤ s.frame.low
  slots : ∀ scope ∈ s.frame.scopes, ∀ p ∈ scope, s.frame.low ≤ p.2.offset
  freed : ∀ o ∈ s.freed, s.frame.low ≤ o

variable {s s' : Scope}

theorem Placed.get? (h : s.Placed) {x : String} {slot : Slot} (hx : s.frame.get? x = some slot) :
    s.frame.low ≤ slot.offset := by
  obtain ⟨scope, hscope, hslot⟩ := mem_of_find? hx
  exact h.slots scope hscope _ hslot

theorem Placed.quiet (h : s.Placed) (hq : s.Quiet s') : s'.Placed := by
  refine ⟨?_, ?_, ?_⟩
  · rw [hq.frame]
    exact h.least
  · rw [hq.frame]
    exact h.slots
  · rw [hq.frame, hq.freed]
    exact h.freed

theorem Placed.enter (h : s.Placed) : s.enter.Placed :=
  ⟨h.least, forall_mem_cons.2 ⟨forall_mem_nil _, h.slots⟩, h.freed⟩

theorem Placed.declared (h : s.Placed) (x : String) (t : Ty) (size : Nat) (mutable byDefault : Bool)
    (pos : Position) : (s.declared x t size mutable byDefault pos).Placed := by
  obtain ⟨hleast, hlow⟩ := (s.extends_declared x t size mutable byDefault pos).low h.least
  obtain ⟨pending, heq⟩ := s.declared_eq x t size mutable byDefault pos
  rw [heq] at hleast hlow ⊢
  refine ⟨hleast, ?_, fun o ho => hlow.trans (h.freed o ho)⟩
  refine forall_bind (P := fun slot => (s.frame.push x t size mutable).2.low ≤ slot.offset) ?_
    (le_refl _)
  exact fun scope hscope p hp => hlow.trans (h.slots scope hscope p hp)

theorem Placed.valued (h : s.Placed) (x : String) (v : Option Constant) : (s.valued x v).Placed := by
  cases v with
  | none => exact h
  | some v =>
    refine ⟨h.least, ?_, h.freed⟩
    exact forall_record (P := fun slot => s.frame.low ≤ slot.offset) (fun _ _ hslot => hslot) x v
      h.slots

/-- Slots are taken below all others, so nothing lies below the low end after a statement. -/
theorem Runs.placed (h : s.Runs s') (hs : s.Placed) : s'.Placed := by
  induction h with
  | quiet h => exact hs.quiet h
  | trans _ _ ih ih' => exact ih' (ih hs)
  | report s e => exact ⟨hs.least, hs.slots, hs.freed⟩
  | free s p =>
    unfold Scope.free
    split
    · next ho =>
      obtain ⟨m, x, slot, rfl, hx, rfl⟩ := offset?_eq_some ho
      exact ⟨hs.least, hs.slots, forall_mem_cons.2 ⟨hs.get? hx, hs.freed⟩⟩
    · exact hs
  | regain s l =>
    unfold Scope.regain
    split
    · exact ⟨hs.least, hs.slots, fun o ho => hs.freed o (mem_filter.1 ho).1⟩
    · exact hs
  | declare s x t size mutable byDefault pos => exact hs.declared x t size mutable byDefault pos
  | keep h v => exact ((hs.declared _ _ _ _ _ _).quiet h).valued _ v
  | scope _ ih =>
    have hin := ih hs.enter
    exact ⟨hin.least, fun scope hscope => hin.slots scope (mem_of_mem_tail hscope), hin.freed⟩
  | branch h ih =>
    -- Only what was freed before the branch still counts behind it.
    have hafter := ih hs
    have hlow := (h.extends.low hs.least).2
    exact ⟨hafter.least, hafter.slots, fun o ho => hlow.trans (hs.freed o (mem_filter.1 ho).1)⟩
  | loop _ ih =>
    have hin := ih ⟨hs.least, hs.slots, hs.freed⟩
    exact ⟨hin.least, hin.slots, hin.freed⟩

theorem placed_start (t : Symbols) (sig : Signature) : (Scope.start t sig).Placed := by
  refine ⟨show minOffset ≤ 0 by decide, ?_, forall_mem_nil _⟩
  refine forall_mem_singleton.2 ?_
  refine forall_argSlots (P := fun slot => 0 ≤ slot.offset) (fun _ _ h => h) ?_ _
    (forall_mem_nil _)
  split <;> decide

/-! ## Pointers that a statement may take as assigned -/

/-- A state inside a statement that started in `s0`: locals that were not there lie below, and only pointers
that were locals then have been assigned. -/
structure Descends (s0 s : Scope) : Prop where
  least : Frame.minOffset ≤ s.frame.low
  low : s.frame.low ≤ s0.frame.low
  slots : ∀ x slot, s.frame.get? x = some slot → slot.offset < s0.frame.low ∨
    ∃ slot0, s0.frame.get? x = some slot0 ∧ slot0.offset = slot.offset
  freed : ∀ o ∈ s0.freed, o ∈ s.freed ∨ ∃ x slot, s0.frame.get? x = some slot ∧ slot.offset = o

variable {s0 : Scope}

theorem Placed.descends (h : s.Placed) : s.Descends s :=
  ⟨h.least, le_refl _, fun _ slot hx => Or.inr ⟨slot, hx, rfl⟩, fun _ ho => Or.inl ho⟩

theorem Descends.quiet (h : s0.Descends s) (hq : s.Quiet s') : s0.Descends s' := by
  refine ⟨?_, ?_, ?_, ?_⟩
  · rw [hq.frame]
    exact h.least
  · rw [hq.frame]
    exact h.low
  · rw [hq.frame]
    exact h.slots
  · rw [hq.freed]
    exact h.freed

/-- A new local lies below all that were there. -/
theorem Descends.declared (h : s0.Descends s) (hroom : s0.Room) (x : String) (t : Ty) (size : Nat)
    (mutable byDefault : Bool) (pos : Position) :
    s0.Descends (s.declared x t size mutable byDefault pos) := by
  obtain ⟨hleast, hlow⟩ := (s.extends_declared x t size mutable byDefault pos).low h.least
  obtain ⟨pending, heq⟩ := s.declared_eq x t size mutable byDefault pos
  rw [heq] at hleast hlow ⊢
  refine ⟨hleast, hlow.trans h.low, fun y slot hy => ?_, h.freed⟩
  rcases get?_bind_cases hy with ⟨-, rfl⟩ | hy
  · have hspan := span_pos size
    have hbelow := h.low
    unfold Room at hroom
    refine Or.inl ?_
    change max _ _ < _
    omega
  · exact h.slots y slot hy

theorem Descends.valued (h : s0.Descends s) (x : String) (v : Option Constant) :
    s0.Descends (s.valued x v) := by
  cases v with
  | none => exact h
  | some v =>
    refine ⟨h.least, h.low, fun y slot hy => ?_, h.freed⟩
    change (s.frame.setValue x v).get? y = some slot at hy
    have hblank := s.frame.blank_setValue x y v
    rw [hy] at hblank
    obtain ⟨slot', hslot', heq⟩ := Option.map_eq_some_iff.1 hblank.symm
    have hoffset : slot'.blank.offset = slot.blank.offset := congrArg Slot.offset heq
    change slot'.offset = slot.offset at hoffset
    have hold := h.slots y slot' hslot'
    rwa [hoffset] at hold

/-- The local that an assignment regains was there at the start, or lies below all that was. -/
theorem Descends.regain (h : s0.Descends s) (hs : s0.Placed) (l : Expr) : s0.Descends (s.regain l) := by
  unfold Scope.regain
  split
  · next offset ho =>
    obtain ⟨m, x, slot, rfl, hx, rfl⟩ := offset?_eq_some ho
    refine ⟨h.least, h.low, h.slots, fun o ho => ?_⟩
    by_cases heq : o = slot.offset
    · rcases h.slots x slot hx with hlow | ⟨slot0, hslot0, hoffset⟩
      · have habove := hs.freed o ho
        omega
      · exact Or.inr ⟨x, slot0, hslot0, hoffset.trans heq.symm⟩
    · rcases h.freed o ho with hmem | hlocal
      · exact Or.inl (mem_filter.2 ⟨hmem, by simpa using heq⟩)
      · exact Or.inr hlocal
  · exact h

/-- Only pointers that were locals at the start of a statement can have been assigned in it. -/
theorem Runs.descends (h : s.Runs s') (hs : s0.Placed) (hroom : s0.Room) (hd : s0.Descends s) :
    s0.Descends s' := by
  induction h with
  | quiet h => exact hd.quiet h
  | trans _ _ ih ih' => exact ih' (ih hd)
  | report s e => exact ⟨hd.least, hd.low, hd.slots, hd.freed⟩
  | free s p =>
    unfold Scope.free
    split
    · exact ⟨hd.least, hd.low, hd.slots, fun o ho => (hd.freed o ho).imp (mem_cons_of_mem _) id⟩
    · exact hd
  | regain s l => exact hd.regain hs l
  | declare s x t size mutable byDefault pos => exact hd.declared hroom x t size mutable byDefault pos
  | keep h v => exact ((hd.declared hroom _ _ _ _ _ _).quiet h).valued _ v
  | @scope s s' h ih =>
    have hin := ih ⟨hd.least, hd.low, hd.slots, hd.freed⟩
    refine ⟨hin.least, hin.low, ?_, hin.freed⟩
    -- the names mean what they meant before the scope was opened
    have hget : s'.leave.frame.get? = s.frame.get? := by
      funext x
      unfold get?
      rw [h.scopes]
    rw [hget]
    exact hd.slots
  | @branch s s' _ ih =>
    have hafter := ih hd
    refine ⟨hafter.least, hafter.low, hafter.slots, fun o ho => ?_⟩
    rcases hd.freed o ho with hbefore | hlocal
    · rcases hafter.freed o ho with hmem | hlocal
      · exact Or.inl (mem_filter.2 ⟨hbefore, contains_iff_mem.2 hmem⟩)
      · exact Or.inr hlocal
    · exact Or.inr hlocal
  | loop _ ih =>
    have hin := ih ⟨hd.least, hd.low, hd.slots, hd.freed⟩
    exact ⟨hin.least, hin.low, hin.slots, hin.freed⟩

end Scope

/-! ## Conditionals -/

/-- The state after a conditional. -/
def ifElse (c : Context) (pos : Position) (test : Expr) (yes : Stmt) (no : Option Stmt) (s : Scope) :
    Scope :=
  (stmts c [.cond pos test yes no] s).2

section

variable {c : Context} {s t : Scope} {pos : Position} {test : Expr}

theorem ifElse_of_ok {test' : Expr} (h : condition c test s = (.ok test', t)) (yes : Stmt)
    (no : Option Stmt) :
    ifElse c pos test yes no s = (optional c no (nest yes (stmt c yes) t).2).2 :=
  settle_cond_of_ok h yes no

theorem ifElse_of_error {e : Spoiled Expr} (h : condition c test s = (.error e, t)) (yes : Stmt)
    (no : Option Stmt) : ifElse c pos test yes no s = t.report e.error :=
  settle_cond_of_error h yes no

theorem even_condition (c : Context) (e : Expr) : Even (condition c e) :=
  ((exprLaws_even c).condition
    ((exprLaws_even c).lawful (fun _ _ => trivial) fun m x _ => even_identRule c m x)).holds

/-- A statement that depends on a condition leaves the open scopes as they are. -/
theorem scopes_nest (c : Context) (st : Stmt) (s : Scope) :
    (nest st (stmt c st) s).2.frame.scopes = s.frame.scopes := by
  have henclosed : ∀ {α : Type} {x : Survey α}, (∀ s : Scope, s.Runs (x s).2) →
      (enclosed x s).2.frame.scopes = s.frame.scopes :=
    fun hx => (hx s.enter).scopes
  unfold nest
  split
  · next pos body =>
    unfold stmt
    exact henclosed ((stmtLaws_runs c).surveyMap (Stmt.block pos) ((stmtLaws_runs c).stmts body))
  · exact henclosed (runs_settle ((stmtLaws_runs c).stmt st))

theorem runs_nest (c : Context) (st : Stmt) (s : Scope) : s.Runs (nest st (stmt c st) s).2 :=
  (stmtLaws_runs c).nest st ((stmtLaws_runs c).stmt st) s

/-- What a statement that depends on a condition leaves freed was freed before. -/
theorem freed_nest (c : Context) (st : Stmt) (s : Scope) :
    ∃ after : Scope, s.Runs after ∧
      (nest st (stmt c st) s).2.freed = s.freed.filter after.freed.contains := by
  unfold nest
  split
  · next pos body => exact ⟨_, runs_settle ((stmtLaws_runs c).stmt (.block pos body)) s, rfl⟩
  · exact ⟨_, (stmtLaws_runs c).enclosed (runs_settle ((stmtLaws_runs c).stmt st)) s, rfl⟩

/-- Reading a local reports it exactly if it is freed. -/
theorem settle_read {x : String} {slot : Slot} (hx : s.frame.get? x = some slot) (m : Mark) :
    (settle (stmt c (.expr pos (.ident m x))) s).2 =
      if slot.offset ∈ s.freed then s.report ⟨m.pos, .useAfterFree x⟩ else s := by
  have hexpr : expr c (.ident m x) none s = _ := identRule_of_local hx c m none
  unfold settle stmt exprStmt
  split_ifs with hfreed
  · rw [if_pos hfreed] at hexpr
    have hfails : within (Stmt.expr pos) (expr c (.ident m x) none) s =
        (.error ⟨⟨m.pos, .useAfterFree x⟩, .expr pos (.ident m x)⟩, s) := by
      unfold within Attempt.mapFailure
      rw [hexpr]
    rw [Attempt.bind_of_error hfails]
    rfl
  · rw [if_neg hfreed] at hexpr
    have hpasses : within (Stmt.expr pos) (expr c (.ident m x) none) s =
        (.ok ((Expr.ident m x).withTy slot.ty, slot.ty), s) := by
      unfold within Attempt.mapFailure
      rw [hexpr]
    rw [Attempt.bind_of_ok hpasses]
    rfl

/-- The same in a branch. -/
theorem optional_read {x : String} {slot : Slot} (hx : s.frame.get? x = some slot) (m : Mark) :
    (optional c (some (.expr pos (.ident m x))) s).2.frame.low = s.frame.low ∧
      (optional c (some (.expr pos (.ident m x))) s).2.errors =
        if slot.offset ∈ s.freed then s.errors ++ [⟨m.pos, .useAfterFree x⟩] else s.errors := by
  have hx' : s.enter.frame.get? x = some slot := hx
  have hread : (settle (stmt c (.expr pos (.ident m x))) s.enter).2 =
      if slot.offset ∈ s.freed then s.enter.report ⟨m.pos, .useAfterFree x⟩ else s.enter :=
    settle_read hx' m
  have hafter : (optional c (some (.expr pos (.ident m x))) s).2 =
      s.rejoin (settle (stmt c (.expr pos (.ident m x))) s.enter).2.leave := rfl
  rw [hafter, hread]
  split
  · exact ⟨rfl, rfl⟩
  · exact ⟨rfl, rfl⟩

/-! ## What a branch passes on -/

/-- The states after two branches agree if the branches report nothing and leave the same pointers freed. -/
theorem twin_nest (hs : s.Placed) {yes yes' : Stmt}
    (herrors : (nest yes (stmt c yes) s).2.errors = (nest yes' (stmt c yes') s).2.errors)
    (hfreed : (nest yes (stmt c yes) s).2.freed = (nest yes' (stmt c yes') s).2.freed) :
    ∃ k, Twin k (nest yes (stmt c yes) s).2 (nest yes' (stmt c yes') s).2 := by
  have hext := (runs_nest c yes s).extends
  have hext' := (runs_nest c yes' s).extends
  obtain ⟨hleast, hlow⟩ := hext.low hs.least
  obtain ⟨hleast', hlow'⟩ := hext'.low hs.least
  refine ⟨⟨s.frame.low, _, _, hlow, hlow'⟩, ?_, le_refl _, ?_, hleast, hleast', ?_, ?_, herrors.symm⟩
  · -- the branches leave the open scopes as they were, with all slots above the fork
    rw [scopes_nest, scopes_nest]
    refine forall₂_same.2 fun scope hscope => forall₂_same.2 fun p hp => ?_
    exact ⟨rfl, rfl, rfl, rfl, Or.inl ⟨hs.slots scope hscope p hp, rfl⟩⟩
  · dsimp only
    omega
  · rw [← hfreed]
    obtain ⟨after, -, hafter⟩ := freed_nest c yes s
    rw [hafter]
    exact forall₂_same.2 fun o ho => Or.inl ⟨hs.freed o (mem_filter.1 ho).1, rfl⟩
  · rw [hext.loops, hext'.loops]

/-- A local that is read after a branch is reported exactly if the branch leaves it freed. -/
theorem nest_read {x : String} {slot : Slot} (hx : s.frame.get? x = some slot) (yes : Stmt) (m : Mark) :
    ((nest yes (stmt c yes) s).2.Room →
      (optional c (some (.expr pos (.ident m x))) (nest yes (stmt c yes) s).2).2.Room) ∧
    ((optional c (some (.expr pos (.ident m x))) (nest yes (stmt c yes) s).2).2.errors =
      (nest yes (stmt c yes) s).2.errors ++ [⟨m.pos, .useAfterFree x⟩] ↔
      slot.offset ∈ (nest yes (stmt c yes) s).2.freed) := by
  have hafter : (nest yes (stmt c yes) s).2.frame.get? x = some slot := by
    unfold get?
    rw [scopes_nest]
    exact hx
  obtain ⟨hlow, herrors⟩ := optional_read (c := c) hafter m
  constructor
  · intro hroom
    unfold Scope.Room
    rw [hlow]
    exact hroom
  · rw [herrors]
    split
    · next hmem => simp [hmem]
    · next hmem => simp [hmem]

/-- If two branches differ in the pointers that they leave freed, they differ in a local. -/
theorem freed_nest_eq (hs : s.Placed) (hroom : s.Room) {yes yes' : Stmt}
    (h : ∀ x slot, s.frame.get? x = some slot →
      (slot.offset ∈ (nest yes (stmt c yes) s).2.freed ↔
        slot.offset ∈ (nest yes' (stmt c yes') s).2.freed)) :
    (nest yes (stmt c yes) s).2.freed = (nest yes' (stmt c yes') s).2.freed := by
  obtain ⟨after, hruns, hafter⟩ := freed_nest c yes s
  obtain ⟨after', hruns', hafter'⟩ := freed_nest c yes' s
  have hdescends := hruns.descends hs hroom hs.descends
  have hdescends' := hruns'.descends hs hroom hs.descends
  rw [hafter, hafter'] at h ⊢
  refine filter_congr fun o ho => ?_
  have hlocal : (∃ x slot, s.frame.get? x = some slot ∧ slot.offset = o) →
      after.freed.contains o = after'.freed.contains o := by
    rintro ⟨x, slot, hx, rfl⟩
    have hiff := h x slot hx
    simp only [mem_filter, ho, true_and] at hiff
    exact Bool.eq_iff_iff.2 hiff
  rcases hdescends.freed o ho with hmem | hfound
  · rcases hdescends'.freed o ho with hmem' | hfound
    · rw [contains_iff_mem.2 hmem, contains_iff_mem.2 hmem']
    · exact hlocal hfound
  · exact hlocal hfound

end

/-- What is reported in the second branch of a conditional is the same after two first branches that report
nothing if and only if these leave the same pointers freed. In particular, a local is reported where the
second branch reads it if and only if the first one leaves it freed. -/
theorem else_errors_eq_iff (c : Context) {s : Scope} (hs : s.Placed) (pos : Position) (test : Expr)
    {yes yes' : Stmt}
    (hyes : (ifElse c pos test yes none s).errors = (ifElse c pos test (.block pos []) none s).errors)
    (hyes' : (ifElse c pos test yes' none s).errors = (ifElse c pos test (.block pos []) none s).errors)
    (hroom : (ifElse c pos test yes none s).Room) (hroom' : (ifElse c pos test yes' none s).Room) :
    ((∀ no, (ifElse c pos test yes (some no) s).Room → (ifElse c pos test yes' (some no) s).Room →
      (ifElse c pos test yes (some no) s).errors = (ifElse c pos test yes' (some no) s).errors) ↔
      (ifElse c pos test yes none s).freed = (ifElse c pos test yes' none s).freed) ∧
    ∀ m x slot, s.frame.get? x = some slot → (ifElse c pos test yes none s).errors = s.errors →
      ((ifElse c pos test yes (some (.expr pos (.ident m x))) s).errors =
        s.errors ++ [⟨m.pos, .useAfterFree x⟩] ↔ slot.offset ∈ (ifElse c pos test yes none s).freed) := by
  have hquiet := (even_condition c test).quiet s
  rcases hr : condition c test s with ⟨r, t⟩
  rw [hr] at hquiet
  have ht : t.Placed := hs.quiet hquiet
  cases r with
  | error e =>
    -- The test is refused, and neither branch is looked at.
    simp only [ifElse_of_error hr, implies_true, true_and]
    intro m x slot _ herrors
    rw [Scope.report, hquiet.errors] at herrors
    simp at herrors
  | ok test' =>
    simp only [ifElse_of_ok hr] at hyes hyes' hroom hroom' ⊢
    have herrors := hyes.trans hyes'.symm
    refine ⟨⟨fun h => ?_, fun hfreed no hno hno' => ?_⟩, ?_⟩
    · -- Reading a variable in the other branch tells whether its slot is freed.
      have htroom : t.Room := (runs_nest c yes t).room ht.least hroom
      refine freed_nest_eq ht htroom fun x slot hx => ?_
      obtain ⟨hno, hread⟩ := nest_read (c := c) hx yes ⟨pos, none⟩
      obtain ⟨hno', hread'⟩ := nest_read (c := c) hx yes' ⟨pos, none⟩
      have hsame := h (.expr pos (.ident ⟨pos, none⟩ x)) (hno hroom) (hno' hroom')
      have hbefore : (nest yes (stmt c yes) t).2.errors = (nest yes' (stmt c yes') t).2.errors := herrors
      rw [← hread, ← hread', hsame, hbefore]
    · -- From the same freed slots the other branch runs in step.
      obtain ⟨k, htwin⟩ := twin_nest ht herrors hfreed
      exact ((surveyTwinned_optional c k (some no)).twin _ _ htwin hno hno').2.errors.symm
    · intro m x slot hx hnothing
      have hbefore : (nest yes (stmt c yes) t).2.errors = s.errors := hnothing
      rw [← hquiet.frame] at hx
      rw [← hbefore]
      exact (nest_read hx yes m).2

/-- The declaration of a pointer to new memory. -/
def newPointer (x : String) : Stmt :=
  .var .origin ⟨x, some (.ptr (.int 64 (some false))), some (.builtin ⟨.origin, none⟩ .alloc
    [.intLit ⟨.origin, none⟩ 8]), true, none⟩

/-- The state in a function after `p` has been declared and freed. -/
def afterFree : Scope :=
  (stmts ⟨.empty, .void, []⟩
    [newPointer "p", .expr .origin (.builtin ⟨.origin, none⟩ .free
      [.ident ⟨.origin, none⟩ "p", .intLit ⟨.origin, none⟩ 8])] (Scope.start .empty ⟨[], .void⟩).enter).2

theorem placed_afterFree : afterFree.Placed :=
  (runs_stmts _ _ _).placed (Scope.placed_start _ _).enter

/-- A first branch that declares a local, and one that does nothing. -/
theorem else_errors_eq_iff_declares :
    let c : Context := ⟨.empty, .void, []⟩
    let test : Expr := .boolLit ⟨.origin, none⟩ true
    let yes : Stmt := .block .origin [newPointer "q"]
    let yes' : Stmt := .block .origin []
    afterFree.freed = [-8] ∧ (ifElse c .origin test yes none afterFree).errors = [] ∧
    (ifElse c .origin test yes none afterFree).frame.low = -16 ∧
    (ifElse c .origin test yes' none afterFree).frame.low = -8 ∧
    ∀ no, (ifElse c .origin test yes (some no) afterFree).Room →
      (ifElse c .origin test yes' (some no) afterFree).Room →
      (ifElse c .origin test yes (some no) afterFree).errors =
        (ifElse c .origin test yes' (some no) afterFree).errors := by
  intro c test yes yes'
  have hyes : (ifElse c .origin test yes none afterFree).errors =
      (ifElse c .origin test yes' none afterFree).errors := by decide +kernel
  have hroom : (ifElse c .origin test yes none afterFree).Room := by decide +kernel
  have hroom' : (ifElse c .origin test yes' none afterFree).Room := by decide +kernel
  have hiff := (else_errors_eq_iff c placed_afterFree .origin test hyes rfl hroom hroom').1
  exact ⟨by decide +kernel, by decide +kernel, by decide +kernel, by decide +kernel,
    hiff.2 (by decide +kernel)⟩

/-- A first branch that assigns the freed pointer hides its use in the second one. -/
theorem exists_else_errors_ne :
    ∃ (c : Context) (s : Scope) (test : Expr) (yes yes' no : Stmt), s.Placed ∧
      (ifElse c .origin test yes none s).errors = [] ∧ (ifElse c .origin test yes' none s).errors = [] ∧
      (ifElse c .origin test yes (some no) s).errors = [⟨.origin, .useAfterFree "p"⟩] ∧
      (ifElse c .origin test yes' (some no) s).errors = [] := by
  refine ⟨⟨.empty, .void, []⟩, afterFree, .boolLit ⟨.origin, none⟩ true, .block .origin [],
    .assign .origin (.ident ⟨.origin, none⟩ "p") (.nil ⟨.origin, none⟩),
    .expr .origin (.deref ⟨.origin, none⟩ (.ident ⟨.origin, none⟩ "p")), placed_afterFree, ?_, ?_, ?_, ?_⟩
  · decide +kernel
  · decide +kernel
  · decide +kernel
  · decide +kernel

end Check

end Sigil
