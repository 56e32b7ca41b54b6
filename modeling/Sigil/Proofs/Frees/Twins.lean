import Sigil.Proofs.Frees.Statements

/-!
# Runs that differ only in where their locals lie

Two states may know the same locals at different offsets: they have the offsets from some point on in
common, and below that each frame goes on from a low end of its own (`Check.Fork`). If apart from that they
agree about the locals, the freed pointers, the loops and the errors (`Check.Twin`), every statement has the
same outcome in both and leaves states that agree again, as long as neither frame runs out of offsets
(`Check.stmtLaws_twinned`).
-/

namespace Sigil

open Attempt List

namespace Check

/-- A point where two frames part: they have the offsets from `top` on in common, and go on below `low` and
`low'`. -/
structure Fork where
  top : Int
  low : Int
  low' : Int
  le : low ≤ top
  le' : low' ≤ top

/-- Offsets of one local in the two frames. -/
def Fork.Moved (k : Fork) (o o' : Int) : Prop :=
  (k.top ≤ o ∧ o' = o) ∨ (o < k.low ∧ o' - k.low' = o - k.low)

theorem Fork.biUnique (k : Fork) : Relator.BiUnique k.Moved := by
  have hle := k.le
  have hle' := k.le'
  constructor
  · intro o p o' h h'
    unfold Moved at h h'
    omega
  · intro o p p' h h'
    unfold Moved at h h'
    omega

/-- The slots of one local in the two frames. -/
structure Fork.Same (k : Fork) (slot slot' : Slot) : Prop where
  ty : slot.ty = slot'.ty
  mutable : slot.mutable = slot'.mutable
  value : slot.value = slot'.value
  offset : k.Moved slot.offset slot'.offset

/-- One local in the two frames. -/
def Fork.Local (k : Fork) (p p' : String × Slot) : Prop :=
  p.1 = p'.1 ∧ k.Same p.2 p'.2

variable {k : Fork}

/-! ## Frames -/

section

variable {scope scope' : Assoc Slot} {scopes scopes' : List (Assoc Slot)}

/-- A name is bound in both scopes or in neither. -/
theorem get?_cases (h : Forall₂ k.Local scope scope') (x : String) :
    (scope.get? x = none ∧ scope'.get? x = none) ∨ ∃ slot slot', scope.get? x = some slot ∧
      scope'.get? x = some slot' ∧ k.Same slot slot' := by
  induction h with
  | nil => exact Or.inl ⟨rfl, rfl⟩
  | @cons p p' scope scope' hp _ ih =>
    obtain ⟨y, slot⟩ := p
    obtain ⟨y', slot'⟩ := p'
    obtain ⟨rfl, hsame⟩ : y = y' ∧ _ := hp
    unfold Assoc.get?
    by_cases hy : y = x
    · rw [if_pos hy, if_pos hy]
      exact Or.inr ⟨slot, slot', rfl, rfl, hsame⟩
    · rw [if_neg hy, if_neg hy]
      exact ih

/-- The same name is bound in both twins. -/
theorem forall₂_put (h : Forall₂ k.Local scope scope') {x : String} {slot slot' : Slot}
    (hslot : k.Same slot slot') :
    Forall₂ k.Local (scope.put x slot) (scope'.put x slot') := by
  induction h with
  | nil => exact .cons ⟨rfl, hslot⟩ .nil
  | @cons p p' scope scope' hp hrest ih =>
    obtain ⟨y, old⟩ := p
    obtain ⟨y', old'⟩ := p'
    obtain ⟨rfl, hsame⟩ : y = y' ∧ _ := hp
    unfold Assoc.put
    by_cases hy : y = x
    · rw [if_pos hy, if_pos hy]
      exact .cons ⟨rfl, hslot⟩ hrest
    · rw [if_neg hy, if_neg hy]
      exact .cons ⟨rfl, hsame⟩ ih

/-- A name means a local in both frames or in neither. -/
theorem find?_cases (h : Forall₂ (Forall₂ k.Local) scopes scopes') (x : String) :
    (Frame.find? x scopes = none ∧ Frame.find? x scopes' = none) ∨ ∃ slot slot',
      Frame.find? x scopes = some slot ∧ Frame.find? x scopes' = some slot' ∧
      k.Same slot slot' := by
  induction h with
  | nil => exact Or.inl ⟨rfl, rfl⟩
  | cons hscope _ ih =>
    unfold Frame.find?
    rcases get?_cases hscope x with ⟨hx, hx'⟩ | ⟨slot, slot', hx, hx', hsame⟩
    · rw [hx, hx']
      exact ih
    · rw [hx, hx']
      exact Or.inr ⟨slot, slot', rfl, rfl, hsame⟩

theorem forall₂_setValue (h : Forall₂ (Forall₂ k.Local) scopes scopes') (x : String)
    (v : Constant) :
    Forall₂ (Forall₂ k.Local) (Frame.record x v scopes) (Frame.record x v scopes') := by
  induction h with
  | nil => exact .nil
  | cons hscope hrest ih =>
    unfold Frame.record
    rcases get?_cases hscope x with ⟨hx, hx'⟩ | ⟨slot, slot', hx, hx', hsame⟩
    · rw [hx, hx']
      exact .cons hscope ih
    · rw [hx, hx']
      exact .cons (forall₂_put hscope ⟨hsame.ty, hsame.mutable, rfl, hsame.offset⟩) hrest

theorem forall₂_bind {f f' : Frame} (h : Forall₂ (Forall₂ k.Local) f.scopes f'.scopes)
    (x : String) (t : Ty) {o o' : Int} (ho : k.Moved o o') (mutable : Bool) :
    Forall₂ (Forall₂ k.Local) (f.bind x t o mutable).scopes (f'.bind x t o' mutable).scopes := by
  obtain ⟨scopes, low, named⟩ := f
  obtain ⟨scopes', low', named'⟩ := f'
  cases h with
  | nil => exact .nil
  | cons hscope hrest => exact .cons (forall₂_put hscope ⟨rfl, rfl, rfl, ho⟩) hrest

theorem forall₂_tail (h : Forall₂ (Forall₂ k.Local) scopes scopes') :
    Forall₂ (Forall₂ k.Local) scopes.tail scopes'.tail := by
  cases h with
  | nil => exact .nil
  | cons _ hrest => exact hrest

end

/-! ## States -/

/-- There are offsets left. -/
def Scope.Room (s : Scope) : Prop :=
  Frame.minOffset < s.frame.low

instance (s : Scope) : Decidable s.Room :=
  inferInstanceAs (Decidable (Frame.minOffset < s.frame.low))

/-- The next slot lies just below the others if there are offsets left. -/
theorem push_of_room {f : Frame} {x : String} {t : Ty} {size : Nat} {mutable : Bool}
    (h : Frame.minOffset < (f.push x t size mutable).2.low) :
    (f.push x t size mutable).1 = f.low - Frame.span (max size 1) := by
  change _ < max _ _ at h
  change max _ _ = _
  omega

/-- The states agree but for where the locals lie. -/
structure Twin (k : Fork) (s s' : Scope) : Prop where
  scopes : List.Forall₂ (List.Forall₂ k.Local) s.frame.scopes s'.frame.scopes
  below : s.frame.low ≤ k.low
  low : s'.frame.low - k.low' = s.frame.low - k.low
  least : Frame.minOffset ≤ s.frame.low
  least' : Frame.minOffset ≤ s'.frame.low
  freed : List.Forall₂ k.Moved s.freed s'.freed
  loops : s'.loops = s.loops
  errors : s'.errors = s.errors

namespace Twin

variable {s s' t t' : Scope}
variable (h : Twin k s s')
include h

theorem get?_cases (x : String) :
    (s.frame.get? x = none ∧ s'.frame.get? x = none) ∨ ∃ slot slot', s.frame.get? x = some slot ∧
      s'.frame.get? x = some slot' ∧ k.Same slot slot' :=
  find?_cases h.scopes x

/-- Expressions see no difference. -/
theorem alike : s.Alike s' := by
  constructor
  · funext x
    unfold Frame.sight
    rcases h.get?_cases x with ⟨hx, hx'⟩ | ⟨slot, slot', hx, hx', hsame⟩
    · rw [hx, hx']
    · simp [hx, hx', hsame.ty, hsame.mutable, hsame.value]
  · intro x slot slot' hslot hslot'
    rcases h.get?_cases x with ⟨hx, -⟩ | ⟨_, _, hx, hx', hsame⟩
    · cases hx.symm.trans hslot
    · cases hx.symm.trans hslot
      cases hx'.symm.trans hslot'
      exact rel_mem k.biUnique hsame.offset h.freed

/-- Twins that are left as they are remain twins. -/
theorem quiet (hq : s.Quiet t) (hq' : s'.Quiet t') : Twin k t t' := by
  refine ⟨?_, ?_, ?_, ?_, ?_, ?_, ?_, ?_⟩
  · rw [hq.frame, hq'.frame]
    exact h.scopes
  · rw [hq.frame]
    exact h.below
  · rw [hq.frame, hq'.frame]
    exact h.low
  · rw [hq.frame]
    exact h.least
  · rw [hq'.frame]
    exact h.least'
  · rw [hq.freed, hq'.freed]
    exact h.freed
  · rw [hq.loops, hq'.loops]
    exact h.loops
  · rw [hq.errors, hq'.errors]
    exact h.errors

theorem report (e : Located TypeError) : Twin k (s.report e) (s'.report e) := by
  refine ⟨h.scopes, h.below, h.low, h.least, h.least', h.freed, h.loops, ?_⟩
  unfold Scope.report
  rw [h.errors]

theorem enter : Twin k s.enter s'.enter :=
  ⟨.cons .nil h.scopes, h.below, h.low, h.least, h.least', h.freed, h.loops, h.errors⟩

theorem leave : Twin k s.leave s'.leave := by
  refine ⟨?_, h.below, h.low, h.least, h.least', h.freed, h.loops, h.errors⟩
  exact forall₂_tail h.scopes

/-- The same local is freed in both states. -/
theorem free (p : Expr) : Twin k (s.free p) (s'.free p) := by
  unfold Scope.free Scope.offset?
  cases p with
  | ident m x =>
    rcases h.get?_cases x with ⟨hx, hx'⟩ | ⟨slot, slot', hx, hx', hsame⟩
    · simp only [hx, hx']
      exact h
    · simp only [hx, hx']
      exact ⟨h.scopes, h.below, h.low, h.least, h.least', .cons hsame.offset h.freed, h.loops, h.errors⟩
  | _ => exact h

/-- The same local is regained in both states. -/
theorem regain (l : Expr) : Twin k (s.regain l) (s'.regain l) := by
  unfold Scope.regain Scope.offset?
  cases l with
  | ident m x =>
    rcases h.get?_cases x with ⟨hx, hx'⟩ | ⟨slot, slot', hx, hx', hsame⟩
    · simp only [hx, hx']
      exact h
    · simp only [hx, hx']
      refine ⟨h.scopes, h.below, h.low, h.least, h.least', ?_, h.loops, h.errors⟩
      refine rel_filter ?_ h.freed
      intro o o' ho
      have heq := Relator.rel_eq k.biUnique ho hsame.offset
      simp [heq]
  | _ => exact h

theorem rejoin (ht : Twin k t t') : Twin k (s.rejoin t) (s'.rejoin t') := by
  refine ⟨ht.scopes, ht.below, ht.low, ht.least, ht.least', ?_, ht.loops, ht.errors⟩
  refine rel_filter ?_ h.freed
  intro o o' ho
  have hmem := rel_mem k.biUnique ho ht.freed
  simp [hmem]

theorem valued (x : String) (v : Option Constant) :
    Twin k (s.valued x v) (s'.valued x v) := by
  cases v with
  | none => exact h
  | some v =>
    exact ⟨forall₂_setValue h.scopes x v, h.below, h.low, h.least, h.least', h.freed, h.loops, h.errors⟩

/-- Both frames take the next slot at the same distance. -/
theorem declared (x : String) (t : Ty) (size : Nat) (mutable byDefault : Bool)
    (pos : Position) (hroom : (s.declared x t size mutable byDefault pos).Room)
    (hroom' : (s'.declared x t size mutable byDefault pos).Room) :
    Twin k (s.declared x t size mutable byDefault pos) (s'.declared x t size mutable byDefault pos) := by
  obtain ⟨pending, heq⟩ := s.declared_eq x t size mutable byDefault pos
  obtain ⟨pending', heq'⟩ := s'.declared_eq x t size mutable byDefault pos
  rw [heq] at hroom ⊢
  rw [heq'] at hroom' ⊢
  have hoffset := push_of_room hroom
  have hoffset' := push_of_room hroom'
  have hpos := Frame.span_pos size
  have hbelow := h.below
  have hlow := h.low
  have hmoved : k.Moved (s.frame.push x t size mutable).1 (s'.frame.push x t size mutable).1 := by
    rw [hoffset, hoffset']
    exact Or.inr ⟨by omega, by omega⟩
  refine ⟨?_, ?_, ?_, le_of_lt hroom, le_of_lt hroom', h.freed, h.loops, h.errors⟩
  · exact forall₂_bind h.scopes x t hmoved mutable
  · change (s.frame.push x t size mutable).1 ≤ _
    rw [hoffset]
    omega
  · change (s'.frame.push x t size mutable).1 - _ = (s.frame.push x t size mutable).1 - _
    rw [hoffset, hoffset']
    omega

end Twin

/-! ## Checks -/

section

variable {τ τ' α β : Type}

/-- A statement that leaves offsets has found some. -/
theorem Scope.Runs.room {s s' : Scope} (h : s.Runs s') (hleast : Frame.minOffset ≤ s.frame.low)
    (hroom : s'.Room) : s.Room :=
  lt_of_lt_of_le hroom (h.extends.low hleast).2

/-- The outcomes are the same in states that agree, and the states agree afterwards, if there are offsets
left then. -/
structure Twinned (k : Fork) (x : Checker τ α) : Prop where
  runs : ∀ s : Scope, s.Runs (x s).2
  twin : ∀ s s', Twin k s s' → (x s).2.Room → (x s').2.Room →
    ∃ r t t', x s = (r, t) ∧ x s' = (r, t') ∧ Twin k t t'

/-- The same of surveys. -/
structure SurveyTwinned (k : Fork) (x : Survey α) : Prop where
  runs : ∀ s : Scope, s.Runs (x s).2
  twin : ∀ s s', Twin k s s' → (x s).2.Room → (x s').2.Room →
    (x s).1 = (x s').1 ∧ Twin k (x s).2 (x s').2

theorem twinned_of_even {x : Checker τ α} (hx : Even x) : Twinned k x := by
  refine ⟨fun s => .quiet (hx.quiet s), fun s s' hs _ _ => ?_⟩
  obtain ⟨r, t, t', hxs, hxs', hq, hq'⟩ := hx s s' hs.alike
  exact ⟨r, t, t', hxs, hxs', hs.quiet hq hq'⟩

/-- The first parts lead from twins to twins, and give the same to the second ones. -/
theorem twinned_bind {Q : α → Prop} {x : Checker τ α} {f : α → Checker τ β} (hx : Twinned k x)
    (hreturns : Returns Q x) (hf : ∀ a, Q a → Twinned k (f a)) : Twinned k (x >>= f) := by
  refine ⟨leads_bind .trans hx.runs hreturns fun a ha => (hf a ha).runs, fun s s' hs hroom hroom' => ?_⟩
  -- whether or not the first part fails, there were offsets left after it
  have hfirst : ∀ s : Scope, Frame.minOffset ≤ s.frame.low → ((x >>= f) s).2.Room → (x s).2.Room := by
    intro s hleast hroom
    have hruns := hx.runs s
    rcases hr : x s with ⟨r, t⟩
    rw [hr] at hruns
    cases r with
    | ok a =>
      rw [bind_of_ok hr] at hroom
      exact ((hf a (hreturns s a t hr)).runs t).room (hruns.extends.low hleast).1 hroom
    | error e =>
      rw [bind_of_error hr] at hroom
      exact hroom
  obtain ⟨r, t, t', hxs, hxs', ht⟩ :=
    hx.twin s s' hs (hfirst s hs.least hroom) (hfirst s' hs.least' hroom')
  cases r with
  | ok a =>
    rw [bind_of_ok hxs] at hroom ⊢
    rw [bind_of_ok hxs'] at hroom' ⊢
    exact (hf a (hreturns s a t hxs)).twin t t' ht hroom hroom'
  | error e =>
    exact ⟨.error e, t, t', bind_of_error hxs, bind_of_error hxs', ht⟩

theorem twinned_within (context : τ → τ') {x : Checker τ α} (hx : Twinned k x) :
    Twinned k (within context x) := by
  have hsnd : ∀ s, (within context x s).2 = (x s).2 := by
    intro s
    unfold within mapFailure
    cases x s with
    | mk r t => cases r <;> rfl
  refine ⟨leads_within context hx.runs, fun s s' hs hroom hroom' => ?_⟩
  rw [hsnd] at hroom hroom'
  obtain ⟨r, t, t', hxs, hxs', ht⟩ := hx.twin s s' hs hroom hroom'
  unfold within mapFailure
  rw [hxs, hxs']
  cases r with
  | ok a => exact ⟨_, t, t', rfl, rfl, ht⟩
  | error e => exact ⟨_, t, t', rfl, rfl, ht⟩

theorem twinned_pass {x : Checker τ α} {g : Spoiled τ → Scope → Scope} (hx : Twinned k x)
    (hg : ∀ e (s : Scope), s.Quiet (g e s)) :
    Twinned k (tryCatch x fun e => do modify (g e); throw e) := by
  refine ⟨runs_pass hx.runs hg, fun s s' hs hroom hroom' => ?_⟩
  have hlow : ∀ s, (x.orElse (fun e => do modify (g e); throw e) s).2.frame = (x s).2.frame := by
    intro s
    unfold orElse
    rcases x s with ⟨r, t⟩
    cases r with
    | ok a => rfl
    | error e => exact (hg e t).frame
  unfold Scope.Room at hroom hroom'
  dsimp only [tryCatch, tryCatchThe, MonadExceptOf.tryCatch] at hroom hroom' ⊢
  rw [hlow] at hroom hroom'
  obtain ⟨r, t, t', hxs, hxs', ht⟩ := hx.twin s s' hs hroom hroom'
  unfold orElse
  rw [hxs, hxs']
  cases r with
  | ok a => exact ⟨_, t, t', rfl, rfl, ht⟩
  | error e => exact ⟨_, g e t, g e t', rfl, rfl, ht.quiet (hg e t) (hg e t')⟩

/-- Of the frame, keeping a local takes as much as declaring it. -/
theorem low_keep (c : Context) (x : String) (t : Ty) (size : Nat) (mutable byDefault : Bool)
    (pos : Position) (init : Option Expr) (s : Scope) :
    ((keep c x t size mutable byDefault pos init : Checker τ Unit) s).2.frame.low =
      (s.declared x t size mutable byDefault pos).frame.low := by
  obtain ⟨v, u, hkeep, hquiet⟩ := keep_eq (τ := τ) c x t size mutable byDefault pos init s
  rw [hkeep, ← hquiet.frame]
  cases v <;> rfl

/-- Both declarations get the next place, which is moved in one twin. -/
theorem twinned_keep (c : Context) (x : String) (t : Ty) (size : Nat) (mutable byDefault : Bool)
    (pos : Position) (init : Option Expr) :
    Twinned k (keep c x t size mutable byDefault pos init : Checker τ Unit) := by
  refine ⟨runs_keep c x t size mutable byDefault pos init, fun s s' hs hroom hroom' => ?_⟩
  unfold Scope.Room at hroom hroom'
  rw [low_keep] at hroom hroom'
  have hdeclared := hs.declared x t size mutable byDefault pos hroom hroom'
  obtain ⟨r, u, u', hr, hr', hu, hu'⟩ := even_known (τ := τ) c mutable init _ _ hdeclared.alike
  have hknown := hdeclared.quiet hu hu'
  unfold keep
  rw [bind_of_ok (declare_eq x t size mutable byDefault pos s),
    bind_of_ok (declare_eq x t size mutable byDefault pos s')]
  cases r with
  | ok v =>
    rw [bind_of_ok hr, bind_of_ok hr']
    exact ⟨_, _, _, rfl, rfl, hknown.valued x v⟩
  | error e =>
    exact ⟨_, _, _, bind_of_error hr, bind_of_error hr', hknown⟩

theorem twinned_inScope {x : Checker τ α} (hx : Twinned k x) : Twinned k (inScope x) := by
  refine ⟨fun s => .scope (hx.runs s.enter), fun s s' hs hroom hroom' => ?_⟩
  obtain ⟨r, t, t', hxs, hxs', ht⟩ := hx.twin s.enter s'.enter hs.enter hroom hroom'
  refine ⟨r, t.leave, t'.leave, ?_, ?_, ht.leave⟩
  · change ((x s.enter).1, (x s.enter).2.leave) = _
    rw [hxs]
  · change ((x s'.enter).1, (x s'.enter).2.leave) = _
    rw [hxs']

theorem surveyTwinned_settle {x : Checker τ τ} (hx : Twinned k x) : SurveyTwinned k (settle x) := by
  have hframe : ∀ s, (settle x s).2.frame = (x s).2.frame := by
    intro s
    unfold settle
    cases x s with
    | mk r t => cases r <;> rfl
  refine ⟨runs_settle hx.runs, fun s s' hs hroom hroom' => ?_⟩
  unfold Scope.Room at hroom hroom'
  rw [hframe] at hroom hroom'
  obtain ⟨r, t, t', hxs, hxs', ht⟩ := hx.twin s s' hs hroom hroom'
  unfold settle
  rw [hxs, hxs']
  cases r with
  | ok a => exact ⟨rfl, ht⟩
  | error e => exact ⟨rfl, ht.report e.error⟩

theorem surveyTwinned_bind {x : Survey α} {f : α → Survey β} (hx : SurveyTwinned k x)
    (hf : ∀ a, SurveyTwinned k (f a)) : SurveyTwinned k (x >>= f) := by
  refine ⟨fun s => (hx.runs s).trans ((hf _).runs _), fun s s' hs hroom hroom' => ?_⟩
  have hfirst : ∀ s : Scope, Frame.minOffset ≤ s.frame.low → ((x >>= f) s).2.Room → (x s).2.Room := by
    intro s hleast hroom
    exact ((hf (x s).1).runs (x s).2).room ((hx.runs s).extends.low hleast).1 hroom
  obtain ⟨ha, ht⟩ := hx.twin s s' hs (hfirst s hs.least hroom) (hfirst s' hs.least' hroom')
  change (f (x s).1 (x s).2).2.Room at hroom
  change (f (x s').1 (x s').2).2.Room at hroom'
  change (f (x s).1 (x s).2).1 = (f (x s').1 (x s').2).1 ∧
    Twin k (f (x s).1 (x s).2).2 (f (x s').1 (x s').2).2
  rw [← ha] at hroom' ⊢
  exact (hf (x s).1).twin (x s).2 (x s').2 ht hroom hroom'

end

/-- All steps of checking statements keep twins. -/
theorem stmtLaws_twinned (c : Context) (k : Fork) :
    StmtLaws c (fun _ _ => Twinned k) (fun _ => SurveyTwinned k) where
  pure a := twinned_of_even (even_pure a)
  reject tree pos _ _ _ := twinned_of_even (even_reject tree pos _)
  bind := twinned_bind
  within := twinned_within
  look := by
    intro τ α f hf hR
    refine ⟨fun s => (hR s).runs s, fun s s' hs hroom hroom' => ?_⟩
    -- What is looked at is in sight of both.
    have hsame : f s' = f s := (hf s s' hs.alike.sight).symm
    change (f s' s').2.Room at hroom'
    rw [hsame] at hroom'
    obtain ⟨r, t, t', hfs, hfs', ht⟩ := (hR s).twin s s' hs hroom hroom'
    rw [← hsame] at hfs'
    exact ⟨r, t, t', hfs, hfs', ht⟩
  demand tree _ _ hpos hq := twinned_of_even ((exprLaws_even c).demand tree hpos hq)
  value? e := twinned_of_even ((exprLaws_even c).value? e)
  note hg := twinned_of_even ((exprLaws_even c).note hg)
  pass hx hg := twinned_pass hx fun e s => (hg e s).toQuiet
  ident m x hint _ := twinned_of_even (even_identRule c m x hint)
  free p := ⟨fun s => .free s p, fun _ _ hs _ _ => ⟨_, _, _, rfl, rfl, hs.free p⟩⟩
  regain l := ⟨fun s => .regain s l, fun _ _ hs _ _ => ⟨_, _, _, rfl, rfl, hs.regain l⟩⟩
  keep := twinned_keep c
  jump st what hpos := by
    refine ⟨(stmtLaws_runs c).jump st what hpos, fun s s' hs _ _ => ?_⟩
    unfold jumpStmt
    rw [bind_of_ok (get_apply s), bind_of_ok (get_apply s'), hs.loops]
    split
    · exact ⟨_, s, s', rfl, rfl, hs⟩
    · exact ⟨_, s, s', rfl, rfl, hs⟩
  surveyed := by
    intro τ α x hx
    refine ⟨hx.runs, fun s s' hs hroom hroom' => ?_⟩
    obtain ⟨ha, ht⟩ := hx.twin s s' hs hroom hroom'
    refine ⟨.ok (x s).1, (x s).2, (x s').2, rfl, ?_, ht⟩
    rw [ha]
    rfl
  inScope := twinned_inScope
  surveyPure _ := ⟨fun s => .quiet (.refl s), fun _ _ hs _ _ => ⟨rfl, hs⟩⟩
  surveyBind := surveyTwinned_bind
  settle := surveyTwinned_settle
  enclosed := by
    intro α x hx
    refine ⟨fun s => .scope (hx.runs s.enter), fun s s' hs hroom hroom' => ?_⟩
    obtain ⟨ha, ht⟩ := hx.twin s.enter s'.enter hs.enter hroom hroom'
    exact ⟨ha, ht.leave⟩
  branch := by
    intro α x hx
    refine ⟨fun s => .branch (hx.runs s), fun s s' hs hroom hroom' => ?_⟩
    obtain ⟨ha, ht⟩ := hx.twin s s' hs hroom hroom'
    exact ⟨ha, hs.rejoin ht⟩
  inLoop := by
    intro α x hx
    refine ⟨fun s => .loop (hx.runs { s with loops := s.loops + 1 }), fun s s' hs hroom hroom' => ?_⟩
    have hin : Twin k { s with loops := s.loops + 1 } { s' with loops := s'.loops + 1 } :=
      ⟨hs.scopes, hs.below, hs.low, hs.least, hs.least', hs.freed, congrArg (· + 1) hs.loops, hs.errors⟩
    obtain ⟨ha, ht⟩ := hx.twin _ _ hin hroom hroom'
    exact ⟨ha, ht.scopes, ht.below, ht.low, ht.least, ht.least', ht.freed, congrArg (· - 1) ht.loops,
      ht.errors⟩

/-- A statement that depends on a condition has the same outcome in states that agree. -/
theorem surveyTwinned_optional (c : Context) (k : Fork) (st : Option Stmt) :
    SurveyTwinned k (optional c st) :=
  (stmtLaws_twinned c k).optional st

end Check

end Sigil
