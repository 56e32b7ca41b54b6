import Sigil.Check.Statement
import Sigil.Proofs.Laws.Expressions

/-!
# Expressions and locals in statements

The check of a statement is put together from checks of its expressions, of which more is known than of single
expressions: conditions, initial values, targets and results. A declaration prepares all that is known of
its local (`Check.prepare`) and then keeps it (`Check.keep`).
-/

namespace Sigil.Check

open Attempt Expr Frame List
open Eval (sober_of_keeps)

/-! ## Locals -/

/-- The state after a pointer has been given to `@free`. -/
def Scope.free (p : Expr) (s : Scope) : Scope :=
  match s.offset? p with
  | some offset => { s with freed := offset :: s.freed }
  | none => s

/-- The state after an assignment to `l`. -/
def Scope.regain (l : Expr) (s : Scope) : Scope :=
  match s.offset? l with
  | some offset => { s with freed := s.freed.filter (· ≠ offset) }
  | none => s

/-- The state after a declaration. -/
def Scope.declared (x : String) (t : Ty) (size : Nat) (mutable byDefault : Bool) (pos : Position)
    (s : Scope) : Scope :=
  let (offset, frame) := s.frame.push x t size mutable
  let s := { s with frame }
  if byDefault then s.await offset pos else s

/-- A declaration changes the frame, and what is known about signs. -/
theorem Scope.declared_eq (s : Scope) (x : String) (t : Ty) (size : Nat) (mutable byDefault : Bool)
    (pos : Position) : ∃ pending, s.declared x t size mutable byDefault pos =
      { s with frame := (s.frame.push x t size mutable).2, pending := pending } := by
  unfold Scope.declared
  dsimp only
  split
  · exact ⟨_, rfl⟩
  · exact ⟨_, rfl⟩

/-- The state after the value of a local has been recorded, if it is known. -/
def Scope.valued (x : String) (v : Option Constant) (s : Scope) : Scope :=
  match v with
  | some v => { s with frame := s.frame.setValue x v }
  | none => s

section

variable {τ α : Type} (c : Context) (x : String) (t : Ty) (size : Nat) (mutable byDefault : Bool)
  (pos : Position) (init : Option Expr)

/-- The initial value of a local that cannot change, if it is known. -/
def known : Checker τ (Option Constant) :=
  match mutable, init with
  | false, some e => c.value? e
  | _, _ => return none

/-- Declares a local, and keeps its value if it cannot change. -/
def keep : Checker τ Unit := do
  declare x t size mutable byDefault pos
  let v ← known c mutable init
  modify (·.valued x v)

theorem declare_eq (s : Scope) : (declare x t size mutable byDefault pos : Checker τ Unit) s =
    (.ok (), s.declared x t size mutable byDefault pos) :=
  rfl

theorem known_eq (s : Scope) :
    ∃ v s', (known c mutable init : Checker τ (Option Constant)) s = (.ok v, s') ∧ s.Quiet s' := by
  unfold known
  split
  · exact c.value?_spec _ s
  · exact ⟨none, s, rfl, .refl s⟩

/-- A local is always kept. -/
theorem keep_eq (s : Scope) :
    ∃ v s', (keep c x t size mutable byDefault pos init : Checker τ Unit) s = (.ok (), s'.valued x v) ∧
      (s.declared x t size mutable byDefault pos).Quiet s' := by
  obtain ⟨v, s', hv, hquiet⟩ := known_eq (τ := τ) c mutable init (s.declared x t size mutable byDefault pos)
  refine ⟨v, s', ?_, hquiet⟩
  unfold keep
  rw [bind_of_ok (declare_eq x t size mutable byDefault pos s), bind_of_ok hv]
  rfl

/-- To keep a local reports nothing and frees nothing. -/
theorem keep_spec (s : Scope) :
    ∃ s', (keep c x t size mutable byDefault pos init : Checker τ Unit) s = (.ok (), s') ∧
      s'.errors = s.errors ∧ s'.freed = s.freed := by
  obtain ⟨v, s', hkeep, hquiet⟩ := keep_eq (τ := τ) c x t size mutable byDefault pos init s
  obtain ⟨pending, heq⟩ := s.declared_eq x t size mutable byDefault pos
  rw [heq] at hquiet
  refine ⟨_, hkeep, ?_⟩
  cases v <;> exact ⟨hquiet.errors, hquiet.freed⟩

/-- Keeping a local and going on, as a declaration does. -/
theorem keep_bind (a : α) :
    (keep c x t size mutable byDefault pos init >>= fun _ => pure a : Checker τ α) =
      declare x t size mutable byDefault pos >>= fun _ =>
        match mutable, init with
        | false, some e => do
          match ← c.value? e with
          | some v => do
            modify fun s => { s with frame := s.frame.setValue x v }
            return a
          | none => return a
        | _, _ => return a := by
  unfold keep known
  rw [bind_assoc]
  congr 1
  funext _
  rw [bind_assoc]
  split
  · congr 1
    funext v
    cases v <;> rfl
  · rfl

end

/-- The type of a local, if one is written. -/
def written (c : Context) (pos : Position) (d : VarDecl) : Checker VarDecl (Option Ty) :=
  match d.type with
  | some type => some <$> c.demand d pos (·.resolve type)
  | none => pure none

/-- What comes before a local is declared: its initial value and its type, whether it has its sign by default,
and its size. -/
def prepare (c : Context) (pos : Position) (d : VarDecl) :
    Checker VarDecl ((Option Expr × Ty × Bool) × Nat) := do
  let r ← initialise c pos d (← written c pos d)
  if r.2.1 = .void then reject { d with init := r.1 } pos (.cannotInfer d.name)
  else do
    let size ← c.demand { d with init := r.1 } pos (·.sizeOf r.2.1)
    return (r, size)

/-- A declaration is prepared, kept in the frame and returned with its type. -/
theorem varDecl_eq (c : Context) (pos : Position) (d : VarDecl) :
    varDecl c pos d = (do
      let r ← prepare c pos d
      keep c d.name r.1.2.1 r.2 d.mutable r.1.2.2 pos r.1.1
      return { d with init := r.1.1, resolved := some r.1.2.1 }) := by
  unfold varDecl prepare written
  cases d.type <;>
  · simp only [bind_assoc]
    congr 1
    funext _
    congr 1
    funext r
    split
    · rfl
    · rw [bind_assoc]
      congr 1
      funext size
      rw [pure_bind]
      exact (keep_bind c _ _ _ _ _ _ _ _).symm

/-! ## What becomes of expressions -/

section

variable (c : Context) (f : Frame)

/-- What becomes of the initial value of an integer without a sign. -/
def Inferred (bits : Nat) (e : Expr) (r : Expr × Ty × Bool) : Prop :=
  ∃ signed, r.2.1 = .int bits signed ∧
    (Coerced c f (.int bits signed) r.1 e ∨ Result c f e none (r.1, .int bits signed))

/-- What becomes of the initial value of a declaration, and the type of what is declared. -/
def Initialised (init : Option Expr) (declared : Option Ty) (r : Option Expr × Ty × Bool) : Prop :=
  match init with
  | none => r.1 = none ∧ declared = some r.2.1
  | some e => ∃ e', r.1 = some e' ∧ (Result c f e none (e', r.2.1) ∨
    Coerced c f r.2.1 e' e ∧ (declared = some r.2.1 ∨ r.2.1.isInt = true))

/-- What becomes of the target of an assignment. -/
def Targeted (e : Expr) (r : Expr × Ty) : Prop :=
  r.1.isPlace = true ∧ ((∃ m x slot, e = .ident m x ∧ f.get? x = some slot ∧ r = accepted e slot.ty) ∨
    Result c f e none r)

/-- What becomes of the result of a function. -/
def Returned (e e' : Expr) : Prop :=
  c.ret ≠ .void ∧ (Coerced c f c.ret e' e ∨
    c.ret.isInt = true ∧ ∃ t, Result c f e none (e', t) ∧ t.isInt = true)

/-- What is known of a local before it is declared. -/
def Prepared (d : VarDecl) (r : Option Expr × Ty × Bool) : Prop :=
  r.2.1 ≠ .void ∧ ∃ declared, Initialised c f d.init declared r ∧
    Option.Rel (fun type t => c.symbols.ask ((c.names f).resolve type) = .ok t) d.type declared

end

/-- What a value that is refused tells about the place that it was meant for. -/
def Scope.learnFrom (l : Expr) (spoiled : Spoiled Expr) (s : Scope) : Scope :=
  match spoiled.tree.ty with
  | some t => s.learn l t
  | none => s

theorem learns_learnFrom (l : Expr) (spoiled : Spoiled Expr) (s : Scope) :
    s.Learns (s.learnFrom l spoiled) := by
  unfold Scope.learnFrom
  split
  · exact s.learns_learn l _
  · exact .refl s

namespace ExprLaws

variable {c : Context} {P : Position → Prop} {R : (τ α : Type) → Checker τ α → Prop} {e : Expr}
  (h : ExprLaws c P R)

include h

theorem condition (he : Lawful c P R e) :
    Obeys R (fun _ => True) (fun f e' => ∃ t, Result c f e (some .bool) (e', t) ∧ t.isCondition = true)
      (Check.condition c e) := by
  unfold Check.condition
  refine h.andThen (he _) fun ⟨e', t⟩ hpos => ?_
  exact h.pureIf (fun _ => trivial) hpos rfl fun ht f he' => ⟨t, he', ht⟩

/-- Only what is not to be signed has its sign by default. -/
theorem inferInt (he : Lawful c P R e) (bits : Nat) (decl : Position) :
    Obeys R (fun r => r.2.2 = true → decl ∉ c.signed) (Inferred c · bits e)
      (Check.inferInt c (Check.part c e) bits decl) := by
  unfold Check.inferInt
  refine h.andThen (h.isOpen _) fun isOpen _ => ?_
  split
  · refine h.andThen (h.intValue? _) fun n _ => h.andThen (h.coerce he _) fun e' _ => ?_
    refine h.obeys_pure (fun hr hmem => ?_) fun f he' _ _ => ⟨_, rfl, Or.inl he'⟩
    simp only [Bool.not_eq_true', Bool.or_eq_false_iff, contains_iff_mem.2 hmem] at hr
    cases hr.2
  · refine h.andThen (he none) fun ⟨e', t⟩ hpos => ?_
    dsimp only
    split
    · next b signed =>
      exact h.pureIf (fun _ hr => absurd hr Bool.false_ne_true) hpos rfl fun hb f he' _ =>
        ⟨signed, hb ▸ rfl, Or.inr (hb ▸ he')⟩
    · exact h.obeys_reject hpos rfl _

/-- Only what is declared without a sign, and is not to be signed, has its sign by default. -/
theorem initialise {pos : Position} (hpos : P pos) {d : VarDecl} (hd : ∀ e ∈ d.init, Lawful c P R e)
    (declared : Option Ty) :
    Obeys R (fun r => r.2.2 = true → pos ∈ unsigiled (.var pos d) ∧ pos ∉ c.signed)
      (Initialised c · d.init declared) (Check.initialise c pos d declared) := by
  unfold Check.initialise
  split
  · next hinit =>
    refine h.obeys_pure (fun hr => absurd hr Bool.false_ne_true) fun f => ?_
    rw [hinit]
    exact ⟨rfl, rfl⟩
  · exact h.obeys_reject hpos rfl _
  · next e hinit =>
    refine h.andThen (h.inside _ (hd e hinit none)) fun ⟨e', t⟩ _ => ?_
    refine h.obeys_pure (fun hr => absurd hr Bool.false_ne_true) fun f he' => ?_
    rw [hinit]
    exact ⟨e', rfl, Or.inl he'⟩
  · next e t hinit =>
    split
    · next bits _ hopen =>
      refine h.andThen (h.inside _ (h.inferInt (hd e hinit) bits pos)) fun ⟨e', t', byDefault⟩ hsigned => ?_
      refine h.obeys_pure (fun hr => ⟨by simp [unsigiled, hopen, hinit], hsigned hr⟩) fun f he' => ?_
      obtain ⟨signed, rfl, hcoerced | hresult⟩ := he'
      · rw [hinit]
        exact ⟨e', rfl, Or.inr ⟨hcoerced, Or.inr rfl⟩⟩
      · rw [hinit]
        exact ⟨e', rfl, Or.inl hresult⟩
    · refine h.andThen (h.inside _ (h.coerce (hd e hinit) _)) fun e' _ => ?_
      refine h.obeys_pure (fun hr => absurd hr Bool.false_ne_true) fun f he' => ?_
      rw [hinit]
      exact ⟨e', rfl, Or.inr ⟨he', Or.inl rfl⟩⟩

/-- A bare name that is assigned is not read. -/
theorem target (hpos : P e.pos) (he : (∀ m x, e ≠ .ident m x) → Lawful c P R e) :
    Obeys R (fun _ => True) (Targeted c · e) (Check.target c e) := by
  unfold Check.target
  split
  · -- A bare name needs to be a variable that can be changed.
    next m x =>
    refine h.looking (fun s s' hs => ?_) fun s => ?_
    · rcases get?_of_sight hs x with ⟨hf, hf'⟩ | ⟨slot, slot', hf, hf', hty, hmutable, -⟩
      · rw [hf, hf']
      · simp only [hf, hf', hty, hmutable]
    · split
      · next slot hslot =>
        split
        · exact h.obeys_pure trivial fun f hs => ⟨rfl, Or.inl ⟨m, x, slot, rfl, hs ▸ hslot, rfl⟩⟩
        · exact h.obeys_reject hpos rfl _
      · split
        · exact h.obeys_reject hpos rfl _
        · exact h.obeys_reject hpos rfl _
  · next hbare =>
    refine h.andThen (he hbare none) fun ⟨e', t⟩ hpos' => ?_
    have hend : Obeys R (fun _ => True) (fun f r => Result c f e none (e', t) → Targeted c f e r)
        (if e'.isPlace then Pure.pure (e', t) else Check.reject e' e'.pos .notAddressable) :=
      h.pureIf (fun _ => trivial) hpos' rfl fun hplace f he' => ⟨hplace, Or.inr he'⟩
    dsimp only
    split
    · -- The variable that it is a part of has to be one that can be changed.
      next x _ =>
      refine h.looking (fun s s' hs => ?_) fun s => ?_
      · rcases get?_of_sight hs x with ⟨hf, hf'⟩ | ⟨slot, slot', hf, hf', -, hmutable, -⟩
        · rw [hf, hf']
        · simp only [hf, hf', hmutable]
      · split
        · split
          · exact hend.mono fun f r hr _ => hr
          · exact h.reject_bind hpos' rfl _ _
        · exact hend.mono fun f r hr _ => hr
    · exact hend

/-- The value of an assignment. Something may be learned from it even if it is refused. -/
theorem assigned (he : Lawful c P R e) (l : Expr) (t : Ty) :
    Obeys R (fun _ => True) (Coerced c · t · e)
      (tryCatch (Check.coerce c (Check.part c e) t) fun spoiled => do
        match spoiled.tree.ty with
        | some rt => modify (·.learn l rt)
        | none => Pure.pure ()
        throw spoiled) := by
  have hcoerce := h.coerce he t
  have hlearns := learns_learnFrom l
  refine Eq.mp ?_ (Obeys.mk (h.pass hcoerce.holds hlearns) (returns_any _) fun f =>
    Checks.tryCatch (hcoerce.checks f) fun spoiled =>
      (Checks.modify fun s => (hlearns spoiled s).toQuiet).bind fun _ _ s _ => ends_throw (.refl s))
  congr 2
  funext spoiled s
  unfold Scope.learnFrom
  cases spoiled.tree.ty <;> rfl

/-- What is returned is checked as the result type of the function demands. -/
theorem result (he : Lawful c P R e) :
    Obeys R (fun _ => True) (Returned c · e) (if c.ret = .void ∨ c.ret.isInt then do
        let (e, t) ← Check.expr c e none
        if c.ret.isInt && t.isInt then return e else Check.reject e e.pos (mismatch c.ret t)
      else Check.coerce c (Check.part c e) c.ret) := by
  split
  · refine h.andThen (he none) fun ⟨e', t⟩ hpos => ?_
    refine h.pureIf (fun _ => trivial) hpos rfl fun hint f he' => ?_
    rw [Bool.and_eq_true] at hint
    refine ⟨fun hv => ?_, Or.inr ⟨hint.1, t, he', hint.2⟩⟩
    simp [hv, Ty.isInt] at hint
  · next hn => exact (h.coerce he _).mono fun f e' he' => ⟨fun hv => hn (Or.inl hv), Or.inl he'⟩

/-- What comes before a declaration. -/
theorem prepare (pos : Position) (hpos : P pos) {d : VarDecl} (hd : ∀ e ∈ d.init, Lawful c P R e) :
    Obeys R (fun r => r.1.2.2 = true → pos ∈ unsigiled (.var pos d) ∧ pos ∉ c.signed)
      (fun f r => Prepared c f d r.1) (Check.prepare c pos d) := by
  have hwritten : Obeys R (fun _ => True) (fun f declared => Option.Rel
      (fun type t => c.symbols.ask ((c.names f).resolve type) = .ok t) d.type declared)
      (Check.written c pos d) := by
    unfold Check.written
    cases d.type with
    | none => exact h.obeys_pure trivial fun f => .none
    | some type =>
      refine h.andThen (h.asking hpos d fun _ hnames => sober_of_keeps (Names.keeps_resolve hnames type)) ?_
      exact fun t _ => h.obeys_pure trivial fun f ht => .some ht
  unfold Check.prepare
  refine h.andThen hwritten fun declared _ => h.andThen (h.initialise hpos hd declared) fun r hr => ?_
  split
  · exact h.obeys_reject hpos rfl _
  · next hv =>
    refine h.andThen (h.asking hpos _ fun _ hnames => sober_of_keeps (Names.keeps_sizeOf hnames _)) ?_
    exact fun size _ => h.obeys_pure hr fun f _ hr' hdeclared => ⟨hv, declared, hr', hdeclared⟩

end ExprLaws

/-! ## Without a property -/

section

variable (c : Context) (f : Frame) (e : Expr)

theorem checks_condition :
    Checks f (fun e' => ∃ t, Result c f e (some .bool) (e', t) ∧ t.isCondition = true) (condition c e) :=
  ((exprLaws_any c).condition (lawful_any c e)).checks f

theorem checks_inferInt (bits : Nat) (decl : Position) :
    Checks f (Inferred c f bits e) (inferInt c (part c e) bits decl) :=
  ((exprLaws_any c).inferInt (lawful_any c e) bits decl).checks f

theorem checks_target : Checks f (Targeted c f e) (target c e) :=
  ((exprLaws_any c).target trivial fun _ => lawful_any c e).checks f

theorem checks_prepare (pos : Position) (d : VarDecl) :
    Checks f (fun r => Prepared c f d r.1) (prepare c pos d) :=
  ((exprLaws_any c).prepare _ trivial fun e _ => lawful_any c e).checks f

end

end Sigil.Check
