import Sigil.Proofs.Lowering.Forms
import Sigil.Proofs.Typing.Scope

/-!
# Code for well-typed expressions

Code generation for a well-typed expression has nothing to complain about but objects that are too
large (`Code.sound_lower`): every node has a type, every local is in scope, places have addresses, and
fields and functions are in the table. Generating the code of an expression may take slots, but it opens
and closes no scopes and names nothing.
-/

namespace Sigil

open Attempt List Typing

variable {t : Symbols}

/-! ## Sizes of types that exist -/

/-- An object is too large, which is the only error that is left for code generation. -/
def Error.TooLarge (e : Error) : Prop :=
  ∃ pos n what, e = .type ⟨pos, .outOfRange n what⟩ ∧ (maxObject : Int) < n

/-- A type that exists has a size, unless some array in it is too large. -/
theorem Symbols.Complete.sizeOf_apply (h : t.Complete) {ty : Ty}
    (hty : ty.Defined t.kind) :
    (∃ n, t.names.sizeOf ty t.memo = (.ok n, t.memo)) ∨
      ∃ n what, t.names.sizeOf ty t.memo = (.error (.error (.outOfRange n what)), t.memo) ∧
        (maxObject : Int) < n := by
  induction ty with
  | array length elem ih =>
    rw [Names.sizeOf]
    rcases ih hty with ⟨size, hsize⟩ | ⟨n, what, hsize, hn⟩
    · rw [bind_of_ok hsize]
      by_cases hle : length * size ≤ maxObject
      · exact Or.inl ⟨length * size, by simp [hle]⟩
      · refine Or.inr ⟨(length * size : Nat), "array size", ?_, by omega⟩
        simp only [hle, if_false]
        rfl
    · rw [bind_of_error hsize]
      exact Or.inr ⟨n, what, rfl, hn⟩
  | struct x =>
    obtain ⟨l, hl, -⟩ := h.layout_apply hty
    exact Or.inl ⟨l.size, bind_of_ok hl⟩
  | _ => exact Or.inl ⟨_, rfl⟩

/-- An aggregate can only be stored where one of its own type is expected. -/
theorem Ty.eq_of_isAggregate {t u : Ty} (ht : t.isAggregate = true) (h : t.assignable u = true) :
    u = t := by
  have hp : t.isPtr = false ∧ t ≠ .ptr .void ∧ t ≠ .str ∧ t ≠ .ptr .char := by
    cases t <;> simp [isAggregate, isPtr] at ht ⊢
  have heq : t = u := by simpa [assignable_iff, hp] using h
  exact heq.symm

/-- A field of a layout is found by its name. -/
theorem Layout.Sound.field? {kind : String → Option SymbolKind} {l : Layout} (h : l.Sound kind)
    {f : Field} (hf : f ∈ l.fields) : l.field? f.name = some f := by
  have hnodup := h.distinct
  unfold Layout.field?
  generalize l.fields = fields at hf hnodup
  induction fields with
  | nil => exact nomatch hf
  | cons g fields ih =>
    rw [map_cons, nodup_cons] at hnodup
    rcases mem_cons.1 hf with rfl | hf
    · simp
    · have hne : g.name ≠ f.name := fun heq => hnodup.1 (heq ▸ mem_map_of_mem hf)
      rw [find?_cons_of_neg (by simpa using hne)]
      exact ih hf hnodup.2

theorem Symbols.settled_eq_ok {α : Type} {q : Eval α} {a : α} :
    t.settled q = .ok a ↔ t.ask q = .ok a := by
  unfold settled
  split <;> simp_all

/-! ## Parts of well-typed expressions -/

namespace Expr.Typed

variable {T : Symbols} {Γ : Env} {m : Mark}

theorem defined {e : Expr} {t : Ty} (h : e.Typed T Γ) (ht : e.ty = some t) : t.Defined T.kind := by
  obtain ⟨u, hu, hdefined⟩ := h.node.ty
  exact Option.some.inj (hu.symm.trans ht) ▸ hdefined

/-- What a struct literal gives are fields of the struct, and values that fit them. -/
theorem field (hT : T.Complete) {given : List (String × Expr)} {y : String} {l : Layout}
    (h : (Expr.structLit m given).Typed T Γ) (hm : m.ty = some (.struct y)) (hl : T.ask (T.layout y) = .ok l)
    {g : String × Expr} (hg : g ∈ given) : ∃ f ∈ l.fields, l.field? g.1 = some f ∧ Fits f.ty g.2 := by
  obtain ⟨l', hl', hsound⟩ := hT.layout (h.defined (e := .structLit m given) hm)
  cases h.node.rule with
  | structLit hlayout hfields hty =>
    cases hty.symm.trans hm
    cases hlayout.symm.trans hl
    cases hl.symm.trans hl'
    -- The fields are distinct, so the one with this name is the one that was checked.
    obtain ⟨f, hf, hname, hfit⟩ := forall₂_left hfields hg
    exact ⟨f, hf, hname ▸ hsound.field? hf, hfit⟩

theorem elem {es : List Expr} {k : Nat} {u : Ty} (h : (Expr.arrayLit m es).Typed T Γ)
    (hm : m.ty = some (.array k u)) : k = es.length ∧ ∀ e ∈ es, Fits u e := by
  cases h.node.rule with
  | arrayLit hes hty =>
    cases hty.symm.trans hm
    exact ⟨rfl, hes⟩

end Expr.Typed

namespace Typing

variable {e : Expr}

theorem fits_of_ty {t : Ty} (h : e.ty = some t) : Fits t e :=
  ⟨t, h, Ty.assignable_iff.2 (Or.inl rfl)⟩

theorem Fits.ty {t : Ty} (h : Fits t e) (ht : t.isAggregate = true) : e.ty = some t := by
  obtain ⟨u, hu, hassign⟩ := h
  exact Ty.eq_of_isAggregate ht hassign ▸ hu

end Typing

namespace Code

variable {site : Site} {f : Frame} {α β : Type}
variable {t : Ty} {e : Expr} {args : List Lowered} {x : Emit Machine.Block}

/-! ## Generation that leaves the scopes alone -/

/-- With the scopes of `f` open, something is generated that satisfies `Q` or some object is too large,
and the scopes stay as they are. -/
def Emits (f : Frame) (Q : α → Prop) (x : Emit α) : Prop :=
  ∀ s : Emission, s.frame.scopes = f.scopes →
    x.Ends s (fun a s' => s'.frame.scopes = f.scopes ∧ Q a)
      (fun e s' => s'.frame.scopes = f.scopes ∧ e.TooLarge)

/-- Something is generated. -/
abbrev Generates (f : Frame) (x : Emit α) : Prop :=
  Emits f (fun _ => True) x

namespace Emits

variable {P Q : α → Prop} {R : β → Prop}

theorem pure {a : α} (h : Q a) : Emits f Q (pure a : Emit α) :=
  fun _ hs => ends_pure ⟨hs, h⟩

theorem bind {x : Emit α} {k : α → Emit β} (hx : Emits f P x)
    (hk : ∀ a, P a → Emits f R (k a)) : Emits f R (x >>= k) := by
  intro s hs
  refine ends_bind ((hx s hs).mono ?_ fun _ _ he => he)
  rintro a s' ⟨hs', ha⟩
  exact hk a ha s' hs'

/-- A last step that only combines what has been generated. -/
theorem map {x : Emit α} {k : α → β} (hx : Emits f P x) :
    Generates f (x >>= fun a => Pure.pure (k a)) :=
  hx.bind fun _ _ => .pure trivial

theorem typed {ty : Option Ty} {t : Ty} {k : Ty → Emit β} (h : ty = some t)
    (hk : Emits f R (k t)) : Emits f R (typed ty >>= k) := by
  subst h
  exact hk

end Emits

/-- A defined type has a size, unless it is too large. -/
theorem generates_sizeOf (hT : site.symbols.Complete) (ht : t.Defined site.symbols.kind)
    (pos : Position) : Generates f (site.sizeOf pos t) := by
  intro s hs
  unfold Site.sizeOf Symbols.settled Symbols.ask
  rcases hT.sizeOf_apply ht with ⟨n, hn⟩ | ⟨n, what, hn, hlt⟩
  · rw [hn]
    exact ends_pure ⟨hs, trivial⟩
  · rw [hn]
    exact ends_throw ⟨hs, pos, n, what, rfl, hlt⟩

theorem generates_temp (size : Nat) : Generates f (temp size) :=
  fun _ hs => ⟨hs, trivial⟩

theorem generates_routine (r : Routine) : Generates f (routine r) :=
  fun _ hs => ⟨hs, trivial⟩

theorem generates_label (what : String) : Generates f (site.label what) :=
  fun _ hs => ⟨hs, trivial⟩

/-! ## The code of an expression -/

/-- The code of an expression can be generated wherever the expression can stand: its value, its
address if it is a place, and the whole of it built into the frame. -/
structure Lowered.Sound (f : Frame) (e : Expr) (l : Lowered) : Prop where
  ty : l.ty = e.ty
  value : Generates f l.value
  address : e.isPlace = true → Generates f l.address
  build : ∀ {t : Ty}, e.ty = some t → ∀ offset, Generates f (l.build t offset)

/-- Whatever can be stored as a `t` can be written into a slot for one. -/
theorem Lowered.Sound.initialise {l : Lowered} (h : l.Sound f e)
    (hfit : Fits t e) (offset : Int) : Generates f (l.initialise t offset) := by
  unfold Lowered.initialise
  split
  case isTrue ht => exact h.build (hfit.ty ht) offset
  case isFalse => exact h.value.map

/-! ## Calls -/

/-- Arguments are pushed one by one, which leaves the scopes as they are. -/
theorem generates_pushArgs (hT : site.symbols.Complete) {args : List (Lowered × Ty)}
    (h : ∀ a ∈ args, Generates f a.1.value ∧ a.2.Defined site.symbols.kind) (pos : Position) :
    Generates f (pushArgs site pos args) := by
  induction args with
  | nil => exact .pure trivial
  | cons a args ih =>
    obtain ⟨l, t⟩ := a
    obtain ⟨hvalue, ht⟩ := h (l, t) mem_cons_self
    have hrest : Generates f (pushArgs site pos args) :=
      ih fun a ha => h a (mem_cons_of_mem _ ha)
    rw [pushArgs]
    split
    · exact (generates_sizeOf hT ht pos).bind fun _ _ => hvalue.bind fun _ _ => hrest.map
    · exact hvalue.bind fun _ _ => hrest.map

theorem generates_pushResult (hT : site.symbols.Complete)
    (ht : t.Defined site.symbols.kind) (pos : Position) : Generates f (pushResult site pos t) := by
  unfold pushResult
  split
  · exact (generates_sizeOf hT ht pos).bind fun size _ => (generates_temp size).map
  · exact .pure trivial

theorem generates_pushAll (h : ∀ l ∈ args, Generates f l.value) :
    Generates f (pushAll args) := by
  induction args with
  | nil => exact .pure trivial
  | cons l args ih =>
    refine (h l mem_cons_self).bind fun _ _ => ?_
    exact (ih fun l hl => h l (mem_cons_of_mem _ hl)).map

theorem generates_routineCall (h : ∀ l ∈ args, Generates f l.value)
    (r : Routine) : Generates f (routineCall r args) :=
  (generates_pushAll h).bind fun _ _ => (generates_routine r).map

/-! ## All forms -/

/-- What is known of a well-typed expression where the scopes of `f` are open. -/
def Ground.typed (site : Site) (f : Frame) : Ground where
  expr := Expr.Typed site.symbols f.env
  type := Ty.Defined site.symbols.kind
  fits := Fits
  room _ _ _ := True
  state s := s.frame.scopes = f.scopes
  fault e s := s.frame.scopes = f.scopes ∧ e.TooLarge

/-- The scopes are the same as before. -/
def SameScopes (s : Emission) (_ : Machine.Block) (s' : Emission) : Prop :=
  s'.frame.scopes = s.frame.scopes

theorem Gives.generates (h : Gives (.typed site f) SameScopes x) : Generates f x :=
  fun s hs => (h s hs).mono (fun _ _ ha => ⟨ha.trans hs, trivial⟩) fun _ _ he => he

theorem Emits.gives (h : Generates f x) : Gives (.typed site f) SameScopes x :=
  fun s hs => (h s hs).mono (fun _ _ ha => ha.1.trans hs.symm) fun _ _ he => he

/-- The table has the signature of the callee, and all arguments have sizes. -/
theorem generates_call (hT : site.symbols.Complete) {m : Mark} {callee : Expr} {args : List Expr}
    (h : (Expr.call m callee args).Typed site.symbols f.env)
    (hargs : ∀ a ∈ args, Generates f (lower site a).value) :
    Generates f (lower site (.call m callee args)).value := by
  cases h.node.rule with
  | @call _ _ _ _ sig _ hsig _ hm =>
    have hdefined : sig.Defined site.symbols.kind := hT.funcs hsig
    have hpairs : ∀ a ∈ ((args.map (lower site)).zip (sig.params.map (·.2))).reverse,
        Generates f a.1.value ∧ a.2.Defined site.symbols.kind := by
      rintro ⟨l, t⟩ ha
      obtain ⟨hl, ht⟩ := of_mem_zip (mem_reverse.1 ha)
      obtain ⟨e, he, rfl⟩ := mem_map.1 hl
      obtain ⟨p, hp, rfl⟩ := mem_map.1 ht
      exact ⟨hargs e he, hdefined.params p hp⟩
    rw [lower, lowerAll_eq]
    refine .typed hm ?_
    dsimp only
    rw [hsig]
    exact (generates_pushArgs hT hpairs m.pos).bind fun _ _ =>
      (generates_pushResult hT hdefined.ret m.pos).map

/-- A well-typed expression is not stuck. -/
theorem not_stuck (hT : site.symbols.Complete) {s : Emission} (h : e.Typed site.symbols f.env)
    (hs : s.frame.scopes = f.scopes) : ¬ Stuck site s e := by
  intro hstuck
  cases hstuck with
  | untyped hnone =>
    obtain ⟨t, ht, -⟩ := h.node.ty
    cases hnone.symm.trans ht
  | @name _ x hnone =>
    cases h.node.rule with
    | ident hx =>
      -- The frame and its scopes agree on every name.
      have hget : s.frame.get? x = f.get? x := congrArg (Frame.find? x) hs
      unfold Frame.env at hx
      rw [← hget, hnone] at hx
      cases hx
  | member ht hno =>
    cases h.node.rule with
    | member hty hlayout hfield =>
      cases hty.symm.trans ht
      exact hno _ _ _ rfl (Symbols.settled_eq_ok.2 hlayout) hfield
  | structLit ht hno =>
    cases h.node.rule with
    | structLit hlayout _ hty =>
      cases hty.symm.trans ht
      obtain ⟨g, hg, hnone⟩ := hno _ _ rfl (Symbols.settled_eq_ok.2 hlayout)
      obtain ⟨f, -, hf, -⟩ := h.field hT hty hlayout hg
      cases hnone.symm.trans hf
  | arrayLit ht hno =>
    cases h.node.rule with
    | arrayLit _ hty =>
      cases hty.symm.trans ht
      exact hno _ _ rfl
  | sizeof => cases h.node.rule

/-- The code of a well-typed expression is generated without a change of scopes. -/
theorem codeLaws_scopes (hT : site.symbols.Complete) (f : Frame) :
    CodeLaws site (.typed site f) SameScopes where
  child h hc := h.child hc
  typed h ht := ⟨h.defined ht, fits_of_ty ht⟩
  aggregate h ht := Or.inl (h.ty ht)
  word := trivial
  field := by
    intro m given y l h hfits hl g hg f hf
    have hm := hfits.ty rfl
    obtain ⟨f', hmem, hf', hfit⟩ := h.field hT hm (Symbols.settled_eq_ok.1 hl) hg
    cases hf.symm.trans hf'
    obtain ⟨l', hl', hsound⟩ := hT.layout (h.defined (e := .structLit m given) hm)
    cases (Symbols.settled_eq_ok.1 hl).symm.trans hl'
    exact ⟨hsound.defined _ hmem, hfit, fun _ _ _ => trivial⟩
  elem := by
    intro m es k u h hfits
    have hm := hfits.ty rfl
    have hdefined : (Ty.array k u).Defined site.symbols.kind := h.defined hm
    exact ⟨hdefined, (h.elem hm).2, fun _ _ _ _ _ _ _ => trivial⟩
  stuck h hs hstuck := absurd hstuck (not_stuck hT h hs)
  place := by
    intro m e h
    cases h.node.rule with
    | addrOf hp => exact Or.inl hp
  large := by
    intro s t e pos hs ht he
    have hends := generates_sizeOf (f := f) hT ht pos s hs
    unfold Site.sizeOf at hends
    rw [he] at hends
    exact hends
  keeps h hs := h.trans hs
  later _ _ _ := trivial
  taken _ _ _ := trivial
  plain _ := rfl
  slot _ _ := rfl
  name _ := rfl
  offset _ _ _ := rfl
  append h h' := h'.trans h
  temp _ _ := rfl
  text _ _ := rfl
  routine _ _ := rfl
  number hs := hs
  logic _ h h' := h'.trans h
  kept _ h := h
  call h hargs := (generates_call hT h fun a ha => (hargs a ha).value.generates).gives
  service _ _ _ h r :=
    (generates_routineCall (forall_mem_map.2 fun a ha => (h a ha).value.generates) r).gives

/-- The code of a well-typed expression can be generated. -/
theorem sound_lower (hT : site.symbols.Complete) (h : e.Typed site.symbols f.env) :
    (lower site e).Sound f e := by
  have hgives := (codeLaws_scopes hT f).gives_lower h
  refine ⟨hgives.ty, hgives.value.generates, fun hp => (hgives.address (Or.inl hp)).generates, ?_⟩
  intro t ht offset
  have hbuild : Gives (.typed site f) SameScopes ((lower site e).build t offset) := fun _ hs =>
    hgives.build (h.defined ht) (fits_of_ty ht) hs trivial
  exact hbuild.generates

end Code

end Sigil
