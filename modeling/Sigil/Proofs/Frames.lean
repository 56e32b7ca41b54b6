import Mathlib.Data.Int.ConditionallyCompleteOrder
import Mathlib.Data.List.Forall2
import Mathlib.Order.CompletePartialOrder
import Mathlib.Order.ConditionallyCompleteLattice.Basic
import Mathlib.Order.Interval.Set.Disjoint
import Sigil.Frame

/-!
# Frames are allocated soundly

Any operations on a frame, one after another (`Frame.Op`), as long as no number is cut off at the end of
its range (`Frame.Op.Exact`, `Frame.ArgsExact`): the objects that get slots lie apart from one another, at
multiples of eight, inside the frame. The arguments lie above, in order and side by side. A name means its
latest binding in the innermost open scope that has one (`Frame.Bindings`), and the bindings of a scope
that has closed are gone (`Frame.allocation_sound`).
-/

namespace Sigil

/-! ## Slots by name -/

namespace Assoc

variable {β : Type} {key : String} {value : β} {m : Assoc β}

theorem mem_of_get? (h : m.get? key = some value) : (key, value) ∈ m := by
  induction m with
  | nil => cases h
  | cons kv rest ih =>
    obtain ⟨k, w⟩ := kv
    rw [get?] at h
    split at h
    · next hk =>
      obtain rfl := Option.some.inj h
      exact hk ▸ List.mem_cons_self
    · exact List.mem_cons_of_mem _ (ih h)

theorem mem_put {kv : String × β} (h : kv ∈ put key value m) : kv = (key, value) ∨ kv ∈ m := by
  induction m with
  | nil => exact Or.inl (List.mem_singleton.1 h)
  | cons kv' rest ih =>
    obtain ⟨k, v⟩ := kv'
    rw [put] at h
    split at h
    · next hk =>
      rcases List.mem_cons.1 h with h | h
      · exact Or.inl (hk ▸ h)
      · exact Or.inr (List.mem_cons_of_mem _ h)
    · rcases List.mem_cons.1 h with h | h
      · exact Or.inr (h ▸ List.mem_cons_self)
      · exact (ih h).imp id (List.mem_cons_of_mem _)

end Assoc

namespace Frame

variable {offset : Int} {args : List (String × Ty × Nat)} {b : Bindings} {slots : Assoc Slot} {e : Extent}

theorem mem_of_find? {x : String} {slot : Slot} {scopes : List (Assoc Slot)}
    (h : find? x scopes = some slot) : ∃ scope ∈ scopes, (x, slot) ∈ scope := by
  induction scopes with
  | nil => cases h
  | cons scope rest ih =>
    rw [find?] at h
    split at h
    · next hx =>
      obtain rfl := Option.some.inj h
      exact ⟨scope, List.mem_cons_self, Assoc.mem_of_get? hx⟩
    · obtain ⟨scope', hmem, hx⟩ := ih h
      exact ⟨scope', List.mem_cons_of_mem _ hmem, hx⟩

/-! ## The low end -/

/-- The frame grows downwards from the frame pointer, and not beyond the least offset. -/
structure Bounded (f : Frame) : Prop where
  least : minOffset ≤ f.low
  nonpos : f.low ≤ 0

theorem span_nonneg (size : Nat) : 0 ≤ span size := by
  unfold span maxOffset
  omega

theorem span_pos (size : Nat) : 0 < span (max size 1) := by
  unfold span round8 maxSize maxOffset
  omega

theorem Bounded.temp {f : Frame} (h : f.Bounded) (size : Nat) :
    (f.temp size).2.Bounded ∧ (f.temp size).2.low ≤ f.low := by
  have hspan := span_nonneg (max size 1)
  have hleast := h.least
  have hnonpos := h.nonpos
  unfold minOffset at hleast
  have hlow : (f.temp size).2.low = max (f.low - span (max size 1)) (-0x8000000000000000) := rfl
  refine ⟨⟨?_, ?_⟩, ?_⟩
  · unfold minOffset
    omega
  · omega
  · omega

/-! ## Operations -/

/-- What can be done to a frame. -/
inductive Op where
  | enter
  | leave
  | temp (size : Nat)
  | push (x : String) (ty : Ty) (size : Nat) (mutable : Bool)
  | setValue (x : String) (value : Constant)

/-- The place of an object: the offset of its first byte, and its size. -/
structure Extent where
  offset : Int
  size : Nat
deriving DecidableEq

/-- The bytes of an object. -/
def Extent.bytes (e : Extent) : Set Int :=
  Set.Ico e.offset (e.offset + e.size)

/-- An object that ends before another one starts. -/
def Extent.Before (e e' : Extent) : Prop :=
  e.offset + e.size ≤ e'.offset

theorem Extent.Before.disjoint {e' : Extent} (h : e.Before e') : Disjoint e.bytes e'.bytes :=
  Set.disjoint_left.2 fun _ hb hb' => absurd (hb'.1.trans_lt hb.2) (not_lt.2 h)

/-- The size is rounded up to a multiple of eight, and the result is an offset. -/
def RoundsExactly (size : Nat) : Prop :=
  size + 7 ≤ maxSize ∧ round8 size ≤ maxOffset

instance (size : Nat) : Decidable (RoundsExactly size) :=
  inferInstanceAs (Decidable (size + 7 ≤ maxSize ∧ round8 size ≤ maxOffset))

theorem RoundsExactly.span_eq {size : Nat} (h : RoundsExactly size) :
    span size = (size + 7) / 8 * 8 := by
  obtain ⟨hsize, hround⟩ := h
  unfold span
  rw [min_eq_left hround, round8, min_eq_left hsize]
  simp

namespace Op

/-- The frame after an operation. -/
def run (f : Frame) : Op → Frame
  | enter => f.enter
  | leave => f.leave
  | temp size => (f.temp size).2
  | push x ty size mutable => (f.push x ty size mutable).2
  | setValue x value => f.setValue x value

/-- The object that an operation takes a slot for, at the offset that it answers. -/
def extent? (f : Frame) : Op → Option Extent
  | temp size => some ⟨(f.temp size).1, size⟩
  | push x ty size mutable => some ⟨(f.push x ty size mutable).1, size⟩
  | _ => none

/-- No number is cut off when the operation takes a slot. -/
def Exact (f : Frame) : Op → Prop
  | temp size | push _ _ size _ => RoundsExactly (max size 1) ∧ minOffset ≤ f.low - span (max size 1)
  | _ => True

instance (f : Frame) : (op : Op) → Decidable (op.Exact f)
  | temp size | push _ _ size _ =>
    inferInstanceAs (Decidable
      (RoundsExactly (max size 1) ∧ minOffset ≤ f.low - span (max size 1)))
  | enter | leave | setValue _ _ => .isTrue trivial

end Op

/-- The frame after some operations. -/
def run (f : Frame) (ops : List Op) : Frame :=
  ops.foldl Op.run f

/-- The objects that some operations take slots for, in order. -/
def extents : Frame → List Op → List Extent
  | _, [] => []
  | f, op :: ops => (op.extent? f).toList ++ extents (op.run f) ops

/-- No number is cut off in the course of some operations. -/
def Exact : Frame → List Op → Prop
  | _, [] => True
  | f, op :: ops => op.Exact f ∧ Exact (op.run f) ops

instance Exact.decide : (f : Frame) → (ops : List Op) → Decidable (Exact f ops)
  | _, [] => .isTrue trivial
  | f, op :: ops =>
    have := Exact.decide (op.run f) ops
    inferInstanceAs (Decidable (op.Exact f ∧ Exact (op.run f) ops))

/-! ## Slots -/

/-- The slots that have been taken lie apart, each in the frame and at a multiple of eight. -/
structure Apart (f : Frame) (taken : List Extent) : Prop where
  bounded : f.Bounded
  aligned : 8 ∣ f.low
  pairwise : taken.Pairwise fun e e' => e'.Before e
  inside : ∀ e ∈ taken, 8 ∣ e.offset ∧ f.low ≤ e.offset ∧ e.offset + e.size ≤ 0

variable {f : Frame} {taken : List Extent}

/-- A new slot lies just below all others. -/
theorem Apart.take (h : f.Apart taken) {size : Nat} (hround : RoundsExactly (max size 1))
    (hleast : minOffset ≤ f.low - span (max size 1)) {f' : Frame} (hf' : f'.low = (f.temp size).1) :
    f'.Apart (taken ++ [⟨(f.temp size).1, size⟩]) := by
  have hspan := hround.span_eq
  have hoffset : (f.temp size).1 = f.low - span (max size 1) := max_eq_left hleast
  have hnonpos := h.bounded.nonpos
  have haligned := h.aligned
  rw [hoffset] at hf' ⊢
  refine ⟨⟨hf' ▸ hleast, by omega⟩, by omega, ?_, ?_⟩
  · refine List.pairwise_append.2 ⟨h.pairwise, List.pairwise_singleton _ _, fun e he e' he' => ?_⟩
    obtain rfl := List.mem_singleton.1 he'
    have hlow := (h.inside e he).2.1
    unfold Extent.Before
    dsimp only
    omega
  · intro e he
    rcases List.mem_append.1 he with he | he
    · -- What was there lies above the new extent.
      obtain ⟨hmultiple, hlow, hend⟩ := h.inside e he
      exact ⟨hmultiple, by omega, hend⟩
    · obtain rfl := List.mem_singleton.1 he
      dsimp only
      omega

/-- What an operation does to the slots. -/
theorem Apart.step (h : f.Apart taken) {op : Op} (hop : op.Exact f) :
    (op.run f).Apart (taken ++ (op.extent? f).toList) := by
  cases op with
  | temp size => exact h.take hop.1 hop.2 rfl
  | push x ty size mutable => exact h.take hop.1 hop.2 rfl
  | enter | leave | setValue =>
    refine (List.append_nil taken).symm ▸ ?_
    exact ⟨⟨h.bounded.least, h.bounded.nonpos⟩, h.aligned, h.pairwise, h.inside⟩

theorem Apart.steps (h : f.Apart taken) {ops : List Op} (hops : Exact f ops) :
    (run f ops).Apart (taken ++ extents f ops) := by
  induction ops generalizing f taken with
  | nil => simpa [run, extents] using h
  | cons op ops ih =>
    have hrest := ih (h.step hops.1) hops.2
    rwa [List.append_assoc] at hrest

/-- The size of a frame covers all of it. -/
theorem Bounded.neg_size_le (h : f.Bounded) : -(f.size : Int) ≤ f.low := by
  have hleast := h.least
  have hnonpos := h.nonpos
  unfold minOffset at hleast
  unfold size maxSize
  omega

/-! ## Arguments -/

/-- The offset of the first argument: a pointer for the result comes before it. -/
def firstArg (hiddenResult : Bool) : Int :=
  if hiddenResult then 24 else 16

/-- The places of arguments, side by side from the given offset on. -/
def argExtents (offset : Int) : List (String × Ty × Nat) → List Extent
  | [] => []
  | (_, _, size) :: args => ⟨offset, size⟩ :: argExtents (offset + ((size + 7) / 8 * 8 : Nat)) args

/-- A property of slots that holds of those of arguments. -/
theorem forall_argSlots {P : Slot → Prop} (hP : ∀ t offset, 0 ≤ offset → P ⟨t, true, offset, none⟩)
    (hoffset : 0 ≤ offset) (args : List (String × Ty × Nat))
    (h : ∀ p ∈ slots, P p.2) : ∀ p ∈ argSlots offset args slots, P p.2 := by
  induction args generalizing offset slots with
  | nil => exact h
  | cons arg args ih =>
    obtain ⟨x, t, size⟩ := arg
    have hspan := span_nonneg size
    have hnext : 0 ≤ min (offset + span size) maxOffset := by
      unfold maxOffset
      omega
    refine ih hnext fun p hp => ?_
    rcases Assoc.mem_put hp with rfl | hp
    · exact hP t offset hoffset
    · exact h p hp

/-- The slots of arguments, side by side from the given offset on. -/
def sideBySide (offset : Int) : List (String × Ty × Nat) → List (String × Slot)
  | [] => []
  | (x, ty, size) :: args =>
    (x, ⟨ty, true, offset, none⟩) :: sideBySide (min (offset + span size) maxOffset) args

/-- Arguments with names of their own get slots side by side. -/
theorem argSlots_eq
    (hdistinct : (args.map (·.1)).Nodup) (hnew : ∀ a ∈ args, slots.has a.1 = false) :
    argSlots offset args slots = slots ++ sideBySide offset args := by
  induction args generalizing slots offset with
  | nil => exact (List.append_nil slots).symm
  | cons arg args ih =>
    obtain ⟨x, ty, size⟩ := arg
    rw [List.map_cons, List.nodup_cons] at hdistinct
    have hnew' : ∀ a ∈ args, Assoc.has a.1 (slots ++ [(x, Slot.mk ty true offset none)]) = false := by
      intro a ha
      have hold := hnew a (List.mem_cons_of_mem _ ha)
      have hne : x ≠ a.1 := fun hx => hdistinct.1 (List.mem_map.2 ⟨a, ha, hx.symm⟩)
      unfold Assoc.has at hold ⊢
      rw [Option.isSome_eq_false_iff, Option.isNone_iff_eq_none] at hold ⊢
      rw [Assoc.get?_append, hold]
      simp [Assoc.get?, hne]
    rw [argSlots, Assoc.put_of_not_has (hnew _ List.mem_cons_self), ih hdistinct.2 hnew',
      List.append_assoc]
    rfl

/-- No number is cut off when the arguments get their places. -/
def ArgsExact (offset : Int) : List (String × Ty × Nat) → Prop
  | [] => True
  | (_, _, size) :: args =>
    RoundsExactly size ∧ offset + span size ≤ maxOffset ∧ ArgsExact (offset + span size) args

instance ArgsExact.decide :
    (offset : Int) → (args : List (String × Ty × Nat)) → Decidable (ArgsExact offset args)
  | _, [] => .isTrue trivial
  | offset, (_, _, size) :: args =>
    have := ArgsExact.decide (offset + span size) args
    inferInstanceAs (Decidable
      (RoundsExactly size ∧ offset + span size ≤ maxOffset ∧ ArgsExact (offset + span size) args))

theorem le_of_mem_argExtents
    (h : e ∈ argExtents offset args) : offset ≤ e.offset := by
  induction args generalizing offset with
  | nil => cases h
  | cons arg args ih =>
    rcases List.mem_cons.1 h with rfl | h
    · exact le_refl _
    · have hle := ih h
      omega

theorem pairwise_argExtents (offset : Int) (args : List (String × Ty × Nat)) :
    (argExtents offset args).Pairwise Extent.Before := by
  induction args generalizing offset with
  | nil => exact .nil
  | cons arg args ih =>
    refine List.pairwise_cons.2 ⟨fun e he => ?_, ih _⟩
    have hle := le_of_mem_argExtents he
    unfold Extent.Before
    dsimp only
    omega

/-! ## Names -/

/-- The bindings of the open scopes: the innermost scope comes first, and in each scope the latest
binding. -/
abbrev Bindings := List (List (String × Slot))

namespace Bindings

/-- What a name means: the innermost scope that binds it counts, and there the latest binding. -/
def get? (b : Bindings) (x : String) : Option Slot :=
  b.findSome? (·.lookup x)

/-- The binding that a name means, with a value from now on. -/
def note (x : String) (value : Constant) : Bindings → Bindings
  | [] => []
  | scope :: outer =>
    match scope.lookup x with
    | some slot => ((x, { slot with value := some value }) :: scope) :: outer
    | none => scope :: note x value outer

/-- The bindings after an operation on the frame `f`: a scope that closes takes its bindings along. -/
def after (f : Frame) (b : Bindings) : Op → Bindings
  | .enter => [] :: b
  | .leave => b.tail
  | .temp _ => b
  | .push x ty size mutable =>
    match b with
    | [] => []
    | scope :: outer => ((x, ⟨ty, mutable, (f.push x ty size mutable).1, none⟩) :: scope) :: outer
  | .setValue x value => b.note x value

/-- The bindings after some operations. -/
def run : Frame → Bindings → List Op → Bindings
  | _, b, [] => b
  | f, b, op :: ops => run (op.run f) (b.after f op) ops

/-- The arguments are bound in order, in a scope of their own. -/
def ofArgs (args : List (String × Ty × Nat)) (hiddenResult : Bool) : Bindings :=
  [(List.zipWith (fun (x, ty, _) e => (x, ⟨ty, true, e.offset, none⟩)) args
    (argExtents (firstArg hiddenResult) args)).reverse]

end Bindings

/-- A scope that binds the same as a list of bindings. -/
def SameNames (scope : Assoc Slot) (bindings : List (String × Slot)) : Prop :=
  ∀ x, scope.get? x = bindings.lookup x

theorem SameNames.put {scope : Assoc Slot} {bindings : List (String × Slot)}
    (h : SameNames scope bindings) (x : String) (slot : Slot) :
    SameNames (scope.put x slot) ((x, slot) :: bindings) := by
  intro y
  by_cases hy : x = y
  · subst hy
    simp
  · rw [Assoc.get?_put_of_ne hy, h y, List.lookup_cons, beq_false_of_ne (Ne.symm hy)]

/-- The open scopes of a frame, one by one. -/
def Tracks (f : Frame) (b : Bindings) : Prop :=
  List.Forall₂ SameNames f.scopes b

theorem forall₂_record {scopes : List (Assoc Slot)}
    (h : List.Forall₂ SameNames scopes b) (x : String) (value : Constant) :
    List.Forall₂ SameNames (record x value scopes) (b.note x value) := by
  induction h with
  | nil => exact .nil
  | @cons scope bindings scopes b hscope hrest ih =>
    unfold record Bindings.note
    rw [hscope x]
    cases bindings.lookup x with
    | some slot => exact .cons (hscope.put x _) hrest
    | none => exact .cons hscope ih

/-- What an operation does to the names. -/
theorem Tracks.step (h : f.Tracks b) (op : Op) : (op.run f).Tracks (b.after f op) := by
  obtain ⟨scopes, low, named⟩ := f
  cases op with
  | enter => exact .cons (fun _ => rfl) h
  | leave =>
    cases h with
    | nil => exact .nil
    | cons _ hrest => exact hrest
  | temp size => exact h
  | push x ty size mutable =>
    cases h with
    | nil => exact .nil
    | cons hscope hrest => exact .cons (hscope.put x _) hrest
  | setValue x value => exact forall₂_record h x value

theorem Tracks.steps (h : f.Tracks b) (ops : List Op) :
    (run f ops).Tracks (b.run f ops) := by
  induction ops generalizing f b with
  | nil => exact h
  | cons op ops ih => exact ih (h.step op)

theorem find?_eq {scopes : List (Assoc Slot)} (h : List.Forall₂ SameNames scopes b)
    (x : String) : find? x scopes = b.get? x := by
  induction h with
  | nil => rfl
  | @cons scope bindings scopes b hscope _ ih =>
    unfold Bindings.get?
    rw [find?, hscope x, List.findSome?_cons, ih]
    cases bindings.lookup x <;> rfl

/-- Arguments that are bound one after another get the places of their extents. -/
theorem sameNames_argSlots
    {bindings : List (String × Slot)} (hargs : ArgsExact offset args) (h : SameNames slots bindings) :
    SameNames (argSlots offset args slots)
      ((List.zipWith (fun (x, ty, _) e => (x, ⟨ty, true, e.offset, none⟩)) args
        (argExtents offset args)).reverse ++ bindings) := by
  induction args generalizing offset slots bindings with
  | nil => exact h
  | cons arg args ih =>
    obtain ⟨x, ty, size⟩ := arg
    obtain ⟨hround, hend, hrest⟩ := hargs
    rw [argSlots, min_eq_left hend]
    have hnext := ih hrest (h.put x ⟨ty, true, offset, none⟩)
    rw [hround.span_eq] at hnext ⊢
    simpa [argExtents] using hnext

theorem tracks_ofArgs {hiddenResult : Bool}
    (hargs : ArgsExact (firstArg hiddenResult) args) :
    (ofArgs args hiddenResult).Tracks (.ofArgs args hiddenResult) := by
  have hnone : SameNames [] [] := fun _ => rfl
  have hsame := sameNames_argSlots hargs hnone
  rw [List.append_nil] at hsame
  exact .cons hsame .nil

/-- After any operations in which no number is cut off, the bytes of the objects that have got slots are
disjoint and lie in the frame, whose size is a multiple of sixteen, from multiples of eight on. The bytes of
the arguments are disjoint, in order, and start behind what the call has pushed. Every name means its latest
binding in the innermost open scope that binds it. -/
theorem allocation_sound (args : List (String × Ty × Nat)) (hiddenResult : Bool) (ops : List Op)
    (hargs : ArgsExact (firstArg hiddenResult) args) (hops : Exact (ofArgs args hiddenResult) ops) :
    ((extents (ofArgs args hiddenResult) ops).Pairwise fun e e' => Disjoint e.bytes e'.bytes) ∧
    (∀ e ∈ extents (ofArgs args hiddenResult) ops, 8 ∣ e.offset ∧
      -((run (ofArgs args hiddenResult) ops).size : Int) ≤ e.offset ∧ e.offset + e.size ≤ 0) ∧
    16 ∣ (run (ofArgs args hiddenResult) ops).size ∧
    ((argExtents (firstArg hiddenResult) args).Pairwise fun e e' =>
      e.Before e' ∧ Disjoint e.bytes e'.bytes) ∧
    (∀ e, (argExtents (firstArg hiddenResult) args).head? = some e → e.offset = firstArg hiddenResult) ∧
    ∀ x, (run (ofArgs args hiddenResult) ops).get? x =
      ((Bindings.ofArgs args hiddenResult).run (ofArgs args hiddenResult) ops).get? x := by
  -- At first nothing is taken.
  have hstart : (ofArgs args hiddenResult).Apart [] :=
    ⟨⟨show minOffset ≤ 0 by decide, le_refl 0⟩, Int.dvd_zero 8, .nil, by simp⟩
  have hapart := hstart.steps hops
  rw [List.nil_append] at hapart
  refine ⟨?_, ?_, ?_, ?_, ?_, ?_⟩
  · exact hapart.pairwise.imp fun h => h.disjoint.symm
  · intro e he
    obtain ⟨hmultiple, hlow, hend⟩ := hapart.inside e he
    have hsize := hapart.bounded.neg_size_le
    exact ⟨hmultiple, hsize.trans hlow, hend⟩
  · exact Nat.dvd_mul_left 16 _
  · exact (pairwise_argExtents _ _).imp fun h => ⟨h, h.disjoint⟩
  · intro e he
    cases args with
    | nil => cases he
    | cons arg args => exact (Option.some.inj he) ▸ rfl
  · exact find?_eq ((tracks_ofArgs hargs).steps ops)

/-- Three arguments, a local, another one of its name in an inner scope, and a temporary. -/
theorem allocation_sound_shadowed :
    let args : List (String × Ty × Nat) := [("a", .int 64 false, 8), ("b", .char, 1), ("c", .int 64 false, 8)]
    let ops : List Op :=
      [.push "x" (.int 64 false) 8 true, .enter, .push "x" .char 1 false, .setValue "x" (.char 65), .leave,
        .temp 20]
    ArgsExact (firstArg false) args ∧ Exact (ofArgs args false) ops ∧
    extents (ofArgs args false) ops = [⟨-8, 8⟩, ⟨-16, 1⟩, ⟨-40, 20⟩] ∧
    argExtents (firstArg false) args = [⟨16, 8⟩, ⟨24, 1⟩, ⟨32, 8⟩] ∧
    (run (ofArgs args false) ops).size = 48 ∧
    ([⟨-8, 8⟩, ⟨-16, 1⟩, ⟨-40, 20⟩] : List Extent).Pairwise (fun e e' => Disjoint e.bytes e'.bytes) ∧
    (run (ofArgs args false) ops).get? "x" = some ⟨.int 64 false, true, -8, none⟩ := by
  intro args ops
  have hargs : ArgsExact (firstArg false) args := by decide
  have hops : Exact (ofArgs args false) ops := by decide
  have hsound := allocation_sound args false ops hargs hops
  exact ⟨hargs, hops, by decide, by decide, by decide, hsound.1, hsound.2.2.2.2.2 "x"⟩

end Frame

end Sigil
