import Sigil.Proofs.Frees.Statements

/-!
# Which declaration a name means

A frame keeps a record of the declarations of a function: the parameters come first, and then the locals in
the order in which they are declared. Every local name means one of them (`Frame.Binds`). A local lies below
all that was declared before it, until the offsets run out (`Frame.Orderly`). Parameters lie side by side
above, and one that takes up no room lies where the next one does. So two declarations have the same place in
a frame only for these two reasons (`Check.Shared`).
-/

namespace Sigil

open Frame List

namespace Frame

/-- The name means the declaration with the number `k`. -/
def Binds (f : Frame) (x : String) (k : Nat) : Prop :=
  ∃ slot, f.get? x = some slot ∧ f.named[k]? = some (x, slot.blank)

/-! ## Locals -/

/-- The frame of a function with the parameters `args`: what a name means is on record, and what is declared
later lies lower. -/
structure Orderly (args : List (String × Slot)) (f : Frame) : Prop where
  least : minOffset ≤ f.low
  above : ∀ p ∈ f.named, f.low ≤ p.2.offset
  params : args <+: f.named
  names : ∀ x slot, f.get? x = some slot → (x, slot.blank) ∈ f.named
  lower : ∀ i j p q, f.named[i]? = some p → f.named[j]? = some q → i < j → args.length ≤ j →
    q.2.offset < p.2.offset ∨ q.2.offset = minOffset

variable {f f' : Frame} {args : List (String × Slot)}

/-- A new local lies below all others. -/
theorem Orderly.push (h : f.Orderly args) (x : String) (t : Ty) (size : Nat) (mutable : Bool) :
    (f.push x t size mutable).2.Orderly args := by
  have hspan := span_pos size
  have hleast := h.least
  have hlow : (f.push x t size mutable).2.low = max (f.low - span (max size 1)) minOffset := rfl
  have hnamed : (f.push x t size mutable).2.named = f.named ++
      [(x, ⟨t, mutable, max (f.low - span (max size 1)) minOffset, none⟩)] := rfl
  refine ⟨?_, ?_, ?_, ?_, ?_⟩
  · omega
  · rw [hlow, hnamed]
    intro p hp
    rcases mem_append.1 hp with hp | hp
    · have hold := h.above p hp
      omega
    · obtain rfl := mem_singleton.1 hp
      exact le_refl _
  · exact h.params.trans (hnamed ▸ prefix_append _ _)
  · intro y slot hy
    rw [hnamed]
    rcases get?_bind_cases hy with ⟨rfl, rfl⟩ | hy
    · exact mem_append_right _ mem_cons_self
    · exact mem_append_left _ (h.names y slot hy)
  · intro i j p q hi hj hij hargs
    rw [hnamed] at hi hj
    have hbound := (List.getElem?_eq_some_iff.1 hj).1
    rw [length_append, length_singleton] at hbound
    have hlt : i < f.named.length := by omega
    rw [getElem?_append_left hlt] at hi
    rcases Nat.lt_or_ge j f.named.length with hold | hnew
    · rw [getElem?_append_left hold] at hj
      exact h.lower i j p q hi hj hij hargs
    · -- the later one is the new local
      have hlast : j = f.named.length := by omega
      subst hlast
      rw [getElem?_concat_length] at hj
      obtain rfl := Option.some.inj hj
      have habove := h.above p (mem_of_getElem? hi)
      dsimp only
      omega

theorem Orderly.enter (h : f.Orderly args) : f.enter.Orderly args :=
  ⟨h.least, h.above, h.params, h.names, h.lower⟩

theorem Orderly.setValue (h : f.Orderly args) (x : String) (v : Constant) :
    (f.setValue x v).Orderly args := by
  refine ⟨h.least, h.above, h.params, fun y slot hy => ?_, h.lower⟩
  have hblank := f.blank_setValue x y v
  rw [hy] at hblank
  obtain ⟨slot', hslot', heq⟩ := Option.map_eq_some_iff.1 hblank.symm
  exact heq ▸ h.names y slot' hslot'

/-- A local name means a declaration. -/
theorem Orderly.binds (h : f.Orderly args) {x : String} {slot : Slot}
    (hx : f.get? x = some slot) : ∃ k, f.named[k]? = some (x, slot.blank) ∧ f.Binds x k := by
  obtain ⟨k, hk⟩ := mem_iff_getElem?.1 (h.names x slot hx)
  exact ⟨k, hk, slot, hx, hk⟩

/-- If two declarations have the same place, the later one is a parameter or the offsets have run out. -/
theorem Orderly.offset_eq (h : f.Orderly args) {i j : Nat} {p q : String × Slot}
    (hi : f.named[i]? = some p) (hj : f.named[j]? = some q) (hij : i < j)
    (heq : p.2.offset = q.2.offset) : j < args.length ∨ p.2.offset = minOffset := by
  by_cases hargs : args.length ≤ j
  · rcases h.lower i j p q hi hj hij hargs with hlt | hmin
    · omega
    · exact Or.inr (heq.trans hmin)
  · exact Or.inl (not_le.1 hargs)

/-! ## Parameters -/

theorem length_sideBySide (offset : Int) (args : List (String × Ty × Nat)) :
    (sideBySide offset args).length = args.length := by
  induction args generalizing offset with
  | nil => rfl
  | cons arg args ih => exact congrArg (· + 1) (ih _)

theorem le_of_mem_sideBySide {offset : Int} (hoffset : offset ≤ maxOffset)
    {args : List (String × Ty × Nat)} {p : String × Slot} (h : p ∈ sideBySide offset args) :
    offset ≤ p.2.offset := by
  induction args generalizing offset with
  | nil => cases h
  | cons arg args ih =>
    obtain ⟨x, ty, size⟩ := arg
    have hspan := span_nonneg size
    rcases mem_cons.1 h with rfl | h
    · exact le_refl _
    · have hrest := ih (min_le_right _ _) h
      omega

theorem size_eq_zero {size : Nat} (h : span size = 0) : size = 0 := by
  unfold span round8 maxSize maxOffset at h
  omega

/-- An argument that lies where the first one does: the arguments before it take up no room. -/
theorem sizes_of_offset_eq_first {offset : Int} (hoffset : offset ≤ maxOffset)
    {args : List (String × Ty × Nat)} {j : Nat} {q : String × Slot}
    (hj : (sideBySide offset args)[j]? = some q) (heq : q.2.offset = offset) :
    offset = maxOffset ∨ ∀ l < j, ∃ a, args[l]? = some a ∧ a.2.2 = 0 := by
  induction args generalizing offset j with
  | nil => cases hj
  | cons arg args ih =>
    obtain ⟨x, ty, size⟩ := arg
    cases j with
    | zero => exact Or.inr fun l hl => absurd hl (Nat.not_lt_zero l)
    | succ j =>
      replace hj : (sideBySide (min (offset + span size) maxOffset) args)[j]? = some q := hj
      have hspan := span_nonneg size
      have hle := le_of_mem_sideBySide (min_le_right _ _) (mem_of_getElem? hj)
      by_cases hmax : offset = maxOffset
      · exact Or.inl hmax
      · have hzero : span size = 0 := by omega
        have hsame : min (offset + span size) maxOffset = offset := by omega
        rw [hsame] at hj
        refine (ih hoffset hj heq).imp id fun hsizes l hl => ?_
        cases l with
        | zero => exact ⟨_, rfl, size_eq_zero hzero⟩
        | succ l => exact hsizes l (Nat.lt_of_succ_lt_succ hl)

/-- Two arguments that have the same place: those from the first up to the second take up no room, or the
offsets have run out. -/
theorem sizes_of_offset_eq {offset : Int} (hoffset : offset ≤ maxOffset)
    {args : List (String × Ty × Nat)} {i j : Nat} {p q : String × Slot}
    (hi : (sideBySide offset args)[i]? = some p) (hj : (sideBySide offset args)[j]? = some q)
    (hij : i ≤ j) (heq : p.2.offset = q.2.offset) :
    p.2.offset = maxOffset ∨ ∀ l, i ≤ l → l < j → ∃ a, args[l]? = some a ∧ a.2.2 = 0 := by
  induction args generalizing offset i j with
  | nil => cases hi
  | cons arg args ih =>
    cases i with
    | zero =>
      obtain rfl := Option.some.inj hi
      exact (sizes_of_offset_eq_first hoffset hj heq.symm).imp id fun hsizes l _ => hsizes l
    | succ i =>
      cases j with
      | zero => exact absurd hij (Nat.not_succ_le_zero i)
      | succ j =>
        refine (ih (min_le_right _ _) hi hj (Nat.le_of_succ_le_succ hij)).imp id fun hsizes l hl hlj => ?_
        cases l with
        | zero => exact absurd hl (Nat.not_succ_le_zero i)
        | succ l => exact hsizes l (Nat.le_of_succ_le_succ hl) (Nat.lt_of_succ_lt_succ hlj)

end Frame

namespace Check

namespace Scope

/-- A statement keeps the frame in order. -/
theorem Runs.orderly {s s' : Scope} {args : List (String × Slot)} (h : s.Runs s')
    (hs : s.frame.Orderly args) : s'.frame.Orderly args := by
  have hdeclared : ∀ {s : Scope} (x t size mutable byDefault pos), s.frame.Orderly args →
      (s.declared x t size mutable byDefault pos).frame.Orderly args := by
    intro s x t size mutable byDefault pos hs
    obtain ⟨pending, heq⟩ := s.declared_eq x t size mutable byDefault pos
    rw [heq]
    exact hs.push x t size mutable
  induction h with
  | quiet h => exact h.frame ▸ hs
  | trans _ _ ih ih' => exact ih' (ih hs)
  | report s e => exact hs
  | free s p =>
    unfold Scope.free
    split
    · exact hs
    · exact hs
  | regain s l =>
    unfold Scope.regain
    split
    · exact hs
    · exact hs
  | declare s x t size mutable byDefault pos => exact hdeclared x t size mutable byDefault pos hs
  | @keep s s' x t size mutable byDefault pos h v =>
    have hnew : s'.frame.Orderly args := h.frame ▸ hdeclared x t size mutable byDefault pos hs
    cases v with
    | none => exact hnew
    | some v => exact hnew.setValue x v
  | @scope s s' h ih =>
    have hin : s'.frame.Orderly args := ih hs.enter
    refine ⟨hin.least, hin.above, hin.params, fun x slot hx => ?_, hin.lower⟩
    -- the names mean what they meant before the scope was opened
    have hget : s.frame.get? x = some slot := by
      unfold get? at hx ⊢
      rwa [h.scopes] at hx
    exact h.extends.named.subset (hs.names x slot hget)
  | branch _ ih => exact ih hs
  | loop _ ih => exact ih hs

/-- The arguments lie in order when a function starts. -/
theorem orderly_start (t : Symbols) (sig : Signature) :
    (Scope.start t sig).frame.Orderly (Scope.start t sig).frame.named := by
  have hplace : (0 : Int) ≤ if sig.ret.isAggregate then 24 else 16 := by
    split <;> decide
  refine ⟨show minOffset ≤ 0 by decide, ?_, prefix_refl _, ?_, ?_⟩
  · exact forall_argSlots (P := fun slot => 0 ≤ slot.offset) (fun _ _ h => h) hplace _
      (forall_mem_nil _)
  · intro x slot hx
    obtain ⟨scope, hscope, hslot⟩ := mem_of_find? hx
    obtain rfl := mem_singleton.1 hscope
    -- no value is known of an argument
    have hvalue : slot.value = none :=
      forall_argSlots (P := fun slot => slot.value = none) (fun _ _ _ => rfl) hplace _
        (forall_mem_nil _) _ hslot
    obtain ⟨ty, mutable, offset, value⟩ := slot
    cases hvalue
    exact hslot
  · intro i j p q _ hj _ hlength
    rw [getElem?_eq_none hlength] at hj
    cases hj

end Scope

/-- The room that an argument takes up. -/
def argSize (t : Symbols) (ty : Ty) : Nat :=
  match t.ask (t.names.sizeOf ty) with
  | .ok n => n
  | .error _ => 8

theorem ask_of_argSize {t : Symbols} {ty : Ty} (h : argSize t ty = 0) :
    t.ask (t.names.sizeOf ty) = .ok 0 := by
  unfold argSize at h
  split at h
  · next heq => exact h ▸ heq
  · cases h

variable {t : Symbols} {sig : Signature} {f : Frame} {k k' : Nat} {p q : String × Slot}

/-- The parameters of a function are the first on record, side by side. -/
theorem named_start (hdistinct : (sig.params.map (·.1)).Nodup) :
    (Scope.start t sig).frame.named = sideBySide (if sig.ret.isAggregate then 24 else 16)
      (sig.params.map fun a => (a.1, a.2, argSize t a.2)) := by
  have hnames : (sig.params.map fun a => (a.1, a.2, argSize t a.2)).map (·.1) = sig.params.map (·.1) := by
    simp
  have hnew : ∀ a ∈ sig.params.map fun a => (a.1, a.2, argSize t a.2),
      Assoc.has a.1 ([] : Assoc Slot) = false := fun _ _ => rfl
  exact argSlots_eq (hnames ▸ hdistinct) hnew

/-- Two declarations of a function have the same place in its frame: the offsets have run out, or both are
parameters, and the parameters from the first up to the second take up no room. -/
def Shared (t : Symbols) (sig : Signature) (f : Frame) (k k' : Nat) : Prop :=
  ∃ p q, f.named[k]? = some p ∧ f.named[k']? = some q ∧ p.2.offset = q.2.offset ∧
    (p.2.offset = Frame.minOffset ∨ p.2.offset = Frame.maxOffset ∨
      max k k' < sig.params.length ∧ ∀ i, min k k' ≤ i → i < max k k' →
        ∃ a, sig.params[i]? = some a ∧ t.ask (t.names.sizeOf a.2) = .ok 0)

theorem Shared.symm (h : Shared t sig f k k') : Shared t sig f k' k := by
  obtain ⟨p, q, hk, hk', heq, hwhy⟩ := h
  refine ⟨q, p, hk', hk, heq.symm, ?_⟩
  rwa [heq, max_comm, min_comm] at hwhy

/-- A later declaration with the same place. -/
theorem shared_of_lt (hdistinct : (sig.params.map (·.1)).Nodup)
    (hf : f.Orderly (Scope.start t sig).frame.named) (hk : f.named[k]? = some p)
    (hk' : f.named[k']? = some q) (heq : p.2.offset = q.2.offset) (hlt : k < k') :
    Shared t sig f k k' := by
  refine ⟨p, q, hk, hk', heq, ?_⟩
  rw [max_eq_right hlt.le, min_eq_left hlt.le]
  rcases hf.offset_eq hk hk' hlt heq with hparam | hmin
  · -- both are parameters, so they lie side by side
    obtain ⟨rest, hrest⟩ := hf.params
    rw [← hrest, getElem?_append_left (hlt.trans hparam)] at hk
    rw [← hrest, getElem?_append_left hparam] at hk'
    rw [named_start hdistinct] at hk hk' hparam
    rw [length_sideBySide, length_map] at hparam
    have hbase : (if sig.ret.isAggregate then 24 else 16 : Int) ≤ maxOffset := by
      split <;> decide
    refine Or.inr ((sizes_of_offset_eq hbase hk hk' hlt.le heq).imp id fun hsizes => ⟨hparam, ?_⟩)
    intro i hki hik
    obtain ⟨a, ha, hsize⟩ := hsizes i hki hik
    rw [getElem?_map, Option.map_eq_some_iff] at ha
    obtain ⟨b, hb, rfl⟩ := ha
    exact ⟨b, hb, ask_of_argSize hsize⟩
  · exact Or.inl hmin

/-- Declarations with the same place are one, or there was no room to keep them apart. -/
theorem eq_or_shared (hdistinct : (sig.params.map (·.1)).Nodup)
    (hf : f.Orderly (Scope.start t sig).frame.named) (hk : f.named[k]? = some p)
    (hk' : f.named[k']? = some q) (heq : p.2.offset = q.2.offset) : k = k' ∨ Shared t sig f k k' := by
  rcases Nat.lt_trichotomy k k' with hlt | rfl | hlt
  · exact Or.inr (shared_of_lt hdistinct hf hk hk' heq hlt)
  · exact Or.inl rfl
  · exact Or.inr (shared_of_lt hdistinct hf hk' hk heq.symm hlt).symm

end Check

end Sigil
