import Sigil.Symbols

/-!
# What is kept

Layouts and constants are kept once they are known, both in the same way (`Store`): something that is kept is
found, and something that is defined is worked out while its name is in progress, and kept
(`Symbols.consult`). What is kept stays (`Memo.Within`).
-/

namespace Sigil

open Attempt

/-- The two kinds of things that are kept. -/
inductive Store where
  | layouts
  | constants
deriving DecidableEq

namespace Store

/-- What is kept. -/
abbrev Value : Store → Type
  | layouts => Layout
  | constants => GlobalConst

/-- What is kept for a name. -/
def get? : (k : Store) → Memo → String → Option k.Value
  | layouts, s, x => s.layouts.get? x
  | constants, s, x => s.constants.get? x

/-- Keeps something. -/
def put : (k : Store) → Memo → String → k.Value → Memo
  | layouts, s, x, l => { s with layouts := s.layouts.put x l }
  | constants, s, x, g => { s with constants := s.constants.put x g }

/-- How something is worked out that is defined. -/
def body (t : Symbols) (names : Names) : (k : Store) → String → Option (Eval k.Value)
  | layouts, x => (t.structs.get? x).map (Symbols.layoutFields names x .empty)
  | constants, x => (t.consts.get? x).map fun (type, value) => Symbols.constantOf names type value

/-- The complaint about a name that is not defined. -/
def unknown : Store → String → TypeError
  | layouts, x => .unknownType x
  | constants, x => .unknownIdentifier x

/-- The complaint about a name that is in progress. -/
def again : Store → String → TypeError
  | layouts, x => .recursiveType x
  | constants, _ => .notConstant

variable {j k : Store} {s : Memo} {x y : String} {v : k.Value}

@[simp] theorem get?_inProgress (k : Store) (s : Memo) (names : List String) (x : String) :
    k.get? { s with inProgress := names } x = k.get? s x := by
  cases k <;> rfl

@[simp] theorem inProgress_put (k : Store) (s : Memo) (x : String) (v : k.Value) :
    (k.put s x v).inProgress = s.inProgress := by
  cases k <;> rfl

@[simp] theorem get?_put_self (k : Store) (s : Memo) (x : String) (v : k.Value) :
    k.get? (k.put s x v) x = some v := by
  cases k <;> exact Assoc.get?_put_self _ _ _

theorem get?_put_of_ne (h : j = k → x ≠ y) : j.get? (k.put s x v) y = j.get? s y := by
  cases j <;> cases k
  · exact Assoc.get?_put_of_ne (h rfl) _ _
  · rfl
  · rfl
  · exact Assoc.get?_put_of_ne (h rfl) _ _

end Store

/-- What is kept stays. -/
def Memo.Within (s s' : Memo) : Prop :=
  ∀ (k : Store) (x : String) (v : k.Value), k.get? s x = some v → k.get? s' x = some v

namespace Memo

variable {s s' s'' : Memo}

theorem Within.refl (s : Memo) : s.Within s :=
  fun _ _ _ h => h

theorem Within.trans (h : s.Within s') (h' : s'.Within s'') : s.Within s'' :=
  fun k x v hv => h' k x v (h k x v hv)

@[simp] theorem within_inProgress {names : List String} :
    s.Within { s' with inProgress := names } ↔ s.Within s' := by
  simp only [Within, Store.get?_inProgress]

end Memo

namespace Symbols

/-! ## Working something out -/

/-- Finds what is kept, or works it out and keeps it. -/
def consult (t : Symbols) (names : Names) (k : Store) (x : String) : Eval k.Value := do
  match k.get? (← get) x with
  | some v => return v
  | none =>
    match k.body t names x with
    | none => Eval.reject (k.unknown x)
    | some body =>
      if ← isInProgress x then Eval.reject (k.again x)
      let v ← during x body
      modify fun s => k.put s x v
      return v

/-- Finds what is kept. -/
def atHand (t : Symbols) (k : Store) (x : String) : Eval k.Value := do
  match k.get? (← get) x with
  | some v => return v
  | none => Eval.reject (if (k.body t (t.namesOfDepth 0) x).isSome then k.again x else k.unknown x)

theorem consult_layouts (t : Symbols) (names : Names) (x : String) :
    t.consult names .layouts x = t.layoutBy names x := by
  have hbody : Store.layouts.body t names x =
      (t.structs.get? x).map (layoutFields names x .empty) := rfl
  unfold consult layoutBy
  rw [hbody]
  refine bind_congr fun s => ?_
  rw [show Store.layouts.get? s x = s.layouts.get? x from rfl]
  cases s.layouts.get? x with
  | some l => rfl
  | none => cases t.structs.get? x <;> rfl

theorem consult_constants (t : Symbols) (names : Names) (x : String) :
    t.consult names .constants x = t.constantBy names x := by
  have hbody : Store.constants.body t names x =
      (t.consts.get? x).map fun c => constantOf names c.1 c.2 := rfl
  unfold consult constantBy
  rw [hbody]
  refine bind_congr fun s => ?_
  rw [show Store.constants.get? s x = s.constants.get? x from rfl]
  cases s.constants.get? x with
  | some g => rfl
  | none => cases t.consts.get? x <;> rfl

theorem atHand_layouts (t : Symbols) (x : String) : t.atHand .layouts x = t.layoutAtHand x := by
  have hbody : Store.layouts.body t (t.namesOfDepth 0) x =
      (t.structs.get? x).map (layoutFields (t.namesOfDepth 0) x .empty) := rfl
  unfold atHand layoutAtHand Assoc.has
  rw [hbody, Option.isSome_map]
  refine bind_congr fun s => ?_
  rw [show Store.layouts.get? s x = s.layouts.get? x from rfl]
  cases s.layouts.get? x <;> rfl

theorem atHand_constants (t : Symbols) (x : String) :
    t.atHand .constants x = t.constantAtHand x := by
  have hbody : Store.constants.body t (t.namesOfDepth 0) x =
      (t.consts.get? x).map fun c => constantOf (t.namesOfDepth 0) c.1 c.2 := rfl
  unfold atHand constantAtHand Assoc.has
  rw [hbody, Option.isSome_map]
  refine bind_congr fun s => ?_
  rw [show Store.constants.get? s x = s.constants.get? x from rfl]
  cases s.constants.get? x <;> rfl

section

variable {t : Symbols} {names : Names} {k : Store} {x : String} {s s1 : Memo} {v : k.Value}
  {b : Eval k.Value}

theorem consult_of_kept (h : k.get? s x = some v) : t.consult names k x s = (.ok v, s) := by
  unfold consult
  rw [bind_of_ok (get_apply s)]
  simp only [h, pure_apply]

theorem consult_of_unknown (h : k.get? s x = none) (hb : k.body t names x = none) :
    t.consult names k x s = (.error (.error (k.unknown x)), s) := by
  unfold consult
  rw [bind_of_ok (get_apply s)]
  simp only [h, hb]
  rfl

theorem consult_of_inProgress (h : k.get? s x = none) (hb : k.body t names x = some b)
    (hx : x ∈ s.inProgress) : t.consult names k x s = (.error (.error (k.again x)), s) := by
  have hin : isInProgress x s = (.ok true, s) := by
    unfold isInProgress
    rw [List.contains_iff_mem.2 hx]
  unfold consult
  rw [bind_of_ok (get_apply s)]
  simp only [h, hb]
  rw [bind_of_ok hin]
  rfl

/-- Something is worked out while its name is in progress, and kept. -/
theorem consult_of_body (h : k.get? s x = none) (hb : k.body t names x = some b)
    (hx : x ∉ s.inProgress) {r : Except Fault k.Value}
    (hr : b { s with inProgress := x :: s.inProgress } = (r, s1)) :
    t.consult names k x s = (r, match r with
      | .ok v => k.put { s1 with inProgress := s1.inProgress.erase x } x v
      | .error _ => { s1 with inProgress := s1.inProgress.erase x }) := by
  have hin : isInProgress x s = (.ok false, s) := by
    unfold isInProgress
    rw [Bool.eq_false_iff.2 fun hc => hx (List.contains_iff_mem.1 hc)]
  -- The name is taken out of progress also where the work has failed.
  have hduring : during x b s = (r, { s1 with inProgress := s1.inProgress.erase x }) := by
    unfold during
    rw [hr]
  unfold consult
  rw [bind_of_ok (get_apply s)]
  simp only [h, hb]
  rw [bind_of_ok hin]
  cases r with
  | ok v =>
    dsimp only
    rw [if_neg Bool.false_ne_true, bind_of_ok hduring]
    rfl
  | error e =>
    dsimp only
    rw [if_neg Bool.false_ne_true, bind_of_error hduring]

theorem atHand_of_kept (h : k.get? s x = some v) : t.atHand k x s = (.ok v, s) := by
  unfold atHand
  rw [bind_of_ok (get_apply s)]
  simp only [h, pure_apply]

/-- What is at hand is what is kept. -/
theorem of_atHand {r : Except Fault k.Value} (h : t.atHand k x s = (r, s1)) :
    s1 = s ∧ ∀ v, r = .ok v → k.get? s x = some v := by
  unfold atHand at h
  rw [bind_of_ok (get_apply s)] at h
  cases hv : k.get? s x with
  | some w =>
    simp only [hv, pure_apply, Prod.mk.injEq] at h
    obtain ⟨rfl, rfl⟩ := h
    refine ⟨rfl, ?_⟩
    intro v hv
    cases hv
    rfl
  | none =>
    simp only [hv, Eval.reject, throw_apply, Prod.mk.injEq] at h
    obtain ⟨rfl, rfl⟩ := h
    refine ⟨rfl, ?_⟩
    intro v hv
    cases hv

end

end Symbols

end Sigil
