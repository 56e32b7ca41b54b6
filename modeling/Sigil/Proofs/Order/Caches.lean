import Mathlib.Data.List.Nodup
import Mathlib.Data.List.Perm.Subperm
import Sigil.Proofs.Order.Relations
import Sigil.Proofs.Table

/-!
# Caches

Layouts and constants are worked out by way of one another, while others are in progress, and are kept once
they are known. That does not show in them: what is worked out in any state that evaluation can reach is
also worked out with nothing kept and nothing in progress (`Symbols.Reaches.consult_empty`), and the
other way round (`Symbols.Reaches.consult_of_empty`).

A memo that evaluation has filled has been filled in some order such that every entry follows from the
entries before it (`Symbols.Built`). This order, rather than that of the evaluation, shows that an entry
can be found again from any state: what it follows from is found first, and none of it is in progress
(`Symbols.Built.findable`).
-/

namespace Sigil

open List Store

namespace Assoc

variable {β γ : Type} {m : Assoc β} {key : String}

theorem get?_eq_none_iff : m.get? key = none ↔ key ∉ m.map (·.1) := by
  induction m with
  | nil => simp [get?]
  | cons kv rest ih =>
    obtain ⟨k, v⟩ := kv
    by_cases hk : k = key
    · simp [get?, hk]
    · have hk' : ¬ key = k := fun h => hk h.symm
      simp [get?, hk, hk', ih]

theorem mem_keys_of_get? {v : β} (h : m.get? key = some v) : key ∈ m.map (·.1) := by
  by_contra hmem
  rw [get?_eq_none_iff.2 hmem] at h
  cases h

/-- A new key that is defined is added to distinct keys that are defined. -/
theorem keys_put {defs : Assoc γ} {v : β} {d : γ} (hnodup : (m.map (·.1)).Nodup)
    (hsub : m.map (·.1) ⊆ defs.map (·.1)) (hkey : m.get? key = none) (hd : defs.get? key = some d) :
    ((m.put key v).map (·.1)).Nodup ∧ (m.put key v).map (·.1) ⊆ defs.map (·.1) := by
  have hnew : m.has key = false := by
    rw [has, hkey]
    rfl
  rw [put_of_not_has hnew, map_append]
  constructor
  · refine nodup_append.2 ⟨hnodup, nodup_singleton _, ?_⟩
    rintro x hx y hy rfl
    have hxkey : x = key := mem_singleton.1 hy
    exact get?_eq_none_iff.1 hkey (hxkey ▸ hx)
  · refine append_subset.2 ⟨hsub, ?_⟩
    intro x hx
    have hxkey : x = key := mem_singleton.1 hx
    exact hxkey ▸ mem_keys_of_get? hd

end Assoc

/-! ## Relations -/

/-- How something is worked out depends on what names mean, and on nothing else. -/
theorem Store.exists_body {k : Store} {x : String} {R : (α : Type) → Eval α → Eval α → Prop}
    (hR : Eval.Relation R) {t : Symbols} {names names' : Names} (h : names.Related R names') {b : Eval k.Value}
    (hb : k.body t names x = some b) : ∃ b', k.body t names' x = some b' ∧ R k.Value b b' := by
  cases k with
  | layouts =>
    obtain ⟨fields, hfields, rfl⟩ := Option.map_eq_some_iff.1 hb
    exact ⟨_, Option.map_eq_some_iff.2 ⟨fields, hfields, rfl⟩, h.layoutFields hR x _ fields⟩
  | constants =>
    obtain ⟨⟨type, value⟩, hconst, rfl⟩ := Option.map_eq_some_iff.1 hb
    exact ⟨_, Option.map_eq_some_iff.2 ⟨_, hconst, rfl⟩, h.constantOf hR type value⟩

/-! ## Memos -/

namespace Memo

/-- Nothing is kept for the name. -/
def Lacks (s : Memo) (x : String) : Prop :=
  ∀ k : Store, k.get? s x = none

/-- A later state. Nothing has been entered for a name in progress. -/
structure Extends (s s' : Memo) : Prop where
  within : s.Within s'
  inProgress : s'.inProgress = s.inProgress
  lacks : ∀ x ∈ s.inProgress, s.Lacks x → s'.Lacks x

/-- What is kept in either memo, the first one first. -/
def union (s s' : Memo) : Memo :=
  ⟨s.layouts ++ s'.layouts, s.constants ++ s'.constants, []⟩

/-- The number of things that are kept. -/
def count (s : Memo) : Nat :=
  s.layouts.length + s.constants.length

variable {s s' s'' : Memo} {k : Store} {x : String} {v : k.Value}

theorem get?_union (k : Store) (s s' : Memo) (x : String) :
    k.get? (s.union s') x = (k.get? s x).or (k.get? s' x) := by
  cases k <;> exact Assoc.get?_append _ _ _

theorem Extends.refl (s : Memo) : s.Extends s :=
  ⟨.refl s, rfl, fun _ _ h => h⟩

theorem Extends.trans (h : s.Extends s') (h' : s'.Extends s'') : s.Extends s'' :=
  ⟨h.within.trans h'.within, h'.inProgress.trans h.inProgress,
    fun x hx hlacks => h'.lacks x (h.inProgress ▸ hx) (h.lacks x hx hlacks)⟩

@[simp] theorem lacks_inProgress {names : List String} :
    ({ s with inProgress := names } : Memo).Lacks x ↔ s.Lacks x := by
  simp only [Lacks, get?_inProgress]

/-- A name is in progress for a while. -/
theorem Extends.during (h : ({ s with inProgress := x :: s.inProgress } : Memo).Extends s') :
    s.Extends { s' with inProgress := s'.inProgress.erase x } := by
  constructor
  · intro k y v hv
    rw [get?_inProgress]
    exact h.within k y v (by rwa [get?_inProgress])
  · have hin := h.inProgress
    change s'.inProgress.erase x = s.inProgress
    rw [hin, erase_cons_head]
  · intro y hy hlacks
    rw [lacks_inProgress]
    exact h.lacks y (mem_cons_of_mem _ hy) (lacks_inProgress.2 hlacks)

/-- Something new is kept besides. -/
theorem Lacks.within_put (h : s.Lacks x) (v : k.Value) : s.Within (k.put s x v) := by
  intro j y w hw
  by_cases hxy : x = y
  · rw [← hxy, h j] at hw
    cases hw
  · rwa [get?_put_of_ne fun _ => hxy]

theorem Lacks.put {y : String} (h : s.Lacks y) (hxy : x ≠ y) (v : k.Value) : (k.put s x v).Lacks y := by
  intro j
  rw [get?_put_of_ne fun _ => hxy]
  exact h j

theorem Within.put (h : s.Within s') (hv : k.get? s' x = some v) : (k.put s x v).Within s' := by
  intro j y w hw
  by_cases hjk : j = k ∧ x = y
  · obtain ⟨rfl, rfl⟩ := hjk
    rwa [get?_put_self, ← hv] at hw
  · rw [get?_put_of_ne fun hj hx => hjk ⟨hj, hx⟩] at hw
    exact h j y w hw

/-- What was not kept before makes one more. -/
theorem Lacks.count_put (h : s.Lacks x) (v : k.Value) : (k.put s x v).count = s.count + 1 := by
  cases k with
  | layouts =>
    have hnew : s.layouts.has x = false := by
      rw [Assoc.has, show s.layouts.get? x = none from h .layouts]
      rfl
    have hlength : (s.layouts.put x v).length = s.layouts.length + 1 := by
      rw [Assoc.put_of_not_has hnew, length_append, length_singleton]
    exact show (s.layouts.put x v).length + s.constants.length = _ by rw [hlength, count]; omega
  | constants =>
    have hnew : s.constants.has x = false := by
      rw [Assoc.has, show s.constants.get? x = none from h .constants]
      rfl
    have hlength : (s.constants.put x v).length = s.constants.length + 1 := by
      rw [Assoc.put_of_not_has hnew, length_append, length_singleton]
    exact show s.layouts.length + (s.constants.put x v).length = _ by rw [hlength, count]; omega

end Memo

namespace Symbols

/-! ## The order of entries -/

/-- A memo that has been filled entry by entry, where each entry follows from those before it. -/
inductive Built (t : Symbols) : Memo → Prop where
  | empty : Built t .empty
  | inProgress {s : Memo} (h : Built t s) (names : List String) :
    Built t { s with inProgress := names }
  | put {s : Memo} {k : Store} {x : String} {v : k.Value} {b : Eval k.Value} (h : Built t s)
    (hx : s.Lacks x) (hb : k.body t (t.namesOfDepth 0) x = some b) (hv : b s = (.ok v, s)) :
    Built t (k.put s x v)

/-- No name is that of a struct and of a constant. -/
def Apart (t : Symbols) : Prop :=
  ∀ x, t.structs.get? x = none ∨ t.consts.get? x = none

/-- From a memo that has been filled in order, `x` fills it in order, and if it succeeds then `y`, which
changes nothing, finds the same value in what is kept from then on. -/
def Traces (t : Symbols) (α : Type) (x y : Eval α) : Prop :=
  ∀ s, t.Built s → t.Built (x s).2 ∧ s.Extends (x s).2 ∧
    ∀ v, (x s).1 = .ok v → ∀ s', (x s).2.Within s' → y s' = (.ok v, s')

/-- Traces are composed as questions are, so every question has them. -/
theorem relation_traces (t : Symbols) : Eval.Relation t.Traces where
  pure a := by
    intro s hs
    refine ⟨hs, .refl s, ?_⟩
    intro v hv s' _
    cases hv
    rfl
  throw e := by
    intro s hs
    refine ⟨hs, .refl s, ?_⟩
    intro v hv
    cases hv
  bind := by
    intro α β x y f g hx hf s hs
    obtain ⟨hs1, hext, hy⟩ := hx s hs
    rw [Attempt.bind_apply]
    rcases hr : x s with ⟨e | a, s1⟩
    · rw [hr] at hs1 hext
      refine ⟨hs1, hext, ?_⟩
      intro v hv
      cases hv
    · rw [hr] at hs1 hext hy
      obtain ⟨hs2, hext', hg⟩ := hf a s1 hs1
      refine ⟨hs2, hext.trans hext', ?_⟩
      intro v hv s' hs'
      rw [Attempt.bind_of_ok (hy a rfl s' (hext'.within.trans hs'))]
      exact hg v hv s' hs'

section

variable {t : Symbols} {names : Names} {k : Store} {x : String} {s : Memo} {v : k.Value}

theorem lacks_empty (x : String) : Memo.empty.Lacks x := by
  intro k
  cases k <;> rfl

/-- What is kept is defined. -/
theorem Built.isSome_body (h : t.Built s) (hv : k.get? s x = some v) (names : Names) :
    (k.body t names x).isSome = true := by
  induction h with
  | empty =>
    rw [lacks_empty x k] at hv
    cases hv
  | inProgress _ _ ih =>
    rw [get?_inProgress] at hv
    exact ih hv
  | @put s j y w b _ _ hb _ ih =>
    by_cases hjk : k = j ∧ y = x
    · obtain ⟨rfl, rfl⟩ := hjk
      cases k with
      | layouts =>
        obtain ⟨fields, hfields, -⟩ := Option.map_eq_some_iff.1 hb
        exact Option.isSome_iff_exists.2 ⟨_, Option.map_eq_some_iff.2 ⟨fields, hfields, rfl⟩⟩
      | constants =>
        obtain ⟨const, hconst, -⟩ := Option.map_eq_some_iff.1 hb
        exact Option.isSome_iff_exists.2 ⟨_, Option.map_eq_some_iff.2 ⟨const, hconst, rfl⟩⟩
    · rw [get?_put_of_ne fun hj hx => hjk ⟨hj, hx⟩] at hv
      exact ih hv

/-- For something that is defined and not kept, nothing is kept at all. -/
theorem Built.lacks (h : t.Built s) (hapart : t.Apart) {b : Eval k.Value}
    (hb : k.body t names x = some b) (hnone : k.get? s x = none) : s.Lacks x := by
  intro j
  by_cases hjk : j = k
  · rw [hjk]
    exact hnone
  · cases hv : j.get? s x with
    | none => rfl
    | some v =>
      have hj := h.isSome_body hv names
      exfalso
      cases j with
      | layouts =>
        cases k with
        | layouts => exact hjk rfl
        | constants =>
          obtain ⟨const, hconst, -⟩ := Option.map_eq_some_iff.1 hb
          rcases hapart x with hx | hx
          · rw [show layouts.body t names x = (t.structs.get? x).map _ from rfl, hx] at hj
            cases hj
          · rw [hx] at hconst
            cases hconst
      | constants =>
        cases k with
        | constants => exact hjk rfl
        | layouts =>
          obtain ⟨fields, hfields, -⟩ := Option.map_eq_some_iff.1 hb
          rcases hapart x with hx | hx
          · rw [hx] at hfields
            cases hfields
          · rw [show constants.body t names x = (t.consts.get? x).map _ from rfl, hx] at hj
            cases hj

theorem traces_atHand (t : Symbols) (k : Store) (x : String) :
    t.Traces k.Value (t.atHand k x) (t.atHand k x) := by
  intro s hs
  rcases hr : t.atHand k x s with ⟨r, s1⟩
  obtain ⟨rfl, hkept⟩ := of_atHand hr
  refine ⟨hs, .refl s1, ?_⟩
  intro v hv s' hs'
  exact atHand_of_kept (hs' k x v (hkept v hv))

/-- What is worked out follows from what is kept. -/
theorem traces_consult (hapart : t.Apart) (h : names.Related t.Traces (t.namesOfDepth 0)) (k : Store)
    (x : String) : t.Traces k.Value (t.consult names k x) (t.atHand k x) := by
  intro s hs
  cases hv : k.get? s x with
  | some v =>
    rw [consult_of_kept hv]
    refine ⟨hs, .refl s, ?_⟩
    intro w hw s' hs'
    cases hw
    exact atHand_of_kept (hs' k x v hv)
  | none =>
    cases hb : k.body t names x with
    | none =>
      rw [consult_of_unknown hv hb]
      refine ⟨hs, .refl s, ?_⟩
      intro w hw
      cases hw
    | some b =>
      by_cases hin : x ∈ s.inProgress
      · rw [consult_of_inProgress hv hb hin]
        refine ⟨hs, .refl s, ?_⟩
        intro w hw
        cases hw
      · obtain ⟨b0, hb0, htraces⟩ := exists_body t.relation_traces h hb
        obtain ⟨hs1, hext, hfound⟩ := htraces _ (hs.inProgress (x :: s.inProgress))
        rcases hr : b { s with inProgress := x :: s.inProgress } with ⟨r, s1⟩
        rw [hr] at hs1 hext hfound
        rw [consult_of_body hv hb hin hr]
        cases r with
        | error e =>
          refine ⟨hs1.inProgress _, hext.during, ?_⟩
          intro w hw
          cases hw
        | ok v =>
          -- While the name was in progress, nothing has been kept for it.
          have hlacks := hext.lacks x mem_cons_self
            (Memo.lacks_inProgress.2 (hs.lacks hapart hb hv))
          rw [← Memo.lacks_inProgress] at hlacks
          have hnow := hfound v rfl { s1 with inProgress := s1.inProgress.erase x }
            (Memo.within_inProgress.2 (.refl s1))
          refine ⟨.put (hs1.inProgress _) hlacks hb0 hnow, hext.during.trans ?_, ?_⟩
          · refine ⟨hlacks.within_put v, inProgress_put _ _ _ _, ?_⟩
            intro y hy hlacks'
            refine hlacks'.put ?_ v
            rintro rfl
            rw [hext.during.inProgress] at hy
            exact hin hy
          · intro w hw s' hs'
            cases hw
            exact atHand_of_kept (hs' k x v (get?_put_self _ _ _ _))

/-- At every depth, what names mean follows from what is kept. -/
theorem related_traces (hapart : t.Apart) (n : Nat) :
    (t.namesOfDepth n).Related t.Traces (t.namesOfDepth 0) := by
  induction n with
  | zero =>
    refine ⟨rfl, rfl, ?_, ?_⟩
    · intro x
      have hconst := t.traces_atHand .constants x
      rw [atHand_constants] at hconst
      exact t.relation_traces.valueBy t hconst
    · intro x
      have hlayout := t.traces_atHand .layouts x
      rw [atHand_layouts] at hlayout
      exact hlayout
  | succ n ih =>
    refine ⟨rfl, rfl, ?_, ?_⟩
    · intro x
      have hconst := traces_consult hapart ih .constants x
      rw [consult_constants, atHand_constants] at hconst
      exact t.relation_traces.valueBy t hconst
    · intro x
      have hlayout := traces_consult hapart ih .layouts x
      rw [consult_layouts, atHand_layouts] at hlayout
      exact hlayout

end

/-! ## Finding entries again -/

/-- A state in which everything that is kept in `s` can be found: what is kept is as it is in `full`, and
nothing that is kept in `s` is in progress. -/
structure Fits (full s s' : Memo) : Prop where
  within : s'.Within full
  lacks : ∀ x ∈ s'.inProgress, s.Lacks x

/-- If `x` finds a value in what is kept in `s`, then `y` finds it from every state that fits. -/
def Answers (full s : Memo) (α : Type) (x y : Eval α) : Prop :=
  ∀ v s1, x s = (.ok v, s1) → s1 = s ∧ ∀ s', Fits full s s' →
    ∃ s'', y s' = (.ok v, s'') ∧ s''.Within full ∧ s''.inProgress = s'.inProgress

/-- Answers from a larger cache are composed as questions are. -/
theorem relation_answers (full s : Memo) : Eval.Relation (Answers full s) where
  pure a := by
    intro v s1 h
    cases h
    exact ⟨rfl, fun s' hs' => ⟨s', rfl, hs'.within, rfl⟩⟩
  throw e := by
    intro v s1 h
    cases h
  bind := by
    intro α β x y f g hx hf v s2 h
    obtain ⟨a, s1, hxa, hfa⟩ := Attempt.bind_eq_ok.1 h
    obtain ⟨rfl, hy⟩ := hx a s1 hxa
    obtain ⟨rfl, hg⟩ := hf a v s2 hfa
    refine ⟨rfl, ?_⟩
    intro s' hs'
    obtain ⟨s3, hya, hwithin, hin⟩ := hy s' hs'
    obtain ⟨s4, hga, hwithin', hin'⟩ := hg s3 ⟨hwithin, hin ▸ hs'.lacks⟩
    exact ⟨s4, by rw [Attempt.bind_of_ok hya, hga], hwithin', hin'.trans hin⟩

section

variable {t : Symbols} {full s : Memo}
variable {k : Store} {x : String} {v : k.Value} {n : Nat} {s' : Memo}

/-- With less kept, what fits still does. -/
theorem Fits.of_within {s0 : Memo} (h : Fits full s s') (hle : s0.Within s) : Fits full s0 s' := by
  refine ⟨h.within, ?_⟩
  intro x hx k
  cases hv : k.get? s0 x with
  | none => rfl
  | some v =>
    have hkept := hle k x v hv
    rw [h.lacks x hx k] at hkept
    cases hkept

/-- Something can be found from every state that fits. -/
def Findable (t : Symbols) (full s : Memo) (n : Nat) (k : Store) (x : String) (v : k.Value) : Prop :=
  ∀ s', Fits full s s' → ∃ s'', t.consult (t.namesOfDepth n) k x s' = (.ok v, s'') ∧ s''.Within full ∧
    s''.inProgress = s'.inProgress

/-- If everything that is kept can be found, then names mean at the next depth what they mean at hand. -/
theorem related_answers
    (h : ∀ (k : Store) (x : String) (v : k.Value), k.get? s x = some v → t.Findable full s n k x v) :
    (t.namesOfDepth 0).Related (Answers full s) (t.namesOfDepth (n + 1)) := by
  have hanswers : ∀ (k : Store) (x : String),
      Answers full s k.Value (t.atHand k x) (t.consult (t.namesOfDepth n) k x) := by
    intro k x v s1 hv
    obtain ⟨rfl, hkept⟩ := of_atHand hv
    exact ⟨rfl, h k x v (hkept v rfl)⟩
  refine ⟨rfl, rfl, ?_, ?_⟩
  · intro x
    have hconst := hanswers .constants x
    rw [atHand_constants, consult_constants] at hconst
    exact (relation_answers full s).valueBy t hconst
  · intro x
    have hlayout := hanswers .layouts x
    rw [atHand_layouts, consult_layouts] at hlayout
    exact hlayout

/-- What follows from what can be found can be found. -/
theorem findable_put {b : Eval k.Value}
    (h : (t.namesOfDepth 0).Related (Answers full s) (t.namesOfDepth n)) (hx : s.Lacks x)
    (hb : k.body t (t.namesOfDepth 0) x = some b) (hv : b s = (.ok v, s))
    (hfull : k.get? full x = some v) : t.Findable full (k.put s x v) n k x v := by
  intro s' hs'
  have hfits := hs'.of_within (hx.within_put v)
  cases hkept : k.get? s' x with
  | some w =>
    have hw := hs'.within k x w hkept
    rw [hfull] at hw
    cases hw
    exact ⟨s', consult_of_kept hkept, hs'.within, rfl⟩
  | none =>
    have hin : x ∉ s'.inProgress := by
      intro hmem
      have hnone := hs'.lacks x hmem k
      rw [get?_put_self] at hnone
      cases hnone
    -- What the entry follows from is found while its name is in progress.
    have hinside : Fits full s { s' with inProgress := x :: s'.inProgress } := by
      refine ⟨fun j y w hw => hfits.within j y w (by rwa [get?_inProgress] at hw), ?_⟩
      intro y hy
      rcases mem_cons.1 hy with rfl | hy
      · exact hx
      · exact hfits.lacks y hy
    obtain ⟨b', hb', hanswers⟩ := exists_body (relation_answers full s) h hb
    obtain ⟨s1, hs1, hwithin, hprogress⟩ := (hanswers v s hv).2 _ hinside
    refine ⟨_, consult_of_body hkept hb' hin hs1, ?_, ?_⟩
    · refine Memo.Within.put ?_ hfull
      intro j y w hw
      rw [get?_inProgress] at hw
      exact hwithin j y w hw
    · dsimp only
      rw [inProgress_put, hprogress, erase_cons_head]

/-- What is kept in a memo that has been filled in order can be found from every state that fits, at a depth
of as many references as there are entries. -/
theorem Built.findable (h : t.Built s) (hfull : s.Within full) (hn : s.count ≤ n)
    (hv : k.get? s x = some v) : t.Findable full s n k x v := by
  -- An entry is found with the entries before it, which are fewer.
  induction h generalizing n k x with
  | empty =>
    rw [lacks_empty x k] at hv
    cases hv
  | @inProgress s names h ih =>
    rw [get?_inProgress] at hv
    have hold : s.Within full := by
      intro j y w hw
      exact hfull j y w (by rwa [get?_inProgress])
    intro s' hs'
    exact ih hold hn hv s' ⟨hs'.within, fun y hy => Memo.lacks_inProgress.1 (hs'.lacks y hy)⟩
  | @put s j y w b h hy hb hw ih =>
    have hold := (hy.within_put w).trans hfull
    rw [hy.count_put w] at hn
    by_cases hnew : k = j ∧ y = x
    · obtain ⟨rfl, rfl⟩ := hnew
      rw [get?_put_self] at hv
      cases hv
      obtain ⟨m, rfl⟩ := Nat.exists_eq_add_of_lt hn
      have hbefore := related_answers fun i z u hu => ih hold (Nat.le_add_right s.count m) hu
      exact findable_put hbefore hy hb hw (hfull k y v (get?_put_self _ _ _ _))
    · rw [get?_put_of_ne fun hj hx => hnew ⟨hj, hx⟩] at hv
      intro s' hs'
      exact ih hold (Nat.le_of_succ_le hn) hv s' (hs'.of_within (hy.within_put w))

/-- The names for which something is kept are distinct, and they are defined. -/
theorem Built.keys (h : t.Built s) :
    ((s.layouts.map (·.1)).Nodup ∧ s.layouts.map (·.1) ⊆ t.structs.map (·.1)) ∧
      (s.constants.map (·.1)).Nodup ∧ s.constants.map (·.1) ⊆ t.consts.map (·.1) := by
  induction h with
  | empty => exact ⟨⟨nodup_nil, nil_subset _⟩, nodup_nil, nil_subset _⟩
  | inProgress _ _ ih => exact ih
  | @put s k x v b _ hx hb _ ih =>
    cases k with
    | layouts =>
      obtain ⟨fields, hfields, -⟩ := Option.map_eq_some_iff.1 hb
      exact ⟨Assoc.keys_put ih.1.1 ih.1.2 (hx .layouts) hfields, ih.2⟩
    | constants =>
      obtain ⟨const, hconst, -⟩ := Option.map_eq_some_iff.1 hb
      exact ⟨ih.1, Assoc.keys_put ih.2.1 ih.2.2 (hx .constants) hconst⟩

/-- There are no more entries than definitions. -/
theorem Built.count_le (h : t.Built s) : s.count ≤ t.depth := by
  obtain ⟨⟨hnodup, hsub⟩, hnodup', hsub'⟩ := h.keys
  have hlayouts := (hnodup.subperm hsub).length_le
  have hconstants := (hnodup'.subperm hsub').length_le
  rw [length_map, length_map] at hlayouts hconstants
  exact Nat.add_le_add hlayouts hconstants

theorem Built.related_names (h : t.Built s) :
    (t.namesOfDepth 0).Related (Answers s s) t.names :=
  related_answers fun _ _ _ hv => h.findable (.refl s) h.count_le hv

/-! ## Transparency -/

/-- The states that evaluation can reach: things are worked out at any depth of references, and names are in
progress in the meantime. -/
inductive Reaches (t : Symbols) : Memo → Prop where
  | start : Reaches t .empty
  | enter {s : Memo} (h : Reaches t s) (x : String) :
    Reaches t { s with inProgress := x :: s.inProgress }
  | leave {s : Memo} (h : Reaches t s) (x : String) :
    Reaches t { s with inProgress := s.inProgress.erase x }
  | layout {s : Memo} (h : Reaches t s) (n : Nat) (x : String) :
    Reaches t (t.layoutBy (t.namesOfDepth n) x s).2
  | constant {s : Memo} (h : Reaches t s) (n : Nat) (x : String) :
    Reaches t (t.constantBy (t.namesOfDepth n) x s).2

/-- What is reached from a table with nothing kept can be built again. -/
theorem Reaches.built (h : t.Reaches s) (hapart : t.Apart) : t.Built s := by
  induction h with
  | start => exact .empty
  | enter _ _ ih => exact ih.inProgress _
  | leave _ _ ih => exact ih.inProgress _
  | @layout s _ n x ih =>
    have htraces := traces_consult hapart (related_traces hapart n) .layouts x s ih
    rw [consult_layouts] at htraces
    exact htraces.1
  | @constant s _ n x ih =>
    have htraces := traces_consult hapart (related_traces hapart n) .constants x s ih
    rw [consult_constants] at htraces
    exact htraces.1

theorem fits_empty (full : Memo) : Fits full full .empty := by
  constructor
  · intro k x v hv
    rw [lacks_empty x k] at hv
    cases hv
  · exact forall_mem_nil _

/-- What is kept in a memo that has been filled in order is worked out with nothing kept. -/
theorem Built.consult_empty (h : t.Built s)
    (hv : k.get? s x = some v) : (t.consult (t.namesOfDepth t.depth) k x .empty).1 = .ok v := by
  obtain ⟨s', hs', -⟩ := h.findable (.refl s) h.count_le hv .empty (fits_empty s)
  rw [hs']

/-- What can be worked out is kept. -/
theorem Built.get?_of_consult (h : t.Built s) (hapart : t.Apart)
    (hv : (t.consult (t.namesOfDepth n) k x s).1 = .ok v) :
    t.Built (t.consult (t.namesOfDepth n) k x s).2 ∧
      k.get? (t.consult (t.namesOfDepth n) k x s).2 x = some v := by
  obtain ⟨hbuilt, -, hfound⟩ := traces_consult hapart (related_traces hapart n) k x s h
  obtain ⟨-, hkept⟩ := of_atHand (hfound v hv _ (.refl _))
  exact ⟨hbuilt, hkept v rfl⟩

/-- What is kept in one memo that has been filled in order is worked out in any other in which nothing is in
progress. -/
theorem Built.consult_of_built (h : t.Built s) (hin : s.inProgress = []) (h' : t.Built s')
    (hv : k.get? s' x = some v) :
    (t.consult (t.namesOfDepth t.depth) k x s).1 = .ok v := by
  -- Where both memos keep something for a name, it is the same.
  have hwithin : s'.Within (s.union s') := by
    intro j y w hw
    rw [Memo.get?_union]
    cases hs : j.get? s y with
    | none => exact hw
    | some w' =>
      have hempty := h'.consult_empty hw
      rw [h.consult_empty hs] at hempty
      cases hempty
      rfl
  have hfits : Fits (s.union s') s' s := by
    refine ⟨?_, ?_⟩
    · intro j y w hw
      rw [Memo.get?_union, hw]
      rfl
    · rw [hin]
      exact forall_mem_nil _
  obtain ⟨s'', hs'', -⟩ := h'.findable hwithin h'.count_le hv s hfits
  rw [hs'']

/-- What can be worked out in a state that evaluation can reach is worked out with nothing kept and nothing
in progress. -/
theorem Reaches.consult_empty (h : t.Reaches s) (hapart : t.Apart)
    (hv : (t.consult (t.namesOfDepth n) k x s).1 = .ok v) :
    (t.consult (t.namesOfDepth t.depth) k x .empty).1 = .ok v := by
  obtain ⟨hbuilt, hkept⟩ := (h.built hapart).get?_of_consult hapart hv
  exact hbuilt.consult_empty hkept

/-- What can be worked out with nothing kept is worked out in every state that evaluation can reach in which
nothing is in progress. -/
theorem Reaches.consult_of_empty (h : t.Reaches s) (hapart : t.Apart) (hin : s.inProgress = [])
    (hv : (t.consult (t.namesOfDepth t.depth) k x .empty).1 = .ok v) :
    (t.consult (t.namesOfDepth t.depth) k x s).1 = .ok v := by
  obtain ⟨hbuilt, hkept⟩ := Built.get?_of_consult .empty hapart hv
  exact (h.built hapart).consult_of_built hin hbuilt hkept

end

end Symbols

end Sigil
