import Sigil.Proofs.Order.Caches

/-!
# References between names come to an end

Working out a struct or a constant can lead to any other name, through fields, lengths, sizes and values, and
back again. What brings it to an end is that a name is in progress while it is worked out: a reference that is
followed puts one more name in progress, so the names that are still waiting (`Symbols.waiting`) bound how
deep references go. What would happen at a greater depth is never asked for (`Symbols.namesOver`), and the
bound that evaluation is defined by is no bound on it: layouts and constants are worked out by way of
themselves (`Symbols.evaluation_ends`).

Names are in progress only for as long as they are worked out, so that every evaluation, also one that fails
half-way, leaves the names in progress as it found them.
-/

namespace Sigil.Symbols

open List

/-! ## Names that are waiting -/

/-- The structs and constants that are not in progress. -/
def waiting (t : Symbols) (s : Memo) : List String :=
  (t.structs.map (·.1) ++ t.consts.map (·.1)).filter fun x => !s.inProgress.contains x

section

variable (t : Symbols) (constant : String → Eval (Option Constant)) (layout : String → Eval Layout)

/-- What names mean down to a depth of references, with any values and layouts below it. -/
def namesOver : Nat → Names
  | 0 =>
    { kind := t.kind
      variant := t.variant
      constant := constant
      layout := layout }
  | n + 1 =>
    { kind := t.kind
      variant := t.variant
      constant := t.valueBy fun x => t.constantBy (namesOver n) x
      layout := fun x => t.layoutBy (namesOver n) x }

theorem kind_namesOver (n : Nat) : (t.namesOver constant layout n).kind = t.kind := by
  cases n <;> rfl

theorem variant_namesOver (n : Nat) : (t.namesOver constant layout n).variant = t.variant := by
  cases n <;> rfl

theorem namesOfDepth_eq_namesOver (n : Nat) :
    t.namesOfDepth n = t.namesOver (t.valueBy t.constantAtHand) t.layoutAtHand n := by
  induction n with
  | zero => rfl
  | succ n ih =>
    unfold namesOfDepth namesOver
    rw [ih]

end

variable {t : Symbols} {s : Memo} {x : String} {k : Store} {n m : Nat} {names names' : Names}

theorem length_waiting_le (t : Symbols) (s : Memo) : (t.waiting s).length ≤ t.depth := by
  have hle := length_filter_le (fun x => !s.inProgress.contains x)
    (t.structs.map (·.1) ++ t.consts.map (·.1))
  rwa [length_append, length_map, length_map] at hle

/-- Only what is defined is worked out. -/
theorem mem_of_body {b : Eval k.Value} (hb : k.body t names x = some b) :
    x ∈ t.structs.map (·.1) ++ t.consts.map (·.1) := by
  rw [mem_append]
  by_contra hx
  obtain ⟨hstruct, hconst⟩ := not_or.1 hx
  cases k with
  | layouts =>
    rw [Store.body, Assoc.get?_eq_none_iff.2 hstruct] at hb
    cases hb
  | constants =>
    rw [Store.body, Assoc.get?_eq_none_iff.2 hconst] at hb
    cases hb

/-- A name that is worked out is no longer waiting. -/
theorem length_waiting_lt (hmem : x ∈ t.structs.map (·.1) ++ t.consts.map (·.1))
    (hx : x ∉ s.inProgress) :
    (t.waiting { s with inProgress := x :: s.inProgress }).length < (t.waiting s).length := by
  have hfilter : t.waiting { s with inProgress := x :: s.inProgress } =
      (t.waiting s).filter fun y => !y == x := by
    unfold waiting
    rw [filter_filter]
    refine filter_congr fun y _ => ?_
    rw [contains_cons, Bool.not_or]
  rw [hfilter, length_filter_lt_length_iff_exists]
  refine ⟨x, ?_, by simp⟩
  exact mem_filter.2 ⟨hmem, by simpa using hx⟩

/-! ## Evaluations that agree while few names are waiting -/

/-- Wherever fewer than `n` names are waiting, both evaluations do the same, and they leave the names in
progress as they are. -/
def Restores (t : Symbols) (n : Nat) (α : Type) (x y : Eval α) : Prop :=
  ∀ s, (t.waiting s).length < n → x s = y s ∧ (x s).2.inProgress = s.inProgress

/-- The relation of evaluations that end alike is kept by every way of composing them. -/
theorem relation_restores (t : Symbols) (n : Nat) : Eval.Relation (t.Restores n) where
  pure _ _ _ := ⟨rfl, rfl⟩
  throw _ _ _ := ⟨rfl, rfl⟩
  bind := by
    intro α β x y f g hxy hfg s hs
    obtain ⟨heq, hsame⟩ := hxy s hs
    rcases hx : x s with ⟨r, s1⟩
    rw [hx] at heq hsame
    cases r with
    | error e =>
      rw [Attempt.bind_of_error hx, Attempt.bind_of_error heq.symm]
      exact ⟨rfl, hsame⟩
    | ok a =>
      rw [Attempt.bind_of_ok hx, Attempt.bind_of_ok heq.symm]
      have hwaiting : t.waiting s1 = t.waiting s := by
        unfold waiting
        rw [hsame]
      obtain ⟨heq', hsame'⟩ := hfg a s1 (hwaiting ▸ hs)
      exact ⟨heq', hsame'.trans hsame⟩

/-- What is worked out by way of names that agree while `n` names are waiting agrees while one more is. -/
theorem restores_consult (h : names.Related (t.Restores n) names') (k : Store) (x : String) :
    t.Restores (n + 1) k.Value (t.consult names k x) (t.consult names' k x) := by
  have hR := t.relation_restores n
  intro s hs
  cases hv : k.get? s x with
  | some v =>
    rw [consult_of_kept hv, consult_of_kept hv]
    exact ⟨rfl, rfl⟩
  | none =>
    cases hb : k.body t names x with
    | none =>
      have hb' : k.body t names' x = none := by
        cases k with
        | layouts => simpa [Store.body] using hb
        | constants => simpa [Store.body] using hb
      rw [consult_of_unknown hv hb, consult_of_unknown hv hb']
      exact ⟨rfl, rfl⟩
    | some b =>
      obtain ⟨b', hb', hbody⟩ := Store.exists_body hR h hb
      by_cases hx : x ∈ s.inProgress
      · rw [consult_of_inProgress hv hb hx, consult_of_inProgress hv hb' hx]
        exact ⟨rfl, rfl⟩
      · -- The name is put in progress, so one name less is waiting for the rest.
        have hless := length_waiting_lt (mem_of_body hb) hx
        obtain ⟨heq, hsame⟩ := hbody { s with inProgress := x :: s.inProgress } (by omega)
        rcases hr : b { s with inProgress := x :: s.inProgress } with ⟨r, s1⟩
        rw [hr] at heq hsame
        rw [consult_of_body hv hb hx hr, consult_of_body hv hb' hx heq.symm]
        have hback : s1.inProgress.erase x = s.inProgress := by
          rw [show s1.inProgress = x :: s.inProgress from hsame, erase_cons_head]
        cases r with
        | ok v => exact ⟨rfl, (Store.inProgress_put k _ x v).trans hback⟩
        | error e => exact ⟨rfl, hback⟩

/-- However deep references are followed, and whatever comes below: names mean the same wherever fewer
names are waiting. -/
theorem related_namesOver (t : Symbols) (constant constant' : String → Eval (Option Constant))
    (layout layout' : String → Eval Layout) {n d d' : Nat} (hd : n ≤ d) (hd' : n ≤ d') :
    (t.namesOver constant layout d).Related (t.Restores n) (t.namesOver constant' layout' d') := by
  have hkind := (t.kind_namesOver constant layout d).trans (t.kind_namesOver constant' layout' d').symm
  have hvariant :=
    (t.variant_namesOver constant layout d).trans (t.variant_namesOver constant' layout' d').symm
  induction n generalizing d d' with
  | zero => exact ⟨hkind, hvariant, fun _ _ hs => absurd hs (Nat.not_lt_zero _),
      fun _ _ hs => absurd hs (Nat.not_lt_zero _)⟩
  | succ n ih =>
    cases d with
    | zero => omega
    | succ d =>
      cases d' with
      | zero => omega
      | succ d' =>
        have hbelow := ih (Nat.le_of_succ_le_succ hd) (Nat.le_of_succ_le_succ hd')
          ((t.kind_namesOver constant layout d).trans (t.kind_namesOver constant' layout' d').symm)
          ((t.variant_namesOver constant layout d).trans (t.variant_namesOver constant' layout' d').symm)
        refine ⟨hkind, hvariant, fun x => ?_, fun x => ?_⟩
        · have hconst := restores_consult hbelow .constants x
          rw [consult_constants, consult_constants] at hconst
          exact (t.relation_restores (n + 1)).valueBy t hconst
        · have hlayout := restores_consult hbelow .layouts x
          rwa [consult_layouts, consult_layouts] at hlayout

/-! ## The end of references -/

/-- From a state, references are followed at most so deep: whatever names might mean below that, every
evaluation ends in the same way. -/
structure EndsWithin (t : Symbols) (n : Nat) (s : Memo) : Prop where
  layout : ∀ constant layout x, t.layoutBy (t.namesOver constant layout n) x s = t.layout x s
  globalConst : ∀ constant layout x,
    t.constantBy (t.namesOver constant layout n) x s = t.globalConst x s
  sizeOf : ∀ constant layout ty,
    (t.namesOver constant layout (n + 1)).sizeOf ty s = t.names.sizeOf ty s
  resolve : ∀ constant layout type,
    (t.namesOver constant layout (n + 1)).resolve type s = t.names.resolve type s
  eval : ∀ constant layout e,
    (t.namesOver constant layout (n + 1)).eval e s = t.names.eval e s
  arrayLength : ∀ constant layout e,
    ((t.namesOver constant layout (n + 1)).eval e >>= Names.arrayLength) s =
      (t.names.eval e >>= Names.arrayLength) s

/-- The depth that evaluation is defined by is one of those that are enough. -/
theorem related_namesOfDepth (constant : String → Eval (Option Constant)) (layout : String → Eval Layout)
    {d d' : Nat} (hd : n ≤ d) (hd' : n ≤ d') :
    (t.namesOver constant layout d).Related (t.Restores n) (t.namesOfDepth d') := by
  rw [t.namesOfDepth_eq_namesOver d']
  exact t.related_namesOver _ _ _ _ hd hd'

theorem restores_layout (constant : String → Eval (Option Constant)) (layout : String → Eval Layout)
    {d : Nat} (hd : n ≤ d) (hn : n ≤ t.depth) (x : String) :
    t.Restores (n + 1) Layout (t.layoutBy (t.namesOver constant layout d) x) (t.layout x) := by
  have h := restores_consult (related_namesOfDepth (t := t) constant layout hd hn) .layouts x
  rwa [consult_layouts, consult_layouts] at h

theorem restores_globalConst (constant : String → Eval (Option Constant))
    (layout : String → Eval Layout) {d : Nat} (hd : n ≤ d) (hn : n ≤ t.depth) (x : String) :
    t.Restores (n + 1) GlobalConst (t.constantBy (t.namesOver constant layout d) x)
      (t.globalConst x) := by
  have h := restores_consult (related_namesOfDepth (t := t) constant layout hd hn) .constants x
  rwa [consult_constants, consult_constants] at h

theorem endsWithin (t : Symbols) (s : Memo) : t.EndsWithin (t.waiting s).length s := by
  have hn := t.length_waiting_le s
  have hs := Nat.lt_succ_self (t.waiting s).length
  have hR := t.relation_restores ((t.waiting s).length + 1)
  have hnames := fun constant layout =>
    related_namesOfDepth (t := t) constant layout (Nat.le_refl ((t.waiting s).length + 1))
      (Nat.succ_le_succ hn)
  constructor
  · exact fun constant layout x => (restores_layout constant layout (Nat.le_refl _) hn x s hs).1
  · exact fun constant layout x => (restores_globalConst constant layout (Nat.le_refl _) hn x s hs).1
  · exact fun constant layout ty => ((hnames constant layout).sizeOf hR ty s hs).1
  · exact fun constant layout type => ((hnames constant layout).resolve hR type s hs).1
  · exact fun constant layout e => ((hnames constant layout).eval hR e s hs).1
  · exact fun constant layout e =>
      (hR.bind ((hnames constant layout).eval hR e) hR.arrayLength s hs).1

/-- Evaluation comes to an end and leaves the names in progress as they are, whatever is in progress at its
start. References are followed no deeper than there are names waiting. Layouts and constants are worked out
by way of names whose layouts and constants are worked out in the same way, without any bound on the depth.
Whether or not it succeeds, working one out leaves in progress exactly what was in progress before. -/
theorem evaluation_ends (t : Symbols) (s : Memo) :
    t.EndsWithin (t.waiting s).length s ∧
    (∀ x, t.layout x s = t.layoutBy t.names x s ∧ t.globalConst x s = t.constantBy t.names x s) ∧
    ∀ x, (t.layout x s).2.inProgress = s.inProgress ∧
      (t.globalConst x s).2.inProgress = s.inProgress := by
  have hs : (t.waiting s).length < t.depth + 1 := Nat.lt_succ_of_le (t.length_waiting_le s)
  have hlayout := fun x => restores_layout (t.valueBy t.constantAtHand) t.layoutAtHand
    (Nat.le_succ t.depth) (Nat.le_refl t.depth) x s hs
  have hconst := fun x => restores_globalConst (t.valueBy t.constantAtHand) t.layoutAtHand
    (Nat.le_succ t.depth) (Nat.le_refl t.depth) x s hs
  refine ⟨t.endsWithin s, fun x => ⟨?_, ?_⟩, fun x => ⟨?_, ?_⟩⟩
  · rw [names, namesOfDepth_eq_namesOver]
    exact (hlayout x).1.symm
  · rw [names, namesOfDepth_eq_namesOver]
    exact (hconst x).1.symm
  · rw [← (hlayout x).1]
    exact (hlayout x).2
  · rw [← (hconst x).1]
    exact (hconst x).2

/-- A struct with a field that is as long as the struct is large. -/
def ouroboros : Program :=
  [⟨"N", .origin, .const none (.sizeof ⟨.origin, none⟩ (.named "S"))⟩,
    ⟨"S", .origin, .struct [("tail", .array (.ident ⟨.origin, none⟩ "N") .char)]⟩]

example : (indexAll empty ouroboros).1.layout "S" .empty =
    (.error (.error (.recursiveType "S")), .empty) := by
  rfl

end Sigil.Symbols
