import Sigil.Parse.Expression
import Sigil.Proofs.Outcome
import Sigil.Proofs.Parsing.Steps

/-!
# Reading tokens

The grammar sees the kinds of the tokens that are neither comments nor lexical errors
(`Cursor.kinds`). A parser is described by what it does to them: it succeeds, drops tokens from the front
only, and leaves the given kinds unread (`Leaves`). Every way to read tokens has one rule here, so that a
proof about a parser follows its text.
-/

namespace Sigil

open List

namespace Token

/-- The kinds of the tokens that mean something to the grammar. -/
def significant (ts : List Token) : List TokenKind :=
  (ts.map (·.kind)).filter fun k => !k.isSkipped

theorem significant_append (ts ts' : List Token) :
    significant (ts ++ ts') = significant ts ++ significant ts' := by
  simp [significant]

theorem length_significant_le (ts : List Token) : (significant ts).length ≤ ts.length := by
  have h := length_filter_le (fun k => !k.isSkipped) (ts.map (·.kind))
  rwa [length_map] at h

theorem significant_eq_map (ts : List Token) : significant ts = (visible ts).map (·.kind) :=
  filter_map

end Token

namespace Cursor

variable {c : Cursor} {k : TokenKind} {ks : List TokenKind}

/-- What the grammar sees of the unread tokens. -/
def kinds (c : Cursor) : List TokenKind :=
  Token.significant c.tokens

theorem kinds_eq_map (c : Cursor) : c.kinds = c.visible.map (·.kind) :=
  Token.significant_eq_map c.tokens

theorem tokens_skip_of_kinds_nil (h : c.kinds = []) : c.skip.tokens = [] := by
  rw [kinds_eq_map, map_eq_nil_iff] at h
  exact skip_of_visible_nil h

theorem tokens_skip_of_kinds_cons (h : c.kinds = k :: ks) :
    ∃ t rest, c.skip.tokens = t :: rest ∧ t.kind = k ∧ Token.significant rest = ks := by
  rw [kinds_eq_map, map_eq_cons_iff] at h
  obtain ⟨t, ts, hvisible, hkind, hkinds⟩ := h
  obtain ⟨rest, hskip, hrest⟩ := skip_of_visible_cons hvisible
  exact ⟨t, rest, hskip, hkind, by rw [Token.significant_eq_map, hrest, hkinds]⟩

@[simp] theorem kinds_skip (c : Cursor) : c.skip.kinds = c.kinds := by
  rw [kinds_eq_map, kinds_eq_map, visible_skip]

theorem skip_of_length_le_zero (h : c.tokens.length ≤ 0) : c.skip = c := by
  obtain ⟨tokens, last⟩ := c
  obtain rfl := eq_nil_of_length_eq_zero (Nat.le_zero.1 h)
  rfl

theorem length_kinds_le (c : Cursor) : c.kinds.length ≤ c.tokens.length :=
  Token.length_significant_le c.tokens

end Cursor

namespace Parser

variable {α β : Type}

/-- The parser succeeds on the cursor, drops tokens from the front only, leaves the given kinds unread
and ends with a value and a cursor that have a property. -/
def Leaves (x : Parser α) (c : Cursor) (ks : List TokenKind) (P : α → Cursor → Prop) : Prop :=
  x.Ends c (fun a c' => c'.tokens <:+ c.tokens ∧ c'.kinds = ks ∧ P a c') fun _ _ => False

section

variable {x : Parser α} {f : α → Parser β} {c : Cursor} {ks ks' : List TokenKind}
  {P P' : α → Cursor → Prop} {Q : β → Cursor → Prop}

theorem Leaves.mono (h : Leaves x c ks P) (hP : ∀ a c', P a c' → P' a c') : Leaves x c ks P' := by
  refine Attempt.Ends.mono h ?_ fun _ _ he => he
  rintro a c' ⟨htokens, hkinds, ha⟩
  exact ⟨htokens, hkinds, hP a c' ha⟩

theorem leaves_pure {a : α} (hc : c.kinds = ks) (ha : P a c) : Leaves (pure a) c ks P :=
  Attempt.ends_pure ⟨suffix_rfl, hc, ha⟩

/-- A sequence goes on from where its first part stops. -/
theorem Leaves.bind (hx : Leaves x c ks P)
    (hf : ∀ a c', c'.kinds = ks → c'.tokens.length ≤ c.tokens.length → P a c' →
      Leaves (f a) c' ks' Q) :
    Leaves (x >>= f) c ks' Q := by
  apply Attempt.ends_bind
  refine Attempt.Ends.mono hx ?_ fun _ _ he => he
  rintro a c' ⟨htokens, hkinds, ha⟩
  refine Attempt.Ends.mono (hf a c' hkinds htokens.length_le ha) ?_ fun _ _ he => he
  rintro b c'' ⟨htokens', hkinds', hb⟩
  exact ⟨htokens'.trans htokens, hkinds', hb⟩

/-- What is known of a parser that leaves given kinds is known of its outcome. -/
theorem Leaves.exists_eq (h : Leaves x c ks P) :
    ∃ a c', x c = (.ok a, c') ∧ c'.tokens <:+ c.tokens ∧ c'.kinds = ks ∧ P a c' := by
  unfold Leaves Attempt.Ends at h
  rcases hx : x c with ⟨r, c'⟩
  rw [hx] at h
  cases r with
  | ok a => exact ⟨a, c', rfl, h⟩
  | error e => exact h.elim

end

/-! ## Single tokens -/

section

variable {c : Cursor} {k : TokenKind} {ks ks' : List TokenKind} {s : Symbol}
variable {P : α → Cursor → Prop}

theorem leaves_remaining (c : Cursor) :
    Leaves remaining c c.kinds fun n c' => c' = c ∧ n = c.tokens.length :=
  ⟨suffix_rfl, rfl, rfl, rfl⟩

theorem leaves_peek (c : Cursor) :
    Leaves peek c c.kinds fun t? c' => t?.map (·.kind) = c.kinds.head? ∧ c' = c.skip := by
  refine ⟨c.suffix_tokens_skip, c.kinds_skip, ?_, rfl⟩
  cases h : c.kinds with
  | nil =>
    rw [c.tokens_skip_of_kinds_nil h]
    rfl
  | cons k ks =>
    obtain ⟨t, rest, htokens, rfl, _⟩ := c.tokens_skip_of_kinds_cons h
    rw [htokens]
    rfl

theorem leaves_here (c : Cursor) : Leaves here c c.kinds fun _ c' => c' = c.skip := by
  refine (leaves_peek c).bind ?_
  rintro t? c' hkinds - ⟨-, rfl⟩
  cases t? with
  | some t => exact leaves_pure hkinds rfl
  | none => exact ⟨suffix_rfl, hkinds, rfl⟩

/-- A token that satisfies the condition is read. -/
theorem leaves_takeIf {cond : Token → Bool} (h : c.kinds = k :: ks)
    (hcond : ∀ pos, cond ⟨k, pos⟩ = true) :
    Leaves (takeIf cond) c ks fun t? c' =>
      (∃ pos, t? = some ⟨k, pos⟩) ∧ c'.tokens.length < c.tokens.length := by
  -- The first token that counts is there behind the skipped ones.
  obtain ⟨⟨kind, pos⟩, rest, htokens, hkind, hrest⟩ := c.tokens_skip_of_kinds_cons h
  obtain rfl : kind = k := hkind
  have hsuffix : rest <:+ c.tokens := by
    have hskip := c.suffix_tokens_skip
    rw [htokens] at hskip
    exact (suffix_cons _ rest).trans hskip
  have hlength : rest.length < c.tokens.length := by
    have hskip := c.suffix_tokens_skip.length_le
    rw [htokens] at hskip
    exact hskip
  have htake : takeIf cond c = (.ok (some ⟨kind, pos⟩), ⟨rest, pos⟩) := by
    unfold takeIf
    rw [htokens]
    exact if_pos (hcond pos)
  unfold Leaves Attempt.Ends
  rw [htake]
  exact ⟨hsuffix, hrest, ⟨pos, rfl⟩, hlength⟩

/-- A token that does not satisfy the condition stays. -/
theorem leaves_takeIf_none {cond : Token → Bool}
    (hcond : ∀ k pos, c.kinds.head? = some k → cond ⟨k, pos⟩ = false) :
    Leaves (takeIf cond) c c.kinds fun t? c' => t? = none ∧ c' = c.skip := by
  have htake : takeIf cond c = (.ok none, c.skip) := by
    unfold takeIf
    cases h : c.kinds with
    | nil => rw [c.tokens_skip_of_kinds_nil h]
    | cons k ks =>
      obtain ⟨⟨_, pos⟩, rest, htokens, rfl, _⟩ := c.tokens_skip_of_kinds_cons h
      have hno := hcond _ pos (congrArg head? h)
      rw [htokens]
      exact if_neg (Bool.eq_false_iff.1 hno)
  unfold Leaves Attempt.Ends
  rw [htake]
  exact ⟨c.suffix_tokens_skip, c.kinds_skip, rfl, rfl⟩

theorem leaves_next (h : c.kinds = k :: ks) :
    Leaves next c ks fun _ c' => c'.tokens.length < c.tokens.length :=
  (leaves_takeIf h fun _ => rfl).mono fun _ _ hnext => hnext.2

theorem leaves_expect {cond : Token → Bool} {expected : String} (h : c.kinds = k :: ks)
    (hcond : ∀ pos, cond ⟨k, pos⟩ = true) :
    Leaves (expect cond expected) c ks fun t _ => t.kind = k := by
  refine (leaves_takeIf h hcond).bind ?_
  rintro _ c' hkinds - ⟨⟨pos, rfl⟩, -⟩
  exact leaves_pure hkinds rfl

theorem leaves_expectSymbol (h : c.kinds = .symbol s :: ks) :
    Leaves (expectSymbol s) c ks fun _ _ => True :=
  (leaves_expect h fun _ => beq_self_eq_true _).mono fun _ _ _ => trivial

/-- What stands before a closing symbol is read together with it. -/
theorem Leaves.closed {x : Parser α} {f : α → β} {Q : β → Prop}
    (hx : Leaves x c (.symbol s :: ks) P) (hf : ∀ a c', P a c' → Q (f a)) :
    Leaves (do let a ← x; let _ ← expectSymbol s; return f a) c ks fun b _ => Q b := by
  refine hx.bind ?_
  rintro a c1 h1 - ha
  refine (leaves_expectSymbol h1).bind ?_
  rintro _ c2 h2 - -
  exact leaves_pure h2 (hf a c1 ha)

theorem leaves_name {x : String} (h : c.kinds = .ident x :: ks) :
    Leaves name c ks fun y _ => y = x := by
  refine (leaves_expect h fun _ => rfl).bind ?_
  rintro ⟨_, pos⟩ c' hkinds - rfl
  exact leaves_pure hkinds rfl

theorem leaves_takeSymbol (h : c.kinds = .symbol s :: ks) :
    Leaves (takeSymbol s) c ks fun b c' => b = true ∧ c'.tokens.length < c.tokens.length := by
  refine (leaves_takeIf h fun _ => beq_self_eq_true _).bind ?_
  rintro _ c' hkinds - ⟨⟨pos, rfl⟩, hlength⟩
  exact leaves_pure hkinds ⟨rfl, hlength⟩

theorem isSymbol_eq_false (h : k ≠ .symbol s) (pos : Position) : isSymbol s ⟨k, pos⟩ = false :=
  beq_false_of_ne h

theorem leaves_takeSymbol_none (h : c.kinds.head? ≠ some (.symbol s)) :
    Leaves (takeSymbol s) c c.kinds fun b c' => b = false ∧ c' = c.skip := by
  refine (leaves_takeIf_none ?_).bind ?_
  · rintro k pos hk
    exact isSymbol_eq_false (fun hs => h (hs ▸ hk)) pos
  · rintro _ c' hkinds - ⟨rfl, hc'⟩
    exact leaves_pure hkinds ⟨rfl, hc'⟩

theorem leaves_check_none (h : c.kinds.head? ≠ some (.symbol s)) :
    Leaves (check (isSymbol s)) c c.kinds fun b _ => b = false := by
  refine (leaves_peek c).bind ?_
  rintro t? c' hkinds - ⟨ht, -⟩
  cases t? with
  | some t =>
    refine leaves_pure hkinds (isSymbol_eq_false ?_ t.pos)
    intro hs
    exact h (ht.symm.trans (congrArg some hs))
  | none => exact leaves_pure hkinds rfl

theorem leaves_check (h : c.kinds = .symbol s :: ks) :
    Leaves (check (isSymbol s)) c c.kinds fun b _ => b = true := by
  refine (leaves_peek c).bind ?_
  rintro t? c' hkinds - ⟨ht, -⟩
  rw [h] at ht
  cases t? with
  | some t =>
    refine leaves_pure hkinds ?_
    exact beq_iff_eq.2 (Option.some.inj ht)
  | none => cases ht

/-- A choice by the next symbol, which is there. -/
theorem leaves_choice {yes no : Parser α}
    (h : c.kinds = .symbol s :: ks)
    (hyes : ∀ c', c'.kinds = ks → c'.tokens.length < c.tokens.length → Leaves yes c' ks' P) :
    Leaves (do if ← takeSymbol s then yes else no) c ks' P := by
  refine (leaves_takeSymbol h).bind ?_
  rintro _ c' hkinds - ⟨rfl, hlength⟩
  exact hyes c' hkinds hlength

/-- A choice by the next symbol, which is another one. -/
theorem leaves_choice_none {yes no : Parser α} (hskip : c.skip = c)
    (hc : c.kinds = ks) (h : ks.head? ≠ some (.symbol s)) (hno : Leaves no c ks' P) :
    Leaves (do if ← takeSymbol s then yes else no) c ks' P := by
  refine (leaves_takeSymbol_none (hc ▸ h)).bind ?_
  rintro _ _ - - ⟨rfl, rfl⟩
  rw [hskip]
  exact hno

end

end Parser

end Sigil
