import Sigil.Parse.Cursor

/-!
# Parsers in step

The grammar sees the unread tokens without comments and lexical errors (`Cursor.visible`). Two parsers are
in step if, wherever they are run on cursors that look alike, they end in the same way and leave cursors
that look alike again (`Parser.InStep`). It is said for given visible tokens, so that it also says how far
they get: tokens are dropped from the front only, and at least a given number of visible ones by a success.
From tokens at places with a given property they read values with a given property, and a failure is at
such a place.

Every way to build a parser has one rule here. A repetition, which may run as often as there are unread
tokens of any kind, is in step with one that may run more or less often, as long as both may run as often
as there are visible tokens.
-/

namespace Sigil

open Attempt List

/-- The tokens that mean something to the grammar. -/
def Token.visible (ts : List Token) : List Token :=
  ts.filter fun t => !t.kind.isSkipped

theorem Token.visible_dropWhile (ts : List Token) :
    visible (ts.dropWhile (·.kind.isSkipped)) = visible ts := by
  induction ts with
  | nil => rfl
  | cons t ts ih =>
    by_cases ht : t.kind.isSkipped = true
    · simpa [visible, ht] using ih
    · simp [ht]

/-- What is not passed over in front of some tokens is the first visible one. -/
theorem Token.dropWhile_visible (ts : List Token) :
    (ts.dropWhile (·.kind.isSkipped) = [] ∧ visible ts = []) ∨
      ∃ t rest, ts.dropWhile (·.kind.isSkipped) = t :: rest ∧ t.kind.isSkipped = false ∧
        visible ts = t :: visible rest := by
  induction ts with
  | nil => exact .inl ⟨rfl, rfl⟩
  | cons t ts ih =>
    by_cases ht : t.kind.isSkipped = true
    · simpa [visible, ht] using ih
    · exact .inr ⟨t, ts, by simp [ht], by simpa using ht, by simp [visible, ht]⟩

namespace Cursor

variable {P : Position → Prop}

/-- The unread tokens that mean something to the grammar. -/
def visible (c : Cursor) : List Token :=
  Token.visible c.tokens

/-- The grammar sees the same in both places: the cursors differ at most in comments and lexical errors. -/
structure Alike (c c' : Cursor) : Prop where
  visible : c.visible = c'.visible
  last : c.last = c'.last

variable {c c' : Cursor} {t : Token} {ts : List Token}

theorem skip_of_visible_nil (h : c.visible = []) : c.skip.tokens = [] := by
  rcases Token.dropWhile_visible c.tokens with ⟨hdrop, -⟩ | ⟨t, rest, -, -, hvisible⟩
  · exact hdrop
  · cases h.symm.trans hvisible

theorem skip_of_visible_cons (h : c.visible = t :: ts) :
    ∃ rest, c.skip.tokens = t :: rest ∧ Token.visible rest = ts := by
  rcases Token.dropWhile_visible c.tokens with ⟨-, hvisible⟩ | ⟨t', rest, hdrop, -, hvisible⟩
  · cases h.symm.trans hvisible
  · obtain ⟨rfl, hrest⟩ := cons.inj (hvisible.symm.trans h)
    exact ⟨rest, hdrop, hrest⟩

@[simp] theorem visible_skip (c : Cursor) : c.skip.visible = c.visible :=
  Token.visible_dropWhile c.tokens

theorem head?_skip (c : Cursor) : c.skip.tokens.head? = c.visible.head? := by
  cases h : c.visible with
  | nil => rw [skip_of_visible_nil h]
  | cons t ts =>
    obtain ⟨rest, hrest, -⟩ := skip_of_visible_cons h
    rw [hrest]
    rfl

@[simp] theorem skip_skip (c : Cursor) : c.skip.skip = c.skip := by
  unfold skip
  rcases Token.dropWhile_visible c.tokens with ⟨hdrop, -⟩ | ⟨t, rest, hdrop, ht, -⟩
  · rw [hdrop]
    rfl
  · rw [hdrop]
    simp [ht]

theorem suffix_tokens_skip (c : Cursor) : c.skip.tokens <:+ c.tokens :=
  dropWhile_suffix _

theorem length_visible_le_of_suffix (h : c'.tokens <:+ c.tokens) : c'.visible.length ≤ c.visible.length :=
  (h.filter _).length_le

theorem length_visible_le (c : Cursor) : c.visible.length ≤ c.tokens.length :=
  length_filter_le _ _

theorem Alike.refl (c : Cursor) : c.Alike c :=
  ⟨rfl, rfl⟩

theorem Alike.symm (h : c.Alike c') : c'.Alike c :=
  ⟨h.visible.symm, h.last.symm⟩

theorem Alike.trans {c'' : Cursor} (h : c.Alike c') (h' : c'.Alike c'') : c.Alike c'' :=
  ⟨h.visible.trans h'.visible, h.last.trans h'.last⟩

theorem alike_skip (c : Cursor) : c.skip.Alike c :=
  ⟨c.visible_skip, rfl⟩

theorem Alike.skip (h : c.Alike c') : c.skip.Alike c'.skip :=
  (c.alike_skip.trans h).trans c'.alike_skip.symm

/-- The tokens that are left and the last one that has been read stand at places with the property. -/
structure At (P : Position → Prop) (c : Cursor) : Prop where
  tokens : ∀ t ∈ c.tokens, P t.pos
  last : P c.last

theorem At.skip (h : c.At P) : c.skip.At P :=
  ⟨fun t ht => h.tokens t (c.suffix_tokens_skip.subset ht), h.last⟩

theorem at_any (c : Cursor) : c.At fun _ => True :=
  ⟨fun _ _ => trivial, trivial⟩

theorem At.visible (h : c.At P) : ∀ t ∈ c.visible, P t.pos :=
  fun t ht => h.tokens t (mem_filter.1 ht).1

end Cursor

namespace Parser

variable {α β : Type} {P : Position → Prop} {Q : α → Prop} {R : β → Prop} {ts ts' unread unread' : List Token}
  {j k : Nat}

/-- Two ends of reading that look the same, from the given visible and unread tokens. Tokens have been dropped
from the front only and, by a success, at least `k` visible ones. -/
structure Ended (P : Position → Prop) (ts unread : List Token) (k : Nat) (Q : α → Prop)
    (r r' : Except (Located ParseError) α × Cursor) : Prop where
  same : r.1 = r'.1
  alike : r.2.Alike r'.2
  suffix : r.2.tokens <:+ unread
  last : P r.2.last
  read : ∀ a, r.1 = .ok a → r.2.visible.length + k ≤ ts.length ∧ Q a
  error : ∀ e, r.1 = .error e → P e.pos

section

variable {r r' : Except (Located ParseError) α × Cursor}

/-- From more tokens. -/
theorem Ended.mono (h : Ended P ts unread k Q r r') (hunread : unread <:+ unread')
    (hts : ts.length + j ≤ ts'.length + k) : Ended P ts' unread' j Q r r' := by
  refine ⟨h.same, h.alike, h.suffix.trans hunread, h.last, fun a ha => ?_, h.error⟩
  obtain ⟨hlength, hq⟩ := h.read a ha
  exact ⟨by omega, hq⟩

theorem Ended.at (h : Ended P ts unread k Q r r') (hunread : ∀ t ∈ unread, P t.pos) : r.2.At P :=
  ⟨fun t ht => hunread t (h.suffix.subset ht), h.last⟩

end

/-- Both parsers end in the same way where the given tokens are visible and stand, like all others, at places
with the property `P`. What they read has the property `Q`. -/
def InStep (P : Position → Prop) (ts : List Token) (k : Nat) (Q : α → Prop) (x y : Parser α) : Prop :=
  ∀ c c' : Cursor, c.visible = ts → c.Alike c' → c.At P → Ended P ts c.tokens k Q (x c) (y c')

section

variable {x y : Parser α} {f g : α → Parser β}

theorem InStep.weaken (h : InStep P ts k Q x y) (hj : j ≤ k) : InStep P ts j Q x y := by
  intro c c' hc hcc' hat
  exact (h c c' hc hcc' hat).mono suffix_rfl (Nat.add_le_add_left hj _)

theorem InStep.zero (h : InStep P ts k Q x y) : InStep P ts 0 Q x y :=
  h.weaken (Nat.zero_le k)

/-- Visible tokens are at places with the property. -/
theorem inStep_of_places (h : (∀ t ∈ ts, P t.pos) → InStep P ts k Q x y) : InStep P ts k Q x y := by
  intro c c' hc hcc' hat
  exact h (hc ▸ hat.visible) c c' hc hcc' hat

theorem inStep_pure {a : α} (ha : Q a) : InStep P ts 0 Q (pure a) (pure a) := by
  intro c c' hc hcc' hat
  refine ⟨rfl, hcc', suffix_rfl, hat.last, ?_, fun _ he => by cases he⟩
  rintro _ ⟨⟩
  exact ⟨hc ▸ Nat.le_refl _, ha⟩

theorem inStep_failAt {pos : Position} (hpos : P pos) (e : ParseError) :
    InStep P ts k Q (failAt pos e) (failAt pos e) := by
  intro c c' _ hcc' hat
  refine ⟨rfl, hcc', suffix_rfl, hat.last, fun _ ha => (by cases ha), ?_⟩
  rintro _ ⟨⟩
  exact hpos

/-- A sequence goes on in step from wherever its first part stops. -/
theorem InStep.andThen (hx : InStep P ts k Q x y)
    (hf : ∀ a ts', ts'.length + k ≤ ts.length → Q a → InStep P ts' j R (f a) (g a)) :
    InStep P ts (k + j) R (x >>= f) (y >>= g) := by
  intro c c' hc hcc' hat
  have hfirst := hx c c' hc hcc' hat
  rcases hxc : x c with ⟨r, c1⟩
  rcases hyc : y c' with ⟨r', c1'⟩
  rw [hxc, hyc] at hfirst
  obtain rfl : r = r' := hfirst.same
  cases r with
  | error e =>
    rw [bind_of_error hxc, bind_of_error hyc]
    refine ⟨rfl, hfirst.alike, hfirst.suffix, hfirst.last, fun _ ha => (by cases ha), ?_⟩
    rintro _ ⟨⟩
    exact hfirst.error e rfl
  | ok a =>
    obtain ⟨hlength, ha⟩ := hfirst.read a rfl
    rw [bind_of_ok hxc, bind_of_ok hyc]
    have hrest := hf a _ hlength ha c1 c1' rfl hfirst.alike (hfirst.at hat.tokens)
    exact hrest.mono hfirst.suffix (by omega)

/-- A sequence whose first part may have read something. -/
theorem InStep.bind (hx : InStep P ts k Q x y)
    (hf : ∀ a ts', ts'.length ≤ ts.length → Q a → InStep P ts' j R (f a) (g a)) :
    InStep P ts j R (x >>= f) (y >>= g) := by
  refine (hx.zero.andThen fun a ts' hts' => hf a ts' ?_).weaken ?_
  · omega
  · omega

/-- A sequence whose first part reads something: the rest has fewer tokens before it. -/
theorem InStep.first (hx : InStep P ts 1 Q x y)
    (hf : ∀ a ts', ts'.length < ts.length → Q a → InStep P ts' 0 R (f a) (g a)) :
    InStep P ts 1 R (x >>= f) (y >>= g) :=
  hx.andThen fun a ts' hts' => hf a ts' (by omega)

theorem InStep.map (hx : InStep P ts k Q x y) {f : α → β} (hf : ∀ a, Q a → R (f a)) :
    InStep P ts k R (x >>= fun a => pure (f a)) (y >>= fun a => pure (f a)) :=
  hx.andThen fun a _ _ ha => inStep_pure (hf a ha)

end

/-! ## Single tokens -/

section

variable {f g : Option Token → Parser β} {t : Token} {c : Cursor}

theorem peek_eq (c : Cursor) : peek c = (.ok c.visible.head?, c.skip) := by
  rw [← c.head?_skip]
  rfl

/-- The next token stays unread. -/
theorem inStep_peek (h : InStep P ts k R (f ts.head?) (g ts.head?)) :
    InStep P ts k R (peek >>= f) (peek >>= g) := by
  intro c c' hc hcc' hat
  have hc' : c'.visible = ts := hcc'.visible ▸ hc
  rw [bind_of_ok (peek_eq c), bind_of_ok (peek_eq c'), hc, hc']
  have hrest := h c.skip c'.skip (c.visible_skip.trans hc) hcc'.skip hat.skip
  exact hrest.mono c.suffix_tokens_skip (Nat.le_refl _)

theorem takeIf_of_cons (cond : Token → Bool) (h : c.visible = t :: ts) :
    ∃ rest, Token.visible rest = ts ∧ t :: rest <:+ c.tokens ∧
      takeIf cond c = if cond t then (.ok (some t), ⟨rest, t.pos⟩) else (.ok none, c.skip) := by
  obtain ⟨rest, hrest, hvisible⟩ := Cursor.skip_of_visible_cons h
  refine ⟨rest, hvisible, hrest ▸ c.suffix_tokens_skip, ?_⟩
  unfold takeIf
  rw [hrest]

theorem takeIf_of_nil {cond : Token → Bool} (h : c.visible = []) : takeIf cond c = (.ok none, c.skip) := by
  unfold takeIf
  rw [Cursor.skip_of_visible_nil h]

/-- What is in step behind a token is in step from this token on. -/
theorem InStep.behind {x y : Parser α} (h : InStep P ts 0 Q x y) {rest rest' : List Token}
    (hrest : Token.visible rest = ts) (hrest' : Token.visible rest' = ts) (hsuffix : t :: rest <:+ unread)
    (hunread : ∀ t ∈ unread, P t.pos) :
    Ended P (t :: ts) unread 1 Q (x ⟨rest, t.pos⟩) (y ⟨rest', t.pos⟩) := by
  obtain ⟨ht, htokens⟩ := forall_mem_cons.1 fun t' ht' => hunread t' (hsuffix.subset ht')
  have hends := h ⟨rest, t.pos⟩ ⟨rest', t.pos⟩ hrest ⟨hrest.trans hrest'.symm, rfl⟩ ⟨htokens, ht⟩
  exact hends.mono ((suffix_cons t rest).trans hsuffix) (Nat.le_refl _)

/-- A token is read, or none is and all stays as it is. -/
theorem inStep_takeIf {cond : Token → Bool} (hk : k ≤ 1)
    (hyes : ∀ t ts', ts = t :: ts' → cond t = true → InStep P ts' 0 R (f (some t)) (g (some t)))
    (hno : InStep P ts k R (f none) (g none)) : InStep P ts k R (takeIf cond >>= f) (takeIf cond >>= g) := by
  intro c c' hc hcc' hat
  have hc' : c'.visible = ts := hcc'.visible ▸ hc
  have hstays : Ended P ts c.tokens k R (f none c.skip) (g none c'.skip) :=
    (hno c.skip c'.skip (c.visible_skip.trans hc) hcc'.skip hat.skip).mono c.suffix_tokens_skip (Nat.le_refl _)
  cases ts with
  | nil =>
    rw [bind_of_ok (takeIf_of_nil hc), bind_of_ok (takeIf_of_nil hc')]
    exact hstays
  | cons t ts =>
    obtain ⟨rest, hrest, hsuffix, heq⟩ := takeIf_of_cons cond hc
    obtain ⟨rest', hrest', -, heq'⟩ := takeIf_of_cons cond hc'
    by_cases ht : cond t = true
    · rw [if_pos ht] at heq heq'
      rw [bind_of_ok heq, bind_of_ok heq']
      have hread := (hyes t ts rfl ht).behind hrest hrest' hsuffix hat.tokens
      exact hread.mono suffix_rfl (Nat.add_le_add_left hk _)
    · rw [if_neg ht] at heq heq'
      rw [bind_of_ok heq, bind_of_ok heq']
      exact hstays

/-- The next token is read. -/
theorem inStep_next (h : InStep P ts 0 R (f (some t)) (g (some t))) :
    InStep P (t :: ts) 1 R (next >>= f) (next >>= g) := by
  intro c c' hc hcc' hat
  obtain ⟨rest, hrest, hsuffix, heq⟩ := takeIf_of_cons (fun _ => true) hc
  obtain ⟨rest', hrest', -, heq'⟩ := takeIf_of_cons (fun _ => true) (hcc'.visible ▸ hc)
  rw [if_pos rfl] at heq heq'
  unfold next
  rw [bind_of_ok heq, bind_of_ok heq']
  exact h.behind hrest hrest' hsuffix hat.tokens

end

/-- The place of the last token is one with the property. -/
theorem inStep_last {f g : Position → Parser β} (h : ∀ pos, P pos → InStep P ts k R (f pos) (g pos)) :
    InStep P ts k R (do f (← get).last) (do g (← get).last) := by
  intro c c' hc hcc' hat
  have hends := h c.last hat.last c c' hc hcc' hat
  rw [bind_of_ok (get_apply c), bind_of_ok (get_apply c'), ← hcc'.last]
  exact hends

theorem inStep_here : InStep P ts 0 P here here := by
  refine inStep_of_places fun hts => inStep_peek ?_
  cases ts with
  | nil => exact inStep_last fun _ hpos => inStep_pure hpos
  | cons t ts => exact inStep_pure (hts t mem_cons_self)

theorem inStep_check (cond : Token → Bool) : InStep P ts 0 (fun _ => True) (check cond) (check cond) := by
  refine inStep_peek ?_
  cases ts with
  | nil => exact inStep_pure trivial
  | cons t ts => exact inStep_pure trivial

theorem inStep_expect (cond : Token → Bool) (expected : String) :
    InStep P ts 1 (fun _ => True) (expect cond expected) (expect cond expected) := by
  refine inStep_takeIf (Nat.le_refl 1) (fun t ts' _ _ => inStep_pure trivial) ?_
  refine inStep_of_places fun hts => inStep_peek ?_
  cases ts with
  | nil => exact inStep_last fun _ hpos => inStep_failAt hpos _
  | cons t ts => exact inStep_failAt (hts t mem_cons_self) _

theorem inStep_expectSymbol (s : Symbol) :
    InStep P ts 1 (fun _ => True) (expectSymbol s) (expectSymbol s) :=
  inStep_expect _ _

/-- Something that ends with a symbol. -/
theorem InStep.endedBy {x y : Parser α} (hx : InStep P ts k Q x y) (s : Symbol) {f : α → β}
    (hf : ∀ a, Q a → R (f a)) :
    InStep P ts k R (do let a ← x; let _ ← expectSymbol s; return f a)
      (do let a ← y; let _ ← expectSymbol s; return f a) := by
  refine hx.andThen (j := 0) fun a _ _ ha => ?_
  exact (inStep_expectSymbol s).zero.map fun _ _ => hf a ha

theorem inStep_name : InStep P ts 1 (fun _ => True) name name := by
  refine (inStep_expect _ _).first fun t ts' _ _ => ?_
  split <;> exact inStep_pure trivial

section

variable {f g : Bool → Parser β}

/-- A condition on the next token decides how to go on, and the token is read if it holds. -/
theorem inStep_takes {cond : Token → Bool} (hk : k ≤ 1)
    (hyes : ∀ ts', ts'.length < ts.length → InStep P ts' 0 R (f true) (g true))
    (hno : InStep P ts k R (f false) (g false)) :
    InStep P ts k R ((do return (← takeIf cond).isSome) >>= f) ((do return (← takeIf cond).isSome) >>= g) := by
  simp only [bind_assoc, pure_bind]
  refine inStep_takeIf hk (fun t ts' hts _ => hyes ts' ?_) hno
  rw [hts]
  exact Nat.lt_succ_self _

theorem inStep_takeSymbol {s : Symbol} (hk : k ≤ 1)
    (hyes : ∀ ts', ts'.length < ts.length → InStep P ts' 0 R (f true) (g true))
    (hno : InStep P ts k R (f false) (g false)) : InStep P ts k R (takeSymbol s >>= f) (takeSymbol s >>= g) :=
  inStep_takes hk hyes hno

theorem inStep_takeKeyword {s : Keyword} (hk : k ≤ 1)
    (hyes : ∀ ts', ts'.length < ts.length → InStep P ts' 0 R (f true) (g true))
    (hno : InStep P ts k R (f false) (g false)) :
    InStep P ts k R (takeKeyword s >>= f) (takeKeyword s >>= g) :=
  inStep_takes hk hyes hno

end

/-! ## Repetition -/

/-- The number of unread tokens is at least that of the visible ones, and nothing more is known of it. -/
theorem inStep_remaining {f g : Nat → Parser β}
    (h : ∀ n m, ts.length ≤ n → ts.length ≤ m → InStep P ts k R (f n) (g m)) :
    InStep P ts k R (remaining >>= f) (remaining >>= g) := by
  intro c c' hc hcc' hat
  have hc' : c'.visible = ts := hcc'.visible ▸ hc
  exact h _ _ (hc ▸ c.length_visible_le) (hc' ▸ c'.length_visible_le) c c' hc hcc' hat

/-- Repetitions are in step, whatever their bounds, if a round is in step whenever the rounds after it are, and if
the bounds do not matter where nothing is visible. A round takes one token at least. -/
theorem inStep_rounds {σ : Type} {I : σ → Prop} {f g : Nat → σ → Parser α} {most : Nat}
    (hnil : ∀ n m a, I a → InStep P [] 0 Q (f n a) (g m a))
    (hround : ∀ (ts : List Token) n m a, ts.length ≤ most → I a →
      (∀ (ts' : List Token) b, ts'.length < ts.length → I b → InStep P ts' 0 Q (f n b) (g m b)) →
      InStep P ts 0 Q (f (n + 1) a) (g (m + 1) a))
    (hts : ts.length ≤ most) {n m : Nat} (hn : ts.length ≤ n) (hm : ts.length ≤ m) (a : σ) (ha : I a) :
    InStep P ts 0 Q (f n a) (g m a) := by
  induction n generalizing ts m a with
  | zero =>
    -- Where one of the bounds is used up, nothing is visible, and the other one does not matter.
    obtain rfl := eq_nil_of_length_eq_zero (Nat.le_zero.1 hn)
    exact hnil 0 m a ha
  | succ n ih =>
    cases m with
    | zero =>
      obtain rfl := eq_nil_of_length_eq_zero (Nat.le_zero.1 hm)
      exact hnil (n + 1) 0 a ha
    | succ m =>
      exact hround ts n m a hts ha fun ts' b h' hb => ih (by omega) (by omega) (by omega) b hb

/-- The parser gives the value where nothing is visible. -/
def Idles (a : α) (x : Parser α) : Prop :=
  ∀ c : Cursor, c.visible = [] → (x c).1 = .ok a ∧ (x c).2.Alike c ∧ (x c).2.tokens <:+ c.tokens

section

variable {elem elem' : Parser α} {close : Symbol}
variable {a : α} {x : Parser α} {f : Bool → Parser α}

/-- Where nothing is visible, two parsers that give the same value are in step. -/
theorem Idles.inStep {y : Parser α} (hx : Idles a x) (hy : Idles a y) (ha : Q a) :
    InStep P [] 0 Q x y := by
  intro c c' hc hcc' hat
  obtain ⟨hresult, halike, hsuffix⟩ := hx c hc
  obtain ⟨hresult', halike', -⟩ := hy c' (hcc'.visible ▸ hc)
  refine ⟨hresult.trans hresult'.symm, (halike.trans hcc').trans halike'.symm, hsuffix,
    halike.last ▸ hat.last, fun a' ha' => ?_, fun e he => ?_⟩
  · cases hresult.symm.trans ha'
    rw [halike.visible, hc]
    exact ⟨Nat.le_refl _, ha⟩
  · cases hresult.symm.trans he

theorem Idles.skip (h : Idles a x) {c : Cursor} (hc : c.visible = []) :
    (x c.skip).1 = .ok a ∧ (x c.skip).2.Alike c ∧ (x c.skip).2.tokens <:+ c.tokens := by
  obtain ⟨hresult, halike, hsuffix⟩ := h c.skip (c.visible_skip.trans hc)
  exact ⟨hresult, halike.trans c.alike_skip, hsuffix.trans c.suffix_tokens_skip⟩

theorem idles_pure (a : α) : Idles a (pure a) := by
  intro c hc
  exact ⟨rfl, .refl c, suffix_rfl⟩

theorem idles_peek {f : Option Token → Parser α} (h : Idles a (f none)) : Idles a (peek >>= f) := by
  intro c hc
  rw [bind_of_ok (peek_eq c), hc]
  exact h.skip hc

theorem idles_check {cond : Token → Bool} (h : Idles a (f false)) :
    Idles a (check cond >>= f) := by
  unfold check
  rw [bind_assoc]
  exact idles_peek h

theorem idles_here {f : Position → Parser α} (h : ∀ pos, Idles a (f pos)) :
    Idles a (here >>= f) := by
  unfold here
  rw [bind_assoc]
  exact idles_peek fun c hc => h c.last c hc

theorem idles_takeSymbol {s : Symbol} (h : Idles a (f false)) :
    Idles a (takeSymbol s >>= f) := by
  intro c hc
  have htake : takeSymbol s c = (.ok false, c.skip) := bind_of_ok (takeIf_of_nil hc)
  rw [bind_of_ok htake]
  exact h.skip hc

theorem idles_manyUntil (n : Nat) : Idles [] (manyUntil.go close elem n) := by
  cases n with
  | zero => exact idles_pure []
  | succ n =>
    unfold manyUntil.go
    exact idles_check (idles_peek (idles_pure []))

/-- A round reads one element. -/
theorem inStep_manyUntil_go (helem : ∀ ts' : List Token, ts'.length ≤ ts.length → InStep P ts' 1 Q elem elem')
    {n m : Nat} (hn : ts.length ≤ n) (hm : ts.length ≤ m) :
    InStep P ts 0 (fun as => ∀ a ∈ as, Q a) (manyUntil.go close elem n) (manyUntil.go close elem' m) := by
  refine inStep_rounds (I := fun _ : Unit => True) (f := fun n _ => manyUntil.go close elem n)
    (g := fun n _ => manyUntil.go close elem' n) (fun n m _ _ => ?_) (fun ts0 n m _ h0 _ ih => ?_)
    (Nat.le_refl _) hn hm () trivial
  · exact (idles_manyUntil n).inStep (idles_manyUntil m) (forall_mem_nil _)
  · unfold manyUntil.go
    refine (inStep_check _).bind fun stop ts1 h1 _ => ?_
    split
    · exact inStep_pure (forall_mem_nil _)
    · refine inStep_peek ?_
      split
      · exact inStep_pure (forall_mem_nil _)
      · refine InStep.zero ((helem ts1 (by omega)).first fun a ts2 h2 ha => ?_)
        exact (ih ts2 () (by omega) trivial).map fun as has => forall_mem_cons.2 ⟨ha, has⟩

theorem inStep_manyUntil (helem : ∀ ts' : List Token, ts'.length ≤ ts.length → InStep P ts' 1 Q elem elem') :
    InStep P ts 0 (fun as => ∀ a ∈ as, Q a) (manyUntil close elem) (manyUntil close elem') :=
  inStep_remaining fun _ _ => inStep_manyUntil_go helem

theorem commaList_go_eq (close : Symbol) (elem : Parser α) (n : Nat) :
    ∃ more : α → Parser (List α), commaList.go close elem n =
      check (isSymbol close) >>= fun stop => if stop then pure [] else elem >>= more := by
  cases n with
  | zero => exact ⟨_, rfl⟩
  | succ n => exact ⟨_, rfl⟩

/-- How often the repetition may run does not matter where no element can be read. -/
theorem inStep_commaList_nil (helem : InStep P [] 1 Q elem elem') (n m : Nat) :
    InStep P [] 0 (fun as => ∀ a ∈ as, Q a) (commaList.go close elem n) (commaList.go close elem' m) := by
  obtain ⟨more, heq⟩ := commaList_go_eq close elem n
  obtain ⟨more', heq'⟩ := commaList_go_eq close elem' m
  rw [heq, heq']
  refine (inStep_check _).bind fun stop ts1 h1 _ => ?_
  obtain rfl := eq_nil_of_length_eq_zero (Nat.le_zero.1 h1)
  split
  · exact inStep_pure (forall_mem_nil _)
  · -- What follows an element differs, but there is no element.
    exact InStep.zero (helem.first fun a ts2 h2 _ => absurd h2 (Nat.not_lt_zero _))

/-- A round reads one element and the comma behind it. -/
theorem inStep_commaList_go (helem : ∀ ts' : List Token, ts'.length ≤ ts.length → InStep P ts' 1 Q elem elem')
    {n m : Nat} (hn : ts.length ≤ n) (hm : ts.length ≤ m) :
    InStep P ts 0 (fun as => ∀ a ∈ as, Q a) (commaList.go close elem n) (commaList.go close elem' m) := by
  refine inStep_rounds (I := fun _ : Unit => True) (f := fun n _ => commaList.go close elem n)
    (g := fun n _ => commaList.go close elem' n) (fun n m _ _ => ?_) (fun ts0 n m _ h0 _ ih => ?_)
    (Nat.le_refl _) hn hm () trivial
  · exact inStep_commaList_nil (helem [] (Nat.zero_le _)) n m
  · unfold commaList.go
    refine (inStep_check _).bind fun stop ts1 h1 _ => ?_
    split
    · exact inStep_pure (forall_mem_nil _)
    · refine InStep.zero ((helem ts1 (by omega)).first fun a ts2 h2 ha => ?_)
      refine inStep_takeSymbol (Nat.zero_le 1) (fun ts3 h3 => ?_) (inStep_pure (forall_mem_singleton.2 ha))
      exact (ih ts3 () (by omega) trivial).map fun as has => forall_mem_cons.2 ⟨ha, has⟩

theorem inStep_commaList (helem : ∀ ts' : List Token, ts'.length ≤ ts.length → InStep P ts' 1 Q elem elem') :
    InStep P ts 0 (fun as => ∀ a ∈ as, Q a) (commaList close elem) (commaList close elem') :=
  inStep_remaining fun _ _ => inStep_commaList_go helem

end

end Parser

end Sigil
