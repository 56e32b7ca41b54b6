import Sigil.Parse.Source
import Sigil.Proofs.Parsing.Grammar

/-!
# Programs and recovery

Reading a program does not see comments and lexical errors (`Parser.program_visible`). Recovery is the one
place that looks at all tokens, but what it looks for is never passed over by the grammar.

A cursor has the place of the last token that has been read. Before the first one it is the first place of the
text, where no token need be; but reading a definition does not look at it before there is a token behind the
cursor (`Parser.definitions_last`), so programs are at places of tokens throughout (`Parser.read_program`).

Recovery drops a token before it looks for the next definition. This is the token at which reading stopped,
which may start a definition itself: it is then the only one that is lost (`Parser.recovery_resumes`).
-/

namespace Sigil

open Attempt List Token

/-- The tokens from the next definition on. -/
def Token.fromDefinition (ts : List Token) : List Token :=
  ts.dropWhile fun t => !Parser.startsDefinition t

namespace Parser

variable {c c' : Cursor} {t : Token} {ts : List Token} {d : Def} {e : Located ParseError} {n m : Nat}

/-! ## Recovery -/

theorem startsDefinition_of_isSkipped (h : t.kind.isSkipped = true) : startsDefinition t = false := by
  unfold startsDefinition isKeyword
  cases hkind : t.kind with
  | keyword k =>
    rw [hkind] at h
    cases h
  | _ => rfl

/-- Looking for a definition and leaving out what is skipped can be done in either order. -/
theorem visible_fromDefinition (ts : List Token) :
    visible (fromDefinition ts) = fromDefinition (visible ts) := by
  induction ts with
  | nil => rfl
  | cons t ts ih =>
    by_cases hskip : t.kind.isSkipped = true
    · have hstart := startsDefinition_of_isSkipped hskip
      simpa [visible, fromDefinition, hskip, hstart] using ih
    · by_cases hstart : startsDefinition t = true
      · simp [visible, fromDefinition, hskip, hstart]
      · simpa [visible, fromDefinition, hskip, hstart] using ih

theorem recover_of_nil (h : c.visible = []) : (recover c).2 = ⟨[], c.last⟩ := by
  have hnext : next c = (.ok none, c.skip) := takeIf_of_nil h
  have hskip : c.skip = ⟨[], c.last⟩ := by
    rw [← Cursor.skip_of_visible_nil h]
    rfl
  unfold recover
  rw [bind_of_ok hnext, hskip]
  rfl

/-- Recovery passes the token at hand, and then all tokens up to the start of a definition. -/
theorem recover_of_skip (h : c.skip.tokens = t :: ts) : (recover c).2 = ⟨fromDefinition ts, t.pos⟩ := by
  have hnext : next c = (.ok (some t), ⟨ts, t.pos⟩) := by
    unfold next takeIf
    rw [h]
    rfl
  unfold recover
  rw [bind_of_ok hnext]
  rfl

theorem recover_of_cons (h : c.visible = t :: ts) :
    ∃ rest, c.skip.tokens = t :: rest ∧ visible rest = ts ∧
      (recover c).2 = ⟨fromDefinition rest, t.pos⟩ := by
  obtain ⟨rest, hrest, hvisible⟩ := Cursor.skip_of_visible_cons h
  exact ⟨rest, hrest, hvisible, recover_of_skip hrest⟩

/-- Recovery leads to the same tokens wherever the tokens are the same. -/
theorem alike_recover (h : c.Alike c') : (recover c).2.Alike (recover c').2 := by
  cases hc : c.visible with
  | nil =>
    rw [recover_of_nil hc, recover_of_nil (h.visible ▸ hc), h.last]
    exact .refl _
  | cons t ts =>
    obtain ⟨rest, -, hrest, heq⟩ := recover_of_cons hc
    obtain ⟨rest', -, hrest', heq'⟩ := recover_of_cons (h.visible ▸ hc)
    rw [heq, heq']
    refine ⟨?_, rfl⟩
    calc visible (fromDefinition rest)
        = fromDefinition ts := by rw [visible_fromDefinition, hrest]
      _ = visible (fromDefinition rest') := by rw [visible_fromDefinition, hrest']

/-- Recovery passes one token at least, if there is any. -/
theorem length_visible_recover (c : Cursor) : (recover c).2.visible.length ≤ c.visible.length - 1 := by
  cases hc : c.visible with
  | nil =>
    rw [recover_of_nil hc]
    exact Nat.le_refl _
  | cons t ts =>
    obtain ⟨rest, -, hrest, heq⟩ := recover_of_cons hc
    rw [heq, ← hrest]
    exact ((dropWhile_suffix _).filter _).length_le

/-! ## Programs -/

theorem definitions_of_nil (h : c.visible = []) : definitions n c = ([], []) := by
  cases n with
  | zero => rfl
  | succ n =>
    unfold definitions
    rw [Cursor.skip_of_visible_nil h]

theorem definitions_of_ok (hc : c.visible ≠ []) (h : definition c.skip = (.ok d, c')) :
    definitions (n + 1) c = (d :: (definitions n c').1, (definitions n c').2) := by
  obtain ⟨t, ts, hvisible⟩ := exists_cons_of_ne_nil hc
  obtain ⟨rest, hrest, -⟩ := Cursor.skip_of_visible_cons hvisible
  rw [definitions, hrest]
  simp only [h]

theorem definitions_of_error (hc : c.visible ≠ []) (h : definition c.skip = (.error e, c')) :
    definitions (n + 1) c =
      ((definitions n (recover c').2).1, e :: (definitions n (recover c').2).2) := by
  obtain ⟨t, ts, hvisible⟩ := exists_cons_of_ne_nil hc
  obtain ⟨rest, hrest, -⟩ := Cursor.skip_of_visible_cons hvisible
  rw [definitions, hrest]
  simp only [h]

theorem length_visible_of_ok (h : definition c.skip = (.ok d, c')) :
    c'.visible.length + 1 ≤ c.visible.length := by
  have hends := inStep_definition c.skip c.skip c.visible_skip (.refl _) (Cursor.at_any _)
  obtain ⟨hlength, -⟩ := hends.read d (by rw [h])
  rwa [h] at hlength

theorem length_visible_of_error (h : definition c.skip = (.error e, c')) :
    (recover c').2.visible.length ≤ c.visible.length - 1 := by
  have hsuffix := (inStep_definition c.skip c.skip c.visible_skip (.refl _) (Cursor.at_any _)).suffix
  rw [h] at hsuffix
  have hle : c'.visible.length ≤ c.visible.length :=
    Cursor.length_visible_le_of_suffix (hsuffix.trans c.suffix_tokens_skip)
  have hrecover := length_visible_recover c'
  omega

/-- Reading goes the same way from cursors that look alike, as long as it may read as many definitions as there
are visible tokens. -/
theorem definitions_alike (h : c.Alike c') (hn : c.visible.length ≤ n) (hm : c.visible.length ≤ m) :
    definitions n c = definitions m c' := by
  induction n generalizing c c' m with
  | zero =>
    have hc := eq_nil_of_length_eq_zero (Nat.le_zero.1 hn)
    rw [definitions_of_nil hc, definitions_of_nil (h.visible ▸ hc)]
  | succ n ih =>
    by_cases hc : c.visible = []
    · rw [definitions_of_nil hc, definitions_of_nil (h.visible ▸ hc)]
    · have hpos := length_pos_iff.2 hc
      have hc' : c'.visible ≠ [] := h.visible ▸ hc
      obtain ⟨m, rfl⟩ := Nat.exists_eq_add_one_of_ne_zero (Nat.ne_zero_of_lt (Nat.lt_of_lt_of_le hpos hm))
      have hends := inStep_definition c.skip c'.skip c.visible_skip h.skip (Cursor.at_any _)
      rcases hd : definition c.skip with ⟨r, c1⟩
      rcases hd' : definition c'.skip with ⟨r', c1'⟩
      rw [hd, hd'] at hends
      obtain rfl : r = r' := hends.same
      cases r with
      | ok d =>
        have hlength := length_visible_of_ok hd
        have hrest : definitions n c1 = definitions m c1' := ih hends.alike (by omega) (by omega)
        rw [definitions_of_ok hc hd, definitions_of_ok hc' hd', hrest]
      | error e =>
        -- The failure may have read nothing, but recovery drops a token.
        have hlength := length_visible_of_error hd
        have hrest : definitions n (recover c1).2 = definitions m (recover c1').2 :=
          ih (alike_recover hends.alike) (by omega) (by omega)
        rw [definitions_of_error hc hd, definitions_of_error hc' hd', hrest]

/-- Comments and lexical errors leave no trace in what is read. -/
theorem program_visible (ts : List Token) : program (Token.visible ts) = program ts := by
  have hvisible : visible (visible ts) = visible ts := by
    simp [visible, filter_filter]
  have halike : (Cursor.start (visible ts)).Alike (.start ts) := ⟨hvisible, rfl⟩
  refine definitions_alike halike (Cursor.length_visible_le _) ?_
  rw [halike.visible]
  exact Cursor.length_visible_le _

/-- After an error, reading goes on where recovery has led. -/
theorem programFrom_of_error (hc : c.visible ≠ []) (h : definition c.skip = (.error e, c')) :
    programFrom c = ((programFrom (recover c').2).1, e :: (programFrom (recover c').2).2) := by
  have hpos := length_pos_iff.2 hc
  have hle := c.length_visible_le
  obtain ⟨n, hn⟩ := Nat.exists_eq_add_one_of_ne_zero (Nat.ne_zero_of_lt (Nat.lt_of_lt_of_le hpos hle))
  have hlength := length_visible_of_error h
  have hrest : definitions n (recover c').2 = programFrom (recover c').2 :=
    definitions_alike (.refl _) (by omega) (Cursor.length_visible_le _)
  rw [programFrom, hn, definitions_of_error hc h, hrest]

/-! ## Places -/

section

variable {P : Position → Prop}

theorem at_recover (h : c.At P) : (recover c).2.At P := by
  cases hc : c.visible with
  | nil =>
    rw [recover_of_nil hc]
    exact ⟨forall_mem_nil _, h.last⟩
  | cons t ts =>
    obtain ⟨rest, hrest, -, heq⟩ := recover_of_cons hc
    obtain ⟨ht, htokens⟩ := forall_mem_cons.1 (hrest ▸ h.skip.tokens)
    rw [heq]
    exact ⟨fun t' ht' => htokens t' ((dropWhile_suffix _).subset ht'), ht⟩

/-- The next token is read, or the error is at its place. -/
theorem expect_of_skip (h : c.skip.tokens = t :: ts) (cond : Token → Bool) (expected : String) :
    expect cond expected c = if cond t = true then (.ok t, ⟨ts, t.pos⟩)
      else (.error ⟨t.pos, .unexpectedToken expected t.kind.describe⟩, c.skip) := by
  have htake : takeIf cond c = if cond t then (.ok (some t), ⟨ts, t.pos⟩) else (.ok none, c.skip) := by
    unfold takeIf
    rw [h]
  by_cases hcond : cond t = true
  · rw [if_pos hcond] at htake ⊢
    exact bind_of_ok htake
  · rw [if_neg hcond] at htake ⊢
    have hpeek : peek c.skip = (.ok (some t), c.skip) := by
      unfold peek
      rw [Cursor.skip_skip, h]
      rfl
    exact (bind_of_ok htake).trans (bind_of_ok hpeek)

/-- Where the last token was is of no account before the next one has been read. -/
theorem definitions_last (h : c.tokens = c'.tokens) (n : Nat) : definitions n c = definitions n c' := by
  have hskip : c'.skip.tokens = c.skip.tokens := congrArg (dropWhile _) h.symm
  have hvisible : c'.visible = c.visible := congrArg visible h.symm
  cases n with
  | zero => rfl
  | succ n =>
    cases hc : c.visible with
    | nil => rw [definitions_of_nil hc, definitions_of_nil (hvisible.trans hc)]
    | cons t ts =>
      obtain ⟨rest, hrest, -⟩ := Cursor.skip_of_visible_cons hc
      have hexpect : ∀ {c : Cursor}, c.skip.tokens = t :: rest → _ :=
        fun {c} hc => expect_of_skip (c := c.skip) (c.skip_skip.symm ▸ hc) (isKeyword .const) "`const`"
      by_cases hconst : isKeyword .const t = true
      · -- Behind the token the cursors are the same.
        have hsame : definition c.skip = definition c'.skip := by
          unfold definition
          have hread := hexpect hrest
          have hread' := hexpect (hskip.trans hrest)
          rw [if_pos hconst] at hread hread'
          rw [bind_of_ok hread, bind_of_ok hread']
        unfold definitions
        rw [hskip, hsame]
      · -- The token is not read, but recovery drops it.
        have hfails : ∀ {c : Cursor}, c.skip.tokens = t :: rest → definition c.skip =
            (.error ⟨t.pos, .unexpectedToken "`const`" t.kind.describe⟩, c.skip) := by
          intro c hrest
          have hread := hexpect hrest
          rw [if_neg hconst, Cursor.skip_skip] at hread
          exact bind_of_error hread
        have hseen : ∀ {c : Cursor}, c.visible = t :: ts → c.visible ≠ [] := fun hc hnil => by
          cases hc.symm.trans hnil
        rw [definitions_of_error (hseen hc) (hfails hrest),
          definitions_of_error (hseen (hvisible.trans hc)) (hfails (hskip.trans hrest)),
          recover_of_skip (c.skip_skip.symm ▸ hrest), recover_of_skip (c'.skip_skip.symm ▸ hskip.trans hrest)]

/-- The rounds keep to the tokens: what is read and what is reported is at their places. -/
theorem read_definitions (n : Nat) (hc : c.At P) :
    (∀ d ∈ (definitions n c).1, d.Read P) ∧ ∀ e ∈ (definitions n c).2, P e.pos := by
  induction n generalizing c with
  | zero => exact ⟨forall_mem_nil _, forall_mem_nil _⟩
  | succ n ih =>
    have hends := inStep_definition c.skip c.skip c.visible_skip (.refl _) hc.skip
    unfold definitions
    split
    · exact ⟨forall_mem_nil _, forall_mem_nil _⟩
    · split
      · next d c' hread =>
        rw [hread] at hends
        obtain ⟨hds, hes⟩ := ih (hends.at hc.skip.tokens)
        exact ⟨forall_mem_cons.2 ⟨(hends.read d rfl).2, hds⟩, hes⟩
      · next e c' hread =>
        rw [hread] at hends
        obtain ⟨hds, hes⟩ := ih (at_recover (hends.at hc.skip.tokens))
        exact ⟨hds, forall_mem_cons.2 ⟨hends.error e rfl, hes⟩⟩

/-- All definitions that are read, and all errors, are at places of tokens. -/
theorem read_program {tokens : List Token} (h : ∀ t ∈ tokens, P t.pos) :
    (∀ d ∈ (program tokens).1, d.Read P) ∧ ∀ e ∈ (program tokens).2, P e.pos := by
  cases tokens with
  | nil => exact ⟨forall_mem_nil _, forall_mem_nil _⟩
  | cons t rest =>
    have htokens : (Cursor.start (t :: rest)).tokens = (⟨t :: rest, t.pos⟩ : Cursor).tokens := rfl
    unfold program programFrom
    rw [definitions_last htokens]
    exact read_definitions _ ⟨h, h t mem_cons_self⟩

/-- All definitions of a text that is read are at places of tokens. -/
theorem read_of_parseSource {code : String} (hP : ∀ t ∈ scan code, P t.pos) {p : Program}
    (h : parseSource code = .ok p) : ∀ d ∈ p, d.Read P := by
  obtain ⟨hprogram, -⟩ := read_program hP
  unfold parseSource at h
  dsimp only at h
  split at h
  · split at h
    · next heq =>
      cases h
      rw [heq] at hprogram
      exact hprogram
    · cases h
  · cases h

end

/-! ## Where reading goes on -/

/-- Reading goes on at the one cursor after it has stopped at the other. -/
structure Resumes (stop next : Cursor) : Prop where
  /-- Nothing is left to read, or a definition starts with the next token. -/
  starts : (next.tokens = [] ∧ programFrom next = ([], [])) ∨
    ∃ t, next.tokens.head? = some t ∧ startsDefinition t = true ∧ next.skip = next
  /-- Among the tokens that are passed over, only the visible one at which reading stopped may start a
  definition. -/
  lost : ∃ passed, stop.tokens = passed ++ next.tokens ∧
    passed.filter startsDefinition = (stop.visible.take 1).filter startsDefinition
  /-- This is the next definition unless one starts at the very token at which reading stopped. -/
  isNext_iff : next.tokens = Token.fromDefinition stop.tokens ↔
    ∀ t ∈ stop.visible.head?, startsDefinition t = false

/-- What is dropped up to a condition holds no start of a definition. -/
theorem exists_passed (cond : Token → Bool) (hcond : ∀ t, cond t = true → startsDefinition t = false)
    (ts : List Token) :
    ∃ passed, ts = passed ++ ts.dropWhile cond ∧ passed.filter startsDefinition = [] := by
  induction ts with
  | nil => exact ⟨[], rfl, rfl⟩
  | cons t ts ih =>
    by_cases ht : cond t = true
    · obtain ⟨passed, hpassed, hnone⟩ := ih
      refine ⟨t :: passed, ?_, ?_⟩
      · rw [dropWhile_cons_of_pos ht, cons_append, ← hpassed]
      · rw [filter_cons_of_neg (by simp [hcond t ht]), hnone]
    · exact ⟨[], by rw [dropWhile_cons_of_neg ht, nil_append], rfl⟩

/-- What recovery has led to starts with the start of a definition. -/
theorem startsDefinition_head (h : t ∈ (fromDefinition ts).head?) : startsDefinition t = true := by
  induction ts with
  | nil => cases h
  | cons t' ts ih =>
    by_cases ht' : startsDefinition t' = true
    · rw [fromDefinition, dropWhile_cons_of_neg (by simp [ht'])] at h
      cases h
      exact ht'
    · rw [fromDefinition, dropWhile_cons_of_pos (by simp [ht'])] at h
      exact ih h

theorem skip_of_startsDefinition (hc : t ∈ c.tokens.head?) (ht : startsDefinition t = true) :
    c.skip = c := by
  obtain ⟨rest, hrest⟩ := head?_eq_some_iff.1 hc
  have hseen : ¬t.kind.isSkipped = true := by
    intro hskip
    rw [startsDefinition_of_isSkipped hskip] at ht
    cases ht
  have htokens : c.tokens.dropWhile (·.kind.isSkipped) = c.tokens := by
    rw [hrest]
    exact dropWhile_cons_of_neg hseen
  unfold Cursor.skip
  rw [htokens]

theorem fromDefinition_append {passed : List Token} (h : passed.filter startsDefinition = []) :
    fromDefinition (passed ++ ts) = fromDefinition ts := by
  refine dropWhile_append_of_pos fun t ht => ?_
  simpa using filter_eq_nil_iff.1 h t ht

theorem fromDefinition_eq_cons_iff :
    fromDefinition ts = fromDefinition (t :: ts) ↔ startsDefinition t = false := by
  by_cases ht : startsDefinition t = true
  · have hkeep : fromDefinition (t :: ts) = t :: ts := dropWhile_cons_of_neg (by simp [ht])
    have hlength : (fromDefinition ts).length ≤ ts.length := (dropWhile_suffix _).length_le
    refine ⟨fun heq => ?_, fun hno => absurd (ht.symm.trans hno) (by decide)⟩
    rw [heq, hkeep, length_cons] at hlength
    exact absurd hlength (Nat.not_succ_le_self _)
  · have hdrop : fromDefinition (t :: ts) = fromDefinition ts :=
      dropWhile_cons_of_pos (by simp [ht])
    exact ⟨fun _ => Bool.eq_false_iff.2 ht, fun _ => hdrop.symm⟩

/-- Recovery leads to the next start of a definition behind the token at which reading stopped. -/
theorem resumes_recover (c : Cursor) : Resumes c (recover c).2 := by
  -- Three parts are passed over: what the grammar does not see, the token at which reading stopped, and what
  -- starts no definition behind it.
  obtain ⟨before, hbefore, hnone⟩ :=
    exists_passed (·.kind.isSkipped) (fun _ => startsDefinition_of_isSkipped) c.tokens
  change c.tokens = before ++ c.skip.tokens at hbefore
  have hfrom : fromDefinition c.tokens = fromDefinition c.skip.tokens := by
    rw [hbefore, fromDefinition_append hnone]
  cases hc : c.visible with
  | nil =>
    rw [Cursor.skip_of_visible_nil hc] at hbefore hfrom
    rw [recover_of_nil hc]
    refine ⟨.inl ⟨rfl, rfl⟩, ⟨before, hbefore, ?_⟩, ?_⟩
    · rw [hnone, hc]
      rfl
    · rw [hfrom, hc]
      exact ⟨fun _ t ht => (by cases ht), fun _ => rfl⟩
  | cons t ts =>
    obtain ⟨rest, hskip, -, heq⟩ := recover_of_cons hc
    obtain ⟨after, hafter, hnone'⟩ :=
      exists_passed (fun t => !startsDefinition t) (fun t ht => by simpa using ht) rest
    rw [hskip] at hbefore hfrom
    rw [heq]
    refine ⟨?_, ⟨before ++ t :: after, ?_, ?_⟩, ?_⟩
    · cases hhead : (fromDefinition rest).head? with
      | none =>
        rw [head?_eq_none_iff.1 hhead]
        exact .inl ⟨rfl, rfl⟩
      | some t' =>
        have hstart := startsDefinition_head hhead
        exact .inr ⟨t', rfl, hstart, skip_of_startsDefinition hhead hstart⟩
    · rw [hbefore, append_assoc, cons_append]
      exact congrArg (fun rest => before ++ t :: rest) hafter
    · rw [filter_append, hnone, nil_append, ← singleton_append, filter_append, hnone',
        append_nil, hc]
      rfl
    · rw [hfrom, hc]
      refine fromDefinition_eq_cons_iff.trans ⟨fun ht t' ht' => ?_, fun h => h t rfl⟩
      cases ht'
      exact ht

/-- A definition that cannot be read is reported, and reading goes on behind the token at which it stopped: at
the next definition from there, which is the next one of all unless that token starts one itself. -/
theorem recovery_resumes (c c' : Cursor) (e : Located ParseError) (hc : c.visible ≠ [])
    (h : definition c.skip = (.error e, c')) :
    programFrom c = ((programFrom (recover c').2).1, e :: (programFrom (recover c').2).2) ∧
      Resumes c' (recover c').2 :=
  ⟨programFrom_of_error hc h, resumes_recover c'⟩

/-- The first of three definitions lacks its semicolon. -/
def unended : List Token :=
  Token.scan "const a := 1\nconst b := 2;\nconst c := 3;"

theorem exists_definition_unended :
    ∃ e, definition (Cursor.start unended).skip =
      (.error e, (definition (Cursor.start unended).skip).2) := by
  have hfails : (definition (Cursor.start unended).skip).1.isOk = false := by decide +kernel
  generalize definition (Cursor.start unended).skip = r at hfails
  obtain ⟨r | d, c⟩ := r
  · exact ⟨r, rfl⟩
  · cases hfails

theorem recovery_resumes_unended :
    ∃ e c', (Cursor.start unended).visible ≠ [] ∧ definition (Cursor.start unended).skip = (.error e, c') ∧
      programFrom (.start unended) = ((programFrom (recover c').2).1, e :: (programFrom (recover c').2).2) ∧
      Resumes c' (recover c').2 := by
  obtain ⟨e, hfail⟩ := exists_definition_unended
  have hvisible : (Cursor.start unended).visible ≠ [] := by decide +kernel
  exact ⟨e, _, hvisible, hfail, recovery_resumes _ _ _ hvisible hfail⟩

/-- The definition at which reading stops is lost. -/
theorem exists_definition_lost :
    ∃ c : Cursor, ∃ e c', c.visible ≠ [] ∧ definition c.skip = (.error e, c') ∧
      (recover c').2.tokens ≠ Token.fromDefinition c'.tokens ∧ (programFrom c).1.map (·.name) = ["c"] := by
  obtain ⟨e, hfail⟩ := exists_definition_unended
  refine ⟨.start unended, e, _, ?_, hfail, ?_, ?_⟩
  · decide +kernel
  · decide +kernel
  · decide +kernel

end Parser

end Sigil
