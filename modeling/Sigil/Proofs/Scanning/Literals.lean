import Sigil.Proofs.Scanning.Lines

/-!
# Malformed literals

What a literal that stands for nothing does to the rest of its line. The literal is a text `w` between two
quotes, and the tokens before it have been read up to its first quote (`Token.Complete`). A reader that skips a
malformed literal as a whole finds one error in its place and then the tokens of the text behind it.

This is so for all malformed literals but one kind (`Token.oneError_iff`). A character literal that begins with
an escape sequence that stands for nothing is left right behind this escape sequence, and what follows, with the
closing quote, is read as if it were outside of any literal.
-/

namespace Sigil.Token

open List Source

/-! ## Literals -/

/-- Whether a text can stand between the quotes of a string literal. -/
def isContents : List Char → Bool
  | [] => true
  | ['\\'] => false
  | '\\' :: c :: w => (unescape? c).isSome && isContents w
  | c :: w => c != '"' && isContents w

/-- Whether a text can stand between the quotes of a character literal. -/
def isCharacter : List Char → Bool
  | [c] => c != '\\' && c != '\'' && c.toNat < 128
  | [c, d] => c == '\\' && (unescape? d).isSome
  | _ => false

/-- Whether a text between two quotes `q` is a literal. -/
def isLiteral (q : Char) (w : List Char) : Bool :=
  if q = '"' then isContents w else isCharacter w

/-- A text between two quotes `q` that is no literal, although the second quote is where the first one says that
the literal ends. -/
structure Malformed (q : Char) (w : List Char) : Prop where
  quote : q = '\'' ∨ q = '"'
  nonempty : w ≠ []
  inside : q ∉ w
  closed : w.getLast? ≠ some '\\'
  invalid : isLiteral q w = false

/-- A character literal that begins with an escape sequence that stands for nothing. -/
def BadEscape (q : Char) (w : List Char) : Prop :=
  q = '\'' ∧ ∃ c w', w = '\\' :: c :: w' ∧ unescape? c = none

/-- A token further to the right on its line. -/
def shifted (n : Nat) (t : Token) : Token :=
  ⟨t.kind, ⟨t.pos.row, n + t.pos.col⟩⟩

/-- Where `rest` follows the text, the tokens that start in it end in it. The flag says whether a word for an
integer type comes before the text. -/
inductive Complete (rest : List Char) : Bool → List Char → Prop where
  | nil {afterInt : Bool} : Complete rest afterInt []
  | blank {afterInt : Bool} {c : Char} {u : List Char} :
    Text.isBlank c = true → Complete rest afterInt u → Complete rest afterInt (c :: u)
  | token {afterInt : Bool} {c : Char} {u u' : List Char} {kind : TokenKind} :
    Text.isBlank c = false → scanToken afterInt c (u ++ rest) = (kind, u' ++ rest) →
      Complete rest kind.isIntWord u' → Complete rest afterInt (c :: u)

/-- The line with the literal has the tokens of the text before it, an error where the literal starts, and the
tokens of the text behind it. -/
def OneError (row : Nat) (u : List Char) (q : Char) (w v : List Char) : Prop :=
  ∃ e, scanLine row 0 false (u ++ q :: (w ++ q :: v)) =
    scanLine row 0 false u ++ ⟨.error e, ⟨row, Source.byteLength u⟩⟩ ::
      (scanLine row 0 false v).map (shifted (Source.byteLength (u ++ q :: (w ++ [q]))))

/-! ## Character literals -/

/-- Everything up to the next quote belongs to the literal. -/
theorem closeChar_skip {value : Char} {cs : List Char} (hne : cs ≠ []) (hcs : '\'' ∉ cs) (rest : List Char) :
    closeChar value (cs ++ '\'' :: rest) = (.error .invalidChar, rest) := by
  have hdrop : (cs ++ '\'' :: rest).dropWhile (· ≠ '\'') = '\'' :: rest := by
    rw [dropWhile_append_of_pos]
    · simp
    · intro c hc
      have : c ≠ '\'' := fun h => hcs (h ▸ hc)
      simpa using this
  obtain ⟨c, cs, rfl⟩ := exists_cons_of_ne_nil hne
  rw [cons_append] at hdrop ⊢
  rw [closeChar, hdrop]
  rintro _ ⟨⟩
  exact hcs mem_cons_self

theorem closeChar_rest (value : Char) (cs : List Char) :
    (closeChar value cs).2 = (cs.dropWhile (· ≠ '\'')).tail := by
  unfold closeChar
  split
  · simp
  · split
    · next h => rw [h, tail_nil]
    · next h => rw [h, tail_cons]

theorem tail_dropWhile_suffix (p : Char → Bool) (c : Char) (cs : List Char) :
    ((c :: cs).dropWhile p).tail <:+ cs := by
  rw [dropWhile_cons]
  split
  · exact (tail_suffix _).trans (dropWhile_suffix p)
  · exact suffix_refl _

theorem scanChar_backslash (c : Char) (cs : List Char) :
    scanChar ('\\' :: c :: cs) =
      match unescape? c with
      | some value => closeChar value cs
      | none => (.error (.invalidEscape c), cs) := rfl

theorem scanChar_of_ne {c : Char} (hc : c ≠ '\'') (hc' : c ≠ '\\') (cs : List Char) :
    scanChar (c :: cs) = closeChar c cs := by
  unfold scanChar
  simp [hc']

theorem scanChar_backslash_suffix (c : Char) (cs : List Char) : (scanChar ('\\' :: c :: cs)).2 <:+ cs := by
  rw [scanChar_backslash]
  split
  · exact closeChar_suffix _ _
  · exact suffix_refl _

theorem scanChar_cons_suffix (c : Char) (cs : List Char) : (scanChar (c :: cs)).2 <:+ cs := by
  by_cases hc : c = '\''
  · subst hc
    exact suffix_refl _
  by_cases hc' : c = '\\'
  · subst hc'
    cases cs with
    | nil => exact nil_suffix
    | cons d cs => exact (scanChar_backslash_suffix d cs).trans (suffix_cons _ _)
  · rw [scanChar_of_ne hc hc']
    exact closeChar_suffix _ _

theorem unescape?_ascii {c value : Char} (h : unescape? c = some value) : value.toNat < 128 := by
  unfold unescape? at h
  split at h
  case h_8 => cases h
  all_goals
    cases h
    decide

/-- A character that is written as it should be is read up to its closing quote. -/
theorem scanChar_of_isCharacter {w : List Char} (hw : isCharacter w = true) (v : List Char) :
    ∃ c, scanChar (w ++ '\'' :: v) = (.char c, v) := by
  unfold isCharacter at hw
  split at hw
  · next c =>
    simp only [Bool.and_eq_true, bne_iff_ne, decide_eq_true_eq] at hw
    obtain ⟨⟨hslash, hquote⟩, hascii⟩ := hw
    refine ⟨c.toNat.toUInt8, ?_⟩
    rw [singleton_append, scanChar_of_ne hquote hslash, closeChar, if_pos hascii]
  · next c d =>
    simp only [Bool.and_eq_true, beq_iff_eq, Option.isSome_iff_exists] at hw
    obtain ⟨rfl, value, hvalue⟩ := hw
    refine ⟨value.toNat.toUInt8, ?_⟩
    rw [cons_append, singleton_append, scanChar_backslash, hvalue]
    dsimp only
    rw [closeChar, if_pos (unescape?_ascii hvalue)]
  · cases hw

/-- A malformed character literal is skipped up to its closing quote, unless an invalid escape sequence is in its
way. -/
theorem scanChar_malformed {w : List Char} (hw : Malformed '\'' w) (hescape : ¬ BadEscape '\'' w)
    (v : List Char) : ∃ e, scanChar (w ++ '\'' :: v) = (.error e, v) := by
  obtain ⟨c, w, rfl⟩ := exists_cons_of_ne_nil hw.nonempty
  obtain ⟨hc, hinside⟩ := not_or.1 (mt mem_cons.2 hw.inside)
  have hinvalid := hw.invalid
  by_cases hc' : c = '\\'
  · subst hc'
    cases w with
    | nil => exact absurd rfl hw.closed
    | cons d w =>
      have hw' : '\'' ∉ w := fun h => hinside (mem_cons_of_mem _ h)
      cases hd : unescape? d with
      | none => exact absurd ⟨rfl, d, w, rfl, hd⟩ hescape
      | some value =>
        -- With nothing behind the escape sequence, this is a literal.
        have hne : w ≠ [] := by
          rintro rfl
          have hnone : (unescape? d).isSome = false := hinvalid
          rw [hd] at hnone
          cases hnone
        refine ⟨.invalidChar, ?_⟩
        rw [cons_append, cons_append, scanChar_backslash, hd]
        exact closeChar_skip hne hw' v
  · rw [cons_append, scanChar_of_ne (Ne.symm hc) hc']
    refine ⟨.invalidChar, ?_⟩
    cases w with
    | nil =>
      have hchar : (c != '\\' && c != '\'' && decide (c.toNat < 128)) = false := hinvalid
      have hascii : ¬ c.toNat < 128 := by simpa [hc', Ne.symm hc] using hchar
      rw [nil_append, closeChar, if_neg hascii]
    | cons d w => exact closeChar_skip (cons_ne_nil _ _) hinside v

/-! ## String literals -/

/-- What an escape sequence makes of the contents behind it. -/
def escaped (c : Char) (contents : Except LexError (List Char)) : Except LexError (List Char) :=
  match unescape? c, contents with
  | some value, contents => contents.map (value :: ·)
  | none, .error .unterminatedString => .error .unterminatedString
  | none, _ => .error (.invalidEscape c)

theorem scanString_backslash (c : Char) (cs : List Char) :
    scanString ('\\' :: c :: cs) = (escaped c (scanString cs).1, (scanString cs).2) := by
  rw [scanString]
  rcases scanString cs with ⟨contents, after⟩
  dsimp only
  unfold escaped
  split <;> simp_all

theorem scanString_of_ne {c : Char} (hc : c ≠ '"') (hc' : c ≠ '\\') (cs : List Char) :
    scanString (c :: cs) = ((scanString cs).1.map (c :: ·), (scanString cs).2) := by
  rw [scanString]
  · exact hc
  · rintro rfl
    exact absurd rfl hc'
  · rintro _ _ rfl
    exact absurd rfl hc'

theorem scanString_cons_suffix (c : Char) (cs : List Char) : (scanString (c :: cs)).2 <:+ cs := by
  by_cases hc : c = '"'
  · subst hc
    exact suffix_refl _
  by_cases hc' : c = '\\'
  · subst hc'
    cases cs with
    | nil => exact nil_suffix
    | cons d cs =>
      rw [scanString_backslash]
      exact (scanString_suffix cs).trans (suffix_cons _ _)
  · rw [scanString_of_ne hc hc']
    exact scanString_suffix cs

theorem escaped_of_some {c value : Char} (h : unescape? c = some value)
    (contents : Except LexError (List Char)) : escaped c contents = contents.map (value :: ·) := by
  unfold escaped
  rw [h]

theorem exists_escaped_error {c : Char} {contents : Except LexError (List Char)}
    (h : unescape? c = none ∨ ∃ e, contents = .error e) : ∃ e, escaped c contents = .error e := by
  unfold escaped
  split
  · next hc =>
    obtain ⟨e, rfl⟩ := h.resolve_left (by simp [hc])
    exact ⟨e, rfl⟩
  · exact ⟨_, rfl⟩
  · exact ⟨_, rfl⟩

theorem getLast?_ne_of_cons {c : Char} {w : List Char} (h : (c :: w).getLast? ≠ some '\\') :
    w.getLast? ≠ some '\\' := by
  cases w with
  | nil => simp
  | cons d w => rwa [getLast?_cons_cons] at h

/-- What is left of the cases that the contents of a string literal begin with. -/
theorem ne_backslash {c : Char} {w : List Char} (hlast : c = '\\' → w = [] → False)
    (hescape : ∀ d w', c = '\\' → w = d :: w' → False) : c ≠ '\\' := by
  intro hc
  cases w with
  | nil => exact hlast hc rfl
  | cons d w => exact hescape d w hc rfl

/-- Where a string literal ends does not depend on whether its escape sequences stand for anything. -/
theorem scanString_closed {w : List Char} (hw : '"' ∉ w) (hclosed : w.getLast? ≠ some '\\') (v : List Char) :
    (scanString (w ++ '"' :: v)).2 = v ∧
      (isContents w = false → ∃ e, (scanString (w ++ '"' :: v)).1 = .error e) := by
  fun_induction isContents w with
  | case1 => exact ⟨rfl, fun h => by cases h⟩
  | case2 => exact absurd rfl hclosed
  | case3 c w ih =>
    have hw' : '"' ∉ w := fun h => hw (by simp [h])
    obtain ⟨hrest, herror⟩ := ih hw' (getLast?_ne_of_cons (getLast?_ne_of_cons hclosed))
    rw [cons_append, cons_append, scanString_backslash]
    refine ⟨hrest, fun hinvalid => exists_escaped_error ?_⟩
    rcases Bool.and_eq_false_iff.1 hinvalid with hc | hcontents
    · exact Or.inl (by simpa using hc)
    · exact Or.inr (herror hcontents)
  | case4 c w hlast hc ih =>
    obtain ⟨hquote, hw'⟩ := not_or.1 (mt mem_cons.2 hw)
    obtain ⟨hrest, herror⟩ := ih hw' (getLast?_ne_of_cons hclosed)
    rw [cons_append, scanString_of_ne (Ne.symm hquote) (ne_backslash hlast hc)]
    refine ⟨hrest, fun hinvalid => ?_⟩
    obtain ⟨e, he⟩ := herror (by simpa [Ne.symm hquote] using hinvalid)
    exact ⟨e, by rw [he]; rfl⟩

/-- A malformed string literal is skipped up to its closing quote. -/
theorem scanText_malformed {w : List Char} (hw : Malformed '"' w) (v : List Char) :
    ∃ e, scanText (w ++ '"' :: v) = (.error e, v) := by
  obtain ⟨hrest, herror⟩ := scanString_closed hw.inside hw.closed v
  obtain ⟨e, he⟩ := herror hw.invalid
  have hscan : scanString (w ++ '"' :: v) = (.error e, v) := Prod.ext he hrest
  exact ⟨e, by rw [scanText, hscan]⟩

/-- So are the contents of a string. -/
theorem scanString_of_isContents {w : List Char} (hw : isContents w = true) (v : List Char) :
    ∃ contents, scanString (w ++ '"' :: v) = (.ok contents, v) := by
  fun_induction isContents w with
  | case1 => exact ⟨[], rfl⟩
  | case2 => cases hw
  | case3 c w ih =>
    obtain ⟨hc, hw⟩ := Bool.and_eq_true_iff.1 hw
    obtain ⟨contents, hcontents⟩ := ih hw
    obtain ⟨value, hvalue⟩ := Option.isSome_iff_exists.1 hc
    refine ⟨value :: contents, ?_⟩
    rw [cons_append, cons_append, scanString_backslash, hcontents, escaped_of_some hvalue]
    rfl
  | case4 c w hlast hc ih =>
    obtain ⟨hquote, hw⟩ := Bool.and_eq_true_iff.1 hw
    obtain ⟨contents, hcontents⟩ := ih hw
    refine ⟨c :: contents, ?_⟩
    rw [cons_append, scanString_of_ne (bne_iff_ne.1 hquote) (ne_backslash hlast hc), hcontents]
    rfl

/-! ## Literals as tokens -/

theorem scanToken_malformed {q : Char} {w : List Char} (hw : Malformed q w) (hescape : ¬ BadEscape q w)
    (afterInt : Bool) (v : List Char) : ∃ e, scanToken afterInt q (w ++ q :: v) = (.error e, v) := by
  rcases hw.quote with rfl | rfl
  · rw [scanToken_quote]
    exact scanChar_malformed hw hescape v
  · rw [scanToken_doubleQuote]
    exact scanText_malformed hw v

theorem scanToken_badEscape {c : Char} (hc : unescape? c = none) (afterInt : Bool) (cs : List Char) :
    scanToken afterInt '\'' ('\\' :: c :: cs) = (.error (.invalidEscape c), cs) := by
  rw [scanToken_quote, scanChar_backslash, hc]

/-- The literals are what is read as a token up to the closing quote. -/
theorem isLiteral_iff {q : Char} {w : List Char} (hq : q = '\'' ∨ q = '"') (hne : w ≠ []) (hinside : q ∉ w)
    (hclosed : w.getLast? ≠ some '\\') (afterInt : Bool) (v : List Char) :
    isLiteral q w = true ↔
      ∃ kind, scanToken afterInt q (w ++ q :: v) = (kind, v) ∧ ∀ e, kind ≠ .error e := by
  constructor
  · intro h
    rcases hq with rfl | rfl
    · obtain ⟨c, hscan⟩ := scanChar_of_isCharacter h v
      exact ⟨.char c, by rw [scanToken_quote, hscan], by simp⟩
    · obtain ⟨contents, hscan⟩ := scanString_of_isContents h v
      exact ⟨.text (String.ofList contents), by rw [scanToken_doubleQuote, scanText, hscan], by simp⟩
  · rintro ⟨kind, hscan, hkind⟩
    by_contra h
    have hw : Malformed q w := ⟨hq, hne, hinside, hclosed, Bool.eq_false_of_not_eq_true h⟩
    by_cases hescape : BadEscape q w
    · obtain ⟨rfl, c, w', rfl, hc⟩ := hescape
      rw [cons_append, cons_append, scanToken_badEscape hc] at hscan
      exact hkind _ (Prod.mk.inj hscan).1.symm
    · obtain ⟨e, he⟩ := scanToken_malformed hw hescape afterInt v
      rw [he] at hscan
      exact hkind e (Prod.mk.inj hscan).1.symm

/-! ## Reading in front of a quote

A token that ends before a quote is the same without what comes from the quote on. -/

section

variable {q : Char} {t : List Char}

/-- Reading up to a place before the quote does not look at what comes from the quote on. -/
def Cuts {α : Type} (rest : List Char) (f : List Char → α × List Char) : Prop :=
  ∀ u kind u', f (u ++ rest) = (kind, u' ++ rest) → f u = (kind, u')

theorem not_suffix_tail {u : List Char} : ¬ u ++ q :: t <:+ t := by
  intro h
  have := h.length_le
  simp at this
  omega

theorem span_append {p : Char → Bool} (hp : p q = false) (u : List Char) :
    (u ++ q :: t).takeWhile p = u.takeWhile p ∧ (u ++ q :: t).dropWhile p = u.dropWhile p ++ q :: t := by
  induction u with
  | nil => simp [hp]
  | cons c u ih =>
    by_cases hc : p c = true
    · simp [hc, ih]
    · simp [hc]

theorem cuts_closeChar (value : Char) : Cuts (q :: t) (closeChar value) := by
  intro u kind u' h
  by_cases hu : '\'' ∈ u
  · -- The quote that ends the literal is the first one in the text.
    obtain ⟨a, b, rfl, ha⟩ := eq_append_cons_of_mem hu
    rw [append_assoc, cons_append] at h
    by_cases hne : a = []
    · subst hne
      rw [nil_append, closeChar] at h ⊢
      simp_all
    · rw [closeChar_skip hne ha] at h ⊢
      simp_all
  · have hpass : ∀ c ∈ u, decide (c ≠ '\'') = true := by
      intro c hc
      have : c ≠ '\'' := fun h => hu (h ▸ hc)
      simpa using this
    have hrest := closeChar_rest value (u ++ q :: t)
    rw [h, dropWhile_append_of_pos hpass] at hrest
    exact absurd (hrest ▸ tail_dropWhile_suffix _ q t) not_suffix_tail

/-- By the character behind the quote: an escape sequence takes one more. -/
theorem cuts_scanChar : Cuts (q :: t) scanChar := by
  intro u kind u' h
  cases u with
  | nil => exact absurd (h ▸ scanChar_cons_suffix q t) not_suffix_tail
  | cons c u =>
    rw [cons_append] at h
    by_cases hc : c = '\''
    · subst hc
      simp_all [scanChar]
    by_cases hc' : c = '\\'
    · subst hc'
      cases u with
      | nil => exact absurd (h ▸ scanChar_backslash_suffix q t) not_suffix_tail
      | cons d u =>
        rw [cons_append, scanChar_backslash] at h
        rw [scanChar_backslash]
        cases hd : unescape? d with
        | none => simp_all
        | some value =>
          rw [hd] at h
          exact cuts_closeChar value u kind u' h
    · rw [scanChar_of_ne hc hc'] at h ⊢
      exact cuts_closeChar c u kind u' h

/-- By recursion on the characters, an escape sequence being two of them. -/
theorem cuts_scanString : Cuts (q :: t) scanString := by
  intro u
  -- The cases are those that the reader tells apart, but for the closing quote.
  induction u using isContents.induct with
  | case1 =>
    intro contents u' h
    exact absurd (h ▸ scanString_cons_suffix q t) not_suffix_tail
  | case2 =>
    intro contents u' h
    rw [cons_append, nil_append, scanString_backslash] at h
    have hrest : (scanString t).2 = u' ++ q :: t := congrArg Prod.snd h
    exact absurd (hrest ▸ scanString_suffix t) not_suffix_tail
  | case3 c u ih =>
    intro contents u' h
    rw [cons_append, cons_append, scanString_backslash] at h
    obtain ⟨rfl, hrest⟩ := Prod.mk.inj h
    rw [scanString_backslash, ih _ u' (Prod.ext rfl hrest)]
  | case4 c u hlast hc ih =>
    intro contents u' h
    rw [cons_append] at h
    by_cases hquote : c = '"'
    · subst hquote
      simp_all [scanString]
    rw [scanString_of_ne hquote (ne_backslash hlast hc)] at h ⊢
    obtain ⟨rfl, hrest⟩ := Prod.mk.inj h
    rw [ih _ u' (Prod.ext rfl hrest)]

theorem cuts_scanText : Cuts (q :: t) scanText := by
  intro u kind u' h
  unfold scanText at h
  split at h
  all_goals
    next hscan =>
      obtain ⟨rfl, rfl⟩ := Prod.mk.inj h
      rw [scanText, cuts_scanString u _ u' hscan]

theorem cuts_scanDigits (mark : String) (base : Nat) {isDigit : Char → Bool}
    (hdigit : (q == '_' || isDigit q) = false) : Cuts (q :: t) (scanDigits mark base isDigit) := by
  intro u kind u' h
  obtain ⟨htake, hdrop⟩ := span_append (t := t) (p := fun c => c == '_' || isDigit c) hdigit u
  rw [scanDigits, htake, hdrop] at h
  simp_all [scanDigits]

/-- Whether decimal or hexadecimal, the digits end before a quote. -/
theorem cuts_scanNumber (hq : q = '\'' ∨ q = '"') (c : Char) : Cuts (q :: t) (scanNumber c) := by
  have hhex : (q == '_' || isHexDigit q) = false := by
    rcases hq with rfl | rfl <;> rfl
  have hdecimal : (q == '_' || q.isDigit) = false := by
    rcases hq with rfl | rfl <;> rfl
  intro u kind u' h
  unfold scanNumber
  split
  · exact cuts_scanDigits _ _ hhex _ kind u' h
  · exact cuts_scanDigits _ _ hhex _ kind u' h
  · next hx hX =>
    -- The quote is no mark of a base either.
    have hmark : ∀ d ds, d ≠ q → (∀ ds, c = '0' → u = d :: ds → False) → c = '0' →
        u ++ q :: t = d :: ds → False := by
      intro d ds hd hnot hc happend
      rcases append_eq_cons_iff.1 happend with ⟨-, hcons⟩ | ⟨u'', hu, -⟩
      · exact hd (cons.inj hcons).1.symm
      · exact hnot u'' hc hu
    obtain ⟨htake, hdrop⟩ := span_append (t := t) (p := fun c => c == '_' || c.isDigit) hdecimal u
    rw [scanNumber, htake, hdrop] at h
    · simp_all
    · exact fun ds => hmark 'x' ds (by rcases hq with rfl | rfl <;> decide) hx
    · exact fun ds => hmark 'X' ds (by rcases hq with rfl | rfl <;> decide) hX

theorem cuts_scanWord (hq : q = '\'' ∨ q = '"') : Cuts (q :: t) scanWord := by
  intro u word u' h
  have hword : isWordChar q = false := by
    rcases hq with rfl | rfl <;> rfl
  obtain ⟨htake, hdrop⟩ := span_append (t := t) hword u
  rw [scanWord, htake, hdrop] at h
  simp_all [scanWord]

theorem pair?_append (hq : q = '\'' ∨ q = '"') (afterInt : Bool) (c : Char) (u : List Char) :
    pair? afterInt c (u ++ q :: t) = (pair? afterInt c u).map fun p => (p.1, p.2 ++ q :: t) := by
  cases u with
  | nil =>
    have hnone : Symbol.ofPair? c q = none := by
      unfold Symbol.ofPair?
      rcases hq with rfl | rfl <;> split <;> simp_all
    rw [nil_append, pair?_cons, hnone]
    rfl
  | cons d u =>
    rw [cons_append, pair?_cons, pair?_cons]
    cases Symbol.ofPair? c d with
    | none => rfl
    | some s =>
      dsimp only [Option.bind_some]
      split <;> rfl

theorem Cuts.ite {α : Type} {p : Prop} [Decidable p] {f g : List Char → α × List Char}
    (hf : Cuts (q :: t) f) (hg : Cuts (q :: t) g) : Cuts (q :: t) fun cs => if p then f cs else g cs := by
  intro u kind u' h
  dsimp only at h ⊢
  split at h
  · next hp =>
    rw [if_pos hp]
    exact hf u kind u' h
  · next hp =>
    rw [if_neg hp]
    exact hg u kind u' h

theorem Cuts.pair (hq : q = '\'' ∨ q = '"') (afterInt : Bool) (c : Char) {f : List Char → Scanned}
    (hf : Cuts (q :: t) f) :
    Cuts (q :: t) fun cs =>
      match pair? afterInt c cs with
      | some (s, rest) => (.symbol s, rest)
      | none => f cs := by
  intro u kind u' h
  dsimp only at h ⊢
  rw [pair?_append hq] at h
  cases hpair : pair? afterInt c u with
  | none =>
    rw [hpair] at h
    exact hf u kind u' h
  | some p => simp_all

theorem cuts_none {α : Type} (kind : α) : Cuts (q :: t) fun cs => (kind, cs) := by
  intro u kind' u' h
  simp_all

theorem cuts_word (hq : q = '\'' ∨ q = '"') (f : String → TokenKind) (c : Char) :
    Cuts (q :: t) fun cs => (f (scanWord (c :: cs)).1, (scanWord (c :: cs)).2) := by
  intro u kind u' h
  obtain ⟨rfl, hrest⟩ := Prod.mk.inj h
  have hword := cuts_scanWord hq (c :: u) _ u' (Prod.ext rfl hrest)
  dsimp only
  rw [hword, cons_append]

theorem cuts_builtin (hq : q = '\'' ∨ q = '"') :
    Cuts (q :: t) fun cs =>
      match cs with
      | d :: _ =>
        if isWordStart d then
          let (name, rest) := scanWord cs
          (.builtin name, rest)
        else (.error (.unexpectedChar '@'), cs)
      | [] => (TokenKind.error (.unexpectedChar '@'), cs) := by
  intro u kind u' h
  cases u with
  | nil =>
    have hstart : isWordStart q = false := by
      rcases hq with rfl | rfl <;> rfl
    simp_all
  | cons d u =>
    dsimp only [cons_append] at h ⊢
    split at h
    · next hd =>
      rw [if_pos hd]
      exact cuts_word hq .builtin d u kind u' h
    · next hd =>
      rw [if_neg hd]
      exact cuts_none _ (d :: u) kind u' h

/-- A token that ends before the quote does not depend on what follows from there. -/
theorem cuts_scanToken (hq : q = '\'' ∨ q = '"') (afterInt : Bool) (c : Char) :
    Cuts (q :: t) (scanToken afterInt c) := by
  have hcomment : Cuts (q :: t) fun cs => (TokenKind.comment (String.ofList (cs.dropWhile Text.isBlank)), []) := by
    intro u kind u' h
    simp at h
  show Cuts (q :: t) fun cs => scanToken afterInt c cs
  unfold scanToken
  refine .ite hcomment (.pair hq afterInt c ?_)
  cases Symbol.ofChar? c with
  | some s => exact cuts_none _
  | none =>
    exact .ite (cuts_scanNumber hq c) (.ite cuts_scanChar (.ite cuts_scanText (.ite (cuts_builtin hq)
      (.ite (cuts_word hq wordKind c) (cuts_none _)))))

end

/-! ## Lines -/

theorem byteLength_le_of_suffix {cs ds : List Char} (h : cs <:+ ds) :
    byteLength cs ≤ byteLength ds := by
  obtain ⟨before, rfl⟩ := h
  simp

/-- The columns of a line are counted from where reading starts. -/
theorem scanLine_shifted (row n col : Nat) (afterInt : Bool) (cs : List Char) :
    scanLine row (n + col) afterInt cs = (scanLine row col afterInt cs).map (shifted n) := by
  fun_induction scanLine row col afterInt cs with
  | case1 => rw [scanLine_nil, map_nil]
  | case2 col afterInt c cs hblank ih => rw [scanLine_cons, if_pos hblank, Nat.add_assoc, ih]
  | case3 col afterInt c cs hblank kind rest width ih =>
    rw [scanLine_cons, if_neg hblank, map_cons, ← ih, ← Nat.add_assoc]
    rfl

theorem le_col_of_mem_scanLine {row col : Nat} {afterInt : Bool} {cs : List Char} {t : Token}
    (h : t ∈ scanLine row col afterInt cs) : col ≤ t.pos.col := by
  rw [← Nat.add_zero col, scanLine_shifted, mem_map] at h
  obtain ⟨t, -, rfl⟩ := h
  exact Nat.le_add_right _ _

/-- The first character that is not blank starts a token. -/
theorem exists_mem_scanLine {c : Char} (hc : Text.isBlank c = false) (row col : Nat) (afterInt : Bool)
    (before cs : List Char) :
    ∃ t ∈ scanLine row col afterInt (before ++ c :: cs), t.pos.col ≤ col + byteLength before := by
  induction before generalizing col with
  | nil =>
    rw [nil_append, scanLine_cons, hc, if_neg Bool.false_ne_true]
    exact ⟨_, mem_cons_self, Nat.le_refl _⟩
  | cons d before ih =>
    rw [cons_append, scanLine_cons]
    split
    · obtain ⟨t, hmem, hcol⟩ := ih (col + d.utf8Size)
      refine ⟨t, hmem, ?_⟩
      rwa [byteLength, ← Nat.add_assoc]
    · exact ⟨_, mem_cons_self, Nat.le_add_right _ _⟩

/-- Text whose tokens are complete is read as it is read alone, and then the rest. -/
theorem Complete.scanLine_append {q : Char} (hq : q = '\'' ∨ q = '"') {t u : List Char} {afterInt : Bool}
    (h : Complete (q :: t) afterInt u) (row col : Nat) :
    ∃ afterInt', scanLine row col afterInt (u ++ q :: t) =
      scanLine row col afterInt u ++ scanLine row (col + byteLength u) afterInt' (q :: t) := by
  induction h generalizing col with
  | @nil afterInt => exact ⟨afterInt, by rw [scanLine_nil]; rfl⟩
  | @blank afterInt c u hc _ ih =>
    obtain ⟨afterInt', hscan⟩ := ih (col + c.utf8Size)
    refine ⟨afterInt', ?_⟩
    rw [cons_append, scanLine_cons, if_pos hc, hscan, scanLine_cons c u, if_pos hc, byteLength,
      Nat.add_assoc]
  | @token afterInt c u u' kind hc hread _ ih =>
    have halone := cuts_scanToken hq afterInt c u kind u' hread
    have hle : byteLength u' ≤ byteLength u := by
      have hsuffix := scanToken_suffix afterInt c u
      rw [halone] at hsuffix
      exact byteLength_le_of_suffix hsuffix
    have hwidth : byteLength (c :: (u ++ q :: t)) - byteLength (u' ++ q :: t) =
        byteLength (c :: u) - byteLength u' := by
      simp only [byteLength, byteLength_append]
      omega
    obtain ⟨afterInt', hscan⟩ := ih (col + (byteLength (c :: u) - byteLength u'))
    refine ⟨afterInt', ?_⟩
    have hcol : col + (byteLength (c :: u) - byteLength u') + byteLength u' =
        col + byteLength (c :: u) := by
      simp only [byteLength]
      omega
    rw [hcol] at hscan
    rw [cons_append, scanLine_cons, scanLine_cons, hc, if_neg Bool.false_ne_true,
      if_neg Bool.false_ne_true, hread, halone]
    dsimp only
    rw [hwidth, hscan, cons_append]

/-! ## What a malformed literal costs -/

theorem Malformed.not_isBlank {q : Char} {w : List Char} (hw : Malformed q w) : Text.isBlank q = false := by
  rcases hw.quote with rfl | rfl <;> rfl

/-- Where the literal is skipped, its place on the line is that of the error. -/
theorem scanLine_error {q : Char} {w : List Char} (hw : Malformed q w) (row col : Nat) {afterInt : Bool}
    {skipped rest : List Char} {e : LexError}
    (h : scanToken afterInt q (skipped ++ rest) = (.error e, rest)) :
    scanLine row col afterInt (q :: (skipped ++ rest)) =
      ⟨.error e, ⟨row, col⟩⟩ ::
        (scanLine row 0 false rest).map (shifted (col + byteLength (q :: skipped))) := by
  have hwidth : byteLength (q :: (skipped ++ rest)) - byteLength rest =
      byteLength (q :: skipped) := by
    simp only [byteLength, byteLength_append]
    omega
  rw [scanLine_cons, hw.not_isBlank, if_neg Bool.false_ne_true, h]
  dsimp only
  rw [hwidth, ← scanLine_shifted, Nat.add_zero]
  rfl

theorem oneError_of_not_badEscape {row : Nat} {q : Char} {u w v : List Char} (hw : Malformed q w)
    (hu : Complete (q :: (w ++ q :: v)) false u) (hescape : ¬ BadEscape q w) : OneError row u q w v := by
  obtain ⟨afterInt, hline⟩ := hu.scanLine_append hw.quote row 0
  obtain ⟨e, he⟩ := scanToken_malformed hw hescape afterInt v
  have hline' : w ++ q :: v = w ++ [q] ++ v := by simp
  rw [hline'] at he
  refine ⟨e, ?_⟩
  have herror := scanLine_error hw row (byteLength u) he
  rw [← hline'] at herror
  rw [hline, Nat.zero_add, herror, byteLength_append]

/-- Reading goes on right behind the escape sequence. -/
theorem scanLine_badEscape {row : Nat} {u w v : List Char} {c : Char} (hw : Malformed '\'' ('\\' :: c :: w))
    (hu : Complete ('\'' :: ('\\' :: c :: w ++ '\'' :: v)) false u) (hc : unescape? c = none) :
    scanLine row 0 false (u ++ '\'' :: ('\\' :: c :: w ++ '\'' :: v)) =
      scanLine row 0 false u ++ ⟨.error (.invalidEscape c), ⟨row, byteLength u⟩⟩ ::
        (scanLine row 0 false (w ++ '\'' :: v)).map (shifted (byteLength (u ++ ['\'', '\\', c]))) := by
  obtain ⟨afterInt, hline⟩ := hu.scanLine_append hw.quote row 0
  have hread : scanToken afterInt '\'' (['\\', c] ++ (w ++ '\'' :: v)) =
      (.error (.invalidEscape c), w ++ '\'' :: v) := scanToken_badEscape hc afterInt _
  have herror := scanLine_error hw row (byteLength u) hread
  rw [hline, Nat.zero_add, byteLength_append]
  exact congrArg _ herror

/-- The closing quote starts a token of its own there, which stands before all tokens of the text behind. -/
theorem not_oneError_of_badEscape {row : Nat} {u w v : List Char} {c : Char}
    (hw : Malformed '\'' ('\\' :: c :: w)) (hu : Complete ('\'' :: ('\\' :: c :: w ++ '\'' :: v)) false u)
    (hc : unescape? c = none) : ¬ OneError row u '\'' ('\\' :: c :: w) v := by
  rintro ⟨e, he⟩
  rw [scanLine_badEscape hw hu hc] at he
  have htail := (cons.inj (append_cancel_left he)).2
  rw [← scanLine_shifted, ← scanLine_shifted] at htail
  obtain ⟨t, hmem, hcol⟩ := exists_mem_scanLine hw.not_isBlank row
    (byteLength (u ++ ['\'', '\\', c]) + 0) false w v
  rw [htail] at hmem
  have hle := le_col_of_mem_scanLine hmem
  have hquote : ('\'' : Char).utf8Size = 1 := rfl
  simp only [byteLength, byteLength_append, cons_append] at hcol hle
  omega

/-- A malformed literal costs one error, if it is no character literal that begins with an invalid escape
sequence, and only then. If it is one, the error is found as well, but reading goes on right behind the escape
sequence, in the middle of the literal. -/
theorem oneError_iff (row : Nat) {q : Char} {u w : List Char} (v : List Char) (hw : Malformed q w)
    (hu : Complete (q :: (w ++ q :: v)) false u) :
    (OneError row u q w v ↔ ¬ BadEscape q w) ∧
      ∀ c w', q = '\'' → w = '\\' :: c :: w' → unescape? c = none →
        scanLine row 0 false (u ++ q :: (w ++ q :: v)) =
          scanLine row 0 false u ++ ⟨.error (.invalidEscape c), ⟨row, Source.byteLength u⟩⟩ ::
            (scanLine row 0 false (w' ++ q :: v)).map
              (shifted (Source.byteLength (u ++ [q, '\\', c]))) := by
  refine ⟨⟨?_, oneError_of_not_badEscape hw hu⟩, ?_⟩
  · rintro hone ⟨rfl, c, w', rfl, hc⟩
    exact not_oneError_of_badEscape hw hu hc hone
  · rintro c w' rfl rfl hc
    exact scanLine_badEscape hw hu hc

theorem complete_assignment (rest : List Char) : Complete rest false "x = ".toList := by
  have hname : scanToken false 'x' (" = ".toList ++ rest) = (.ident "x", " = ".toList ++ rest) := rfl
  have hequal : scanToken false '=' (" ".toList ++ rest) = (.symbol .equal, " ".toList ++ rest) := rfl
  exact .token rfl hname (.blank rfl (.token rfl hequal (.blank rfl .nil)))

theorem oneError_iff_badText :
    Malformed '"' "a\\qb".toList ∧ Complete "\"a\\qb\";".toList false "x = ".toList ∧
      OneError 0 "x = ".toList '"' "a\\qb".toList ";".toList := by
  have hw : Malformed '"' "a\\qb".toList := ⟨Or.inr rfl, by simp, by simp, by simp, rfl⟩
  refine ⟨hw, complete_assignment _, (oneError_iff 0 ";".toList hw (complete_assignment _)).1.2 ?_⟩
  rintro ⟨hquote, -⟩
  cases hquote

/-- The closing quote is taken for the first quote of a literal that does not end. -/
theorem exists_not_oneError :
    ∃ row q u w v, Malformed q w ∧ Complete (q :: (w ++ q :: v)) false u ∧ ¬ OneError row u q w v := by
  have hw : Malformed '\'' "\\q".toList := ⟨Or.inl rfl, by simp, by simp, by simp, rfl⟩
  exact ⟨0, '\'', "x = ".toList, "\\q".toList, ";".toList, hw, complete_assignment _,
    not_oneError_of_badEscape hw (complete_assignment _) rfl⟩

end Sigil.Token
