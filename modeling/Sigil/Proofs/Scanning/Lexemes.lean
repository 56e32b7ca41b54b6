import Mathlib.Data.List.Basic
import Mathlib.Data.List.TakeWhile
import Mathlib.Data.Nat.Digits.Defs
import Mathlib.Tactic.Ring
import Sigil.Token.Scan

/-!
# Lexemes

How the tokens of a text are written. Every kind of token but errors has a lexeme (`TokenKind.lexeme`), in
which a name is what it is, a number is kept as it was written, and the contents of a literal are escaped.
The kinds for which this makes sense are the writable ones (`TokenKind.Writable`): names that mean nothing
else, numbers with their value, ASCII characters and comments that fit on a line.

A lexeme is read as its token if a blank or nothing follows it (`Token.scanToken_lexeme`), with two provisos.
A comment takes in whatever follows, and behind a word for an integer type `!=` is no token.
-/

namespace Sigil

open List Symbol

namespace Token

/-- How a character is written in a literal. -/
def escape (c : Char) : List Char :=
  match c with
  | '\n' => ['\\', 'n']
  | '\t' => ['\\', 't']
  | '\r' => ['\\', 'r']
  | '\x00' => ['\\', '0']
  | '\\' => ['\\', '\\']
  | '\'' => ['\\', '\'']
  | '"' => ['\\', '"']
  | c => [c]

/-- A letter or an underscore, and then letters, digits and underscores. -/
def IsWord (cs : List Char) : Prop :=
  ∃ c rest, cs = c :: rest ∧ isWordStart c = true ∧ ∀ d ∈ rest, isWordChar d = true

/-- The characters other than underscores are the digits of the number, of which there is at least one. -/
def Numeral (base : Nat) (cs : List Char) (n : Nat) : Prop :=
  ∃ ds : List Nat, ds ≠ [] ∧ (∀ d ∈ ds, d < base) ∧
    (cs.filter (· ≠ '_')).map Char.toLower = ds.map Nat.digitChar ∧ Nat.ofDigits base ds.reverse = n

end Token

namespace TokenKind

/-- How a token is written. -/
def lexeme : TokenKind → List Char
  | symbol s => s.text.toList
  | keyword k => k.text.toList
  | ident x => x.toList
  | builtin x => '@' :: x.toList
  | number written _ => written.toList
  | text s => '"' :: (s.toList.flatMap Token.escape ++ ['"'])
  | char c => '\'' :: (Token.escape (Char.ofNat c.toNat) ++ ['\''])
  | comment body => '#' :: body.toList
  | error _ => []

/-- Whether a token has a lexeme that says what it is. A decimal number starts with a digit and a
hexadecimal one with its mark. -/
def Writable : TokenKind → Prop
  | symbol _ | keyword _ | text _ => True
  | ident x => Token.IsWord x.toList ∧ (∀ k : Keyword, k.text ≠ x) ∧ x ≠ "and" ∧ x ≠ "or"
  | builtin x => Token.IsWord x.toList
  | number written value =>
    (∃ c cs, written.toList = c :: cs ∧ c ≠ '_' ∧ Token.Numeral 10 (c :: cs) value.toNat) ∨
      ∃ cs, written.toList = '0' :: 'x' :: cs ∧ Token.Numeral 16 cs value.toNat
  | char c => c.toNat < 128
  | comment body => '\n' ∉ body.toList ∧ ∀ c ∈ body.toList.head?, Text.isBlank c = false
  | error _ => False

end TokenKind

namespace Token

/-! ## What ends a token -/

/-- Nothing follows, or a blank. -/
def Apart (rest : List Char) : Prop :=
  rest = [] ∨ ∃ more, rest = ' ' :: more

/-- Characters of a class are read up to where the token ends. -/
theorem Apart.span {p : Char → Bool} {cs rest : List Char} (hrest : Apart rest)
    (hcs : ∀ c ∈ cs, p c = true) (hp : p ' ' = false) :
    (cs ++ rest).takeWhile p = cs ∧ (cs ++ rest).dropWhile p = rest := by
  rw [takeWhile_append_of_pos hcs, dropWhile_append_of_pos hcs]
  rcases hrest with rfl | ⟨more, rfl⟩
  · simp
  · simp [hp]

end Token

/-! ## Symbols -/

namespace Symbol

variable {c d : Char} {s : Symbol}

theorem ofPair?_blank (c : Char) : ofPair? c ' ' = none := by
  unfold ofPair?
  split <;> simp_all

theorem length_text (s : Symbol) : s.text.toList.length = 1 ∨ s.text.toList.length = 2 := by
  cases s <;> decide

/-- A symbol is found by the character that it is written with. -/
theorem ofChar?_of_text (h : s.text.toList = [c]) :
    ofChar? c = some s ∧ c ≠ '#' ∧ Text.isBlank c = false := by
  cases s <;> cases h <;> decide

/-- A symbol is found by the two characters that it is written with. -/
theorem ofPair?_of_text (h : s.text.toList = [c, d]) :
    ofPair? c d = some s ∧ c ≠ '#' ∧ Text.isBlank c = false := by
  cases s <;> cases h <;> decide

/-- No symbol starts with a character that can stand in a name. -/
theorem not_isWordChar_of_ofChar? (h : ofChar? c = some s) :
    Token.isWordChar c = false := by
  unfold ofChar? at h
  split at h <;> cases h <;> rfl

theorem not_isWordChar_of_ofPair? (h : ofPair? c d = some s) :
    Token.isWordChar c = false := by
  unfold ofPair? at h
  split at h <;> cases h <;> rfl

end Symbol

namespace Token

variable {afterInt : Bool} {rest : List Char}
variable {c : Char} {cs : List Char}

theorem pair?_cons (afterInt : Bool) (c d : Char) (cs : List Char) :
    pair? afterInt c (d :: cs) = (ofPair? c d).bind fun s =>
      if afterInt = true ∧ s = .notEqual then none else some (s, cs) := by
  unfold pair?
  dsimp only
  split <;> simp_all

/-- A symbol is read back, unless it could be part of an integer type before it. -/
theorem scanToken_symbol {s : Symbol} (hs : afterInt = true → s ≠ .notEqual) (hrest : Apart rest) :
    ∃ c cs, s.text.toList = c :: cs ∧ Text.isBlank c = false ∧
      scanToken afterInt c (cs ++ rest) = (.symbol s, rest) := by
  rcases s.length_text with hlength | hlength
  · obtain ⟨c, htext⟩ := length_eq_one_iff.1 hlength
    obtain ⟨hchar, hmark, hblank⟩ := ofChar?_of_text htext
    -- What follows does not make a pair of the character.
    have hpair : pair? afterInt c rest = none := by
      rcases hrest with rfl | ⟨more, rfl⟩
      · rfl
      · rw [pair?_cons, ofPair?_blank, Option.bind_none]
    refine ⟨c, [], htext, hblank, ?_⟩
    simp [scanToken, hmark, hpair, hchar]
  · obtain ⟨c, d, htext⟩ := length_eq_two.1 hlength
    obtain ⟨hof, hmark, hblank⟩ := ofPair?_of_text htext
    have hpair : pair? afterInt c (d :: rest) = some (s, rest) := by
      rw [pair?_cons, hof, Option.bind_some, if_neg]
      exact fun h => hs h.1 h.2
    refine ⟨c, [d], htext, hblank, ?_⟩
    simp [scanToken, hmark, hpair]

/-! ## Words -/

theorem isWordChar_of_isWordStart (h : isWordStart c = true) : isWordChar c = true := by
  simp only [isWordStart, Bool.or_eq_true] at h
  simp only [isWordChar, Char.isAlphanum, Bool.or_eq_true]
  exact h.imp Or.inl id

theorem IsWord.forall (h : IsWord cs) : ∀ c ∈ cs, isWordChar c = true := by
  obtain ⟨c, rest, rfl, hc, hrest⟩ := h
  exact forall_mem_cons.2 ⟨isWordChar_of_isWordStart hc, hrest⟩

/-- Letters, digits and the underscore are ASCII. -/
theorem ascii_of_isWordChar (h : isWordChar c = true) : c.toNat < 128 := by
  unfold isWordChar Char.isAlphanum Char.isAlpha Char.isUpper Char.isLower Char.isDigit at h
  simp only [Bool.or_eq_true, Bool.and_eq_true, decide_eq_true_eq, beq_iff_eq, ge_iff_le,
    UInt32.le_iff_toNat_le] at h
  have hc : c.toNat = c.val.toNat := rfl
  rcases h with ((h | h) | h) | rfl
  · have : 'Z'.val.toNat = 90 := rfl
    omega
  · have : 'z'.val.toNat = 122 := rfl
    omega
  · have : '9'.val.toNat = 57 := rfl
    omega
  · decide

theorem not_isBlank_of_isWordChar (h : isWordChar c = true) :
    Text.isBlank c = false ∧ (isWordStart c = true → c.isDigit = false) := by
  -- The characters of names are ASCII, so there are finitely many to look at.
  have htable : ∀ n < 128, isWordChar (Char.ofNat n) = true →
      Text.isBlank (Char.ofNat n) = false ∧
        (isWordStart (Char.ofNat n) = true → (Char.ofNat n).isDigit = false) := by
    decide
  have hc := htable c.toNat (ascii_of_isWordChar h)
  rw [Char.ofNat_toNat] at hc
  exact hc h

theorem scanWord_append (h : ∀ c ∈ cs, isWordChar c = true) (hrest : Apart rest) :
    scanWord (cs ++ rest) = (String.ofList cs, rest) := by
  obtain ⟨htake, hdrop⟩ := hrest.span h rfl
  rw [scanWord, htake, hdrop]

theorem pair?_of_isWordChar (hc : isWordChar c = true) (cs : List Char) :
    pair? afterInt c cs = none := by
  cases cs with
  | nil => rfl
  | cons d cs =>
    rw [pair?_cons]
    cases h : ofPair? c d with
    | none => rfl
    | some s => simp [not_isWordChar_of_ofPair? h] at hc

/-- A character that can stand in a name starts a number or a word. -/
theorem scanToken_of_isWordChar (hc : isWordChar c = true) (cs : List Char) :
    scanToken afterInt c cs = if c.isDigit then scanNumber c cs
      else (wordKind (scanWord (c :: cs)).1, (scanWord (c :: cs)).2) := by
  have hne : ∀ d, isWordChar d = false → c ≠ d := by
    rintro d hd rfl
    simp [hd] at hc
  have hchar : ofChar? c = none := by
    cases h : ofChar? c with
    | none => rfl
    | some s => simp [not_isWordChar_of_ofChar? h] at hc
  simp only [scanToken, hchar, pair?_of_isWordChar hc, beq_eq_false_iff_ne.2 (hne '#' rfl),
    beq_eq_false_iff_ne.2 (hne '\'' rfl), beq_eq_false_iff_ne.2 (hne '"' rfl),
    beq_eq_false_iff_ne.2 (hne '@' rfl), Bool.false_eq_true, if_false]
  split
  · rfl
  · next hdigit =>
    rw [if_pos]
    simp only [isWordChar, Char.isAlphanum, hdigit, Bool.or_false] at hc
    exact hc

/-- A word is read back as the keyword or the name that it is. -/
theorem scanToken_word (afterInt : Bool) {cs : List Char} (h : IsWord cs) (hrest : Apart rest) :
    ∃ c more, cs = c :: more ∧ Text.isBlank c = false ∧
      scanToken afterInt c (more ++ rest) = (wordKind (String.ofList cs), rest) := by
  have hall := h.forall
  obtain ⟨c, more, rfl, hc, -⟩ := h
  obtain ⟨hblank, hstart⟩ := not_isBlank_of_isWordChar (hall c mem_cons_self)
  refine ⟨c, more, rfl, hblank, ?_⟩
  rw [scanToken_of_isWordChar (hall c mem_cons_self), hstart hc, if_neg Bool.false_ne_true,
    ← cons_append, scanWord_append hall hrest]

/-! ## Numbers -/

/-- The character is a digit of the base. -/
def IsDigit (base : Nat) (c : Char) : Prop :=
  isHexDigit c = true ∧ hexValue c < base

theorem ascii_of_isHexDigit {c : Char} (h : isHexDigit c = true) : c.toNat < 128 := by
  simp only [isHexDigit, Char.isDigit, Bool.or_eq_true, Bool.and_eq_true, decide_eq_true_eq,
    Char.le_def, ge_iff_le, UInt32.le_iff_toNat_le] at h
  have hc : c.toNat = c.val.toNat := rfl
  have h9 : '9'.val.toNat = 57 := rfl
  have hf : 'f'.val.toNat = 102 := rfl
  have hF : 'F'.val.toNat = 70 := rfl
  omega

theorem ascii_of_toLower {c : Char} (h : c.toLower.toNat < 128) : c.toNat < 128 := by
  unfold Char.toLower at h
  split at h
  · next hc =>
    simp only [ge_iff_le, UInt32.le_iff_toNat_le] at hc
    have hZ : 'Z'.val.toNat = 90 := rfl
    have hcn : c.toNat = c.val.toNat := rfl
    omega
  · exact h

theorem digitTable : ∀ n < 128,
    (isHexDigit (Char.ofNat n) = true → Nat.digitChar (hexValue (Char.ofNat n)) = (Char.ofNat n).toLower) ∧
      ((Char.ofNat n).toLower ∈ (range 16).map Nat.digitChar → isHexDigit (Char.ofNat n) = true) := by
  decide +kernel

theorem isDigit_of_hex {c : Char} (h : isHexDigit c = true) :
    hexValue c < 16 ∧ (c.isDigit = true ↔ hexValue c < 10) ∧ isWordChar c = true ∧ c ≠ '_' := by
  have htable : ∀ n < 128, isHexDigit (Char.ofNat n) = true → hexValue (Char.ofNat n) < 16 ∧
      ((Char.ofNat n).isDigit = true ↔ hexValue (Char.ofNat n) < 10) ∧
      isWordChar (Char.ofNat n) = true ∧ Char.ofNat n ≠ '_' := by
    decide +kernel
  have hc := htable c.toNat (ascii_of_isHexDigit h)
  rw [Char.ofNat_toNat] at hc
  exact hc h

/-- The digits of the bases up to sixteen may be written in either case. -/
theorem digitChar_eq_toLower_iff {c : Char} {d : Nat} (hd : d < 16) :
    Nat.digitChar d = c.toLower ↔ isHexDigit c = true ∧ hexValue c = d := by
  have hascii : ∀ d < 16, (Nat.digitChar d).toNat < 128 := by decide
  have hinj : ∀ d < 16, ∀ d' < 16, Nat.digitChar d' = Nat.digitChar d → d' = d := by decide +kernel
  have htable : c.toNat < 128 → (isHexDigit c = true → Nat.digitChar (hexValue c) = c.toLower) ∧
      (c.toLower ∈ (range 16).map Nat.digitChar → isHexDigit c = true) := by
    intro hc
    have h := digitTable c.toNat hc
    rwa [Char.ofNat_toNat] at h
  constructor
  · intro h
    obtain ⟨hlower, hdigit⟩ := htable (ascii_of_toLower (h ▸ hascii d hd))
    have hhex : isHexDigit c = true :=
      hdigit (h ▸ mem_map_of_mem (mem_range.2 hd))
    exact ⟨hhex, hinj d hd _ (isDigit_of_hex hhex).1 ((hlower hhex).trans h.symm)⟩
  · rintro ⟨hhex, rfl⟩
    exact (htable (ascii_of_isHexDigit hhex)).1 hhex

/-- Digits of either case stand for the same values. -/
theorem map_toLower_iff {base : Nat} (hbase : base ≤ 16) {cs : List Char} {ds : List Nat} :
    ((∀ d ∈ ds, d < base) ∧ cs.map Char.toLower = ds.map Nat.digitChar) ↔
      (∀ c ∈ cs, IsDigit base c) ∧ cs.map hexValue = ds := by
  induction cs generalizing ds with
  | nil => cases ds <;> simp
  | cons c cs ih =>
    cases ds with
    | nil => simp
    | cons d ds =>
      simp only [forall_mem_cons, map_cons, cons.injEq]
      constructor
      · rintro ⟨⟨hd, hds⟩, hc, hcs⟩
        obtain ⟨hhex, rfl⟩ := (digitChar_eq_toLower_iff (Nat.lt_of_lt_of_le hd hbase)).1 hc.symm
        obtain ⟨hall, rfl⟩ := ih.1 ⟨hds, hcs⟩
        exact ⟨⟨⟨hhex, hd⟩, hall⟩, rfl, rfl⟩
      · rintro ⟨⟨hc, hcs⟩, rfl, hds⟩
        obtain ⟨hds, hmap⟩ := ih.2 ⟨hcs, hds⟩
        refine ⟨⟨hc.2, hds⟩, ?_, hmap⟩
        exact ((digitChar_eq_toLower_iff (Nat.lt_of_lt_of_le hc.2 hbase)).2 ⟨hc.1, rfl⟩).symm

/-- Reading digits from the left adds up what each is worth in its place. -/
theorem foldl_hexValue (base : Nat) (cs : List Char) (n : Nat) :
    cs.foldl (fun n c => n * base + hexValue c) n =
      n * base ^ cs.length + Nat.ofDigits base (cs.map hexValue).reverse := by
  induction cs generalizing n with
  | nil => simp
  | cons c cs ih =>
    rw [foldl_cons, ih, map_cons, Nat.ofDigits_reverse_cons, length_cons, length_map,
      Nat.pow_succ]
    ring

/-- A number is read from its digits and written with them. -/
theorem numberValue?_eq_some_iff {base : Nat} (hbase : base ≤ 16) {cs : List Char} {v : Word} :
    ((∀ c ∈ cs, c = '_' ∨ IsDigit base c) ∧ numberValue? base cs = some v) ↔
      Numeral base cs v.toNat := by
  -- The fold reads digits from the left, the specification from the right.
  have hfold : (cs.filter (· ≠ '_')).foldl (fun n c => n * base + hexValue c) 0 =
      Nat.ofDigits base ((cs.filter (· ≠ '_')).map hexValue).reverse := by
    rw [foldl_hexValue, Nat.zero_mul, Nat.zero_add]
  unfold numberValue?
  dsimp only
  rw [hfold]
  constructor
  · rintro ⟨hall, h⟩
    split at h
    · cases h
    · next hfits =>
      simp only [Bool.or_eq_true, List.isEmpty_iff, decide_eq_true_eq, not_or, Nat.not_lt] at hfits
      have hdigits : ∀ c ∈ cs.filter (· ≠ '_'), IsDigit base c := by
        intro c hc
        obtain ⟨hmem, hne⟩ := mem_filter.1 hc
        exact (hall c hmem).resolve_left (of_decide_eq_true hne)
      obtain ⟨hlt, hmap⟩ := (map_toLower_iff hbase).2 ⟨hdigits, rfl⟩
      refine ⟨_, by simpa using hfits.1, hlt, hmap, ?_⟩
      rw [← Option.some.inj h, BitVec.toNat_ofNat, Nat.mod_eq_of_lt]
      exact Nat.lt_succ_of_le hfits.2
  · rintro ⟨ds, hne, hlt, hmap, hvalue⟩
    obtain ⟨hdigits, rfl⟩ := (map_toLower_iff hbase).1 ⟨hlt, hmap⟩
    constructor
    · intro c hc
      by_cases hunder : c = '_'
      · exact Or.inl hunder
      · exact Or.inr (hdigits c (mem_filter.2 ⟨hc, by simpa using hunder⟩))
    · have hempty : ¬ cs.filter (· ≠ '_') = [] := fun h => hne (by rw [h]; rfl)
      have hfits : ¬ maxWord < v.toNat := Nat.not_lt.2 (Nat.le_of_lt_succ v.isLt)
      have hkept : ¬ ((cs.filter (· ≠ '_')).isEmpty || decide (maxWord < v.toNat)) = true := by
        rw [Bool.or_eq_true, List.isEmpty_iff, decide_eq_true_eq]
        exact not_or.2 ⟨hempty, hfits⟩
      rw [hvalue, if_neg hkept, BitVec.ofNat_toNat, BitVec.setWidth_eq]

theorem isDigit_iff {c : Char} : c.isDigit = true ↔ IsDigit 10 c := by
  constructor
  · intro h
    have hhex : isHexDigit c = true := by simp [isHexDigit, h]
    exact ⟨hhex, (isDigit_of_hex hhex).2.1.1 h⟩
  · intro h
    exact (isDigit_of_hex h.1).2.1.2 h.2

theorem isHexDigit_iff {c : Char} : isHexDigit c = true ↔ IsDigit 16 c :=
  ⟨fun h => ⟨h, (isDigit_of_hex h).1⟩, fun h => h.1⟩

theorem numberKind_of_numeral {base : Nat} (hbase : base ≤ 16) {cs : List Char} {v : Word}
    (h : Numeral base cs v.toNat) (written : String) : numberKind written base cs = .number written v := by
  rw [numberKind, ((numberValue?_eq_some_iff hbase).2 h).2]

/-- A decimal numeral is read back with its value. -/
theorem scanNumber_decimal {c : Char} {cs : List Char} {v : Word} (hc : c ≠ '_')
    (h : Numeral 10 (c :: cs) v.toNat) (hrest : Apart rest) :
    c.isDigit = true ∧
      scanNumber c (cs ++ rest) = (.number (String.ofList (c :: cs)) v, rest) := by
  obtain ⟨hfirst, hdigits⟩ :=
    forall_mem_cons.1 ((numberValue?_eq_some_iff (by decide)).2 h).1
  have hspan : (cs ++ rest).takeWhile (fun d => d == '_' || d.isDigit) = cs ∧
      (cs ++ rest).dropWhile (fun d => d == '_' || d.isDigit) = rest :=
    hrest.span (fun d hd => by simpa [isDigit_iff] using hdigits d hd) rfl
  -- What comes after the first digit is no mark of another base.
  have hmark : ∀ d more, Char.isDigit d = false → d ≠ '_' → d ≠ ' ' → cs ++ rest ≠ d :: more := by
    intro d more hd hunder hspace heq
    cases cs with
    | nil =>
      rcases hrest with rfl | ⟨_, rfl⟩
      · cases heq
      · exact hspace (cons.inj heq).1.symm
    | cons d' cs =>
      obtain ⟨rfl, -⟩ := cons.inj heq
      rcases hdigits d' mem_cons_self with hd' | hd'
      · exact hunder hd'
      · simp [isDigit_iff.2 hd'] at hd
  refine ⟨isDigit_iff.2 (hfirst.resolve_left hc), ?_⟩
  unfold scanNumber
  split
  · next heq => exact absurd heq (hmark _ _ (by decide) (by decide) (by decide))
  · next heq => exact absurd heq (hmark _ _ (by decide) (by decide) (by decide))
  · dsimp only
    rw [hspan.1, hspan.2, numberKind_of_numeral (by decide) h]

/-- So is a hexadecimal one, behind its prefix. -/
theorem scanNumber_hex {cs : List Char} {v : Word} (h : Numeral 16 cs v.toNat) (hrest : Apart rest) :
    scanNumber '0' ('x' :: cs ++ rest) = (.number (String.ofList ('0' :: 'x' :: cs)) v, rest) := by
  have hdigits := ((numberValue?_eq_some_iff (by decide)).2 h).1
  have hspan : (cs ++ rest).takeWhile (fun d => d == '_' || isHexDigit d) = cs ∧
      (cs ++ rest).dropWhile (fun d => d == '_' || isHexDigit d) = rest :=
    hrest.span (fun d hd => by simpa [isHexDigit_iff] using hdigits d hd) rfl
  rw [cons_append, scanNumber, scanDigits, hspan.1, hspan.2, numberKind_of_numeral (by decide) h]
  congr 2
  rw [← String.toList_inj]
  simp

/-! ## Literals -/

/-- A character is written by an escape sequence that stands for it, or it is no character that a literal
could take for something else. -/
theorem escape_cases (c : Char) :
    (∃ d, escape c = ['\\', d] ∧ d ≠ '\n' ∧ unescape? d = some c) ∨
      (escape c = [c] ∧ c ≠ '\\' ∧ c ≠ '\'' ∧ c ≠ '"' ∧ c ≠ '\n') := by
  unfold escape
  split
  case h_8 => right; simp_all
  all_goals exact Or.inl ⟨_, rfl, by decide, rfl⟩

theorem scanChar_escape (c : Char) (cs : List Char) :
    scanChar (escape c ++ cs) = closeChar c cs := by
  rcases escape_cases c with ⟨d, hd, -, hun⟩ | ⟨hc, hslash, hquote, -, -⟩
  · simp [hd, scanChar, hun]
  · simp [hc, scanChar, hslash]

theorem scanString_escape (c : Char) (cs : List Char) :
    scanString (escape c ++ cs) = ((scanString cs).1.map (c :: ·), (scanString cs).2) := by
  rcases escape_cases c with ⟨d, hd, -, hun⟩ | ⟨hc, hslash, -, hquote, -⟩
  · simp [hd, scanString, hun]
  · simp [hc, scanString, hslash]

theorem scanString_contents (cs rest : List Char) :
    scanString (cs.flatMap escape ++ '"' :: rest) = (.ok cs, rest) := by
  induction cs with
  | nil => rfl
  | cons c cs ih =>
    rw [flatMap_cons, append_assoc, scanString_escape, ih]
    rfl

theorem scanToken_quote (cs : List Char) : scanToken afterInt '\'' cs = scanChar cs := by
  cases cs <;> simp [scanToken, pair?, ofPair?, ofChar?]

theorem scanToken_doubleQuote (cs : List Char) : scanToken afterInt '"' cs = scanText cs := by
  cases cs <;> simp [scanToken, pair?, ofPair?, ofChar?]

theorem scanToken_at (hc : isWordStart c = true) (cs : List Char) :
    scanToken afterInt '@' (c :: cs) =
      (.builtin (scanWord (c :: cs)).1, (scanWord (c :: cs)).2) := by
  simp [scanToken, pair?, ofPair?, ofChar?, hc]

theorem scanToken_comment (cs : List Char) :
    scanToken afterInt '#' cs = (.comment (String.ofList (cs.dropWhile Text.isBlank)), []) := by
  simp [scanToken]

theorem closeChar_quote {c : UInt8} (hc : c.toNat < 128) :
    closeChar (Char.ofNat c.toNat) ('\'' :: rest) = (.char c, rest) := by
  have htable : ∀ n < 128, (Char.ofNat n).toNat = n := by decide
  simp [closeChar, htable _ hc, hc]

/-! ## Reading a lexeme -/

theorem wordKind_keyword (k : Keyword) : wordKind k.text = .keyword k := by
  cases k <;> rfl

theorem wordKind_ident {x : String} (hx : ∀ k : Keyword, k.text ≠ x) (hand : x ≠ "and") (hor : x ≠ "or") :
    wordKind x = .ident x := by
  have hnone : Keyword.all.find? (fun k => k.text == x) = none := by
    simp [find?_eq_none, hx]
  simp [wordKind, hnone, hand, hor]

theorem isWord_keyword (k : Keyword) : IsWord k.text.toList := by
  cases k <;> exact ⟨_, _, rfl, rfl, all_eq_true.1 rfl⟩

/-- A lexeme is read as its token if a blank or nothing follows, where nothing may follow a comment and
`!=` may not follow a word for an integer type. -/
theorem scanToken_lexeme {k : TokenKind} (hk : k.Writable) (hrest : Apart rest)
    (hcomment : ∀ body, k = .comment body → rest = [])
    (hpair : afterInt = true → k ≠ .symbol .notEqual) :
    ∃ c cs, k.lexeme = c :: cs ∧ Text.isBlank c = false ∧
      scanToken afterInt c (cs ++ rest) = (k, rest) := by
  cases k with
  | symbol s => exact scanToken_symbol (fun h heq => hpair h (heq ▸ rfl)) hrest
  | keyword k =>
    have h := scanToken_word afterInt (isWord_keyword k) hrest
    rwa [String.ofList_toList, wordKind_keyword] at h
  | ident x =>
    obtain ⟨hword, hkeyword, hand, hor⟩ := hk
    have h := scanToken_word afterInt hword hrest
    rwa [String.ofList_toList, wordKind_ident hkeyword hand hor] at h
  | builtin x =>
    refine ⟨'@', x.toList, rfl, rfl, ?_⟩
    have hall := IsWord.forall hk
    obtain ⟨c, cs, hx, hc, -⟩ := hk
    have hscan := scanWord_append hall hrest
    rw [String.ofList_toList] at hscan
    rw [hx, cons_append] at hscan ⊢
    rw [scanToken_at hc, hscan]
  | number written v =>
    rcases hk with ⟨c, cs, hwritten, hc, hdigits⟩ | ⟨cs, hwritten, hdigits⟩
    · obtain ⟨hdigit, hscan⟩ := scanNumber_decimal hc hdigits hrest
      have hword : isWordChar c = true := (isDigit_of_hex (isDigit_iff.1 hdigit).1).2.2.1
      refine ⟨c, cs, hwritten, (not_isBlank_of_isWordChar hword).1, ?_⟩
      rw [scanToken_of_isWordChar hword, if_pos hdigit, hscan, ← hwritten, String.ofList_toList]
    · refine ⟨'0', 'x' :: cs, hwritten, rfl, ?_⟩
      have hzero : '0'.isDigit = true := rfl
      rw [scanToken_of_isWordChar rfl, if_pos hzero, scanNumber_hex hdigits hrest, ← hwritten,
        String.ofList_toList]
  | text s =>
    refine ⟨'"', _, rfl, rfl, ?_⟩
    rw [scanToken_doubleQuote, append_assoc, singleton_append, scanText, scanString_contents]
    simp
  | char c =>
    refine ⟨'\'', _, rfl, rfl, ?_⟩
    rw [scanToken_quote, append_assoc, singleton_append, scanChar_escape, closeChar_quote hk]
  | comment body =>
    refine ⟨'#', body.toList, rfl, rfl, ?_⟩
    rw [hcomment body rfl, scanToken_comment, append_nil]
    -- A comment that can be written starts with no blank.
    have hdrop : body.toList.dropWhile Text.isBlank = body.toList := by
      cases hbody : body.toList with
      | nil => rfl
      | cons c cs => simp [hk.2 c (by simp [hbody])]
    rw [hdrop, String.ofList_toList]
  | error e => exact hk.elim

/-! ## What is read is writable -/

theorem writable_wordKind {x : String} (hx : IsWord x.toList) : (wordKind x).Writable := by
  unfold wordKind
  split
  · trivial
  · next hnone =>
    split
    · trivial
    · next hand =>
      split
      · trivial
      · next hor =>
        refine ⟨hx, ?_, by simpa using hand, by simpa using hor⟩
        intro k
        have hk : k ∈ Keyword.all := by cases k <;> decide
        simpa using find?_eq_none.1 hnone k hk

theorem isWord_scanWord {c : Char} (hc : isWordStart c = true) (cs : List Char) :
    IsWord (scanWord (c :: cs)).1.toList := by
  refine ⟨c, cs.takeWhile isWordChar, ?_, hc, fun d hd => mem_takeWhile_imp hd⟩
  rw [scanWord, String.toList_ofList, takeWhile_cons_of_pos (isWordChar_of_isWordStart hc)]

/-- A number that can be read has digits that say so. -/
theorem numberKind_cases {base : Nat} (hbase : base ≤ 16) {cs : List Char}
    (hcs : ∀ c ∈ cs, c = '_' ∨ IsDigit base c) (written : String) :
    (∃ e, numberKind written base cs = .error e) ∨
      ∃ v, numberKind written base cs = .number written v ∧ Numeral base cs v.toNat := by
  unfold numberKind
  split
  · next v hv => exact Or.inr ⟨v, rfl, (numberValue?_eq_some_iff hbase).1 ⟨hcs, hv⟩⟩
  · exact Or.inl ⟨_, rfl⟩

theorem writable_scanDigits (cs : List Char) :
    (∃ e, (scanDigits "0x" 16 isHexDigit cs).1 = .error e) ∨
      (scanDigits "0x" 16 isHexDigit cs).1.Writable := by
  have hdigits : ∀ c ∈ cs.takeWhile (fun c => c == '_' || isHexDigit c), c = '_' ∨ IsDigit 16 c := by
    intro c hc
    simpa [isHexDigit_iff] using mem_takeWhile_imp hc
  rcases numberKind_cases (by decide) hdigits _ with herror | ⟨v, hkind, hnumeral⟩
  · exact Or.inl herror
  · right
    rw [scanDigits, hkind]
    exact Or.inr ⟨_, by simp, hnumeral⟩

/-- A number that is read without error can be written. -/
theorem writable_scanNumber {c : Char} (hc : c.isDigit = true) (cs : List Char) :
    (∃ e, (scanNumber c cs).1 = .error e) ∨ (scanNumber c cs).1.Writable := by
  unfold scanNumber
  split
  · exact writable_scanDigits _
  · exact writable_scanDigits _
  · have hdigits : ∀ d ∈ c :: cs.takeWhile (fun c => c == '_' || c.isDigit), d = '_' ∨ IsDigit 10 d := by
      refine forall_mem_cons.2 ⟨Or.inr (isDigit_iff.1 hc), fun d hd => ?_⟩
      simpa [isDigit_iff] using mem_takeWhile_imp hd
    have hunder : c ≠ '_' := (isDigit_of_hex (isDigit_iff.1 hc).1).2.2.2
    rcases numberKind_cases (by decide) hdigits _ with herror | ⟨v, hkind, hnumeral⟩
    · exact Or.inl herror
    · right
      dsimp only
      rw [hkind]
      exact Or.inl ⟨c, _, by simp, hunder, hnumeral⟩

theorem writable_closeChar (c : Char) (cs : List Char) :
    (∃ e, (closeChar c cs).1 = .error e) ∨ (closeChar c cs).1.Writable := by
  unfold closeChar
  split
  · dsimp only
    split
    · next hc =>
      right
      show c.toNat.toUInt8.toNat < 128
      rw [Nat.toUInt8_eq, UInt8.toNat_ofNat']
      omega
    · exact Or.inl ⟨_, rfl⟩
  · split <;> exact Or.inl ⟨_, rfl⟩

/-- So can a character. -/
theorem writable_scanChar (cs : List Char) :
    (∃ e, (scanChar cs).1 = .error e) ∨ (scanChar cs).1.Writable := by
  unfold scanChar
  split
  · exact Or.inl ⟨_, rfl⟩
  · exact Or.inl ⟨_, rfl⟩
  · exact Or.inl ⟨_, rfl⟩
  · split
    · exact writable_closeChar _ _
    · exact Or.inl ⟨_, rfl⟩
  · exact writable_closeChar _ _

/-- Every token that is read from a line is an error or has a lexeme. -/
theorem writable_scanToken {c : Char} {cs : List Char} (hcs : '\n' ∉ cs) :
    (∃ e, (scanToken afterInt c cs).1 = .error e) ∨ (scanToken afterInt c cs).1.Writable := by
  unfold scanToken
  split
  · -- a comment
    right
    refine ⟨?_, ?_⟩
    · rw [String.toList_ofList]
      exact fun h => hcs ((dropWhile_sublist _).mem h)
    · rw [String.toList_ofList]
      intro d hd
      have hhead := head?_dropWhile_not Text.isBlank cs
      rw [Option.mem_def.1 hd] at hhead
      exact hhead
  · split
    · -- a symbol of two characters
      exact Or.inr trivial
    · split
      · -- a symbol of one
        exact Or.inr trivial
      · split
        · -- a number
          next hdigit => exact writable_scanNumber hdigit cs
        · split
          · -- a character
            exact writable_scanChar cs
          · split
            · -- a text
              unfold scanText
              split
              · exact Or.inr trivial
              · exact Or.inl ⟨_, rfl⟩
            · split
              · -- the name of a builtin
                split
                · split
                  · next hd => exact Or.inr (isWord_scanWord hd _)
                  · exact Or.inl ⟨_, rfl⟩
                · exact Or.inl ⟨_, rfl⟩
              · split
                · -- a word
                  next hc => exact Or.inr (writable_wordKind (isWord_scanWord hc _))
                · exact Or.inl ⟨_, rfl⟩

end Token

end Sigil
