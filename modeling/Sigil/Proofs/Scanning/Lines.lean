import Mathlib.Data.List.Chain
import Sigil.Proofs.Scanning.Lexemes

/-!
# Reading a line back

Tokens are written on one line, with a blank between them (`Token.written`). The line is read as these tokens
again, and each is placed at the offset at which its lexeme starts (`Token.scan_written`). The tokens have to
be ones that a line can hold (`Token.OneLine`): they are writable, a comment is the last of them, and `!=`
does not come right after a word for an integer type, where its first character is taken for the mark of the
type. Being writable is no restriction, for scanning finds no other tokens.
-/

namespace Sigil.Token

open List Source TokenKind

variable {cs : List Char} {k : TokenKind} {ks : List TokenKind} {t : Token}

/-- The tokens on one line. -/
def written (ks : List TokenKind) : List Char :=
  [' '].intercalate (ks.map TokenKind.lexeme)

/-- What is on the line before the token that comes after `before`. -/
def lead (before : List TokenKind) : List Char :=
  before.flatMap fun k => k.lexeme ++ [' ']

/-- Tokens that can stand on one line without becoming others. -/
structure OneLine (ks : List TokenKind) : Prop where
  writable : ∀ k ∈ ks, k.Writable
  comment_last : ks.IsChain fun k _ => ∀ body, k ≠ .comment body
  no_pair : ks.IsChain fun k next => k.isIntWord = true → next ≠ .symbol .notEqual

theorem OneLine.tail (h : OneLine (k :: ks)) : OneLine ks :=
  ⟨fun k' hk' => h.writable k' (mem_cons_of_mem _ hk'), h.comment_last.tail, h.no_pair.tail⟩

theorem written_cons_cons (k next : TokenKind) (ks : List TokenKind) :
    written (k :: next :: ks) = k.lexeme ++ ' ' :: written (next :: ks) := by
  simp [written, intercalate]

theorem written_singleton (k : TokenKind) : written [k] = k.lexeme := by
  simp [written, intercalate]

/-- What is written before a token does not depend on what comes behind it. -/
theorem written_append (before : List TokenKind) (k : TokenKind) (after : List TokenKind) :
    written (before ++ k :: after) = lead before ++ written (k :: after) := by
  induction before with
  | nil => rfl
  | cons first before ih =>
    have hcons : written (first :: (before ++ k :: after)) =
        first.lexeme ++ ' ' :: written (before ++ k :: after) := by
      cases before with
      | nil => exact written_cons_cons _ _ _
      | cons next before => exact written_cons_cons _ _ _
    rw [cons_append, hcons, ih]
    simp [lead]

theorem lexeme_prefix_written (k : TokenKind) (ks : List TokenKind) : k.lexeme <+: written (k :: ks) := by
  cases ks with
  | nil => exact written_singleton k ▸ prefix_refl _
  | cons next ks => exact written_cons_cons k next ks ▸ prefix_append _ _

/-! ## Reading a line -/

variable {row col : Nat} {afterInt : Bool} {rest : List Char}

-- These are taken from the unfolding as a whole: splitting it into equations opens the readers of tokens.
theorem scanLine_nil : scanLine row col afterInt [] = [] := by
  rw [scanLine.eq_def]

theorem scanLine_cons (c : Char) (cs : List Char) :
    scanLine row col afterInt (c :: cs) =
      if Text.isBlank c then scanLine row (col + c.utf8Size) afterInt cs
      else
        let kind := (scanToken afterInt c cs).1
        let rest := (scanToken afterInt c cs).2
        let width := byteLength (c :: cs) - byteLength rest
        ⟨kind, ⟨row, col⟩⟩ :: scanLine row (col + width) kind.isIntWord rest := by
  rw [scanLine.eq_def]

/-- A token that has been written is read back at its column. -/
theorem scanLine_lexeme (hk : k.Writable) (hrest : Apart rest)
    (hcomment : ∀ body, k = .comment body → rest = [])
    (hpair : afterInt = true → k ≠ .symbol .notEqual) :
    scanLine row col afterInt (k.lexeme ++ rest) =
      ⟨k, ⟨row, col⟩⟩ :: scanLine row (col + byteLength k.lexeme) k.isIntWord rest := by
  obtain ⟨c, cs, hlexeme, hblank, hscan⟩ := scanToken_lexeme hk hrest hcomment hpair
  have hwidth : byteLength (c :: (cs ++ rest)) - byteLength rest =
      byteLength (c :: cs) := by
    rw [← cons_append, byteLength_append]
    omega
  rw [hlexeme, cons_append, scanLine_cons, hblank, if_neg Bool.false_ne_true, hscan]
  dsimp only
  rw [hwidth]

theorem scanLine_space : scanLine row col afterInt (' ' :: rest) = scanLine row (col + 1) afterInt rest := by
  rw [scanLine_cons]
  rfl

/-- The tokens at the places where they are written, from a column on. -/
def placed (row col : Nat) : List TokenKind → List Token
  | [] => []
  | k :: ks => ⟨k, ⟨row, col⟩⟩ :: placed row (col + Source.byteLength k.lexeme + 1) ks

theorem map_kind_placed (row col : Nat) (ks : List TokenKind) : (placed row col ks).map Token.kind = ks := by
  induction ks generalizing col with
  | nil => rfl
  | cons k ks ih => rw [placed, map_cons, ih]

/-- The column of a token is the width of what is written before it. -/
theorem getElem?_placed (row col : Nat) (before : List TokenKind) (k : TokenKind) (after : List TokenKind) :
    (placed row col (before ++ k :: after))[before.length]? =
      some ⟨k, ⟨row, col + byteLength (lead before)⟩⟩ := by
  induction before generalizing col with
  | nil => rfl
  | cons first before ih =>
    rw [cons_append, placed, length_cons, getElem?_cons_succ, ih]
    simp [lead, byteLength, Nat.add_assoc]
    rfl

/-- A line of tokens is read as these tokens, whatever comes before it. -/
theorem scanLine_written (hks : OneLine ks)
    (hpair : afterInt = true → ∀ k ∈ ks.head?, k ≠ .symbol .notEqual) :
    scanLine row col afterInt (written ks) = placed row col ks := by
  induction ks generalizing col afterInt with
  | nil =>
    rw [placed]
    simp [written, intercalate, scanLine_nil]
  | cons k ks ih =>
    have hk := hks.writable k mem_cons_self
    have hfirst : afterInt = true → k ≠ .symbol .notEqual := fun h => hpair h k rfl
    cases ks with
    | nil =>
      have h : scanLine row col afterInt (k.lexeme ++ []) = _ :=
        scanLine_lexeme hk (Or.inl rfl) (fun _ _ => rfl) hfirst
      rw [append_nil] at h
      rw [written_singleton, h, scanLine_nil, placed, placed]
    | cons next ks =>
      -- More tokens follow, so this one is no comment, and it decides how the next one is read.
      have hcomment := (isChain_cons_cons.1 hks.comment_last).1
      have hnext := (isChain_cons_cons.1 hks.no_pair).1
      rw [written_cons_cons,
        scanLine_lexeme hk (Or.inr ⟨_, rfl⟩) (fun body h => absurd h (hcomment body)) hfirst,
        scanLine_space, ih hks.tail]
      · rfl
      · rintro hint k' ⟨⟩
        exact hnext hint

/-! ## Reading a text -/

theorem newline_not_mem_escape (c : Char) : '\n' ∉ escape c := by
  rcases escape_cases c with ⟨d, hd, hne, -⟩ | ⟨hc, -, -, -, hne⟩
  · simp [hd, hne.symm]
  · simp [hc, hne.symm]

theorem newline_not_mem_of_isWordChar (h : ∀ c ∈ cs, isWordChar c = true) : '\n' ∉ cs := by
  intro hmem
  have := h _ hmem
  contradiction

theorem newline_not_mem_of_numeral {base : Nat} (hbase : base ≤ 16) {v : Word}
    (h : Numeral base cs v.toNat) : '\n' ∉ cs := by
  intro hmem
  rcases ((numberValue?_eq_some_iff hbase).2 h).1 _ hmem with hunder | hdigit
  · cases hunder
  · exact absurd hdigit.1 (by decide)

/-- A lexeme does not break the line. -/
theorem newline_not_mem_lexeme (hk : k.Writable) : '\n' ∉ k.lexeme := by
  cases k with
  | symbol s => cases s <;> decide
  | keyword k => exact newline_not_mem_of_isWordChar (isWord_keyword k).forall
  | ident x => exact newline_not_mem_of_isWordChar (IsWord.forall hk.1)
  | builtin x =>
    have hx := newline_not_mem_of_isWordChar (IsWord.forall hk)
    simp [lexeme, hx]
  | number written v =>
    rcases hk with ⟨c, cs, hwritten, -, hdigits⟩ | ⟨cs, hwritten, hdigits⟩
    · rw [lexeme, hwritten]
      exact newline_not_mem_of_numeral (by decide) hdigits
    · have hcs := newline_not_mem_of_numeral (by decide) hdigits
      simp [lexeme, hwritten, hcs]
  | text s => simp [lexeme, newline_not_mem_escape]
  | char c => simp [lexeme, newline_not_mem_escape]
  | comment body => simp [lexeme, hk.1]
  | error e => exact hk.elim

theorem newline_not_mem_written (hks : ∀ k ∈ ks, k.Writable) : '\n' ∉ written ks := by
  induction ks with
  | nil => simp [written, intercalate]
  | cons k ks ih =>
    obtain ⟨hk, hrest⟩ := forall_mem_cons.1 hks
    cases ks with
    | nil => exact written_singleton k ▸ newline_not_mem_lexeme hk
    | cons next ks => simp [written_cons_cons, newline_not_mem_lexeme hk, ih hrest]

theorem lines_go_of_not_mem (h : '\n' ∉ cs) (seen : List Char) :
    lines.go seen cs = if (cs.reverse ++ seen).isEmpty then [] else [seen.reverse ++ cs] := by
  induction cs generalizing seen with
  | nil => simp [lines.go]
  | cons c cs ih =>
    obtain ⟨hc, hcs⟩ := not_or.1 (mt mem_cons.2 h)
    rw [lines.go, ih hcs]
    · simp
    · exact fun heq => hc heq.symm

theorem scan_of_not_mem (h : '\n' ∉ cs) :
    scan (String.ofList cs) = scanLine 0 0 false cs := by
  rw [scan, String.toList_ofList, lines, lines_go_of_not_mem h]
  cases cs with
  | nil => simp [scanLine_nil]
  | cons c cs => simp

/-! ## What is read can be written -/

/-- Lines are cut at every line feed, so none is left in them. -/
theorem newline_not_mem_of_mem_lines_go {seen line : List Char} (hseen : '\n' ∉ seen)
    (h : line ∈ lines.go seen cs) : '\n' ∉ line := by
  induction cs generalizing seen with
  | nil =>
    rw [lines.go] at h
    split at h
    · cases h
    · rw [mem_singleton.1 h, mem_reverse]
      exact hseen
  | cons c cs ih =>
    by_cases hc : c = '\n'
    · subst hc
      rw [lines.go, mem_cons] at h
      rcases h with rfl | h
      · intro hmem
        refine hseen (mem_reverse.1 ?_)
        unfold dropReturn at hmem
        split at hmem
        · exact (dropLast_sublist _).mem hmem
        · exact hmem
      · exact ih (by simp) h
    · rw [lines.go] at h
      · refine ih ?_ h
        simp [hseen, Ne.symm hc]
      · exact hc

/-- What is read without error can be written. -/
theorem writable_scanLine (hcs : '\n' ∉ cs)
    (ht : t ∈ scanLine row col afterInt cs) : (∃ e, t.kind = .error e) ∨ t.kind.Writable := by
  fun_induction scanLine row col afterInt cs with
  | case1 => cases ht
  | case2 col afterInt c cs hblank ih =>
    exact ih (fun hmem => hcs (mem_cons_of_mem _ hmem)) ht
  | case3 col afterInt c cs hblank kind rest width ih =>
    have htail : '\n' ∉ cs := fun hmem => hcs (mem_cons_of_mem _ hmem)
    rcases mem_cons.1 ht with rfl | ht
    · exact writable_scanToken htail
    · exact ih (fun hmem => htail ((scanToken_suffix afterInt c cs).mem hmem)) ht

theorem writable_scan {code : String} (ht : t ∈ scan code) :
    (∃ e, t.kind = .error e) ∨ t.kind.Writable := by
  obtain ⟨⟨line, row⟩, hline, ht⟩ := mem_flatMap.1 ht
  have hmem : line ∈ lines code.toList := (mem_zipIdx' hline).2 ▸ getElem_mem _
  exact writable_scanLine (newline_not_mem_of_mem_lines_go (by simp) hmem) ht

/-- Tokens on one line are read from their lexemes. -/
theorem scan_eq_placed (hks : OneLine ks) :
    scan (String.ofList (written ks)) = placed 0 0 ks := by
  rw [scan_of_not_mem (newline_not_mem_written hks.writable), scanLine_written hks (by simp)]

theorem oneLine_singleton (hk : k.Writable) : OneLine [k] :=
  ⟨by simpa using hk, isChain_singleton k, isChain_singleton k⟩

/-- The writable tokens are those that scanning finds besides errors. -/
theorem writable_iff_scanned (k : TokenKind) :
    k.Writable ↔ (∀ e, k ≠ .error e) ∧ ∃ code, ∃ t ∈ scan code, t.kind = k := by
  constructor
  · intro hk
    refine ⟨?_, String.ofList (written [k]), ⟨k, ⟨0, 0⟩⟩, ?_, rfl⟩
    · rintro e rfl
      exact hk
    · rw [scan_eq_placed (oneLine_singleton hk)]
      exact mem_cons_self
  · rintro ⟨hno, code, t, ht, rfl⟩
    rcases writable_scan ht with ⟨e, he⟩ | hk
    · exact absurd he (hno e)
    · exact hk

/-- Scanning inverts writing. The tokens that it finds besides errors are the writable ones, and any such
tokens that one line can hold are read from the line as they are, each placed where its lexeme begins. -/
theorem scan_written :
    (∀ k : TokenKind, k.Writable ↔ (∀ e, k ≠ .error e) ∧ ∃ code, ∃ t ∈ scan code, t.kind = k) ∧
    ∀ ks : List TokenKind, OneLine ks →
      (scan (String.ofList (written ks))).map Token.kind = ks ∧
      ∀ before k after, ks = before ++ k :: after →
        lead before ++ k.lexeme <+: written ks ∧
        (scan (String.ofList (written ks)))[before.length]? =
          some ⟨k, ⟨0, Source.byteLength (lead before)⟩⟩ := by
  refine ⟨writable_iff_scanned, fun ks hks => ?_⟩
  rw [scan_eq_placed hks]
  refine ⟨map_kind_placed 0 0 ks, ?_⟩
  rintro before k after rfl
  rw [written_append, getElem?_placed, Nat.zero_add]
  exact ⟨prefix_append_right_inj _ |>.2 (lexeme_prefix_written k after), rfl⟩

/-- A line on which the mark of a type stands before `=`, with a number in both cases and an underscore, a
string that is not ASCII, and quotes where they end nothing. -/
def crowdedLine : List TokenKind :=
  [.keyword .int, .symbol .bang, .symbol .equal, .number "0x_aF" 175, .number "1_0" 10,
    .text "é\n\"'\\#", .char 39, .builtin "if", .ident "_x1", .symbol .notEqual, .comment "a # \"b\r"]

theorem oneLine_crowdedLine : OneLine crowdedLine := by
  refine ⟨?_, ?_, ?_⟩
  · simp only [crowdedLine, forall_mem_cons]
    refine ⟨trivial, trivial, trivial, ?_, ?_, trivial, ?_, ?_, ?_, trivial, ?_, by simp⟩
    · exact Or.inr ⟨_, rfl, [10, 15], by decide, by decide, by decide, by decide⟩
    · exact Or.inl ⟨_, _, rfl, by decide, [1, 0], by decide, by decide, by decide, by decide⟩
    · show UInt8.toNat 39 < 128
      decide
    · exact ⟨_, _, rfl, rfl, all_eq_true.1 rfl⟩
    · refine ⟨⟨_, _, rfl, rfl, all_eq_true.1 rfl⟩, ?_, by decide, by decide⟩
      intro k
      cases k <;> decide
    · refine ⟨by decide, ?_⟩
      rintro c ⟨⟩
      rfl
  · simp [crowdedLine]
  · simp [crowdedLine, isIntWord]

theorem scan_written_crowdedLine : OneLine crowdedLine ∧
    String.ofList (written crowdedLine) =
      "int ! = 0x_aF 1_0 \"é\\n\\\"\\'\\\\#\" '\\'' @if _x1 != #a # \"b\r" ∧
    (scan (String.ofList (written crowdedLine))).map Token.kind = crowdedLine ∧
    (scan (String.ofList (written crowdedLine)))[6]? = some ⟨.char 39, ⟨0, 32⟩⟩ := by
  obtain ⟨hkinds, hplaces⟩ := scan_written.2 crowdedLine oneLine_crowdedLine
  exact ⟨oneLine_crowdedLine, by decide, hkinds, (hplaces (crowdedLine.take 6) _ _ rfl).2⟩

end Sigil.Token
