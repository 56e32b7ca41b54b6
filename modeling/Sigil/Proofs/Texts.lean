import Mathlib.Data.List.Zip
import Sigil.Proofs.Emission.Labels

/-!
# Texts in programs

Texts that are asked for one after another have the same label exactly if they are equal, the labels are
numbered in the order of first use, and the data lists each text once in that order. Between double quotes a
text is printable, and the assembler reads the very bytes back (`Pool.texts_encoded`).

The pool is a list of texts. A table of pairs that can be looked up from both sides, where a new pair drives
out those that have its text or its label, and which lists its pairs in any order, gives the same labels; put
in the order of the numbers in its labels, it lists the same texts (`Pool.sorted_eq`).
-/

namespace Sigil

open List

open Machine (Block Label Line)

/-! ## Reading quoted texts -/

namespace Machine

/-- The value of an octal digit. -/
def octalValue (c : Char) : Option Nat :=
  if '0' ≤ c ∧ c ≤ '7' then some (c.toNat - 48) else none

/-- A number is read on with octal digits, as many as there are but not more than some, and the rest is left. -/
def readOctal : Nat → Nat → List Char → Nat × List Char
  | k + 1, n, c :: cs =>
    match octalValue c with
    | some d => readOctal k (8 * n + d) cs
    | none => (n, c :: cs)
  | _, n, cs => (n, cs)

/-- What stands behind a backslash: the byte that it is for, and the rest. -/
def readEscape : List Char → Option (UInt8 × List Char)
  | '"' :: cs => some (34, cs)
  | '\\' :: cs => some (92, cs)
  | 'n' :: cs => some (10, cs)
  | 't' :: cs => some (9, cs)
  | 'r' :: cs => some (13, cs)
  | c :: cs => do
    let d ← octalValue c
    let (n, rest) := readOctal 2 d cs
    return (.ofNat n, rest)
  | [] => none

theorem length_readOctal_le (k n : Nat) (cs : List Char) : (readOctal k n cs).2.length ≤ cs.length := by
  fun_induction readOctal k n cs with
  | case1 k n c cs d hd ih => exact Nat.le_succ_of_le ih
  | case2 k n c cs hd => exact Nat.le_refl _
  | case3 k n cs hne => exact Nat.le_refl _

/-- An escape takes some of the text. -/
theorem length_readEscape_lt {cs rest : List Char} {b : UInt8} (h : readEscape cs = some (b, rest)) :
    rest.length < cs.length := by
  unfold readEscape at h
  split at h
  case h_6 c cs _ _ _ _ _ =>
    cases hd : octalValue c with
    | none => simp [hd] at h
    | some d =>
      simp only [hd, Option.bind_eq_bind, Option.bind_some, Option.pure_def, Option.some.injEq,
        Prod.mk.injEq] at h
      exact h.2 ▸ Nat.lt_succ_of_le (length_readOctal_le 2 d cs)
  case h_7 => cases h
  all_goals
    cases h
    exact Nat.lt_succ_self _

/-- The bytes of a quoted text behind its first quote, which the second one ends. -/
def readQuoted : List Char → Option (List UInt8)
  | '"' :: cs => if cs = [] then some [] else none
  | '\\' :: cs =>
    match h : readEscape cs with
    | some (b, rest) =>
      have := length_readEscape_lt h
      (readQuoted rest).map (b :: ·)
    | none => none
  | c :: cs => (readQuoted cs).map (String.utf8EncodeChar c ++ ·)
  | [] => none
termination_by cs => cs.length

/-- The bytes that the assembler reads from a text in double quotes. -/
def unquote (text : String) : Option (List UInt8) :=
  match text.toList with
  | '"' :: cs => readQuoted cs
  | _ => none

theorem readQuoted_escape {cs rest : List Char} {b : UInt8} (h : readEscape cs = some (b, rest)) :
    readQuoted ('\\' :: cs) = (readQuoted rest).map (b :: ·) := by
  rw [readQuoted]
  split
  · next h' =>
    cases h.symm.trans h'
    rfl
  · next h' => cases h.symm.trans h'

theorem octalValue_octalDigit (n : Nat) : octalValue (octalDigit n) = some (n % 8) := by
  have hdigits : ∀ d < 8, octalValue (Char.ofNat (48 + d)) = some d := by decide
  exact hdigits _ (Nat.mod_lt n (by decide))

theorem toNat_ofNat_of_le {n : Nat} (h : n ≤ 0x7e) : (Char.ofNat n).toNat = n := by
  rw [Char.ofNat, dif_pos (by unfold Nat.isValidChar; omega)]
  rfl

theorem toNat_octalDigit (n : Nat) : (octalDigit n).toNat = 48 + n % 8 :=
  toNat_ofNat_of_le (by omega)

/-- A character that is no letter and no sign with a meaning of its own begins a number. -/
theorem readEscape_octal (b : UInt8) (cs : List Char) :
    readEscape (octalDigit (b.toNat / 64) :: octalDigit (b.toNat / 8) :: octalDigit b.toNat :: cs) =
      some (b, cs) := by
  have hdigits : readOctal 2 (b.toNat / 64 % 8) (octalDigit (b.toNat / 8) :: octalDigit b.toNat :: cs) =
      (b.toNat, cs) := by
    have hlt := b.toNat_lt
    rw [readOctal, octalValue_octalDigit]
    simp only
    rw [readOctal, octalValue_octalDigit]
    simp only [readOctal, Prod.mk.injEq, and_true]
    omega
  have hother : ∀ c : Char, c.toNat < 48 ∨ 55 < c.toNat → octalDigit (b.toNat / 64) ≠ c := by
    rintro _ hc rfl
    rw [toNat_octalDigit] at hc
    omega
  rw [readEscape, octalValue_octalDigit]
  · simp [hdigits]
  all_goals exact hother _ (by decide)

theorem readQuoted_short {b v : UInt8} {c : Char} {cs : List Char} (hb : b.toNat = v.toNat)
    (h : readEscape (c :: cs) = some (v, cs)) :
    readQuoted ('\\' :: c :: cs) = (readQuoted cs).map (b :: ·) := by
  rw [UInt8.toNat_inj.1 hb]
  exact readQuoted_escape h

theorem readQuoted_plain {b : UInt8} (hquote : b.toNat ≠ 34) (hbackslash : b.toNat ≠ 92)
    (hle : b.toNat ≤ 126) (cs : List Char) :
    readQuoted (Char.ofNat b.toNat :: cs) = (readQuoted cs).map (b :: ·) := by
  have hchar := toNat_ofNat_of_le hle
  have hbytes : String.utf8EncodeChar (Char.ofNat b.toNat) = [b] := by
    unfold String.utf8EncodeChar
    rw [Char.toNat_val, hchar, if_pos (by omega), UInt8.ofNat_toNat]
  rw [readQuoted, hbytes]
  · rfl
  · intro h
    exact hquote (hchar ▸ congrArg Char.toNat h)
  · intro h
    exact hbackslash (hchar ▸ congrArg Char.toNat h)

/-- Each byte is read back, whatever comes behind it. -/
theorem readQuoted_escapedByte (b : UInt8) (cs : List Char) :
    readQuoted (escapedByte b ++ cs) = (readQuoted cs).map (b :: ·) := by
  unfold escapedByte
  split
  · next h => exact readQuoted_short (v := 34) h rfl
  · next h => exact readQuoted_short (v := 92) h rfl
  · next h => exact readQuoted_short (v := 10) h rfl
  · next h => exact readQuoted_short (v := 9) h rfl
  · next h => exact readQuoted_short (v := 13) h rfl
  · next hquote hbackslash _ _ _ =>
    split
    · next hprintable => exact readQuoted_plain hquote hbackslash hprintable.2 cs
    · exact readQuoted_escape (readEscape_octal b cs)

theorem unquote_quoteBytes (bytes : List UInt8) : unquote (quoteBytes bytes) = some bytes := by
  have hread : readQuoted (bytes.flatMap escapedByte ++ ['"']) = some bytes := by
    induction bytes with
    | nil => simp [readQuoted]
    | cons b bytes ih => rw [flatMap_cons, append_assoc, readQuoted_escapedByte, ih, Option.map_some]
  rw [unquote, quoteBytes, String.toList_ofList]
  exact hread

/-- A character that a terminal shows, or a blank. -/
def Printable (c : Char) : Prop := 0x20 ≤ c.toNat ∧ c.toNat ≤ 0x7e

theorem printable_octalDigit (n : Nat) : Printable (octalDigit n) := by
  rw [Printable, toNat_octalDigit]
  omega

theorem printable_escapedByte (b : UInt8) : ∀ c ∈ escapedByte b, Printable c := by
  have hbackslash : Printable '\\' := by
    unfold Printable
    decide
  unfold escapedByte
  split
  case h_6 =>
    split
    · next h =>
      intro c hc
      rw [mem_singleton.1 hc, Printable, toNat_ofNat_of_le h.2]
      exact h
    · simp [hbackslash, printable_octalDigit]
  all_goals simp [Printable]

theorem printable_quoteBytes (bytes : List UInt8) : ∀ c ∈ (quoteBytes bytes).toList, Printable c := by
  have hquote : Printable '"' := by
    unfold Printable
    decide
  intro c hc
  simp only [quoteBytes, String.toList_ofList, mem_append, mem_cons, not_mem_nil, or_false,
    mem_flatMap] at hc
  rcases hc with (rfl | ⟨b, -, hc⟩) | rfl
  · exact hquote
  · exact printable_escapedByte b c hc
  · exact hquote

end Machine

namespace Pool

/-! ## Requests -/

/-- Texts are asked for one after another: the labels, and the pool in the end. -/
def requests {σ : Type} (string : σ → String → Label × σ) (p : σ) : List String → List Label × σ
  | [] => ([], p)
  | s :: texts =>
    let (l, p') := string p s
    let (ls, p'') := requests string p' texts
    (l :: ls, p'')

variable {p : Pool} {s : String} {texts : List String}

theorem strings_string (p : Pool) (s : String) :
    (p.string s).2.strings = if s ∈ p.strings then p.strings else p.strings ++ [s] := by
  unfold string
  split <;> rfl

/-- The label of a text is numbered by the place where the text then is. -/
theorem label_string (p : Pool) (s : String) :
    (p.string s).1 = stringLabel ((p.string s).2.strings.idxOf s) := by
  unfold string
  split
  · rfl
  · next h => simp [idxOf_append, h]

theorem mem_string (p : Pool) (s : String) : s ∈ (p.string s).2.strings := by
  rw [strings_string]
  split
  · assumption
  · exact mem_append_right _ (mem_singleton_self s)

theorem prefix_string (p : Pool) (s : String) : p.strings <+: (p.string s).2.strings := by
  rw [strings_string]
  split
  · exact prefix_rfl
  · exact prefix_append _ _

theorem nodup_string (h : p.strings.Nodup) (s : String) : (p.string s).2.strings.Nodup := by
  rw [strings_string]
  split
  · exact h
  · next hs => exact concat_eq_append ▸ (nodup_concat _ _).2 ⟨hs, h⟩

theorem prefix_requests (p : Pool) (texts : List String) :
    p.strings <+: (requests string p texts).2.strings := by
  induction texts generalizing p with
  | nil => exact prefix_rfl
  | cons s texts ih => exact (p.prefix_string s).trans (ih _)

theorem nodup_requests (h : p.strings.Nodup) (texts : List String) :
    (requests string p texts).2.strings.Nodup := by
  induction texts generalizing p with
  | nil => exact h
  | cons s texts ih => exact ih (nodup_string h s)

/-- New texts are added in the order of their first use. -/
theorem strings_requests (p : Pool) (texts : List String) :
    (requests string p texts).2.strings = p.strings ++ (texts.filter (· ∉ p.strings)).eraseDups := by
  induction texts generalizing p with
  | nil => simp [requests]
  | cons s texts ih =>
    have hstep : (requests string p (s :: texts)).2 = (requests string (p.string s).2 texts).2 := rfl
    rw [hstep, ih, strings_string]
    by_cases hs : s ∈ p.strings
    · simp [hs]
    · rw [if_neg hs, filter_cons_of_pos (by simpa using hs), eraseDups_cons, filter_filter,
        append_assoc, singleton_append]
      simp only [mem_append, mem_singleton, not_or, Bool.decide_and, decide_not, Bool.and_comm]
      rfl

/-- All labels are numbered by the places where the texts are in the end. -/
theorem labels_requests (p : Pool) (texts : List String) :
    (requests string p texts).1 =
      texts.map fun s => stringLabel ((requests string p texts).2.strings.idxOf s) := by
  induction texts generalizing p with
  | nil => rfl
  | cons s texts ih =>
    have hstep : requests string p (s :: texts) =
      ((p.string s).1 :: (requests string (p.string s).2 texts).1, (requests string (p.string s).2 texts).2) := rfl
    obtain ⟨later, hlater⟩ := prefix_requests (p.string s).2 texts
    rw [hstep, map_cons, ← ih, label_string, ← hlater, idxOf_append, if_pos (mem_string p s)]

/-! ## Two-way tables -/

/-- Texts and their labels. -/
abbrev Pairs := List (String × Label)

/-- The texts of a pool with their labels. -/
def pairs (p : Pool) : Pairs := p.labelled.map Prod.swap

/-- A pair goes into a table that can be looked up from both sides: what had its text or its label goes. -/
def Pairs.insert (t : Pairs) (s : String) (l : Label) : Pairs :=
  t.filter (fun e => e.1 ≠ s ∧ e.2 ≠ l) ++ [(s, l)]

/-- The label of a text, with the number of pairs in it if it is new. -/
def Pairs.string (t : Pairs) (s : String) : Label × Pairs :=
  match t.lookup s with
  | some l => (l, t)
  | none => (stringLabel t.length, t.insert s (stringLabel t.length))

/-- The number behind the six characters that all labels of texts begin with. -/
def labelNumber (l : Label) : Nat :=
  Nat.ofDigitChars 10 (l.toList.drop 6) 0

/-- The pairs in the order of the numbers in their labels. -/
def Pairs.sorted (t : Pairs) : Pairs :=
  t.mergeSort fun e e' => labelNumber e.2 ≤ labelNumber e'.2

theorem labelNumber_stringLabel (n : Nat) : labelNumber (stringLabel n) = n := by
  have hdrop : (stringLabel n).toList.drop 6 = (toString n).toList := by
    rw [stringLabel, String.toList_append]
    rfl
  rw [labelNumber, hdrop, toList_toString, Nat.ofDigitChars_toDigits (by decide) (by decide)]

theorem pairs_eq (p : Pool) : p.pairs = p.strings.zipIdx.map fun e => (e.1, stringLabel e.2) := by
  rw [pairs, labelled, map_map]
  rfl

theorem mem_pairs {e : String × Label} :
    e ∈ p.pairs ↔ ∃ n, p.strings[n]? = some e.1 ∧ e.2 = stringLabel n := by
  rw [pairs_eq, mem_map]
  constructor
  · rintro ⟨⟨s, n⟩, he, rfl⟩
    exact ⟨n, mem_zipIdx_iff_getElem?.1 he, rfl⟩
  · rintro ⟨n, hn, hl⟩
    exact ⟨(e.1, n), mem_zipIdx_iff_getElem?.2 hn, Prod.ext rfl hl.symm⟩

theorem pairs_string (h : s ∉ p.strings) :
    (p.string s).2.pairs = p.pairs ++ [(s, stringLabel p.strings.length)] := by
  rw [pairs_eq, pairs_eq, strings_string, if_neg h, zipIdx_append, map_append, Nat.zero_add]
  rfl

theorem pairwise_sorted (t : Pairs) : t.sorted.Pairwise fun e e' => labelNumber e.2 ≤ labelNumber e'.2 := by
  refine (pairwise_mergeSort (fun e e' e'' => ?_) (fun e e' => ?_) t).imp of_decide_eq_true
  · simpa using Nat.le_trans
  · simpa using Nat.le_total _ _

theorem pairwise_pairs (p : Pool) : p.pairs.Pairwise fun e e' => labelNumber e.2 ≤ labelNumber e'.2 := by
  rw [pairwise_iff_getElem]
  intro i j hi hj hij
  simpa [pairs_eq, labelNumber_stringLabel] using Nat.le_of_lt hij

/-- In whatever order a table lists the pairs of a pool, the numbers in the labels tell the right one. -/
theorem sorted_eq {t : Pairs} (h : t.Perm p.pairs) : t.sorted = p.pairs := by
  have hperm : t.sorted.Perm p.pairs := (mergeSort_perm t _).trans h
  refine hperm.eq_of_pairwise (fun e e' he he' hle hge => ?_) (pairwise_sorted t) (pairwise_pairs p)
  obtain ⟨n, hn, hl⟩ := mem_pairs.1 (hperm.mem_iff.1 he)
  obtain ⟨m, hm, hl'⟩ := mem_pairs.1 he'
  rw [hl, hl', labelNumber_stringLabel, labelNumber_stringLabel] at hle hge
  obtain rfl : n = m := Nat.le_antisymm hle hge
  exact Prod.ext (Option.some.inj (hn.symm.trans hm)) (hl.trans hl'.symm)

theorem lookup_eq_some {t : Pairs} {l : Label} (hmem : (s, l) ∈ t) (hunique : ∀ l', (s, l') ∈ t → l' = l) :
    t.lookup s = some l := by
  cases hlookup : t.lookup s with
  | none => simpa using lookup_eq_none_iff.1 hlookup _ hmem
  | some l' =>
    obtain ⟨before, after, rfl, -⟩ := lookup_eq_some_iff.1 hlookup
    rw [hunique l' (by simp)]

/-- What a table with the pairs of the pool does is what the pool does. -/
theorem string_of_perm {t : Pairs} (hp : p.strings.Nodup) (h : t.Perm p.pairs) (s : String) :
    (t.string s).1 = (p.string s).1 ∧ (t.string s).2.Perm (p.string s).2.pairs := by
  by_cases hs : s ∈ p.strings
  · -- A known text is found under its number.
    have hlookup : t.lookup s = some (stringLabel (p.strings.idxOf s)) := by
      refine lookup_eq_some (h.mem_iff.2 (mem_pairs.2 ⟨_, getElem?_idxOf hs, rfl⟩)) fun l hl => ?_
      obtain ⟨n, hn, rfl⟩ := mem_pairs.1 (h.mem_iff.1 hl)
      obtain ⟨hlt, rfl⟩ := List.getElem?_eq_some_iff.1 hn
      rw [hp.idxOf_getElem]
    have hstring : p.string s = (stringLabel (p.strings.idxOf s), p) := if_pos hs
    rw [Pairs.string, hlookup, hstring]
    exact ⟨rfl, h⟩
  · -- A new text takes the next number, which no other has.
    have hnew : ∀ e ∈ t, e.1 ≠ s ∧ e.2 ≠ stringLabel p.strings.length := by
      intro e he
      obtain ⟨n, hn, hl⟩ := mem_pairs.1 (h.mem_iff.1 he)
      obtain ⟨hlt, hmem⟩ := List.getElem?_eq_some_iff.1 hn
      constructor
      · rintro rfl
        exact hs (hmem ▸ getElem_mem hlt)
      · intro heq
        exact Nat.ne_of_lt hlt (stringLabel_inj (hl.symm.trans heq))
    have hlookup : t.lookup s = none := by
      rw [lookup_eq_none_iff]
      intro e he
      simpa using (hnew e he).1.symm
    have hlength : t.length = p.strings.length := by
      rw [h.length_eq, pairs_eq, length_map, length_zipIdx]
    have hinsert : t.insert s (stringLabel p.strings.length) = t ++ [(s, stringLabel p.strings.length)] := by
      rw [Pairs.insert, filter_eq_self.2 fun e he => decide_eq_true (hnew e he)]
    have hstring : (p.string s).1 = stringLabel p.strings.length := by
      rw [string, if_neg hs]
    rw [Pairs.string, hlookup, hlength, hinsert, hstring, pairs_string hs]
    exact ⟨rfl, h.append_right _⟩

theorem requests_of_perm {t : Pairs} (hp : p.strings.Nodup) (h : t.Perm p.pairs) (texts : List String) :
    (requests Pairs.string t texts).1 = (requests string p texts).1 ∧
      (requests Pairs.string t texts).2.Perm (requests string p texts).2.pairs := by
  induction texts generalizing t p with
  | nil => exact ⟨rfl, h⟩
  | cons s texts ih =>
    obtain ⟨hlabel, hpairs⟩ := string_of_perm hp h s
    obtain ⟨hlabels, hpairs'⟩ := ih (nodup_string hp s) hpairs
    exact ⟨congrArg₂ cons hlabel hlabels, hpairs'⟩

/-! ## Labels and data -/

/-- Repetitions are the same before and after a function that keeps the entries apart. -/
theorem eraseDups_map {f : String → Label} (h : ∀ s ∈ texts, ∀ s' ∈ texts, f s = f s' → s = s') :
    (texts.map f).eraseDups = texts.eraseDups.map f := by
  induction hlength : texts.length using Nat.strongRecOn generalizing texts with
  | ind n ih =>
  cases texts with
  | nil => rfl
  | cons s texts =>
    have hfilter : (texts.map f).filter (fun l => !l == f s) = (texts.filter fun s' => !s' == s).map f := by
      rw [filter_map]
      refine congrArg (map f) (filter_congr fun s' hs' => ?_)
      have hiff : f s' = f s ↔ s' = s :=
        ⟨h s' (mem_cons_of_mem s hs') s mem_cons_self, congrArg f⟩
      simp [hiff]
    have hsubset : texts.filter (fun s' => !s' == s) ⊆ s :: texts :=
      fun _ hs' => mem_cons_of_mem s (mem_filter.1 hs').1
    have hlt : (texts.filter fun s' => !s' == s).length < n :=
      hlength ▸ Nat.lt_succ_of_le (length_filter_le _ _)
    rw [map_cons, eraseDups_cons, eraseDups_cons, map_cons, hfilter,
      ih _ hlt (fun a ha b hb => h a (hsubset ha) b (hsubset hb)) rfl]

variable (texts)

/-- The pool after some texts have been asked for. -/
def ofTexts : Pool := (requests string empty texts).2

/-- The labels that they have been given. -/
def labelsOf : List Label := (requests string empty texts).1

theorem strings_ofTexts : (ofTexts texts).strings = texts.eraseDups := by
  rw [ofTexts, strings_requests]
  simp [empty]

theorem nodup_eraseDups : texts.eraseDups.Nodup :=
  strings_ofTexts texts ▸ nodup_requests (p := empty) nodup_nil texts

theorem labelsOf_eq : labelsOf texts = texts.map fun s => stringLabel (texts.eraseDups.idxOf s) := by
  rw [labelsOf, labels_requests, ← strings_ofTexts]
  rfl

theorem label_inj {s s' : String} (hs : s ∈ texts)
    (h : stringLabel (texts.eraseDups.idxOf s) = stringLabel (texts.eraseDups.idxOf s')) : s = s' :=
  (idxOf_inj (mem_eraseDups.2 hs)).1 (stringLabel_inj h)

theorem labelsOf_getElem?_eq_iff (i j : Nat) :
    (labelsOf texts)[i]? = (labelsOf texts)[j]? ↔ texts[i]? = texts[j]? := by
  rw [labelsOf_eq, getElem?_map, getElem?_map]
  refine ⟨fun h => ?_, congrArg _⟩
  cases hi : texts[i]? with
  | none => simpa [hi, eq_comm] using h
  | some s =>
    cases hj : texts[j]? with
    | none => simp [hi, hj] at h
    | some s' =>
      simp only [hi, hj, Option.map_some, Option.some.injEq] at h
      rw [label_inj texts (mem_of_getElem? hi) h]

theorem eraseDups_labelsOf :
    (labelsOf texts).eraseDups = (range texts.eraseDups.length).map stringLabel := by
  rw [labelsOf_eq, eraseDups_map fun s hs s' _ => label_inj texts hs]
  refine ext_getElem (by simp) fun i hi _ => ?_
  simp [(nodup_eraseDups texts).idxOf_getElem]

theorem labelled_ofTexts : (ofTexts texts).labelled = (labelsOf texts).eraseDups.zip texts.eraseDups := by
  rw [labelled, strings_ofTexts, eraseDups_labelsOf]
  refine ext_getElem (by simp) fun i hi _ => ?_
  simp

theorem pairs_ofTexts {t : Pairs} (h : t.Perm (requests Pairs.string [] texts).2) :
    t.sorted = (ofTexts texts).pairs :=
  sorted_eq (h.trans (requests_of_perm (p := empty) nodup_nil (.refl _) texts).2)

/-- Texts that are asked for one after another have the same label exactly if they are equal. The labels are
numbered in the order of first use, and the data has each of them with its text once, in that order; a
two-way table gives the same labels and, sorted by their numbers, the same data. Any bytes in quotes
are printable, and the assembler reads the same bytes back. -/
theorem texts_encoded (texts : List String) (bytes : List UInt8) :
    (∀ i j : Nat, (labelsOf texts)[i]? = (labelsOf texts)[j]? ↔ texts[i]? = texts[j]?) ∧
      (labelsOf texts).eraseDups = (List.range texts.eraseDups.length).map stringLabel ∧
      (ofTexts texts).data = ((labelsOf texts).eraseDups.zip texts.eraseDups).flatMap (fun e =>
        [.label e.1, .directive ("asciz " ++ Machine.quoteBytes e.2.toUTF8.toList)]) ∧
      (requests Pairs.string [] texts).1 = labelsOf texts ∧
      (∀ t : Pairs, t.Perm (requests Pairs.string [] texts).2 →
        t.sorted = texts.eraseDups.zip (labelsOf texts).eraseDups) ∧
      (∀ c ∈ (Machine.quoteBytes bytes).toList, Machine.Printable c) ∧
      Machine.unquote (Machine.quoteBytes bytes) = some bytes := by
  refine ⟨labelsOf_getElem?_eq_iff texts, eraseDups_labelsOf texts, ?_, ?_, fun t ht => ?_,
    Machine.printable_quoteBytes bytes, Machine.unquote_quoteBytes bytes⟩
  · rw [data, labelled_ofTexts]
  · exact (requests_of_perm (p := empty) nodup_nil (.refl _) texts).1
  · rw [pairs_ofTexts texts ht, pairs, labelled_ofTexts, zip_swap]

/-- A text that is used twice, in a table that lists the later text first, and a zero byte before a digit. -/
theorem repeated_texts_encoded :
    labelsOf ["b", "a", "b"] = [".Lstr_0", ".Lstr_1", ".Lstr_0"] ∧
      Pairs.sorted [("a", ".Lstr_1"), ("b", ".Lstr_0")] = [("b", ".Lstr_0"), ("a", ".Lstr_1")] ∧
      Machine.Printable '0' ∧ Machine.unquote "\"\\0001\"" = some [0, 49] := by
  have hquote : Machine.quoteBytes [0, 49] = "\"\\0001\"" := by decide +kernel
  obtain ⟨-, -, -, -, hsorted, hprintable, hunquote⟩ := texts_encoded ["b", "a", "b"] [0, 49]
  refine ⟨by decide +kernel, ?_, hprintable '0' (by decide +kernel), hquote ▸ hunquote⟩
  exact (hsorted [("a", ".Lstr_1"), ("b", ".Lstr_0")] (by decide +kernel)).trans (by decide +kernel)

end Pool

end Sigil
