import Mathlib.Data.List.Flatten
import Mathlib.Data.List.Nodup
import Mathlib.Data.List.Perm.Basic
import Sigil.Proofs.Emission.Compositions

/-!
# Labels

In the assembly of an accepted program no label is defined twice, and every label that a line refers to
is defined (`Compile.labels_of_generate`).

The name of a function is a part of its labels, and a name may be `f_loop1`, `str_0` or `zr_strlen`. The
last word of a label tells them apart: it is a number for a text, ends in a number or is `return` inside
a function, and is any other word inside a routine. So every label can be read back as far as to what it
belongs to (`owner`), and labels with distinct owners are distinct.
-/

namespace Sigil

open Code List Routine

open Machine (Block Condition Label Line)

variable {w : String} {k : Nat}

/-! ## Owners -/

/-- What a label belongs to. -/
inductive Owner where
  /-- The entry and the routines. -/
  | library
  | texts
  | function (x : String)
deriving DecidableEq

/-- The characters behind the last underscore. -/
def lastWord (l : List Char) : List Char :=
  (l.reverse.takeWhile (· != '_')).reverse

/-- What a label belongs to, as far as its text tells. -/
def owner (l : Label) : Owner :=
  match l.toList with
  | 'z' :: 'u' :: '_' :: x => .function (String.ofList x)
  | '.' :: 'L' :: rest =>
    let w := lastWord rest
    if w.all Char.isDigit then .texts
    else if w.any Char.isDigit || w == "return".toList then
      .function (String.ofList (rest.take (rest.length - (w.length + 1))))
    else .library
  | _ => .library

theorem lastWord_append {x w : List Char} (hw : '_' ∉ w) : lastWord (x ++ '_' :: w) = w := by
  have hkeep : ∀ c ∈ w.reverse, (c != '_') = true := fun c hc =>
    bne_iff_ne.2 fun h => hw (h ▸ mem_reverse.1 hc)
  simp [lastWord, takeWhile_append_of_pos hkeep]

theorem owner_functionLabel (x : String) : owner (functionLabel x) = .function x := by
  simp [owner, functionLabel]

theorem owner_local (x : String) (hw : '_' ∉ w.toList) :
    owner (".L" ++ x ++ "_" ++ w) =
      if w.toList.all Char.isDigit then .texts
      else if w.toList.any Char.isDigit || w == "return" then .function x
      else .library := by
  have hlist : (".L" ++ x ++ "_" ++ w).toList = '.' :: 'L' :: (x.toList ++ '_' :: w.toList) := by
    simp
  have heq : (w.toList == "return".toList) = (w == "return") :=
    Bool.eq_iff_iff.2 (by rw [beq_iff_eq, beq_iff_eq, String.toList_inj])
  simp only [owner, hlist, lastWord_append hw, heq]
  simp

theorem returnLabel_eq (site : Site) :
    site.returnLabel = ".L" ++ site.name ++ "_" ++ "return" := by
  rw [String.append_assoc]
  rfl

theorem owner_returnLabel (site : Site) : owner site.returnLabel = .function site.name := by
  rw [returnLabel_eq, owner_local site.name (by decide +kernel)]
  rfl

/-! ## Numbers in labels -/

theorem toList_toString (k : Nat) : (toString k).toList = Nat.toDigits 10 k := by
  rw [Nat.toString_eq_ofList_toDigits, String.toList_ofList]

theorem isDigit_of_mem_toString {c : Char} (h : c ∈ (toString k).toList) :
    c.isDigit = true :=
  Nat.isDigit_of_mem_toDigits (by decide) (by decide) (toList_toString k ▸ h)

theorem toString_inj {j : Nat} (h : toString k = toString j) : k = j := by
  have hdigits := congrArg (Nat.ofDigitChars 10 · 0) (congrArg String.toList h)
  simpa only [toList_toString, Nat.ofDigitChars_ten_toDigits] using hdigits

/-- The words that come before a number in the labels of a function. -/
def Code.words : List String := ["logic", "else", "endif", "loop", "next", "endloop"]

theorem Code.of_mem_words (h : w ∈ words) :
    w.toList ≠ [] ∧ ∀ c ∈ w.toList, c ≠ '_' ∧ c.isDigit = false := by
  have hall : (words.all fun w => !w.toList.isEmpty &&
      w.toList.all fun c => c != '_' && !c.isDigit) = true := by
    decide +kernel
  simpa using all_eq_true.1 hall w h

theorem numbered_eq (site : Site) (w : String) (k : Nat) :
    site.numbered w k = ".L" ++ site.name ++ "_" ++ (w ++ toString k) := by
  rw [← String.append_assoc]
  rfl

/-- A numbered label belongs to the function it is numbered in. -/
theorem owner_numbered (site : Site) (hw : w ∈ words) (k : Nat) :
    owner (site.numbered w k) = .function site.name := by
  obtain ⟨hne, hword⟩ := of_mem_words hw
  have hunder : '_' ∉ (w ++ toString k).toList := by
    rw [String.toList_append, mem_append]
    rintro (h | h)
    · exact (hword _ h).1 rfl
    · exact nomatch isDigit_of_mem_toString h
  -- The word is not all digits, and the number is a digit at least.
  have hall : (w ++ toString k).toList.all Char.isDigit = false := by
    obtain ⟨c, hc⟩ := exists_mem_of_ne_nil _ hne
    rw [all_eq_false]
    exact ⟨c, by simp [hc], by simp [(hword c hc).2]⟩
  have hany : (w ++ toString k).toList.any Char.isDigit = true := by
    have hdigits : (toString k).toList ≠ [] := toList_toString k ▸ Nat.toDigits_ne_nil
    obtain ⟨c, hc⟩ := exists_mem_of_ne_nil _ hdigits
    rw [any_eq_true]
    exact ⟨c, by rw [String.toList_append]; exact mem_append_right _ hc,
      isDigit_of_mem_toString hc⟩
  rw [numbered_eq, owner_local _ hunder, hall, hany]
  rfl

theorem owner_stringLabel (n : Nat) : owner (Pool.stringLabel n) = .texts := by
  have hlabel : Pool.stringLabel n = ".L" ++ "str" ++ "_" ++ toString n := rfl
  have hunder : '_' ∉ (toString n).toList := fun h => nomatch isDigit_of_mem_toString h
  have hall : (toString n).toList.all Char.isDigit = true :=
    all_eq_true.2 fun _ => isDigit_of_mem_toString
  rw [hlabel, owner_local _ hunder, hall]
  rfl

theorem stringLabel_inj {n m : Nat} (h : Pool.stringLabel n = Pool.stringLabel m) : n = m :=
  toString_inj ((String.append_right_inj _).1 h)

namespace Code

variable {site : Site} {w v : String} {k j : Nat}

/-- The digits of a word with a number are those of the number. -/
theorem filter_isDigit (hw : w ∈ words) (k : Nat) :
    (w ++ toString k).toList.filter Char.isDigit = (toString k).toList := by
  have hword : w.toList.filter Char.isDigit = [] :=
    filter_eq_nil_iff.2 fun c hc => by simp [((of_mem_words hw).2 c hc).2]
  rw [String.toList_append, filter_append, hword, nil_append,
    filter_eq_self.2 fun _ => isDigit_of_mem_toString]

theorem numbered_inj (hw : w ∈ words) (hv : v ∈ words)
    (h : site.numbered w k = site.numbered v j) : k = j := by
  rw [numbered_eq, numbered_eq] at h
  have hdigits : (toString k).toList = (toString j).toList := by
    rw [← filter_isDigit hw, (String.append_right_inj _).1 h, filter_isDigit hv]
  exact toString_inj (String.toList_inj.1 hdigits)

theorem numbered_ne_returnLabel (hw : w ∈ words) (k : Nat) :
    site.numbered w k ≠ site.returnLabel := by
  intro h
  rw [numbered_eq, returnLabel_eq] at h
  have hdigits := filter_isDigit hw k
  rw [(String.append_right_inj _).1 h, toList_toString] at hdigits
  have hnone : "return".toList.filter Char.isDigit = [] := by decide +kernel
  exact Nat.toDigits_ne_nil (hdigits.symm.trans hnone)

theorem local_ne_functionLabel (rest x : String) : ".L" ++ rest ≠ functionLabel x := by
  intro h
  have hlist := congrArg String.toList h
  simp [functionLabel] at hlist

end Code

namespace Code

variable {c : Block} {n : Nat} {site : Site} {l : Label}

/-! ## Labels of a piece -/

theorem labels_prologue (frame : Nat) : Block.labels (prologue frame) = [] := by
  unfold prologue
  split <;> rfl

theorem labels_function (site : Site) (frame : Nat) (c : Block) :
    Block.labels ([.label (functionLabel site.name)] ++ prologue frame ++ c ++
      [Line.const 0 .rax, .label site.returnLabel] ++ epilogue) =
        functionLabel site.name :: (Block.labels c ++ [site.returnLabel]) := by
  simp only [Block.labels_append, labels_prologue]
  exact append_nil _

/-- The labels are distinct and numbered above `lo` and up to `hi`. -/
structure Fresh (site : Site) (lo hi : Nat) (ls : List Label) : Prop where
  le : lo ≤ hi
  nodup : ls.Nodup
  mem : ∀ l ∈ ls, ∃ w ∈ words, ∃ k, lo < k ∧ k ≤ hi ∧ l = site.numbered w k

namespace Fresh

variable {site : Site} {lo mid hi : Nat} {ls ls' : List Label}

theorem nil (n : Nat) : Fresh site n n [] :=
  ⟨le_refl n, nodup_nil, fun _ hl => nomatch hl⟩

theorem perm (h : Fresh site lo hi ls) (hp : ls.Perm ls') : Fresh site lo hi ls' :=
  ⟨h.le, hp.nodup_iff.1 h.nodup, fun l hl => h.mem l (hp.mem_iff.2 hl)⟩

/-- Numbers go on where the first part has stopped. -/
theorem append (h : Fresh site lo mid ls) (h' : Fresh site mid hi ls') :
    Fresh site lo hi (ls ++ ls') := by
  refine ⟨h.le.trans h'.le, ?_, ?_⟩
  · refine nodup_append.2 ⟨h.nodup, h'.nodup, fun l hl l' hl' heq => ?_⟩
    obtain ⟨w, hw, k, -, hk, rfl⟩ := h.mem l hl
    obtain ⟨v, hv, j, hj, -, rfl⟩ := h'.mem l' hl'
    have := numbered_inj hw hv heq
    omega
  · intro l hl
    rcases mem_append.1 hl with hl | hl
    · obtain ⟨w, hw, k, hlo, hk, rfl⟩ := h.mem l hl
      exact ⟨w, hw, k, hlo, hk.trans h'.le, rfl⟩
    · obtain ⟨w, hw, k, hlo, hk, rfl⟩ := h'.mem l hl
      exact ⟨w, hw, k, h.le.trans_lt hlo, hk, rfl⟩

/-- The label with the next number is new. -/
theorem cons (h : Fresh site (lo + 1) hi ls) {w : String} (hw : w ∈ words) :
    Fresh site lo hi (site.numbered w (lo + 1) :: ls) := by
  have hle := h.le
  refine ⟨by omega, nodup_cons.2 ⟨fun hmem => ?_, h.nodup⟩, ?_⟩
  · obtain ⟨v, hv, k, hk, -, heq⟩ := h.mem _ hmem
    have := numbered_inj hw hv heq
    omega
  · intro l hl
    rcases mem_cons.1 hl with rfl | hl
    · exact ⟨w, hw, lo + 1, by omega, hle, rfl⟩
    · obtain ⟨v, hv, k, hlo, hk, rfl⟩ := h.mem l hl
      exact ⟨v, hv, k, by omega, hk, rfl⟩

/-- The labels of `&&` and `||`. -/
theorem logicCode {l r : Block} (hl : Fresh site (lo + 1) mid (Block.labels l))
    (hr : Fresh site mid hi (Block.labels r)) (skip : Condition) :
    Fresh site lo hi (Block.labels (l ++ [Line.test .rax, .jumpIf skip (site.numbered "logic" (lo + 1))] ++ r ++
      [Line.label (site.numbered "logic" (lo + 1))])) := by
  refine ((hl.append hr).cons (w := "logic") (by decide)).perm ?_
  simp only [Block.labels_append]
  change Perm _ (_ ++ [] ++ _ ++ [_])
  exact perm_iff_count.2 fun l => by
    simp only [count_cons, count_append, count_nil]
    omega

theorem condCode {n1 n2 : Nat} {test yes no : Block} (htest : Fresh site (lo + 2) n1 (Block.labels test))
    (hyes : Fresh site n1 n2 (Block.labels yes)) (hno : Fresh site n2 hi (Block.labels no)) :
    Fresh site lo hi (Block.labels (Code.condCode (site.numbered "else" (lo + 1))
      (site.numbered "endif" (lo + 2)) test yes no)) := by
  have hinside := (htest.append (hyes.append hno)).cons (w := "endif") (by decide)
  refine (hinside.cons (w := "else") (by decide)).perm ?_
  simp only [Code.condCode, Block.labels_append]
  change Perm _ (_ ++ [] ++ _ ++ [_] ++ _ ++ [_])
  exact perm_iff_count.2 fun l => by
    simp only [count_cons, count_append, count_nil, Nat.add_assoc, Nat.reduceAdd]
    omega

theorem loopCode {n1 n2 n3 : Nat} {init test body post : Block}
    (hinit : Fresh site (lo + 3) n1 (Block.labels init)) (htest : Fresh site n1 n2 (Block.labels test))
    (hbody : Fresh site n2 n3 (Block.labels body)) (hpost : Fresh site n3 hi (Block.labels post)) :
    Fresh site lo hi (Block.labels (Code.loopCode (site.numbered "loop" (lo + 1)) (site.loopExits lo)
      init test body post)) := by
  have hinside := (hinit.append (htest.append (hbody.append hpost))).cons (w := "endloop") (by decide)
  refine ((hinside.cons (w := "next") (by decide)).cons (w := "loop") (by decide)).perm ?_
  simp only [Code.loopCode, Site.loopExits, Block.labels_append]
  change Perm _ (_ ++ [_] ++ _ ++ [] ++ _ ++ [_] ++ _ ++ [_])
  exact perm_iff_count.2 fun l => by
    simp only [count_cons, count_append, count_nil, Nat.add_assoc, Nat.reduceAdd]
    omega

/-- The labels of a function are its own, that of its end and those of its statements. -/
theorem function (h : Fresh site lo hi (Block.labels c)) :
    (functionLabel site.name :: (Block.labels c ++ [site.returnLabel])).Nodup := by
  refine nodup_cons.2 ⟨fun hmem => ?_, ?_⟩
  · rcases mem_append.1 hmem with hl | hl
    · obtain ⟨w, -, k, -, -, heq⟩ := h.mem _ hl
      rw [numbered_eq, String.append_assoc, String.append_assoc] at heq
      exact local_ne_functionLabel _ _ heq.symm
    · have heq := mem_singleton.1 hl
      rw [returnLabel_eq, String.append_assoc, String.append_assoc] at heq
      exact local_ne_functionLabel _ _ heq.symm
  · refine nodup_append.2 ⟨h.nodup, nodup_singleton _, fun l hl l' hl' heq => ?_⟩
    obtain ⟨w, hw, k, -, -, rfl⟩ := h.mem l hl
    exact numbered_ne_returnLabel hw k (heq.trans (mem_singleton.1 hl'))

end Fresh

theorem mem_dropBytes {l : Line} (h : l ∈ dropBytes n) : l = .add (.imm n) .rsp := by
  unfold dropBytes at h
  split at h
  · cases h
  · exact mem_singleton.1 h

theorem labels_dropBytes (n : Nat) : Block.labels (dropBytes n) = [] := by
  unfold dropBytes
  split <;> rfl

/-- The labels in a piece are those that have been taken while it was generated. -/
theorem Piece.fresh {outs : List Label} {s s' : Emission}
    (h : Piece site outs s c n s') : Fresh site s.labels s'.labels (Block.labels c) := by
  induction h with
  | append _ _ ih ih' | stack _ _ ih ih' =>
    rw [Block.labels_append]
    exact ih.append ih'
  | plain h | slot _ h =>
    have hlabels : ∀ {l : Line}, l.label? = none → Block.labels [l] = [] := fun hl => by
      simp [Block.labels, hl]
    rw [hlabels h.label]
    exact .nil _
  | pop _ _ _ ih =>
    rw [Block.labels_append]
    exact (append_nil _).symm ▸ ih
  | call _ _ _ _ ih =>
    rw [Block.labels_append, Block.labels_append, labels_dropBytes]
    exact (append_nil _).symm ▸ (append_nil _).symm ▸ ih
  | logic skip _ _ ihl ihr => exact ihl.logicCode ihr skip
  | cond _ _ _ ih1 ih2 ih3 => exact ih1.condCode ih2 ih3
  | loop _ _ _ _ ih1 ih2 ih3 ih4 => exact ih1.loopCode ih2 ih3 ih4
  | _ => exact .nil _

/-! ## Labels of all generated code -/

theorem fresh_of_pushes {s s' : Emission} {forms : List Machine.Form}
    (h : Pushes (fun s c s' => Fresh site s.labels s'.labels (Block.labels c)) s c forms s') :
    Fresh site s.labels s'.labels (Block.labels c) := by
  induction h with
  | nil => exact .nil _
  | append _ _ ih ih' =>
    rw [Block.labels_append]
    exact ih.append ih'
  | word h =>
    rw [Block.labels_append]
    exact h.append (.nil _)
  | room h size n =>
    rw [Block.labels_append, Block.labels_append]
    exact (h.append (.nil _)).append (.nil _)

/-- The labels in the code of an expression are those that have been taken while it was generated. -/
theorem composes_fresh (site : Site) : Composes site (fun _ => True) fun s c s' =>
    Fresh site s.labels s'.labels (Block.labels c) where
  quiet h := by
    rw [Block.labels, filterMap_eq_nil_iff.2 fun l hl => (h l hl).label]
    exact .nil _
  append h h' := by
    rw [Block.labels_append]
    exact h.append h'
  temp _ _ := .nil _
  bind _ _ _ _ _ := .nil _
  text _ _ := .nil _
  routine _ _ := .nil _
  logic skip hl hr := hl.logicCode hr skip
  kept r h := by
    rw [Block.labels_append, Block.labels_append]
    exact (Fresh.nil _).append (h.append (.nil _))
  call := by
    intro s s' c forms x h
    rw [Block.labels_append, Block.labels_append, labels_dropBytes]
    exact ((fresh_of_pushes h).append (.nil _)).append (.nil _)
  service := by
    intro s s' c n h _
    have hpops : Block.labels ((argRegisters.take n).reverse.map Line.pop) = [] := by
      refine filterMap_eq_nil_iff.2 fun l hl => ?_
      obtain ⟨r, -, rfl⟩ := mem_map.1 hl
      rfl
    rw [Block.labels_append, hpops]
    exact (fresh_of_pushes h).append (.nil _)

theorem serve_true (nodes : List Expr) : Serve (fun _ => True) nodes :=
  fun _ _ _ _ _ _ => Or.inr (Or.inr trivial)

theorem assembles_fresh (site : Site) : Assembles site
    (fun s c s' => Fresh site s.labels s'.labels (Block.labels c))
    fun _ s c s' => Fresh site s.labels s'.labels (Block.labels c) where
  simple h := h
  append h h' := by
    rw [Block.labels_append]
    exact h.append h'
  enclosed h := h
  cond htest hyes hno := htest.condCode hyes hno
  loop hinit htest hbody hpost := hinit.loopCode htest hbody hpost
  ret := .nil _
  jump := ⟨.nil _, .nil _⟩

/-- The labels in the code of statements are those that have been taken while it was generated. -/
theorem fresh_stmts (sts : List Stmt) {exits : Option Exits} {s s' : Emission}
    (h : stmts site exits sts s = (.ok c, s')) : Fresh site s.labels s'.labels (Block.labels c) :=
  (assembles_fresh site).of_stmts (composes_fresh site) sts (serve_true _) h

/-! ## Targets of a piece -/

/-- The labels that any code may refer to: those of functions, of routines and of texts. -/
inductive Shared (t : Symbols) (pool : Pool) : Label → Prop where
  | function {x : String} (h : t.funcs.has x = true) : Shared t pool (functionLabel x)
  | routine {r : Routine} (h : r ∈ pool.routines) : Shared t pool r.label
  | text {n : Nat} (h : n < pool.strings.length) : Shared t pool (Pool.stringLabel n)

theorem Shared.mono {t : Symbols} {p p' : Pool} (hp : p.Grows p') (h : Shared t p l) :
    Shared t p' l := by
  cases h with
  | function h => exact .function h
  | routine h => exact .routine (hp.routines h)
  | text h => exact .text (h.trans_le hp.strings.length_le)

theorem mem_labels (h : .label l ∈ c) : l ∈ Block.labels c :=
  mem_filterMap.2 ⟨.label l, h, rfl⟩

/-- Every label that the line refers to is among `ls` or shared. -/
def Resolved (t : Symbols) (pool : Pool) (ls : List Label) (l : Line) : Prop :=
  ∀ x ∈ l.targets, x ∈ ls ∨ Shared t pool x

namespace Resolved

variable {t : Symbols} {p p' : Pool} {ls ls' : List Label} {l : Line}

theorem mono (h : Resolved t p ls l) (hp : p.Grows p') (hls : ls ⊆ ls') : Resolved t p' ls' l :=
  fun x hx => (h x hx).imp (fun hmem => hls hmem) (Shared.mono hp)

theorem of_nil (h : l.targets = []) : Resolved t p ls l := by
  intro x hx
  rw [h] at hx
  cases hx

theorem of_target {x : Label} (h : l.targets = [x]) (hx : x ∈ ls ∨ Shared t p x) :
    Resolved t p ls l := by
  intro x' hx'
  rw [h] at hx'
  exact mem_singleton.1 hx' ▸ hx

end Resolved

/-- The label of a text is that of a place in the pool that has it. -/
theorem shared_string (t : Symbols) (p : Pool) (s : String) :
    Shared t (p.string s).2 (p.string s).1 := by
  unfold Pool.string
  split
  · next h => exact .text (idxOf_lt_length_of_mem h)
  · exact .text (by simp)

theorem mem_routines_use (p : Pool) (r : Routine) : r ∈ (p.use r).routines := by
  unfold Pool.use
  split
  · assumption
  · simp

/-- A piece refers to its own labels, to the labels outside that it may jump to, and to what functions
share. -/
theorem linewise_resolved (site : Site) : Linewise site (fun _ => True) fun outs s _ code l =>
    Resolved site.symbols s.pool (Block.labels code ++ outs) l where
  keeps _ _ := trivial
  later h _ _ _ _ _ hl := hl.mono (h.tracks tracks_pool) (List.Subset.refl _)
  wider hl _ hcode := by
    refine hl.mono (.refl _) (append_subset.2 ⟨?_, subset_append_right _ _⟩)
    exact List.Subset.trans (filterMap_subset _ hcode) (subset_append_left _ _)
  outer hl := by
    refine hl.mono (.refl _) ?_
    rw [append_nil]
    exact subset_append_left _ _
  inner hl ha hb := by
    refine hl.mono (.refl _) (append_subset.2 ⟨subset_append_left _ _, ?_⟩)
    refine cons_subset.2 ⟨mem_append_left _ (mem_labels ha), ?_⟩
    exact cons_subset.2 ⟨mem_append_left _ (mem_labels hb), subset_append_right _ _⟩
  plain h := .of_nil h.targets
  slot _ _ h := .of_nil h.targets
  text _ s t _ := .of_target rfl (Or.inr (shared_string _ s.pool t))
  routine _ s r _ := .of_target rfl (Or.inr (.routine (mem_routines_use s.pool r)))
  push _ _ _ _ := .of_nil rfl
  reserve _ _ _ _ := .of_nil rfl
  pop _ _ _ _ _ _ := .of_nil rfl
  popped hl _ := hl
  call hx _ l hl := by
    rcases mem_cons.1 hl with rfl | hl
    · exact .of_target rfl (Or.inr (.function (by simp [Assoc.has, hx])))
    · rw [mem_dropBytes hl]
      exact .of_nil rfl
  called hl _ _ := hl
  jump hl := .of_target rfl (Or.inl (mem_append.2 (hl.symm.imp mem_labels id)))
  jumpIf _ hl := .of_target rfl (Or.inl (mem_append_left _ (mem_labels hl)))
  label _ _ _ _ := .of_nil rfl

/-! ## Functions -/

section Functions

variable {t : Symbols} {x : String} {sig : Signature} {fc : FunctionCode} {pool : Pool}
variable {l : Line}

theorem mem_prologue {frame : Nat} (h : l ∈ prologue frame) :
    l = .push .rbp ∨ l = .copy .rsp .rbp ∨ l = .sub (.imm frame) .rsp := by
  unfold prologue at h
  split at h
  · simpa [or_assoc] using Or.inl h
  · simpa [or_assoc] using h

theorem mem_epilogue (h : l ∈ epilogue) : l = .copy .rbp .rsp ∨ l = .pop .rbp ∨ l = .ret := by
  simpa [epilogue] using h

/-- The labels in the code of a function are distinct, and all of them belong to the function. -/
theorem Built.nodup_labels (h : Built t x sig fc pool) :
    (Block.labels fc.code).Nodup ∧ ∀ l ∈ Block.labels fc.code, owner l = .function x := by
  obtain ⟨start, s', body, -, -, hpiece, -, -, -, hcode⟩ := h
  have hfresh := hpiece.fresh
  have hlabels := labels_function ⟨t, x, sig.ret⟩ fc.frame body
  rw [hcode, hlabels]
  refine ⟨hfresh.function, fun l hl => ?_⟩
  simp only [mem_cons, mem_append, not_mem_nil, or_false] at hl
  rcases hl with rfl | hl | rfl
  · exact owner_functionLabel x
  · obtain ⟨w, hw, k, -, -, rfl⟩ := hfresh.mem l hl
    exact owner_numbered _ hw k
  · exact owner_returnLabel _

/-- The code of a function refers to its own labels and to what functions share. -/
theorem Built.resolved (h : Built t x sig fc pool) :
    ∀ l ∈ fc.code, Resolved t pool (Block.labels fc.code) l := by
  obtain ⟨start, s', body, -, -, hpiece, hpool, -, -, hcode⟩ := h
  have houts : Block.labels body ++ [(Site.mk t x sig.ret).returnLabel] ⊆ Block.labels fc.code := by
    rw [hcode]
    simp only [Block.labels_append]
    intro l hl
    rcases mem_append.1 hl with hl | hl
    · simp [hl]
    · rw [mem_singleton.1 hl]
      simp [Block.labels, Line.label?]
  have hbody := fun l hl =>
    ((linewise_resolved _).of_piece hpiece trivial l hl).mono hpool houts
  intro l hl
  rw [hcode] at hl
  simp only [mem_append, mem_cons, not_mem_nil, or_false] at hl
  rcases hl with (((rfl | hl) | hl) | rfl | rfl) | hl
  · exact .of_nil rfl
  · rcases mem_prologue hl with rfl | rfl | rfl <;> exact .of_nil rfl
  · exact hbody l hl
  · exact .of_nil rfl
  · exact .of_nil rfl
  · rcases mem_epilogue hl with rfl | rfl | rfl <;> exact .of_nil rfl

theorem Built.mem_labels (h : Built t x sig fc pool) : functionLabel x ∈ Block.labels fc.code := by
  obtain ⟨start, s', body, -, -, -, -, -, -, hcode⟩ := h
  rw [hcode]
  exact Code.mem_labels (by simp)

end Functions

end Code

/-! ## Routines and texts -/

namespace Routine

variable {r : Routine}

/-- The labels of the entry and of some routines, in their code and in their data. -/
def labelsOf (rs : List Routine) : List Label :=
  "_start" :: rs.flatMap fun r => Block.labels r.text ++ Block.labels r.data

theorem nodup_labelsOf_all : (labelsOf all).Nodup := by
  decide +kernel

theorem owner_of_mem_labelsOf_all : ∀ l ∈ labelsOf all, owner l = .library := by
  decide +kernel

theorem labelsOf_closure_sublist (used : List Routine) :
    (labelsOf (closure used)).Sublist (labelsOf all) :=
  (filter_sublist.flatMap _).cons_cons _

/-- A routine refers to its own labels and to the routines that it calls. -/
theorem mem_of_mem_targets (r : Routine) : ∀ l ∈ r.text, ∀ x ∈ l.targets,
    x ∈ Block.labels r.text ++ Block.labels r.data ∨ ∃ r' ∈ r.deps, x = r'.label := by
  cases r <;> decide +kernel

theorem label_mem_labelsOf {rs : List Routine} (h : r ∈ rs) : r.label ∈ labelsOf rs :=
  mem_cons_of_mem _ (mem_flatMap.2 ⟨r, h, mem_append_left _ mem_cons_self⟩)

theorem targets_of_mem_data : ∀ l ∈ r.data, l.targets = [] := by
  cases r <;> decide

theorem mem_all (r : Routine) : r ∈ all := by
  cases r <;> decide

theorem mem_closure {used : List Routine} (h : r ∈ used) : r ∈ closure used :=
  mem_filter.2 ⟨mem_all r, by simp [h]⟩

/-- No routine is named like a function. -/
theorem label_ne_functionLabel (r : Routine) (x : String) : r.label ≠ functionLabel x := by
  intro hlabel
  have howner := owner_of_mem_labelsOf_all _ (label_mem_labelsOf (mem_all r))
  rw [hlabel, owner_functionLabel] at howner
  cases howner

end Routine

namespace Pool

theorem labels_data (p : Pool) :
    Block.labels p.data = (range p.strings.length).map stringLabel := by
  have hlabels : Block.labels p.data = p.strings.zipIdx.flatMap fun s => [stringLabel s.2] := by
    simp only [Block.labels, data, labelled, flatMap_map, filterMap_flatMap]
    rfl
  rw [hlabels, ← map_eq_flatMap, range_eq_range', ← zipIdx_map_snd 0 p.strings,
    map_map]
  rfl

theorem targets_of_mem_data {p : Pool} {l : Line} (h : l ∈ p.data) : l.targets = [] := by
  obtain ⟨s, -, hl⟩ := mem_flatMap.1 h
  simp only [mem_cons, not_mem_nil, or_false] at hl
  rcases hl with rfl | rfl <;> rfl

end Pool

/-! ## Programs -/

namespace Assembly

/-- The labels of an assembly are those of the library, of the functions and of the texts. -/
theorem perm_labels (a : Assembly) : (Block.labels a.lines).Perm
    (labelsOf a.pool.closure ++
      (a.funcs.flatMap (fun p => Block.labels p.2.code) ++ Block.labels a.pool.data)) := by
  have hroutines := flatMap_append_perm a.pool.closure (fun r => Block.labels r.text)
    fun r => Block.labels r.data
  have hflat : ∀ {α : Type} (xs : List α) (f : α → Block),
      Block.labels (xs.flatMap f) = xs.flatMap fun x => Block.labels (f x) :=
    fun _ _ => filterMap_flatMap
  have hlines : Block.labels a.lines = ["_start"] ++ a.funcs.flatMap (fun p => Block.labels p.2.code) ++
      a.pool.closure.flatMap (fun r => Block.labels r.text) ++ [] ++
      a.pool.closure.flatMap (fun r => Block.labels r.data) ++ Block.labels a.pool.data := by
    unfold lines
    simp only [Block.labels_append, hflat]
    rfl
  rw [hlines]
  refine perm_iff_count.2 fun l => ?_
  have hcount := hroutines.count_eq l
  simp only [labelsOf, count_append, count_cons, count_nil] at hcount ⊢
  omega

variable {a : Assembly} {t : Symbols}

/-- The labels of the functions are distinct, since they tell their functions. -/
theorem nodup_labels_funcs (h : AllBuilt t a.funcs a.pool) :
    (a.funcs.flatMap fun p => Block.labels p.2.code).Nodup := by
  refine nodup_flatMap.2 ⟨fun p hp => ?_, ?_⟩
  · obtain ⟨sig, -, hbuilt⟩ := h.built p hp
    exact hbuilt.nodup_labels.1
  · have hnames : a.funcs.Pairwise fun p q => p.1 ≠ q.1 := pairwise_map.1 h.nodup
    refine hnames.imp_of_mem fun {p q} hp hq hne l hl hl' => hne ?_
    obtain ⟨_, -, hbuilt⟩ := h.built p hp
    obtain ⟨_, -, hbuilt'⟩ := h.built q hq
    have howner := (hbuilt.nodup_labels.2 l hl).symm.trans (hbuilt'.nodup_labels.2 l hl')
    exact Owner.function.inj howner

/-- Labels of different owners differ, and each owner's labels are distinct. -/
theorem nodup_labels (h : AllBuilt t a.funcs a.pool) : (Block.labels a.lines).Nodup := by
  have hlibrary := labelsOf_closure_sublist a.pool.routines
  have htexts : ∀ l ∈ Block.labels a.pool.data, owner l = .texts := by
    intro l hl
    rw [Pool.labels_data] at hl
    obtain ⟨n, -, rfl⟩ := mem_map.1 hl
    exact owner_stringLabel n
  have hfuncs : ∀ l ∈ a.funcs.flatMap (fun p => Block.labels p.2.code), ∃ x, owner l = .function x := by
    intro l hl
    obtain ⟨p, hp, hl⟩ := mem_flatMap.1 hl
    obtain ⟨_, -, hbuilt⟩ := h.built p hp
    exact ⟨p.1, hbuilt.nodup_labels.2 l hl⟩
  refine (perm_labels a).nodup_iff.2 (nodup_append.2 ⟨?_, nodup_append.2 ⟨?_, ?_, ?_⟩, ?_⟩)
  · exact nodup_labelsOf_all.sublist hlibrary
  · exact nodup_labels_funcs h
  · rw [Pool.labels_data]
    exact nodup_range.map fun n m hnm => stringLabel_inj hnm
  · rintro l hl _ hl' rfl
    obtain ⟨x, hx⟩ := hfuncs l hl
    exact nomatch hx.symm.trans (htexts l hl')
  · rintro l hl _ hl' rfl
    have hl := owner_of_mem_labelsOf_all l (hlibrary.subset hl)
    rcases mem_append.1 hl' with hl' | hl'
    · obtain ⟨x, hx⟩ := hfuncs l hl'
      exact nomatch hx.symm.trans hl
    · exact nomatch hl.symm.trans (htexts l hl')

/-- What functions share is defined in the assembly. -/
theorem mem_labels_of_shared (h : AllBuilt t a.funcs a.pool)
    (hnames : ∀ x, t.funcs.has x = true → x ∈ a.funcs.map Prod.fst) {l : Label}
    (hl : Shared t a.pool l) : l ∈ Block.labels a.lines := by
  rw [(perm_labels a).mem_iff, mem_append, mem_append]
  cases hl with
  | function hx =>
    obtain ⟨p, hp, rfl⟩ := mem_map.1 (hnames _ hx)
    obtain ⟨_, -, hbuilt⟩ := h.built p hp
    exact Or.inr (Or.inl (mem_flatMap.2 ⟨p, hp, hbuilt.mem_labels⟩))
  | routine hr => exact Or.inl (label_mem_labelsOf (mem_closure hr))
  | text hn =>
    rw [Pool.labels_data]
    exact Or.inr (Or.inr (mem_map.2 ⟨_, mem_range.2 hn, rfl⟩))

/-- Every line refers to labels of the assembly or to what functions share. -/
theorem resolved_lines (h : AllBuilt t a.funcs a.pool) (hmain : t.funcs.has "main" = true) :
    ∀ l ∈ a.lines, Resolved t a.pool (Block.labels a.lines) l := by
  have hmem := fun {l} => (perm_labels a).mem_iff (a := l)
  intro l hl
  simp only [lines, mem_append, mem_flatMap, mem_singleton] at hl
  rcases hl with (((((rfl | hl) | ⟨p, hp, hl⟩) | ⟨r, hr, hl⟩) | rfl) | ⟨r, -, hl⟩) | hl
  · exact .of_nil rfl
  · simp only [entry, system, mem_append, mem_cons, not_mem_nil, or_false] at hl
    rcases hl with (rfl | rfl | rfl | rfl) | rfl | rfl
    · exact .of_nil rfl
    · exact .of_nil rfl
    · exact .of_target rfl (Or.inr (.function hmain))
    all_goals exact .of_nil rfl
  · obtain ⟨_, -, hbuilt⟩ := h.built p hp
    refine (hbuilt.resolved l hl).mono (.refl _) fun x hx => hmem.2 ?_
    exact mem_append_right _ (mem_append_left _ (mem_flatMap.2 ⟨p, hp, hx⟩))
  · -- The closure has what its routines call.
    refine fun x hx => Or.inl (hmem.2 (mem_append_left _ ?_))
    rcases r.mem_of_mem_targets l hl x hx with hown | ⟨r', hr', rfl⟩
    · exact mem_cons_of_mem _ (mem_flatMap.2 ⟨r, hr, hown⟩)
    · exact label_mem_labelsOf (mem_closure_of_mem_deps hr hr')
  · exact .of_nil rfl
  · exact .of_nil (targets_of_mem_data l hl)
  · exact .of_nil (Pool.targets_of_mem_data hl)

end Assembly

namespace Compile

theorem has_main_of_frontend {code : String} {front : Frontend} (h : frontend code = .ok front) :
    front.symbols.funcs.has "main" = true := by
  obtain ⟨p, c, -, hc, hsymbols, -⟩ := of_frontend h
  rw [hsymbols]
  exact (Symbols.defines_of_ofProgram (ofProgram_of_check hc)).2

/-- In the assembly of an accepted program every label is defined once, and every label that is the
target of a jump or a call or stands for a place in memory is defined. -/
theorem labels_of_generate {code : String} {front : Frontend} {a : Assembly}
    (h : frontend code = .ok front) (ha : generate front = .ok a) :
    (Block.labels a.lines).Nodup ∧ Block.targets a.lines ⊆ Block.labels a.lines := by
  obtain ⟨hall, hnames⟩ := built_of_generate h ha
  refine ⟨Assembly.nodup_labels hall, fun x hx => ?_⟩
  obtain ⟨l, hl, hx⟩ := mem_flatMap.1 hx
  rcases Assembly.resolved_lines hall (has_main_of_frontend h) l hl x hx with hl | hl
  · exact hl
  · exact Assembly.mem_labels_of_shared hall hnames hl

/-- A program with a function that is named like a routine. -/
def namesake : String :=
  "const zr_write_bool := fn (b: bool) bool \x7b if (b) \x7b @output(1, \"a\", b); \x7d return b; \x7d;
  const main := fn () int! \x7b loop (zr_write_bool(false)) \x7b \x7d return 0; \x7d;"

theorem labels_of_generate_namesake :
    ∃ front a, frontend namesake = .ok front ∧ generate front = .ok a ∧
      (Block.labels a.lines).length = 20 ∧ (Block.targets a.lines).length = 18 ∧
      (Block.labels a.lines).Nodup ∧ Block.targets a.lines ⊆ Block.labels a.lines := by
  obtain ⟨front, a, hfront, ha, htest⟩ := exists_of_testCode namesake
    (fun _ a => (Block.labels a.lines).length == 20 && (Block.targets a.lines).length == 18)
    (by decide +kernel)
  rw [Bool.and_eq_true, beq_iff_eq, beq_iff_eq] at htest
  exact ⟨front, a, hfront, ha, htest.1, htest.2, labels_of_generate hfront ha⟩

end Compile

end Sigil
