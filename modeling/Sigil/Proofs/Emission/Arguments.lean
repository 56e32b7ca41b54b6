import Mathlib.Algebra.Order.BigOperators.Group.List
import Mathlib.Algebra.Order.Ring.Int
import Sigil.Proofs.Emission.Stack
import Sigil.Proofs.Parsing.Programs

/-!
# Arguments on the stack

Caller and callee each work out for themselves where an argument lies. The caller pushes the arguments, the
last one first, and then the address for a result that is an aggregate (`Code.PutsArg`). The callee counts
upwards from the frame pointer, by the sizes of the types (`Frame.getElem?_sideBySide`). Every call in
generated code stands behind the code for its arguments (`Code.Piece.callsMade`), so the two can be compared
for every call of a program (`Compile.argument_offset_iff`). They agree up to the first argument of type
`void`, which is pushed as a word although its size is zero.
-/

namespace Sigil

open Code Frame List Symbols

open Machine (Block Label Line)

variable {t : Symbols}

/-- The bytes on the stack below the argument `i` of a call: the arguments before it, which are pushed
later, and the address for the result. -/
def Symbols.below (t : Symbols) (sig : Signature) (i : Nat) : Nat :=
  ((sig.params.take i).map fun p => t.pushed p.2).sum + if sig.ret.isAggregate then 8 else 0

/-- Whether a line calls anything. -/
def Machine.Line.isCall : Line → Bool
  | .instr (.call _) => true
  | _ => false

namespace Code

variable {n : Nat}

/-! ## Calls in code -/

/-- Every call of a function in the block stands behind the code that puts its arguments on the stack. -/
def CallsMade (site : Site) (c : Block) : Prop :=
  ∀ before x after, c = before ++ .call (functionLabel x) :: after →
    ∃ sig es s pushes, site.symbols.funcs.get? x = some sig ∧
      CallOf site x es s
        (pushes ++ [.call (functionLabel x)] ++ dropBytes (site.symbols.pushedFor sig)) ∧
      pushes <:+ before

section

variable {site : Site} {c c' : Block}

theorem callsMade_of_forall (h : ∀ l ∈ c, ∀ x, l ≠ .call (functionLabel x)) : CallsMade site c := by
  rintro before x after rfl
  exact absurd rfl (h _ (by simp) x)

theorem callsMade_of_isCall (h : ∀ l ∈ c, l.isCall = false) : CallsMade site c := by
  refine callsMade_of_forall fun l hl x hx => ?_
  subst hx
  cases h _ hl

/-- A line of a block is in its first part or in its second part. -/
theorem split_append {l : Line} {before after : Block} (h : c ++ c' = before ++ l :: after) :
    (∃ rest, c = before ++ l :: rest) ∨ ∃ middle, before = c ++ middle ∧ c' = middle ++ l :: after := by
  rcases append_eq_append_iff.1 h with ⟨middle, hbefore, hc'⟩ | ⟨rest, hc, hrest⟩
  · exact Or.inr ⟨middle, hbefore, hc'⟩
  · cases rest with
    | nil => exact Or.inr ⟨[], by simpa using hc.symm, by simpa using hrest.symm⟩
    | cons l' rest =>
      obtain ⟨rfl, -⟩ := cons.inj hrest
      exact Or.inl ⟨rest, hc⟩

theorem CallsMade.append (h : CallsMade site c) (h' : CallsMade site c') : CallsMade site (c ++ c') := by
  intro before x after hsplit
  rcases split_append hsplit with ⟨rest, hc⟩ | ⟨middle, rfl, hc'⟩
  · exact h before x rest hc
  · obtain ⟨sig, es, s, pushes, hsig, hcall, hsuffix⟩ := h' middle x after hc'
    exact ⟨sig, es, s, pushes, hsig, hcall, hsuffix.trans (suffix_append c middle)⟩

/-- A call is added behind the code that puts its arguments on the stack. -/
theorem CallsMade.call {x : String} {sig : Signature} {es : List Expr} {s : Emission}
    (h : CallsMade site c) (hsig : site.symbols.funcs.get? x = some sig)
    (hcall : CallOf site x es s
      (c ++ [Line.call (functionLabel x)] ++ dropBytes (site.symbols.pushedFor sig))) :
    CallsMade site (c ++ [Line.call (functionLabel x)] ++ dropBytes (site.symbols.pushedFor sig)) := by
  intro before y after hsplit
  rw [append_assoc] at hsplit
  rcases split_append hsplit with ⟨rest, hc⟩ | ⟨middle, rfl, hcode⟩
  · exact h before y rest hc
  · cases middle with
    | nil =>
      have hlabel : functionLabel x = functionLabel y := by simpa [Line.call] using (cons.inj hcode).1
      obtain rfl := (String.append_right_inj _).1 hlabel
      exact ⟨sig, es, s, c, hsig, hcall, by simp⟩
    | cons l middle =>
      have hdrop : dropBytes (site.symbols.pushedFor sig) = middle ++ .call (functionLabel y) :: after :=
        (cons.inj hcode).2
      have hmem : Line.call (functionLabel y) ∈ dropBytes (site.symbols.pushedFor sig) := by
        rw [hdrop]
        simp
      cases mem_dropBytes hmem

/-- By how the piece is composed: calls are only made where one is composed. -/
theorem Piece.callsMade {outs : List Label} {s s' : Emission} (h : Piece site outs s c n s') :
    CallsMade site c := by
  have hnone : ∀ l : Line, l.isCall = false → CallsMade site [l] := fun l hl =>
    callsMade_of_isCall (forall_mem_singleton.2 hl)
  have hlabel : ∀ x, CallsMade site [.label x] := fun _ => hnone _ rfl
  have hjumpIf : ∀ skip x, CallsMade site [.jumpIf skip x] := fun _ _ => hnone _ rfl
  have hjump : ∀ x, CallsMade site [.jump x] := fun _ => hnone _ rfl
  have hquiet : ∀ l : Line, l.Quiet → CallsMade site [l] := by
    intro l hl
    refine callsMade_of_forall (forall_mem_singleton.2 ?_)
    rintro x rfl
    cases hl.stack
  induction h with
  | nil | temp | bind | enter | leave => exact callsMade_of_isCall (forall_mem_nil _)
  | append _ _ ih ih' | stack _ _ ih ih' => exact ih.append ih'
  | plain h => exact hquiet _ h.toQuiet
  | slot _ h => exact hquiet _ h.toQuiet
  | text | push | reserve => exact hnone _ rfl
  | routine r =>
    refine callsMade_of_forall (forall_mem_singleton.2 fun x hx => r.label_ne_functionLabel x ?_)
    simpa [Line.call] using hx
  | pop _ _ _ ih => exact ih.append (hnone _ rfl)
  | call _ hsig hn hcall ih =>
    subst hn
    exact ih.call hsig hcall
  | jump => exact hjump _
  | logic _ _ _ ihl ihr =>
    have htest : CallsMade site [.test .rax] := hnone _ rfl
    exact ((ihl.append (htest.append (hjumpIf _ _))).append ihr).append (hlabel _)
  | cond _ _ _ ih1 ih2 ih3 =>
    exact ((((ih1.append (hjumpIf _ _)).append ih2).append ((hjump _).append (hlabel _))).append
      ih3).append (hlabel _)
  | loop _ _ _ _ ih1 ih2 ih3 ih4 =>
    exact ((((((ih1.append (hlabel _)).append ih2).append (hjumpIf _ _)).append ih3).append
      (hlabel _)).append ih4).append ((hjump _).append (hlabel _))

end

/-! ## Where the caller puts arguments -/

/-- The block puts the value of the expression on the stack, as an argument of the given type, and when it
ends, the argument starts `depth` bytes above the top of the stack: this is how much the stack has grown
since, on every way through the block, in which every change of the stack pointer is counted. -/
def PutsArg (site : Site) (c : Block) (e : Expr) (ty : Ty) (depth : Int) : Prop :=
  ∃ before value after s s' low,
    c = before ++ value ++ storeArg site.symbols ty ++ after ∧
    (lower site e).value s = (.ok value, s') ∧ (∀ l ∈ c, l.isCounted = true) ∧
    Block.Always c (before ++ value ++ storeArg site.symbols ty).length low ∧
    Block.Always c c.length (low + depth)

variable {site : Site} {s s' : Emission}

theorem putsArg_of_piece {e : Expr} {ty : Ty} {before value after : Block} {s1 s2 s3 : Emission} {k : Nat}
    (hvalue : (lower site e).value s1 = (.ok value, s2))
    (h : Piece site [] s (before ++ value ++ storeArg site.symbols ty) n s3)
    (h' : Piece site [] s3 after k s') :
    PutsArg site (before ++ value ++ storeArg site.symbols ty ++ after) e ty k := by
  have hboth : Piece site [] s _ (n + k) s' := h.stack h'
  have hend := hboth.always_end
  rw [Int.natCast_add] at hend
  have hcounted := (linewise_isCounted site).of_piece hboth trivial
  exact ⟨before, value, after, s1, s2, n, rfl, hvalue, hcounted, h.always_between h', hend⟩

/-- The code for some arguments in two parts, the second of which is for the arguments behind a given one. -/
theorem of_pushArgs_append (hsite : site.Sound) {front back : List (Lowered × Ty)} {l : Lowered} {t : Ty}
    (h : ∀ a ∈ front ++ (l, t) :: back, Makes site [] a.1.value ∧ a.2.Defined site.symbols.kind)
    {pos : Position} {code : Block} (hs : s.frame.Bounded)
    (hcode : pushArgs site pos (front ++ (l, t) :: back) s = (.ok (code, n), s')) :
    ∃ before value after s1 s2 k, code = before ++ value ++ storeArg site.symbols t ++ after ∧
      l.value s1 = (.ok value, s2) ∧
      Piece site [] s (before ++ value ++ storeArg site.symbols t) k s2 ∧
      Piece site [] s2 after (back.map fun a => site.symbols.pushed a.2).sum s' := by
  induction front generalizing s code n with
  | nil =>
    obtain ⟨hmakes, ht⟩ := h (l, t) mem_cons_self
    obtain ⟨value, s1, more, k, hvalue, hmore, rfl, -⟩ := of_pushArgs hsite ht hcode
    have hfirst := hmakes hs hvalue
    have hrest := piece_pushArgs hsite (fun a ha => h a (mem_cons_of_mem _ ha))
      (hfirst.bounded hs).1 hmore
    exact ⟨[], value, more, s, s1, _, rfl, hvalue, hfirst.append (piece_storeArg t), hrest.2 ▸ hrest.1⟩
  | cons a front ih =>
    obtain ⟨hmakes, ht⟩ := h a mem_cons_self
    obtain ⟨value, s1, more, k, hvalue, hmore, rfl, -⟩ := of_pushArgs hsite ht hcode
    have hfirst := (hmakes hs hvalue).append (piece_storeArg a.2)
    obtain ⟨before, inner, after, s2, s3, m, rfl, hinner, hpushed, hafter⟩ :=
      ih (fun a ha => h a (mem_cons_of_mem _ ha)) (hfirst.bounded hs).1 hmore
    refine ⟨value ++ storeArg site.symbols a.2 ++ before, inner, after, s2, s3, _, ?_, hinner,
      (hfirst.stack hpushed).of_eq ?_, hafter⟩
    · simp
    · simp

theorem reverse_of_getElem? {α : Type} {xs : List α} {i : Nat} {a : α} (h : xs[i]? = some a) :
    xs.reverse = (xs.drop (i + 1)).reverse ++ a :: (xs.take i).reverse := by
  obtain ⟨hi, rfl⟩ := List.getElem?_eq_some_iff.1 h
  conv_lhs => rw [← take_append_drop i xs, drop_eq_getElem_cons hi]
  simp

theorem of_pushResult (hsite : site.Sound) {t : Ty} (ht : t.Defined site.symbols.kind)
    (hagg : t.isAggregate = true) {pos : Position} {code : Block}
    (h : pushResult site pos t s = (.ok (code, n), s')) :
    ∃ d, code = [.lea (slot d) .rax, .push .rax] := by
  rw [pushResult, if_pos hagg] at h
  obtain ⟨size, -, h1⟩ := hsite.of_sizeOf ht h
  cases h1
  exact ⟨_, rfl⟩

/-- What is pushed for an argument lies above what is pushed after it. -/
theorem CallOf.putsArg (hsite : site.Sound) {x : String} {sig : Signature} {es : List Expr} {pushes : Block}
    (hsig : site.symbols.funcs.get? x = some sig)
    (h : CallOf site x es s
      (pushes ++ [Line.call (functionLabel x)] ++ dropBytes (site.symbols.pushedFor sig))) :
    es.length = sig.params.length ∧
      (∀ i p e, sig.params[i]? = some p → es[i]? = some e →
        PutsArg site pushes e p.2 (site.symbols.below sig i)) ∧
      (sig.ret.isAggregate = true → ∃ args d, pushes = args ++ [.lea (slot d) .rax, .push .rax]) := by
  obtain ⟨hs, m, m', Γ, s', htyped, hcode⟩ := h
  cases htyped.node.rule with
  | call _ hsig' hfits hm =>
    obtain rfl : sig = _ := Option.some.inj (hsig.symm.trans hsig')
    have hret : sig.ret.Defined site.symbols.kind := (hsite.complete.funcs hsig).ret
    have hmade : ∀ e ∈ es, Makes site [] (lower site e).value := fun e he =>
      makes_value hsite (htyped.child he)
    obtain ⟨args, n, s1, result, k, hargs, hresult, hfirst, hsecond, hn, heq⟩ :=
      of_call hsite hm hsig hfits.length_eq hmade hs hcode
    have hk := (piece_pushResult hsite hret (hfirst.bounded hs).1 hresult).2
    rw [hn] at heq
    obtain rfl := append_cancel_right (append_cancel_right heq)
    refine ⟨hfits.length_eq, fun i p e hp he => ?_, fun hagg => ?_⟩
    · -- Behind the argument `i`, the arguments before it are pushed in reverse order.
      have hget : ((es.map (lower site)).zip (sig.params.map (·.2)))[i]? = some (lower site e, p.2) := by
        simp [getElem?_zip_eq_some, hp, he]
      have hreverse := reverse_of_getElem? hget
      have hmakes := makes_args hsite hsig hmade
      rw [hreverse] at hmakes hargs
      obtain ⟨before, value, after, s2, s3, k', rfl, hvalue, hpushed, hafter⟩ :=
        of_pushArgs_append hsite hmakes hs hargs
      have hputs := putsArg_of_piece hvalue hpushed (hafter.stack hsecond)
      rw [sum_pushed site hfits.length_eq, hk, ← append_assoc] at hputs
      exact hputs
    · obtain ⟨d, rfl⟩ := of_pushResult hsite hret hagg hresult
      exact ⟨args, d, rfl⟩

end Code

/-! ## Where the callee looks for arguments -/

/-- Slots lie side by side, each behind the spans before it. -/
theorem Frame.getElem?_sideBySide {args : List (String × Ty × Nat)} {offset : Int}
    (hoffset : offset ≤ maxOffset) {i : Nat} {a : String × Ty × Nat} (ha : args[i]? = some a) :
    (sideBySide offset args)[i]? = some (a.1, ⟨a.2.1, true,
      min (offset + ((args.take i).map fun b => span b.2.2).sum) maxOffset, none⟩) := by
  induction args generalizing offset i with
  | nil => cases ha
  | cons arg args ih =>
    obtain ⟨x, ty, size⟩ := arg
    cases i with
    | zero =>
      obtain rfl := Option.some.inj ha
      simp [sideBySide, Int.min_eq_left hoffset]
    | succ i =>
      have hsum : 0 ≤ ((args.take i).map fun b => span b.2.2).sum := by
        refine sum_nonneg fun d hd => ?_
        obtain ⟨b, -, rfl⟩ := mem_map.1 hd
        exact span_nonneg b.2.2
      have hspan := span_nonneg size
      rw [sideBySide, getElem?_cons_succ, ih (Int.min_le_right _ _) ha, take_succ_cons,
        map_cons, sum_cons]
      dsimp only
      congr 3
      omega

namespace Code

variable {x : String} {sig : Signature} {fc : FunctionCode} {pool : Pool}

/-- The slots of the parameters lie side by side above the return address. -/
theorem Built.getElem?_slots
    (h : Built t x sig fc pool) (hdistinct : (sig.params.map (·.1)).Nodup) {i : Nat} {p : String × Ty}
    (hp : sig.params[i]? = some p) :
    fc.slots[i]? = some (p.1, ⟨p.2, true, min ((if sig.ret.isAggregate then 24 else 16) +
      ((sig.params.take i).map fun q => Frame.span ((t.size? q.2).getD 0)).sum) maxOffset, none⟩) := by
  obtain ⟨start, s', body, hstart, -, hpiece, -, -, hslots, -⟩ := h
  have hnames : ((t.sized sig.params).map (·.1)) = sig.params.map (·.1) := by
    simp [sized]
  have hbase : (if sig.ret.isAggregate then 24 else 16 : Int) ≤ maxOffset := by
    split <;> decide
  have hnew : ∀ a ∈ t.sized sig.params, Assoc.has a.1 ([] : Assoc Slot) = false := fun _ _ => rfl
  -- The arguments are the first slots to get a name.
  obtain ⟨more, hmore⟩ := hpiece.tracks tracks_named
  have hnamed : start.frame.named =
      sideBySide (if sig.ret.isAggregate then 24 else 16) (t.sized sig.params) := by
    rw [hstart]
    exact argSlots_eq (hnames ▸ hdistinct) hnew
  have harg : (t.sized sig.params)[i]? = some (p.1, p.2, (t.size? p.2).getD 0) := by
    simp [sized, hp]
  have hi := getElem?_sideBySide hbase harg
  obtain ⟨hlt, -⟩ := List.getElem?_eq_some_iff.1 hi
  rw [hslots, ← hmore, hnamed, getElem?_append_left hlt, hi]
  simp [sized, ← map_take, Function.comp_def]

/-- Every call in the code of a function is made by the rules. -/
theorem Built.callsMade
    (h : Built t x sig fc pool) : CallsMade ⟨t, x, sig.ret⟩ fc.code := by
  obtain ⟨start, s', body, -, -, hpiece, -, -, -, hcode⟩ := h
  have hfirst : CallsMade ⟨t, x, sig.ret⟩ ([Line.label (functionLabel x)] ++ prologue fc.frame) := by
    refine callsMade_of_isCall fun l hl => ?_
    rcases mem_append.1 hl with hl | hl
    · rw [mem_singleton.1 hl]
      rfl
    · rcases mem_prologue hl with rfl | rfl | rfl <;> rfl
  have hlast : CallsMade ⟨t, x, sig.ret⟩
      ([Line.const 0 .rax, .label (Site.mk t x sig.ret).returnLabel] ++ epilogue) := by
    refine callsMade_of_isCall fun l hl => ?_
    simp only [mem_append, mem_cons, not_mem_nil, or_false] at hl
    rcases hl with (rfl | rfl) | hl
    · rfl
    · rfl
    · rcases mem_epilogue hl with rfl | rfl | rfl <;> rfl
  rw [hcode, append_assoc]
  exact (hfirst.append hpiece.callsMade).append hlast

theorem Built.prefix_code
    (h : Built t x sig fc pool) :
    [.label (functionLabel x), .push .rbp, .copy .rsp .rbp] <+: fc.code := by
  obtain ⟨-, -, body, -, -, -, -, -, -, hcode⟩ := h
  rw [hcode, prologue]
  split <;> simp

end Code

/-! ## Both sides -/

/-- Two rules for the size of an argument: they differ for `void` only. -/
theorem Symbols.span_eq_pushed_iff (hpacked : Packed t.memo.layouts) {type : TypeExpr} {ty : Ty}
    (hwritten : type.Written) (h : type.Means t.kind ty) :
    Frame.span ((t.size? ty).getD 0) ≤ t.pushed ty ∧
      (Frame.span ((t.size? ty).getD 0) = t.pushed ty ↔ ty ≠ .void) := by
  have hsame : Frame.span ((t.size? ty).getD 0) = t.pushed ty → ty ≠ .void →
      Frame.span ((t.size? ty).getD 0) ≤ t.pushed ty ∧
        (Frame.span ((t.size? ty).getD 0) = t.pushed ty ↔ ty ≠ .void) :=
    fun heq hne => ⟨heq.le, iff_of_true heq hne⟩
  have haggregate : ty.isAggregate = true → Frame.span ((t.size? ty).getD 0) = t.pushed ty := by
    intro hagg
    rw [pushed, if_pos hagg]
    have hsize : (t.size? ty).getD 0 ≤ maxObject := by
      cases hn : t.size? ty with
      | none => exact Nat.zero_le _
      | some n => exact hpacked.size_le hagg hn
    unfold Frame.span round8 maxSize maxOffset
    unfold maxObject at hsize
    omega
  have hword : ∀ n, 0 < n → n ≤ 8 → Frame.span n = (8 : Nat) := by
    intro n hpos hle
    unfold Frame.span round8 maxSize maxOffset
    omega
  cases h with
  | int =>
    rcases hwritten with rfl | rfl
    · exact hsame (hword 8 (by decide) (by decide)) (by simp)
    · exact hsame (hword 2 (by decide) (by decide)) (by simp)
  | char | bool => exact hsame (hword 1 (by decide) (by decide)) (by simp)
  | str | ptr | enum => exact hsame (hword 8 (by decide) (by decide)) (by simp)
  | struct | array => exact hsame (haggregate rfl) (by simp)
  | void =>
    have hzero : Frame.span ((t.size? .void).getD 0) = 0 := by
      show Frame.span 0 = 0
      decide
    have height : t.pushed .void = 8 := rfl
    rw [hzero, height]
    decide

/-- The callee reserves as much as is pushed, unless there is a `void` among the types. -/
theorem Symbols.sum_span_eq_iff (hpacked : Packed t.memo.layouts) {params : List (String × Ty)}
    (h : ∀ p ∈ params, ∃ type : TypeExpr, type.Written ∧ type.Means t.kind p.2) :
    (params.map fun p => Frame.span ((t.size? p.2).getD 0)).sum ≤ (params.map fun p => t.pushed p.2).sum ∧
      ((params.map fun p => Frame.span ((t.size? p.2).getD 0)).sum = (params.map fun p => t.pushed p.2).sum ↔
        ∀ p ∈ params, p.2 ≠ .void) := by
  induction params with
  | nil => simp
  | cons p params ih =>
    obtain ⟨type, hwritten, hmeans⟩ := h p mem_cons_self
    obtain ⟨hle, heq⟩ := span_eq_pushed_iff hpacked hwritten hmeans
    obtain ⟨hles, heqs⟩ := ih fun p hp => h p (mem_cons_of_mem _ hp)
    rw [map_cons, map_cons, sum_cons, sum_cons, forall_mem_cons, ← heq, ← heqs]
    omega

namespace Compile

variable {x : String} {front : Frontend}

/-- The types of the parameters of a program that is read can be written. -/
theorem written_of_frontend {code : String} (h : frontend code = .ok front)
    {sig : Signature} (hsig : front.symbols.funcs.get? x = some sig) :
    (sig.params.map (·.1)).Nodup ∧
      ∀ p ∈ sig.params, ∃ type : TypeExpr, type.Written ∧ type.Means front.symbols.kind p.2 := by
  obtain ⟨p, c, hp, hc, hsymbols, -⟩ := of_frontend h
  rw [hsymbols] at hsig ⊢
  obtain ⟨d, hd, f, -, hbody, hof⟩ := (defines_of_ofProgram (ofProgram_of_check hc)).1 x sig hsig
  have hparse : parseSource code = .ok p := by
    unfold parse at hp
    split at hp
    · next q hq => rwa [Except.ok.inj hp] at hq
    · cases hp
  refine ⟨hof.distinct, fun q hq => ?_⟩
  obtain ⟨param, hparam, -, hmeans⟩ := forall₂_left hof.params.flip hq
  have hread := Parser.read_of_parseSource (P := fun _ => True) (fun _ _ => trivial) hparse d hd
  exact ⟨param.2, (hread.body f hbody).params param hparam, hmeans⟩

/-- At a call of a function in the code of an accepted program, each argument lies as many bytes above the
top of the stack as there are below it, and the address for a result lies on the top. In the callee each
argument has a slot, behind the slots of the arguments before it. -/
theorem call_of_generate {code : String} {a : Assembly}
    (h : frontend code = .ok front) (ha : generate front = .ok a) {y : String} {caller : FunctionCode}
    (hy : (y, caller) ∈ a.funcs) {before after : Block}
    (hcall : caller.code = before ++ .call (functionLabel x) :: after) :
    ∃ (site : Site) (sig : Signature) (callee : FunctionCode) (es : List Expr) (s : Emission)
      (pushes : Block),
      site.symbols = front.symbols ∧ front.symbols.funcs.get? x = some sig ∧ (x, callee) ∈ a.funcs ∧
      [.label (functionLabel x), .push .rbp, .copy .rsp .rbp] <+: callee.code ∧
      CallOf site x es s (pushes ++ [Line.call (functionLabel x)] ++
        dropBytes (front.symbols.pushedFor sig)) ∧
      pushes <:+ before ∧ es.length = sig.params.length ∧
      (∀ i p e, sig.params[i]? = some p → es[i]? = some e →
        PutsArg site pushes e p.2 (front.symbols.below sig i) ∧
        callee.slots[i]? = some (p.1, ⟨p.2, true, min ((if sig.ret.isAggregate then 24 else 16) +
          ((sig.params.take i).map fun q => Frame.span ((front.symbols.size? q.2).getD 0)).sum)
          maxOffset, none⟩)) ∧
      (sig.ret.isAggregate = true → ∃ args d, pushes = args ++ [.lea (slot d) .rax, .push .rax]) := by
  obtain ⟨hall, hnames⟩ := built_of_generate h ha
  obtain ⟨caller', -, hcaller⟩ := hall.built (y, caller) hy
  obtain ⟨sig, es, s, pushes, hsig, hof, hsuffix⟩ := hcaller.callsMade before x after hcall
  have hsite : (Code.Site.mk front.symbols y caller'.ret).Sound :=
    ⟨(wellTyped_of_frontend h).1, packed_of_frontend h⟩
  obtain ⟨hlength, hputs, hresult⟩ := hof.putsArg hsite hsig
  have hx : front.symbols.funcs.has x = true := by
    rw [Assoc.has, hsig]
    rfl
  obtain ⟨⟨x, callee⟩, hmem, rfl⟩ := mem_map.1 (hnames x hx)
  obtain ⟨sig', hsig', hbuilt⟩ := hall.built _ hmem
  obtain rfl : sig = sig' := Option.some.inj (hsig.symm.trans hsig')
  refine ⟨_, sig, callee, es, s, pushes, rfl, hsig, hmem, hbuilt.prefix_code, hof, hsuffix, hlength,
    fun i p e hp he => ⟨hputs i p e hp he, ?_⟩, hresult⟩
  exact hbuilt.getElem?_slots (written_of_frontend h hsig).1 hp

/-- At a call of a function in the code of an accepted program, the arguments lie on the stack in order,
and the address for a result that is an aggregate lies on the top, that is, 16 bytes above the frame pointer
of the callee, behind the return address and the frame pointer of the caller. The slot that an argument has
in the callee is where the argument lies, unless there is an argument of type `void` before it or the offset
is out of range. -/
theorem argument_offset_iff {code : String} {front : Frontend} {a : Assembly}
    (h : frontend code = .ok front) (ha : generate front = .ok a) {y : String} {caller : FunctionCode}
    (hy : (y, caller) ∈ a.funcs) {x : String} {before after : Block}
    (hcall : caller.code = before ++ .call (Code.functionLabel x) :: after) :
    ∃ (site : Code.Site) (sig : Signature) (callee : FunctionCode) (es : List Expr) (s : Code.Emission)
      (pushes : Block),
      site.symbols = front.symbols ∧ front.symbols.funcs.get? x = some sig ∧ (x, callee) ∈ a.funcs ∧
      [.label (Code.functionLabel x), .push .rbp, .copy .rsp .rbp] <+: callee.code ∧
      Code.CallOf site x es s (pushes ++ [.call (Code.functionLabel x)] ++
        Code.dropBytes (front.symbols.pushedFor sig)) ∧
      pushes <:+ before ∧ es.length = sig.params.length ∧
      (∀ i p e, sig.params[i]? = some p → es[i]? = some e →
        Code.PutsArg site pushes e p.2 (front.symbols.below sig i) ∧
        ∃ slot, callee.slots[i]? = some (p.1, slot) ∧
          (slot.offset = 16 + front.symbols.below sig i ↔
            (∀ q ∈ sig.params.take i, q.2 ≠ .void) ∧
              16 + front.symbols.below sig i ≤ Frame.maxOffset)) ∧
      (sig.ret.isAggregate = true → ∃ args d, pushes = args ++ [.lea (Code.slot d) .rax, .push .rax]) := by
  obtain ⟨site, sig, callee, es, s, pushes, hsite, hsig, hmem, hprologue, hof, hsuffix, hlength, hargs,
    hresult⟩ := call_of_generate h ha hy hcall
  refine ⟨site, sig, callee, es, s, pushes, hsite, hsig, hmem, hprologue, hof, hsuffix, hlength,
    fun i p e hp he => ?_, hresult⟩
  obtain ⟨hputs, hslot⟩ := hargs i p e hp he
  refine ⟨hputs, _, hslot, ?_⟩
  have hwritten := (written_of_frontend h hsig).2
  have hfirst : ∀ q ∈ sig.params.take i, ∃ type : TypeExpr, type.Written ∧
      type.Means front.symbols.kind q.2 := fun q hq => hwritten q (mem_of_mem_take hq)
  obtain ⟨hle, heq⟩ := sum_span_eq_iff (packed_of_frontend h) hfirst
  have hbelow : ((if sig.ret.isAggregate then 24 else 16 : Int)) =
      16 + (if sig.ret.isAggregate then 8 else 0 : Nat) := by
    split <;> rfl
  rw [← heq, below, hbelow, Int.natCast_add]
  dsimp only
  omega

/-- Runs a test on a program with a call in its main function. -/
theorem exists_call_of_testCode (code x : String) (test : Symbols → Bool)
    (h : testCode code (fun front a => test front.symbols && (a.funcs.get? "main").any fun fc =>
      decide (.call (functionLabel x) ∈ fc.code)) = true) :
    ∃ front a caller before after, frontend code = .ok front ∧ generate front = .ok a ∧
      ("main", caller) ∈ a.funcs ∧ caller.code = before ++ .call (functionLabel x) :: after ∧
      test front.symbols = true := by
  obtain ⟨front, a, hfront, ha, hboth⟩ := exists_of_testCode code _ h
  rw [Bool.and_eq_true, Option.any_eq_true] at hboth
  obtain ⟨htest, caller, hcaller, hcall⟩ := hboth
  obtain ⟨before, after, hcode⟩ := append_of_mem (of_decide_eq_true hcall)
  exact ⟨front, a, caller, before, after, hfront, ha, Assoc.mem_of_get? hcaller, hcode, htest⟩

/-- A program with a function that gets an array by value and returns one. -/
def arrays : String :=
  "const f := fn (a: [3]char, n: short?) [3]char \x7b return a; \x7d;
  const main := fn () int! \x7b have a: [3]char; have b: [3]char = f(a, 2); return 0; \x7d;"

theorem argument_offset_iff_arrays :
    ∃ front a caller before after, frontend arrays = .ok front ∧ generate front = .ok a ∧
      ("main", caller) ∈ a.funcs ∧ caller.code = before ++ .call (Code.functionLabel "f") :: after ∧
      ∃ site callee pushes e slot, pushes <:+ before ∧ ("f", callee) ∈ a.funcs ∧
        Code.PutsArg site pushes e (.int 16 true) 16 ∧ callee.slots[1]? = some ("n", slot) ∧
        slot.offset = 16 + 16 := by
  obtain ⟨front, a, caller, before, after, hfront, ha, hcaller, hcall, htest⟩ :=
    exists_call_of_testCode arrays "f" (fun t =>
      let sig : Signature := ⟨[("a", .array 3 .char), ("n", .int 16 true)], .array 3 .char⟩
      decide (t.funcs.get? "f" = some sig) && t.below sig 1 == 16) (by decide +kernel)
  rw [Bool.and_eq_true, decide_eq_true_eq, beq_iff_eq] at htest
  obtain ⟨site, sig, callee, es, s, pushes, -, hsig, hcallee, -, -, hsuffix, hlength, hargs, -⟩ :=
    argument_offset_iff hfront ha hcaller hcall
  obtain rfl := Option.some.inj (htest.1.symm.trans hsig)
  obtain ⟨e0, e, rfl⟩ := length_eq_two.1 hlength
  obtain ⟨hputs, slot, hslot, hoffset⟩ := hargs 1 ("n", .int 16 true) e rfl rfl
  rw [htest.2] at hputs hoffset
  exact ⟨front, a, caller, before, after, hfront, ha, hcaller, hcall, site, callee, pushes, e, slot, hsuffix,
    hcallee, hputs, hslot, hoffset.2 (by decide)⟩

/-- A program with an argument of type `void`. -/
def voidArgument : String :=
  "const g := fn () void \x7b return; \x7d;
const f := fn (v: void, x: int!) int! \x7b return x; \x7d;
const main := fn () int! \x7b return f(g(), 5); \x7d;"

/-- A word is pushed for an argument of type `void`, but the callee has no room for it: the argument behind
it is looked for in the wrong place. -/
theorem exists_argument_offset_ne :
    ∃ front a caller before after, frontend voidArgument = .ok front ∧ generate front = .ok a ∧
      ("main", caller) ∈ a.funcs ∧ caller.code = before ++ .call (Code.functionLabel "f") :: after ∧
      ∃ site callee pushes e slot, pushes <:+ before ∧ ("f", callee) ∈ a.funcs ∧
        Code.PutsArg site pushes e (.int 64 false) 8 ∧ callee.slots[1]? = some ("x", slot) ∧
        slot.offset = 16 ∧ slot.offset ≠ 16 + 8 := by
  obtain ⟨front, a, caller, before, after, hfront, ha, hcaller, hcall, htest⟩ :=
    exists_call_of_testCode voidArgument "f" (fun t => decide (t.funcs.get? "f" =
      some ⟨[("v", .void), ("x", .int 64 false)], .int 64 false⟩)) (by decide +kernel)
  obtain ⟨site, sig, callee, es, s, pushes, -, hsig, hcallee, -, -, hsuffix, hlength, hargs, -⟩ :=
    call_of_generate hfront ha hcaller hcall
  obtain rfl := Option.some.inj ((of_decide_eq_true htest).symm.trans hsig)
  obtain ⟨e0, e, rfl⟩ := length_eq_two.1 hlength
  obtain ⟨hputs, hslot⟩ := hargs 1 ("x", .int 64 false) e rfl rfl
  have hoffset : min ((16 : Int) + [Frame.span 0].sum) maxOffset = 16 := by decide
  exact ⟨front, a, caller, before, after, hfront, ha, hcaller, hcall, site, callee, pushes, e, _, hsuffix,
    hcallee, hputs, hslot, hoffset, hoffset.trans_ne (by decide)⟩

end Compile

end Sigil
