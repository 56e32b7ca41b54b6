import Sigil.Proofs.Emission.Labels

/-!
# The stack in pieces

Every line of a piece is met at one height of the stack (`Code.Piece.levels`), and control can get through
a piece that does not jump out (`Code.Piece.crosses`). Parts that jump out do so with nothing on the stack,
so the height is the same on every way to a label. Every change of the stack pointer in a piece is counted
(`Code.linewise_isCounted`).
-/

namespace Sigil

open List

open Machine (Block Label Levels Line)

variable {l : Line}

theorem Machine.Line.Quiet.goto?_eq_none (h : l.Quiet) : l.goto? = none := by
  have htargets := h.targets
  cases l with
  | instr i =>
    cases i with
    | jump | jumpIf => cases htargets
    | _ => rfl
  | _ => rfl

theorem Machine.Line.Quiet.passes_eq_true (h : l.Quiet) : l.passes = true := by
  have htargets := h.targets
  have hstack := h.stack
  cases l with
  | instr i =>
    cases i with
    | jump => cases htargets
    | ret => cases hstack
    | _ => rfl
  | _ => rfl

namespace Code

variable {outs : List Label} {site : Site} {c : Block} {n : Nat}

theorem levels_quiet (h : l.Quiet) : Levels outs [l] 0 := by
  have hline : Levels outs [l] l.growth := .line fun x hx => nomatch h.goto?_eq_none.symm.trans hx
  rwa [Line.growth_of_sparesFrame h.stack] at hline

theorem levels_dropBytes (n : Nat) : Levels [] (dropBytes n) (-n) := by
  unfold dropBytes
  split
  · next h =>
    rw [h]
    exact .nil
  · exact .line fun _ hx => nomatch hx

/-- Every line of a piece is met at one height. -/
theorem Piece.levels {s s' : Emission}
    (h : Piece site outs s c n s') : Levels outs c n := by
  have hjump : ∀ {outs : List Label} {l}, l ∈ outs → Levels outs [.jump l] 0 := by
    intro outs l hl
    exact .line fun x hx => Option.some.inj hx ▸ hl
  have hjumpIf : ∀ {outs : List Label} {l} c, l ∈ outs → Levels outs [.jumpIf c l] 0 := by
    intro outs l c hl
    exact .line fun x hx => Option.some.inj hx ▸ hl
  induction h with
  | nil | temp | bind | enter | leave => exact .nil
  | append _ _ ih ih' => exact ih.andThen ih'
  | stack _ _ ih ih' =>
    rw [Int.natCast_add]
    exact (ih.append ih' fun _ hx => nomatch hx).mono (nil_subset _)
  | plain h => exact levels_quiet h.toQuiet
  | slot _ h => exact levels_quiet h.toQuiet
  | text | routine | push | reserve => exact .line fun _ hx => nomatch hx
  | @pop _ _ _ _ _ _ _ r _ ih =>
    have hpop : Levels [] [.pop r] (-(8 : Nat)) := .line fun _ hx => nomatch hx
    have hpopped := ih.append hpop fun _ hx => nomatch hx
    rwa [Int.natCast_add, Int.add_neg_cancel_right] at hpopped
  | @call _ _ _ _ n x _ _ _ _ _ _ ih =>
    have hcall : Levels [] [.call (functionLabel x)] 0 := .line fun _ hx => nomatch hx
    have hcalled := (ih.append hcall fun _ hx => nomatch hx).append (levels_dropBytes n)
      fun _ hx => nomatch hx
    rwa [Int.add_zero, Int.add_right_neg] at hcalled
  | jump hl => exact hjump hl
  | @logic outs s _ _ l r skip _ _ ihl ihr =>
    have hout := subset_cons_self (site.numbered "logic" (s.labels + 1)) outs
    have htest : Line.Plain (.test .rax) := by decide
    have hskip := ((ihl.mono hout).andThen (levels_quiet htest.toQuiet)).andThen
      (hjumpIf skip mem_cons_self)
    have hlogic := (hskip.andThen (ihr.mono hout)).enclose .nil
    simpa using hlogic
  | @cond outs s _ _ _ test yes no _ _ _ ih1 ih2 ih3 =>
    have hend := subset_cons_self (site.numbered "endif" (s.labels + 2)) outs
    have hin := List.Subset.trans hend (subset_cons_self (site.numbered "else" (s.labels + 1)) _)
    have hyes := ((ih1.mono hin).andThen (hjumpIf .e mem_cons_self)).andThen (ih2.mono hin)
    have hdone := hyes.andThen (hjump (mem_cons_of_mem _ mem_cons_self))
    have helse := (hdone.enclose (ih3.mono hin)).enclose .nil
    simpa using helse
  | @loop outs s _ _ _ _ init test body post _ _ _ _ ih1 ih2 ih3 ih4 =>
    -- The end of the loop is closed last, the next round first.
    have hend := subset_cons_self (site.numbered "endloop" (s.labels + 3)) outs
    have hin := List.Subset.trans hend (subset_cons_self (site.numbered "loop" (s.labels + 1)) _)
    have hround : site.numbered "next" (s.labels + 2) :: site.numbered "endloop" (s.labels + 3) :: outs ⊆
        site.numbered "next" (s.labels + 2) :: site.numbered "loop" (s.labels + 1) ::
          site.numbered "endloop" (s.labels + 3) :: outs :=
      cons_subset_cons _ (subset_cons_self _ _)
    have hnext := (ih3.mono hround).enclose (ih4.mono hround)
    have hdone := (ih2.mono hin).andThen (hjumpIf .e (mem_cons_of_mem _ mem_cons_self))
    have hback := (hdone.andThen hnext).andThen (hjump mem_cons_self)
    have hloop := ((ih1.mono hin).enclose hback).enclose .nil
    simpa using hloop

theorem crosses_quiet (h : l.Quiet) : Block.Crosses [l] 0 :=
  Line.growth_of_sparesFrame h.stack ▸ Block.crosses_line h.passes_eq_true

theorem crosses_dropBytes (n : Nat) : Block.Crosses (dropBytes n) (-n) := by
  unfold dropBytes
  split
  · next h =>
    rw [h]
    exact Block.crosses_nil
  · exact Block.crosses_line rfl

/-- A piece that does not jump out can be passed through. -/
theorem Piece.crosses {s s' : Emission}
    (h : Piece site outs s c n s') (houts : outs = []) : Block.Crosses c n := by
  have hlabel : ∀ x : Label, Block.Crosses [.label x] 0 := fun _ => Block.crosses_line rfl
  induction h with
  | nil | temp | bind | enter | leave => exact Block.crosses_nil
  | append _ _ ih ih' =>
    have happend := (ih houts).append (ih' houts)
    rwa [Int.natCast_zero, Int.zero_add] at happend
  | stack _ _ ih ih' =>
    rw [Int.natCast_add]
    exact (ih rfl).append (ih' rfl)
  | plain h => exact crosses_quiet h.toQuiet
  | slot _ h => exact crosses_quiet h.toQuiet
  | text | routine | push | reserve => exact Block.crosses_line rfl
  | @pop _ _ _ _ _ _ _ r _ ih =>
    have hpop : Block.Crosses [.pop r] (-(8 : Nat)) := Block.crosses_line rfl
    have hpopped := (ih houts).append hpop
    rwa [Int.natCast_add, Int.add_neg_cancel_right] at hpopped
  | @call _ _ _ _ n x _ _ _ _ _ _ ih =>
    have hcall : Block.Crosses [.call (functionLabel x)] 0 := Block.crosses_line rfl
    have hcalled := ((ih houts).append hcall).append (crosses_dropBytes n)
    rwa [Int.add_zero, Int.add_right_neg] at hcalled
  | jump hl =>
    rw [houts] at hl
    cases hl
  | @logic outs s _ _ l r skip _ _ ihl ihr =>
    have htest : Block.Crosses [.test .rax, .jumpIf skip (site.numbered "logic" (s.labels + 1))] 0 :=
      (Block.crosses_line rfl).append (Block.crosses_line rfl)
    exact (((ihl houts).append htest).append (ihr houts)).append (Block.crosses_line rfl)
  | @cond outs s _ _ _ test yes no _ _ _ ih1 ih2 ih3 =>
    -- The way over the first branch.
    have helse := (ih1 houts).skip (l := .jumpIf .e (site.numbered "else" (s.labels + 1))) rfl
      (yes ++ [Line.jump (site.numbered "endif" (s.labels + 2))])
      ((ih3 houts).append (hlabel (site.numbered "endif" (s.labels + 2))))
    simpa using helse
  | @loop outs s _ _ _ _ init test body post _ _ _ _ ih1 ih2 ih3 ih4 =>
    -- The way out of the loop before its first round.
    have hhead := ((ih1 houts).append (hlabel (site.numbered "loop" (s.labels + 1)))).append (ih2 houts)
    have hdone := hhead.skip (l := .jumpIf .e (site.numbered "endloop" (s.labels + 3))) rfl
      (body ++ [Line.label (site.numbered "next" (s.labels + 2))] ++ post ++
        [Line.jump (site.numbered "loop" (s.labels + 1))]) Block.crosses_nil
    simpa using hdone

/-- No line of a piece changes the stack pointer in a way that is not counted. -/
theorem linewise_isCounted (site : Site) :
    Linewise site (fun _ => True) fun _ _ _ _ l => l.isCounted = true where
  keeps _ _ := trivial
  later _ _ _ _ _ _ hl := hl
  wider hl _ _ := hl
  outer hl := hl
  inner hl _ _ := hl
  plain h := Line.isCounted_of_sparesFrame h.stack
  slot _ _ h := Line.isCounted_of_sparesFrame h.stack
  text _ _ _ _ := rfl
  routine _ _ _ _ := rfl
  push _ _ _ _ := rfl
  reserve _ _ _ _ := rfl
  pop _ _ _ _ _ hr := bne_iff_ne.2 hr
  popped hl _ := hl
  call := by
    intro _ _ x sig code _ _ l hl
    rcases mem_cons.1 hl with rfl | hl
    · rfl
    · rw [mem_dropBytes hl]
      rfl
  called hl _ _ := hl
  jump _ := rfl
  jumpIf _ _ := rfl
  label _ _ _ _ := rfl

section

variable {site : Site} {s s1 s' : Emission} {c c' : Block} {n k : Nat}

/-- Between two pieces the stack is always at the height of the first. -/
theorem Piece.always_between (h : Piece site [] s c n s1) (h' : Piece site [] s1 c' k s') :
    Block.Always (c ++ c') c.length n := by
  have hboth : Piece site [] s (c ++ c') (n + k) s' := h.stack h'
  exact h.levels.always_append h'.levels (h.crosses rfl) hboth.fresh.nodup

theorem Piece.always_end (h : Piece site [] s c n s') : Block.Always c c.length n := by
  have hend := h.always_between .nil
  rwa [append_nil] at hend

end

end Code

end Sigil
