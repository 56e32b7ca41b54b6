import Sigil.Proofs.Control.Flow

/-!
# Code as it is controlled

Code in which some blocks are run as a whole, between lines with labels and jumps (`Segment`). It is
executed step by step, by its labels and jumps, on a list of outcomes for the conditional jumps
(`step`, `execute`). Execution follows a run of a flow if it runs the same blocks in the same order on
the same outcomes, and stops where the run ends (`Follows`); how one part of a flow goes on behind another
is then a matter of where control lands.
-/

namespace Sigil.Control

open List

open Code (Exits)
open Machine (Block Label Line)

/-- A block that is run as a whole, or a single line. -/
inductive Segment where
  | atom (code : Block)
  | line (l : Line)
deriving DecidableEq, Repr

namespace Segment

/-- The code of a segment. -/
def code : Segment → Block
  | .atom c => c
  | .line l => [l]

/-- The label of a segment. Labels inside a block that is run as a whole do not count. -/
def label? : Segment → Option Label
  | .atom _ => none
  | .line l => l.label?

theorem flatMap_code_lines (ls : List Line) : (ls.map line).flatMap code = ls := by
  induction ls with
  | nil => rfl
  | cons l ls ih => rw [map_cons, flatMap_cons, ih, code, singleton_append]

end Segment

/-- The blocks that are run as a whole, with their numbers from `i` on. -/
def atomsFrom : Nat → List Segment → List (Nat × Block)
  | _, [] => []
  | i, .atom c :: segs => (i, c) :: atomsFrom (i + 1) segs
  | i, .line _ :: segs => atomsFrom (i + 1) segs

theorem atomsFrom_append (i : Nat) (segs segs' : List Segment) :
    atomsFrom i (segs ++ segs') = atomsFrom i segs ++ atomsFrom (i + segs.length) segs' := by
  induction segs generalizing i with
  | nil => rfl
  | cons seg segs ih =>
    have hlength : i + (seg :: segs).length = i + 1 + segs.length := by
      rw [length_cons]
      omega
    cases seg with
    | atom c => rw [cons_append, atomsFrom, ih, hlength, atomsFrom, cons_append]
    | line l => rw [cons_append, atomsFrom, ih, hlength, atomsFrom]

theorem atomsFrom_lines (i : Nat) (ls : List Line) : atomsFrom i (ls.map .line) = [] := by
  induction ls generalizing i with
  | nil => rfl
  | cons l ls ih => exact ih (i + 1)

/-- The labels of some code, in order. -/
def labelsOf (prog : List Segment) : List Label :=
  prog.filterMap Segment.label?

theorem labelsOf_sublist (prog : List Segment) :
    (labelsOf prog).Sublist (Block.labels (prog.flatMap Segment.code)) := by
  induction prog with
  | nil => exact List.Sublist.refl _
  | cons seg prog ih =>
    rw [flatMap_cons, Block.labels_append]
    cases seg with
    | atom c => exact ih.trans (sublist_append_right _ _)
    | line l =>
      have hline : labelsOf (.line l :: prog) = Block.labels [l] ++ labelsOf prog := by
        cases hl : l.label? <;> simp [labelsOf, Block.labels, Segment.label?, hl]
      rw [hline]
      exact ih.append_left _

/-! ## Execution -/

/-- A state of execution. -/
structure Config where
  /-- The number of the next segment. -/
  pc : Nat
  /-- The outcomes of the conditions to come. -/
  outcomes : List Bool
  /-- The blocks that have been run, with their numbers. -/
  trace : List (Nat × Block)
deriving DecidableEq, Repr

/-- The segment with a label. -/
def target? (prog : List Segment) (x : Label) : Option Nat :=
  prog.findIdx? fun seg => seg.label? = some x

/-- One step. The conditional jump for a condition that does not hold is taken by the outcome. -/
def step (prog : List Segment) (c : Config) : Option Config :=
  match prog[c.pc]? with
  | none => none
  | some (.atom code) => some { c with pc := c.pc + 1, trace := c.trace ++ [(c.pc, code)] }
  | some (.line (.instr (.jump x))) => (target? prog x).map fun pc => { c with pc }
  | some (.line (.instr (.jumpIf .e x))) =>
    match c.outcomes with
    | [] => none
    | true :: os => some { c with pc := c.pc + 1, outcomes := os }
    | false :: os => (target? prog x).map fun pc => { c with pc, outcomes := os }
  | some (.line l) => if l.passes = true ∧ l.goto? = none then some { c with pc := c.pc + 1 } else none

/-- The state after a number of steps, if there are so many. -/
def execute (prog : List Segment) : Nat → Config → Option Config
  | 0, c => some c
  | n + 1, c => (step prog c).bind (execute prog n)

/-- The code has the segments from `i` on. -/
def Placed (prog : List Segment) (i : Nat) (segs : List Segment) : Prop :=
  ∀ k < segs.length, prog[i + k]? = segs[k]?

namespace Placed

variable {prog segs segs' : List Segment} {seg : Segment} {i : Nat}

theorem left (h : Placed prog i (segs ++ segs')) : Placed prog i segs := by
  intro k hk
  rw [h k (by rw [length_append]; omega), getElem?_append_left hk]

theorem right (h : Placed prog i (segs ++ segs')) : Placed prog (i + segs.length) segs' := by
  intro k hk
  have hseg := h (segs.length + k) (by rw [length_append]; omega)
  rw [getElem?_append_right (by omega), Nat.add_sub_cancel_left] at hseg
  rw [Nat.add_assoc]
  exact hseg

theorem head (h : Placed prog i (seg :: segs)) : prog[i]? = some seg := by
  simpa using h 0 (by simp)

theorem tail (h : Placed prog i (seg :: segs)) : Placed prog (i + 1) segs := by
  rw [← singleton_append] at h
  exact h.right

end Placed

section

variable {prog : List Segment} {c c' : Config}
variable {x : Label} {k : Nat} {os : List Bool}

theorem execute_succ (h : step prog c = some c') (n : Nat) :
    execute prog (n + 1) c = execute prog n c' := by
  rw [execute, h, Option.bind_some]

theorem execute_add (m n : Nat) :
    execute prog (m + n) c = (execute prog m c).bind (execute prog n) := by
  induction m generalizing c with
  | zero => rw [Nat.zero_add, execute, Option.bind_some]
  | succ m ih =>
    rw [Nat.add_right_comm, execute, execute]
    cases step prog c with
    | none => rfl
    | some c' => exact ih

/-- A step runs at most one block more. -/
theorem trace_prefix_step (h : step prog c = some c') : c.trace <+: c'.trace := by
  unfold step at h
  split at h
  · cases h
  · cases h
    exact prefix_append _ _
  · obtain ⟨pc, -, rfl⟩ := Option.map_eq_some_iff.1 h
    exact prefix_refl _
  · split at h
    · cases h
    · cases h
      exact prefix_refl _
    · obtain ⟨pc, -, rfl⟩ := Option.map_eq_some_iff.1 h
      exact prefix_refl _
  · split at h
    · cases h
      exact prefix_refl _
    · cases h

theorem trace_prefix_execute {n : Nat} (h : execute prog n c = some c') : c.trace <+: c'.trace := by
  induction n generalizing c with
  | zero =>
    cases h
    exact prefix_refl _
  | succ n ih =>
    obtain ⟨c1, hstep, hrest⟩ := Option.bind_eq_some_iff.1 h
    exact (trace_prefix_step hstep).trans (ih hrest)

/-! ### Single steps -/

theorem step_atom {code : Block} (h : prog[c.pc]? = some (.atom code)) :
    step prog c = some { c with pc := c.pc + 1, trace := c.trace ++ [(c.pc, code)] } := by
  rw [step, h]

/-- A line that does not jump. -/
theorem step_line {l : Line} (h : prog[c.pc]? = some (.line l)) (hpasses : l.passes = true)
    (hgoto : l.goto? = none) : step prog c = some { c with pc := c.pc + 1 } := by
  rw [step, h]
  split
  · next heq => cases heq
  · next heq => cases heq
  · next heq =>
    cases heq
    cases hpasses
  · next heq =>
    cases heq
    cases hgoto
  · next heq =>
    cases heq
    exact if_pos ⟨hpasses, hgoto⟩

/-- If no label stands twice, a jump finds the line that has the label. -/
theorem target?_eq (hnodup : (labelsOf prog).Nodup)
    (h : prog[k]? = some (.line (.label x))) : target? prog x = some k := by
  obtain ⟨hk, hget⟩ := List.getElem?_eq_some_iff.1 h
  have hdistinct := pairwise_filterMap.1 hnodup
  rw [pairwise_iff_getElem] at hdistinct
  refine findIdx?_eq_some_iff_getElem.2 ⟨hk, ?_, fun j hj hlabel => ?_⟩
  · rw [hget]
    exact decide_eq_true rfl
  · have hx : prog[j].label? = some x := of_decide_eq_true hlabel
    exact hdistinct j k _ hk hj x hx x (by rw [hget]; rfl) rfl

theorem step_jump (hnodup : (labelsOf prog).Nodup)
    (h : prog[c.pc]? = some (.line (.jump x))) (hk : prog[k]? = some (.line (.label x))) :
    step prog c = some { c with pc := k } := by
  rw [step, h]
  change (target? prog x).map _ = _
  rw [target?_eq hnodup hk]
  rfl

theorem step_jumpIf_true (h : prog[c.pc]? = some (.line (.jumpIf .e x)))
    (hos : c.outcomes = true :: os) : step prog c = some { c with pc := c.pc + 1, outcomes := os } := by
  rw [step, h]
  simp only [Line.jumpIf, hos]

theorem step_jumpIf_false (hnodup : (labelsOf prog).Nodup)
    (h : prog[c.pc]? = some (.line (.jumpIf .e x))) (hos : c.outcomes = false :: os)
    (hk : prog[k]? = some (.line (.label x))) :
    step prog c = some { c with pc := k, outcomes := os } := by
  rw [step, h]
  simp only [Line.jumpIf, hos, target?_eq hnodup hk, Option.map_some]

theorem step_jumpIf_nil (h : prog[c.pc]? = some (.line (.jumpIf .e x)))
    (hos : c.outcomes = []) : step prog c = none := by
  rw [step, h]
  simp only [Line.jumpIf, hos]

end

/-! ## Following a run -/

/-- Where control is after a run that ends in the given way. A flow that is left behind ends before the
segment `j`; a run that is cut off has taken at least `bound` of the `n` steps. -/
def Lands (prog : List Segment) (exits : Option Exits) (ret : Label) (j bound n : Nat) (c : Config) :
    Exit → Prop
  | .next => c.pc = j
  | .brk => ∃ x, exits = some x ∧ prog[c.pc]? = some (.line (.label x.done))
  | .cont => ∃ x, exits = some x ∧ prog[c.pc]? = some (.line (.label x.next))
  | .ret => prog[c.pc]? = some (.line (.label ret))
  | .wait => c.outcomes = [] ∧ ∃ x, prog[c.pc]? = some (.line (.jumpIf .e x))
  | .cut => bound ≤ n

/-- After some steps from `c` on, the same blocks have been run as in the run, on the same outcomes, and
control is where the run ends. -/
def Follows (prog : List Segment) (exits : Option Exits) (ret : Label) (j bound : Nat) (c : Config)
    (r : Run (Nat × Block)) : Prop :=
  ∃ n c', execute prog n c = some c' ∧ c'.outcomes = r.rest ∧ c'.trace = c.trace ++ r.trace ∧
    Lands prog exits ret j bound n c' r.exit

namespace Follows

variable {prog : List Segment} {exits exits' : Option Exits} {ret : Label} {i j bound bound' : Nat}
  {c c' : Config} {r : Run (Nat × Block)}

theorem mono (h : Follows prog exits ret j bound c r) (hle : bound' ≤ bound) :
    Follows prog exits ret j bound' c r := by
  obtain ⟨n, c', hexec, hrest, htrace, hlands⟩ := h
  refine ⟨n, c', hexec, hrest, htrace, ?_⟩
  cases hexit : r.exit with
  | cut =>
    rw [hexit] at hlands
    exact hle.trans hlands
  | _ =>
    rw [hexit] at hlands
    exact hlands

/-- Nothing is left to do. -/
theorem done (h : c.pc = j) : Follows prog exits ret j bound c ⟨[], c.outcomes, .next⟩ :=
  ⟨0, c, rfl, rfl, (append_nil _).symm, h⟩

/-- Some steps come first. -/
theorem of_execute {m : Nat} {trace : List (Nat × Block)} (hexec : execute prog m c = some c')
    (htrace : c'.trace = c.trace ++ trace) (h : Follows prog exits ret j bound c' r) :
    Follows prog exits ret j (bound + m) c (r.after trace) := by
  obtain ⟨n, c'', hexec', hrest, htrace', hlands⟩ := h
  refine ⟨m + n, c'', ?_, hrest, ?_, ?_⟩
  · rw [execute_add, hexec, Option.bind_some, hexec']
  · rw [htrace', htrace, append_assoc]
    rfl
  · rw [Run.after]
    cases hexit : r.exit with
    | cut =>
      rw [hexit] at hlands
      have hle : bound ≤ n := hlands
      exact show bound + m ≤ m + n by omega
    | _ =>
      rw [hexit] at hlands
      exact hlands

/-- One step comes first, in which nothing is run. -/
theorem of_step (hstep : step prog c = some c') (htrace : c'.trace = c.trace)
    (h : Follows prog exits ret j bound c' r) : Follows prog exits ret j (bound + 1) c r := by
  have hone : execute prog 1 c = some c' := by rw [execute_succ hstep, execute]
  have hnone : c'.trace = c.trace ++ [] := by rw [htrace, append_nil]
  exact of_execute hone hnone h

/-- A block is run first. -/
theorem of_atom {code : Block} (hatom : prog[c.pc]? = some (.atom code))
    (h : Follows prog exits ret j bound
      { c with pc := c.pc + 1, trace := c.trace ++ [(c.pc, code)] } r) :
    Follows prog exits ret j (bound + 1) c (r.after [(c.pc, code)]) := by
  have hone := (execute_succ (step_atom hatom) 0).trans rfl
  exact of_execute hone rfl h

/-- A part that comes to its end, and what follows it. -/
theorem andThen {k : List Bool → Run (Nat × Block)} (h : Follows prog exits ret i bound c r)
    (hk : ∀ c', c'.pc = i → Follows prog exits ret j bound c' (k c'.outcomes)) :
    Follows prog exits ret j bound c (r.andThen k) := by
  obtain ⟨n, c', hexec, hrest, htrace, hlands⟩ := h
  unfold Run.andThen
  split
  · next hexit =>
    rw [hexit] at hlands
    have hnext := of_execute hexec htrace (hk c' hlands)
    rw [hrest] at hnext
    exact hnext.mono (Nat.le_add_right _ _)
  · next hexit =>
    refine ⟨n, c', hexec, hrest, htrace, ?_⟩
    cases hr : r.exit with
    | next => exact absurd hr hexit
    | _ =>
      rw [hr] at hlands
      exact hlands

/-- Control goes on for a while behind a part, without running anything. -/
theorem through (h : Follows prog exits ret i bound c r)
    (hgo : ∀ c', c'.pc = i → Follows prog exits ret j bound c' ⟨[], c'.outcomes, .next⟩) :
    Follows prog exits ret j bound c r := by
  have hthen := h.andThen (k := fun os => ⟨[], os, .next⟩) hgo
  rwa [Run.andThen_next] at hthen

/-- A part of a loop, and what follows it: `break` and `continue` land inside of the loop. -/
theorem inLoop {x : Exits} {next cont : List Bool → Run (Nat × Block)}
    (h : Follows prog (some x) ret i bound c r) (hle : bound' ≤ bound)
    (hnext : ∀ c', c'.pc = i → Follows prog exits ret j bound' c' (next c'.outcomes))
    (hcont : ∀ c', prog[c'.pc]? = some (.line (.label x.next)) →
      Follows prog exits ret j bound' c' (cont c'.outcomes))
    (hdone : ∀ c', prog[c'.pc]? = some (.line (.label x.done)) →
      Follows prog exits ret j bound' c' ⟨[], c'.outcomes, .next⟩) :
    Follows prog exits ret j bound' c (r.inLoop next cont) := by
  obtain ⟨n, c', hexec, hrest, htrace, hlands⟩ := h
  -- What follows the round follows from where it began.
  have hlater : ∀ {r' : Run (Nat × Block)}, Follows prog exits ret j bound' c' r' →
      Follows prog exits ret j bound' c (r'.after r.trace) := by
    intro r' hr'
    exact (of_execute hexec htrace hr').mono (Nat.le_add_right _ _)
  unfold Run.inLoop
  cases hexit : r.exit with
  | next =>
    rw [hexit] at hlands
    have hgo := hlater (hnext c' hlands)
    rwa [hrest] at hgo
  | cont =>
    rw [hexit] at hlands
    obtain ⟨y, hy, hget⟩ := hlands
    cases hy
    have hgo := hlater (hcont c' hget)
    rwa [hrest] at hgo
  | brk =>
    rw [hexit] at hlands
    obtain ⟨y, hy, hget⟩ := hlands
    cases hy
    have hgo := hlater (hdone c' hget)
    rw [hrest, Run.after, append_nil] at hgo
    exact hgo
  | ret | wait =>
    rw [hexit] at hlands
    exact ⟨n, c', hexec, hrest, htrace, hexit.symm ▸ hlands⟩
  | cut =>
    rw [hexit] at hlands
    -- The fuel was spent inside the round.
    have hbound : bound ≤ n := hlands
    exact ⟨n, c', hexec, hrest, htrace, hexit.symm ▸ hle.trans hbound⟩

/-- A condition, and what follows it by its outcome. -/
theorem test {code : Block} {yes no : List Bool → Run (Nat × Block)} {x : Label}
    (hnodup : (labelsOf prog).Nodup) (hatom : prog[c.pc]? = some (.atom code))
    (hjump : prog[c.pc + 1]? = some (.line (.jumpIf .e x)))
    (hlabel : prog[i]? = some (.line (.label x)))
    (hyes : ∀ c' : Config, c'.pc = c.pc + 2 → Follows prog exits ret j bound c' (yes c'.outcomes))
    (hno : ∀ c', c'.pc = i → Follows prog exits ret j bound c' (no c'.outcomes)) :
    Follows prog exits ret j (bound + 2) c (Run.test (c.pc, code) yes no c.outcomes) := by
  cases hos : c.outcomes with
  | nil =>
    have hone := (execute_succ (step_atom hatom) 0).trans rfl
    exact ⟨1, _, hone, hos, rfl, hos, x, hjump⟩
  | cons o os =>
    cases o with
    | true =>
      refine of_atom hatom (of_step (step_jumpIf_true hjump hos) rfl ?_)
      exact hyes _ rfl
    | false =>
      refine of_atom hatom (of_step (step_jumpIf_false hnodup hjump hos hlabel) rfl ?_)
      exact hno _ rfl

end Follows

end Sigil.Control
