import Sigil.Proofs.Control.Segments

/-!
# Code that follows a flow

That some code is laid out for a flow is a relation over the ways in which the code of statements is put
together (`Lays`). If no label stands twice, executing code that is laid out for a flow follows the runs of
the flow (`Lays.follows`): one case for each way of putting code together, and for loops an induction on
the rounds (`follows_rounds`).
-/

namespace Sigil.Control

open Follows List

open Code (Exits)
open Machine (Block Label Line)

/-! ## Code for a flow -/

/-- The code of a conditional around that of its branches. -/
def condSegments (otherwise done : Label) (test : Block) (yes no : List Segment) : List Segment :=
  [Segment.atom test, .line (.jumpIf .e otherwise)] ++ (yes ++
    ([Segment.line (.jump done), .line (.label otherwise)] ++ (no ++ [Segment.line (.label done)])))

/-- The code of a loop around that of its body and step. -/
def loopSegments (start : Label) (exits : Exits) (test : Block) (body post : List Segment) :
    List Segment :=
  [Segment.line (.label start), .atom test, .line (.jumpIf .e exits.done)] ++ (body ++
    ([Segment.line (.label exits.next)] ++ (post ++ [Segment.line (.jump start), .line (.label exits.done)])))

/-- `Lays ret exits i f segs`: the segments, from the number `i` on, are code for the flow. A part of the
flow is a block with its number. -/
inductive Lays (ret : Label) :
    Option Exits → Nat → Flow (Nat × Block) → List Segment → Prop where
  | skip {exits : Option Exits} {i : Nat} : Lays ret exits i .skip []
  | atom {exits : Option Exits} {i : Nat} (code : Block) :
    Lays ret exits i (.atom (i, code)) [.atom code]
  | seq {exits : Option Exits} {i : Nat} {f g : Flow (Nat × Block)} {first second : List Segment}
    (h1 : Lays ret exits i f first) (h2 : Lays ret exits (i + first.length) g second) :
    Lays ret exits i (.seq f g) (first ++ second)
  | cond {exits : Option Exits} {i : Nat} {f g : Flow (Nat × Block)} {yes no : List Segment}
    (otherwise done : Label) (test : Block) (h1 : Lays ret exits (i + 2) f yes)
    (h2 : Lays ret exits (i + 2 + yes.length + 2) g no) :
    Lays ret exits i (.cond (i, test) f g) (condSegments otherwise done test yes no)
  | loop {exits : Option Exits} {i : Nat} {f g : Flow (Nat × Block)} {body post : List Segment}
    (start : Label) (x : Exits) (test : Block) (h1 : Lays ret (some x) (i + 3) f body)
    (h2 : Lays ret (some x) (i + 3 + body.length + 1) g post) :
    Lays ret exits i (.loop (i + 1, test) f g) (loopSegments start x test body post)
  | brk {i : Nat} (x : Exits) : Lays ret (some x) i .brk [.line (.jump x.done)]
  | cont {i : Nat} (x : Exits) : Lays ret (some x) i .cont [.line (.jump x.next)]
  | ret {exits : Option Exits} {i : Nat} : Lays ret exits i .ret [.line (.jump ret)]

/-- The parts of a flow are the blocks of its code. -/
theorem Lays.atoms_eq {ret : Label} {exits : Option Exits} {i : Nat} {f : Flow (Nat × Block)}
    {segs : List Segment} (h : Lays ret exits i f segs) : f.atoms = atomsFrom i segs := by
  induction h with
  | skip | atom | brk | cont | ret => rfl
  | seq _ _ ih1 ih2 => rw [Flow.atoms, ih1, ih2, atomsFrom_append]
  | cond otherwise done test _ _ ih1 ih2 =>
    rw [Flow.atoms, ih1, ih2]
    simp [condSegments, atomsFrom, atomsFrom_append]
  | loop start x test _ _ ih1 ih2 =>
    rw [Flow.atoms, ih1, ih2]
    simp [loopSegments, atomsFrom, atomsFrom_append]

/-- The labels stand in the code to which a flow can jump out. -/
structure Visible (prog : List Segment) (exits : Option Exits) (ret : Label) : Prop where
  ret : ∃ k : Nat, prog[k]? = some (.line (.label ret))
  next : ∀ x, exits = some x → ∃ k : Nat, prog[k]? = some (.line (.label x.next))
  done : ∀ x, exits = some x → ∃ k : Nat, prog[k]? = some (.line (.label x.done))

section

variable {prog : List Segment} {exits : Option Exits} {ret : Label} {i j k n : Nat} {c : Config}

/-- If no label stands twice, control is at the place of a label if it is at a line with the label. -/
theorem pc_eq_of_label (hnodup : (labelsOf prog).Nodup) {x : Label}
    (h : prog[k]? = some (.line (.label x))) (hc : prog[c.pc]? = some (.line (.label x))) :
    c.pc = k := by
  have heq := (target?_eq hnodup hc).symm.trans (target?_eq hnodup h)
  exact Option.some.inj heq

/-- Control passes a label. -/
theorem follows_label {x : Label} (h : prog[c.pc]? = some (.line (.label x))) (hj : c.pc + 1 = j) :
    Follows prog exits ret j n c ⟨[], c.outcomes, .next⟩ := by
  have hdone : Follows prog exits ret j n { c with pc := c.pc + 1 } ⟨[], c.outcomes, .next⟩ := .done hj
  exact (of_step (step_line h rfl rfl) rfl hdone).mono (Nat.le_succ n)

/-- Control passes lines that do not jump. -/
theorem follows_lines {ls : List Line} (h : Placed prog i (ls.map .line))
    (hpasses : ∀ l ∈ ls, l.passes = true ∧ l.goto? = none) (hc : c.pc = i) :
    Follows prog exits ret (i + ls.length) n c ⟨[], c.outcomes, .next⟩ := by
  induction ls generalizing i c with
  | nil => exact .done hc
  | cons l ls ih =>
    subst hc
    obtain ⟨⟨hl, hgoto⟩, hls⟩ := forall_mem_cons.1 hpasses
    have hrest : Follows prog exits ret (c.pc + 1 + ls.length) n { c with pc := c.pc + 1 }
        ⟨[], c.outcomes, .next⟩ := ih h.tail hls rfl
    rw [length_cons, Nat.add_comm ls.length, ← Nat.add_assoc]
    exact (of_step (step_line h.head hl hgoto) rfl hrest).mono (Nat.le_succ n)

/-- Control jumps out. -/
theorem follows_jump (hnodup : (labelsOf prog).Nodup) {x : Label} {exit : Exit}
    (h : prog[c.pc]? = some (.line (.jump x))) (hk : prog[k]? = some (.line (.label x)))
    (hlands : Lands prog exits ret j n 1 { c with pc := k } exit) :
    Follows prog exits ret j n c ⟨[], c.outcomes, exit⟩ := by
  have hone : execute prog 1 c = some { c with pc := k } := by
    rw [execute_succ (step_jump hnodup h hk), execute]
  exact ⟨1, _, hone, rfl, (append_nil _).symm, hlands⟩

/-- The rounds of a loop. The bound is on the rounds, and `n` is that for the parts of the loop. -/
theorem follows_rounds (exits : Option Exits) (hnodup : (labelsOf prog).Nodup) {start : Label}
    {x : Exits} {test : Block} {body post : List Bool → Run (Nat × Block)} {next : Nat}
    (hstart : prog[i]? = some (.line (.label start)))
    (htest : prog[i + 1]? = some (.atom test))
    (hjump : prog[i + 2]? = some (.line (.jumpIf .e x.done)))
    (hnext : prog[next]? = some (.line (.label x.next)))
    (hback : prog[k]? = some (.line (.jump start)))
    (hdone : prog[k + 1]? = some (.line (.label x.done)))
    (hbody : ∀ c, c.pc = i + 3 → Follows prog (some x) ret next n c (body c.outcomes))
    (hpost : ∀ c, c.pc = next + 1 → Follows prog (some x) ret k n c (post c.outcomes))
    (m : Nat) (hm : m ≤ n) :
    (∀ c, c.pc = i + 1 → Follows prog exits ret (k + 2) m c
      (Run.rounds (i + 1, test) body post m c.outcomes)) ∧
    (∀ c, prog[c.pc]? = some (.line (.label x.next)) → Follows prog exits ret (k + 2) m c
      (Run.steps (i + 1, test) body post m c.outcomes)) := by
  -- Control leaves the loop at its last label.
  have hleave : ∀ (m : Nat) (c : Config), prog[c.pc]? = some (.line (.label x.done)) →
      Follows prog exits ret (k + 2) m c ⟨[], c.outcomes, .next⟩ := by
    intro m c hc
    have hpc := pc_eq_of_label hnodup hdone hc
    exact follows_label hc (by rw [hpc])
  induction m with
  | zero =>
    constructor
    · intro c _
      exact ⟨0, c, rfl, rfl, (append_nil _).symm, Nat.le_refl 0⟩
    · intro c _
      exact ⟨0, c, rfl, rfl, (append_nil _).symm, Nat.le_refl 0⟩
  | succ m ih =>
    obtain ⟨ihrounds, ihsteps⟩ := ih (Nat.le_of_succ_le hm)
    constructor
    · intro c hpc
      rw [Run.rounds, ← hpc]
      rw [← hpc] at htest
      refine mono (Follows.test hnodup htest (hpc ▸ hjump) hdone ?_ ?_) (Nat.le_succ (m + 1))
      · intro c' hc'
        have hb := hbody c' (by rw [hc', hpc])
        rw [hpc]
        refine hb.inLoop (Nat.le_of_succ_le hm) ?_ ihsteps (hleave m)
        intro c'' hc''
        exact ihsteps c'' (hc'' ▸ hnext)
      · intro c' hc'
        exact hleave m c' (hc' ▸ hdone)
    · intro c hc
      have hpc := pc_eq_of_label hnodup hnext hc
      rw [Run.steps]
      refine of_step (step_line hc rfl rfl) rfl ?_
      have hp := hpost { c with pc := c.pc + 1 } (congrArg (· + 1) hpc)
      refine hp.inLoop (Nat.le_of_succ_le hm) ?_ ihsteps (hleave m)
      -- Behind the step, control goes back to the condition.
      intro c' hc'
      have hround := ihrounds { c' with pc := i + 1 } rfl
      have hlabel := of_step (step_line (c := { c' with pc := i }) hstart rfl rfl) rfl hround
      have hstep := of_step (step_jump hnodup (hc' ▸ hback) hstart) rfl hlabel
      exact hstep.mono (by omega)

/-- Executing code that is laid out for a flow follows the runs of the flow. -/
theorem Lays.follows {f : Flow (Nat × Block)} {segs : List Segment} (h : Lays ret exits i f segs)
    (hnodup : (labelsOf prog).Nodup) (hplaced : Placed prog i segs) (hvisible : Visible prog exits ret)
    (n : Nat) : ∀ c, c.pc = i → Follows prog exits ret (i + segs.length) n c (f.exec n c.outcomes) := by
  induction h with
  | skip =>
    intro c hc
    exact .done hc
  | atom code =>
    intro c hc
    subst hc
    exact (of_atom hplaced.head (.done rfl)).mono (Nat.le_succ n)
  | seq _ _ ih1 ih2 =>
    intro c hc
    rw [length_append, ← Nat.add_assoc]
    exact (ih1 hplaced.left hvisible c hc).andThen (ih2 hplaced.right hvisible)
  | @cond exits i f g yes no otherwise done test h1 h2 ih1 ih2 =>
    intro c hc
    subst hc
    have hyes := hplaced.right
    have helse := hyes.right
    have hno := helse.right
    have hend : c.pc + (condSegments otherwise done test yes no).length =
        c.pc + 2 + yes.length + 2 + no.length + 1 := by
      simp only [condSegments, length_append, length_cons, length_nil]
      omega
    -- Both branches meet at the last label.
    have hmeet : ∀ c' : Config, c'.pc = c.pc + 2 + yes.length + 2 + no.length →
        Follows prog exits ret (c.pc + (condSegments otherwise done test yes no).length) n c'
          ⟨[], c'.outcomes, .next⟩ := by
      intro c' hc'
      have hlabel := hno.right.head
      exact follows_label (x := done) (hc' ▸ hlabel) (by rw [hend, hc'])
    refine mono (Follows.test hnodup hplaced.head hplaced.tail.head helse.tail.head ?_ ?_)
      (Nat.le_add_right n 2)
    · intro c' hc'
      refine (ih1 hyes.left hvisible c' hc').through ?_
      intro c'' hc''
      have hjump := hmeet { c'' with pc := c.pc + 2 + yes.length + 2 + no.length } rfl
      have hlabel := hno.right.head
      exact (of_step (step_jump hnodup (hc'' ▸ helse.head) hlabel) rfl hjump).mono (Nat.le_succ n)
    · intro c' hc'
      have hlabel := hc' ▸ helse.tail.head
      refine (of_step (step_line hlabel rfl rfl) rfl ?_).mono (Nat.le_succ n)
      exact (ih2 hno.left hvisible _ (congrArg (· + 1) hc')).through hmeet
  | @loop exits i f g body post start x test h1 h2 ih1 ih2 =>
    intro c hc
    subst hc
    have hbody := hplaced.right
    have hnext := hbody.right
    have hpost := hnext.right
    have hback := hpost.right
    have hin : Visible prog (some x) ret := by
      refine ⟨hvisible.ret, ?_, ?_⟩
      · intro y hy
        cases hy
        exact ⟨_, hnext.head⟩
      · intro y hy
        cases hy
        exact ⟨_, hback.tail.head⟩
    have hrounds := (follows_rounds exits hnodup hplaced.head hplaced.tail.head
      hplaced.tail.tail.head hnext.head hback.head hback.tail.head (ih1 hbody.left hin)
      (ih2 hpost.left hin) n (Nat.le_refl n)).1
    have hend : c.pc + (loopSegments start x test body post).length =
        c.pc + 3 + body.length + 1 + post.length + 2 := by
      simp only [loopSegments, length_append, length_cons, length_nil]
      omega
    rw [hend]
    have hround := hrounds { c with pc := c.pc + 1 } rfl
    exact (of_step (step_line hplaced.head rfl rfl) rfl hround).mono (Nat.le_succ n)
  | brk x =>
    intro c hc
    subst hc
    obtain ⟨k, hk⟩ := hvisible.done x rfl
    exact follows_jump hnodup hplaced.head hk ⟨x, rfl, hk⟩
  | cont x =>
    intro c hc
    subst hc
    obtain ⟨k, hk⟩ := hvisible.next x rfl
    exact follows_jump hnodup hplaced.head hk ⟨x, rfl, hk⟩
  | ret =>
    intro c hc
    subst hc
    obtain ⟨k, hk⟩ := hvisible.ret
    exact follows_jump hnodup hplaced.head hk hk

end

end Sigil.Control
