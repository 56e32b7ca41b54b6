import Sigil.Proofs.Machine.Semantics

/-!
# Running a block inside a program

A block of code stands somewhere in a program (`CodeAt`), and what it does depends on the program only
for its jumps, which go to the right lines if no label stands there twice. A block without jumps is run
line by line (`State.run`), and such a run is a sequence of steps wherever the block stands
(`CodeAt.steps`).
-/

namespace Sigil.Machine

open List

variable {prog : Block} {i : Nat} {l : Label} {s s' : State}

/-! ## Places of blocks -/

/-- The program has the block from line `i` on. -/
def CodeAt (prog : Block) (i : Nat) (code : Block) : Prop :=
  ∀ k < code.length, prog[i + k]? = code[k]?

/-- A program is a block of itself. -/
theorem codeAt_self (code : Block) : CodeAt code 0 code := by
  intro k _
  rw [Nat.zero_add]

namespace CodeAt

variable {prog code code' : Block} {i : Nat} {line : Line}

theorem left (h : CodeAt prog i (code ++ code')) : CodeAt prog i code := by
  intro k hk
  rw [h k (by rw [length_append]; omega), getElem?_append_left hk]

theorem right (h : CodeAt prog i (code ++ code')) : CodeAt prog (i + code.length) code' := by
  intro k hk
  have hline := h (code.length + k) (by rw [length_append]; omega)
  rw [getElem?_append_right (by omega), Nat.add_sub_cancel_left] at hline
  rw [Nat.add_assoc]
  exact hline

theorem head (h : CodeAt prog i (line :: code)) : prog[i]? = some line := by
  simpa using h 0 (by simp)

theorem tail (h : CodeAt prog i (line :: code)) : CodeAt prog (i + 1) code := by
  rw [← singleton_append] at h
  exact h.right

end CodeAt

/-! ## Labels -/

/-- The label of a line. -/
def Line.label? : Line → Option Label
  | .label l => some l
  | _ => none

/-- The labels of a block, in order. -/
def Block.labels (code : Block) : List Label :=
  code.filterMap Line.label?

@[simp] theorem Block.labels_append (code code' : Block) :
    Block.labels (code ++ code') = Block.labels code ++ Block.labels code' :=
  filterMap_append

/-- If no label stands twice in a program, a jump finds the line that has the label. -/
theorem idxOf?_label (hnodup : (Block.labels prog).Nodup) {k : Nat}
    (h : prog[k]? = some (.label l)) : prog.idxOf? (.label l) = some k := by
  induction prog generalizing k with
  | nil => exact nomatch h
  | cons line prog ih =>
    cases k with
    | zero =>
      rw [getElem?_cons_zero] at h
      rw [Option.some.inj h]
      simp [idxOf?_cons]
    | succ k =>
      rw [getElem?_cons_succ] at h
      have hmem : l ∈ Block.labels prog :=
        mem_filterMap.2 ⟨.label l, mem_of_getElem? h, rfl⟩
      -- The line in front cannot have the label too.
      have hne : line ≠ .label l := by
        rintro rfl
        exact (nodup_cons.1 hnodup).1 hmem
      have hrest : (Block.labels prog).Nodup := hnodup.sublist
        ((sublist_cons_self line prog).filterMap _)
      rw [idxOf?_cons, ih hrest h]
      simp [hne]

/-! ## Blocks without jumps -/

/-- Carries out a block of instructions that do not jump. -/
def State.run (s : State) : Block → Option State
  | [] => some s
  | .instr i :: code => do (← s.exec i).run code
  | _ :: _ => none

theorem State.run_append (s : State) (code code' : Block) :
    s.run (code ++ code') = (s.run code).bind fun s' => s'.run code' := by
  induction code generalizing s with
  | nil => rfl
  | cons line code ih =>
    cases line with
    | instr i =>
      rw [cons_append, run, run]
      cases s.exec i with
      | none => rfl
      | some s' => exact ih s'
    | _ => rfl

/-- An instruction that is carried out is no jump. -/
theorem step_of_exec {instr : Instruction}
    (hline : prog[i]? = some (.instr instr)) (h : s.exec instr = some s') :
    step prog ⟨i, s⟩ = some ⟨i + 1, s'⟩ := by
  unfold step
  rw [hline]
  cases instr with
  | jump | jumpIf => exact nomatch h
  | _ => simp [h]

/-- The run of a block is a sequence of steps wherever the block stands. -/
theorem CodeAt.steps {code : Block} (hcode : CodeAt prog i code)
    (h : s.run code = some s') : Steps prog ⟨i, s⟩ ⟨i + code.length, s'⟩ := by
  induction code generalizing i s with
  | nil =>
    obtain rfl := Option.some.inj h
    exact .refl
  | cons line code ih =>
    cases line with
    | instr instr =>
      rw [State.run] at h
      obtain ⟨s1, hexec, hrest⟩ := Option.bind_eq_some_iff.1 h
      have hsteps := ih hcode.tail hrest
      rw [Nat.add_assoc, Nat.add_comm 1] at hsteps
      exact .head (step_of_exec hcode.head hexec) hsteps
    | _ => exact nomatch h

theorem step_label (hline : prog[i]? = some (.label l))
    (s : State) : step prog ⟨i, s⟩ = some ⟨i + 1, s⟩ := by
  unfold step
  rw [hline]
  rfl

/-- A conditional jump goes to the label if the condition holds, and on if not. -/
theorem step_jumpIf {target : Nat} {cond : Condition}
    (hline : prog[i]? = some (.instr (.jumpIf cond l)))
    (htarget : prog.idxOf? (.label l) = some target) {f : Flags}
    (hf : s.flags = some f) :
    step prog ⟨i, s⟩ = some ⟨if cond.holds f then target else i + 1, s⟩ := by
  unfold step
  rw [hline]
  cases hc : cond.holds f with
  | true => simp [hf, hc, htarget]
  | false => simp [hf, hc]

/-! ## What stays -/

/-- Apart from what lies below the top of the stack, memory is the same, and the stack has not
shrunk. -/
structure State.Within (s s' : State) : Prop where
  rbp : s'.regs .rbp = s.regs .rbp
  rsp : (s'.regs .rsp).toNat ≤ (s.regs .rsp).toNat
  mem : ∀ a : Word, (s.regs .rsp).toNat ≤ a.toNat → s'.mem a = s.mem a

/-- The same, with the stack as it was. -/
structure State.Keeps (s s' : State) : Prop where
  rbp : s'.regs .rbp = s.regs .rbp
  rsp : s'.regs .rsp = s.regs .rsp
  mem : ∀ a : Word, (s.regs .rsp).toNat ≤ a.toNat → s'.mem a = s.mem a

namespace State

variable {s s' s'' : State}

theorem Keeps.refl (s : State) : s.Keeps s := ⟨rfl, rfl, fun _ _ => rfl⟩

theorem Keeps.trans (h : s.Keeps s') (h' : s'.Keeps s'') : s.Keeps s'' := by
  refine ⟨h'.rbp.trans h.rbp, h'.rsp.trans h.rsp, fun a ha => ?_⟩
  rw [h'.mem a (by rw [h.rsp]; exact ha), h.mem a ha]

theorem Keeps.within (h : s.Keeps s') : s.Within s' :=
  ⟨h.rbp, Nat.le_of_eq (congrArg _ h.rsp), h.mem⟩

theorem Within.trans (h : s.Within s') (h' : s'.Within s'') : s.Within s'' := by
  refine ⟨h'.rbp.trans h.rbp, Nat.le_trans h'.rsp h.rsp, fun a ha => ?_⟩
  rw [h'.mem a (Nat.le_trans h.rsp ha), h.mem a ha]

/-- Only registers other than the two stack pointers have changed. -/
theorem keeps_of_regs (hrbp : s'.regs .rbp = s.regs .rbp) (hrsp : s'.regs .rsp = s.regs .rsp)
    (hmem : s'.mem = s.mem) : s.Keeps s' :=
  ⟨hrbp, hrsp, fun a _ => congrFun hmem a⟩

end State

end Sigil.Machine
