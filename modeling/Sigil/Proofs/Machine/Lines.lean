import Sigil.Proofs.Machine.Execution

/-!
# Labels, stack and numbers of a line

What can be read off the lines of a block without running it: the labels that they refer to
(`Block.targets`), the bytes by which they make the stack grow (`Line.growth`), and whether their
numbers fit into the fields of instructions (`Line.Encodable`). Most lines of generated code are plain:
they have nothing to do with labels or with the stack, and they can be encoded.
-/

namespace Sigil.Machine

/-- The operands of an instruction. -/
def Instruction.parts : Instruction → List Operand
  | .mov _ src dst => [src, dst]
  | .extend _ _ src dst | .lea src dst | .arith _ src dst | .cmp src dst => [src, .reg dst]
  | .push src => [src]
  | .pop r | .unary _ r | .divide _ r | .set _ r => [.reg r]
  | .test l r => [.reg l, .reg r]
  | _ => []

/-- The operands of a line. -/
def Line.operands : Line → List Operand
  | .instr i => i.parts
  | _ => []

/-! ## Labels -/

/-- The label that an operand refers to. -/
def Operand.target? : Operand → Option Label
  | .label l => some l
  | _ => none

/-- The labels that an instruction refers to, as the target of a jump or a call or as a place in
memory. -/
def Instruction.targets : Instruction → List Label
  | .jump l | .jumpIf _ l | .call l => [l]
  | i => i.parts.filterMap Operand.target?

/-- The labels that a line refers to. -/
def Line.targets : Line → List Label
  | .instr i => i.targets
  | _ => []

/-- The labels that a block refers to. -/
def Block.targets (code : Block) : List Label :=
  code.flatMap Line.targets

/-! ## The stack -/

/-- The bytes by which an instruction makes the stack grow. A call takes its return address off again
before the next instruction. -/
def Instruction.growth : Instruction → Int
  | .push _ => 8
  | .pop _ => -8
  | .arith .sub (.imm n) .rsp => n
  | .arith .add (.imm n) .rsp => -n
  | _ => 0

/-- The bytes by which a line makes the stack grow. -/
def Line.growth : Line → Int
  | .instr i => i.growth
  | _ => 0

/-- Whether an instruction leaves the stack pointer and the frame pointer alone. -/
def Instruction.sparesFrame : Instruction → Bool
  | .push _ | .pop _ | .call _ | .ret => false
  | .mov _ _ (.reg r) | .extend _ _ _ r | .lea _ r | .arith _ _ r | .unary _ r | .set _ r =>
    r != .rsp && r != .rbp
  | _ => true

/-- Whether a line leaves the stack pointer and the frame pointer alone. -/
def Line.sparesFrame : Line → Bool
  | .instr i => i.sparesFrame
  | _ => true

/-- Whether an instruction changes the stack pointer by its growth, or not at all. -/
def Instruction.isCounted : Instruction → Bool
  | .push _ | .call _ => true
  | .pop r => r != .rsp
  | .arith .sub (.imm _) .rsp | .arith .add (.imm _) .rsp => true
  | i => i.sparesFrame

/-- Whether a line changes the stack pointer by its growth, or not at all. -/
def Line.isCounted : Line → Bool
  | .instr i => i.isCounted
  | _ => true

theorem Line.growth_of_sparesFrame {l : Line} (h : l.sparesFrame = true) : l.growth = 0 := by
  cases l with
  | instr i =>
    unfold Line.growth Instruction.growth
    dsimp only
    split
    -- The first four change the stack pointer.
    · cases h
    · cases h
    · cases h
    · cases h
    · rfl
  | _ => rfl

theorem Line.isCounted_of_sparesFrame {l : Line} (h : l.sparesFrame = true) : l.isCounted = true := by
  cases l with
  | instr i =>
    unfold Line.isCounted Instruction.isCounted
    dsimp only
    split
    · rfl
    · rfl
    · cases h
    · rfl
    · rfl
    · exact h
  | _ => rfl

/-! ## Numbers -/

/-- A number fits into a field of 32 bits with a sign. -/
def Fits32 (n : Int) : Prop :=
  -2 ^ 31 ≤ n ∧ n ≤ 2 ^ 31 - 1

instance (n : Int) : Decidable (Fits32 n) :=
  inferInstanceAs (Decidable (_ ∧ _))

/-- The number in an operand, if there is one, fits into its field. -/
def Operand.Encodable : Operand → Prop
  | .imm n => Fits32 n
  | .mem _ disp => Fits32 disp
  | .reg _ | .label _ => True

/-- Whether an instruction sets a whole register to a constant, for which there is a field of 64
bits. -/
def Instruction.isWide : Instruction → Bool
  | .mov .quad (.imm _) (.reg _) => true
  | _ => false

/-- All numbers in an instruction fit into their fields. -/
def Instruction.Encodable (i : Instruction) : Prop :=
  i.isWide = true ∨ ∀ o ∈ i.parts, o.Encodable

/-- All numbers in a line fit into their fields. -/
def Line.Encodable : Line → Prop
  | .instr i => i.Encodable
  | _ => True

instance : DecidablePred Operand.Encodable
  | .imm n => inferInstanceAs (Decidable (Fits32 n))
  | .mem _ disp => inferInstanceAs (Decidable (Fits32 disp))
  | .reg _ | .label _ => inferInstanceAs (Decidable True)

instance (i : Instruction) : Decidable i.Encodable :=
  inferInstanceAs (Decidable (_ ∨ _))

instance : DecidablePred Line.Encodable
  | .instr i => inferInstanceAs (Decidable i.Encodable)
  | .label _ | .directive _ | .comment _ => inferInstanceAs (Decidable True)

/-! ## Plain lines -/

/-- A line has nothing to do with labels, nor with the stack. -/
structure Line.Quiet (l : Line) : Prop where
  label : l.label? = none
  targets : l.targets = []
  stack : l.sparesFrame = true

/-- A quiet line that can be encoded. -/
structure Line.Plain (l : Line) : Prop extends l.Quiet where
  encodable : l.Encodable

instance (l : Line) : Decidable l.Plain :=
  decidable_of_iff (l.label? = none ∧ l.targets = [] ∧ l.sparesFrame = true ∧ l.Encodable)
    ⟨fun ⟨h1, h2, h3, h4⟩ => ⟨⟨h1, h2, h3⟩, h4⟩, fun h => ⟨h.label, h.targets, h.stack, h.encodable⟩⟩

end Sigil.Machine
