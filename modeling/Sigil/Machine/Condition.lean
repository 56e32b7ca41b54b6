/-!
# Conditions

The conditions under which a jump is taken or a byte is set.
-/

namespace Sigil.Machine

/-- A condition on the flags: (not) equal, signed and unsigned order, sign. -/
inductive Condition where
  | e | ne | l | le | g | ge | b | be | a | ae | s | ns
deriving DecidableEq, Repr

namespace Condition

/-- All conditions. -/
def all : List Condition :=
  [e, ne, l, le, g, ge, b, be, a, ae, s, ns]

/-- The letters that a mnemonic carries for the condition. -/
def name : Condition → String
  | e => "e" | ne => "ne" | l => "l" | le => "le" | g => "g" | ge => "ge"
  | b => "b" | be => "be" | a => "a" | ae => "ae" | s => "s" | ns => "ns"

/-- The condition with the given letters. -/
def ofName? (s : String) : Option Condition :=
  all.find? fun c => c.name == s

/-- The condition that holds exactly when this one does not. -/
def negate : Condition → Condition
  | e => ne | ne => e
  | l => ge | ge => l
  | le => g | g => le
  | b => ae | ae => b
  | be => a | a => be
  | s => ns | ns => s

@[simp] theorem negate_negate (c : Condition) : c.negate.negate = c := by
  cases c <;> rfl

end Condition

end Sigil.Machine
