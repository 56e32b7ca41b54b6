import Sigil.Proofs.Emission.Compositions

/-!
# Structured control flow

Statements as they are controlled, over parts that are run as a whole: simple statements and conditions
(`Stmt.flow`). A flow is run on a list of outcomes for the conditions that it meets, in order
(`Flow.exec`). Nothing is known about what the parts do, so a run is the list of the parts in the order
in which they are run, the outcomes that are left, and the way in which it ends. A loop may go on for ever
only if there are outcomes for its condition for ever, or if its step continues; a bound on the rounds
cuts such runs off, at any length.
-/

namespace Sigil

namespace Control

/-! ## Flows -/

/-- How parts `α` are controlled. -/
inductive Flow (α : Type) where
  | skip
  | atom (a : α)
  | seq (first second : Flow α)
  | cond (test : α) (yes no : Flow α)
  /-- The condition comes before each round, and `post` after it. -/
  | loop (test : α) (body post : Flow α)
  | brk
  | cont
  | ret
deriving DecidableEq, Repr

/-- How a run ends. -/
inductive Exit where
  /-- At the end of the flow. -/
  | next
  | brk
  | cont
  | ret
  /-- At a condition for which there is no outcome. -/
  | wait
  /-- At the bound for the rounds of some loop. -/
  | cut
deriving DecidableEq, Repr

/-- What happens when a flow is run. -/
structure Run (α : Type) where
  /-- The parts that are run, in order. -/
  trace : List α
  /-- The outcomes that have not been used. -/
  rest : List Bool
  exit : Exit
deriving DecidableEq, Repr

namespace Run

variable {α : Type}

/-- Some parts have been run before. -/
def after (trace : List α) (r : Run α) : Run α :=
  { r with trace := trace ++ r.trace }

/-- Goes on behind a run that has come to its end. -/
def andThen (r : Run α) (k : List Bool → Run α) : Run α :=
  match r.exit with
  | .next => (k r.rest).after r.trace
  | _ => r

/-- Goes on behind a run inside of a loop: `break` leaves the loop. -/
def inLoop (r : Run α) (next cont : List Bool → Run α) : Run α :=
  match r.exit with
  | .next => (next r.rest).after r.trace
  | .cont => (cont r.rest).after r.trace
  | .brk => { r with exit := .next }
  | _ => r

/-- Runs a condition, and goes on by its outcome. -/
def test (a : α) (yes no : List Bool → Run α) : List Bool → Run α
  | [] => ⟨[a], [], .wait⟩
  | true :: os => (yes os).after [a]
  | false :: os => (no os).after [a]

mutual

/-- The rounds of a loop from its condition on. A `continue` in the body goes on with the step. -/
def rounds (a : α) (body post : List Bool → Run α) : Nat → List Bool → Run α
  | 0, os => ⟨[], os, .cut⟩
  | n + 1, os =>
    test a (fun os => (body os).inLoop (steps a body post n) (steps a body post n))
      (fun os => ⟨[], os, .next⟩) os

/-- The rounds of a loop from its step on. A `continue` in the step goes on with the step. -/
def steps (a : α) (body post : List Bool → Run α) : Nat → List Bool → Run α
  | 0, os => ⟨[], os, .cut⟩
  | n + 1, os => (post os).inLoop (rounds a body post n) (steps a body post n)

end

theorem andThen_next (r : Run α) : (r.andThen fun os => ⟨[], os, .next⟩) = r := by
  unfold andThen after
  split
  · next hexit => rw [List.append_nil, ← hexit]
  · rfl

end Run

namespace Flow

variable {α β : Type}

/-- Runs a flow on some outcomes, with at most `n` conditions and steps of a loop at a time. -/
def exec (n : Nat) : Flow α → List Bool → Run α
  | .skip, os => ⟨[], os, .next⟩
  | .atom a, os => ⟨[a], os, .next⟩
  | .seq f g, os => (f.exec n os).andThen (g.exec n)
  | .cond a f g, os => Run.test a (f.exec n) (g.exec n) os
  | .loop a f g, os => Run.rounds a (f.exec n) (g.exec n) n os
  | .brk, os => ⟨[], os, .brk⟩
  | .cont, os => ⟨[], os, .cont⟩
  | .ret, os => ⟨[], os, .ret⟩

/-- The parts of a flow, from the first to the last. -/
def atoms : Flow α → List α
  | .atom a => [a]
  | .seq f g => f.atoms ++ g.atoms
  | .cond a f g | .loop a f g => a :: (f.atoms ++ g.atoms)
  | .skip | .brk | .cont | .ret => []

/-- Two flows are the same but for their parts, which are related. -/
inductive Rel (R : α → β → Prop) : Flow α → Flow β → Prop where
  | skip : Rel R .skip .skip
  | atom {a : α} {b : β} (h : R a b) : Rel R (.atom a) (.atom b)
  | seq {f1 f2 : Flow α} {g1 g2 : Flow β} (h1 : Rel R f1 g1) (h2 : Rel R f2 g2) :
    Rel R (.seq f1 f2) (.seq g1 g2)
  | cond {a : α} {b : β} {f1 f2 : Flow α} {g1 g2 : Flow β} (h : R a b) (h1 : Rel R f1 g1)
    (h2 : Rel R f2 g2) : Rel R (.cond a f1 f2) (.cond b g1 g2)
  | loop {a : α} {b : β} {f1 f2 : Flow α} {g1 g2 : Flow β} (h : R a b) (h1 : Rel R f1 g1)
    (h2 : Rel R f2 g2) : Rel R (.loop a f1 f2) (.loop b g1 g2)
  | brk : Rel R .brk .brk
  | cont : Rel R .cont .cont
  | ret : Rel R .ret .ret

end Flow

end Control

/-! ## Statements -/

open Control

/-- A part of a statement that is run as a whole. -/
inductive Leaf where
  | expr (e : Expr)
  | var (pos : Position) (d : VarDecl)
  | assign (pos : Position) (target value : Expr)
  /-- The counter of a loop. -/
  | init (x : String) (e : Expr)
  | test (e : Expr)
  /-- The value of a return. -/
  | value (pos : Position) (e : Expr)

mutual

/-- The control flow of a statement. -/
def Stmt.flow : Stmt → Flow Leaf
  | .block _ body => flowAll body
  | .expr _ e => .atom (.expr e)
  | .var pos d => .atom (.var pos d)
  | .assign pos l r => .atom (.assign pos l r)
  | .cond _ test yes no => .cond (.test test) yes.flow (flowOption no)
  | .loop _ none test post body => .loop (.test test) body.flow (flowOption post)
  | .loop _ (some (x, e)) test post body =>
    .seq (.atom (.init x e)) (.loop (.test test) body.flow (flowOption post))
  | .ret _ none => .ret
  | .ret pos (some e) => .seq (.atom (.value pos e)) .ret
  | .brk _ => .brk
  | .cont _ => .cont

/-- The control flow of a statement that may be missing. -/
def Stmt.flowOption : Option Stmt → Flow Leaf
  | none => .skip
  | some s => s.flow

/-- The control flow of statements one after another. -/
def Stmt.flowAll : List Stmt → Flow Leaf
  | [] => .skip
  | s :: rest => .seq s.flow (flowAll rest)

end

/-- Generates the code of a part that is run as a whole. -/
def Leaf.code (site : Code.Site) : Leaf → Code.Emit Machine.Block
  | .expr e => (Code.lower site e).value
  | .var pos d => Code.varDecl site pos d
  | .assign pos l r => Code.assignment site pos l r
  | .init x e => Code.counter site (some (x, e))
  | .test e => Code.condition site e
  | .value pos e => Code.returnValue site pos e

end Sigil
