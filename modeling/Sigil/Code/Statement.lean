import Sigil.Code.Expression

/-!
# Code for statements

A condition falls through if it holds. Loops and conditionals jump to labels of their own; `break` and
`continue` jump to those of the innermost loop, and a return jumps to the end of the function.
-/

namespace Sigil.Code

open Machine (Block Label)

/-- Where `continue` and `break` jump to. -/
structure Exits where
  next : Label
  done : Label
deriving DecidableEq, Repr

/-- Generates code in a scope of its own. -/
def enclosed {α : Type} (x : Emit α) : Emit α := do
  modify fun s => { s with frame := s.frame.enter }
  let a ← x
  modify fun s => { s with frame := s.frame.leave }
  return a

/-- Generates the code of a statement that depends on a condition. One that is no block has a scope of
its own nevertheless. -/
def nest (s : Stmt) (code : Emit Block) : Emit Block :=
  match s with
  | .block _ _ => code
  | _ => enclosed code

/-- Sets the flags by a condition. -/
def condition (site : Site) (e : Expr) : Emit Block :=
  return (← (lower site e).value) ++ [.test .rax]

/-- A declaration. The initial value is computed before the name is known. -/
def varDecl (site : Site) (pos : Position) (d : VarDecl) : Emit Block := do
  let t ← typed d.resolved
  let size ← site.sizeOf pos t
  let offset ← temp size
  let code ←
    match d.init with
    | some e => (lower site e).initialise t offset
    | none => pure (zeroFill offset size)
  bind d.name t offset d.mutable
  return code

/-- An assignment. The value is computed before the place. -/
def assignment (site : Site) (pos : Position) (l r : Expr) : Emit Block := do
  let t ← typed l.ty
  if t.isAggregate then
    let size ← site.sizeOf pos t
    let value ← (lower site r).value
    let place ← (lower site l).address
    return value ++ [.push .rax] ++ place ++ [.copy .rax .rdi, .pop .rsi] ++ copyBytes size
  else
    let value ← (lower site r).value
    let place ← (lower site l).address
    return value ++ [.push .rax] ++ place ++ [.copy .rax .rcx, .pop .rax] ++ store t

/-- The counter of a loop. -/
def counter (site : Site) : Option (String × Expr) → Emit Block
  | none => return []
  | some (x, e) => do
    let t ← typed e.ty
    let offset ← temp 8
    let code ← (lower site e).initialise t offset
    bind x t offset true
    return code

/-- A return. An aggregate is copied to where the caller wants it, and its address is handed back. -/
def returnCode (site : Site) (pos : Position) : Option Expr → Emit Block
  | none => return [.jump site.returnLabel]
  | some e => do
    if site.ret.isAggregate then
      let size ← site.sizeOf pos site.ret
      let value ← (lower site e).value
      return value ++ [.copy .rax .rsi, .mov (slot 16) .rdi] ++ copyBytes size
        ++ [.mov (slot 16) .rax, .jump site.returnLabel]
    else
      return (← (lower site e).value) ++ normalize site.ret ++ [.jump site.returnLabel]

/-- A jump out of a loop or to its next round. -/
def exit (exits : Option Exits) (target : Exits → Label) : Emit Block :=
  match exits with
  | some x => return [.jump (target x)]
  | none => refuse (.unsupported "jump outside of a loop")

mutual

/-- The code of a statement. -/
def stmt (site : Site) (exits : Option Exits) : Stmt → Emit Block
  | .block _ body => enclosed (stmts site exits body)
  | .expr _ e => (lower site e).value
  | .var pos d => varDecl site pos d
  | .assign pos l r => assignment site pos l r
  | .cond _ test yes no => do
    let otherwise ← site.label "else"
    let done ← site.label "endif"
    let test ← condition site test
    let yes ← nest yes (stmt site exits yes)
    let no ← optional site exits no
    return test ++ [.jumpIf .e otherwise] ++ yes ++ [.jump done, .label otherwise] ++ no
      ++ [.label done]
  | .loop _ init test post body => do
    let start ← site.label "loop"
    let next ← site.label "next"
    let done ← site.label "endloop"
    enclosed do
      let init ← counter site init
      let test ← condition site test
      let body ← nest body (stmt site (some ⟨next, done⟩) body)
      let post ← optional site (some ⟨next, done⟩) post
      return init ++ [.label start] ++ test ++ [.jumpIf .e done] ++ body ++ [.label next] ++ post
        ++ [.jump start, .label done]
  | .ret pos e => returnCode site pos e
  | .brk _ => exit exits Exits.done
  | .cont _ => exit exits Exits.next

/-- The code of a statement that depends on a condition and may be missing. -/
def optional (site : Site) (exits : Option Exits) : Option Stmt → Emit Block
  | none => return []
  | some s => nest s (stmt site exits s)

/-- The code of statements. -/
def stmts (site : Site) (exits : Option Exits) : List Stmt → Emit Block
  | [] => return []
  | s :: rest => do
    let code ← stmt site exits s
    return code ++ (← stmts site exits rest)

end

end Sigil.Code
