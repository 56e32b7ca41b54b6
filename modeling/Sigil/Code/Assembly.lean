import Sigil.Code.Statement

/-!
# Assembly

The code of whole programs. Functions come in the order of their definition, behind the entry and
before the routines they call; the data of the routines comes before the texts of string literals.
-/

namespace Sigil

open Machine (Block)

/-- A function in machine code, with its frame. -/
structure FunctionCode where
  code : Block
  /-- The size of the frame in bytes. -/
  frame : Nat
  /-- The named slots in the order of their declaration. -/
  slots : List (String × Slot)

/-- A program in machine code. -/
structure Assembly where
  funcs : Assoc FunctionCode
  pool : Pool

namespace Code

/-- Sets up a frame. -/
def prologue (frame : Nat) : Block :=
  [.push .rbp, .copy .rsp .rbp] ++ if frame = 0 then [] else [.sub (.imm frame) .rsp]

/-- Takes a frame down and returns. -/
def epilogue : Block :=
  [.copy .rbp .rsp, .pop .rbp, .ret]

/-- The arguments of a function with their sizes. -/
def sizedArgs (site : Site) (pos : Position) : List (String × Ty) → Emit (List (String × Ty × Nat))
  | [] => return []
  | (x, t) :: rest => do
    let size ← site.sizeOf pos t
    return (x, t, size) :: (← sizedArgs site pos rest)

/-- The code of a function that is defined at `pos`. One that does not return by itself returns
zero. -/
def function (site : Site) (pos : Position) (sig : Signature) (body : List Stmt) :
    Emit FunctionCode := do
  let args ← sizedArgs site pos sig.params
  modify fun s => { s with frame := .ofArgs args sig.ret.isAggregate, labels := 0 }
  let body ← enclosed (stmts site none body)
  let frame := (← get).frame
  return {
    code := [.label (functionLabel site.name)] ++ prologue frame.size ++ body ++
      [.const 0 .rax, .label site.returnLabel] ++ epilogue
    frame := frame.size
    slots := frame.named }

/-- The code of the functions of a program. Of two with one name the later one counts, in the place of
the earlier one. -/
def functions (t : Symbols) : Program → Assoc FunctionCode → Emit (Assoc FunctionCode)
  | [], done => return done
  | d :: ds, done => do
    match d.body, t.funcs.get? d.name with
    | .func f, some sig =>
      let code ← function ⟨t, d.name, sig.ret⟩ d.pos sig f.body
      functions t ds (done.put d.name code)
    | _, _ => functions t ds done

end Code

namespace Assembly

/-- The assembly of a typed program, or the reason why there is none. -/
def ofProgram (t : Symbols) (p : Program) : Except Error Assembly :=
  match Code.functions t p [] ⟨.ofArgs [] false, 0, .empty⟩ with
  | (.ok funcs, s) => .ok ⟨funcs, s.pool⟩
  | (.error e, _) => .error e

/-- All lines of an assembly file. -/
def lines (a : Assembly) : Block :=
  [.directive "text"] ++ entry (Code.functionLabel "main")
    ++ a.funcs.flatMap (fun (_, f) => f.code)
    ++ a.pool.closure.flatMap Routine.text
    ++ [.directive "data"]
    ++ a.pool.closure.flatMap Routine.data
    ++ a.pool.data

/-- The text of an assembly file. -/
def text (a : Assembly) : String :=
  String.join (a.lines.map fun l => l.text ++ "\n")

end Assembly

end Sigil
