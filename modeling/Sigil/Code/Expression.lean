import Sigil.Code.Emission

/-!
# Code for expressions

The value of an expression goes into `rax`; that of an aggregate is its address. Intermediate values
are kept on the stack. An expression that names a place also has code for its address, and every
expression can be built straight into the frame, where literals of aggregates are laid out piece by
piece.

Each form has a rule of its own, which combines the code of its parts (`Lowered`).
-/

namespace Sigil.Code

open Machine (Block Condition Label Line Register)

/-- The code of an expression, as it is generated on demand. -/
structure Lowered where
  ty : Option Ty
  /-- Evaluates it into `rax`. -/
  value : Emit Block
  /-- Puts its address into `rax`. -/
  address : Emit Block
  /-- Builds it as an aggregate of the given type at an offset of the frame. -/
  build : Ty → Int → Emit Block

/-- Builds an aggregate by copying it. -/
def copyInto (site : Site) (pos : Position) (value : Emit Block) (t : Ty) (offset : Int) :
    Emit Block := do
  let size ← site.sizeOf pos t
  let value ← value
  return value ++ [.copy .rax .rsi, .lea (slot offset) .rdi] ++ copyBytes size

/-- The address of an expression that is no place: that of an aggregate is its value. -/
def addressOfValue (m : Mark) (value : Emit Block) : Emit Block := do
  let t ← typed m.ty
  if t.isAggregate then value else refuse .notAddressable

/-- An expression that is computed. -/
def computed (site : Site) (m : Mark) (compute : Ty → Emit Block) : Lowered :=
  let value : Emit Block := do compute (← typed m.ty)
  { ty := m.ty
    value
    address := addressOfValue m value
    build := copyInto site m.pos value }

/-- An expression that is read from a place. -/
def placed (site : Site) (m : Mark) (address : Emit Block) : Lowered :=
  let value : Emit Block := do
    let t ← typed m.ty
    let address ← address
    return if t.isAggregate then address else address ++ load t
  { ty := m.ty
    value
    address
    build := copyInto site m.pos value }

/-- Writes the value of an expression into the frame. -/
def Lowered.initialise (l : Lowered) (t : Ty) (offset : Int) : Emit Block := do
  if t.isAggregate then l.build t offset
  else return (← l.value) ++ storeTo t (slot offset)

/-! ## Literals and operators -/

/-- A constant. -/
def constant (site : Site) (m : Mark) (n : Int) : Lowered :=
  computed site m fun _ => return [.const n .rax]

/-- A string literal is the address of its text. -/
def stringLiteral (site : Site) (m : Mark) (s : String) : Lowered :=
  computed site m fun _ => return [.lea (.label (← string s)) .rax]

/-- Negation. -/
def negation (site : Site) (m : Mark) (l : Lowered) : Lowered :=
  computed site m fun t => return (← l.value) ++ [.instr (.unary .neg .rax)] ++ normalize t

/-- The opposite of a truth value. -/
def opposite (site : Site) (m : Mark) (l : Lowered) : Lowered :=
  computed site m fun _ => return (← l.value) ++ [.xor (.imm 1) .rax]

/-- `&&` and `||`: the right operand is evaluated only if the left one does not decide. -/
def logic (site : Site) (m : Mark) (skip : Condition) (l r : Lowered) : Lowered :=
  computed site m fun _ => do
    let done ← site.label "logic"
    let l ← l.value
    let r ← r.value
    return l ++ [.test .rax, .jumpIf skip done] ++ r ++ [.label done]

/-- Divides `rax` by `rcx`. -/
def division (signed : Bool) : Block :=
  if signed then [.instr .spreadSign, .instr (.divide true .rcx)]
  else [.clear .rdx, .instr (.divide false .rcx)]

/-- The flag that an ordered comparison reads. -/
def conditionOf (signed : Bool) : BinOp → Condition
  | .eq => .e
  | .ne => .ne
  | .lt => if signed then .l else .b
  | .le => if signed then .le else .be
  | .gt => if signed then .g else .a
  | _ => if signed then .ge else .ae

/-- Combines `rax` and `rcx`. -/
def operate (signed : Bool) : BinOp → Block
  | .add => [.add (.reg .rcx) .rax]
  | .sub => [.sub (.reg .rcx) .rax]
  | .mul => [.imul (.reg .rcx) .rax]
  | .div => division signed
  | .rem => division signed ++ [.copy .rdx .rax]
  | op =>
    [.instr (.cmp (.reg .rcx) .rax), .instr (.set (conditionOf signed op) .rax),
      .instr (.extend false .byte (.reg .rax) .rax)]

/-- Arithmetic and comparisons. -/
def operation (site : Site) (m : Mark) (op : BinOp) (l r : Lowered) : Lowered :=
  computed site m fun t => do
    let lt ← typed l.ty
    let l ← l.value
    let r ← r.value
    return l ++ [.push .rax] ++ r ++ [.copy .rax .rcx, .pop .rax] ++ operate lt.isSigned op
      ++ normalize t

/-- Operators between two operands. -/
def binary (site : Site) (m : Mark) (op : BinOp) (l r : Lowered) : Lowered :=
  match op with
  | .and => logic site m .e l r
  | .or => logic site m .ne l r
  | op => operation site m op l r

/-- A conversion: integers take the width and sign of the target, all else keeps its bits. -/
def conversion (site : Site) (m : Mark) (l : Lowered) : Lowered :=
  computed site m fun t => return (← l.value) ++ normalize t

/-! ## Places -/

/-- A local. -/
def localName (site : Site) (m : Mark) (x : String) : Lowered :=
  placed site m do
    match (← get).frame.get? x with
    | some s => return [.lea (slot s.offset) .rax]
    | none => refuse (.unknownLocal x)

/-- A field of a struct. -/
def field (site : Site) (m : Mark) (l : Lowered) (x : String) : Lowered :=
  placed site m do
    match ← typed l.ty with
    | .struct s =>
      match (← site.layout m.pos s).field? x with
      | some f =>
        return (← l.value) ++ if f.offset = 0 then [] else [.add (.imm f.offset) .rax]
      | none => refuse .notAddressable
    | _ => refuse .notAddressable

/-- An element of an array, or what lies at some distance from a pointer. -/
def element (site : Site) (m : Mark) (base idx : Lowered) : Lowered :=
  placed site m do
    let step ← site.sizeOf m.pos (← typed m.ty)
    let base ← base.value
    let idx ← idx.value
    return base ++ [.push .rax] ++ idx ++
      [.const step .rcx, .imul (.reg .rcx) .rax, .pop .rcx, .add (.reg .rcx) .rax]

/-! ## Aggregates -/

/-- The code of an aggregate literal, given how it is laid out at an offset. -/
def literal (site : Site) (m : Mark) (layOut : Ty → Int → Option (Emit Block)) : Lowered :=
  let value : Emit Block := do
    let t ← typed m.ty
    let size ← site.sizeOf m.pos t
    let offset ← temp size
    match layOut t offset with
    | some code => return (← code) ++ [.lea (slot offset) .rax]
    | none => refuse .untyped
  { ty := m.ty
    value
    address := addressOfValue m value
    build := fun t offset =>
      match layOut t offset with
      | some code => do
        let _ ← site.sizeOf m.pos t
        code
      | none => copyInto site m.pos value t offset }

/-- Zero fill. -/
def zeroed (site : Site) (m : Mark) : Lowered :=
  literal site m fun t offset => some do
    let size ← site.sizeOf m.pos t
    return zeroFill offset size

/-- Lays out the fields of a struct literal. -/
def fields (layout : Layout) (offset : Int) : List (String × Lowered) → Emit Block
  | [] => return []
  | (x, l) :: rest => do
    match layout.field? x with
    | none => refuse (.unknownLocal x)
    | some f =>
      let code ← l.initialise f.ty (offset + f.offset)
      return code ++ (← fields layout offset rest)

/-- A struct literal. -/
def structLiteral (site : Site) (m : Mark) (given : List (String × Lowered)) : Lowered :=
  literal site m fun t offset =>
    match t with
    | .struct s => some do fields (← site.layout m.pos s) offset given
    | _ => none

/-- Lays out elements side by side. -/
def elements (t : Ty) (step : Nat) : Int → List Lowered → Emit Block
  | _, [] => return []
  | offset, l :: rest => do
    let code ← l.initialise t offset
    return code ++ (← elements t step (offset + step) rest)

/-- An array literal. -/
def arrayLiteral (site : Site) (m : Mark) (given : List Lowered) : Lowered :=
  literal site m fun t offset =>
    match t with
    | .array _ elem => some do elements elem (← site.sizeOf m.pos elem) offset given
    | _ => none

/-! ## Calls -/

/-- Pushes arguments: simple values as words, aggregates by value. Also the number of bytes. -/
def pushArgs (site : Site) (pos : Position) : List (Lowered × Ty) → Emit (Block × Nat)
  | [] => return ([], 0)
  | (l, t) :: rest => do
    if t.isAggregate then
      let size ← site.sizeOf pos t
      let code ← l.value
      let (more, pushed) ← pushArgs site pos rest
      return (code ++ [.copy .rax .rsi, .sub (.imm (Frame.round8 size)) .rsp, .copy .rsp .rdi]
        ++ copyBytes size ++ more, Frame.round8 size + pushed)
    else
      let code ← l.value
      let (more, pushed) ← pushArgs site pos rest
      return (code ++ [.push .rax] ++ more, 8 + pushed)

/-- Pushes the address of a new slot for a result that is an aggregate. -/
def pushResult (site : Site) (pos : Position) (t : Ty) : Emit (Block × Nat) := do
  if t.isAggregate then
    let offset ← temp (← site.sizeOf pos t)
    return ([.lea (slot offset) .rax, .push .rax], 8)
  else return ([], 0)

/-- Takes pushed bytes off the stack. -/
def dropBytes (n : Nat) : Block :=
  if n = 0 then [] else [.add (.imm n) .rsp]

/-- A call. The last argument is pushed first, and the address for the result comes after the
arguments. -/
def call (site : Site) (m : Mark) (callee : Expr) (args : List Lowered) : Lowered :=
  computed site m fun t => do
    match callee with
    | .ident _ x =>
      match site.symbols.funcs.get? x with
      | some sig =>
        let (args, pushed) ← pushArgs site m.pos (args.zip (sig.params.map (·.2))).reverse
        let (result, more) ← pushResult site m.pos t
        return args ++ result ++ [.call (functionLabel x)] ++ dropBytes (pushed + more)
      | none => refuse (.unknownLocal x)
    | _ => refuse (.unsupported "indirect call")

/-- Pushes the values of arguments in order. -/
def pushAll : List Lowered → Emit Block
  | [] => return []
  | l :: rest => do
    let code ← l.value
    return code ++ [.push .rax] ++ (← pushAll rest)

/-- The registers for the arguments of a routine, in order. -/
def argRegisters : List Register := [.rdi, .rsi, .rdx, .rcx]

/-- A call of a routine. -/
def routineCall (r : Routine) (args : List Lowered) : Emit Block := do
  let code ← pushAll args
  let pops := (argRegisters.take args.length).reverse.map Line.pop
  return code ++ pops ++ [.call (← routine r)]

/-- The routine that writes a value of the given type, and what it needs besides the value. -/
def writer : Ty → Routine × Block
  | .int _ true => (.writeSigned, [])
  | .int _ false => (.writeUnsigned, [])
  | .enum _ => (.writeUnsigned, [])
  | .char => (.writeChar, [])
  | .bool => (.writeBool, [])
  | .array length _ => (.writeBounded, [.const length .rdx])
  | _ => (.writeText, [])

/-- Writes values one by one to the descriptor in a slot. -/
def writeAll (descriptor : Int) : List Lowered → Emit Block
  | [] => return []
  | l :: rest => do
    let (r, extra) := writer (← typed l.ty)
    let code ← l.value
    let target ← routine r
    return code ++ [.copy .rax .rsi] ++ extra ++ [.mov (slot descriptor) .rdi, .call target]
      ++ (← writeAll descriptor rest)

/-- Output of values, and of a line feed if asked for. -/
def output (newline : Bool) : List Lowered → Emit Block
  | [] => return []
  | fd :: values => do
    let descriptor ← temp 8
    let code ← fd.value
    let values ← writeAll descriptor values
    let ending ←
      if newline then do
        let target ← routine .writeChar
        pure [.const 10 .rsi, .mov (slot descriptor) .rdi, .call target]
      else pure []
    return code ++ [.instr (.mov .quad (.reg .rax) (slot descriptor))] ++ values ++ ending

/-- A call of a builtin. -/
def builtin (site : Site) (m : Mark) (b : Builtin) (args : List Lowered) : Lowered :=
  computed site m fun _ =>
    match b with
    | .output => output false args
    | .outputln => output true args
    | .input => routineCall .read args
    | .alloc => routineCall .alloc args
    | .free => routineCall .free args
    | .open_ => routineCall .open_ args
    | .close => routineCall .close args
    | .memcpy => routineCall .copy args

/-! ## All forms -/

mutual

/-- The code of an expression. -/
def lower (site : Site) : Expr → Lowered
  | .intLit m n => constant site m n.toInt
  | .boolLit m b => constant site m (if b then 1 else 0)
  | .charLit m c => constant site m c.toNat
  | .enumLit m _ n => constant site m n.toInt
  | .nil m => constant site m 0
  | .strLit m s => stringLiteral site m s
  | .ident m x => localName site m x
  | .member m e x => field site m (lower site e) x
  | .index m e i => element site m (lower site e) (lower site i)
  | .deref m e => placed site m (lower site e).value
  | .addrOf m e => computed site m fun _ => (lower site e).address
  | .unary m .neg e => negation site m (lower site e)
  | .unary m .not e => opposite site m (lower site e)
  | .binary m op l r => binary site m op (lower site l) (lower site r)
  | .call m callee args => call site m callee (lowerAll site args)
  | .structLit m given => structLiteral site m (lowerFields site given)
  | .arrayLit m given => arrayLiteral site m (lowerAll site given)
  | .zeroed m => zeroed site m
  | .cast m _ e => conversion site m (lower site e)
  | .sizeof m _ => computed site m fun _ => refuse (.unsupported "unresolved @sizeof")
  | .builtin m b args => builtin site m b (lowerAll site args)

/-- The code of expressions. -/
def lowerAll (site : Site) : List Expr → List Lowered
  | [] => []
  | e :: es => lower site e :: lowerAll site es

/-- The code of named expressions. -/
def lowerFields (site : Site) : List (String × Expr) → List (String × Lowered)
  | [] => []
  | (x, e) :: es => (x, lower site e) :: lowerFields site es

end

end Sigil.Code
