import Sigil.Check.Argument
import Sigil.Check.Scope

/-!
# Checking expressions

Every expression gets a type, in the light of the type that its surroundings hint at. Names of global
constants, enum variants and sizes become literals on the way, and an access through a pointer to a
struct reads the struct.

Each form has a rule of its own, a function of the parts of the expression. A part is given with the
tree it has now and the check that is still to be run on it (`Part`), so the rules need no recursion.
-/

namespace Sigil.Check

/-- A part of an expression: its tree, and its check under a hint. -/
structure Part where
  tree : Expr
  check : Option Ty → Checker Expr (Expr × Ty)

/-- Gives an expression its type. -/
def accept (e : Expr) (t : Ty) : Checker Expr (Expr × Ty) :=
  return (e.withTy t, t)

/-- Checks parts one after another. -/
def inOrder : List (Expr × Checker Expr Expr) → Checker (List Expr) (List Expr)
  | [] => return []
  | (_, check) :: rest => do
    let e ← within (· :: rest.map (·.1)) check
    let es ← within (e :: ·) (inOrder rest)
    return e :: es

/-- Whether a part takes its type from where it stands. -/
def Part.isOpen (c : Context) {τ : Type} (p : Part) : Checker τ Bool := do
  return c.isOpen (← get).frame p.tree

/-- Checks a part that is to be stored where `dst` is expected. The value of a part that takes its type
from there has to be in range. -/
def coerce (c : Context) (p : Part) (dst : Ty) : Checker Expr Expr := do
  let isOpen ← p.isOpen c
  let (e, t) ← p.check (some dst)
  unless dst.assignable t do reject e e.pos (mismatch dst t)
  if isOpen then
    let value ← c.intValue? e
    match dst.range?, value with
    | some (lo, hi), some n =>
      if n < lo ∨ hi < n then reject e e.pos (.outOfRange n dst.text)
    | _, _ => pure ()
  return e

/-! ## Literals and names -/

/-- The greatest magnitude that a literal of a type may have: a signed type admits that of its least
value, for a minus sign may come before it. -/
def magnitude (range : Int × Int) : Int :=
  if range.1 < 0 then -range.1 else range.2

/-- An integer literal has the integer type that is hinted at, is a character where one is expected
and small enough, and is a plain integer otherwise. -/
def intRule (m : Mark) (n : Word) (hint : Option Ty) : Checker Expr (Expr × Ty) :=
  let e := Expr.intLit m n
  match hint with
  | some (.int bits signed) =>
    let t := Ty.int bits signed
    match t.range? with
    | some range =>
      if magnitude range < n.toNat then reject e m.pos (.outOfRange n.toNat t.text)
      else accept e t
    | none => accept e t
  | some .char => accept e (if n.toNat ≤ 255 then .char else .uint)
  | _ => accept e .uint

/-- An integer literal as a part. -/
def intPart (m : Mark) (n : Word) : Part :=
  ⟨.intLit m n, intRule m n⟩

/-- `nil` is any pointer. -/
def nilRule (m : Mark) (hint : Option Ty) : Checker Expr (Expr × Ty) :=
  match hint with
  | some (.ptr t) => accept (.nil m) (.ptr t)
  | _ => accept (.nil m) (.ptr .void)

/-- The characters of a text, padded with zeros to the given length. -/
def charElems (pos : Position) (s : String) (length : Nat) : List Expr :=
  let bytes := s.toUTF8.toList
  (bytes ++ List.replicate (length - bytes.length) 0).map (.charLit ⟨pos, some .char⟩)

/-- A string literal stands for its characters where an array of characters is expected. -/
def strRule (m : Mark) (s : String) (hint : Option Ty) : Checker Expr (Expr × Ty) :=
  match hint with
  | some (.array length .char) =>
    if length < s.utf8ByteSize then
      reject (.strLit m s) m.pos (.arrayLength length s.utf8ByteSize)
    else accept (.arrayLit m (charElems m.pos s length)) (.array length .char)
  | _ => accept (.strLit m s) .str

/-- The negation of a part. A part that takes its type from where it stands is signed if nothing else
is expected. -/
def negRule (c : Context) (m : Mark) (p : Part) (hint : Option Ty) : Checker Expr (Expr × Ty) := do
  let fallback := if ← p.isOpen c then some Ty.sint else none
  let (e, t) ← within (.unary m .neg ·) (p.check ((hint.filter Ty.isInt).or fallback))
  if t.isInt then accept (.unary m .neg e) t
  else reject (.unary m .neg e) m.pos (.invalidOperand "-" t.text)

/-- A global constant stands for its value. One without a type is read as if it were written here. -/
def constRule (c : Context) (m : Mark) (const : GlobalConst) (hint : Option Ty) :
    Checker Expr (Expr × Ty) :=
  match const.value, const.ty with
  | .int n, none =>
    if n < 0 then negRule c m (intPart ⟨m.pos, none⟩ (.ofNat 64 n.natAbs)) hint
    else intRule m (.ofInt 64 n) hint
  | .int n, some t => accept (.intLit m (.ofInt 64 n)) t
  | .bool b, t => accept (.boolLit m b) (t.getD .bool)
  | .char b, t => accept (.charLit m b) (t.getD .char)
  | .str s, t => accept (.strLit m s) (t.getD .str)

/-- A name: a global constant, or a local that is not freed. -/
def identRule (c : Context) (m : Mark) (x : String) (hint : Option Ty) :
    Checker Expr (Expr × Ty) := do
  let s ← get
  let e := Expr.ident m x
  match s.frame.get? x with
  | some slot =>
    if s.freed.contains slot.offset then reject e m.pos (.useAfterFree x)
    else accept e slot.ty
  | none =>
    match c.symbols.kind x with
    | some .const => constRule c m (← c.demand e m.pos fun _ => c.symbols.globalConst x) hint
    | some _ => reject e m.pos (.notAValue x)
    | none => reject e m.pos (.unknownIdentifier x)

/-- The size of a type is an integer of the type that is hinted at. -/
def sizeofRule (c : Context) (m : Mark) (type : TypeExpr) (hint : Option Ty) :
    Checker Expr (Expr × Ty) := do
  let size ← c.demand (.sizeof m type) m.pos fun names => do
    names.sizeOf (← names.resolve type)
  accept (.intLit m (.ofNat 64 size)) ((hint.filter Ty.isInt).getD .uint)

/-! ## Operators -/

/-- A part that has to be true or false. -/
def boolPart (p : Part) : Checker Expr Expr := do
  let (e, t) ← p.check (some .bool)
  if t = .bool then return e else reject e e.pos (mismatch .bool t)

/-- `!` on a part. -/
def notRule (m : Mark) (p : Part) : Checker Expr (Expr × Ty) := do
  let (e, t) ← within (.unary m .not ·) (p.check (some .bool))
  if t = .bool then accept (.unary m .not e) .bool
  else reject (.unary m .not e) m.pos (.invalidOperand "!" t.text)

/-- `&&` and `||`. -/
def logicRule (m : Mark) (op : BinOp) (l r : Part) : Checker Expr (Expr × Ty) := do
  let l' ← within (.binary m op · r.tree) (boolPart l)
  let r' ← within (.binary m op l' ·) (boolPart r)
  accept (.binary m op l' r') .bool

/-- Checks both operands. If only the left one takes its type from where it stands, the right one comes
first; the second one is checked in the light of the first. -/
def operandsRule (c : Context) (m : Mark) (op : BinOp) (l r : Part) (hint : Option Ty) :
    Checker Expr ((Expr × Ty) × (Expr × Ty)) := do
  if (← l.isOpen c) && !(← r.isOpen c) then
    let (r', rt) ← within (.binary m op l.tree ·) (r.check hint)
    let (l', lt) ← within (.binary m op · r') (l.check (some rt))
    return ((l', lt), (r', rt))
  else
    let (l', lt) ← within (.binary m op · r.tree) (l.check hint)
    let (r', rt) ← within (.binary m op l' ·) (r.check (some lt))
    return ((l', lt), (r', rt))

/-- The operands differ in type. Each may have had its sign only by default. -/
def clash (e l r : Expr) (lt rt : Ty) : Checker Expr (Expr × Ty) := do
  modify fun s => (s.learn l rt).learn r lt
  reject e r.pos (mismatch lt rt)

/-- Arithmetic has operands of one type. -/
def arithRule (c : Context) (m : Mark) (op : BinOp) (l r : Part) (hint : Option Ty) :
    Checker Expr (Expr × Ty) := do
  let ((l', lt), (r', rt)) ← operandsRule c m op l r (hint.filter Ty.isOrdered)
  let e := Expr.binary m op l' r'
  if !lt.isOrdered then reject e m.pos (.invalidOperand op.text lt.text)
  else if lt ≠ rt then clash e l' r' lt rt
  else accept e lt

/-- A comparison: equality is for all simple types, order for those that have one. -/
def compareRule (c : Context) (m : Mark) (op : BinOp) (l r : Part) : Checker Expr (Expr × Ty) := do
  let ((l', lt), (r', rt)) ← operandsRule c m op l r none
  let e := Expr.binary m op l' r'
  if !(lt.isOrdered || lt.isComparable && (op = .eq || op = .ne)) then
    reject e m.pos (.invalidOperand op.text lt.text)
  else if !(lt.assignable rt || rt.assignable lt) then clash e l' r' lt rt
  else accept e .bool

/-- An operator between two parts. -/
def binaryRule (c : Context) (m : Mark) (op : BinOp) (l r : Part) (hint : Option Ty) :
    Checker Expr (Expr × Ty) :=
  match op with
  | .and | .or => logicRule m op l r
  | .add | .sub | .mul | .div | .rem => arithRule c m op l r hint
  | .eq | .ne | .lt | .le | .gt | .ge => compareRule c m op l r

/-! ## Pointers and aggregates -/

/-- The address of a place. -/
def addrOfRule (m : Mark) (p : Part) (hint : Option Ty) : Checker Expr (Expr × Ty) := do
  let inner :=
    match hint with
    | some (.ptr t) => some t
    | _ => none
  let (e, t) ← within (.addrOf m ·) (p.check inner)
  if e.isPlace then accept (.addrOf m e) (.ptr t)
  else reject (.addrOf m e) m.pos .notAddressable

/-- What a pointer points to. -/
def derefRule (m : Mark) (p : Part) (hint : Option Ty) : Checker Expr (Expr × Ty) := do
  let (e, t) ← within (.deref m ·) (p.check (hint.map .ptr))
  match t with
  | .ptr .void => reject (.deref m e) m.pos (.notAPointer t.text)
  | .ptr target => accept (.deref m e) target
  | _ => reject (.deref m e) m.pos (.notAPointer t.text)

/-- A field of a struct, or of the struct that a pointer points to. -/
def fieldRule (c : Context) (m : Mark) (p : Part) (x : String) : Checker Expr (Expr × Ty) := do
  let (e, t) ← within (.member m · x) (p.check none)
  let (e, t) :=
    match t with
    | .ptr (.struct s) => (Expr.deref ⟨m.pos, some (.struct s)⟩ e, Ty.struct s)
    | t => (e, t)
  match t with
  | .struct s =>
    let layout ← c.demand (.member m e x) m.pos fun _ => c.symbols.layout s
    match layout.field? x with
    | some f => accept (.member m e x) f.ty
    | none => reject (.member m e x) m.pos (.noSuchField s x)
  | t => reject (.member m e x) m.pos (.notAStruct t.text)

/-- The enum that an expression names. -/
def enumName? (c : Context) (f : Frame) : Expr → Option String
  | .ident _ x => if !f.isLocal x && c.symbols.kind x == some .enum then some x else none
  | _ => none

/-- A variant of an enum, or a field. -/
def memberRule (c : Context) (m : Mark) (p : Part) (x : String) : Checker Expr (Expr × Ty) := do
  match enumName? c (← get).frame p.tree with
  | some enum =>
    match c.symbols.variant enum x with
    | some ordinal => accept (.enumLit m enum (.ofNat 64 ordinal)) (.enum enum)
    | none => reject (.member m p.tree x) m.pos (.noSuchVariant enum x)
  | none => fieldRule c m p x

/-- An element of an array, or what lies at some distance from a pointer. An index that is known has to
be within the array. -/
def indexRule (c : Context) (m : Mark) (base idx : Part) : Checker Expr (Expr × Ty) := do
  let (b, t) ← within (.index m · idx.tree) (base.check none)
  let (i, it) ← within (.index m b ·) (idx.check (some .uint))
  let e := Expr.index m b i
  unless it.isInt do reject e i.pos (mismatch .uint it)
  match t with
  | .array length elem =>
    match ← c.intValue? i with
    | some n =>
      if n < 0 ∨ length ≤ n then reject e i.pos (.indexOutOfBounds n length)
      else accept e elem
    | none => accept e elem
  | .ptr .void => reject e m.pos (.notIndexable t.text)
  | .ptr elem => accept e elem
  | .str => accept e .char
  | _ => reject e m.pos (.notIndexable t.text)

/-- The first fault among the fields of a struct literal. -/
def fieldFault? (struct : String) (layout : Layout) : List String → List String → Option TypeError
  | _, [] => none
  | seen, x :: rest =>
    if (layout.field? x).isNone then some (.noSuchField struct x)
    else if seen.contains x then some (.duplicateField x)
    else fieldFault? struct layout (x :: seen) rest

/-- Fills the fields of a struct, in the order of its layout. -/
def fillFields (c : Context) (pos : Position) (given : List (String × Part)) :
    List Field → Checker (List (String × Expr)) (List (String × Expr))
  | [] => return []
  | f :: rest => do
    match given.lookup f.name with
    | none => reject [] pos (.missingField f.name)
    | some p =>
      let e ← within (fun _ => []) (coerce c p f.ty)
      let es ← within ((f.name, e) :: ·) (fillFields c pos given rest)
      return (f.name, e) :: es

/-- A struct literal gives every field of the struct that is expected once. -/
def structRule (c : Context) (m : Mark) (given : List (String × Part)) (hint : Option Ty) :
    Checker Expr (Expr × Ty) := do
  let tree := Expr.structLit m (given.map fun (x, p) => (x, p.tree))
  match hint with
  | some (.struct s) =>
    let layout ← c.demand tree m.pos fun _ => c.symbols.layout s
    match fieldFault? s layout [] (given.map (·.1)) with
    | some e => reject (.structLit m []) m.pos e
    | none =>
      let fields ← within (.structLit m ·) (fillFields c m.pos given layout.fields)
      accept (.structLit m fields) (.struct s)
  | _ => reject tree m.pos (.cannotInfer "struct literal")

/-- Whether the parts are those of the literal `[0]`. -/
def isZeroFill : List Part → Bool
  | [⟨.intLit _ n, _⟩] => n == 0
  | _ => false

/-- An array literal. `[0]` fills an array of any length. -/
def arrayRule (c : Context) (m : Mark) (ps : List Part) (hint : Option Ty) :
    Checker Expr (Expr × Ty) := do
  let tree := Expr.arrayLit m (ps.map (·.tree))
  match hint with
  | some (.array length elem) =>
    if isZeroFill ps then accept (.zeroed m) (.array length elem)
    else if ps.length ≠ length then reject tree m.pos (.arrayLength length ps.length)
    else
      let es ← within (.arrayLit m ·) (inOrder (ps.map fun p => (p.tree, coerce c p elem)))
      accept (.arrayLit m es) (.array length elem)
  | _ =>
    match ps with
    | [] => reject tree m.pos (.cannotInfer "empty array literal")
    | p :: ps =>
      let (e, elem) ← within (fun e => .arrayLit m (e :: ps.map (·.tree))) (p.check none)
      let es ← within (fun es => .arrayLit m (e :: es))
        (inOrder (ps.map fun p => (p.tree, coerce c p elem)))
      accept (.arrayLit m (e :: es)) (.array (ps.length + 1) elem)

/-- Zero fill has the type that is hinted at. -/
def zeroedRule (m : Mark) (hint : Option Ty) : Checker Expr (Expr × Ty) :=
  match hint with
  | some t => accept (.zeroed m) t
  | none => reject (.zeroed m) m.pos (.cannotInfer "`[0]`")

/-- A conversion. -/
def castRule (c : Context) (m : Mark) (type : TypeExpr) (p : Part) : Checker Expr (Expr × Ty) := do
  let target ← c.demand (.cast m type p.tree) m.pos (·.resolve type)
  let (e, source) ← within (.cast m type ·) (p.check (if target.isInt then some target else none))
  if source.castable target then accept (.cast m type e) target
  else reject (.cast m type e) m.pos (.invalidCast source.text target.text)

/-! ## Calls -/

/-- A call of a function with its parameters. -/
def callRule (c : Context) (m : Mark) (callee : Expr) (args : List Part) :
    Checker Expr (Expr × Ty) := do
  let tree := Expr.call m callee (args.map (·.tree))
  match callee with
  | .ident _ x =>
    if (← get).frame.isLocal x then reject tree m.pos (.notCallable "expression")
    match c.symbols.funcs.get? x with
    | some sig =>
      if sig.params.length ≠ args.length then
        reject tree m.pos (.arityMismatch x sig.params.length args.length)
      let es ← within (.call m callee ·)
        (inOrder ((args.zip sig.params).map fun (p, (_, t)) => (p.tree, coerce c p t)))
      accept (.call m callee es) sig.ret
    | none =>
      if (c.symbols.kind x).isSome then reject tree m.pos (.notCallable x)
      else reject tree m.pos (.unknownIdentifier x)
  | _ => reject tree m.pos (.notCallable "expression")

/-- Checks an argument of a builtin by its role. -/
def argument (b : Builtin) (p : Part) (role : Role) : Checker Expr Expr := do
  let (e, t) ← p.check role.hint
  if role.accepts t then return e else reject e e.pos (role.complaint b t)

/-- A call of a builtin. -/
def builtinRule (m : Mark) (b : Builtin) (args : List Part) : Checker Expr (Expr × Ty) := do
  let tree := Expr.builtin m b (args.map (·.tree))
  match roles b args.length with
  | .error expected => reject tree m.pos (.arityMismatch ("@" ++ b.name) expected args.length)
  | .ok rs =>
    let es ← within (.builtin m b ·)
      (inOrder ((args.zip rs).map fun (p, role) => (p.tree, argument b p role)))
    accept (.builtin m b es) (resultOf b)

/-! ## All forms -/

mutual

/-- Checks an expression under a hint. -/
def expr (c : Context) : Expr → Option Ty → Checker Expr (Expr × Ty)
  | .intLit m n => intRule m n
  | .boolLit m b => fun _ => accept (.boolLit m b) .bool
  | .charLit m b => fun _ => accept (.charLit m b) .char
  | .strLit m s => strRule m s
  | .nil m => nilRule m
  | .ident m x => identRule c m x
  | .binary m op l r => binaryRule c m op ⟨l, expr c l⟩ ⟨r, expr c r⟩
  | .unary m .neg e => negRule c m ⟨e, expr c e⟩
  | .unary m .not e => fun _ => notRule m ⟨e, expr c e⟩
  | .addrOf m e => addrOfRule m ⟨e, expr c e⟩
  | .deref m e => derefRule m ⟨e, expr c e⟩
  | .call m callee args => fun _ => callRule c m callee (parts c args)
  | .member m e x => fun _ => memberRule c m ⟨e, expr c e⟩ x
  | .index m e i => fun _ => indexRule c m ⟨e, expr c e⟩ ⟨i, expr c i⟩
  | .structLit m fields => structRule c m (fieldParts c fields)
  | .arrayLit m es => arrayRule c m (parts c es)
  | .cast m type e => fun _ => castRule c m type ⟨e, expr c e⟩
  | .sizeof m type => sizeofRule c m type
  | .builtin m b args => fun _ => builtinRule m b (parts c args)
  | .zeroed m => zeroedRule m
  | .enumLit m x n => fun _ => accept (.enumLit m x n) (.enum x)

/-- Expressions as parts. -/
def parts (c : Context) : List Expr → List Part
  | [] => []
  | e :: es => ⟨e, expr c e⟩ :: parts c es

/-- Named expressions as parts. -/
def fieldParts (c : Context) : List (String × Expr) → List (String × Part)
  | [] => []
  | (x, e) :: es => (x, ⟨e, expr c e⟩) :: fieldParts c es

end

/-- An expression as a part. -/
def part (c : Context) (e : Expr) : Part :=
  ⟨e, expr c e⟩

end Sigil.Check
