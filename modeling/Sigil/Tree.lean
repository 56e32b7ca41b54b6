import Sigil.Token
import Sigil.Ty

/-!
# Syntax trees

Programs as the grammar builds them. An expression carries its place and, once it has been checked, its
type; checking also brings in the two forms that have no spelling of their own, zero fill and enum
values. A type that is written down is a tree too, since an array's length is an expression.
-/

namespace Sigil

/-- What every expression carries: its place and, once checked, its type. -/
structure Mark where
  pos : Position
  ty : Option Ty
deriving DecidableEq, Repr, Inhabited

/-- Operators between two operands. -/
inductive BinOp where
  | add | sub | mul | div | rem
  | eq | ne | lt | le | gt | ge
  | and | or
deriving DecidableEq, Repr

namespace BinOp

/-- How the operator is written. -/
def text : BinOp → String
  | add => "+" | sub => "-" | mul => "*" | div => "/" | rem => "%"
  | eq => "==" | ne => "!=" | lt => "<" | le => "<=" | gt => ">" | ge => ">="
  | and => "&&" | or => "||"

/-- Whether the result has the type of the operands. -/
def isArith : BinOp → Bool
  | add | sub | mul | div | rem => true
  | _ => false

/-- Whether the operator compares two values. -/
def isCompare : BinOp → Bool
  | eq | ne | lt | le | gt | ge => true
  | _ => false

end BinOp

/-- Operators before one operand. -/
inductive UnOp where
  | neg | not
deriving DecidableEq, Repr

/-- The services of the run-time library. -/
inductive Builtin where
  | output | outputln | input | alloc | free | open_ | close | memcpy
deriving DecidableEq, Repr

namespace Builtin

/-- All services. -/
def all : List Builtin :=
  [output, outputln, input, alloc, free, open_, close, memcpy]

/-- The name by which a service is called. -/
def name : Builtin → String
  | output => "output" | outputln => "outputln" | input => "input" | alloc => "alloc"
  | free => "free" | open_ => "open" | close => "close" | memcpy => "memcpy"

/-- The service with the given name. -/
def ofName? (s : String) : Option Builtin :=
  all.find? fun b => b.name == s

end Builtin

mutual

/-- A type as it is written. -/
inductive TypeExpr where
  /-- An integer type; without a mark the sign is still open. -/
  | int (bits : Nat) (signed : Option Bool)
  | char
  | bool
  | str
  | void
  | named (name : String)
  | ptr (target : TypeExpr)
  | array (length : Expr) (elem : TypeExpr)

/-- An expression. -/
inductive Expr where
  /-- An integer; once typed, the word that represents it. -/
  | intLit (m : Mark) (bits : Word)
  | boolLit (m : Mark) (value : Bool)
  | charLit (m : Mark) (value : UInt8)
  | strLit (m : Mark) (contents : String)
  | nil (m : Mark)
  | ident (m : Mark) (name : String)
  | binary (m : Mark) (op : BinOp) (left right : Expr)
  | unary (m : Mark) (op : UnOp) (arg : Expr)
  | addrOf (m : Mark) (arg : Expr)
  | deref (m : Mark) (arg : Expr)
  | call (m : Mark) (callee : Expr) (args : List Expr)
  | member (m : Mark) (base : Expr) (field : String)
  | index (m : Mark) (base idx : Expr)
  | structLit (m : Mark) (fields : List (String × Expr))
  | arrayLit (m : Mark) (elems : List Expr)
  | cast (m : Mark) (target : TypeExpr) (arg : Expr)
  | sizeof (m : Mark) (of : TypeExpr)
  | builtin (m : Mark) (service : Builtin) (args : List Expr)
  /-- An array or struct filled with zeros. -/
  | zeroed (m : Mark)
  /-- A variant of an enum, by its ordinal. -/
  | enumLit (m : Mark) (enum : String) (ordinal : Word)

end

/-- The value of an integer literal: a word that has been given a signed type is read as signed. -/
def readWord (ty : Option Ty) (bits : Word) : Int :=
  match ty with
  | some t => if t.isSigned then bits.toInt else bits.toNat
  | none => bits.toNat

namespace Expr

/-- What an expression carries. -/
def mark : Expr → Mark
  | intLit m _ | boolLit m _ | charLit m _ | strLit m _ | nil m | ident m _ | binary m _ _ _
  | unary m _ _ | addrOf m _ | deref m _ | call m _ _ | member m _ _ | index m _ _
  | structLit m _ | arrayLit m _ | cast m _ _ | sizeof m _ | builtin m _ _ | zeroed m
  | enumLit m _ _ => m

/-- The place of an expression. -/
def pos (e : Expr) : Position := e.mark.pos

/-- The type of an expression, once it has been checked. -/
def ty (e : Expr) : Option Ty := e.mark.ty

/-- The same expression with another mark. -/
def withMark (m : Mark) : Expr → Expr
  | intLit _ n => intLit m n
  | boolLit _ b => boolLit m b
  | charLit _ c => charLit m c
  | strLit _ s => strLit m s
  | nil _ => nil m
  | ident _ x => ident m x
  | binary _ op l r => binary m op l r
  | unary _ op e => unary m op e
  | addrOf _ e => addrOf m e
  | deref _ e => deref m e
  | call _ f args => call m f args
  | member _ e x => member m e x
  | index _ e i => index m e i
  | structLit _ fs => structLit m fs
  | arrayLit _ es => arrayLit m es
  | cast _ t e => cast m t e
  | sizeof _ t => sizeof m t
  | builtin _ b args => builtin m b args
  | zeroed _ => zeroed m
  | enumLit _ x n => enumLit m x n

/-- The same expression with the given type. -/
def withTy (t : Ty) (e : Expr) : Expr :=
  e.withMark { e.mark with ty := some t }

@[simp] theorem mark_withMark (m : Mark) (e : Expr) : (e.withMark m).mark = m := by
  cases e <;> rfl

@[simp] theorem pos_withTy (t : Ty) (e : Expr) : (e.withTy t).pos = e.pos := by
  simp [withTy, pos]

@[simp] theorem ty_withTy (t : Ty) (e : Expr) : (e.withTy t).ty = some t := by
  simp [withTy, ty]

end Expr

instance : Inhabited Expr := ⟨.nil default⟩

instance : Inhabited TypeExpr := ⟨.void⟩

/-- The declaration of a local name. -/
structure VarDecl where
  name : String
  type : Option TypeExpr
  init : Option Expr
  mutable : Bool
  /-- The type, once it has been checked. -/
  resolved : Option Ty

/-- A statement. -/
inductive Stmt where
  | block (pos : Position) (body : List Stmt)
  | expr (pos : Position) (e : Expr)
  | assign (pos : Position) (target value : Expr)
  | var (pos : Position) (decl : VarDecl)
  | cond (pos : Position) (test : Expr) (yes : Stmt) (no : Option Stmt)
  | loop (pos : Position) (init : Option (String × Expr)) (test : Expr) (post : Option Stmt)
    (body : Stmt)
  | ret (pos : Position) (value : Option Expr)
  | brk (pos : Position)
  | cont (pos : Position)

/-- The place of a statement. -/
def Stmt.pos : Stmt → Position
  | block p _ | expr p _ | assign p _ _ | var p _ | cond p _ _ _ | loop p _ _ _ _ | ret p _
  | brk p | cont p => p

instance : Inhabited Stmt := ⟨.block default []⟩

/-- A function. -/
structure Func where
  params : List (String × TypeExpr)
  ret : TypeExpr
  body : List Stmt

/-- What a top-level name is defined as. -/
inductive DefBody where
  | func (f : Func)
  | struct (fields : List (String × TypeExpr))
  | enum (variants : List String)
  | const (type : Option TypeExpr) (value : Expr)

/-- A top-level definition; its place is that of its name. -/
structure Def where
  name : String
  pos : Position
  body : DefBody

/-- A program: its definitions in order. -/
abbrev Program := List Def

end Sigil
