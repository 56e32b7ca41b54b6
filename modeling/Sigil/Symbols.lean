import Sigil.Constant.Eval

/-!
# The symbol table

What the top-level names of a program stand for. The first definition of a name counts; later ones are
reported. Layouts and constants refer to one another by name, in any order, so each is worked out when
it is asked for. A name that is reached again while it is in progress contains itself or has no value.

`Symbols.namesOfDepth` gives names their meaning down to a given depth of such references. A reference
always puts one more name in progress, so the number of structs and constants is depth enough; at depth
zero every one of them is in progress.
-/

namespace Sigil

/-- The parameters of a function, in order, and its result. -/
structure Signature where
  params : List (String × Ty)
  ret : Ty
deriving DecidableEq, Repr

/-- The top-level names of a program. -/
structure Symbols where
  /-- All names, in the order of their definition, with their kind and place. -/
  defs : Assoc (SymbolKind × Position)
  structs : Assoc (List (String × TypeExpr))
  consts : Assoc (Option TypeExpr × Expr)
  /-- The variants of each enum with their ordinals. -/
  enums : Assoc (Assoc Nat)
  funcs : Assoc Signature
  memo : Memo

namespace Symbols

/-- No names. -/
def empty : Symbols := ⟨[], [], [], [], [], .empty⟩

/-- What a name stands for. -/
def kind (t : Symbols) (x : String) : Option SymbolKind :=
  (t.defs.get? x).map (·.1)

/-- The ordinal of a variant of an enum. -/
def variant (t : Symbols) (x v : String) : Option Nat :=
  (t.enums.get? x).bind (·.get? v)

/-! ## Working out layouts and constants -/

/-- Runs an evaluation with a name in progress. Whatever the outcome, the name is not in progress
afterwards. -/
def during {α : Type} (x : String) (body : Eval α) : Eval α := fun s =>
  let (r, s') := body { s with inProgress := x :: s.inProgress }
  (r, { s' with inProgress := s'.inProgress.erase x })

/-- Whether a name is in progress. -/
def isInProgress (x : String) : Eval Bool :=
  fun s => (.ok (s.inProgress.contains x), s)

/-- The layout of the fields of the struct `x`, after those that have been laid out. -/
def layoutFields (names : Names) (x : String) : Layout → List (String × TypeExpr) → Eval Layout
  | done, [] => return done
  | done, (f, t) :: rest => do
    if (done.field? f).isSome then Eval.reject (.duplicate (x ++ "." ++ f))
    let ty ← names.resolve t
    let size ← names.sizeOf ty
    if maxObject < done.size + size then
      Eval.reject (.outOfRange (done.size + size : Nat) "struct size")
    layoutFields names x (done.append f ty size) rest

/-- The layout of a struct, over the names that its fields refer to. -/
def layoutBy (t : Symbols) (names : Names) (x : String) : Eval Layout := do
  match (← get).layouts.get? x with
  | some l => return l
  | none =>
    match t.structs.get? x with
    | none => Eval.reject (.unknownType x)
    | some fields =>
      if ← isInProgress x then Eval.reject (.recursiveType x)
      let l ← during x (layoutFields names x .empty fields)
      modify fun s => { s with layouts := s.layouts.put x l }
      return l

/-- The type of a constant without a declared type: integers have none. -/
def typeOfValue : Constant → Option Ty
  | .int _ => none
  | .bool _ => some .bool
  | .char _ => some .char
  | .str _ => some .str

/-- A constant from its definition. -/
def constantOf (names : Names) (type : Option TypeExpr) (value : Expr) : Eval GlobalConst := do
  let v ← names.eval value
  let ty ←
    match type with
    | some t => do pure (some (← names.resolve t))
    | none => pure (typeOfValue v)
  match v.check ty with
  | .ok () => return ⟨ty, v⟩
  | .error e => Eval.reject e

/-- A global constant, over the names that its definition refers to. -/
def constantBy (t : Symbols) (names : Names) (x : String) : Eval GlobalConst := do
  match (← get).constants.get? x with
  | some c => return c
  | none =>
    match t.consts.get? x with
    | none => Eval.reject (.unknownIdentifier x)
    | some (type, value) =>
      if ← isInProgress x then Eval.reject .notConstant
      let c ← during x (constantOf names type value)
      modify fun s => { s with constants := s.constants.put x c }
      return c

/-- The value of a name, given how global constants are worked out. -/
def valueBy (t : Symbols) (constant : String → Eval GlobalConst) (x : String) :
    Eval (Option Constant) := do
  match t.kind x with
  | some .const => return some (← constant x).value
  | _ => return none

/-- A layout that is at hand. -/
def layoutAtHand (t : Symbols) (x : String) : Eval Layout := do
  match (← get).layouts.get? x with
  | some l => return l
  | none => Eval.reject (if t.structs.has x then .recursiveType x else .unknownType x)

/-- A constant that is at hand. -/
def constantAtHand (t : Symbols) (x : String) : Eval GlobalConst := do
  match (← get).constants.get? x with
  | some c => return c
  | none => Eval.reject (if t.consts.has x then .notConstant else .unknownIdentifier x)

/-- What names mean down to a depth of references. -/
def namesOfDepth (t : Symbols) : Nat → Names
  | 0 =>
    { kind := t.kind
      variant := t.variant
      constant := t.valueBy t.constantAtHand
      layout := t.layoutAtHand }
  | n + 1 =>
    { kind := t.kind
      variant := t.variant
      constant := t.valueBy fun x => t.constantBy (t.namesOfDepth n) x
      layout := fun x => t.layoutBy (t.namesOfDepth n) x }

/-- The depth of references that is enough for every name. -/
def depth (t : Symbols) : Nat :=
  t.structs.length + t.consts.length

/-- What names mean. -/
def names (t : Symbols) : Names :=
  t.namesOfDepth (t.depth + 1)

/-- The layout of a struct. -/
def layout (t : Symbols) (x : String) : Eval Layout :=
  t.layoutBy (t.namesOfDepth t.depth) x

/-- A global constant. -/
def globalConst (t : Symbols) (x : String) : Eval GlobalConst :=
  t.constantBy (t.namesOfDepth t.depth) x

/-! ## Building the table -/

/-- The variants of an enum by ordinal; of two with one name the first counts. Also the names that
occur again. -/
def enumVariants (variants : List String) : Assoc Nat × List String :=
  variants.zipIdx.foldl
    (fun (known, again) (v, ordinal) =>
      if Assoc.has v known then (known, again ++ [v]) else (known ++ [(v, ordinal)], again))
    ([], [])

/-- Enters the name of a definition. -/
def index (t : Symbols) (d : Def) : Symbols × List (Located TypeError) :=
  if t.defs.has d.name then (t, [⟨d.pos, .duplicate d.name⟩])
  else
    let enter (k : SymbolKind) (t : Symbols) : Symbols :=
      { t with defs := t.defs ++ [(d.name, (k, d.pos))] }
    match d.body with
    | .func _ => (enter .func t, [])
    | .struct fields => (enter .struct { t with structs := t.structs ++ [(d.name, fields)] }, [])
    | .const type value =>
      (enter .const { t with consts := t.consts ++ [(d.name, (type, value))] }, [])
    | .enum variants =>
      let (known, again) := enumVariants variants
      (enter .enum { t with enums := t.enums ++ [(d.name, known)] },
        again.map fun v => ⟨d.pos, .duplicate (d.name ++ "." ++ v)⟩)

/-- Enters the names of some definitions. -/
def indexAll : Symbols → List Def → Symbols × List (Located TypeError)
  | t, [] => (t, [])
  | t, d :: ds =>
    let (t', es) := t.index d
    let (t'', es') := indexAll t' ds
    (t'', es ++ es')

/-- The types of parameters, after those that have been worked out. -/
def paramTypes (names : Names) :
    List (String × Ty) → List (String × TypeExpr) → Eval (List (String × Ty))
  | done, [] => return done
  | done, (x, t) :: rest => do
    if done.any fun p => p.1 == x then Eval.reject (.duplicate x)
    paramTypes names (done ++ [(x, ← names.resolve t)]) rest

/-- The signature of a function. -/
def signature (names : Names) (f : Func) : Eval Signature := do
  let params ← paramTypes names [] f.params
  return ⟨params, ← names.resolve f.ret⟩

/-- Works out a definition. Of two functions with one name, the first with a sound signature counts. -/
def define (t : Symbols) (d : Def) : Except Fault Unit × Symbols :=
  match d.body with
  | .struct _ =>
    let (r, memo) := t.layout d.name t.memo
    (r.map fun _ => (), { t with memo })
  | .const _ _ =>
    let (r, memo) := t.globalConst d.name t.memo
    (r.map fun _ => (), { t with memo })
  | .enum _ => (.ok (), t)
  | .func f =>
    match signature t.names f t.memo with
    | (.ok sig, memo) => (.ok (), { t with memo, funcs := t.funcs.putNew d.name sig })
    | (.error e, memo) => (.error e, { t with memo })

/-- Works out all definitions, and reports the faulty ones. Fails if evaluation traps. -/
def defineAll : Symbols → List Def → Option (Symbols × List (Located TypeError))
  | t, [] => some (t, [])
  | t, d :: ds =>
    match t.define d with
    | (.ok (), t') => defineAll t' ds
    | (.error (.error e), t') =>
      (defineAll t' ds).map fun (t'', es) => (t'', ⟨d.pos, e⟩ :: es)
    | (.error .trap, _) => none

/-- The entry point must be there, take nothing and return an integer. -/
def checkMain (t : Symbols) : List (Located TypeError) :=
  match t.funcs.get? "main" with
  | none => [⟨.origin, .missingMain⟩]
  | some sig =>
    if sig.params.isEmpty && sig.ret.isInt then []
    else
      let pos := ((t.defs.get? "main").map (·.2)).getD .origin
      [⟨pos, .invalidMain⟩]

/-- The symbol table of a program and every error in its definitions; nothing if evaluation traps. -/
def ofProgram (p : Program) : Option (Symbols × List (Located TypeError)) :=
  let (indexed, es) := indexAll empty p
  (defineAll indexed p).map fun (t, es') => (t, es ++ es' ++ t.checkMain)

/-! ## Questions -/

/-- The answer to a question about a finished table. -/
def ask {α : Type} (t : Symbols) (question : Eval α) : Except Fault α :=
  (question t.memo).1

/-- The answer to a question that cannot trap, since building the table has met it before. -/
def settled {α : Type} (t : Symbols) (question : Eval α) : Except TypeError α :=
  match t.ask question with
  | .ok a => .ok a
  | .error (.error e) => .error e
  | .error .trap => .error .notConstant

end Symbols

end Sigil
