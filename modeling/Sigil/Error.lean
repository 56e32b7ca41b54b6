import Sigil.Parse.Cursor
import Sigil.Token

/-!
# Errors

Why a program is refused. Each phase has its causes, and each cause has one wording.
-/

namespace Sigil

/-- Why a program breaks the rules of types and constants. -/
inductive TypeError where
  | unknownIdentifier (name : String)
  | unknownType (name : String)
  | duplicate (name : String)
  | notAType (name : String)
  | notAValue (name : String)
  | noSuchField (struct field : String)
  | noSuchVariant (enum variant : String)
  | notAStruct (type : String)
  | arityMismatch (name : String) (expected found : Nat)
  | mismatch (expected found : String)
  | indexOutOfBounds (index : Int) (length : Nat)
  | notIndexable (type : String)
  | notCallable (name : String)
  | notAPointer (type : String)
  | notAddressable
  | immutable (name : String)
  | arrayLength (expected found : Nat)
  | missingField (name : String)
  | duplicateField (name : String)
  | cannotInfer (what : String)
  | invalidCast (source target : String)
  | invalidOperand (op type : String)
  | outOfRange (value : Int) (type : String)
  | notConstant
  | divisionByZero
  | outsideLoop (what : String)
  | useAfterFree (name : String)
  | recursiveType (name : String)
  | missingMain
  | invalidMain
  | missingReturnValue (type : String)
  | builtinArgument (service reason : String)
deriving DecidableEq, Repr

/-- The wording of a type error. -/
def TypeError.message : TypeError → String
  | unknownIdentifier x => "unknown identifier `" ++ x ++ "`"
  | unknownType x => "unknown type `" ++ x ++ "`"
  | duplicate x => "`" ++ x ++ "` is defined more than once"
  | notAType x => "`" ++ x ++ "` is not a type"
  | notAValue x => "`" ++ x ++ "` is not a value"
  | noSuchField s f => "struct `" ++ s ++ "` has no field `" ++ f ++ "`"
  | noSuchVariant e v => "enum `" ++ e ++ "` has no variant `" ++ v ++ "`"
  | notAStruct t => "type `" ++ t ++ "` has no fields"
  | arityMismatch x expected found =>
    "`" ++ x ++ "` expects " ++ toString expected ++ " argument(s), found " ++ toString found
  | mismatch expected found =>
    "mismatched types: expected `" ++ expected ++ "`, found `" ++ found ++ "`"
  | indexOutOfBounds i n =>
    "index " ++ toString i ++ " is out of bounds for an array of length " ++ toString n
  | notIndexable t => "type `" ++ t ++ "` cannot be indexed"
  | notCallable x => "`" ++ x ++ "` is not a function"
  | notAPointer t => "cannot dereference non-pointer type `" ++ t ++ "`"
  | notAddressable => "cannot take the address of this expression"
  | immutable x => "cannot assign to immutable binding `" ++ x ++ "`"
  | arrayLength expected found =>
    "array literal has " ++ toString found ++ " element(s), expected " ++ toString expected
  | missingField x => "missing field `" ++ x ++ "` in struct literal"
  | duplicateField x => "field `" ++ x ++ "` is specified more than once"
  | cannotInfer what => "cannot infer the type of " ++ what
  | invalidCast source target => "invalid cast from `" ++ source ++ "` to `" ++ target ++ "`"
  | invalidOperand op t => "operator `" ++ op ++ "` cannot be applied to `" ++ t ++ "`"
  | outOfRange value t => "constant " ++ toString value ++ " does not fit in `" ++ t ++ "`"
  | notConstant => "expression is not a compile-time constant"
  | divisionByZero => "division by zero"
  | outsideLoop what => "`" ++ what ++ "` outside of a loop"
  | useAfterFree x => "`" ++ x ++ "` is used after being freed"
  | recursiveType x => "struct `" ++ x ++ "` contains itself"
  | missingMain => "program has no `main` function"
  | invalidMain => "`main` must take no parameters and return an integer"
  | missingReturnValue t => "missing return value in function returning `" ++ t ++ "`"
  | builtinArgument service reason => "invalid argument to `@" ++ service ++ "`: " ++ reason

/-- Why a tree has no code: it does not come from a checked program. -/
inductive CodeError where
  | untyped
  | unknownLocal (name : String)
  | notAddressable
  | unsupported (what : String)
deriving DecidableEq, Repr

/-- The wording of an error of code generation. -/
def CodeError.message : CodeError → String
  | untyped => "expression has no resolved type"
  | unknownLocal x => "unknown variable `" ++ x ++ "`"
  | notAddressable => "expression is not addressable"
  | unsupported what => "unsupported construct: " ++ what

/-- Why a compilation stops. -/
inductive Error where
  | lexical (e : Located LexError)
  | grammar (e : Located ParseError)
  | type (e : Located TypeError)
  | code (e : CodeError)
  | assemble (output : String)
  | link (output : String)
  | file (reason : String)
deriving DecidableEq, Repr

namespace Error

/-- The phase that an error belongs to. -/
def kind : Error → String
  | lexical _ => "lex error"
  | grammar _ => "parse error"
  | type _ => "type error"
  | code _ => "codegen error"
  | assemble _ | link _ => "toolchain error"
  | file _ => "io error"

/-- The place of an error, if it has one. -/
def pos? : Error → Option Position
  | lexical e => some e.pos
  | grammar e => some e.pos
  | type e => some e.pos
  | _ => none

/-- The wording of an error. -/
def message : Error → String
  | lexical e => e.cause.message
  | grammar e => e.cause.message
  | type e => e.cause.message
  | code e => "internal compiler error: " ++ e.message
  | assemble output => "assembler failed: " ++ output
  | link output => "linker failed: " ++ output
  | file reason => "IO error: " ++ reason

/-- Whether the program itself is not to blame. -/
def isExternal : Error → Bool
  | assemble _ | link _ | file _ => true
  | _ => false

end Error

end Sigil
