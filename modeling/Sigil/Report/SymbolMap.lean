import Sigil.Code.Assembly
import Sigil.Text.Json

/-!
# Symbol maps

A JSON document about a compiled program: its functions with their frames, its structs and enums, the
texts of its string literals and the routines it contains.
-/

namespace Sigil

open Text (Json)

/-- The signature of a function for a reader. -/
def Signature.text (sig : Signature) : String :=
  let params := sig.params.map fun (x, t) => x ++ ": " ++ t.text
  "fn (" ++ String.intercalate ", " params ++ ") " ++ sig.ret.text

/-- The signature of a function by its name. -/
def Symbols.signatureText (t : Symbols) (x : String) : String :=
  ((t.funcs.get? x).map Signature.text).getD ""

/-- The texts of a program in the alphabetical order of their labels. -/
def Pool.sorted (p : Pool) : List (Machine.Label × String) :=
  p.labelled.mergeSort fun a b => decide (a.1 ≤ b.1)

namespace SymbolMap

/-- A named place at an offset. -/
def place (x : String) (t : Ty) (offset : Int) : Json :=
  .obj [("name", .str x), ("type", .str t.text), ("offset", .num offset)]

/-- A function. -/
def function (t : Symbols) (x : String) (f : FunctionCode) : String × Json :=
  (x, .obj [("label", .str (Code.functionLabel x)), ("signature", .str (t.signatureText x)),
    ("frame", .num f.frame), ("locals", .arr (f.slots.map fun (y, s) => place y s.ty s.offset))])

/-- A struct, if it has a layout. -/
def struct? (t : Symbols) (x : String) : Option (String × Json) :=
  match t.settled (t.layout x) with
  | .ok l =>
    some (x, .obj [("size", .num l.size),
      ("fields", .arr (l.fields.map fun f => place f.name f.ty f.offset))])
  | .error _ => none

/-- An enum. -/
def enum? (t : Symbols) (x : String) : Option (String × Json) :=
  (t.enums.get? x).map fun variants => (x, .arr (variants.map fun (v, _) => .str v))

/-- The names of a kind, in the order of their definition. -/
def namesOf (t : Symbols) (kind : SymbolKind) : List String :=
  t.defs.filterMap fun (x, (k, _)) => if k = kind then some x else none

end SymbolMap

open SymbolMap in
/-- The symbol map of a program. -/
def Assembly.symbolMap (a : Assembly) (t : Symbols) : Json :=
  .obj [
    ("functions", .obj (a.funcs.map fun (x, f) => function t x f)),
    ("structs", .obj ((namesOf t .struct).filterMap (struct? t))),
    ("enums", .obj ((namesOf t .enum).filterMap (enum? t))),
    ("strings", .obj (a.pool.sorted.map fun (l, s) => (l, .str s))),
    ("runtime", .arr (a.pool.closure.map fun r => .str r.label))]

end Sigil
