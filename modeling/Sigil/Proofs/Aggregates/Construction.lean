import Sigil.Proofs.Aggregates.Leaves
import Sigil.Proofs.Emission.Program

/-!
# How aggregates are built

The code that builds an aggregate in the frame writes its leaves one after another, each where it lies
(`Code.laidOut_lower`). The places of the leaves fill the aggregate, since the fields of a struct and the
elements of an array lie side by side. So exactly the bytes of the aggregate are written, each of them once,
if a store writes as many bytes as a value of its type has (`Compile.build_fills_iff`). There is one type
that can be written and for which this fails: a value of type `void` has no bytes, but eight are stored.
-/

namespace Sigil

open Code Leaf List Typing

/-! ## Sizes -/

namespace Symbols.Complete

variable {t : Symbols} {ty : Ty} {n : Nat}

theorem sizeOf_of_size? (h : t.Complete) (hty : ty.Defined t.kind) (hn : t.size? ty = some n) :
    t.names.sizeOf ty t.memo = (.ok n, t.memo) := by
  induction ty generalizing n with
  | array length elem ih =>
    obtain ⟨size, hsize, rfl, hle⟩ := Ty.sizeIn?_array.1 hn
    rw [Names.sizeOf, Attempt.bind_of_ok (ih hty hsize)]
    simp [hle]
  | struct x =>
    obtain ⟨l, hl, -⟩ := h.layout_apply hty
    have hkept := h.get?_layouts hty (congrArg Prod.fst hl)
    obtain rfl : l.size = n := by simpa [size?, hkept] using hn
    exact Attempt.bind_of_ok hl
  | _ =>
    cases hn
    rfl

/-- The answer to the question for a size is the size by the layouts that are kept. -/
theorem size?_of_ask (h : t.Complete) (hty : ty.Defined t.kind) (hn : t.ask (t.names.sizeOf ty) = .ok n) :
    t.size? ty = some n := by
  rcases h.sizeOf_apply hty with ⟨m, hm⟩ | ⟨m, what, hm, -⟩
  · rw [ask, hm] at hn
    cases hn
    exact (h.sizeOf_eq_ok hty hm).1
  · rw [ask, hm] at hn
    cases hn

theorem bytes_eq (h : t.Complete) (hty : ty.Defined t.kind) (hn : t.size? ty = some n) :
    t.bytes ty = n := by
  rw [bytes, ask, h.sizeOf_of_size? hty hn]

end Symbols.Complete

namespace Code

open Machine (Block Line State)

variable {site : Site}
variable {t : Ty} {n : Nat} {e : Expr} {s : String} {given : List (String × Expr)} {es : List Expr} {m : Mark}

theorem sizeOf_eq_pure (hT : site.symbols.Complete) (ht : t.Defined site.symbols.kind)
    (hn : site.symbols.size? t = some n) (pos : Position) : site.sizeOf pos t = pure n := by
  unfold Site.sizeOf Symbols.settled Symbols.ask
  rw [hT.sizeOf_of_size? ht hn]

theorem layout_eq_pure {layout : Layout}
    (h : site.symbols.ask (site.symbols.layout s) = .ok layout) (pos : Position) :
    site.layout pos s = pure layout := by
  unfold Site.layout Symbols.settled
  rw [h]

/-! ## Code for leaves -/

/-- The code for a leaf: its value, and then the store. -/
def Leaf.emit (site : Site) (l : Leaf) : Emit Block :=
  return (← l.evaluate site) ++ l.store site.symbols

/-- The code for leaves, one after another. -/
def emitAll (site : Site) : List Leaf → Emit Block
  | [] => return []
  | l :: ls => return (← l.emit site) ++ (← emitAll site ls)

theorem emitAll_append (ls ls' : List Leaf) :
    emitAll site (ls ++ ls') = do return (← emitAll site ls) ++ (← emitAll site ls') := by
  induction ls with
  | nil => simp [emitAll]
  | cons l ls ih => simp only [cons_append, emitAll, ih, bind_assoc, pure_bind, append_assoc]

theorem emitAll_singleton (l : Leaf) : emitAll site [l] = l.emit site := by
  simp [emitAll]

/-- What is no literal of an aggregate is built by copying it. -/
theorem build_eq_copyInto (hlaid : isLaidOut t e = false) (hzero : ∀ m, e ≠ .zeroed m)
    (offset : Int) :
    (lower site e).build t offset = copyInto site e.pos (lower site e).value t offset := by
  cases e with
  | zeroed m => exact absurd rfl (hzero m)
  | unary _ op => cases op <;> rfl
  | binary _ op => cases op <;> rfl
  | structLit =>
    cases t with
    | struct => cases hlaid
    | _ => rfl
  | arrayLit =>
    cases t with
    | array => cases hlaid
    | _ => rfl
  | _ => rfl

/-- What is generated for `e` as a `t` at an offset writes the leaves, and these fill `n` bytes. -/
structure LaidOut (site : Site) (t : Ty) (e : Expr) (n : Nat) (offset : Int) : Prop where
  code : (lower site e).initialise t offset = emitAll site (leaves site.symbols t offset e)
  tiled : Tiled site.symbols offset (leaves site.symbols t offset e) (offset + n)

theorem emit_scalar (ht : t.isAggregate = false) (e : Expr) (offset : Int) :
    emit site ⟨offset, t, e⟩ = return (← (lower site e).value) ++ storeTo t (slot offset) := by
  have hfill : isZeroFill ⟨offset, t, e⟩ = false := by
    rw [← Bool.not_eq_true, isZeroFill_iff]
    simp [ht]
  simp [emit, evaluate, Leaf.store, hfill, ht]

theorem emit_zeroed (ht : t.isAggregate = true) (m : Mark) (offset : Int) :
    emit site ⟨offset, t, .zeroed m⟩ = return zeroFill offset (site.symbols.bytes t) := by
  have hfill : isZeroFill ⟨offset, t, .zeroed m⟩ = true := isZeroFill_iff.2 ⟨ht, m, rfl⟩
  simp [emit, evaluate, Leaf.store, hfill]

theorem emit_copy (ht : t.isAggregate = true) (he : ∀ m, e ≠ .zeroed m) (offset : Int) :
    emit site ⟨offset, t, e⟩ = return (← (lower site e).value) ++
      ([.copy .rax .rsi, .lea (slot offset) .rdi] ++ copyBytes (site.symbols.bytes t)) := by
  have hfill : isZeroFill ⟨offset, t, e⟩ = false := by
    rw [← Bool.not_eq_true, isZeroFill_iff]
    simp [he]
  simp [emit, evaluate, Leaf.store, hfill, ht]

/-- A leaf is written on its own. -/
theorem laidOut_leaf (hT : site.symbols.Complete)
    (ht : t.Defined site.symbols.kind) (hn : site.symbols.size? t = some n)
    (hlaid : isLaidOut t e = false) (offset : Int) : LaidOut site t e n offset := by
  have hbytes : site.symbols.bytes t = n := hT.bytes_eq ht hn
  constructor
  · rw [leaves_of_not_laidOut hlaid, emitAll_singleton, Lowered.initialise]
    cases hagg : t.isAggregate with
    | false => exact (emit_scalar hagg e offset).symm
    | true =>
      by_cases hzero : ∃ m, e = .zeroed m
      · obtain ⟨m, rfl⟩ := hzero
        have hbuild : (lower site (.zeroed m)).build t offset =
            (site.sizeOf m.pos t >>= fun _ => site.sizeOf m.pos t >>= fun size =>
              return zeroFill offset size) := rfl
        rw [emit_zeroed hagg, if_pos rfl, hbuild, sizeOf_eq_pure hT ht hn, hbytes]
        rfl
      · have hzero' : ∀ m, e ≠ .zeroed m := fun m hm => hzero ⟨m, hm⟩
        rw [emit_copy hagg hzero', if_pos rfl, build_eq_copyInto hlaid hzero', copyInto,
          sizeOf_eq_pure hT ht hn, hbytes]
        simp
  · rw [leaves_of_not_laidOut hlaid]
    exact ⟨rfl, by rw [hbytes]; rfl⟩

/-- Fields are written one after another, and go on side by side from where the first of them lies. -/
theorem laidOut_fields {layout : Layout} {fs : List Field}
    (hfields : Forall₂ (fun (g : String × Expr) (f : Field) => layout.field? g.1 = some f ∧
      ∀ n offset, site.symbols.size? f.ty = some n → LaidOut site f.ty g.2 n offset) given fs)
    {start stop : Nat} (htiles : Layout.Tiles site.symbols.memo.layouts start fs stop) (offset : Int) :
    fields layout offset (given.map fun g => (g.1, lower site g.2)) =
        emitAll site (leavesOfFields site.symbols layout offset given) ∧
      Tiled site.symbols (offset + start) (leavesOfFields site.symbols layout offset given)
        (offset + stop) := by
  induction hfields generalizing start with
  | nil =>
    obtain rfl : start = stop := htiles
    exact ⟨rfl, rfl⟩
  | @cons g f given fs hg _ ih =>
    obtain ⟨x, e⟩ := g
    obtain ⟨hfield, hpart⟩ := hg
    obtain ⟨rfl, n, hn, hrest⟩ := htiles
    obtain ⟨hcode, htiled⟩ := hpart n (offset + f.offset) hn
    obtain ⟨hcode', htiled'⟩ := ih hrest
    dsimp only at hfield hcode htiled
    rw [leavesOfFields, hfield]
    constructor
    · rw [map_cons, fields, hfield, emitAll_append, ← hcode, ← hcode']
    · refine htiled.append ?_
      rw [Int.natCast_add, ← Int.add_assoc] at htiled'
      exact htiled'

/-- Elements are written one after another, and lie side by side. -/
theorem laidOut_elements (hbytes : site.symbols.bytes t = n)
    (hes : ∀ e ∈ es, ∀ offset, LaidOut site t e n offset) (offset : Int) :
    elements t n offset (es.map (lower site)) =
        emitAll site (leavesOfElements site.symbols t offset es) ∧
      Tiled site.symbols offset (leavesOfElements site.symbols t offset es)
        (offset + (es.length * n : Nat)) := by
  induction es generalizing offset with
  | nil => exact ⟨rfl, by simp [leavesOfElements, Tiled]⟩
  | cons e es ih =>
    obtain ⟨hcode, htiled⟩ := hes e mem_cons_self offset
    obtain ⟨hcode', htiled'⟩ := ih (fun e he => hes e (mem_cons_of_mem _ he)) (offset + n)
    have hstop : offset + ((e :: es).length * n : Nat) = offset + n + (es.length * n : Nat) := by
      rw [length_cons, Nat.succ_mul]
      omega
    rw [leavesOfElements, hbytes]
    constructor
    · rw [map_cons, elements, emitAll_append, ← hcode, ← hcode']
    · rw [hstop]
      exact htiled.append htiled'

/-- The fields are written one after another, each to its place. -/
theorem laidOut_structLiteral (hsite : site.Sound) {layout : Layout}
    (ht : (Ty.struct s).Defined site.symbols.kind)
    (hlayout : site.symbols.ask (site.symbols.layout s) = .ok layout)
    (hfields : Forall₂ (fun (g : String × Expr) (f : Field) => g.1 = f.name ∧ Fits f.ty g.2)
      given layout.fields)
    (hpart : ∀ g ∈ given, ∀ t n offset, Fits t g.2 → t.Defined site.symbols.kind →
      site.symbols.size? t = some n → LaidOut site t g.2 n offset)
    (hn : site.symbols.size? (.struct s) = some n) (offset : Int) :
    LaidOut site (.struct s) (.structLit m given) n offset := by
  obtain ⟨layout', hlayout', hsound⟩ := hsite.complete.layout ht
  obtain rfl : layout = layout' := Except.ok.inj (hlayout.symm.trans hlayout')
  have hkept := hsite.complete.get?_layouts ht hlayout
  obtain rfl : layout.size = n := by simpa [Symbols.size?, hkept] using hn
  have hparts : Forall₂ (fun (g : String × Expr) (f : Field) => layout.field? g.1 = some f ∧
      ∀ n offset, site.symbols.size? f.ty = some n → LaidOut site f.ty g.2 n offset)
      given layout.fields := by
    refine forall₂_of_mem hfields ?_
    rintro g f hg hf ⟨hname, hfit⟩
    -- The fields are distinct, so the one with this name is the one that was checked.
    have hfound : layout.field? f.name = some f := hsound.field? hf
    exact ⟨hname ▸ hfound, fun n offset => hpart g hg f.ty n offset hfit (hsound.defined f hf)⟩
  obtain ⟨hcode, htiled⟩ := laidOut_fields hparts (hsite.packed hkept).tiles offset
  have hleaves : leaves site.symbols (.struct s) offset (.structLit m given) =
      leavesOfFields site.symbols layout offset given := by
    rw [leaves, hlayout]
  constructor
  · have hbuild : (lower site (.structLit m given)).initialise (.struct s) offset =
        (site.sizeOf m.pos (.struct s) >>= fun _ => site.layout m.pos s >>= fun layout =>
          fields layout offset (lowerFields site given)) := rfl
    rw [hbuild, sizeOf_eq_pure hsite.complete ht hn, layout_eq_pure hlayout, lowerFields_eq, hleaves]
    exact hcode
  · rw [hleaves]
    simpa using htiled

/-- The elements are written one after another. -/
theorem laidOut_arrayLiteral (hsite : site.Sound)
    (ht : t.Defined site.symbols.kind)
    (hpart : ∀ e ∈ es, ∀ n offset, site.symbols.size? t = some n → LaidOut site t e n offset)
    (hn : site.symbols.size? (.array es.length t) = some n) (offset : Int) :
    LaidOut site (.array es.length t) (.arrayLit m es) n offset := by
  obtain ⟨step, hstep, rfl, -⟩ := Ty.sizeIn?_array.1 hn
  obtain ⟨hcode, htiled⟩ := laidOut_elements (hsite.complete.bytes_eq ht hstep)
    (fun e he offset => hpart e he step offset hstep) offset
  constructor
  · have hbuild : (lower site (.arrayLit m es)).initialise (.array es.length t) offset =
        (site.sizeOf m.pos (.array es.length t) >>= fun _ => site.sizeOf m.pos t >>= fun step =>
          elements t step offset (lowerAll site es)) := rfl
    rw [hbuild, sizeOf_eq_pure (t := .array es.length t) hsite.complete ht hn,
      sizeOf_eq_pure hsite.complete ht hstep, lowerAll_eq]
    exact hcode
  · exact htiled

/-- What is generated for a well-typed expression writes the leaves of the expression, and these fill the
room for it. -/
theorem laidOut_lower (hsite : site.Sound) {Γ : Env} (h : e.Typed site.symbols Γ)
    (hfit : Fits t e) (ht : t.Defined site.symbols.kind) (hn : site.symbols.size? t = some n)
    (offset : Int) : LaidOut site t e n offset := by
  induction e using Expr.by_children generalizing t n offset with
  | h e ih =>
    cases hlaid : isLaidOut t e with
    | false => exact laidOut_leaf hsite.complete ht hn hlaid offset
    | true =>
      obtain ⟨u, hu, hassign⟩ := hfit
      unfold isLaidOut at hlaid
      split at hlaid
      · next s m given =>
        obtain rfl : u = .struct s := Ty.eq_of_isAggregate rfl hassign
        cases h.node.rule with
        | @structLit _ _ s' layout hlayout hfields hm =>
          obtain rfl : s' = s := Ty.struct.inj (Option.some.inj (hm.symm.trans hu))
          refine laidOut_structLiteral hsite ht hlayout hfields (fun g hg t n offset hfit ht hn => ?_) hn offset
          have hchild : g.2 ∈ (Expr.structLit m given).children := mem_map_of_mem hg
          exact ih g.2 hchild (h.child hchild) hfit ht hn offset
      · next k elem m es =>
        obtain rfl : u = .array k elem := Ty.eq_of_isAggregate rfl hassign
        cases h.node.rule with
        | @arrayLit _ _ elem' hes hm =>
          obtain ⟨rfl, rfl⟩ := Ty.array.inj (Option.some.inj (hm.symm.trans hu))
          refine laidOut_arrayLiteral (t := elem') hsite ht (fun e he n offset hn => ?_) hn offset
          exact ih e he (h.child he) (hes e he) ht hn offset
      · cases hlaid

end Code

namespace Compile

/-- The code that builds an aggregate of an accepted program at an offset, as it is and after any number of
folding passes, writes the leaves of the aggregate one after another. The leaves are all parts that are not
given part by part, each where it lies, and their places fill the aggregate. The store of a leaf writes
bytes from the place of the leaf on. All these bytes are the bytes of the aggregate, each of them once,
exactly if every store is as wide as its leaf. That is so if the leaf is not `void` and, if it is an integer,
some access has its number of bytes, as with the two widths that can be written. -/
theorem build_fills_iff {p : Program} {c : Checked} (h : check p = .ok c) {d : Def} (hd : d ∈ c.program)
    {f : Func} (hf : d.body = .func f) (k : Nat) {e : Expr}
    (he : e ∈ Stmt.nodesOfAll (Fold.pass^[k] f.body)) {t : Ty} (hty : e.ty = some t)
    (hagg : t.isAggregate = true) {size : Nat} (hsize : c.symbols.ask (c.symbols.names.sizeOf t) = .ok size)
    {site : Code.Site} (hsite : site.symbols = c.symbols) (offset : Int) :
    let ls := leaves c.symbols t offset e
    (lower site e).build t offset = emitAll site ls ∧
    (∀ l, l ∈ ls ↔ l.Of c.symbols t e offset) ∧
    ls.flatMap (fun l => frameBytes l.offset (c.symbols.bytes l.ty)) = frameBytes offset size ∧
    (∀ l ∈ ls, ∀ s : Machine.State, ∃ s' ws, s.trace (l.store c.symbols) = some (s', ws) ∧
      s'.mem = s.mem.apply ws ∧ ws.map (·.1) =
        (frameBytes l.offset (l.width c.symbols)).map fun b => s.regs .rbp + .ofInt 64 b) ∧
    (ls.flatMap (fun l => frameBytes l.offset (l.width c.symbols)) = frameBytes offset size ↔
      ∀ l ∈ ls, l.width c.symbols = c.symbols.bytes l.ty) ∧
    ∀ l ∈ ls, l.width c.symbols = c.symbols.bytes l.ty ↔ l.ty ≠ .void ∧
      ∀ bits signed, l.ty = .int bits signed → (Machine.Width.ofBytes? (bits / 8)).isSome := by
  rw [← hsite] at hsize ⊢
  have hsound : site.Sound :=
    ⟨hsite ▸ (of_check h).1, hsite ▸ Symbols.packed_of_ofProgram (ofProgram_of_check h)⟩
  obtain ⟨sig, -, hbody⟩ := wellTyped_of_check h hd hf
  obtain ⟨Γ, htyped⟩ := (Fold.allTyped_iterate hbody k).exists_typed he
  rw [← hsite] at htyped
  obtain ⟨u, hu, ht⟩ := htyped.node.ty
  obtain rfl : t = u := Option.some.inj (hty.symm.trans hu)
  have hn := hsound.complete.size?_of_ask ht hsize
  have hle : size ≤ maxObject := Packed.size_le hsound.packed hagg hn
  obtain ⟨hcode, htiled⟩ := laidOut_lower hsound htyped ⟨t, hty, Ty.assignable_self t⟩ ht hn offset
  rw [Code.Lowered.initialise, if_pos hagg] at hcode
  intro ls
  refine ⟨hcode, fun l => mem_leaves, htiled.places_eq, fun l hl s => ?_,
    htiled.bytes_eq_iff fun l _ => Code.Leaf.bytes_eq_zero_of_width,
    fun _ _ => Code.Leaf.width_eq_bytes_iff⟩
  have hbytes := htiled.bytes_le hl
  unfold maxObject at hle
  exact Code.Leaf.trace_store (by omega) s

/-- A program that builds a struct from copies, from literals in literals and from zeros. -/
def mosaic : String :=
  "const P := struct \x7b a: char, b: short! \x7d;\n" ++
  "const Q := struct \x7b p: P, ps: [2]P, z: [3]int! \x7d;\n" ++
  "const main := fn () int! \x7b have p: P = \x7b b: 2, a: 'A' \x7d;" ++
  " have q: Q = \x7b z: [0], p: p, ps: [p, \x7b a: 'B', b: 3 \x7d] \x7d; return 0; \x7d;"

theorem build_fills_iff_mosaic :
    ∃ p c d f e, parse mosaic = .ok p ∧ check p = .ok c ∧ d ∈ c.program ∧ d.body = .func f ∧
      e ∈ Stmt.nodesOfAll (Fold.pass^[1] f.body) ∧ e.ty = some (.struct "Q") ∧
      c.symbols.ask (c.symbols.names.sizeOf (.struct "Q")) = .ok 33 ∧
      (Code.leaves c.symbols (.struct "Q") (-48) e).map (fun l => (l.offset, l.width c.symbols)) =
        [(-48, 3), (-45, 3), (-42, 1), (-41, 2), (-39, 24)] ∧
      (Code.leaves c.symbols (.struct "Q") (-48) e).flatMap
        (fun l => Code.frameBytes l.offset (l.width c.symbols)) = Code.frameBytes (-48) 33 := by
  obtain ⟨p, c, d, f, hp, hc, hd, hf, htest⟩ := exists_of_testSource mosaic (fun c f =>
    (Stmt.nodesOfAll (Fold.pass^[1] f.body)).any fun e =>
      let ls := leaves c.symbols (.struct "Q") (-48) e
      decide (e.ty = some (.struct "Q") ∧ c.symbols.ask (c.symbols.names.sizeOf (.struct "Q")) = .ok 33 ∧
        ls.map (fun l => (l.offset, l.width c.symbols)) =
          [(-48, 3), (-45, 3), (-42, 1), (-41, 2), (-39, 24)] ∧
        ∀ l ∈ ls, l.width c.symbols = c.symbols.bytes l.ty)) (by decide +kernel)
  obtain ⟨e, he, htest⟩ := any_eq_true.1 htest
  obtain ⟨hty, hsize, hleaves, hwidth⟩ := of_decide_eq_true htest
  have hsite : (Code.Site.mk c.symbols "main" .uint).symbols = c.symbols := rfl
  obtain ⟨-, -, -, -, hfills, -⟩ := build_fills_iff hc hd hf 1 he hty rfl hsize hsite (-48)
  exact ⟨p, c, d, f, e, hp, hc, hd, hf, he, hty, hsize, hleaves, hfills.2 hwidth⟩

/-- A program that builds a struct with a field of type `void`. -/
def voidField : String :=
  "const g := fn () void \x7b return; \x7d;\n" ++
  "const S := struct \x7b a: int!, v: void \x7d;\n" ++
  "const main := fn () int! \x7b have s: S = \x7b a: 1, v: g() \x7d; return s.a; \x7d;"

/-- Whether code is generated that has a line. -/
def hasLine (line : Machine.Line) (x : Except Error Machine.Block × Code.Emission) : Bool :=
  match x.1 with
  | .ok code => code.contains line
  | .error _ => false

/-- The eight bytes of a struct in the last slot of the frame are filled, and then the eight bytes behind it
are written, where the frame pointer of the caller is kept. -/
theorem exists_build_outside :
    ∃ p c d f e, parse voidField = .ok p ∧ check p = .ok c ∧ d ∈ c.program ∧ d.body = .func f ∧
      e ∈ Stmt.nodesOfAll f.body ∧ e.ty = some (.struct "S") ∧
      c.symbols.ask (c.symbols.names.sizeOf (.struct "S")) = .ok 8 ∧
      ∃ code s, (Code.lower ⟨c.symbols, "main", .uint⟩ e).build (.struct "S") (-8)
          ⟨.ofArgs [] false, 0, .empty⟩ = (.ok code, s) ∧
        Machine.Line.instr (.mov .quad (.reg .rax) (Code.slot 0)) ∈ code := by
  obtain ⟨p, c, d, f, hp, hc, hd, hf, htest⟩ := exists_of_testSource voidField (fun c f =>
    (Stmt.nodesOfAll f.body).any fun e =>
      decide (e.ty = some (.struct "S") ∧ c.symbols.ask (c.symbols.names.sizeOf (.struct "S")) = .ok 8) &&
      hasLine (.instr (.mov .quad (.reg .rax) (slot 0)))
        ((lower ⟨c.symbols, "main", .uint⟩ e).build (.struct "S") (-8) ⟨.ofArgs [] false, 0, .empty⟩))
    (by decide +kernel)
  obtain ⟨e, he, htest⟩ := any_eq_true.1 htest
  obtain ⟨hdecide, hline⟩ := Bool.and_eq_true_iff.1 htest
  obtain ⟨hty, hsize⟩ := of_decide_eq_true hdecide
  refine ⟨p, c, d, f, e, hp, hc, hd, hf, he, hty, hsize, ?_⟩
  generalize (lower ⟨c.symbols, "main", .uint⟩ e).build (.struct "S") (-8) _ = x at hline
  obtain ⟨r, s⟩ := x
  cases r with
  | ok code => exact ⟨code, s, rfl, contains_iff_mem.1 hline⟩
  | error => cases hline

end Compile

end Sigil
