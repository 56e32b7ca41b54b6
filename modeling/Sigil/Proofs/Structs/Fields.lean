import Sigil.Proofs.Order.Tables
import Sigil.Proofs.Structs.Containment

/-!
# Fields of structs

One field of a struct is laid out over the layouts that are kept for other structs. Whether this succeeds,
and with what size, is a matter of the definitions alone (`Symbols.layoutFields_cons_iff`): a type is resolved
if its names are those of types and its lengths are not too large (`Names.resolve_eq_ok_iff`), and it has a size
if the structs that it holds have layouts and its arrays are not too large (`Symbols.sizeIn?_denoted_iff`).
Field by field, a layout of proper fields grows into the one that the definition describes
(`Program.Describes`).

The lengths of arrays are taken to be literals, so that they do not depend on constants.
-/

namespace Sigil

open Attempt List

/-- The type that is written, whose names are those of types and whose lengths are literals. -/
def TypeExpr.denoted (kind : String → Option SymbolKind) : TypeExpr → Ty
  | .int bits signed => .int bits (signed.getD false)
  | .char => .char
  | .bool => .bool
  | .str => .str
  | .void => .void
  | .named x => if kind x = some .enum then .enum x else .struct x
  | .ptr t => .ptr (t.denoted kind)
  | .array length t => .array length.literal (t.denoted kind)

/-- The fields of the layout are those of the definition, in order; the sizes of those before a field add up
to its offset, and the sizes of all add up to the size. -/
structure Program.Describes (p : Program) (kind : String → Option SymbolKind)
    (fields : List (String × TypeExpr)) (l : Layout) : Prop where
  declared : l.fields.map (fun f => (f.name, f.ty)) = fields.map fun f => (f.1, f.2.denoted kind)
  offset : ∀ i f, l.fields[i]? = some f → p.Measures ((fields.take i).map (·.2)) f.offset
  size : p.Measures (fields.map (·.2)) l.size

/-- The lengths in the fields of structs are literals. -/
def Program.LiteralLengths (p : Program) : Prop :=
  ∀ x fields, p.Struct x fields → ∀ f ∈ fields, ∀ e ∈ f.2.lengths, e.IsCount

/-! ## Written types -/

namespace Names

variable {names : Names} {s s' : Memo}

theorem eval_of_isCount {e : Expr} (h : e.IsCount) (names : Names) (s : Memo) :
    names.eval e s = (.ok (.int e.literal), s) := by
  obtain ⟨m, n, rfl, hm⟩ := h
  unfold eval readWord
  rw [hm]
  rfl

theorem arrayLength_eq_ok_iff {k n : Nat} :
    arrayLength (.int k) s = (.ok n, s') ↔ (s' = s ∧ n = k) ∧ k ≤ maxObject := by
  unfold arrayLength
  dsimp only
  by_cases hk : k ≤ maxObject
  · rw [if_pos ⟨Int.natCast_nonneg k, Int.ofNat_le.2 hk⟩]
    simp [hk, eq_comm, and_comm]
  · rw [if_neg fun h => hk (Int.ofNat_le.1 h.2)]
    simp [hk, Eval.reject]

theorem namedType_eq_ok_iff {x : String} {ty : Ty} :
    names.namedType x s = (.ok ty, s') ↔
      (s' = s ∧ ty = (TypeExpr.named x).denoted names.kind) ∧
        (names.kind x = some .struct ∨ names.kind x = some .enum) := by
  unfold namedType TypeExpr.denoted
  cases hx : names.kind x with
  | none => simp [Eval.reject]
  | some k => cases k <;> simp [Eval.reject, eq_comm, and_comm]

/-- A type is resolved if its names are those of types and its lengths are not too large, and then to the one
that is written. -/
theorem resolve_eq_ok_iff {type : TypeExpr} (hlit : ∀ e ∈ type.lengths, e.IsCount) {s s' : Memo}
    {ty : Ty} : names.resolve type s = (.ok ty, s') ↔ (s' = s ∧ ty = type.denoted names.kind) ∧
      (∀ x ∈ type.names, names.kind x = some .struct ∨ names.kind x = some .enum) ∧
      ∀ e ∈ type.lengths, e.literal ≤ maxObject := by
  match type with
  | .int _ _ | .char | .bool | .str | .void =>
    unfold resolve
    simp [TypeExpr.denoted, TypeExpr.names, TypeExpr.lengths, eq_comm, and_comm]
  | .named x =>
    unfold resolve
    rw [namedType_eq_ok_iff]
    simp [TypeExpr.names, TypeExpr.lengths]
  | .ptr t =>
    have ht : ∀ e ∈ t.lengths, e.IsCount := hlit
    unfold resolve
    rw [bind_eq_ok]
    constructor
    · rintro ⟨target, s1, htarget, hpure⟩
      obtain ⟨⟨rfl, rfl⟩, hok⟩ := (resolve_eq_ok_iff ht).1 htarget
      cases hpure
      exact ⟨⟨rfl, rfl⟩, hok⟩
    · rintro ⟨⟨rfl, rfl⟩, hok⟩
      exact ⟨_, _, (resolve_eq_ok_iff ht).2 ⟨⟨rfl, rfl⟩, hok⟩, rfl⟩
  | .array length t =>
    obtain ⟨hlength, ht⟩ := forall_mem_cons.1 hlit
    unfold resolve
    rw [bind_of_ok (eval_of_isCount hlength names s), bind_eq_ok]
    constructor
    · rintro ⟨n, s1, hn, helem⟩
      obtain ⟨⟨rfl, rfl⟩, hle⟩ := arrayLength_eq_ok_iff.1 hn
      obtain ⟨elem, s2, helem, hpure⟩ := bind_eq_ok.1 helem
      obtain ⟨⟨rfl, rfl⟩, hnames, hlengths⟩ := (resolve_eq_ok_iff ht).1 helem
      cases hpure
      exact ⟨⟨rfl, rfl⟩, hnames, forall_mem_cons.2 ⟨hle, hlengths⟩⟩
    · rintro ⟨⟨rfl, rfl⟩, hnames, hlengths⟩
      obtain ⟨hle, hlengths⟩ := forall_mem_cons.1 hlengths
      refine ⟨_, _, arrayLength_eq_ok_iff.2 ⟨⟨rfl, rfl⟩, hle⟩, ?_⟩
      rw [bind_of_ok ((resolve_eq_ok_iff ht).2 ⟨⟨rfl, rfl⟩, hnames, hlengths⟩)]
      rfl

end Names

/-! ## Tables of a program -/

/-- The table knows the structs and the enums of the program. -/
structure Symbols.Tells (t : Symbols) (p : Program) : Prop where
  structs : ∀ x fields, t.structs.get? x = some fields ↔ p.Struct x fields
  struct : ∀ x, t.kind x = some .struct ↔ ∃ fields, p.Struct x fields
  enum : ∀ x, t.kind x = some .enum ↔ p.Enum x

namespace Symbols

variable {t t' : Symbols} {p : Program}

/-- A table of names knows each definition by its kind. -/
theorem kind_ofNames (hnodup : (p.map (·.name)).Nodup) (x : String) (k : SymbolKind) :
    (ofNames p).kind x = some k ↔ ∃ d ∈ p, d.name = x ∧ d.body.kind = k := by
  have hkeys : ((p.map Def.entry).map (·.1)).Nodup := by
    rw [map_map]
    exact hnodup
  rw [show (ofNames p).kind x = (Assoc.get? x (p.map Def.entry)).map (·.1) from rfl,
    Option.map_eq_some_iff]
  constructor
  · rintro ⟨entry, hentry, rfl⟩
    obtain ⟨d, hd, heq⟩ := mem_map.1 ((Assoc.get?_eq_some_iff hkeys).1 hentry)
    cases heq
    exact ⟨d, hd, rfl, rfl⟩
  · rintro ⟨d, hd, rfl, rfl⟩
    exact ⟨_, (Assoc.get?_eq_some_iff hkeys).2 (mem_map.2 ⟨d, hd, rfl⟩), rfl⟩

/-- The table of names tells what the program defines. -/
theorem tells_ofNames (hnodup : (p.map (·.name)).Nodup) : (ofNames p).Tells p := by
  constructor
  · intro x fields
    refine ⟨exists_struct hnodup, ?_⟩
    rintro ⟨d, hd, rfl, hbody⟩
    have hkeys := (keys_sublist (fun _ _ h => (eq_of_struct? h).1) p).nodup hnodup
    refine (Assoc.get?_eq_some_iff hkeys).2 (mem_filterMap.2 ⟨d, hd, ?_⟩)
    unfold Def.struct?
    rw [hbody]
  · intro x
    rw [kind_ofNames hnodup]
    constructor
    · rintro ⟨d, hd, rfl, hkind⟩
      cases hbody : d.body with
      | struct fields => exact ⟨fields, d, hd, rfl, hbody⟩
      | _ =>
        rw [hbody] at hkind
        cases hkind
    · rintro ⟨fields, d, hd, rfl, hbody⟩
      exact ⟨d, hd, rfl, by rw [hbody]; rfl⟩
  · intro x
    rw [kind_ofNames hnodup]
    constructor
    · rintro ⟨d, hd, rfl, hkind⟩
      cases hbody : d.body with
      | enum variants => exact ⟨d, hd, rfl, variants, hbody⟩
      | _ =>
        rw [hbody] at hkind
        cases hkind
    · rintro ⟨d, hd, rfl, variants, hbody⟩
      exact ⟨d, hd, rfl, by rw [hbody]; rfl⟩

theorem Tells.alike (h : t.Tells p) (halike : t'.Alike t) : t'.Tells p := by
  refine ⟨?_, ?_, ?_⟩
  · intro x fields
    rw [halike.structs]
    exact h.structs x fields
  · rw [halike.kind]
    exact h.struct
  · rw [halike.kind]
    exact h.enum

/-! ## Sizes at hand -/

/-- With all layouts at hand, a size is found exactly if the type has one. -/
theorem sizeOf_atHand {s s' : Memo} {ty : Ty} {n : Nat} :
    (t.namesOfDepth 0).sizeOf ty s = (.ok n, s') ↔ s' = s ∧ ty.sizeIn? s.layouts = some n := by
  induction ty generalizing n s' with
  | array length elem ih =>
    rw [Names.sizeOf, bind_eq_ok, Ty.sizeIn?_array]
    constructor
    · rintro ⟨size, s1, hsize, hn⟩
      obtain ⟨rfl, helem⟩ := ih.1 hsize
      split at hn
      · next hle =>
        cases hn
        exact ⟨rfl, size, helem, rfl, hle⟩
      · cases hn
    · rintro ⟨rfl, size, helem, rfl, hle⟩
      refine ⟨size, s', ih.2 ⟨rfl, helem⟩, ?_⟩
      rw [if_pos hle]
      rfl
  | struct x =>
    rw [Names.sizeOf, bind_eq_ok, Ty.sizeIn?_struct, Option.map_eq_some_iff]
    rw [show (t.namesOfDepth 0).layout x = t.layoutAtHand x from rfl, ← atHand_layouts]
    constructor
    · rintro ⟨l, s1, hl, hn⟩
      obtain ⟨rfl, hkept⟩ := of_atHand hl
      cases hn
      exact ⟨rfl, l, hkept l rfl, rfl⟩
    · rintro ⟨rfl, l, hl, rfl⟩
      exact ⟨l, s', atHand_of_kept (k := .layouts) hl, rfl⟩
  | _ => simp [Names.sizeOf, Ty.sizeIn?, eq_comm, and_comm]

/-- The layouts are those of structs, of the right sizes. -/
def Sized (p : Program) (layouts : Assoc Layout) : Prop :=
  ∀ x l, layouts.get? x = some l → p.Measures [.named x] l.size

/-- The structs that the type holds by value have layouts. -/
def Ready (p : Program) (layouts : Assoc Layout) (type : TypeExpr) : Prop :=
  ∀ x fields, type.held? = some x → p.Struct x fields → ∃ l, layouts.get? x = some l

/-- A type whose structs have layouts has a size. -/
theorem exists_measures {layouts : Assoc Layout} (hsized : Sized p layouts) {type : TypeExpr}
    (hnames : ∀ x ∈ type.names, (∃ fields, p.Struct x fields) ∨ p.Enum x)
    (hready : Ready p layouts type) : ∃ n, p.Measures [type] n := by
  match type with
  | .int _ _ | .char | .bool | .str | .void | .ptr _ => exact ⟨_, .scalar_single rfl⟩
  | .named x =>
    rcases hnames x (mem_singleton_self x) with ⟨fields, hx⟩ | hx
    · obtain ⟨l, hl⟩ := hready x fields rfl hx
      exact ⟨l.size, hsized x l hl⟩
    · exact ⟨_, .enum hx .nil⟩
  | .array length elem =>
    have helem : ∀ x ∈ elem.names, (∃ fields, p.Struct x fields) ∨ p.Enum x := hnames
    obtain ⟨n, hn⟩ := exists_measures hsized helem hready
    exact ⟨_, hn.array_single⟩

/-- A type that stores neither structs nor arrays needs no layouts. -/
theorem scalar_iff (hnodup : (p.map (·.name)).Nodup) {layouts : Assoc Layout} {type : TypeExpr} {k n : Nat}
    (hk : type.scalarSize? = some k) (harrays : type.arrays = []) (hheld : type.held? = none) :
    some k = some n ↔ p.Measures [type] n ∧
      (∀ a ∈ type.arrays, ∀ m, p.Measures [a] m → m ≤ maxObject) ∧ Ready p layouts type := by
  constructor
  · rintro ⟨⟩
    refine ⟨.scalar_single hk, ?_, ?_⟩
    · rw [harrays]
      exact forall_mem_nil _
    · intro x fields hx
      rw [hheld] at hx
      cases hx
  · rintro ⟨hn, -⟩
    rw [(Program.Measures.scalar_single hk).unique hnodup hn]

/-- A type has a size by layouts of the right sizes if its structs are among them and its arrays are not too
large, and then this is its size. -/
theorem sizeIn?_denoted_iff (hnodup : (p.map (·.name)).Nodup) (htells : t.Tells p)
    {layouts : Assoc Layout} (hsized : Sized p layouts) {type : TypeExpr}
    (hnames : ∀ x ∈ type.names, (∃ fields, p.Struct x fields) ∨ p.Enum x) {n : Nat} :
    (type.denoted t.kind).sizeIn? layouts = some n ↔ p.Measures [type] n ∧
      (∀ a ∈ type.arrays, ∀ m, p.Measures [a] m → m ≤ maxObject) ∧ Ready p layouts type := by
  match type with
  | .int _ _ | .char | .bool | .str | .void | .ptr _ =>
    exact scalar_iff hnodup rfl rfl rfl
  | .named x =>
    rcases hnames x (mem_singleton_self x) with ⟨fields, hx⟩ | hx
    · have hkind : t.kind x ≠ some .enum := fun h => hx.not_enum hnodup ((htells.enum x).1 h)
      rw [TypeExpr.denoted, if_neg hkind, Ty.sizeIn?_struct, Option.map_eq_some_iff]
      constructor
      · rintro ⟨l, hl, rfl⟩
        refine ⟨hsized x l hl, forall_mem_nil _, ?_⟩
        intro y fields hy _
        cases hy
        exact ⟨l, hl⟩
      · rintro ⟨hn, -, hready⟩
        obtain ⟨l, hl⟩ := hready x fields rfl hx
        exact ⟨l, hl, (hsized x l hl).unique hnodup hn⟩
    · rw [TypeExpr.denoted, if_pos ((htells.enum x).2 hx)]
      constructor
      · rintro ⟨⟩
        refine ⟨.enum hx .nil, forall_mem_nil _, ?_⟩
        intro y fields hy hstruct
        cases hy
        exact absurd hx (hstruct.not_enum hnodup)
      · rintro ⟨hn, -⟩
        exact congrArg some ((Program.Measures.enum hx .nil).unique hnodup hn)
  | .array length elem =>
    have hnames' : ∀ x ∈ elem.names, (∃ fields, p.Struct x fields) ∨ p.Enum x := hnames
    rw [TypeExpr.denoted, Ty.sizeIn?_array]
    constructor
    · rintro ⟨size, hsize, rfl, hle⟩
      obtain ⟨helem, harrays, hready⟩ :=
        (sizeIn?_denoted_iff hnodup htells hsized hnames').1 hsize
      refine ⟨helem.array_single, forall_mem_cons.2 ⟨?_, harrays⟩, hready⟩
      intro m hm
      rwa [← helem.array_single.unique hnodup hm]
    · rintro ⟨hn, harrays, hready⟩
      obtain ⟨hle, harrays⟩ := forall_mem_cons.1 harrays
      -- The elements have a size of their own, and that of the array follows from it.
      obtain ⟨size, helem⟩ := exists_measures hsized hnames' hready
      have hsize := (sizeIn?_denoted_iff hnodup htells hsized hnames').2 ⟨helem, harrays, hready⟩
      exact ⟨size, hsize, hn.unique hnodup helem.array_single, hle n hn⟩

end Symbols

/-! ## Fields -/

theorem Layout.field?_eq_none_iff {l : Layout} {x : String} :
    l.field? x = none ↔ x ∉ l.fields.map (·.name) := by
  simp [field?]

namespace Program

variable {p : Program} {kind : String → Option SymbolKind} {fields : List (String × TypeExpr)}
  {l : Layout} {f : String} {type : TypeExpr} {n : Nat}

theorem proper_nil (p : Program) : p.Proper [] := by
  refine ⟨nodup_nil, forall_mem_nil _, ?_⟩
  intro first hfirst n hn
  rw [prefix_nil.1 hfirst] at hn
  cases hn
  exact Nat.zero_le _

theorem describes_empty (p : Program) (kind : String → Option SymbolKind) :
    p.Describes kind [] .empty := by
  refine ⟨rfl, ?_, .nil⟩
  intro i g hg
  cases hg

theorem Describes.names (h : p.Describes kind fields l) :
    l.fields.map (·.name) = fields.map (·.1) := by
  have hnames := congrArg (map Prod.fst) h.declared
  rw [map_map, map_map] at hnames
  exact hnames

/-- One more field goes behind the others. -/
theorem Describes.append (h : p.Describes kind fields l) (hn : p.Measures [type] n) :
    p.Describes kind (fields ++ [(f, type)]) (l.append f (type.denoted kind) n) := by
  have hlength : l.fields.length = fields.length := by
    have hmap := congrArg length h.names
    rwa [length_map, length_map] at hmap
  refine ⟨?_, ?_, ?_⟩
  · simp [Layout.append, h.declared]
  · intro i g hg
    rw [Layout.append, getElem?_append] at hg
    split at hg
    · next hi =>
      rw [take_append_of_le_length (by omega)]
      exact h.offset i g hg
    · next hi =>
      obtain ⟨hi', -⟩ := List.getElem?_eq_some_iff.1 hg
      rw [length_singleton] at hi'
      -- The new field is the last, with all others before it.
      have hlast : i = fields.length := by omega
      rw [hlast, hlength, Nat.sub_self] at hg
      cases hg
      rw [hlast, take_left]
      exact h.size
  · rw [map_append]
    exact h.size.append hn

/-- What is asked of one more field. -/
theorem Proper.append (h : p.Proper fields) (hf : f ∉ fields.map (·.1)) (htype : p.Admits type)
    (hsum : ∀ n, p.Measures ((fields ++ [(f, type)]).map (·.2)) n → n ≤ maxObject) :
    p.Proper (fields ++ [(f, type)]) := by
  refine ⟨?_, ?_, ?_⟩
  · rw [map_append]
    refine nodup_append.2 ⟨h.distinct, nodup_singleton _, ?_⟩
    rintro g hg g' hg' rfl
    rw [mem_singleton.1 hg'] at hg
    exact hf hg
  · intro g hg
    rcases mem_append.1 hg with hg | hg
    · exact h.types g hg
    · rw [mem_singleton.1 hg]
      exact htype
  · intro first hfirst
    rcases prefix_concat_iff.1 hfirst with rfl | hfirst
    · exact hsum
    · exact h.sums first hfirst

end Program

namespace Symbols

section

variable {t : Symbols} {p : Program} {s s' : Memo} {x : String} {done l : Layout}

/-- One field is laid out if it is new, its type is one that a field can have, the structs that it holds have
layouts, and it does not make the struct too large. -/
theorem layoutFields_cons_iff (hnodup : (p.map (·.name)).Nodup) (htells : t.Tells p)
    (hsized : Sized p s.layouts) {f : String} {type : TypeExpr} {rest : List (String × TypeExpr)}
    (hlit : ∀ e ∈ type.lengths, e.IsCount) :
    layoutFields (t.namesOfDepth 0) x done ((f, type) :: rest) s = (.ok l, s') ↔
      done.field? f = none ∧ p.Admits type ∧ Ready p s.layouts type ∧
        ∃ n, p.Measures [type] n ∧ done.size + n ≤ maxObject ∧
          layoutFields (t.namesOfDepth 0) x (done.append f (type.denoted t.kind) n) rest s
            = (.ok l, s') := by
  have hkinds : (∀ y ∈ type.names, (t.namesOfDepth 0).kind y = some .struct ∨
      (t.namesOfDepth 0).kind y = some .enum) ↔
      ∀ y ∈ type.names, (∃ fields, p.Struct y fields) ∨ p.Enum y := by
    simp only [kind_namesOfDepth, htells.struct, htells.enum]
  have hkind : (t.namesOfDepth 0).kind = t.kind := kind_namesOfDepth t 0
  conv_lhs => unfold layoutFields
  cases hf : done.field? f with
  | some g =>
    rw [Option.isSome_some, if_pos rfl]
    constructor
    · intro h
      cases h
    · rintro ⟨h, -⟩
      cases h
  | none =>
    rw [Option.isSome_none, if_neg Bool.false_ne_true, bind_eq_ok]
    constructor
    · rintro ⟨ty, s1, hty, h⟩
      -- The type is resolved, its size is found, and there is room for it.
      obtain ⟨⟨rfl, rfl⟩, hnames, hlengths⟩ := (Names.resolve_eq_ok_iff hlit).1 hty
      obtain ⟨n, s2, hsize, hlater⟩ := bind_eq_ok.1 h
      obtain ⟨rfl, hn⟩ := sizeOf_atHand.1 hsize
      rw [hkind] at hn
      obtain ⟨hmeasures, harrays, hready⟩ :=
        (sizeIn?_denoted_iff hnodup htells hsized (hkinds.1 hnames)).1 hn
      dsimp only at hlater
      split at hlater
      · cases hlater
      · next hle =>
        rw [hkind] at hlater
        exact ⟨rfl, ⟨hkinds.1 hnames, hlengths, harrays⟩, hready, n, hmeasures, by omega, hlater⟩
    · rintro ⟨-, hadmits, hready, n, hmeasures, hle, h⟩
      have hty : (t.namesOfDepth 0).resolve type s = _ :=
        (Names.resolve_eq_ok_iff hlit).2 ⟨⟨rfl, rfl⟩, hkinds.2 hadmits.names, hadmits.lengths⟩
      have hn := (sizeIn?_denoted_iff hnodup htells hsized hadmits.names).2
        ⟨hmeasures, hadmits.arrays, hready⟩
      refine ⟨_, s, hty, ?_⟩
      rw [hkind, bind_of_ok (sizeOf_atHand.2 ⟨rfl, hn⟩)]
      dsimp only
      rw [if_neg (by omega)]
      exact h

/-- Fields that are laid out behind others are proper together with them, and they are described by the
layout. -/
theorem proper_of_layoutFields (hnodup : (p.map (·.name)).Nodup) (htells : t.Tells p)
    (hsized : Sized p s.layouts) {before fields : List (String × TypeExpr)}
    (hlit : ∀ f ∈ fields, ∀ e ∈ f.2.lengths, e.IsCount) (hproper : p.Proper before)
    (hdone : p.Describes t.kind before done)
    (h : layoutFields (t.namesOfDepth 0) x done fields s = (.ok l, s')) :
    p.Proper (before ++ fields) ∧ p.Describes t.kind (before ++ fields) l ∧
      ∀ f ∈ fields, Ready p s.layouts f.2 := by
  induction fields generalizing before done with
  | nil =>
    cases h
    rw [append_nil]
    exact ⟨hproper, hdone, forall_mem_nil _⟩
  | cons field rest ih =>
    obtain ⟨f, type⟩ := field
    obtain ⟨htype, hrest⟩ := forall_mem_cons.1 hlit
    obtain ⟨hf, hadmits, hready, n, hn, hle, h⟩ :=
      (layoutFields_cons_iff hnodup htells hsized htype).1 h
    rw [Layout.field?_eq_none_iff, hdone.names] at hf
    have hnext := hdone.append (f := f) hn
    have hproper' : p.Proper (before ++ [(f, type)]) := by
      refine hproper.append hf hadmits ?_
      intro m hm
      rw [hm.unique hnodup hnext.size]
      exact hle
    obtain ⟨hall, hlayout, hreadies⟩ := ih hrest hproper' hnext h
    rw [append_assoc, singleton_append] at hall hlayout
    exact ⟨hall, hlayout, forall_mem_cons.2 ⟨hready, hreadies⟩⟩

/-- Proper fields whose structs have layouts are laid out. -/
theorem exists_layoutFields (hnodup : (p.map (·.name)).Nodup) (htells : t.Tells p)
    (hsized : Sized p s.layouts) {before fields : List (String × TypeExpr)}
    (hlit : ∀ f ∈ fields, ∀ e ∈ f.2.lengths, e.IsCount) (hdone : p.Describes t.kind before done)
    (hproper : p.Proper (before ++ fields)) (hready : ∀ f ∈ fields, Ready p s.layouts f.2) :
    ∃ l, layoutFields (t.namesOfDepth 0) x done fields s = (.ok l, s) := by
  induction fields generalizing before done with
  | nil => exact ⟨done, rfl⟩
  | cons field rest ih =>
    obtain ⟨f, type⟩ := field
    obtain ⟨htype, hrest⟩ := forall_mem_cons.1 hlit
    obtain ⟨hready, hreadies⟩ := forall_mem_cons.1 hready
    have hadmits : p.Admits type := hproper.types (f, type) (by simp)
    have hf : done.field? f = none := by
      rw [Layout.field?_eq_none_iff, hdone.names]
      intro hmem
      -- The name is among those before and among those to come.
      have hdistinct := hproper.distinct
      rw [map_append, nodup_append] at hdistinct
      exact hdistinct.2.2 f hmem f (by simp) rfl
    obtain ⟨n, hn⟩ := exists_measures hsized hadmits.names hready
    have hnext := hdone.append (f := f) hn
    rw [← singleton_append, ← append_assoc] at hproper
    have hle := hproper.sums _ (prefix_append _ _) _ hnext.size
    obtain ⟨l, hl⟩ := ih hrest hnext hproper hreadies
    exact ⟨l, (layoutFields_cons_iff hnodup htells hsized htype).2
      ⟨hf, hadmits, hready, n, hn, hle, hl⟩⟩

end

end Symbols

end Sigil
