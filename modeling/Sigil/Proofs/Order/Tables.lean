import Sigil.Proofs.Order.Caches
import Sigil.Proofs.Typing.Rules

/-!
# The order of definitions

The symbol table of a program in which no name is defined twice does not depend on the order of the
definitions. Two tables of the same definitions give names the same meaning (`Symbols.Alike`). If
everything could be worked out in one order, then what it follows from is kept in the end, and can be found
again in any other order (`Symbols.exists_defineAll`); so both orders end with the same layouts, constants
and signatures, by name (`Symbols.Same`).
-/

namespace Sigil

open Assoc List

/-! ## Entering names -/

namespace Assoc

variable {β : Type} {m m' : Assoc β} {key : String}

/-- Where no key occurs twice, a pair is found exactly if it is there. -/
theorem get?_eq_some_iff (hnodup : (m.map (·.1)).Nodup) {v : β} :
    m.get? key = some v ↔ (key, v) ∈ m := by
  induction m with
  | nil => simp [get?]
  | cons kv rest ih =>
    obtain ⟨k, w⟩ := kv
    obtain ⟨hk, hrest⟩ := nodup_cons.1 hnodup
    by_cases hkey : k = key
    · have hnew : (key, v) ∉ rest := by
        intro hmem
        exact hk (mem_map.2 ⟨_, hmem, hkey.symm⟩)
      simp [get?, hkey, hnew, eq_comm]
    · have hkey' : ¬ key = k := fun h => hkey h.symm
      simp [get?, hkey, hkey', ih hrest]

/-- If no key stands twice, the order does not matter. -/
theorem get?_perm (hnodup : (m.map (·.1)).Nodup) (hperm : m.Perm m') : m.get? key = m'.get? key := by
  have hnodup' : (m'.map (·.1)).Nodup := (hperm.map _).nodup_iff.1 hnodup
  apply Option.ext
  intro v
  rw [get?_eq_some_iff hnodup, get?_eq_some_iff hnodup', hperm.mem_iff]

theorem get?_putNew_of_none (h : m.get? key = none) (v : β) (x : String) :
    (m.putNew key v).get? x = if key = x then some v else m.get? x := by
  have hnew : m.has key = false := by
    rw [has, h]
    rfl
  unfold putNew
  rw [hnew, if_neg Bool.false_ne_true, get?_append]
  by_cases hx : key = x
  · rw [← hx, h, if_pos rfl]
    simp [get?]
  · rw [if_neg hx]
    simp [get?, hx]

end Assoc

namespace Def

/-- The entry for a name and what it stands for. -/
def entry (d : Def) : String × (SymbolKind × Position) :=
  (d.name, (d.body.kind, d.pos))

/-- The entry for a struct. -/
def struct? (d : Def) : Option (String × List (String × TypeExpr)) :=
  match d.body with
  | .struct fields => some (d.name, fields)
  | _ => none

/-- The entry for a constant. -/
def const? (d : Def) : Option (String × (Option TypeExpr × Expr)) :=
  match d.body with
  | .const type value => some (d.name, (type, value))
  | _ => none

/-- The entry for an enum. -/
def enum? (d : Def) : Option (String × Assoc Nat) :=
  match d.body with
  | .enum variants => some (d.name, (Symbols.enumVariants variants).1)
  | _ => none

/-- The variants of an enum that occur again. -/
def repeated (d : Def) : List (Located TypeError) :=
  match d.body with
  | .enum variants =>
    (Symbols.enumVariants variants).2.map fun v => ⟨d.pos, .duplicate (d.name ++ "." ++ v)⟩
  | _ => []

end Def

namespace Symbols

variable {t : Symbols}

/-- The table with the names of some definitions besides. -/
def entered (t : Symbols) (ds : List Def) : Symbols :=
  { t with
    defs := t.defs ++ ds.map Def.entry
    structs := t.structs ++ ds.filterMap Def.struct?
    consts := t.consts ++ ds.filterMap Def.const?
    enums := t.enums ++ ds.filterMap Def.enum? }

theorem index_of_new {d : Def} (h : t.defs.has d.name = false) :
    t.index d = (t.entered [d], d.repeated) := by
  unfold index
  rw [h, if_neg Bool.false_ne_true]
  cases hb : d.body <;> simp [entered, Def.entry, Def.struct?, Def.const?, Def.enum?, Def.repeated, hb,
    DefBody.kind]

/-- Definitions of names that are new and distinct are all entered. -/
theorem indexAll_of_new {ds : List Def} (hnew : ∀ d ∈ ds, t.defs.has d.name = false)
    (hnodup : (ds.map (·.name)).Nodup) :
    t.indexAll ds = (t.entered ds, ds.flatMap Def.repeated) := by
  induction ds generalizing t with
  | nil => simp [indexAll, entered]
  | cons d ds ih =>
    obtain ⟨hd, hds⟩ := forall_mem_cons.1 hnew
    obtain ⟨hname, hrest⟩ := nodup_cons.1 hnodup
    have hnext : ∀ d' ∈ ds, (t.entered [d]).defs.has d'.name = false := by
      intro d' hd'
      have hne : d.name ≠ d'.name := by
        intro heq
        exact hname (mem_map.2 ⟨d', hd', heq.symm⟩)
      have hold := hds d' hd'
      unfold has at hold ⊢
      unfold entered
      rw [get?_append, Option.isSome_or, hold]
      simp [get?, Def.entry, hne]
    unfold indexAll
    rw [index_of_new hd]
    dsimp only
    rw [ih hnext hrest]
    simp only [entered, append_assoc, ← map_append, ← filterMap_append,
      flatMap_cons]
    rfl

/-- Names mean the same in both tables. -/
structure Alike (t t' : Symbols) : Prop where
  kind : t.kind = t'.kind
  structs : ∀ x, t.structs.get? x = t'.structs.get? x
  consts : ∀ x, t.consts.get? x = t'.consts.get? x
  enums : ∀ x, t.enums.get? x = t'.enums.get? x
  depth : t.depth = t'.depth

namespace Alike

variable {t t' t'' : Symbols}

theorem refl (t : Symbols) : t.Alike t :=
  ⟨rfl, fun _ => rfl, fun _ => rfl, fun _ => rfl, rfl⟩

variable (h : t.Alike t')
include h

theorem symm : t'.Alike t :=
  ⟨h.kind.symm, fun x => (h.structs x).symm, fun x => (h.consts x).symm, fun x => (h.enums x).symm,
    h.depth.symm⟩

theorem trans (h' : t'.Alike t'') : t.Alike t'' :=
  ⟨h.kind.trans h'.kind, fun x => (h.structs x).trans (h'.structs x),
    fun x => (h.consts x).trans (h'.consts x), fun x => (h.enums x).trans (h'.enums x),
    h.depth.trans h'.depth⟩

theorem variant : t.variant = t'.variant := by
  funext x v
  unfold Symbols.variant
  rw [h.enums x]

theorem body (names : Names) (k : Store) (x : String) :
    k.body t names x = k.body t' names x := by
  cases k with
  | layouts => exact congrArg (Option.map _) (h.structs x)
  | constants => exact congrArg (Option.map _) (h.consts x)

theorem consult (names : Names) (k : Store) (x : String) :
    t.consult names k x = t'.consult names k x := by
  unfold Symbols.consult
  rw [h.body]

theorem valueBy (constant : String → Eval GlobalConst) :
    t.valueBy constant = t'.valueBy constant := by
  funext x
  unfold Symbols.valueBy
  rw [h.kind]

/-- Tables that differ only in what they keep ask the same questions at every depth. -/
theorem namesOfDepth (n : Nat) : t.namesOfDepth n = t'.namesOfDepth n := by
  induction n with
  | zero =>
    have hconst : t.constantAtHand = t'.constantAtHand := by
      funext x
      unfold constantAtHand has
      rw [h.consts x]
    have hlayout : t.layoutAtHand = t'.layoutAtHand := by
      funext x
      unfold layoutAtHand has
      rw [h.structs x]
    unfold Symbols.namesOfDepth
    rw [h.kind, h.variant, hconst, h.valueBy, hlayout]
  | succ n ih =>
    have hconst : t.constantBy (t.namesOfDepth n) = t'.constantBy (t'.namesOfDepth n) := by
      funext x
      rw [← consult_constants, ← consult_constants, ih, h.consult]
    have hlayout : t.layoutBy (t.namesOfDepth n) = t'.layoutBy (t'.namesOfDepth n) := by
      funext x
      rw [← consult_layouts, ← consult_layouts, ih, h.consult]
    unfold Symbols.namesOfDepth
    rw [h.kind, h.variant, hconst, h.valueBy, hlayout]

theorem built {s : Memo} (hs : t.Built s) : t'.Built s := by
  induction hs with
  | empty => exact .empty
  | inProgress _ names ih => exact ih.inProgress names
  | put _ hx hb hv ih =>
    rw [h.namesOfDepth, h.body] at hb
    exact .put ih hx hb hv

end Alike

section

variable {p q : Program} {x : String}
variable {β : Type} {d : Def} {f : Def → Option (String × β)}

/-- The table of the names of a program. -/
abbrev ofNames (p : Program) : Symbols :=
  empty.entered p

theorem keys_sublist
    (hf : ∀ d v, f d = some v → v.1 = d.name) (ds : List Def) :
    ((ds.filterMap f).map (·.1)).Sublist (ds.map (·.name)) := by
  induction ds with
  | nil => exact List.Sublist.refl _
  | cons d ds ih =>
    rw [filterMap_cons, map_cons]
    cases hd : f d with
    | none => exact ih.cons _
    | some v =>
      dsimp only
      rw [map_cons, hf d v hd]
      exact ih.cons_cons _

theorem eq_of_struct? {v : String × List (String × TypeExpr)} (h : d.struct? = some v) :
    v.1 = d.name ∧ d.body = .struct v.2 := by
  unfold Def.struct? at h
  split at h
  · next fields hb =>
    cases h
    exact ⟨rfl, hb⟩
  · cases h

theorem eq_of_const? {v : String × (Option TypeExpr × Expr)} (h : d.const? = some v) :
    v.1 = d.name ∧ d.body = .const v.2.1 v.2.2 := by
  unfold Def.const? at h
  split at h
  · next type value hb =>
    cases h
    exact ⟨rfl, hb⟩
  · cases h

theorem eq_of_enum? {v : String × Assoc Nat} (h : d.enum? = some v) : v.1 = d.name := by
  unfold Def.enum? at h
  split at h
  · cases h
    rfl
  · cases h

/-- What is found for a name comes from its definition. -/
theorem exists_of_get?
    (hf : ∀ d v, f d = some v → v.1 = d.name) (hnodup : (p.map (·.name)).Nodup) {v : β}
    (h : get? x (p.filterMap f) = some v) : ∃ d ∈ p, d.name = x ∧ f d = some (x, v) := by
  have hkeys := (keys_sublist hf p).nodup hnodup
  obtain ⟨d, hd, hfd⟩ := mem_filterMap.1 ((get?_eq_some_iff hkeys).1 h)
  exact ⟨d, hd, (hf d _ hfd).symm, hfd⟩

theorem exists_struct (hnodup : (p.map (·.name)).Nodup) {fields : List (String × TypeExpr)}
    (h : (ofNames p).structs.get? x = some fields) : ∃ d ∈ p, d.name = x ∧ d.body = .struct fields := by
  obtain ⟨d, hd, hname, hfd⟩ := exists_of_get? (fun _ _ h => (eq_of_struct? h).1) hnodup h
  exact ⟨d, hd, hname, (eq_of_struct? hfd).2⟩

theorem exists_const (hnodup : (p.map (·.name)).Nodup) {const : Option TypeExpr × Expr}
    (h : (ofNames p).consts.get? x = some const) :
    ∃ d ∈ p, d.name = x ∧ d.body = .const const.1 const.2 := by
  obtain ⟨d, hd, hname, hfd⟩ := exists_of_get? (fun _ _ h => (eq_of_const? h).1) hnodup h
  exact ⟨d, hd, hname, (eq_of_const? hfd).2⟩

/-- If no name is defined twice, no name is that of a struct and of a constant. -/
theorem apart_ofNames (hnodup : (p.map (·.name)).Nodup) : (ofNames p).Apart := by
  intro x
  cases hs : (ofNames p).structs.get? x with
  | none => exact Or.inl rfl
  | some fields =>
    cases hc : (ofNames p).consts.get? x with
    | none => exact Or.inr rfl
    | some const =>
      obtain ⟨d, hd, hname, hb⟩ := exists_struct hnodup hs
      obtain ⟨d', hd', hname', hb'⟩ := exists_const hnodup hc
      have heq := inj_on_of_nodup_map hnodup hd hd' (hname.trans hname'.symm)
      rw [heq, hb'] at hb
      cases hb

/-- The order of definitions does not matter for what names mean. -/
theorem alike_of_perm (hnodup : (p.map (·.name)).Nodup) (hperm : p.Perm q) :
    (ofNames p).Alike (ofNames q) := by
  have hkeys : ∀ {β : Type} {f : Def → Option (String × β)},
      (∀ d v, f d = some v → v.1 = d.name) → ∀ x,
      get? x (p.filterMap f) = get? x (q.filterMap f) := by
    intro β f hf x
    exact get?_perm ((keys_sublist hf p).nodup hnodup) (hperm.filterMap f)
  constructor
  · funext x
    have hentries : ((p.map Def.entry).map (·.1)).Nodup := by
      rw [map_map]
      exact hnodup
    exact congrArg (Option.map _) (get?_perm hentries (hperm.map Def.entry))
  · exact hkeys fun _ _ h => (eq_of_struct? h).1
  · exact hkeys fun _ _ h => (eq_of_const? h).1
  · exact hkeys fun _ _ h => eq_of_enum? h
  · have hstructs := (hperm.filterMap Def.struct?).length_eq
    have hconsts := (hperm.filterMap Def.const?).length_eq
    exact congrArg₂ (· + ·) hstructs hconsts

end

/-! ## Working out definitions -/

/-- What a definition stands for is kept, or follows from what is kept. -/
def Told (t : Symbols) (full : Memo) (funcs : Assoc Signature) (d : Def) : Prop :=
  match d.body with
  | .struct _ => ∃ l, full.layouts.get? d.name = some l
  | .const _ _ => ∃ g, full.constants.get? d.name = some g
  | .enum _ => True
  | .func f => ∃ sig, funcs.get? d.name = some sig ∧
      ∀ s, full.Within s → signature (t.namesOfDepth 0) f s = (.ok sig, s)

/-- A later state of a table in which definitions are worked out. -/
structure Advances (t t' : Symbols) : Prop where
  alike : t'.Alike t
  built : t'.Built t'.memo
  within : t.memo.Within t'.memo
  funcs : ∀ x sig, t.funcs.get? x = some sig → t'.funcs.get? x = some sig

theorem Advances.trans {t' t'' : Symbols} (h : t.Advances t') (h' : t'.Advances t'') :
    t.Advances t'' :=
  ⟨h'.alike.trans h.alike, h'.built, h.within.trans h'.within,
    fun x sig hx => h'.funcs x sig (h.funcs x sig hx)⟩

section

variable {t t' : Symbols} {d : Def} {ds : List Def} {full : Memo} {funcs : Assoc Signature}

/-- Only what is kept changes. -/
theorem alike_withMemo (t : Symbols) (memo : Memo) (funcs : Assoc Signature) :
    ({ t with memo, funcs } : Symbols).Alike t :=
  ⟨rfl, fun _ => rfl, fun _ => rfl, fun _ => rfl, rfl⟩

theorem Apart.alike (h : t.Apart) (halike : t'.Alike t) : t'.Apart := by
  intro x
  rw [halike.structs, halike.consts]
  exact h x

/-- What has been told of a definition stays so while the table grows. -/
theorem Told.advances (h : t.Told t.memo t.funcs d) (hadv : t.Advances t') :
    t'.Told t'.memo t'.funcs d := by
  unfold Told at h ⊢
  cases hb : d.body with
  | struct fields =>
    rw [hb] at h
    obtain ⟨l, hl⟩ := h
    exact ⟨l, hadv.within .layouts _ _ hl⟩
  | const type value =>
    rw [hb] at h
    obtain ⟨g, hg⟩ := h
    exact ⟨g, hadv.within .constants _ _ hg⟩
  | enum variants => trivial
  | func f =>
    rw [hb] at h
    obtain ⟨sig, hsig, hfound⟩ := h
    refine ⟨sig, hadv.funcs _ _ hsig, ?_⟩
    intro s hs
    rw [hadv.alike.namesOfDepth]
    exact hfound s (hadv.within.trans hs)

/-- A definition that can be worked out is kept, and what is kept stays. -/
theorem advances_define (hapart : t.Apart) (hbuilt : t.Built t.memo)
    (hnew : t.funcs.get? d.name = none) (h : t.define d = (.ok (), t')) :
    t.Advances t' ∧ t'.Told t'.memo t'.funcs d ∧
      ∀ x, x ≠ d.name → t'.funcs.get? x = t.funcs.get? x := by
  -- Structures and constants are consulted alike, in their own stores.
  have hconsult : ∀ (k : Store) (v : k.Value) (memo : Memo),
      t.consult (t.namesOfDepth t.depth) k d.name t.memo = (.ok v, memo) →
      t.Advances { t with memo } ∧ k.get? memo d.name = some v := by
    intro k v memo hv
    have htraces := traces_consult hapart (related_traces hapart t.depth) k d.name t.memo hbuilt
    rw [hv] at htraces
    obtain ⟨hbuilt', hext, hfound⟩ := htraces
    obtain ⟨-, hkept⟩ := of_atHand (hfound v rfl memo (.refl memo))
    have halike := alike_withMemo t memo t.funcs
    exact ⟨⟨halike, halike.symm.built hbuilt', hext.within, fun _ _ hx => hx⟩, hkept v rfl⟩
  unfold define at h
  unfold Told
  cases hb : d.body with
  | struct fields =>
    rw [hb] at h
    dsimp only at h ⊢
    rcases hl : t.layout d.name t.memo with ⟨e | l, memo⟩
    · rw [hl] at h
      cases h
    · rw [hl] at h
      cases h
      rw [Symbols.layout, ← consult_layouts] at hl
      obtain ⟨hadv, hkept⟩ := hconsult .layouts l memo hl
      exact ⟨hadv, ⟨l, hkept⟩, fun _ _ => rfl⟩
  | const type value =>
    rw [hb] at h
    dsimp only at h ⊢
    rcases hg : t.globalConst d.name t.memo with ⟨e | g, memo⟩
    · rw [hg] at h
      cases h
    · rw [hg] at h
      cases h
      rw [Symbols.globalConst, ← consult_constants] at hg
      obtain ⟨hadv, hkept⟩ := hconsult .constants g memo hg
      exact ⟨hadv, ⟨g, hkept⟩, fun _ _ => rfl⟩
  | enum variants =>
    rw [hb] at h
    cases h
    exact ⟨⟨.refl t, hbuilt, .refl _, fun _ _ hx => hx⟩, trivial, fun _ _ => rfl⟩
  | func f =>
    rw [hb] at h
    dsimp only at h ⊢
    have htraces := (related_traces hapart (t.depth + 1)).signature t.relation_traces f t.memo hbuilt
    rcases hsig : signature t.names f t.memo with ⟨e | sig, memo⟩
    · rw [hsig] at h
      cases h
    · rw [hsig] at h
      cases h
      rw [← names, hsig] at htraces
      obtain ⟨hbuilt', hext, hfound⟩ := htraces
      have halike := alike_withMemo t memo (t.funcs.putNew d.name sig)
      have hput := get?_putNew_of_none hnew sig
      refine ⟨⟨halike, halike.symm.built hbuilt', hext.within, ?_⟩, ⟨sig, ?_, ?_⟩, ?_⟩
      · -- What was there stays, since the name is new.
        intro x sig' hx
        have hne : d.name ≠ x := by
          rintro rfl
          rw [hnew] at hx
          cases hx
        exact (hput x).trans ((if_neg hne).trans hx)
      · exact (hput d.name).trans (if_pos rfl)
      · intro s hs
        rw [halike.namesOfDepth]
        exact hfound sig rfl s hs
      · intro x hx
        exact (hput x).trans (if_neg fun heq => hx heq.symm)

/-- If no definition is faulty, everything that is defined is kept in the end. -/
theorem advances_defineAll (hapart : t.Apart) (hbuilt : t.Built t.memo)
    (hnew : ∀ d ∈ ds, t.funcs.get? d.name = none) (hnodup : (ds.map (·.name)).Nodup)
    (h : t.defineAll ds = some (t', [])) :
    t.Advances t' ∧ ∀ d ∈ ds, t'.Told t'.memo t'.funcs d := by
  induction ds generalizing t with
  | nil =>
    cases h
    exact ⟨⟨.refl _, hbuilt, .refl _, fun _ _ hx => hx⟩, forall_mem_nil _⟩
  | cons d ds ih =>
    obtain ⟨hd, hds⟩ := forall_mem_cons.1 hnew
    obtain ⟨hname, hrest⟩ := nodup_cons.1 hnodup
    unfold defineAll at h
    rcases hdef : t.define d with ⟨e | u, t1⟩
    · rw [hdef] at h
      cases e with
      | error e => simp at h
      | trap => cases h
    · rw [hdef] at h
      obtain ⟨hadv, htold, hother⟩ := advances_define hapart hbuilt hd hdef
      have hnew' : ∀ d' ∈ ds, t1.funcs.get? d'.name = none := by
        intro d' hd'
        rw [hother _ fun heq => hname (mem_map.2 ⟨d', hd', heq⟩)]
        exact hds d' hd'
      obtain ⟨hadv', htold'⟩ := ih (hapart.alike hadv.alike) hadv.built hnew' hrest h
      exact ⟨hadv.trans hadv', forall_mem_cons.2 ⟨htold.advances hadv', htold'⟩⟩

/-- Working out a definition, whether it is faulty or not, fills the memo in order and leaves nothing in
progress. -/
theorem built_define (hapart : t.Apart) (hbuilt : t.Built t.memo) (d : Def) :
    (t.define d).2.Alike t ∧ (t.define d).2.Built (t.define d).2.memo ∧
      (t.define d).2.memo.inProgress = t.memo.inProgress := by
  -- Whichever way it ends, the table differs in what it keeps only.
  have hleave : ∀ (memo : Memo) (funcs : Assoc Signature), t.Built memo → t.memo.Extends memo →
      ({ t with memo, funcs } : Symbols).Alike t ∧ ({ t with memo, funcs } : Symbols).Built memo ∧
        memo.inProgress = t.memo.inProgress := by
    intro memo funcs hmemo hext
    have halike := alike_withMemo t memo funcs
    exact ⟨halike, halike.symm.built hmemo, hext.inProgress⟩
  have hconsult : ∀ k : Store, _ :=
    fun k => traces_consult hapart (related_traces hapart t.depth) k d.name t.memo hbuilt
  unfold define
  cases hb : d.body with
  | struct fields =>
    obtain ⟨hmemo, hext, -⟩ := hconsult .layouts
    rw [consult_layouts] at hmemo hext
    exact hleave _ t.funcs hmemo hext
  | const type value =>
    obtain ⟨hmemo, hext, -⟩ := hconsult .constants
    rw [consult_constants] at hmemo hext
    exact hleave _ t.funcs hmemo hext
  | enum variants => exact ⟨.refl t, hbuilt, rfl⟩
  | func f =>
    have htraces := (related_traces hapart (t.depth + 1)).signature t.relation_traces f t.memo hbuilt
    obtain ⟨hmemo, hext, -⟩ := htraces
    rw [← names] at hmemo hext
    dsimp only
    split
    · next hsig =>
      rw [hsig] at hmemo hext
      exact hleave _ _ hmemo hext
    · next hsig =>
      rw [hsig] at hmemo hext
      exact hleave _ t.funcs hmemo hext

/-- Defining all of a program leaves a table whose answers can all be built again. -/
theorem built_defineAll (hapart : t.Apart) (hbuilt : t.Built t.memo) {es : List (Located TypeError)}
    (h : t.defineAll ds = some (t', es)) :
    t'.Alike t ∧ t'.Built t'.memo ∧ t'.memo.inProgress = t.memo.inProgress := by
  induction ds generalizing t es with
  | nil =>
    cases h
    exact ⟨.refl _, hbuilt, rfl⟩
  | cons d ds ih =>
    obtain ⟨halike, hmemo, hprogress⟩ := built_define hapart hbuilt d
    have hrest : ∀ es', (t.define d).2.defineAll ds = some (t', es') →
        t'.Alike t ∧ t'.Built t'.memo ∧ t'.memo.inProgress = t.memo.inProgress := by
      intro es' hall
      obtain ⟨halike', hmemo', hprogress'⟩ := ih (hapart.alike halike) hmemo hall
      exact ⟨halike'.trans halike, hmemo', hprogress'.trans hprogress⟩
    unfold defineAll at h
    split at h
    · next t1 hd =>
      rw [hd] at hrest
      exact hrest es h
    · next e t1 hd =>
      rw [hd] at hrest
      simp only [Option.map_eq_some_iff, Prod.mk.injEq, Prod.exists] at h
      obtain ⟨t2, es', hall, rfl, -⟩ := h
      exact hrest es' hall
    · cases h

/-- A table with some of what is kept in the end. -/
structure Nears (t : Symbols) (full : Memo) (funcs : Assoc Signature) : Prop where
  within : t.memo.Within full
  inProgress : t.memo.inProgress = []
  funcs : ∀ x sig, t.funcs.get? x = some sig → funcs.get? x = some sig

theorem Nears.fits (h : t.Nears full funcs) : Fits full full t.memo := by
  refine ⟨h.within, ?_⟩
  rw [h.inProgress]
  exact forall_mem_nil _

/-- A definition that is told in the end can be worked out on the way. -/
theorem exists_define (hfull : t.Built full) (htold : t.Told full funcs d) (hnear : t.Nears full funcs) :
    ∃ t', t.define d = (.ok (), t') ∧ t'.Alike t ∧ t'.Nears full funcs := by
  -- What the full table keeps is found with what is kept so far.
  have hconsult : ∀ (k : Store) (v : k.Value), k.get? full d.name = some v →
      ∃ memo, t.consult (t.namesOfDepth t.depth) k d.name t.memo = (.ok v, memo) ∧
        ({ t with memo } : Symbols).Nears full funcs := by
    intro k v hv
    obtain ⟨memo, hmemo, hwithin, hprogress⟩ :=
      hfull.findable (.refl full) hfull.count_le hv t.memo hnear.fits
    exact ⟨memo, hmemo, hwithin, hprogress.trans hnear.inProgress, hnear.funcs⟩
  unfold define
  unfold Told at htold
  cases hb : d.body with
  | struct fields =>
    rw [hb] at htold
    obtain ⟨l, hl⟩ := htold
    obtain ⟨memo, hmemo, hnear'⟩ := hconsult .layouts l hl
    rw [consult_layouts] at hmemo
    refine ⟨{ t with memo }, ?_, alike_withMemo t memo t.funcs, hnear'⟩
    dsimp only
    rw [Symbols.layout, hmemo]
    rfl
  | const type value =>
    rw [hb] at htold
    obtain ⟨g, hg⟩ := htold
    obtain ⟨memo, hmemo, hnear'⟩ := hconsult .constants g hg
    rw [consult_constants] at hmemo
    refine ⟨{ t with memo }, ?_, alike_withMemo t memo t.funcs, hnear'⟩
    dsimp only
    rw [Symbols.globalConst, hmemo]
    rfl
  | enum variants => exact ⟨t, rfl, .refl t, hnear⟩
  | func f =>
    rw [hb] at htold
    obtain ⟨sig, hsig, hfound⟩ := htold
    have hanswers := hfull.related_names.signature (relation_answers full full) f
    obtain ⟨memo, hmemo, hwithin, hprogress⟩ :=
      (hanswers sig full (hfound full (.refl full))).2 t.memo hnear.fits
    refine ⟨{ t with memo, funcs := t.funcs.putNew d.name sig }, ?_, alike_withMemo t memo _, hwithin,
      hprogress.trans hnear.inProgress, ?_⟩
    · dsimp only
      rw [hmemo]
    · intro x sig' hx
      rcases of_get?_putNew hx with ⟨rfl, rfl⟩ | hx
      · exact hsig
      · exact hnear.funcs x sig' hx

/-- If everything is told in the end, no definition is faulty. -/
theorem exists_defineAll (hfull : t.Built full) (htold : ∀ d ∈ ds, t.Told full funcs d)
    (hnear : t.Nears full funcs) :
    ∃ t', t.defineAll ds = some (t', []) ∧ t'.Alike t ∧ t'.Nears full funcs := by
  induction ds generalizing t with
  | nil => exact ⟨t, rfl, .refl t, hnear⟩
  | cons d ds ih =>
    obtain ⟨hd, hds⟩ := forall_mem_cons.1 htold
    obtain ⟨t1, hdef, halike, hnear1⟩ := exists_define hfull hd hnear
    have htold1 : ∀ d ∈ ds, t1.Told full funcs d := by
      intro d' hd'
      have htold' := hds d' hd'
      unfold Told at htold' ⊢
      rw [halike.namesOfDepth]
      exact htold'
    obtain ⟨t2, hall, halike2, hnear2⟩ := ih (halike.symm.built hfull) htold1 hnear1
    refine ⟨t2, ?_, halike2.trans halike, hnear2⟩
    unfold defineAll
    rw [hdef]
    exact hall

end

/-! ## Two orders -/

/-- Names mean the same in both tables, and the same is kept for them. -/
structure Same (t t' : Symbols) : Prop where
  alike : t.Alike t'
  memo : ∀ (k : Store) (x : String), k.get? t.memo x = k.get? t'.memo x
  funcs : ∀ x, t.funcs.get? x = t'.funcs.get? x

section

variable {p q : Program} {t t' : Symbols}

theorem told_of_defineAll (hnodup : (p.map (·.name)).Nodup)
    (h : (ofNames p).defineAll p = some (t, [])) :
    (ofNames p).Advances t ∧ ∀ d ∈ p, t.Told t.memo t.funcs d :=
  advances_defineAll (apart_ofNames hnodup) .empty (fun _ _ => rfl) hnodup h

/-- Everything that is defined is kept. -/
theorem isSome_of_defineAll (hnodup : (p.map (·.name)).Nodup)
    (h : (ofNames p).defineAll p = some (t, [])) {k : Store} {x : String} {names : Names}
    (hbody : (k.body t names x).isSome = true) : (k.get? t.memo x).isSome = true := by
  obtain ⟨hadv, htold⟩ := told_of_defineAll hnodup h
  rw [hadv.alike.body] at hbody
  obtain ⟨b, hb⟩ := Option.isSome_iff_exists.1 hbody
  cases k with
  | layouts =>
    obtain ⟨fields, hfields, -⟩ := Option.map_eq_some_iff.1 hb
    obtain ⟨d, hd, rfl, hdef⟩ := exists_struct hnodup hfields
    have hkept := htold d hd
    unfold Told at hkept
    rw [hdef] at hkept
    exact Option.isSome_iff_exists.2 hkept
  | constants =>
    obtain ⟨const, hconst, -⟩ := Option.map_eq_some_iff.1 hb
    obtain ⟨d, hd, rfl, hdef⟩ := exists_const hnodup hconst
    have hkept := htold d hd
    unfold Told at hkept
    rw [hdef] at hkept
    exact Option.isSome_iff_exists.2 hkept

/-- If no definition is faulty in one order, none is faulty in another, which leads to nothing else. -/
theorem exists_nears_of_perm (hnodup : (p.map (·.name)).Nodup) (hperm : p.Perm q)
    (h : (ofNames p).defineAll p = some (t, [])) :
    ∃ t', (ofNames q).defineAll q = some (t', []) ∧ t'.Alike t ∧ t'.Nears t.memo t.funcs := by
  obtain ⟨hadv, htold⟩ := told_of_defineAll hnodup h
  have halike : t.Alike (ofNames q) := hadv.alike.trans (alike_of_perm hnodup hperm)
  have htold' : ∀ d ∈ q, (ofNames q).Told t.memo t.funcs d := by
    intro d hd
    have hkept := htold d (hperm.mem_iff.2 hd)
    unfold Told at hkept ⊢
    rw [← halike.namesOfDepth]
    exact hkept
  have hstart : (ofNames q).Nears t.memo t.funcs := by
    refine ⟨?_, rfl, ?_⟩
    · intro k x v hv
      rw [show (ofNames q).memo = .empty from rfl, lacks_empty x k] at hv
      cases hv
    · intro x sig hx
      cases hx
  obtain ⟨t', hall, halike', hnear⟩ := exists_defineAll (halike.built hadv.built) htold' hstart
  exact ⟨t', hall, halike'.trans halike.symm, hnear⟩

/-- Both orders lead to the same. -/
theorem exists_same_of_perm (hnodup : (p.map (·.name)).Nodup) (hperm : p.Perm q)
    (h : (ofNames p).defineAll p = some (t, [])) :
    ∃ t', (ofNames q).defineAll q = some (t', []) ∧ t.Same t' := by
  obtain ⟨t', hq, halike, hnear⟩ := exists_nears_of_perm hnodup hperm h
  have hnodup' : (q.map (·.name)).Nodup := (hperm.map _).nodup_iff.1 hnodup
  obtain ⟨t'', hp, -, hnear'⟩ := exists_nears_of_perm hnodup' hperm.symm hq
  rw [h] at hp
  cases hp
  refine ⟨t', hq, halike.symm, ?_, ?_⟩
  · intro k x
    apply Option.ext
    intro v
    exact ⟨hnear'.within k x v, hnear.within k x v⟩
  · intro x
    apply Option.ext
    intro sig
    exact ⟨hnear'.funcs x sig, hnear.funcs x sig⟩

/-- A table has no errors exactly if there is none of repetition, of definition, or of the entry point. -/
theorem ofProgram_eq_some (hnodup : (p.map (·.name)).Nodup) :
    ofProgram p = some (t, []) ↔
      p.flatMap Def.repeated = [] ∧ (ofNames p).defineAll p = some (t, []) ∧ t.checkMain = [] := by
  unfold ofProgram
  rw [indexAll_of_new (fun _ _ => rfl) hnodup]
  simp only [Option.map_eq_some_iff, Prod.mk.injEq, append_eq_nil_iff, Prod.exists]
  constructor
  · rintro ⟨t', es, hall, rfl, ⟨hrepeated, rfl⟩, hmain⟩
    exact ⟨hrepeated, hall, hmain⟩
  · rintro ⟨hrepeated, hall, hmain⟩
    exact ⟨t, [], hall, rfl, ⟨hrepeated, rfl⟩, hmain⟩

/-- What the table of a program keeps, whether the program has errors or not. -/
theorem built_ofProgram (hnodup : (p.map (·.name)).Nodup) {es : List (Located TypeError)}
    (h : ofProgram p = some (t, es)) :
    t.Alike (ofNames p) ∧ t.Built t.memo ∧ t.memo.inProgress = [] := by
  unfold ofProgram at h
  rw [indexAll_of_new (fun _ _ => rfl) hnodup] at h
  simp only [Option.map_eq_some_iff, Prod.mk.injEq, Prod.exists] at h
  obtain ⟨t', es', hall, rfl, -⟩ := h
  exact built_defineAll (apart_ofNames hnodup) .empty hall

theorem Same.checkMain (h : t.Same t') : t.checkMain = [] ↔ t'.checkMain = [] := by
  unfold Symbols.checkMain
  rw [h.funcs]
  split
  · simp
  · split <;> simp

/-- If the table of a program has no errors, that of the same definitions in another order has none, and is
the same. -/
theorem exists_ofProgram_of_perm (hnodup : (p.map (·.name)).Nodup) (hperm : p.Perm q)
    (h : ofProgram p = some (t, [])) : ∃ t', ofProgram q = some (t', []) ∧ t.Same t' := by
  obtain ⟨hrepeated, hall, hmain⟩ := (ofProgram_eq_some hnodup).1 h
  obtain ⟨t', hall', hsame⟩ := exists_same_of_perm hnodup hperm hall
  have hnodup' : (q.map (·.name)).Nodup := (hperm.map _).nodup_iff.1 hnodup
  have hrepeated' : q.flatMap Def.repeated = [] := by
    have hempty := (hperm.flatMap_right Def.repeated).symm
    rw [hrepeated] at hempty
    exact hempty.eq_nil
  exact ⟨t', (ofProgram_eq_some hnodup').2 ⟨hrepeated', hall', hsame.checkMain.1 hmain⟩, hsame⟩

end

end Symbols

end Sigil
