import Sigil.Proofs.Evaluation

/-!
# Complete symbol tables

Definitions are worked out one by one. Each of them adds to what the table keeps and changes nothing else
(`Symbols.step_define`), so what every such step keeps holds of the table of a program
(`Symbols.ofProgram_induction`). If no definition is faulty, the table has the layout of every struct, the value
of every constant and the signature of every function (`Symbols.Complete`), and questions about a finished
table are answered from what it keeps.
-/

namespace Sigil

open Attempt List

/-- Whatever is in the first of two lists that go together has a partner in the second. -/
theorem forall₂_left {α β : Type} {R : α → β → Prop} {as : List α} {bs : List β}
    (h : Forall₂ R as bs) {a : α} (ha : a ∈ as) : ∃ b ∈ bs, R a b := by
  induction h with
  | nil => exact nomatch ha
  | cons hab _ ih =>
    rcases mem_cons.1 ha with rfl | ha
    · exact ⟨_, mem_cons_self, hab⟩
    · obtain ⟨b, hb, h⟩ := ih ha
      exact ⟨b, mem_cons_of_mem _ hb, h⟩

/-- The types of a signature exist. -/
structure Signature.Defined (kind : String → Option SymbolKind) (sig : Signature) : Prop where
  params : ∀ p ∈ sig.params, p.2.Defined kind
  ret : sig.ret.Defined kind

/-- The types of a signature are those that are written, so they exist. -/
theorem Signature.Of.defined {kind : String → Option SymbolKind} {f : Func} {sig : Signature}
    (h : sig.Of kind f) : sig.Defined kind := by
  refine ⟨fun q hq => ?_, h.ret.defined⟩
  obtain ⟨p, -, -, hmeans⟩ := forall₂_left h.params.flip hq
  exact hmeans.defined

/-- What a definition defines. -/
def DefBody.kind : DefBody → SymbolKind
  | .func _ => .func
  | .struct _ => .struct
  | .enum _ => .enum
  | .const _ _ => .const

namespace Symbols

open Eval

variable {t : Symbols} {p : Program} {es : List (Located TypeError)} {x : String}

/-! ## Working out definitions -/

/-- What a table keeps is well formed. -/
structure Sound (t : Symbols) : Prop where
  memo : t.memo.Sound t.kind
  funcs : ∀ {x sig}, t.funcs.get? x = some sig → sig.Defined t.kind

/-- The table knows what a definition stands for: it keeps the layout, the value or the signature. -/
def Knows (t : Symbols) (x : String) : SymbolKind → Prop
  | .struct => t.memo.layouts.has x = true
  | .const => t.memo.constants.has x = true
  | .func => t.funcs.has x = true
  | .enum => True

/-- What working out a definition may do to a table: more is kept, and a signature is entered. If there is no
fault, the table knows then what the definition stands for. -/
structure Step (t : Symbols) (d : Def) (r : Except Fault Unit) (t' : Symbols) : Prop where
  same : t' = { t with memo := t'.memo, funcs := t'.funcs }
  memo : t.memo.Later t.kind t'.memo
  funcs : t'.funcs = t.funcs ∨
    ∃ f sig, d.body = .func f ∧ sig.Of t.kind f ∧ t'.funcs = t.funcs.putNew d.name sig
  sober : ∀ fault, r = .error fault → fault.Sober
  knows : r = .ok () → t'.Knows d.name d.body.kind

/-- A lookup is a step, whichever way it ends, if the table knows the definition whenever there is an answer. -/
theorem Step.of_keeps {α : Type} {x : Eval α} {Q : α → Memo → Prop} {d : Def}
    (hx : x.Keeps t.kind t.memo Q)
    (hknows : ∀ a memo, Q a memo → ({ t with memo } : Symbols).Knows d.name d.body.kind) :
    t.Step d ((x t.memo).1.map fun _ => ()) { t with memo := (x t.memo).2 } := by
  unfold Keeps Ends at hx
  rcases hr : x t.memo with ⟨r, memo⟩
  rw [hr] at hx
  cases r with
  | ok a => exact ⟨rfl, hx.1, Or.inl rfl, fun _ h => (by cases h), fun _ => hknows a memo hx.2⟩
  | error fault =>
    refine ⟨rfl, hx.1, Or.inl rfl, ?_, fun h => by cases h⟩
    rintro _ ⟨⟩
    exact hx.2

/-- Working out one definition is a step of the table, whatever comes of it. -/
theorem step_define (t : Symbols) (d : Def) : t.Step d (t.define d).1 (t.define d).2 := by
  unfold define
  cases hb : d.body with
  | struct fields =>
    refine Step.of_keeps (t.keeps_layout d.name t.memo) fun l memo hl => ?_
    rw [hb]
    exact Option.isSome_iff_exists.2 ⟨l, hl⟩
  | const type value =>
    refine Step.of_keeps (t.keeps_globalConst d.name t.memo) fun g memo hg => ?_
    rw [hb]
    exact Option.isSome_iff_exists.2 ⟨g, hg⟩
  | enum variants =>
    refine ⟨rfl, .refl _, Or.inl rfl, fun _ h => (nomatch h), fun _ => ?_⟩
    rw [hb]
    trivial
  | func f =>
    -- A signature is entered besides what is kept.
    have hk := t.keeps_signature f t.memo
    unfold Keeps Ends at hk
    dsimp only
    rcases hr : signature t.names f t.memo with ⟨r, memo⟩
    rw [hr] at hk
    cases r with
    | ok sig =>
      refine ⟨rfl, hk.1, Or.inr ⟨f, sig, hb, hk.2, rfl⟩, fun _ h => (nomatch h), fun _ => ?_⟩
      rw [hb]
      exact Assoc.has_putNew (Or.inr rfl)
    | error fault =>
      refine ⟨rfl, hk.1, Or.inl rfl, ?_, fun h => nomatch h⟩
      rintro _ ⟨⟩
      exact hk.2

namespace Step

variable {t t' : Symbols} {d : Def} {r : Except Fault Unit}

theorem defs (h : t.Step d r t') : t'.defs = t.defs := by
  rw [h.same]

theorem kind (h : t.Step d r t') : t'.kind = t.kind := by
  rw [h.same]
  rfl

/-- A signature is the new one or an old one. -/
theorem get?_funcs (h : t.Step d r t') {sig : Signature} (hx : t'.funcs.get? x = some sig) :
    (x = d.name ∧ ∃ f, d.body = .func f ∧ sig.Of t.kind f) ∨ t.funcs.get? x = some sig := by
  rcases h.funcs with heq | ⟨f, sig', hf, hsig, heq⟩
  · exact Or.inr (heq ▸ hx)
  · rw [heq] at hx
    rcases Assoc.of_get?_putNew hx with ⟨rfl, rfl⟩ | hx
    · exact Or.inl ⟨rfl, f, hf, hsig⟩
    · exact Or.inr hx

theorem sound (h : t.Step d r t') (ht : t.Sound) : t'.Sound := by
  refine ⟨h.kind ▸ h.memo.sound ht.memo, fun hx => ?_⟩
  rw [h.kind]
  rcases h.get?_funcs hx with ⟨-, f, -, hsig⟩ | hx
  · exact hsig.defined
  · exact ht.funcs hx

/-- Nothing that is known is lost. -/
theorem knows_of_knows (h : t.Step d r t') {k : SymbolKind} (hk : t.Knows x k) : t'.Knows x k := by
  cases k with
  | struct =>
    obtain ⟨l, hl⟩ := Option.isSome_iff_exists.1 hk
    exact Option.isSome_iff_exists.2 ⟨l, h.memo.within .layouts x l hl⟩
  | const =>
    obtain ⟨g, hg⟩ := Option.isSome_iff_exists.1 hk
    exact Option.isSome_iff_exists.2 ⟨g, h.memo.within .constants x g hg⟩
  | func =>
    rcases h.funcs with heq | ⟨_, _, _, _, heq⟩
    · exact show t'.funcs.has x = true from heq ▸ hk
    · exact show t'.funcs.has x = true from heq ▸ Assoc.has_putNew (Or.inl hk)
  | enum => trivial

end Step

section

variable {I : Symbols → Prop} {E : Located TypeError → Prop}

/-- What every step keeps holds in the end, and what every step says of its errors holds of all of them. If
there are none, everything that is defined is known. -/
theorem defineAll_induction {ds : List Def}
    (step : ∀ d ∈ ds, ∀ t r t', I t → t.Step d r t' → I t' ∧ ∀ e, r = .error (.error e) → E ⟨d.pos, e⟩)
    {t' : Symbols} (h : I t) (hr : t.defineAll ds = some (t', es)) :
    I t' ∧ (∀ e ∈ es, E e) ∧ (∀ x k, t.Knows x k → t'.Knows x k) ∧
      (es = [] → ∀ d ∈ ds, t'.Knows d.name d.body.kind) := by
  induction ds generalizing t es with
  | nil =>
    cases hr
    exact ⟨h, forall_mem_nil _, fun _ _ hk => hk, fun _ => forall_mem_nil _⟩
  | cons d ds ih =>
    have hstep := t.step_define d
    obtain ⟨hI, hE⟩ := step d mem_cons_self t _ _ h hstep
    have hrest : ∀ {es}, defineAll (t.define d).2 ds = some (t', es) → _ :=
      ih (fun d hd => step d (mem_cons_of_mem _ hd)) hI
    unfold defineAll at hr
    split at hr
    · next t1 hd =>
      rw [hd] at hstep hrest
      obtain ⟨hI', hes, hknows, hall⟩ := hrest hr
      refine ⟨hI', hes, fun x k hk => hknows x k (hstep.knows_of_knows hk), fun hnil => ?_⟩
      exact forall_mem_cons.2 ⟨hknows _ _ (hstep.knows rfl), hall hnil⟩
    · next e t1 hd =>
      rw [hd] at hstep hrest hE
      obtain ⟨⟨t2, es'⟩, hds, heq⟩ := Option.map_eq_some_iff.1 hr
      cases heq
      obtain ⟨hI', hes, hknows, -⟩ := hrest hds
      exact ⟨hI', forall_mem_cons.2 ⟨hE e rfl, hes⟩,
        fun x k hk => hknows x k (hstep.knows_of_knows hk), fun hnil => nomatch hnil⟩
    · cases hr

/-- The same for the table of a program. -/
theorem ofProgram_induction
    (h : ofProgram p = some (t, es)) (start : I (indexAll empty p).1)
    (step : ∀ d ∈ p, ∀ t r t', I t → t.Step d r t' → I t' ∧ ∀ e, r = .error (.error e) → E ⟨d.pos, e⟩) :
    I t ∧ ∃ es', es = (indexAll empty p).2 ++ es' ++ t.checkMain ∧ (∀ e ∈ es', E e) ∧
      (es' = [] → ∀ d ∈ p, t.Knows d.name d.body.kind) := by
  obtain ⟨⟨t', es'⟩, hall, heq⟩ := Option.map_eq_some_iff.1 h
  cases heq
  obtain ⟨hI, hE, -, hknows⟩ := defineAll_induction step start hall
  exact ⟨hI, es', rfl, hE, hknows⟩

end

/-- Entering a name works nothing out, and only that name stands for something new. -/
theorem index_spec (t : Symbols) (d : Def) :
    (t.index d).1.memo = t.memo ∧ (t.index d).1.funcs = t.funcs ∧
      ((t.index d).1.defs = t.defs ∨
        (t.index d).1.defs = t.defs ++ [(d.name, (d.body.kind, d.pos))]) := by
  unfold index
  split
  · exact ⟨rfl, rfl, Or.inl rfl⟩
  · cases d.body <;> exact ⟨rfl, rfl, Or.inr rfl⟩

/-- Entering names works nothing out, and a name stands for what some definition says. -/
theorem indexAll_spec (t : Symbols) (ds : List Def) :
    (t.indexAll ds).1.memo = t.memo ∧ (t.indexAll ds).1.funcs = t.funcs ∧
      ∀ x k, (t.indexAll ds).1.kind x = some k →
        t.kind x = some k ∨ ∃ d ∈ ds, d.name = x ∧ d.body.kind = k := by
  induction ds generalizing t with
  | nil => exact ⟨rfl, rfl, fun x k h => Or.inl h⟩
  | cons d ds ih =>
    obtain ⟨hmemo, hfuncs, hdefs⟩ := t.index_spec d
    obtain ⟨hm, hf, hk⟩ := ih (t.index d).1
    refine ⟨hm.trans hmemo, hf.trans hfuncs, fun x k h => ?_⟩
    rcases hk x k h with h | ⟨d', hd', h⟩
    · rcases hdefs with hdefs | hdefs
      · rw [kind, hdefs] at h
        exact Or.inl h
      · -- The new entry is the last one, so an old one of that name comes before it.
        rw [kind, hdefs, Assoc.get?_append] at h
        obtain ⟨⟨k', pos⟩, hget, rfl⟩ := Option.map_eq_some_iff.1 h
        rcases Option.or_eq_some_iff.1 hget with hget | ⟨-, hget⟩
        · exact Or.inl (Option.map_eq_some_iff.2 ⟨_, hget, rfl⟩)
        · refine Or.inr ⟨d, mem_cons_self, ?_⟩
          by_cases hx : d.name = x
          · simp only [Assoc.get?, hx, if_true, Option.some.injEq, Prod.mk.injEq] at hget
            exact ⟨hx, hget.1⟩
          · simp [Assoc.get?, hx] at hget
    · exact Or.inr ⟨d', mem_cons_of_mem _ hd', h⟩

/-- A table that is well formed and knows everything that its names stand for. -/
structure Complete (t : Symbols) : Prop extends t.Sound where
  knows : ∀ {x k}, t.kind x = some k → t.Knows x k

/-- Before anything is worked out, nothing that is kept is malformed. -/
theorem sound_indexAll (p : Program) : (indexAll empty p).1.Sound := by
  obtain ⟨hmemo, hfuncs, -⟩ := indexAll_spec empty p
  refine ⟨?_, fun hx => ?_⟩
  · rw [hmemo]
    exact ⟨fun hx => (nomatch hx), fun hx => (nomatch hx)⟩
  · rw [hfuncs] at hx
    exact nomatch hx

/-- The table of a program without errors is complete, and has the signature of every function. -/
theorem complete_of_ofProgram (h : ofProgram p = some (t, [])) :
    t.Complete ∧ ∀ d ∈ p, t.Knows d.name d.body.kind := by
  obtain ⟨⟨hsound, hkind⟩, es', hes, -, hknows⟩ := ofProgram_induction h
    (I := fun t => t.Sound ∧ t.kind = (indexAll empty p).1.kind) (E := fun _ => True)
    ⟨sound_indexAll p, rfl⟩
    fun d _ t r t' ht hstep => ⟨⟨hstep.sound ht.1, hstep.kind.trans ht.2⟩, fun _ _ => trivial⟩
  simp only [nil_eq, append_eq_nil_iff] at hes
  have hknows := hknows hes.1.2
  refine ⟨⟨hsound, fun {x k} hx => ?_⟩, hknows⟩
  rw [hkind] at hx
  rcases (indexAll_spec empty p).2.2 x k hx with hx | ⟨d, hd, rfl, rfl⟩
  · exact nomatch hx
  · exact hknows d hd

/-- Every signature is that of some definition. -/
def Defines (ds : List Def) (t : Symbols) : Prop :=
  ∀ x sig, t.funcs.get? x = some sig →
    ∃ d ∈ ds, ∃ f, d.name = x ∧ d.body = .func f ∧ sig.Of t.kind f

/-- In the table of a program every signature is that of a definition. -/
theorem defines_ofProgram
    (h : ofProgram p = some (t, es)) : Defines p t := by
  refine (ofProgram_induction h (I := Defines p) (E := fun _ => True) ?_ ?_).1
  · intro x sig hx
    rw [(indexAll_spec empty p).2.1] at hx
    exact nomatch hx
  · refine fun d hd t r t' ht hstep => ⟨fun x sig hx => ?_, fun _ _ => trivial⟩
    rw [hstep.kind]
    rcases hstep.get?_funcs hx with ⟨rfl, f, hf, hsig⟩ | hx
    · exact ⟨d, hd, f, rfl, hf, hsig⟩
    · exact ht x sig hx

/-- In the table of a program without errors every signature is that of a definition, and there is an
entry point. -/
theorem defines_of_ofProgram (h : ofProgram p = some (t, [])) :
    Defines p t ∧ t.funcs.has "main" = true := by
  refine ⟨defines_ofProgram h, ?_⟩
  obtain ⟨-, es', hes, -⟩ := ofProgram_induction h (I := fun _ => True) (E := fun _ => True) trivial
    fun _ _ _ _ _ _ _ => ⟨trivial, fun _ _ => trivial⟩
  have hmain : t.checkMain = [] := (append_eq_nil_iff.1 hes.symm).2
  unfold checkMain at hmain
  unfold Assoc.has
  split at hmain
  · exact nomatch hmain
  · next sig hsig =>
    rw [hsig]
    rfl

/-- The layouts of a program are packed. -/
theorem packed_of_ofProgram
    (h : ofProgram p = some (t, es)) : Packed t.memo.layouts := by
  refine (ofProgram_induction h (I := fun t => Packed t.memo.layouts) (E := fun _ => True) ?_
    fun d _ t r t' ht hstep => ⟨hstep.memo.packed ht, fun _ _ => trivial⟩).1
  rw [(indexAll_spec empty p).1]
  exact fun hx => nomatch hx

/-! ## Errors -/

theorem freed?_of_index (t : Symbols) (d : Def) : ∀ e ∈ (t.index d).2, e.cause.freed? = none := by
  unfold index
  split
  · exact forall_mem_singleton.2 rfl
  · dsimp only
    split
    · exact forall_mem_nil _
    · exact forall_mem_nil _
    · exact forall_mem_nil _
    · intro e he
      obtain ⟨v, -, rfl⟩ := mem_map.1 he
      rfl

theorem freed?_of_indexAll (t : Symbols) (ds : List Def) :
    ∀ e ∈ (indexAll t ds).2, e.cause.freed? = none := by
  induction ds generalizing t with
  | nil => exact forall_mem_nil _
  | cons d ds ih => exact forall_mem_append.2 ⟨freed?_of_index t d, ih (t.index d).1⟩

/-- No error in the table of a program is the use of a freed pointer. -/
theorem freed?_of_ofProgram
    (h : ofProgram p = some (t, es)) : ∀ e ∈ es, e.cause.freed? = none := by
  obtain ⟨-, es', rfl, hes, -⟩ := ofProgram_induction h (I := fun _ => True)
    (E := fun e => e.cause.freed? = none) trivial
    fun d _ t r t' _ hstep => ⟨trivial, fun e he => hstep.sober _ he⟩
  refine forall_mem_append.2 ⟨forall_mem_append.2 ⟨freed?_of_indexAll empty p, hes⟩, ?_⟩
  unfold checkMain
  split
  · exact forall_mem_singleton.2 rfl
  · split
    · exact forall_mem_nil _
    · exact forall_mem_singleton.2 rfl

/-! ## Questions to a complete table -/

/-- The layout of a struct is the one that is kept. -/
theorem Complete.layout_apply (h : t.Complete)
    (hx : t.kind x = some .struct) :
    ∃ l, t.layout x t.memo = (.ok l, t.memo) ∧ l.Sound t.kind := by
  obtain ⟨l, hl⟩ := Option.isSome_iff_exists.1 (h.knows hx)
  refine ⟨l, ?_, h.memo.layout hl⟩
  unfold Symbols.layout layoutBy
  rw [bind_of_ok (get_apply t.memo)]
  simp [hl]

theorem Complete.layout {t : Symbols} (h : t.Complete) {x : String} (hx : t.kind x = some .struct) :
    ∃ l, t.ask (t.layout x) = .ok l ∧ l.Sound t.kind := by
  obtain ⟨l, hl, hsound⟩ := h.layout_apply hx
  exact ⟨l, congrArg Prod.fst hl, hsound⟩

/-- The value of a constant is the one that is kept, and fits its type. -/
theorem Complete.globalConst (h : t.Complete)
    (hx : t.kind x = some .const) :
    ∃ g, t.ask (t.globalConst x) = .ok g ∧ g.value.check g.ty = .ok () := by
  obtain ⟨g, hg⟩ := Option.isSome_iff_exists.1 (h.knows hx)
  refine ⟨g, ?_, h.memo.constant hg⟩
  unfold ask Symbols.globalConst constantBy
  rw [bind_of_ok (get_apply t.memo)]
  simp [hg]

/-- The size of a type. -/
def size? (t : Symbols) (ty : Ty) : Option Nat :=
  ty.sizeIn? t.memo.layouts

/-- The layout that is asked for is the one that is kept. -/
theorem Complete.get?_layouts (h : t.Complete) {l : Layout}
    (hx : t.kind x = some .struct) (hl : t.ask (t.layout x) = .ok l) :
    t.memo.layouts.get? x = some l := by
  obtain ⟨l', hl'⟩ := Option.isSome_iff_exists.1 (h.knows hx)
  unfold ask Symbols.layout layoutBy at hl
  rw [bind_of_ok (get_apply t.memo)] at hl
  simp only [hl'] at hl
  cases hl
  exact hl'

/-- The size that is asked for is the one by the layouts that are kept. -/
theorem Complete.sizeOf_eq_ok (h : t.Complete) {ty : Ty} {n : Nat} {s : Memo}
    (hty : ty.Defined t.kind) (hn : t.names.sizeOf ty t.memo = (.ok n, s)) :
    t.size? ty = some n ∧ s = t.memo := by
  induction ty generalizing n s with
  | array length elem ih =>
    rw [Names.sizeOf] at hn
    obtain ⟨size, s1, hsize, hn⟩ := bind_eq_ok.1 hn
    obtain ⟨helem, rfl⟩ := ih hty hsize
    split at hn
    · next hle =>
      cases hn
      exact ⟨Ty.sizeIn?_array.2 ⟨size, helem, rfl, hle⟩, rfl⟩
    · cases hn
  | struct x =>
    rw [Names.sizeOf] at hn
    obtain ⟨l, s1, hl, hn⟩ := bind_eq_ok.1 hn
    obtain ⟨l', hl', -⟩ := h.layout_apply hty
    obtain ⟨hok, rfl⟩ := Prod.mk.inj (hl.symm.trans hl')
    cases hok
    cases hn
    refine ⟨Option.map_eq_some_iff.2 ⟨l, h.get?_layouts hty (congrArg Prod.fst hl'), rfl⟩, rfl⟩
  | _ =>
    cases hn
    exact ⟨rfl, rfl⟩

end Symbols

end Sigil
