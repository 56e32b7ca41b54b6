import Sigil.Proofs.Emission.Statements
import Sigil.Proofs.Lowering.Program

/-!
# The code of programs in pieces

In the assembly of an accepted program there is code for every function that the program can call, under
distinct names (`Compile.built_of_generate`). The code of a function is made of a piece between a
prologue and an epilogue, and the pool of the program has everything that the piece refers to.
-/

namespace Sigil

open List

open Machine (Block Label Line)

/-! ## Bindings -/

namespace Assoc

variable {β : Type} {key : String} {value : β} {m : Assoc β}

theorem mem_keys_put {k : String} :
    k ∈ (put key value m).map Prod.fst ↔ k = key ∨ k ∈ m.map Prod.fst := by
  induction m with
  | nil => simp [put]
  | cons kv rest ih =>
    obtain ⟨k', v⟩ := kv
    rw [put]
    split
    · next hk => simp [hk]
    · simp only [map_cons, mem_cons, ih]
      tauto

/-- A key is bound at most once. -/
theorem nodup_put (h : (m.map Prod.fst).Nodup) : ((put key value m).map Prod.fst).Nodup := by
  induction m with
  | nil => simp [put]
  | cons kv rest ih =>
    obtain ⟨k, v⟩ := kv
    rw [map_cons, nodup_cons] at h
    rw [put]
    split
    · rw [map_cons, nodup_cons]
      exact h
    · next hk =>
      rw [map_cons, nodup_cons, mem_keys_put]
      exact ⟨fun hmem => hmem.elim hk h.1, ih h.2⟩

end Assoc

/-! ## Pools -/

/-- What functions share only grows: texts keep their places, and routines are added. -/
structure Pool.Grows (p p' : Pool) : Prop where
  strings : p.strings <+: p'.strings
  routines : p.routines ⊆ p'.routines

namespace Pool

theorem Grows.refl (p : Pool) : p.Grows p :=
  ⟨prefix_refl _, List.Subset.refl _⟩

theorem Grows.trans {p p' p'' : Pool} (h : p.Grows p') (h' : p'.Grows p'') : p.Grows p'' :=
  ⟨h.strings.trans h'.strings, List.Subset.trans h.routines h'.routines⟩

theorem grows_string (p : Pool) (s : String) : p.Grows (p.string s).2 := by
  unfold string
  split
  · exact .refl p
  · exact ⟨prefix_append _ _, List.Subset.refl _⟩

theorem grows_use (p : Pool) (r : Routine) : p.Grows (p.use r) := by
  unfold use
  split
  · exact .refl p
  · exact ⟨prefix_refl _, subset_append_left _ _⟩

end Pool

/-- The parameters of a function with the sizes of their types. -/
def Symbols.sized (t : Symbols) (params : List (String × Ty)) : List (String × Ty × Nat) :=
  params.map fun p => (p.1, p.2, (t.size? p.2).getD 0)

/-- The frame with which the code of a function starts: its arguments. -/
def Symbols.startFrame (t : Symbols) (sig : Signature) : Frame :=
  .ofArgs (t.sized sig.params) sig.ret.isAggregate

namespace Code

variable {t : Symbols} {x : String} {sig : Signature} {fc : FunctionCode}

theorem tracks_pool : Emission.Tracks fun s s' => s.pool.Grows s'.pool where
  refl s := .refl s.pool
  trans h h' := h.trans h'
  number s _ := .refl s.pool
  text s t := s.pool.grows_string t
  routine s r := s.pool.grows_use r
  temp s _ := .refl s.pool
  bind s _ _ _ _ _ := .refl s.pool
  enter s := .refl s.pool
  leave s := .refl s.pool

theorem tracks_named : Emission.Tracks fun s s' => s.frame.named <+: s'.frame.named where
  refl _ := prefix_refl _
  trans h h' := h.trans h'
  number _ _ := prefix_refl _
  text _ _ := prefix_refl _
  routine _ _ := prefix_refl _
  temp _ _ := prefix_refl _
  bind _ _ _ _ _ _ := prefix_append _ _
  enter _ := prefix_refl _
  leave _ := prefix_refl _

/-! ## Functions -/

/-- Arguments of known types are measured, and nothing else happens. -/
theorem of_sizedArgs {site : Site} (hsite : site.Sound) {pos : Position}
    {params : List (String × Ty)} (hdef : ∀ p ∈ params, p.2.Defined site.symbols.kind)
    {s s' : Emission} {args : List (String × Ty × Nat)}
    (h : sizedArgs site pos params s = (.ok args, s')) :
    args = site.symbols.sized params ∧ s' = s := by
  induction params generalizing args with
  | nil =>
    cases h
    exact ⟨rfl, rfl⟩
  | cons p params ih =>
    obtain ⟨x, t⟩ := p
    obtain ⟨n, hn, h1⟩ := hsite.of_sizeOf (hdef (x, t) mem_cons_self) h
    obtain ⟨rest, s1, hrest, h2⟩ := Attempt.bind_eq_ok.1 h1
    cases h2
    obtain ⟨rfl, rfl⟩ := ih (fun p hp => hdef p (mem_cons_of_mem _ hp)) hrest
    exact ⟨by simp [Symbols.sized, hn], rfl⟩

/-- The code of the function `x` is made of a piece that needs nothing but what is in the pool. -/
def Built (t : Symbols) (x : String) (sig : Signature) (fc : FunctionCode) (pool : Pool) : Prop :=
  ∃ (start s' : Emission) (body : Block),
    start.frame = t.startFrame sig ∧ start.labels = 0 ∧
    Piece ⟨t, x, sig.ret⟩ [(Site.mk t x sig.ret).returnLabel] start body 0 s' ∧
    s'.pool.Grows pool ∧ fc.frame = s'.frame.size ∧ fc.slots = s'.frame.named ∧
    fc.code = [.label (functionLabel x)] ++ prologue fc.frame ++ body ++
      [Line.const 0 .rax, .label (Site.mk t x sig.ret).returnLabel] ++ epilogue

theorem Built.mono {p p' : Pool}
    (h : Built t x sig fc p) (hp : p.Grows p') : Built t x sig fc p' := by
  obtain ⟨start, s', body, hframe, hlabels, hpiece, hpool, hrest⟩ := h
  exact ⟨start, s', body, hframe, hlabels, hpiece, hpool.trans hp, hrest⟩

/-- The code of a function is a prologue, a piece for its body and an epilogue. -/
theorem built_function (hT : t.Complete) (hpacked : Packed t.memo.layouts)
    (hsig : sig.Defined t.kind) {body : List Stmt} {Γ : Typing.Env}
    (hbody : Stmt.AllTyped t sig.ret false Γ body) {pos : Position} {s s' : Emission}
    (h : function ⟨t, x, sig.ret⟩ pos sig body s = (.ok fc, s')) :
    Built t x sig fc s'.pool ∧ s.pool.Grows s'.pool := by
  have hsite : (Site.mk t x sig.ret).Sound := ⟨hT, hpacked⟩
  obtain ⟨args, s1, hargs, h1⟩ := Attempt.bind_eq_ok.1 h
  obtain ⟨rfl, rfl⟩ := of_sizedArgs hsite hsig.params hargs
  obtain ⟨_, s2, hmodify, h2⟩ := Attempt.bind_eq_ok.1 h1
  cases hmodify
  obtain ⟨code, s3, hcode, h3⟩ := Attempt.bind_eq_ok.1 h2
  cases h3
  have hleads : Leads (Site.mk t x sig.ret) none [(Site.mk t x sig.ret).returnLabel] :=
    ⟨mem_singleton_self _, fun _ hx => nomatch hx⟩
  have hmakes := makes_enclosed (makes_stmts hsite hsig.ret body hleads hbody)
  have hbounded : (t.startFrame sig).Bounded :=
    ⟨show Frame.minOffset ≤ 0 by decide, Int.le_refl 0⟩
  have hpiece := hmakes (s := { s1 with frame := t.startFrame sig, labels := 0 }) hbounded hcode
  exact ⟨⟨_, s', code, rfl, rfl, hpiece, .refl _, rfl, rfl, rfl⟩, hpiece.tracks tracks_pool⟩

/-- Every function that has code so far is built, under a name of its own. -/
structure AllBuilt (t : Symbols) (funcs : Assoc FunctionCode) (pool : Pool) : Prop where
  nodup : (funcs.map Prod.fst).Nodup
  built : ∀ p ∈ funcs, ∃ sig, t.funcs.get? p.1 = some sig ∧ Built t p.1 sig p.2 pool

/-- By induction on the definitions, of which each adds one function. -/
theorem allBuilt_functions (hT : t.Complete) (hpacked : Packed t.memo.layouts)
    {p : Program}
    (hp : ∀ d ∈ p, ∀ f, d.body = .func f → ∃ sig, t.funcs.get? d.name = some sig ∧
      Stmt.AllTyped t sig.ret false (Typing.Env.ofParams sig.params) f.body)
    {done funcs : Assoc FunctionCode} {s s' : Emission} (hdone : AllBuilt t done s.pool)
    (h : functions t p done s = (.ok funcs, s')) :
    AllBuilt t funcs s'.pool ∧ (∀ x ∈ done.map Prod.fst, x ∈ funcs.map Prod.fst) ∧
      ∀ d ∈ p, ∀ f, d.body = .func f → d.name ∈ funcs.map Prod.fst := by
  induction p generalizing done s with
  | nil =>
    cases h
    exact ⟨hdone, fun _ hx => hx, fun _ hd => nomatch hd⟩
  | cons d ds ih =>
    have hp' := fun d hd => hp d (mem_cons_of_mem _ hd)
    rw [functions] at h
    cases hd : d.body with
    | func f =>
      obtain ⟨sig, hsig, hbody⟩ := hp d mem_cons_self f hd
      rw [hd, hsig] at h
      obtain ⟨fc, s1, hfc, h1⟩ := Attempt.bind_eq_ok.1 h
      obtain ⟨hbuilt, hpool⟩ := built_function hT hpacked (hT.funcs hsig) hbody hfc
      -- The new code goes in beside the older ones, which a larger pool keeps built.
      have hput : AllBuilt t (done.put d.name fc) s1.pool := by
        refine ⟨Assoc.nodup_put hdone.nodup, fun q hq => ?_⟩
        rcases Assoc.mem_put hq with rfl | hq
        · exact ⟨sig, hsig, hbuilt⟩
        · obtain ⟨sig', hsig', hold⟩ := hdone.built q hq
          exact ⟨sig', hsig', hold.mono hpool⟩
      obtain ⟨hall, hkeys, hnames⟩ := ih hp' hput h1
      refine ⟨hall, fun x hx => hkeys x (Assoc.mem_keys_put.2 (Or.inr hx)), fun d' hd' f' hf' => ?_⟩
      rcases mem_cons.1 hd' with rfl | hd'
      · exact hkeys _ (Assoc.mem_keys_put.2 (Or.inl rfl))
      · exact hnames d' hd' f' hf'
    | struct | const | enum =>
      rw [hd] at h
      obtain ⟨hall, hkeys, hnames⟩ := ih hp' hdone h
      refine ⟨hall, hkeys, fun d' hd' f' hf' => ?_⟩
      rcases mem_cons.1 hd' with rfl | hd'
      · rw [hd] at hf'
        cases hf'
      · exact hnames d' hd' f' hf'

end Code

/-! ## Accepted programs -/

theorem Fold.definition_keeps (d : Def) :
    (definition d).result.name = d.name ∧ (definition d).result.body.kind = d.body.kind := by
  unfold definition
  split
  · next f hf => exact ⟨rfl, by rw [hf]; rfl⟩
  · exact ⟨rfl, rfl⟩

namespace Compile

variable {front : Frontend}

/-- The table of an accepted program has been built without errors. -/
theorem ofProgram_of_check {p : Program} {c : Checked} (h : check p = .ok c) :
    Symbols.ofProgram p = some (c.symbols, []) :=
  (Program.typed_eq_some.1 (typed_of_check h)).1

/-- The layouts of an accepted program are packed. -/
theorem packed_of_frontend {code : String} (h : frontend code = .ok front) :
    Packed front.symbols.memo.layouts := by
  obtain ⟨p, c, -, hc, hsymbols, -⟩ := of_frontend h
  rw [hsymbols]
  exact Symbols.packed_of_ofProgram (ofProgram_of_check hc)

/-- Every function of the table is defined in the program. -/
theorem exists_func_of_frontend {code : String} (h : frontend code = .ok front)
    {x : String} (hx : front.symbols.funcs.has x = true) :
    ∃ d ∈ front.program, ∃ f, d.name = x ∧ d.body = .func f := by
  obtain ⟨p, c, -, hc, hsymbols, hprogram⟩ := of_frontend h
  obtain ⟨sig, hsig⟩ := Option.isSome_iff_exists.1 hx
  rw [hsymbols] at hsig
  obtain ⟨d, hd, f, rfl, hbody, -⟩ := (Symbols.defines_of_ofProgram (ofProgram_of_check hc)).1 x sig hsig
  obtain ⟨d1, hd1, hdef⟩ := forall₂_left (of_check hc).2.2 hd
  obtain ⟨hname1, hkind1⟩ := Check.definition_keeps hdef
  obtain ⟨hname2, hkind2⟩ := Fold.definition_keeps d1
  rw [hprogram, Fold.result_definitions]
  refine ⟨_, mem_map_of_mem hd1, ?_⟩
  have hkind : (Fold.definition d1).result.body.kind = .func := by
    rw [hkind2, hkind1, hbody]
    rfl
  cases hb : (Fold.definition d1).result.body with
  | func g => exact ⟨g, hname2.trans hname1, rfl⟩
  | struct | const | enum =>
    rw [hb] at hkind
    cases hkind

/-- The assembly of an accepted program has code for every function of the table. -/
theorem built_of_generate {code : String} {a : Assembly}
    (h : frontend code = .ok front) (ha : generate front = .ok a) :
    Code.AllBuilt front.symbols a.funcs a.pool ∧
      ∀ x, front.symbols.funcs.has x = true → x ∈ a.funcs.map Prod.fst := by
  obtain ⟨hT, htyped⟩ := wellTyped_of_frontend h
  unfold generate Assembly.ofProgram at ha
  rcases hr : Code.functions front.symbols front.program [] ⟨.ofArgs [] false, 0, .empty⟩ with ⟨r, s⟩
  rw [hr] at ha
  cases r with
  | error e => cases ha
  | ok funcs =>
    cases ha
    have hstart : Code.AllBuilt front.symbols [] Pool.empty := ⟨nodup_nil, fun _ hp => nomatch hp⟩
    obtain ⟨hall, -, hnames⟩ :=
      Code.allBuilt_functions hT (packed_of_frontend h) htyped hstart hr
    refine ⟨hall, fun x hx => ?_⟩
    obtain ⟨d, hd, f, rfl, hf⟩ := exists_func_of_frontend h hx
    exact hnames d hd f hf

end Compile

end Sigil
