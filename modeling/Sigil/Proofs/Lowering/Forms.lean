import Sigil.Check.Conversion
import Sigil.Code.Statement
import Sigil.Proofs.Machine.Lines
import Sigil.Proofs.Outcome
import Sigil.Proofs.Typing.Nodes

/-!
# Forms of expressions

There are a few ways in which the code of an expression is put together from that of its parts. A property of
code that each of them keeps (`CodeLaws`) holds of all code that is generated for an expression
(`CodeLaws.gives_lower`), and for the simple statements made of expressions.

How much is known of the expression is left open (`Ground`): whether it is well typed, whether there is room
where it is built, and which errors may stop its generation. What would stop the generation of a form is listed
once (`Stuck`).
-/

namespace Sigil

open Attempt List

open Machine (Block Condition Instruction Label Line Operand Register)

/-- A quiet line with the slot at the offset `d` as an operand, which can be encoded if the offset can. -/
structure Machine.Line.Touches (l : Line) (d : Int) : Prop extends l.Quiet where
  mem : Code.slot d ∈ l.operands
  encodable : Machine.Fits32 d → l.Encodable

namespace Code

variable {r : Register}

/-! ## Plain blocks -/

theorem plain_const (n : Int) (h : (r != .rsp && r != .rbp) = true) :
    (Line.const n r).Plain :=
  ⟨⟨rfl, rfl, h⟩, Or.inl rfl⟩

theorem plain_copyBytes (size : Nat) : ∀ l ∈ copyBytes size, l.Plain := by
  intro l hl
  rcases mem_cons.1 hl with rfl | hl
  · exact plain_const size rfl
  · rw [mem_singleton.1 hl]
    decide

theorem plain_load (t : Ty) : ∀ l ∈ load t, l.Plain := by
  unfold load
  cases widthOf t <;> cases t.isSigned <;> decide

theorem plain_store (t : Ty) : ∀ l ∈ store t, l.Plain := by
  unfold store storeTo
  cases widthOf t <;> decide

theorem plain_normalize (t : Ty) : ∀ l ∈ normalize t, l.Plain := by
  unfold normalize
  cases resultWidth t <;> cases t.isSigned <;> decide

theorem plain_operate (signed : Bool) (op : BinOp) : ∀ l ∈ operate signed op, l.Plain := by
  cases op <;> cases signed <;> decide

/-- What a routine that writes needs besides the value is plain. -/
theorem plain_writer (t : Ty) : ∀ l ∈ (writer t).2, l.Plain := by
  cases t with
  | array length elem =>
    intro l hl
    rw [mem_singleton.1 hl]
    exact plain_const length rfl
  | int bits signed => cases signed <;> exact fun _ hl => nomatch hl
  | _ => exact fun _ hl => nomatch hl

/-! ## Lines with a slot -/

theorem touches_lea (d : Int) (h : (r != .rsp && r != .rbp) = true) :
    (Line.lea (slot d) r).Touches d :=
  ⟨⟨rfl, rfl, h⟩, mem_cons_self,
    fun hd => Or.inr (by simp [Instruction.parts, slot, Operand.Encodable, hd])⟩

theorem touches_mov (d : Int) (h : (r != .rsp && r != .rbp) = true) :
    (Line.mov (slot d) r).Touches d :=
  ⟨⟨rfl, rfl, h⟩, mem_cons_self,
    fun hd => Or.inr (by simp [Instruction.parts, slot, Operand.Encodable, hd])⟩

theorem touches_storeTo (w : Machine.Width) (d : Int) :
    (Line.instr (.mov w (.reg .rax) (slot d))).Touches d :=
  ⟨⟨rfl, rfl, rfl⟩, mem_cons_of_mem _ mem_cons_self,
    fun hd => Or.inr (by simp [Instruction.parts, slot, Operand.Encodable, hd])⟩

/-! ## Lists of parts -/

theorem lowerAll_eq (site : Site) (es : List Expr) : lowerAll site es = es.map (lower site) := by
  induction es with
  | nil => rfl
  | cons e es ih => simp [lowerAll, ih]

theorem lowerFields_eq (site : Site) (es : List (String × Expr)) :
    lowerFields site es = es.map fun p => (p.1, lower site p.2) := by
  induction es with
  | nil => rfl
  | cons p es ih =>
    obtain ⟨x, e⟩ := p
    simp [lowerFields, ih]

/-! ## What is known -/

/-- The label with the given number. -/
def Site.numbered (site : Site) (what : String) (k : Nat) : Label :=
  ".L" ++ site.name ++ "_" ++ what ++ toString k

/-- The state after some labels have been taken. -/
def Emission.number (s : Emission) (k : Nat) : Emission :=
  { s with labels := s.labels + k }

/-- The size of a type is found. -/
abbrev Site.HasSize (site : Site) (t : Ty) (n : Nat) : Prop :=
  site.symbols.settled (site.symbols.names.sizeOf t) = .ok n

/-- The layout of a struct is found. -/
abbrev Site.HasLayout (site : Site) (x : String) (l : Layout) : Prop :=
  site.symbols.settled (site.symbols.layout x) = .ok l

/-- What is known where code is generated. -/
structure Ground where
  expr : Expr → Prop
  type : Ty → Prop
  /-- The expression can be written into a slot for the type. -/
  fits : Ty → Expr → Prop
  /-- There is room for the type at an offset. -/
  room : Emission → Int → Ty → Prop
  state : Emission → Prop
  /-- The error may stop the generation. -/
  fault : Error → Emission → Prop

/-- Whatever goes wrong, it may. -/
def Ground.Lenient (G : Ground) : Prop :=
  ∀ e s, G.fault e s

/-- In this state there is no code for the expression. -/
inductive Stuck (site : Site) (s : Emission) : Expr → Prop where
  | untyped {e : Expr} (h : e.ty = none) : Stuck site s e
  | name {m : Mark} {x : String} (h : s.frame.get? x = none) : Stuck site s (.ident m x)
  | member {m : Mark} {e : Expr} {x : String} {t : Ty} (ht : e.ty = some t)
    (h : ∀ y l f, t = .struct y → site.HasLayout y l → l.field? x ≠ some f) : Stuck site s (.member m e x)
  | structLit {m : Mark} {given : List (String × Expr)} {t : Ty} (ht : m.ty = some t)
    (h : ∀ y l, t = .struct y → site.HasLayout y l → ∃ g ∈ given, l.field? g.1 = none) :
    Stuck site s (.structLit m given)
  | arrayLit {m : Mark} {es : List Expr} {t : Ty} (ht : m.ty = some t) (h : ∀ n u, t ≠ .array n u) :
    Stuck site s (.arrayLit m es)
  | sizeof {m : Mark} {type : TypeExpr} : Stuck site s (.sizeof m type)

section

variable {α : Type} {s : Emission} {Q : α → Emission → Prop} {E : Error → Emission → Prop}
variable {site : Site} {k : Label → Emit α}

theorem ends_temp {size : Nat} {k : Int → Emit α}
    (h : (k (s.frame.temp size).1).Ends { s with frame := (s.frame.temp size).2 } Q E) :
    (temp size >>= k).Ends s Q E :=
  h

theorem ends_routine {r : Routine}
    (h : (k r.label).Ends { s with pool := s.pool.use r } Q E) : (routine r >>= k).Ends s Q E :=
  h

theorem ends_label {what : String}
    (h : (k (site.numbered what (s.labels + 1))).Ends (s.number 1) Q E) : (site.label what >>= k).Ends s Q E :=
  h

theorem ends_resolved {ty : Option Ty} {k : Ty → Emit α} (hnone : ty = none → ∀ e, E e s)
    (hk : ∀ t, ty = some t → (k t).Ends s Q E) : (typed ty >>= k).Ends s Q E := by
  cases ty with
  | none => exact ends_bind (ends_throw (hnone rfl _))
  | some t => exact hk t rfl

/-- A layout is there, or asking for it is the fault. -/
theorem ends_layout {x : String} {k : Layout → Emit α} (pos : Position)
    (hk : ∀ l, site.HasLayout x l → (k l).Ends s Q E) (hnone : (∀ l, ¬ site.HasLayout x l) → ∀ e, E e s) :
    (site.layout pos x >>= k).Ends s Q E := by
  unfold Site.layout
  cases hlayout : site.symbols.settled (site.symbols.layout x) with
  | ok l => exact hk l hlayout
  | error e =>
    refine ends_bind (ends_throw (hnone (fun l hl => ?_) _))
    cases hlayout.symm.trans hl

end

/-- Code is generated that has the property. -/
def Gives (G : Ground) (P : Emission → Block → Emission → Prop) (x : Emit Block) : Prop :=
  ∀ s, G.state s → x.Ends s (P s) G.fault

theorem Gives.of_ok {G : Ground} {P : Emission → Block → Emission → Prop} {x : Emit Block} (h : Gives G P x)
    {s s' : Emission} {c : Block} (hs : G.state s) (hx : x s = (.ok c, s')) : P s c s' :=
  (h s hs).of_ok hx

/-- Code with the property is generated for an expression wherever it can stand. -/
structure Lowered.Gives (G : Ground) (P : Emission → Block → Emission → Prop) (e : Expr) (l : Lowered) :
    Prop where
  ty : l.ty = e.ty
  value : Code.Gives G P l.value
  address : e.isPlace = true ∨ G.Lenient → Code.Gives G P l.address
  build : ∀ {t d s}, G.type t → G.fits t e → G.state s → G.room s d t → (l.build t d).Ends s (P s) G.fault

/-- A property of code that is kept where the code of an expression is put together. -/
structure CodeLaws (site : Site) (G : Ground) (P : Emission → Block → Emission → Prop) : Prop where
  child : ∀ {e c}, G.expr e → c ∈ e.children → G.expr c
  typed : ∀ {e t}, G.expr e → e.ty = some t → G.type t ∧ G.fits t e
  aggregate : ∀ {e t}, G.fits t e → t.isAggregate = true → e.ty = some t ∨ G.Lenient
  word : G.type (.int 64 false)
  field : ∀ {m given y l}, G.expr (.structLit m given) → G.fits (.struct y) (.structLit m given) →
    site.HasLayout y l → ∀ g ∈ given, ∀ f, l.field? g.1 = some f → G.type f.ty ∧ G.fits f.ty g.2 ∧
      ∀ s d, G.room s d (.struct y) → G.room s (d + f.offset) f.ty
  elem : ∀ {m es k u}, G.expr (.arrayLit m es) → G.fits (.array k u) (.arrayLit m es) → G.type u ∧
    (∀ e ∈ es, G.fits u e) ∧ ∀ s d n i, site.HasSize u n → i < es.length → G.room s d (.array k u) →
      G.room s (d + (i * n : Nat)) u
  stuck : ∀ {e s}, G.expr e → G.state s → Stuck site s e → G.Lenient
  place : ∀ {m e}, G.expr (.addrOf m e) → e.isPlace = true ∨ G.Lenient
  large : ∀ {s t e} pos, G.state s → G.type t →
    site.symbols.settled (site.symbols.names.sizeOf t) = .error e → G.fault (.type ⟨pos, e⟩) s
  keeps : ∀ {s c s'}, P s c s' → G.state s → G.state s'
  later : ∀ {s c s' d t}, P s c s' → G.state s → G.room s d t → G.room s' d t
  taken : ∀ {s t n}, G.state s → G.type t → site.HasSize t n →
    G.room { s with frame := (s.frame.temp n).2 } (s.frame.temp n).1 t
  plain : ∀ {s c}, (∀ l ∈ c, l.Plain) → P s c s
  slot : ∀ {s d t l}, G.room s d t → l.Touches d → P s [l] s
  name : ∀ {s : Emission} {x v}, s.frame.get? x = some v → P s [.lea (Code.slot v.offset) .rax] s
  offset : ∀ {s y l f}, G.type (.struct y) → site.HasLayout y l → f ∈ l.fields → P s [.add (.imm f.offset) .rax] s
  append : ∀ {s s1 s' c c'}, P s c s1 → P s1 c' s' → P s (c ++ c') s'
  temp : ∀ (s : Emission) size, P s [] { s with frame := (s.frame.temp size).2 }
  text : ∀ (s : Emission) t, P s [.lea (.label (s.pool.string t).1) .rax] { s with pool := (s.pool.string t).2 }
  routine : ∀ (s : Emission) r, P s [.call r.label] { s with pool := s.pool.use r }
  number : ∀ {s}, G.state s → G.state (s.number 1)
  logic : ∀ {s s1 s' l r} skip, P (s.number 1) l s1 → P s1 r s' →
    P s (l ++ [Line.test .rax, .jumpIf skip (site.numbered "logic" (s.labels + 1))] ++ r ++
      [Line.label (site.numbered "logic" (s.labels + 1))]) s'
  kept : ∀ {s s' c r}, r ≠ .rsp → P s c s' → P s ([.push .rax] ++ c ++ [Line.pop r]) s'
  call : ∀ {m callee args}, G.expr (.call m callee args) → (∀ a ∈ args, (lower site a).Gives G P a) →
    Gives G P (lower site (.call m callee args)).value
  service : ∀ {m b args}, G.expr (.builtin m b args) → b ≠ .output → b ≠ .outputln →
    (∀ a ∈ args, (lower site a).Gives G P a) → ∀ r, Gives G P (routineCall r (args.map (lower site)))

namespace CodeLaws

variable {site : Site} {G : Ground} {P : Emission → Block → Emission → Prop} (hP : CodeLaws site G P)
  {α : Type} {s s' : Emission} {Q : α → Emission → Prop}
variable {e : Expr} {t : Ty} {d : Int} {m : Mark} {c : Block} {x : Emit Block} {args es : List Expr}
  {l : Lowered} {given : List (String × Expr)}

include hP

/-! ## Steps -/

/-- A block is generated, and then the rest. -/
theorem step {k : Block → Emit α} (hx : Gives G P x) (hs : G.state s)
    (hk : ∀ c s', P s c s' → G.state s' → (k c).Ends s' Q G.fault) : (x >>= k).Ends s Q G.fault :=
  ends_bind ((hx s hs).mono (fun c s' hc => hk c s' hc (hP.keeps hc hs)) fun _ _ he => he)

theorem refused (he : G.expr e) (hs : G.state s) (h : Stuck site s e) (err : CodeError) :
    (refuse err : Emit α).Ends s Q G.fault :=
  ends_throw (hP.stuck he hs h _ _)

theorem ends_typed {k : Ty → Emit α} (he : G.expr e) (hs : G.state s)
    (hk : ∀ t, e.ty = some t → (k t).Ends s Q G.fault) : (Code.typed e.ty >>= k).Ends s Q G.fault :=
  ends_resolved (fun hty err => hP.stuck he hs (.untyped hty) err s) hk

theorem ends_sizeOf {k : Nat → Emit α} (ht : G.type t) (hs : G.state s) (pos : Position)
    (hk : ∀ n, site.HasSize t n → (k n).Ends s Q G.fault) : (site.sizeOf pos t >>= k).Ends s Q G.fault := by
  unfold Site.sizeOf
  cases hn : site.symbols.settled (site.symbols.names.sizeOf t) with
  | ok n => exact hk n hn
  | error e => exact ends_bind (ends_throw (hP.large pos hs ht hn))

theorem then_plain {c' : Block} (h : P s c s') (hc' : ∀ l ∈ c', l.Plain) : P s (c ++ c') s' :=
  hP.append h (hP.plain hc')

/-- A line with a slot behind what has been generated. -/
theorem then_slot (h : P s c s') (hs : G.state s) (hroom : G.room s d t)
    {l : Line} (hl : l.Touches d) : P s (c ++ [l]) s' :=
  hP.append h (hP.slot (hP.later h hs hroom) hl)

/-- A value is kept on the stack while another one is found, and taken back behind plain lines. -/
theorem keeping {s1 : Emission} {a b : Block} (h : P s a s1) (hc : P s1 c s') (hb : ∀ l ∈ b, l.Plain)
    (hr : r ≠ .rsp) : P s (a ++ [Line.push .rax] ++ c ++ b ++ [Line.pop r]) s' := by
  have hkept := hP.append h (hP.kept hr (hP.then_plain hc hb))
  simpa using hkept

theorem gives_plain (hc : ∀ l ∈ c, l.Plain) : Gives G P (pure c) :=
  fun _ _ => ends_pure (hP.plain hc)

theorem gives_then_plain (hx : Gives G P x) (hc : ∀ l ∈ c, l.Plain) :
    Gives G P (do return (← x) ++ c) :=
  fun _ hs => hP.step hx hs fun _ _ hb _ => ends_pure (hP.then_plain hb hc)

/-! ## Ways of evaluating an expression -/

/-- The value of an aggregate is where it lies, and its bytes are copied from there. -/
theorem ends_copyInto {value : Emit Block} (hvalue : Gives G P value) (pos : Position)
    (ht : G.type t) (hs : G.state s) (hroom : G.room s d t) :
    (copyInto site pos value t d).Ends s (P s) G.fault := by
  refine hP.ends_sizeOf ht hs pos fun n _ => hP.step hvalue hs fun c s1 hc _ => ends_pure ?_
  have hcopy : ∀ l ∈ [Line.copy .rax .rsi], l.Plain := by decide
  have hlea := hP.then_slot (hP.then_plain hc hcopy) hs hroom (touches_lea d (r := .rdi) rfl)
  have hdone := hP.then_plain hlea (plain_copyBytes n)
  simpa using hdone

/-- Of what is no place only an aggregate has an address, which is its value. -/
theorem gives_addressOfValue {value : Emit Block} (he : G.expr e) (hvalue : Gives G P value)
    (h : e.isPlace = true ∨ G.Lenient) (hplace : e.isPlace = false) :
    Gives G P (addressOfValue e.mark value) := by
  obtain h | h := h
  · rw [hplace] at h
    cases h
  · refine fun s hs => hP.ends_typed he hs fun t _ => ?_
    split
    · exact hvalue s hs
    · exact ends_throw (h _ _)

theorem gives_computed {compute : Ty → Emit Block} (he : G.expr e) (hplace : e.isPlace = false)
    (h : ∀ t, e.ty = some t → Gives G P (compute t)) : (computed site e.mark compute).Gives G P e := by
  have hvalue : Gives G P (computed site e.mark compute).value := fun s hs =>
    hP.ends_typed he hs fun t ht => h t ht s hs
  exact ⟨rfl, hvalue, fun hlenient => hP.gives_addressOfValue he hvalue hlenient hplace,
    fun ht _ => hP.ends_copyInto hvalue _ ht⟩

/-- What has an address is read through it, or is the address itself if it is an aggregate. -/
theorem gives_placed {address : Emit Block} (he : G.expr e) (h : Gives G P address) :
    (placed site e.mark address).Gives G P e := by
  have hvalue : Gives G P (placed site e.mark address).value := by
    refine fun s hs => hP.ends_typed he hs fun t _ => hP.step h hs fun c s1 hc _ => ends_pure ?_
    split
    · exact hc
    · exact hP.then_plain hc (plain_load t)
  exact ⟨rfl, hvalue, fun _ => h, fun ht _ => hP.ends_copyInto hvalue _ ht⟩

/-- An aggregate is built in its place, and everything else is computed and stored. -/
theorem ends_initialise (hl : l.Gives G P e) (ht : G.type t)
    (hfits : G.fits t e) (hs : G.state s) (hroom : G.room s d t) :
    (l.initialise t d).Ends s (P s) G.fault := by
  unfold Lowered.initialise
  split
  · exact hl.build ht hfits hs hroom
  · refine hP.step hl.value hs fun c s1 hc _ => ends_pure ?_
    exact hP.then_slot hc hs hroom (touches_storeTo (widthOf t) d)

/-- A literal is laid out where there is room for it. What has no layout for its own type is stuck. -/
theorem gives_literal {layOut : Ty → Int → Option (Emit Block)} (he : G.expr e)
    (hplace : e.isPlace = false)
    (hnone : ∀ t, e.ty = some t → ∀ d, layOut t d = none → ∀ s, Stuck site s e)
    (h : ∀ t d x, layOut t d = some x → G.type t → G.fits t e → ∀ s, G.state s → G.room s d t →
      x.Ends s (P s) G.fault) : (literal site e.mark layOut).Gives G P e := by
  have hvalue : Gives G P (literal site e.mark layOut).value := by
    refine fun s hs => hP.ends_typed he hs fun t hty => ?_
    obtain ⟨ht, hfits⟩ := hP.typed he hty
    refine hP.ends_sizeOf ht hs _ fun n hn => ?_
    have htaken := hP.temp s n
    have hs1 := hP.keeps htaken hs
    have hroom := hP.taken hs ht hn
    refine ends_temp ?_
    cases hx : layOut t (s.frame.temp n).1 with
    | none => exact hP.refused he hs1 (hnone t hty _ hx _) _
    | some x =>
      refine ends_bind ((h t _ x hx ht hfits _ hs1 hroom).mono (fun c s2 hc => ?_) fun _ _ hf => hf)
      have hdone := hP.append htaken (hP.then_slot hc hs1 hroom (touches_lea _ (r := .rax) rfl))
      exact ends_pure hdone
  refine ⟨rfl, hvalue, fun hlenient => hP.gives_addressOfValue he hvalue hlenient hplace, ?_⟩
  intro t d s ht hfits hs hroom
  unfold literal
  dsimp only
  cases hx : layOut t d with
  | none => exact hP.ends_copyInto hvalue _ ht hs hroom
  | some x => exact hP.ends_sizeOf ht hs _ fun _ _ => h t d x hx ht hfits s hs hroom

/-! ## Literals and operators -/

theorem gives_constant (he : G.expr e) (hplace : e.isPlace = false) (n : Int) :
    (constant site e.mark n).Gives G P e :=
  hP.gives_computed he hplace fun _ _ => hP.gives_plain (forall_mem_singleton.2 (plain_const n rfl))

theorem gives_logic {r : Lowered} (he : G.expr e) (hplace : e.isPlace = false)
    (hl : Gives G P l.value) (hr : Gives G P r.value) (skip : Condition) :
    (Code.logic site e.mark skip l r).Gives G P e := by
  refine hP.gives_computed he hplace fun t _ s hs => ?_
  refine ends_label (hP.step hl (hP.number hs) fun a s1 ha hs1 => hP.step hr hs1 fun b s2 hb _ => ?_)
  exact ends_pure (hP.logic skip ha hb)

/-- Both operands are computed, the left one kept on the stack while the right one is. -/
theorem gives_operation {op : BinOp} {l r : Expr} (he : G.expr (.binary m op l r))
    (hl : (lower site l).Gives G P l) (hr : (lower site r).Gives G P r) :
    (operation site m op (lower site l) (lower site r)).Gives G P (.binary m op l r) := by
  refine hP.gives_computed he rfl fun t _ s hs => ?_
  rw [hl.ty]
  refine hP.ends_typed (hP.child he Expr.left_mem_children) hs fun lt _ => ?_
  refine hP.step hl.value hs fun a s1 ha hs1 => hP.step hr.value hs1 fun b s2 hb _ => ?_
  have hcopy : ∀ l ∈ [Line.copy .rax .rcx], l.Plain := by decide
  have hkept := hP.keeping ha hb hcopy (r := .rax) (by decide)
  have hdone := hP.then_plain (hP.then_plain hkept (plain_operate lt.isSigned op)) (plain_normalize t)
  refine ends_pure ?_
  simpa using hdone

/-! ## Places -/

theorem gives_localName {x : String} (he : G.expr (.ident m x)) :
    (localName site m x).Gives G P (.ident m x) := by
  refine hP.gives_placed (e := .ident m x) he fun s hs => ends_bind (ends_get ?_)
  cases hslot : s.frame.get? x with
  | none => exact hP.refused he hs (.name hslot) _
  | some v => exact ends_pure (hP.name hslot)

/-- The address of a field is that of the struct and its offset, whether the struct is a place or not. -/
theorem gives_field {x : String} (he : G.expr (.member m e x))
    (h : (lower site e).Gives G P e) : (Code.field site m (lower site e) x).Gives G P (.member m e x) := by
  have hstuck : ∀ {t}, e.ty = some t → (∀ y l f, t = .struct y → site.HasLayout y l → l.field? x ≠ some f) →
      ∀ s : Emission, Stuck site s (.member m e x) := fun ht hno _ => .member ht hno
  refine hP.gives_placed (e := .member m e x) he fun s hs => ?_
  rw [h.ty]
  refine hP.ends_typed (hP.child he mem_cons_self) hs fun t ht => ?_
  cases t with
  | struct y =>
    refine ends_layout m.pos (fun l hlayout => ?_) fun hno err => hP.stuck he hs (hstuck ht ?_ s) err s
    · cases hfield : l.field? x with
      | none =>
        refine hP.refused he hs (hstuck ht ?_ s) _
        rintro _ l' f ⟨⟩ hl'
        cases hlayout.symm.trans hl'
        rw [hfield]
        exact nofun
      | some f =>
        refine hP.step h.value hs fun c s1 hc _ => ends_pure ?_
        split
        · exact hP.then_plain hc (forall_mem_nil _)
        · have ht := (hP.typed (hP.child he mem_cons_self) ht).1
          exact hP.append hc (hP.offset ht hlayout (mem_of_find?_eq_some hfield))
    · rintro _ l f ⟨⟩ hl
      exact absurd hl (hno l)
  | _ => exact hP.refused he hs (hstuck ht nofun s) _

/-- The address of an element is that of the array and the index times the size. -/
theorem gives_element {base idx : Expr} (he : G.expr (.index m base idx))
    (hbase : (lower site base).Gives G P base) (hidx : (lower site idx).Gives G P idx) :
    (element site m (lower site base) (lower site idx)).Gives G P (.index m base idx) := by
  refine hP.gives_placed (e := .index m base idx) he fun s hs => ?_
  refine hP.ends_typed (e := .index m base idx) he hs fun t ht => ?_
  refine hP.ends_sizeOf (hP.typed (e := .index m base idx) he ht).1 hs _ fun n _ => ?_
  refine hP.step hbase.value hs fun a s1 ha hs1 => hP.step hidx.value hs1 fun b s2 hb _ => ?_
  have hscale : ∀ l ∈ [Line.const n .rcx, .imul (.reg .rcx) .rax], l.Plain :=
    forall_mem_cons.2 ⟨plain_const n rfl, by decide⟩
  have hadd : ∀ l ∈ [Line.add (.reg .rcx) .rax], l.Plain := by decide
  have hdone := hP.then_plain (hP.keeping ha hb hscale (r := .rcx) (by decide)) hadd
  refine ends_pure ?_
  simpa using hdone

/-! ## Aggregates -/

theorem ends_zeroFill (hroom : G.room s d t) (n : Nat) : P s (zeroFill d n) s := by
  have hrest : ∀ l ∈ [Line.clear .rax, .const n .rcx, .instr .fillBytes], l.Plain := by
    refine forall_mem_cons.2 ⟨by decide, forall_mem_cons.2 ⟨plain_const n rfl, by decide⟩⟩
  exact hP.then_plain (hP.slot hroom (touches_lea d rfl)) hrest

theorem gives_zeroed (he : G.expr (.zeroed m)) : (zeroed site m).Gives G P (.zeroed m) := by
  refine hP.gives_literal (e := .zeroed m) he rfl (fun _ _ _ hnone => (nomatch hnone)) ?_
  rintro t d _ ⟨⟩ ht _ s hs hroom
  exact hP.ends_sizeOf ht hs _ fun n _ => ends_pure (hP.ends_zeroFill hroom n)

/-- Fields are laid out one by one. -/
theorem ends_fields {l : Layout}
    (h : ∀ g ∈ given, (lower site g.2).Gives G P g.2)
    (hnone : ∀ g ∈ given, l.field? g.1 = none → G.Lenient)
    (hfield : ∀ g ∈ given, ∀ f, l.field? g.1 = some f → G.type f.ty ∧ G.fits f.ty g.2)
    (hs : G.state s) (hroom : ∀ g ∈ given, ∀ f, l.field? g.1 = some f → G.room s (d + f.offset) f.ty) :
    (fields l d (given.map fun g => (g.1, lower site g.2))).Ends s (P s) G.fault := by
  induction given generalizing s with
  | nil => exact ends_pure (hP.plain (forall_mem_nil _))
  | cons g given ih =>
    obtain ⟨hg, hrest⟩ := forall_mem_cons.1 h
    obtain ⟨hgnone, hnone⟩ := forall_mem_cons.1 hnone
    obtain ⟨hgfield, hfield⟩ := forall_mem_cons.1 hfield
    obtain ⟨hgroom, hroom⟩ := forall_mem_cons.1 hroom
    rw [map_cons, fields]
    cases hf : l.field? g.1 with
    | none => exact ends_throw (hgnone hf _ _)
    | some f =>
      obtain ⟨ht, hfits⟩ := hgfield f hf
      have hfirst := hP.ends_initialise hg ht hfits hs (hgroom f hf)
      refine ends_bind (hfirst.mono (fun c s1 hc => ?_) fun _ _ he => he)
      have hrooms := fun g hg f hf => hP.later hc hs (hroom g hg f hf)
      have hothers := ih hrest hnone hfield (hP.keeps hc hs) hrooms
      refine ends_bind (hothers.mono (fun c' s2 hc' => ?_) fun _ _ he => he)
      exact ends_pure (hP.append hc hc')

/-- A literal is written field by field to where the layout puts the fields. -/
theorem gives_structLiteral (he : G.expr (.structLit m given))
    (h : ∀ g ∈ given, (lower site g.2).Gives G P g.2) :
    (structLiteral site m (lowerFields site given)).Gives G P (.structLit m given) := by
  rw [lowerFields_eq]
  refine hP.gives_literal (e := .structLit m given) he rfl (fun t hty d hnone s => ?_) ?_
  · refine .structLit hty ?_
    rintro y l rfl
    cases hnone
  · intro t d x hx ht hfits s hs hroom
    cases t with
    | struct y =>
      cases hx
      -- Where it is stuck, it is so for its own type.
      have hstuck : (∀ l, site.HasLayout y l → ∃ g ∈ given, l.field? g.1 = none) → G.Lenient := by
        intro hno
        obtain hty | hlenient := hP.aggregate hfits rfl
        · refine hP.stuck he hs (.structLit hty ?_)
          rintro _ l ⟨⟩ hl
          exact hno l hl
        · exact hlenient
      refine ends_layout m.pos (fun l hlayout => ?_) fun hno err => hstuck (fun l hl => absurd hl (hno l)) err s
      have hfield := hP.field he hfits hlayout
      refine hP.ends_fields h (fun g hg hnone => hstuck fun l' hl' => ?_)
        (fun g hg f hf => ⟨(hfield g hg f hf).1, (hfield g hg f hf).2.1⟩) hs
        fun g hg f hf => (hfield g hg f hf).2.2 s d hroom
      cases hlayout.symm.trans hl'
      exact ⟨g, hg, hnone⟩
    | _ => cases hx

/-- Elements are laid out side by side. -/
theorem ends_elements {n : Nat} (ht : G.type t)
    (h : ∀ e ∈ es, (lower site e).Gives G P e ∧ G.fits t e) (hs : G.state s)
    (hroom : ∀ i, i < es.length → G.room s (d + (i * n : Nat)) t) :
    (elements t n d (es.map (lower site))).Ends s (P s) G.fault := by
  induction es generalizing s d with
  | nil => exact ends_pure (hP.plain (forall_mem_nil _))
  | cons e es ih =>
    obtain ⟨⟨he, hfits⟩, hrest⟩ := forall_mem_cons.1 h
    have hfirst := hP.ends_initialise he ht hfits hs (by simpa using hroom 0 (Nat.succ_pos _))
    refine ends_bind (hfirst.mono (fun c s1 hc => ?_) fun _ _ he => he)
    have hothers := ih hrest (hP.keeps hc hs) (d := d + n) fun i hi => by
      have hnext := hP.later hc hs (hroom (i + 1) (Nat.succ_lt_succ hi))
      rwa [Nat.succ_mul, Nat.add_comm, Int.natCast_add, ← Int.add_assoc] at hnext
    refine ends_bind (hothers.mono (fun c' s2 hc' => ?_) fun _ _ he => he)
    exact ends_pure (hP.append hc hc')

/-- A literal is written element by element. -/
theorem gives_arrayLiteral (he : G.expr (.arrayLit m es))
    (h : ∀ e ∈ es, (lower site e).Gives G P e) :
    (arrayLiteral site m (lowerAll site es)).Gives G P (.arrayLit m es) := by
  rw [lowerAll_eq]
  refine hP.gives_literal (e := .arrayLit m es) he rfl (fun t hty d hnone s => ?_) ?_
  · refine .arrayLit hty ?_
    rintro k u rfl
    cases hnone
  · intro t d x hx ht hfits s hs hroom
    cases t with
    | array k u =>
      cases hx
      obtain ⟨hu, hes, hrooms⟩ := hP.elem he hfits
      refine hP.ends_sizeOf hu hs _ fun n hn => ?_
      exact hP.ends_elements hu (fun e he => ⟨h e he, hes e he⟩) hs fun i hi => hrooms s d n i hn hi hroom
    | _ => cases hx

/-! ## Output -/

/-- Arguments are written one after another, each by the routine for its type. -/
theorem ends_writeAll (hargs : ∀ a ∈ args, G.expr a)
    (h : ∀ a ∈ args, (lower site a).Gives G P a) (hs : G.state s) (hroom : G.room s d t) :
    (writeAll d (args.map (lower site))).Ends s (P s) G.fault := by
  induction args generalizing s with
  | nil => exact ends_pure (hP.plain (forall_mem_nil _))
  | cons a args ih =>
    obtain ⟨ha, hrest⟩ := forall_mem_cons.1 h
    obtain ⟨hexpr, hargs⟩ := forall_mem_cons.1 hargs
    rw [map_cons, writeAll, ha.ty]
    refine hP.ends_typed hexpr hs fun u _ => ?_
    have hplain := plain_writer u
    rcases hw : writer u with ⟨r, extra⟩
    rw [hw] at hplain
    refine hP.step ha.value hs fun c s1 hc hs1 => ?_
    have hextra : ∀ l ∈ [Line.copy .rax .rsi] ++ extra, l.Plain :=
      forall_mem_append.2 ⟨by decide, hplain⟩
    have hmoved := hP.then_slot (hP.then_plain hc hextra) hs hroom (touches_mov d (r := .rdi) rfl)
    have hcalled := hP.append hmoved (hP.routine s1 r)
    have hothers := ih hargs hrest (hP.keeps hcalled hs) (hP.later hcalled hs hroom)
    refine ends_routine (ends_bind (hothers.mono (fun c' s2 hc' => ?_) fun _ _ he => he))
    have hdone := hP.append hcalled hc'
    refine ends_pure ?_
    simpa using hdone

/-- Output writes all arguments and then, if it is asked for, the end of the line. -/
theorem gives_output (hargs : ∀ a ∈ args, G.expr a)
    (h : ∀ a ∈ args, (lower site a).Gives G P a) (newline : Bool) :
    Gives G P (output newline (args.map (lower site))) := by
  intro s hs
  cases args with
  | nil => exact ends_pure (hP.plain (forall_mem_nil _))
  | cons fd args =>
    obtain ⟨hfd, hrest⟩ := forall_mem_cons.1 h
    have htaken := hP.temp s 8
    have hroom : G.room { s with frame := (s.frame.temp 8).2 } (s.frame.temp 8).1 (.int 64 false) :=
      hP.taken hs hP.word rfl
    refine ends_temp (hP.step hfd.value (hP.keeps htaken hs) fun c s1 hc hs1 => ?_)
    have hroom1 := hP.later hc (hP.keeps htaken hs) hroom
    have hvalues := hP.ends_writeAll (fun a ha => hargs a (mem_cons_of_mem _ ha)) hrest hs1 hroom1
    refine ends_bind (hvalues.mono (fun c' s2 hc' => ?_) fun _ _ he => he)
    have hstored := hP.append (hP.append htaken hc) (hP.slot hroom1 (touches_storeTo .quad _))
    have hwritten := hP.append hstored hc'
    cases newline with
    | false => exact ends_pure (hP.then_plain hwritten (forall_mem_nil _))
    | true =>
      have hconst : ∀ l ∈ [Line.const 10 .rsi], l.Plain := forall_mem_singleton.2 (plain_const 10 rfl)
      have hmoved := hP.append (hP.then_plain hwritten hconst)
        (hP.slot (hP.later hc' hs1 hroom1) (touches_mov _ (r := .rdi) rfl))
      have hdone := hP.append hmoved (hP.routine s2 .writeChar)
      refine ends_routine (ends_pure (E := G.fault) ?_)
      simpa using hdone

/-- Each builtin is a composition of its arguments and of one routine. -/
theorem gives_builtin {b : Builtin} (he : G.expr (.builtin m b args))
    (h : ∀ a ∈ args, (lower site a).Gives G P a) :
    (builtin site m b (lowerAll site args)).Gives G P (.builtin m b args) := by
  rw [lowerAll_eq]
  have hargs : ∀ a ∈ args, G.expr a := fun a ha => hP.child he ha
  refine hP.gives_computed (e := .builtin m b args) he rfl fun _ _ => ?_
  cases b with
  | output => exact hP.gives_output hargs h false
  | outputln => exact hP.gives_output hargs h true
  | _ => exact hP.service he (by decide) (by decide) h _

/-! ## All forms -/

/-- Code with the property is generated for every expression of which enough is known. -/
theorem gives_lower (he : G.expr e) : (lower site e).Gives G P e := by
  induction e using Expr.by_children with
  | h e ih =>
    have hpart : ∀ c ∈ e.children, (lower site c).Gives G P c := fun c hc => ih c hc (hP.child he hc)
    cases e with
    | intLit | boolLit | charLit | enumLit | nil => exact hP.gives_constant he rfl _
    | strLit m t => exact hP.gives_computed he rfl fun _ _ s _ => hP.text s t
    | ident m x => exact hP.gives_localName he
    | sizeof m type =>
      exact hP.gives_computed (e := .sizeof m type) he rfl fun _ _ s hs => hP.refused he hs .sizeof _
    | zeroed m => exact hP.gives_zeroed he
    | member m e x => exact hP.gives_field he (hpart e mem_cons_self)
    | index m base idx =>
      have hidx := hpart idx (mem_cons_of_mem _ mem_cons_self)
      exact hP.gives_element he (hpart base mem_cons_self) hidx
    | deref m e => exact hP.gives_placed he (hpart e mem_cons_self).value
    | addrOf m e =>
      exact hP.gives_computed he rfl fun _ _ => (hpart e mem_cons_self).address (hP.place he)
    | cast m type e =>
      have hvalue := (hpart e mem_cons_self).value
      exact hP.gives_computed he rfl fun t _ => hP.gives_then_plain hvalue (plain_normalize t)
    | unary m op e =>
      have hvalue := (hpart e mem_cons_self).value
      cases op with
      | neg =>
        have hneg : ∀ l ∈ [Line.instr (.unary .neg .rax)], l.Plain := by decide
        refine hP.gives_computed he rfl fun t _ s hs => hP.step hvalue hs fun c s1 hc _ => ?_
        exact ends_pure (hP.then_plain (hP.then_plain hc hneg) (plain_normalize t))
      | not => exact hP.gives_computed he rfl fun t _ => hP.gives_then_plain hvalue (by decide)
    | binary m op l r =>
      have hl := hpart l Expr.left_mem_children
      have hr := hpart r Expr.right_mem_children
      cases op with
      | and => exact hP.gives_logic he rfl hl.value hr.value .e
      | or => exact hP.gives_logic he rfl hl.value hr.value .ne
      | _ => exact hP.gives_operation he hl hr
    | call m callee args =>
      have hvalue := hP.call he hpart
      exact ⟨rfl, hvalue, fun hlenient => hP.gives_addressOfValue he hvalue hlenient rfl,
        fun ht _ => hP.ends_copyInto hvalue _ ht⟩
    | structLit m given =>
      exact hP.gives_structLiteral he fun g hg => hpart g.2 (mem_map_of_mem hg)
    | arrayLit m es => exact hP.gives_arrayLiteral he hpart
    | builtin m b args => exact hP.gives_builtin he hpart

end CodeLaws

/-! ## Simple statements -/

/-- The property is kept as well where a slot gets a name, and whatever goes wrong may. -/
structure DeclLaws (site : Site) (G : Ground) (P : Emission → Block → Emission → Prop) : Prop
    extends CodeLaws site G P where
  bind : ∀ {s : Emission} {d t} x mutable, G.room s d t → P s [] { s with frame := s.frame.bind x t d mutable }
  lenient : G.Lenient

/-- The code with which a return finds its value. -/
def returnValue (site : Site) (pos : Position) (e : Expr) : Emit Block := do
  if site.ret.isAggregate then
    let size ← site.sizeOf pos site.ret
    let value ← (lower site e).value
    return value ++ [Line.copy .rax .rsi, .mov (slot 16) .rdi] ++ copyBytes size ++ [Line.mov (slot 16) .rax]
  else return (← (lower site e).value) ++ normalize site.ret

/-- A return finds its value, and jumps to the end of the function. -/
theorem of_returnCode {site : Site} {pos : Position} {e : Expr} {s s' : Emission} {code : Block}
    (h : returnCode site pos (some e) s = (.ok code, s')) :
    ∃ c, returnValue site pos e s = (.ok c, s') ∧ code = c ++ [Line.jump site.returnLabel] := by
  unfold returnCode at h
  unfold returnValue
  dsimp only at h
  split at h
  · next hagg =>
    rw [if_pos hagg]
    obtain ⟨size, s1, hsize, h1⟩ := bind_eq_ok.1 h
    obtain ⟨b, s2, hb, h2⟩ := bind_eq_ok.1 h1
    cases h2
    refine ⟨_, bind_eq_ok.2 ⟨size, s1, hsize, bind_eq_ok.2 ⟨b, s', hb, rfl⟩⟩, ?_⟩
    simp
  · next hagg =>
    rw [if_neg hagg]
    obtain ⟨b, s1, hb, h1⟩ := bind_eq_ok.1 h
    cases h1
    exact ⟨_, bind_eq_ok.2 ⟨b, s', hb, rfl⟩, by simp⟩

namespace DeclLaws

variable {site : Site} {G : Ground} {P : Emission → Block → Emission → Prop} (hP : DeclLaws site G P)
  {s : Emission}
variable {e : Expr}

include hP

theorem gives_condition (he : G.expr e) : Gives G P (condition site e) := by
  have htest : ∀ l ∈ [Line.test .rax], l.Plain := by decide
  exact hP.gives_then_plain (hP.gives_lower he).value htest

/-- An initial value, and then a name for it. -/
theorem ends_bound {t : Ty} {d : Int} (he : G.expr e) (ht : G.type t) (hfits : G.fits t e)
    (hs : G.state s) (hroom : G.room s d t) (x : String) (mutable : Bool) :
    Ends (do
      let code ← (lower site e).initialise t d
      Code.bind x t d mutable
      return code) s (P s) G.fault := by
  have hinit := hP.ends_initialise (hP.gives_lower he) ht hfits hs hroom
  refine ends_bind (hinit.mono (fun c s1 hc => ?_) fun _ _ he => he)
  have hbound := hP.append hc (hP.bind x mutable (hP.later hc hs hroom))
  rw [append_nil] at hbound
  exact ends_bind (ends_modify (ends_pure hbound))

/-- A declaration makes room and writes the initial value, or zeros, there. -/
theorem gives_varDecl {d : VarDecl} (pos : Position)
    (h : ∀ t, d.resolved = some t → G.type t ∧ ∀ e ∈ d.init, G.expr e ∧ G.fits t e) :
    Gives G P (varDecl site pos d) := by
  refine fun s hs => ends_resolved (fun _ e => hP.lenient e s) fun t hty => ?_
  obtain ⟨ht, hinit⟩ := h t hty
  refine hP.ends_sizeOf ht hs pos fun n hn => ends_temp ?_
  have htaken := hP.temp s n
  have hroom := hP.taken hs ht hn
  cases hi : d.init with
  | none =>
    have hbound := hP.append (hP.append htaken (hP.ends_zeroFill hroom n)) (hP.bind d.name d.mutable hroom)
    rw [append_nil] at hbound
    exact ends_bind (ends_pure (ends_bind (ends_modify (ends_pure hbound))))
  | some e =>
    obtain ⟨he, hfits⟩ := hinit e hi
    have hrest := hP.ends_bound he ht hfits (hP.keeps htaken hs) hroom d.name d.mutable
    exact hrest.mono (fun c s1 hc => hP.append htaken hc) fun _ _ he => he

/-- The value is kept on the stack while the place is computed. -/
theorem gives_assignment {l r : Expr} (hl : G.expr l) (hr : G.expr r) (pos : Position) :
    Gives G P (assignment site pos l r) := by
  have hvalue := (hP.gives_lower hr).value
  have hplace := (hP.gives_lower hl).address (Or.inr hP.lenient)
  refine fun s hs => hP.ends_typed hl hs fun t hty => ?_
  split
  · refine hP.ends_sizeOf (hP.typed hl hty).1 hs pos fun n _ => ?_
    refine hP.step hvalue hs fun a s1 ha hs1 => hP.step hplace hs1 fun b s2 hb _ => ends_pure ?_
    have hcopy : ∀ l ∈ [Line.copy .rax .rdi], l.Plain := by decide
    have hdone := hP.then_plain (hP.keeping ha hb hcopy (r := .rsi) (by decide)) (plain_copyBytes n)
    simpa using hdone
  · refine hP.step hvalue hs fun a s1 ha hs1 => hP.step hplace hs1 fun b s2 hb _ => ends_pure ?_
    have hcopy : ∀ l ∈ [Line.copy .rax .rcx], l.Plain := by decide
    have hdone := hP.then_plain (hP.keeping ha hb hcopy (r := .rax) (by decide)) (plain_store t)
    simpa using hdone

/-- The counter of a loop gets a slot of eight bytes, whatever its type. -/
theorem gives_counter {init : Option (String × Expr)}
    (h : ∀ x e, init = some (x, e) → G.expr e ∧ ∀ t, e.ty = some t → ∀ s, G.state s →
      G.room { s with frame := (s.frame.temp 8).2 } (s.frame.temp 8).1 t) : Gives G P (counter site init) := by
  intro s hs
  cases init with
  | none => exact ends_pure (hP.plain (forall_mem_nil _))
  | some p =>
    obtain ⟨x, e⟩ := p
    obtain ⟨he, hroom⟩ := h x e rfl
    refine hP.ends_typed he hs fun t hty => ends_temp ?_
    obtain ⟨ht, hfits⟩ := hP.typed he hty
    have htaken := hP.temp s 8
    have hrest := hP.ends_bound he ht hfits (hP.keeps htaken hs) (hroom t hty s hs) x true
    exact hrest.mono (fun c s1 hc => hP.append htaken hc) fun _ _ he => he

/-- A result that is an aggregate goes to the address that the caller has given. -/
theorem gives_returnValue (he : G.expr e) (hret : G.type site.ret) (pos : Position) :
    Gives G P (returnValue site pos e) := by
  have hvalue := (hP.gives_lower he).value
  unfold returnValue
  split
  · refine fun s hs => hP.ends_sizeOf hret hs pos fun n _ => hP.step hvalue hs fun c s1 hc _ => ?_
    have hcopy : ∀ l ∈ [Line.copy .rax .rsi, .mov (slot 16) .rdi], l.Plain := by decide
    have hback : ∀ l ∈ [Line.mov (slot 16) .rax], l.Plain := by decide
    have hcopied := hP.then_plain (hP.then_plain hc hcopy) (plain_copyBytes n)
    exact ends_pure (hP.then_plain hcopied hback)
  · exact hP.gives_then_plain hvalue (plain_normalize site.ret)

end DeclLaws

end Code

end Sigil
