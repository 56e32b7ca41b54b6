import Sigil.Proofs.Emission.Pieces

/-!
# The code of expressions in pieces

All code that is generated for a well-typed expression is put together in the ways of `Piece`, and
leaves nothing on the stack (`Code.declLaws_pieces`). This holds for its value, for its address and for the
whole of it built into a slot that has room for it.
-/

namespace Sigil.Code

open Attempt List Symbols

open Machine (Block Instruction Label Line Operand Register)
open Typing

variable {site : Site} {s s' : Emission}
variable {α : Type} {n : Nat} {a : α} {t : Ty} {outs : List Label} {f : Frame} {es : List Expr}
  {x : Emit Block} {offset d : Int} {sig : Signature} {k : Nat → Emit α} {args : List (Lowered × Ty)}
  {m : Mark} {y : String} {l : Layout} {Γ : Env}

/-- The table of the program is complete, and its layouts are packed. -/
structure Site.Sound (site : Site) : Prop where
  complete : site.symbols.Complete
  packed : Packed site.symbols.memo.layouts

/-! ## Generation that succeeds -/

theorem of_typed {ty : Option Ty} {k : Ty → Emit α}
    (h : (typed ty >>= k) s = (.ok a, s')) : ∃ t, ty = some t ∧ k t s = (.ok a, s') := by
  cases ty with
  | none => cases h
  | some t => exact ⟨t, rfl, h⟩

theorem Site.Sound.size? (hsite : site.Sound) (ht : t.Defined site.symbols.kind)
    (h : site.HasSize t n) : site.symbols.size? t = some n :=
  (hsite.complete.sizeOf_eq_ok ht (Prod.ext (settled_eq_ok.1 h) rfl)).1

theorem of_sizeOf {pos : Position}
    (h : (site.sizeOf pos t >>= k) s = (.ok a, s')) : ∃ n, site.HasSize t n ∧ k n s = (.ok a, s') := by
  obtain ⟨n, s1, hn, hk⟩ := bind_eq_ok.1 h
  unfold Site.sizeOf at hn
  cases hsize : site.symbols.settled (site.symbols.names.sizeOf t) with
  | ok size =>
    rw [hsize] at hn
    cases hn
    exact ⟨n, hsize, hk⟩
  | error e =>
    rw [hsize] at hn
    cases hn

theorem Site.Sound.of_sizeOf (hsite : site.Sound) {pos : Position}
    (ht : t.Defined site.symbols.kind)
    (h : (site.sizeOf pos t >>= k) s = (.ok a, s')) :
    ∃ n, site.symbols.size? t = some n ∧ k n s = (.ok a, s') := by
  obtain ⟨n, hn, hk⟩ := Code.of_sizeOf h
  exact ⟨n, hsite.size? ht hn, hk⟩

theorem of_routine {r : Routine} {k : Label → Emit α}
    (h : (routine r >>= k) s = (.ok a, s')) :
    k r.label { s with pool := s.pool.use r } = (.ok a, s') :=
  h

theorem of_label {what : String} {k : Label → Emit α}
    (h : (site.label what >>= k) s = (.ok a, s')) :
    k (site.numbered what (s.labels + 1)) (s.number 1) = (.ok a, s') :=
  h

theorem Piece.bounded {code : Block} (h : Piece site outs s code n s')
    (hs : s.frame.Bounded) : s'.frame.Bounded ∧ s'.frame.low ≤ s.frame.low :=
  h.tracks tracks_bounded hs

/-- What is generated is a piece that leaves nothing on the stack. -/
def Makes (site : Site) (outs : List Label) (x : Emit Block) : Prop :=
  ∀ ⦃s : Emission⦄ ⦃code : Block⦄ ⦃s' : Emission⦄, s.frame.Bounded → x s = (.ok code, s') →
    Piece site outs s code 0 s'

/-- The first part is a piece, and the second one starts in a frame that is bounded as well. -/
theorem Makes.of_bind {k : Block → Emit α}
    (hx : Makes site outs x) (hs : s.frame.Bounded) (h : (x >>= k) s = (.ok a, s')) :
    ∃ code s1, Piece site outs s code 0 s1 ∧ s1.frame.Bounded ∧ s1.frame.low ≤ s.frame.low ∧
      k code s1 = (.ok a, s') := by
  obtain ⟨code, s1, hcode, hk⟩ := bind_eq_ok.1 h
  have hpiece := hx hs hcode
  exact ⟨code, s1, hpiece, (hpiece.bounded hs).1, (hpiece.bounded hs).2, hk⟩

/-! ## Room for values -/

/-- The slot from `offset` on has room for `size` bytes, or at least for the largest object. -/
structure Room (f : Frame) (offset : Int) (size : Nat) : Prop where
  low : f.low ≤ offset
  high : offset + min size maxObject ≤ 0

theorem Room.covers {size : Nat} (h : Room f offset size) :
    f.Covers offset :=
  ⟨h.low, by have := h.high; omega⟩

theorem Room.mono {f' : Frame} {size : Nat} (h : Room f offset size)
    (hf : f'.low ≤ f.low) : Room f' offset size :=
  ⟨hf.trans h.low, h.high⟩

/-- A part of what has room has room. -/
theorem Room.part {size k : Nat} (h : Room f offset size)
    (hsize : size ≤ maxObject) (hle : k + n ≤ size) : Room f (offset + k) n := by
  have hlow := h.low
  have hhigh := h.high
  exact ⟨by omega, by omega⟩

/-- A slot that has just been taken has room for what it was taken for. -/
theorem room_temp (hf : f.Bounded) (size : Nat) :
    Room (f.temp size).2 (f.temp size).1 size :=
  ⟨(hf.covers_temp size).1, hf.temp_add_le size⟩

/-! ## Calls -/

/-- Puts the value at hand on the stack, as an argument of the given type. -/
def storeArg (t : Symbols) (ty : Ty) : Block :=
  if ty.isAggregate then
    [.copy .rax .rsi, .sub (.imm (t.pushed ty)) .rsp, .copy .rsp .rdi] ++
      copyBytes ((t.size? ty).getD 0)
  else [.push .rax]

theorem piece_storeArg (t : Ty) :
    Piece site [] s (storeArg site.symbols t) (site.symbols.pushed t) s := by
  unfold storeArg
  split
  · have hcopy : Line.Plain (.copy .rax .rsi) := by decide
    have hcopy' : Line.Plain (.copy .rsp .rdi) := by decide
    have hroom : Piece site [] s _ _ s := (Piece.plain hcopy).append (.reserve (site.symbols.pushed t))
    exact hroom.stack ((Piece.plain hcopy').append (.plains (plain_copyBytes _)))
  · next hagg =>
    rw [pushed, if_neg hagg]
    exact .push .rax

/-- The first argument is put on the stack, and then the others. -/
theorem of_pushArgs (hsite : site.Sound) {l : Lowered}
    (ht : t.Defined site.symbols.kind) {pos : Position} {code : Block}
    (h : pushArgs site pos ((l, t) :: args) s = (.ok (code, n), s')) :
    ∃ value s1 more k, l.value s = (.ok value, s1) ∧ pushArgs site pos args s1 = (.ok (more, k), s') ∧
      code = value ++ storeArg site.symbols t ++ more ∧ n = site.symbols.pushed t + k := by
  rw [pushArgs] at h
  split at h
  · next hagg =>
    obtain ⟨size, hsize, h1⟩ := hsite.of_sizeOf ht h
    obtain ⟨value, s1, hvalue, h2⟩ := bind_eq_ok.1 h1
    obtain ⟨⟨more, k⟩, s2, hmore, h3⟩ := bind_eq_ok.1 h2
    cases h3
    refine ⟨value, s1, more, k, hvalue, hmore, ?_, ?_⟩
    · simp [storeArg, pushed, hagg, hsize]
    · simp [pushed, hagg, hsize]
  · next hagg =>
    obtain ⟨value, s1, hvalue, h1⟩ := bind_eq_ok.1 h
    obtain ⟨⟨more, k⟩, s2, hmore, h2⟩ := bind_eq_ok.1 h1
    cases h2
    refine ⟨value, s1, more, k, hvalue, hmore, ?_, ?_⟩
    · simp [storeArg, hagg]
    · simp [pushed, hagg]

/-- What is pushed for the arguments is as large as their types say. -/
theorem piece_pushArgs (hsite : site.Sound)
    (h : ∀ a ∈ args, Makes site [] a.1.value ∧ a.2.Defined site.symbols.kind) {pos : Position}
    {code : Block} (hs : s.frame.Bounded)
    (hcode : pushArgs site pos args s = (.ok (code, n), s')) :
    Piece site [] s code n s' ∧ n = (args.map fun a => site.symbols.pushed a.2).sum := by
  induction args generalizing s code n with
  | nil =>
    cases hcode
    exact ⟨.nil, rfl⟩
  | cons a args ih =>
    obtain ⟨l, t⟩ := a
    obtain ⟨hvalue, ht⟩ := h (l, t) mem_cons_self
    obtain ⟨value, s1, more, k, hv, hmore, rfl, rfl⟩ := of_pushArgs hsite ht hcode
    have hfirst := hvalue hs hv
    obtain ⟨hrest, rfl⟩ := ih (fun a ha => h a (mem_cons_of_mem _ ha)) (hfirst.bounded hs).1 hmore
    exact ⟨(hfirst.append (piece_storeArg t)).stack hrest, rfl⟩

/-- The address for a result is pushed exactly if it is an aggregate. -/
theorem piece_pushResult (hsite : site.Sound) (ht : t.Defined site.symbols.kind)
    {pos : Position} {code : Block} (hs : s.frame.Bounded)
    (hcode : pushResult site pos t s = (.ok (code, n), s')) :
    Piece site [] s code n s' ∧ n = if t.isAggregate then 8 else 0 := by
  unfold pushResult at hcode
  split at hcode
  · next hagg =>
    obtain ⟨size, -, h1⟩ := hsite.of_sizeOf ht hcode
    cases h1
    have htaken : Piece site [] s [] 0 { s with frame := (s.frame.temp size).2 } := .temp size
    have hlea := htaken.append (.slot (.inl (hs.covers_temp size)) (touches_lea _ (r := .rax) rfl))
    exact ⟨hlea.append (.push .rax), (if_pos hagg).symm⟩
  · next hagg =>
    cases hcode
    exact ⟨.nil, (if_neg hagg).symm⟩

theorem makes_args (hsite : site.Sound) {x : String}
    (hsig : site.symbols.funcs.get? x = some sig) (h : ∀ e ∈ es, Makes site [] (lower site e).value) :
    ∀ a ∈ ((es.map (lower site)).zip (sig.params.map (·.2))).reverse,
      Makes site [] a.1.value ∧ a.2.Defined site.symbols.kind := by
  rintro ⟨l, t⟩ ha
  obtain ⟨hl, ht⟩ := of_mem_zip (mem_reverse.1 ha)
  obtain ⟨e, he, rfl⟩ := mem_map.1 hl
  obtain ⟨p, hp, rfl⟩ := mem_map.1 ht
  exact ⟨h e he, (hsite.complete.funcs hsig).params p hp⟩

/-- The bytes for the first arguments: their order does not matter for the sum, and there is an argument for
every parameter. -/
theorem sum_pushed (site : Site)
    (hlength : es.length = sig.params.length) (i : Nat) :
    ((((es.map (lower site)).zip (sig.params.map (·.2))).take i).reverse.map
      fun a => site.symbols.pushed a.2).sum = ((sig.params.take i).map fun p => site.symbols.pushed p.2).sum := by
  have hzip : ((es.map (lower site)).zip (sig.params.map (·.2))).map Prod.snd
      = sig.params.map (·.2) := map_snd_zip (by simp [hlength])
  have htake := congrArg (fun ts => ((ts.take i).map site.symbols.pushed).sum) hzip
  rw [map_reverse, sum_reverse]
  simpa [← map_take, Function.comp_def] using htake

/-- The code of a call puts the arguments on the stack, the last one first, and then the address for the
result. -/
theorem of_call (hsite : site.Sound) {m' : Mark} {x : String}
    (hm : m.ty = some sig.ret) (hsig : site.symbols.funcs.get? x = some sig)
    (hlength : es.length = sig.params.length) (h : ∀ e ∈ es, Makes site [] (lower site e).value)
    (hs : s.frame.Bounded) {code : Block}
    (hcode : (lower site (.call m (.ident m' x) es)).value s = (.ok code, s')) :
    ∃ args n s1 result k,
      pushArgs site m.pos ((es.map (lower site)).zip (sig.params.map (·.2))).reverse s =
        (.ok (args, n), s1) ∧
      pushResult site m.pos sig.ret s1 = (.ok (result, k), s') ∧
      Piece site [] s args n s1 ∧ Piece site [] s1 result k s' ∧ n + k = site.symbols.pushedFor sig ∧
      code = args ++ result ++ [Line.call (functionLabel x)] ++ dropBytes (n + k) := by
  have hret : sig.ret.Defined site.symbols.kind := (hsite.complete.funcs hsig).ret
  rw [lower, lowerAll_eq] at hcode
  obtain ⟨t, ht, h1⟩ := of_typed hcode
  obtain rfl : sig.ret = t := Option.some.inj (hm.symm.trans ht)
  dsimp only at h1
  rw [hsig] at h1
  obtain ⟨⟨args, n⟩, s1, hpushed, h2⟩ := bind_eq_ok.1 h1
  obtain ⟨⟨result, k⟩, s2, hresult, h3⟩ := bind_eq_ok.1 h2
  cases h3
  obtain ⟨hfirst, hn⟩ := piece_pushArgs hsite (makes_args hsite hsig h) hs hpushed
  obtain ⟨hsecond, hk⟩ := piece_pushResult hsite hret (hfirst.bounded hs).1 hresult
  refine ⟨args, n, s1, result, k, hpushed, hresult, hfirst, hsecond, ?_, rfl⟩
  -- All arguments and the result together are what the caller takes off again.
  have hsum := sum_pushed site hlength sig.params.length
  rw [take_length, take_of_length_le (by simp [hlength])] at hsum
  rw [hn, hk, hsum, pushedFor]

theorem piece_pushAll {args : List Lowered} (h : ∀ l ∈ args, Makes site [] l.value) {code : Block}
    (hs : s.frame.Bounded) (hcode : pushAll args s = (.ok code, s')) :
    Piece site [] s code (8 * args.length) s' := by
  induction args generalizing s code with
  | nil =>
    cases hcode
    exact .nil
  | cons l args ih =>
    obtain ⟨b, s1, hb, hs1, -, h1⟩ := (h l mem_cons_self).of_bind hs hcode
    obtain ⟨c, s2, hc, h2⟩ := bind_eq_ok.1 h1
    cases h2
    have hrest := ih (fun l hl => h l (mem_cons_of_mem _ hl)) hs1 hc
    have hpiece : Piece site [] s _ _ s' := (hb.append (.push .rax)).stack hrest
    rwa [Nat.add_comm] at hpiece

/-- The arguments of a routine are pushed and popped into registers. -/
theorem makes_routineCall {args : List Lowered} (h : ∀ l ∈ args, Makes site [] l.value)
    (hlength : args.length ≤ 4) (r : Routine) : Makes site [] (routineCall r args) := by
  intro s code s' hs hcode
  obtain ⟨b, s1, hb, h1⟩ := bind_eq_ok.1 hcode
  cases of_routine h1
  have hregs : args.length = (argRegisters.take args.length).reverse.length := by
    simp [argRegisters]
    omega
  have hpushed := piece_pushAll h hs hb
  rw [hregs] at hpushed
  have hspare : ∀ r ∈ (argRegisters.take args.length).reverse, r ≠ .rsp := by
    intro r hr
    have hall : ∀ r ∈ argRegisters, r ≠ .rsp := by decide
    exact hall r (mem_of_mem_take (mem_reverse.1 hr))
  exact (hpushed.pops (hregs ▸ hlength) hspare).append (.routine r)

/-- Routines that are called by name take no more arguments than there are registers for. -/
theorem length_le_of_roles {b : Builtin} {rs : List Check.Role}
    (h : Check.roles b n = .ok rs) (hb : b ≠ .output ∧ b ≠ .outputln) : n ≤ 4 := by
  cases b <;> simp_all [Check.roles, Check.roles.exactly]
  all_goals split at h <;> simp_all

/-! ## All forms -/

/-- What is known of a well-typed expression where the frame is bounded. -/
def Ground.bounded (site : Site) : Ground where
  expr e := ∃ Γ, e.Typed site.symbols Γ
  type := Ty.Defined site.symbols.kind
  fits := Fits
  room s d t := ∃ n, site.symbols.size? t = some n ∧ Room s.frame d n
  state s := s.frame.Bounded
  fault _ _ := True

/-- A piece that jumps nowhere and leaves nothing on the stack. -/
def Closed (site : Site) (s : Emission) (code : Block) (s' : Emission) : Prop :=
  Piece site [] s code 0 s'

theorem Gives.makes (h : Gives (.bounded site) (Closed site) x) :
    Makes site outs x :=
  fun _ _ _ hs hx => (h.of_ok hs hx).anywhere

theorem Makes.gives (h : Makes site [] x) : Gives (.bounded site) (Closed site) x :=
  fun _ hs => ends_of_ok fun _ _ hx => h hs hx

/-- A field of a struct literal has room where the struct has. -/
theorem room_field (hsite : site.Sound) {f : Field}
    (hy : site.symbols.kind y = some .struct) (hl : site.symbols.ask (site.symbols.layout y) = .ok l)
    (hf : f ∈ l.fields) (h : (Ground.bounded site).room s d (.struct y)) :
    (Ground.bounded site).room s (d + f.offset) f.ty := by
  have hget := hsite.complete.get?_layouts hy hl
  have hpacked := hsite.packed hget
  obtain ⟨size, hsize, hroom⟩ := h
  obtain rfl : l.size = size := by
    have : some l.size = some size := by simpa [size?, hget] using hsize
    exact Option.some.inj this
  obtain ⟨n, hn, hle⟩ := hpacked.field f hf
  exact ⟨n, hn, hroom.part hpacked.size_le hle⟩

theorem room_elem {u : Ty} {k i : Nat} (hn : site.symbols.size? u = some n) (hi : i < k)
    (h : (Ground.bounded site).room s d (.array k u)) : (Ground.bounded site).room s (d + (i * n : Nat)) u := by
  obtain ⟨size, hsize, hroom⟩ := h
  obtain ⟨step, hstep, rfl, hle⟩ := Ty.sizeIn?_array.1 hsize
  obtain rfl : step = n := Option.some.inj (hstep.symm.trans hn)
  refine ⟨step, hn, hroom.part hle ?_⟩
  rw [← Nat.succ_mul]
  exact Nat.mul_le_mul_right step hi

/-- The offset of a field is at most the size of the struct. -/
theorem plain_offset (hsite : site.Sound) {f : Field}
    (hy : site.symbols.kind y = some .struct) (hl : site.symbols.ask (site.symbols.layout y) = .ok l)
    (hf : f ∈ l.fields) : (Line.add (.imm f.offset) .rax).Plain := by
  have hpacked := hsite.packed (hsite.complete.get?_layouts hy hl)
  obtain ⟨n, -, hle⟩ := hpacked.field f hf
  have hsize := hpacked.size_le
  unfold maxObject at hsize
  have hfits : Machine.Fits32 f.offset := ⟨by omega, by omega⟩
  refine ⟨⟨rfl, rfl, rfl⟩, Or.inr ?_⟩
  simp [Machine.Instruction.parts, Machine.Operand.Encodable, hfits]

theorem makes_call (hsite : site.Sound) {callee : Expr}
    (htyped : (Expr.call m callee es).Typed site.symbols Γ)
    (h : ∀ e ∈ es, Makes site [] (lower site e).value) :
    Makes site [] (lower site (.call m callee es)).value := by
  cases htyped.node.rule with
  | @call _ m' _ _ _ _ hsig hfits hm =>
    intro s code s' hs hcode
    obtain ⟨args, n, s1, result, k, -, -, hfirst, hsecond, hn, rfl⟩ :=
      of_call hsite hm hsig hfits.length_eq h hs hcode
    exact .call (hfirst.stack hsecond) hsig hn ⟨hs, m, m', Γ, s', htyped, hcode⟩

/-- All code of a well-typed expression is made of pieces. -/
theorem declLaws_pieces (hsite : site.Sound) : DeclLaws site (.bounded site) (Closed site) where
  child h hc := h.imp fun _ h => h.child hc
  typed h ht := ⟨h.choose_spec.defined ht, fits_of_ty ht⟩
  aggregate h ht := Or.inl (h.ty ht)
  word := trivial
  field := by
    rintro m given y l ⟨Γ, h⟩ hfits hl g hg f hf
    have hm := hfits.ty rfl
    have hy : site.symbols.kind y = some .struct := h.defined hm
    have hl := settled_eq_ok.1 hl
    obtain ⟨f', hmem, hf', hfit⟩ := h.field hsite.complete hm hl hg
    cases hf.symm.trans hf'
    obtain ⟨l', hl', hsound⟩ := hsite.complete.layout hy
    cases hl.symm.trans hl'
    exact ⟨hsound.defined _ hmem, hfit, fun _ _ hroom => room_field hsite hy hl hmem hroom⟩
  elem := by
    rintro m es k u ⟨Γ, h⟩ hfits
    have hm := hfits.ty rfl
    have hu : u.Defined site.symbols.kind := (h.defined hm : (Ty.array k u).Defined _)
    obtain ⟨rfl, hes⟩ := h.elem hm
    exact ⟨hu, hes, fun _ _ _ _ hn hi hroom => room_elem (hsite.size? hu hn) hi hroom⟩
  stuck _ _ _ _ _ := trivial
  place _ := Or.inr fun _ _ => trivial
  large _ _ _ _ := trivial
  keeps h hs := (h.bounded hs).1
  later h hs hroom := hroom.imp fun _ hroom => ⟨hroom.1, hroom.2.mono (h.bounded hs).2⟩
  taken hs ht hn := ⟨_, hsite.size? ht hn, room_temp hs _⟩
  plain h := .plains h
  slot hroom h := .slot (.inl hroom.choose_spec.2.covers) h
  name h := .slot (.inr ⟨_, _, h, rfl⟩) (touches_lea _ rfl)
  offset hy hl hf := .plain (plain_offset hsite hy (settled_eq_ok.1 hl) hf)
  append h h' := h.append h'
  temp _ size := .temp size
  text _ t := .text t
  routine _ r := .routine r
  number hs := hs
  logic skip h h' := .logic skip h h'
  kept hr h := h.kept hr
  call h hargs := (makes_call hsite h.choose_spec fun a ha => (hargs a ha).value.makes).gives
  service := by
    rintro m b args ⟨Γ, h⟩ hout houtln hargs r
    have hmakes : ∀ l ∈ args.map (lower site), Makes site [] l.value :=
      forall_mem_map.2 fun a ha => (hargs a ha).value.makes
    cases h.node.rule with
    | builtin hroles =>
      have hlength := length_le_of_roles hroles ⟨hout, houtln⟩
      exact (makes_routineCall hmakes (by simpa using hlength) r).gives
  bind x mutable hroom := .bind hroom.choose_spec.2.covers x _ mutable
  lenient _ _ := trivial

theorem makes_value (hsite : site.Sound) {e : Expr}
    (h : e.Typed site.symbols Γ) : Makes site outs (lower site e).value :=
  ((declLaws_pieces hsite).gives_lower ⟨Γ, h⟩).value.makes

end Sigil.Code
