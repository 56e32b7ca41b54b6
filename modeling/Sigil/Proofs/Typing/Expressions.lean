import Sigil.Proofs.Laws.Expressions

/-!
# Checked expressions are well typed

If the table is complete and the types of the locals exist, an expression that passes its check
satisfies the typing rules at every node (`Check.yields_of_result`). The proof is by induction over the
expression: each form keeps that promise if its parts do (`Check.Sound`).
-/

namespace Sigil.Check

open Context Expr List Typing

variable {c : Context} {f : Frame} {e : Expr} {t : Ty} {hint : Option Ty} {r : Expr × Ty} {m : Mark}
  {op : BinOp} {s : String}

/-- What a check promises: every node is well typed, and the whole has the type that comes with it. -/
def Yields (c : Context) (f : Frame) (r : Expr × Ty) : Prop :=
  r.1.Typed c.symbols f.env ∧ r.1.ty = some r.2

/-- A type that is hinted at exists. -/
def Hinted (c : Context) (hint : Option Ty) : Prop :=
  ∀ t, hint = some t → t.Defined c.symbols.kind

theorem Yields.defined (h : Yields c f (e, t)) : t.Defined c.symbols.kind := by
  obtain ⟨t', ht', hd⟩ := h.1.node.ty
  have : t' = t := Option.some.inj (ht'.symm.trans h.2)
  exact this ▸ hd

theorem hinted_none : Hinted c none :=
  fun _ h => nomatch h

theorem hinted_some (h : t.Defined c.symbols.kind) : Hinted c (some t) :=
  fun _ ht => Option.some.inj ht ▸ h

theorem Hinted.filter (h : Hinted c hint) (p : Ty → Bool) : Hinted c (hint.filter p) :=
  fun t ht => h t (Option.filter_eq_some_iff.1 ht).1

/-- An expression whose node satisfies its rule and whose parts are well typed may get its type. -/
theorem yields_withTy (hr : Rule c.symbols f.env (e.withTy t))
    (ht : t.Defined c.symbols.kind) (hp : ∀ p ∈ e.children, p.Typed c.symbols f.env) :
    Yields c f (accepted e t) := by
  refine ⟨typed_iff.2 ⟨⟨hr, t, by simp [accepted], ht⟩, ?_⟩, by simp [accepted]⟩
  simpa [accepted] using hp

/-- An expression without parts whose node satisfies its rule may get its type. -/
theorem yields_leaf (hr : Rule c.symbols f.env (e.withTy t)) (ht : t.Defined c.symbols.kind)
    (hp : e.children = []) : Yields c f (accepted e t) :=
  yields_withTy hr ht fun _ h => absurd h (by simp [hp])

theorem yields_one {part : Expr} (hr : Rule c.symbols f.env (e.withTy t))
    (ht : t.Defined c.symbols.kind) (hp : e.children = [part]) (h : part.Typed c.symbols f.env) :
    Yields c f (accepted e t) :=
  yields_withTy hr ht (by simpa [hp] using h)

theorem yields_two {l r : Expr} (hr : Rule c.symbols f.env (e.withTy t))
    (ht : t.Defined c.symbols.kind) (hp : e.children = [l, r]) (hl : l.Typed c.symbols f.env)
    (hr' : r.Typed c.symbols f.env) : Yields c f (accepted e t) :=
  yields_withTy hr ht (by simpa [hp] using ⟨hl, hr'⟩)

/-- An expression that keeps the promise, whatever is hinted at. -/
def Sound (c : Context) (f : Frame) (k : Expr) : Prop :=
  ∀ hint, Hinted c hint → ∀ r, Result c f k hint r → Yields c f r

theorem Sound.fits {k : Expr} (hk : Sound c f k) (hd : t.Defined c.symbols.kind)
    (h : Coerced c f t e k) : e.Typed c.symbols f.env ∧ Fits t e := by
  obtain ⟨u, he, ha⟩ := h.result
  obtain ⟨htyped, hty⟩ := hk _ (hinted_some hd) _ he
  exact ⟨htyped, u, hty, ha⟩

/-! ## Literals and names -/

theorem FormsInt.yields {n : Word} (h : FormsInt m n hint r) : Yields c f r := by
  cases h with
  | hinted | plain => exact yields_leaf (.int rfl) trivial rfl
  | code hn => exact yields_leaf (.code rfl hn) trivial rfl

/-- A character of a text is well typed. -/
theorem typed_charLit (T : Symbols) (Γ : Env) (pos : Position) (b : UInt8) :
    (charLit ⟨pos, some .char⟩ b).Typed T Γ :=
  typed_iff.2 ⟨⟨.char rfl, .char, rfl, trivial⟩, fun _ h => nomatch h⟩

theorem length_bytesFrom (bs : ByteArray) (i : Nat) (r : List UInt8) :
    (ByteArray.toList.loop bs i r).length = r.length + (bs.size - i) := by
  induction i, r using ByteArray.toList.loop.induct bs with
  | case1 i r hi ih =>
    rw [ByteArray.toList.loop, if_pos hi, ih, length_cons]
    omega
  | case2 i r hi =>
    rw [ByteArray.toList.loop, if_neg hi, length_reverse]
    omega

theorem length_charElems {pos : Position} {length : Nat}
    (h : s.utf8ByteSize ≤ length) : (charElems pos s length).length = length := by
  have hs : s.toUTF8.toList.length = s.utf8ByteSize := by
    simpa [ByteArray.toList] using length_bytesFrom s.toUTF8 0 []
  simp only [charElems, length_map, length_append, length_replicate, hs]
  omega

theorem yields_charElems {length : Nat} (h : s.utf8ByteSize ≤ length) (m : Mark) :
    Yields c f (accepted (.arrayLit m (charElems m.pos s length)) (.array length .char)) := by
  have helems : ∀ e ∈ charElems m.pos s length, ∃ b, e = .charLit ⟨m.pos, some .char⟩ b := by
    intro e he
    obtain ⟨b, -, rfl⟩ := mem_map.1 he
    exact ⟨b, rfl⟩
  refine yields_withTy (.arrayLit (t := .char) ?_ (by rw [length_charElems h])) trivial ?_
  · intro e he
    obtain ⟨b, rfl⟩ := helems e he
    exact ⟨.char, rfl, rfl⟩
  · intro e he
    obtain ⟨b, rfl⟩ := helems e he
    exact typed_charLit _ _ _ _

theorem FormsNeg.yields {N : Option Ty → Expr × Ty → Prop}
    (hN : ∀ hint, Hinted c hint → ∀ r, N hint r → Yields c f r) (hh : Hinted c hint)
    (h : FormsNeg m N hint r) : Yields c f r := by
  obtain ⟨isOpen, e, t, he, hi, rfl⟩ := h
  have he := hN _ (fun t ht => ?_) _ he
  · obtain ⟨bits, signed, rfl⟩ := Ty.isInt_iff.1 hi
    exact yields_one (.neg he.2 rfl) trivial rfl he.1
  · rcases Option.or_eq_some_iff.1 ht with ht | ⟨-, ht⟩
    · exact hh.filter _ t ht
    · split at ht <;> cases ht
      trivial

/-- A constant that fits its type has the type of its kind. -/
theorem FormsConst.yields {g : GlobalConst} (hg : g.value.check g.ty = .ok ()) (hh : Hinted c hint)
    (h : FormsConst m hint g r) : Yields c f r := by
  -- The check leaves only types that go with the kind of the value.
  obtain ⟨ty, value⟩ := g
  cases value with
  | int n =>
    cases ty with
    | none =>
      simp only [FormsConst] at h
      split at h
      · exact h.yields (fun _ _ _ h => h.yields) hh
      · exact h.yields
    | some t =>
      cases h
      cases t with
      | int bits signed => exact yields_leaf (.int rfl) trivial rfl
      | _ => cases hg
  | bool b =>
    cases h
    rcases ty with _ | t
    · exact yields_leaf (.bool rfl) trivial rfl
    · cases t with
      | bool => exact yields_leaf (.bool rfl) trivial rfl
      | _ => cases hg
  | char b =>
    cases h
    rcases ty with _ | t
    · exact yields_leaf (.char rfl) trivial rfl
    · cases t with
      | char => exact yields_leaf (.char rfl) trivial rfl
      | _ => cases hg
  | str s =>
    cases h
    rcases ty with _ | t
    · exact yields_leaf (.str rfl) trivial rfl
    · cases t with
      | str => exact yields_leaf (.str rfl) trivial rfl
      | _ => cases hg

/-! ## Operators -/

theorem Operands.yields {k k' : Expr} (hk : Sound c f k) (hk' : Sound c f k') (hh : Hinted c hint)
    {x y : Expr × Ty} (h : Operands c f k k' hint x y) : Yields c f x ∧ Yields c f y := by
  rcases h with ⟨hx, hy⟩ | ⟨hy, hx⟩
  · have hx := hk _ hh _ hx
    exact ⟨hx, hk' _ (hinted_some hx.defined) _ hy⟩
  · have hy := hk' _ hh _ hy
    exact ⟨hk _ (hinted_some hy.defined) _ hx, hy⟩

/-- The operands are of one type, or can be compared. -/
theorem FormsBinary.yields {k k' : Expr} (hk : Sound c f k) (hk' : Sound c f k') (hh : Hinted c hint)
    (h : FormsBinary c f m op k k' hint r) : Yields c f r := by
  cases h with
  | logic hop hl hr =>
    have hl := hk _ (hinted_some (t := .bool) trivial) _ hl
    have hr := hk' _ (hinted_some (t := .bool) trivial) _ hr
    exact yields_two (.logic hop hl.2 hr.2 rfl) trivial rfl hl.1 hr.1
  | arith hop h ho =>
    obtain ⟨hl, hr⟩ := h.yields hk hk' (hh.filter _)
    exact yields_two (.arith hop ho hl.2 hr.2 rfl) hl.defined rfl hl.1 hr.1
  | @compare l' r' lt rt hop h ho ha =>
    obtain ⟨hl, hr⟩ := h.yields hk hk' hinted_none
    have hm : lt.Matches rt :=
      ha.elim Ty.matches_of_assignable fun h => (Ty.matches_of_assignable h).symm
    -- Types with an order are comparable, and match only themselves.
    have hcmp : lt.isComparable = true := by
      rcases ho with ho | ho
      · cases lt <;> simp_all [Ty.isOrdered, Ty.isComparable]
      · exact ho.1
    have hord : op = .eq ∨ op = .ne ∨ lt.isOrdered = true ∧ rt = lt := by
      rcases ho with ho | ho
      · exact Or.inr (Or.inr ⟨ho, Ty.eq_of_isOrdered ho ha⟩)
      · exact ho.2.imp_right Or.inl
    exact yields_two (.compare hop hl.2 hr.2 hm hcmp hord rfl) trivial rfl hl.1 hr.1

/-! ## Aggregates and calls -/

/-- The layout of a struct that exists is well formed. -/
theorem sound_layout (hc : c.symbols.Complete) {l : Layout}
    (hs : (Ty.struct s).Defined c.symbols.kind)
    (hl : c.symbols.ask (c.symbols.layout s) = .ok l) : l.Sound c.symbols.kind := by
  obtain ⟨l', hl', hsound⟩ := hc.layout hs
  rw [hl'] at hl
  cases hl
  exact hsound

/-- A builtin that accepts a number of arguments has a role for each of them. -/
theorem length_of_roles {b : Builtin} {n : Nat} {rs : List Role} (h : roles b n = .ok rs) :
    rs.length = n := by
  have hexact : ∀ rs' : List Role, roles.exactly n rs' = .ok rs → rs.length = n := by
    intro rs' h'
    unfold roles.exactly at h'
    split at h' <;> cases h'
    next hn => exact hn.symm
  cases b <;> simp only [roles] at h
  case output | outputln =>
    split at h <;> cases h
    simp
    omega
  all_goals exact hexact _ h

theorem Role.hinted (role : Role) : Hinted c role.hint := by
  intro t ht
  cases role <;> cases ht <;> trivial

theorem yields_array {n : Nat} (hd : t.Defined c.symbols.kind) {es : List Expr} (hn : es.length = n)
    (h : ∀ e ∈ es, e.Typed c.symbols f.env ∧ Fits t e) (m : Mark) :
    Yields c f (accepted (.arrayLit m es) (.array n t)) :=
  yields_withTy (.arrayLit (fun e he => (h e he).2) (hn ▸ rfl)) hd fun e he => (h e he).1

/-! ## All forms -/

/-- An expression that passes its check is well typed. -/
theorem yields_of_result (hc : c.symbols.Complete) (hf : f.env.Defined c.symbols.kind) (e : Expr) :
    Sound c f e := by
  induction e using by_children with
  | h e ih =>
    intro hint hh r h
    replace h := h.forms
    cases e with
    | intLit m n => exact FormsInt.yields h
    | boolLit m b =>
      cases h
      exact yields_leaf (.bool rfl) trivial rfl
    | charLit m b =>
      cases h
      exact yields_leaf (.char rfl) trivial rfl
    | enumLit m x n =>
      cases h
      exact yields_leaf (.enumLit rfl) trivial rfl
    | strLit m s =>
      rcases h with rfl | ⟨length, -, hlen, rfl⟩
      · exact yields_leaf (.str rfl) trivial rfl
      · exact yields_charElems hlen m
    | nil m =>
      obtain ⟨t, rfl | rfl, rfl⟩ := h
      · exact yields_leaf (.nil rfl) (hh _ rfl) rfl
      · exact yields_leaf (.nil rfl) trivial rfl
    | zeroed m =>
      obtain ⟨t, rfl, rfl⟩ := h
      exact yields_leaf (.zeroed rfl) (hh t rfl) rfl
    | ident m x =>
      rcases h with ⟨slot, hslot, rfl⟩ | ⟨-, hkind, g, hask, hg⟩
      · have hx : f.env x = some slot.ty := by simp [Frame.env, hslot]
        exact yields_leaf (.ident hx rfl) (hf x _ hx) rfl
      · obtain ⟨g', hg', hcheck⟩ := hc.globalConst hkind
        cases hg'.symm.trans hask
        exact hg.yields hcheck hh
    | sizeof m type =>
      obtain ⟨size, -, rfl⟩ := h
      have ht : ((hint.filter Ty.isInt).getD .uint).isInt = true := by
        cases h : hint.filter Ty.isInt with
        | none => rfl
        | some t => exact (Option.filter_eq_some_iff.1 h).2
      obtain ⟨bits, signed, hint'⟩ := Ty.isInt_iff.1 ht
      rw [hint']
      exact yields_leaf (.int rfl) trivial rfl
    | binary m op l r => exact FormsBinary.yields (ih l left_mem_children) (ih r right_mem_children) hh h
    | unary m op e =>
      have he := ih e mem_cons_self
      cases op with
      | neg => exact FormsNeg.yields he hh h
      | not =>
        obtain ⟨e', he', rfl⟩ := h
        have he' := he _ (hinted_some (t := .bool) trivial) _ he'
        exact yields_one (.not he'.2 rfl) trivial rfl he'.1
    | addrOf m e =>
      obtain ⟨e', t, inner, hinner, he', hplace, rfl⟩ := h
      have he' := ih e mem_cons_self inner (fun u hu => hh (.ptr u) (hinner u hu)) _ he'
      exact yields_one (.addrOf hplace he'.2 rfl) he'.defined rfl he'.1
    | deref m e =>
      obtain ⟨e', t, he', hv, rfl⟩ := h
      have he' := ih e mem_cons_self _ (fun u hu => ?_) _ he'
      · exact yields_one (.deref hv he'.2 rfl) he'.defined rfl he'.1
      · obtain ⟨v, hv, rfl⟩ := Option.map_eq_some_iff.1 hu
        exact hh v hv
    | member m e x =>
      rcases h with ⟨enum, n, rfl⟩ | ⟨e', t, base, s, layout, fld, he', hbase, hl, hfld, rfl⟩
      · exact yields_leaf (.enumLit rfl) trivial rfl
      · have he' := ih e mem_cons_self none hinted_none _ he'
        have hd : (Ty.struct s).Defined c.symbols.kind := by
          rcases hbase with ⟨rfl, -⟩ | ⟨rfl, -⟩ <;> exact he'.defined
        -- What is read from is the part itself or, if that is a pointer to a struct, its target.
        have hread : Yields c f (base, .struct s) := by
          rcases hbase with ⟨rfl, rfl⟩ | ⟨rfl, rfl⟩
          · exact he'
          · exact yields_one (e := .deref ⟨m.pos, none⟩ e') (.deref (by simp) he'.2 rfl) hd rfl he'.1
        exact yields_one (.member hread.2 hl hfld rfl)
          ((sound_layout hc hd hl).defined fld (mem_of_find?_eq_some hfld)) rfl hread.1
    | index m e i =>
      obtain ⟨b, t, i', it, u, hb, hi, hit, hu, rfl⟩ := h
      have hb := ih e mem_cons_self none hinted_none _ hb
      have hi := ih i (by simp [children]) _ (hinted_some (t := .uint) trivial) _ hi
      obtain ⟨bits, signed, rfl⟩ := Ty.isInt_iff.1 hit
      exact yields_two (.index hb.2 hu hi.2 rfl) (hb.defined.elem hu) rfl hb.1 hi.1
    | structLit m fields =>
      obtain ⟨s, layout, es, rfl, hl, hes, rfl⟩ := h
      have hd := (sound_layout hc (hh _ rfl) hl).defined
      have hfits : Forall₂ (fun (g : String × Expr) (fld : Field) => g.1 = fld.name ∧
          g.2.Typed c.symbols f.env ∧ Fits fld.ty g.2) es layout.fields := by
        refine forall₂_of_mem hes ?_
        rintro g fld - hfld ⟨hname, k, hk, hcoerced⟩
        exact ⟨hname, (ih k hk).fits (hd fld hfld) hcoerced⟩
      refine yields_withTy (.structLit hl (hfits.imp fun g fld h => ⟨h.1, h.2.2⟩) rfl) (hh _ rfl) ?_
      intro e he
      obtain ⟨g, hgm, rfl⟩ := mem_map.1 he
      obtain ⟨fld, -, h⟩ := forall₂_left hfits hgm
      exact h.2.1
    | arrayLit m ks =>
      have hfits : ∀ {t ks' es}, ks' ⊆ ks → t.Defined c.symbols.kind → Forall₂ (Coerced c f t) es ks' →
          ∀ e ∈ es, e.Typed c.symbols f.env ∧ Fits t e := by
        intro t ks' es hks hd hes e he
        obtain ⟨k, hk, h⟩ := forall₂_left hes he
        exact (ih k (hks hk)).fits hd h
      rcases h with ⟨length, elem, rfl, rfl | ⟨hlen, es, hes, rfl⟩⟩ |
        ⟨k, rest, e, elem, es, rfl, he, hes, rfl⟩
      · exact yields_leaf (.zeroed rfl) (hh _ rfl) rfl
      · have hd : elem.Defined c.symbols.kind := hh (.array length elem) rfl
        exact yields_array hd (hes.length_eq.trans hlen) (hfits (Subset.refl _) hd hes) m
      · -- Without a hint the first element decides on the type of all.
        have he := ih k mem_cons_self none hinted_none _ he
        refine yields_array he.defined (congrArg (· + 1) hes.length_eq) ?_ m
        exact forall_mem_cons.2
          ⟨⟨he.1, elem, he.2, by simp⟩, hfits (subset_cons_self _ _) he.defined hes⟩
    | cast m type e =>
      obtain ⟨target, e', source, htarget, he', hcast, rfl⟩ := h
      have hmeans : type.Means c.symbols.kind target :=
        of_ask (Names.keeps_resolve (c.sound_names f) type _) htarget
      have he' := ih e mem_cons_self _ (fun u hu => ?_) _ he'
      · exact yields_one (.cast hmeans he'.2 hcast rfl) hmeans.defined rfl he'.1
      · split at hu <;> cases hu
        exact hmeans.defined
    | call m callee args =>
      obtain ⟨m', x, sig, es, rfl, hlocal, hsig, hlen, hes, rfl⟩ := h
      have hdef := hc.funcs hsig
      have hfits := forall₂_of_mem hes fun e a _ ha h =>
        (ih a.1 (of_mem_zip ha).1).fits (hdef.params _ (of_mem_zip ha).2) h
      refine yields_withTy (.call (Frame.env_eq_none hlocal) hsig ?_ rfl) hdef.ret fun e he => ?_
      · exact forall₂_zip hlen (hfits.imp fun e a h => h.2)
      · obtain ⟨a, -, h⟩ := forall₂_left hfits he
        exact h.1
    | builtin m b args =>
      obtain ⟨rs, es, hrs, hes, rfl⟩ := h
      have hargs : Forall₂ (fun e (a : Expr × Role) => e.Typed c.symbols f.env ∧
          ∃ t, e.ty = some t ∧ a.2.accepts t = true) es (args.zip rs) := by
        refine forall₂_of_mem hes ?_
        rintro e a - ha ⟨t, h, hrole⟩
        have hyields := ih a.1 (of_mem_zip ha).1 _ a.2.hinted _ h
        exact ⟨hyields.1, t, hyields.2, hrole⟩
      have hlen : args.length = rs.length := (length_of_roles hrs).symm
      have hes' : Forall₂ (fun (e : Expr) (r : Role) => ∃ t, e.ty = some t ∧ r.accepts t = true) es rs :=
        forall₂_zip hlen (hargs.imp fun e a h => h.2)
      have hn : roles b es.length = .ok rs := by rw [hes'.length_eq, ← hlen, hrs]
      refine yields_withTy (.builtin hn hes' rfl) (by cases b <;> trivial) fun e he => ?_
      obtain ⟨a, -, h⟩ := forall₂_left hargs he
      exact h.1

theorem yields_expr (hc : c.symbols.Complete) (hf : f.env.Defined c.symbols.kind) (e : Expr) :
    Checks f (Yields c f) (expr c e none) :=
  (checks_expr c f e none).mono fun r hr => yields_of_result hc hf e none hinted_none r hr

end Sigil.Check
