import Mathlib.Data.List.Forall2
import Sigil.Proofs.Outcome
import Sigil.Proofs.Sizes

/-!
# Evaluation

Working out layouts and constants only ever adds to what has been worked out, and whatever is kept is
well formed: the fields of a layout have distinct names and types whose structs exist, they lie side by
side, and a constant fits its type. While a name is in progress nothing is entered for it, so what is kept
stays as it is (`Memo.Later`). Whatever goes wrong, it is not the use of a freed pointer (`Fault.Sober`). All
of this is shown in one pass over evaluation (`Eval.Keeps`).
-/

namespace Sigil

open Attempt List Store

variable {x : String} {t : Ty}

/-! ## Faults -/

/-- The name that is said to be used after being freed. -/
def TypeError.freed? : TypeError → Option String
  | .useAfterFree x => some x
  | _ => none

/-- Another fault than the use of a freed pointer. -/
def Fault.Sober : Fault → Prop
  | .error e => e.freed? = none
  | .trap => True

namespace Constant

variable {v : Constant}

/-- No fault of an operation on constants is about a free. -/
theorem sober_binary {op : BinOp} {l r : Constant} {fault : Fault} (h : l.binary op r = .error fault) :
    fault.Sober := by
  have hexact : ∀ a n : Int, exact a n = .error fault → fault.Sober := by
    intro a n h
    unfold exact at h
    split at h <;> cases h
    rfl
  have hdivide : ∀ (f : Int → Int → Int) (a b : Int), divide f a b = .error fault → fault.Sober := by
    intro f a b h
    unfold divide at h
    split at h
    · cases h
      rfl
    · split at h <;> cases h
      trivial
  unfold binary at h
  split at h
  · unfold binaryBool at h
    split at h <;> cases h
    rfl
  · split at h
    · unfold binaryInt at h
      split at h
      any_goals exact hexact _ _ h
      any_goals exact hdivide _ _ _ h
      all_goals cases h
      all_goals rfl
    · cases h
      rfl

theorem sober_unary {op : UnOp} {fault : Fault} (h : v.unary op = .error fault) :
    fault.Sober := by
  unfold unary at h
  split at h
  · split at h <;> cases h
    rfl
  · cases h
  · cases h
    rfl

theorem sober_toChar {fault : Fault} (h : v.toChar = .error fault) : fault.Sober := by
  unfold toChar at h
  split at h <;> cases h
  rfl

theorem sober_toInt {fault : Fault} (h : v.toInt = .error fault) : fault.Sober := by
  unfold toInt at h
  split at h
  · cases h
  · split at h <;> cases h
    rfl

theorem freed?_of_check {ty : Option Ty} {e : TypeError} (h : v.check ty = .error e) :
    e.freed? = none := by
  unfold check at h
  split at h
  · split at h <;> cases h
    rfl
  · cases h
  · split at h
    · split at h <;> cases h
      rfl
    · cases h
  all_goals cases h
  all_goals rfl

end Constant

/-! ## Types and layouts -/

/-- The structs that a type mentions exist. -/
def Ty.Defined (kind : String → Option SymbolKind) : Ty → Prop
  | .ptr t => t.Defined kind
  | .array _ t => t.Defined kind
  | .struct x => kind x = some .struct
  | _ => True

/-- A type is the one that is written, where the lengths of arrays are left open. -/
inductive TypeExpr.Means (kind : String → Option SymbolKind) : TypeExpr → Ty → Prop where
  | int {bits : Nat} {signed : Option Bool} :
    Means kind (.int bits signed) (.int bits (signed.getD false))
  | char : Means kind .char .char
  | bool : Means kind .bool .bool
  | str : Means kind .str .str
  | void : Means kind .void .void
  | struct {x : String} (hx : kind x = some .struct) : Means kind (.named x) (.struct x)
  | enum {x : String} (hx : kind x = some .enum) : Means kind (.named x) (.enum x)
  | ptr {type : TypeExpr} {t : Ty} (h : Means kind type t) : Means kind (.ptr type) (.ptr t)
  | array {length : Expr} {type : TypeExpr} {n : Nat} {t : Ty} (h : Means kind type t) :
    Means kind (.array length type) (.array n t)

/-- What is written exists. -/
theorem TypeExpr.Means.defined {kind : String → Option SymbolKind} {type : TypeExpr}
    (h : type.Means kind t) : t.Defined kind := by
  induction h with
  | struct hx => exact hx
  | ptr _ ih => exact ih
  | array _ ih => exact ih
  | _ => trivial

/-- The names of the fields are distinct, and their types exist. -/
structure Layout.Sound (kind : String → Option SymbolKind) (l : Layout) : Prop where
  distinct : (l.fields.map (·.name)).Nodup
  defined : ∀ f ∈ l.fields, f.ty.Defined kind

/-- What has been worked out is well formed. -/
structure Memo.Sound (kind : String → Option SymbolKind) (s : Memo) : Prop where
  layout : ∀ {x l}, s.layouts.get? x = some l → l.Sound kind
  constant : ∀ {x g}, s.constants.get? x = some g → g.value.check g.ty = .ok ()

/-- Which names are in progress does not matter. -/
theorem Memo.Sound.inProgress {kind : String → Option SymbolKind} {s : Memo} (h : s.Sound kind)
    (names : List String) : ({ s with inProgress := names } : Memo).Sound kind :=
  ⟨h.layout, h.constant⟩

/-- A later state. What is kept stays, nothing has been entered for a name in progress, and what is kept is as
well formed as it was. -/
structure Memo.Later (kind : String → Option SymbolKind) (s s' : Memo) : Prop where
  within : s.Within s'
  inProgress : s'.inProgress = s.inProgress
  pending : ∀ (k : Store) (x : String), x ∈ s.inProgress → k.get? s x = none → k.get? s' x = none
  sound : s.Sound kind → s'.Sound kind
  packed : Packed s.layouts → Packed s'.layouts

namespace Assoc

variable {β : Type} {key other : String} {value : β} {m : Assoc β}

theorem get?_put_eq_some {v : β} (h : get? other (put key value m) = some v) :
    v = value ∨ get? other m = some v := by
  by_cases hk : key = other
  · subst hk
    rw [get?_put_self] at h
    exact Or.inl (Option.some.inj h).symm
  · rw [get?_put_of_ne hk] at h
    exact Or.inr h

/-- A binding after `putNew` is the new one or an old one. -/
theorem of_get?_putNew {v : β} (h : get? other (putNew key value m) = some v) :
    (key = other ∧ v = value) ∨ get? other m = some v := by
  unfold putNew at h
  split at h
  · exact Or.inr h
  · rw [get?_append, Option.or_eq_some_iff] at h
    rcases h with h | ⟨-, h⟩
    · exact Or.inr h
    · by_cases hk : key = other
      · simp only [get?, hk, if_true, Option.some.injEq] at h
        exact Or.inl ⟨hk, h.symm⟩
      · simp [get?, hk] at h

theorem has_putNew (h : has other m = true ∨ other = key) : has other (putNew key value m) = true := by
  unfold putNew
  split
  · next hk => exact h.elim id (fun e => e ▸ hk)
  · rw [has, get?_append, Option.isSome_or, Bool.or_eq_true]
    rcases h with h | rfl
    · exact Or.inl h
    · exact Or.inr (by simp [get?])

end Assoc

namespace Memo

variable {kind : String → Option SymbolKind} {s s' s'' : Memo} {x : String}

theorem Later.refl (s : Memo) : s.Later kind s :=
  ⟨.refl s, rfl, fun _ _ _ h => h, id, id⟩

theorem Later.trans (h : s.Later kind s') (h' : s'.Later kind s'') : s.Later kind s'' :=
  ⟨h.within.trans h'.within, h'.inProgress.trans h.inProgress,
    fun k x hx hnone => h'.pending k x (h.inProgress ▸ hx) (h.pending k x hx hnone),
    fun hs => h'.sound (h.sound hs), fun hs => h'.packed (h.packed hs)⟩

/-- A name is in progress for a while. -/
theorem Later.during (h : ({ s with inProgress := x :: s.inProgress } : Memo).Later kind s') :
    s.Later kind { s' with inProgress := s'.inProgress.erase x } := by
  refine ⟨?_, ?_, fun k y hy hnone => ?_, fun hs => ?_, h.packed⟩
  · intro k y v hv
    rw [get?_inProgress]
    exact h.within k y v (by rwa [get?_inProgress])
  · change s'.inProgress.erase x = s.inProgress
    rw [h.inProgress, erase_cons_head]
  · rw [get?_inProgress]
    exact h.pending k y (mem_cons_of_mem _ hy) (by rwa [get?_inProgress])
  · exact (h.sound (hs.inProgress _)).inProgress _

end Memo

/-- What is kept is well formed. -/
def Store.Fine (kind : String → Option SymbolKind) (s : Memo) : (k : Store) → k.Value → Prop
  | layouts, l => l.Sound kind ∧ l.Packed s.layouts
  | constants, g => g.value.check g.ty = .ok ()

/-- Something well formed is kept for a name that is not in progress. -/
theorem Memo.later_put {kind : String → Option SymbolKind} {s : Memo} {k : Store} {v : k.Value}
    (hv : k.Fine kind s v) (hnone : k.get? s x = none) (hx : x ∉ s.inProgress) :
    s.Later kind (k.put s x v) := by
  have hwithin : s.Within (k.put s x v) := by
    intro j y w hw
    refine (get?_put_of_ne ?_).trans hw
    rintro rfl rfl
    rw [hnone] at hw
    cases hw
  refine ⟨hwithin, inProgress_put k s x v, fun j y hy hynone => ?_, fun hs => ?_, fun hs => ?_⟩
  · refine (get?_put_of_ne ?_).trans hynone
    rintro - rfl
    exact hx hy
  · cases k with
    | layouts =>
      refine ⟨fun hy => ?_, hs.constant⟩
      rcases Assoc.get?_put_eq_some hy with rfl | hy
      · exact hv.1
      · exact hs.layout hy
    | constants =>
      refine ⟨hs.layout, fun hy => ?_⟩
      rcases Assoc.get?_put_eq_some hy with rfl | hy
      · exact hv
      · exact hs.constant hy
  · cases k with
    | layouts =>
      intro y l hy
      rcases Assoc.get?_put_eq_some hy with rfl | hy
      · exact hv.2.within hwithin
      · exact (hs hy).within hwithin
    | constants => exact hs

/-! ## Evaluation -/

namespace Eval

variable {kind : String → Option SymbolKind} {α β : Type} {s : Memo} {P : α → Memo → Prop}
variable {e : TypeError} {Q : β → Memo → Prop}

/-- From `s`, an evaluation adds to what has been worked out, its value satisfies `Q` with what is kept then,
and it does not fail for the use of a freed pointer. -/
def Keeps (kind : String → Option SymbolKind) (s : Memo) (Q : α → Memo → Prop) (x : Eval α) : Prop :=
  x.Ends s (fun a s' => s.Later kind s' ∧ Q a s') fun fault s' => s.Later kind s' ∧ fault.Sober

theorem keeps_pure {a : α} (h : P a s) : Keeps kind s P (pure a : Eval α) :=
  ends_pure ⟨.refl s, h⟩

theorem keeps_reject (he : e.freed? = none) : Keeps kind s P (reject e : Eval α) :=
  ends_throw ⟨.refl s, he⟩

/-- Nothing happens after a rejection. -/
theorem keeps_reject_bind (he : e.freed? = none) (f : α → Eval β) :
    Keeps kind s Q (reject e >>= f) :=
  ends_bind (ends_throw ⟨.refl s, he⟩)

theorem Keeps.bind {x : Eval α} {f : α → Eval β} (hx : x.Keeps kind s P)
    (hf : ∀ a s1, s.Later kind s1 → P a s1 → (f a).Keeps kind s1 Q) : (x >>= f).Keeps kind s Q := by
  refine ends_bind (Attempt.Ends.mono hx ?_ fun _ _ he => he)
  rintro a s1 ⟨hlater, ha⟩
  exact Attempt.Ends.mono (hf a s1 hlater ha) (fun _ _ hb => ⟨hlater.trans hb.1, hb.2⟩)
    fun _ _ he => ⟨hlater.trans he.1, he.2⟩

theorem Keeps.mono {Q : α → Memo → Prop} {x : Eval α} (hx : x.Keeps kind s P)
    (h : ∀ a s', P a s' → Q a s') : x.Keeps kind s Q :=
  Attempt.Ends.mono hx (fun a s' ha => ⟨ha.1, h a s' ha.2⟩) fun _ _ he => he

theorem keeps_lift {r : Except Fault α} (h : ∀ fault, r = .error fault → fault.Sober) :
    Keeps kind s (fun _ _ => True) (lift r) := by
  cases r with
  | ok a => exact keeps_pure trivial
  | error fault => exact ends_throw ⟨.refl s, h fault rfl⟩

/-- Whatever goes wrong, it is not the use of a freed pointer. -/
def Sober (x : Eval α) : Prop :=
  ∀ s fault, (x s).1 = .error fault → fault.Sober

theorem sober_of_keeps {x : Eval α} {P : Memo → α → Memo → Prop} (h : ∀ s, x.Keeps kind s (P s)) :
    x.Sober := by
  intro s fault hr
  have hs := h s
  unfold Keeps Ends at hs
  rcases hx : x s with ⟨r, s'⟩
  rw [hx] at hs hr
  cases hr
  exact hs.2

end Eval

/-- What is asked of the meaning of names: what is worked out for them is kept. -/
structure Names.Sound (names : Names) : Prop where
  constant : ∀ x s, (names.constant x).Keeps names.kind s fun _ _ => True
  layout : ∀ x s, (names.layout x).Keeps names.kind s fun l s' => s'.layouts.get? x = some l

namespace Names

open Eval

variable {names : Names} {kind : String → Option SymbolKind} {s : Memo}

/-- The size of a type is the one by the layouts that are kept then. -/
theorem keeps_sizeOf (h : names.Sound) (t : Ty) (s : Memo) :
    (names.sizeOf t).Keeps names.kind s fun n s' => t.sizeIn? s'.layouts = some n := by
  induction t with
  | array length elem ih =>
    refine ih.bind fun size s1 _ hsize => ?_
    split
    · next hle => exact keeps_pure (Ty.sizeIn?_array.2 ⟨size, hsize, rfl, hle⟩)
    · exact keeps_reject rfl
  | struct x =>
    refine (h.layout x s).bind fun l s1 _ hl => keeps_pure ?_
    exact Option.map_eq_some_iff.2 ⟨l, hl, rfl⟩
  | _ => exact keeps_pure rfl

theorem keeps_arrayLength (v : Constant) : (arrayLength v).Keeps kind s fun _ _ => True := by
  unfold arrayLength
  split
  · split
    · exact keeps_pure trivial
    · exact keeps_reject rfl
  · exact keeps_reject rfl

theorem keeps_present (v : Option Constant) : (present v).Keeps kind s fun _ _ => True := by
  cases v with
  | none => exact keeps_reject rfl
  | some v => exact keeps_pure trivial

theorem keeps_namedType (x : String) :
    (names.namedType x).Keeps names.kind s fun t _ => (TypeExpr.named x).Means names.kind t := by
  unfold namedType
  split
  · next hx => exact keeps_pure (.struct hx)
  · next hx => exact keeps_pure (.enum hx)
  · exact keeps_reject rfl
  · exact keeps_reject rfl

mutual

/-- By the form of the expression: a constant is evaluated without spoiling the memo. -/
theorem keeps_eval (h : names.Sound) (e : Expr) (s : Memo) :
    (names.eval e).Keeps names.kind s fun _ _ => True := by
  match e with
  | .intLit _ _ | .boolLit _ _ | .charLit _ _ | .strLit _ _ | .enumLit _ _ _ =>
    unfold eval
    exact keeps_pure trivial
  | .ident _ x =>
    unfold eval
    exact (h.constant x s).bind fun v _ _ _ => keeps_present v
  | .member _ base _ =>
    -- Only a variant of an enum, which is written like a field of a name, is a constant.
    cases base with
    | ident =>
      unfold eval
      exact keeps_present _
    | _ =>
      unfold eval
      exact keeps_reject rfl
  | .sizeof _ t =>
    unfold eval
    refine (keeps_resolve h t s).bind fun t s1 _ _ => ?_
    exact (keeps_sizeOf h t s1).bind fun _ _ _ _ => keeps_pure trivial
  | .cast _ t e =>
    have he := keeps_eval h e s
    cases t with
    | char =>
      unfold eval
      exact he.bind fun v _ _ _ => keeps_lift fun _ => Constant.sober_toChar
    | int =>
      unfold eval
      exact he.bind fun v _ _ _ => keeps_lift fun _ => Constant.sober_toInt
    | _ =>
      unfold eval
      exact keeps_reject rfl
  | .unary _ op e =>
    unfold eval
    exact (keeps_eval h e s).bind fun v _ _ _ => keeps_lift fun _ => Constant.sober_unary
  | .binary _ op l r =>
    unfold eval
    refine (keeps_eval h l s).bind fun a s1 _ _ => ?_
    exact (keeps_eval h r s1).bind fun b _ _ _ => keeps_lift fun _ => Constant.sober_binary
  | .nil _ | .addrOf _ _ | .deref _ _ | .call _ _ _ | .index _ _ _ | .structLit _ _ | .arrayLit _ _
  | .builtin _ _ _ | .zeroed _ =>
    unfold eval
    exact keeps_reject rfl

/-- By the form of the type: what it resolves to is what it means. -/
theorem keeps_resolve (h : names.Sound) (t : TypeExpr) (s : Memo) :
    (names.resolve t).Keeps names.kind s fun ty _ => t.Means names.kind ty := by
  match t with
  | .int _ _ =>
    unfold resolve
    exact keeps_pure .int
  | .char =>
    unfold resolve
    exact keeps_pure .char
  | .bool =>
    unfold resolve
    exact keeps_pure .bool
  | .str =>
    unfold resolve
    exact keeps_pure .str
  | .void =>
    unfold resolve
    exact keeps_pure .void
  | .named x =>
    unfold resolve
    exact keeps_namedType x
  | .ptr t =>
    unfold resolve
    exact (keeps_resolve h t s).bind fun t _ _ ht => keeps_pure (.ptr ht)
  | .array length elem =>
    unfold resolve
    refine (keeps_eval h length s).bind fun v s1 _ _ => ?_
    refine (keeps_arrayLength v).bind fun n s2 _ _ => ?_
    exact (keeps_resolve h elem s2).bind fun t _ _ ht => keeps_pure (.array ht)

end

end Names

/-! ## Layouts and constants -/

/-- A field with a new name and a type that exists can come next. -/
theorem Layout.Sound.append {kind : String → Option SymbolKind} {l : Layout} (h : l.Sound kind)
    (hx : (l.field? x).isSome = false) (ht : t.Defined kind) (size : Nat) :
    (l.append x t size).Sound kind := by
  have hnew : ∀ f ∈ l.fields, f.name ≠ x := by
    simpa [Layout.field?] using hx
  constructor
  · simp only [Layout.append, map_append, map_cons, map_nil]
    refine nodup_append.2 ⟨h.distinct, by simp, ?_⟩
    rintro a ha b hb rfl
    obtain ⟨f, hf, rfl⟩ := mem_map.1 ha
    exact hnew f hf (mem_singleton.1 hb)
  · intro f hf
    rcases mem_append.1 hf with hf | hf
    · exact h.defined f hf
    · rw [mem_singleton.1 hf]
      exact ht

namespace Symbols

open Eval

variable {names : Names} {kind : String → Option SymbolKind} {s : Memo}

/-- Each field is put behind the ones before it, so the layout stays sound and packed. -/
theorem keeps_layoutFields (h : names.Sound) (x : String) {done : Layout} (hd : done.Sound names.kind)
    (hpacked : done.Packed s.layouts) (fields : List (String × TypeExpr)) :
    (layoutFields names x done fields).Keeps names.kind s fun l s' =>
      l.Sound names.kind ∧ l.Packed s'.layouts := by
  -- The layout so far is the invariant: a field is added only if its name is new.
  induction fields generalizing done s with
  | nil => exact keeps_pure ⟨hd, hpacked⟩
  | cons field rest ih =>
    obtain ⟨f, t⟩ := field
    unfold layoutFields
    split
    · exact keeps_reject_bind rfl _
    · next hf =>
      refine (Names.keeps_resolve h t s).bind fun ty s1 hlater hty => ?_
      refine (Names.keeps_sizeOf h ty s1).bind fun size s2 hlater' hsize => ?_
      dsimp only
      split
      · exact keeps_reject_bind rfl _
      · next hfit =>
        have hpacked2 := hpacked.within (hlater.trans hlater').within
        exact ih (hd.append (by simpa using hf) hty.defined size)
          (hpacked2.append hsize (Nat.le_of_not_lt hfit) f)

theorem keeps_checked (ty : Option Ty) (v : Constant) :
    Keeps kind s (fun (g : GlobalConst) _ => g.value.check g.ty = .ok ())
      (match v.check ty with
        | .ok () => pure ⟨ty, v⟩
        | .error e => Eval.reject e) := by
  split
  · next hv => exact keeps_pure hv
  · next he => exact keeps_reject (Constant.freed?_of_check he)

theorem keeps_constantOf (h : names.Sound) (type : Option TypeExpr) (value : Expr) (s : Memo) :
    (constantOf names type value).Keeps names.kind s fun g _ => g.value.check g.ty = .ok () := by
  refine (Names.keeps_eval h value s).bind fun v s1 _ _ => ?_
  cases type with
  | some t => exact (Names.keeps_resolve h t s1).bind fun ty s2 _ _ => keeps_checked (some ty) v
  | none => exact keeps_checked (typeOfValue v) v

theorem keeps_body (h : names.Sound) {t : Symbols} {k : Store} {b : Eval k.Value}
    (hb : k.body t names x = some b) (s : Memo) : b.Keeps names.kind s fun v s' => k.Fine names.kind s' v := by
  cases k with
  | layouts =>
    obtain ⟨fields, -, rfl⟩ := Option.map_eq_some_iff.1 hb
    have hempty : Layout.empty.Sound names.kind := ⟨by simp [Layout.empty], by simp [Layout.empty]⟩
    exact keeps_layoutFields h x hempty ⟨Nat.zero_le _, fun f hf => (nomatch hf), rfl⟩ fields
  | constants =>
    obtain ⟨⟨type, value⟩, -, rfl⟩ := Option.map_eq_some_iff.1 hb
    exact keeps_constantOf h type value s

/-- Whatever is worked out is kept. -/
theorem keeps_consult (t : Symbols) (h : names.Sound) (k : Store) (x : String) (s : Memo) :
    (t.consult names k x).Keeps names.kind s fun v s' => k.get? s' x = some v := by
  unfold Keeps Ends
  cases hv : k.get? s x with
  | some v =>
    rw [consult_of_kept hv]
    exact ⟨.refl s, hv⟩
  | none =>
    cases hb : k.body t names x with
    | none =>
      rw [consult_of_unknown hv hb]
      exact ⟨.refl s, by cases k <;> rfl⟩
    | some b =>
      by_cases hin : x ∈ s.inProgress
      · rw [consult_of_inProgress hv hb hin]
        exact ⟨.refl s, by cases k <;> rfl⟩
      · have hbody := keeps_body h hb { s with inProgress := x :: s.inProgress }
        unfold Keeps Ends at hbody
        rcases hr : b { s with inProgress := x :: s.inProgress } with ⟨r, s1⟩
        rw [hr] at hbody
        rw [consult_of_body hv hb hin hr]
        cases r with
        | error fault => exact ⟨hbody.1.during, hbody.2⟩
        | ok v =>
          obtain ⟨hlater, hfine⟩ := hbody
          -- While the name was in progress, nothing has been kept for it.
          have hnone := hlater.pending k x mem_cons_self (by rwa [get?_inProgress])
          have hback := hlater.during.inProgress
          refine ⟨hlater.during.trans (Memo.later_put ?_ ?_ ?_), get?_put_self _ _ _ _⟩
          · cases k <;> exact hfine
          · rwa [get?_inProgress]
          · rw [hback]
            exact hin

theorem keeps_atHand (t : Symbols) (k : Store) (x : String) (s : Memo) :
    (t.atHand k x).Keeps kind s fun v s' => k.get? s' x = some v := by
  unfold Keeps Ends atHand
  rw [bind_of_ok (get_apply s)]
  cases hv : k.get? s x with
  | some v => exact ⟨.refl s, hv⟩
  | none =>
    refine ⟨.refl s, ?_⟩
    cases k <;> split <;> rfl

theorem keeps_valueBy (t : Symbols) {constant : String → Eval GlobalConst}
    {Q : GlobalConst → Memo → Prop} (h : (constant x).Keeps kind s Q) :
    (t.valueBy constant x).Keeps kind s fun _ _ => True := by
  unfold valueBy
  split
  · exact h.bind fun _ _ _ _ => keeps_pure trivial
  · exact keeps_pure trivial

@[simp] theorem kind_namesOfDepth (t : Symbols) (n : Nat) : (t.namesOfDepth n).kind = t.kind := by
  cases n <;> rfl

theorem keeps_layoutBy (t : Symbols) (h : names.Sound) (x : String) (s : Memo) :
    (t.layoutBy names x).Keeps names.kind s fun l s' => s'.layouts.get? x = some l := by
  rw [← consult_layouts]
  exact t.keeps_consult h .layouts x s

theorem keeps_constantBy (t : Symbols) (h : names.Sound) (x : String) (s : Memo) :
    (t.constantBy names x).Keeps names.kind s fun g s' => s'.constants.get? x = some g := by
  rw [← consult_constants]
  exact t.keeps_consult h .constants x s

/-- At every depth, what is worked out for names is kept. -/
theorem sound_namesOfDepth (t : Symbols) (n : Nat) : (t.namesOfDepth n).Sound := by
  -- The layouts and constants of one depth are worked out with the names of the depth below.
  induction n with
  | zero =>
    refine ⟨fun x s => t.keeps_valueBy (Q := fun _ _ => True) ?_, fun x s => ?_⟩
    · rw [← atHand_constants]
      exact (t.keeps_atHand .constants x s).mono fun _ _ _ => trivial
    · change (t.layoutAtHand x).Keeps t.kind s _
      rw [← atHand_layouts]
      exact t.keeps_atHand .layouts x s
  | succ n ih =>
    have hconstant := t.keeps_constantBy ih
    have hlayout := t.keeps_layoutBy ih
    rw [kind_namesOfDepth] at hconstant hlayout
    exact ⟨fun x s => t.keeps_valueBy (hconstant x s), hlayout⟩

theorem keeps_layout (t : Symbols) (x : String) (s : Memo) :
    (t.layout x).Keeps t.kind s fun l s' => s'.layouts.get? x = some l := by
  have h := t.keeps_layoutBy (t.sound_namesOfDepth t.depth) x s
  rwa [kind_namesOfDepth] at h

theorem keeps_globalConst (t : Symbols) (x : String) (s : Memo) :
    (t.globalConst x).Keeps t.kind s fun g s' => s'.constants.get? x = some g := by
  have h := t.keeps_constantBy (t.sound_namesOfDepth t.depth) x s
  rwa [kind_namesOfDepth] at h

end Symbols

/-! ## Signatures -/

/-- The signature is that of the definition of a function. -/
structure Signature.Of (kind : String → Option SymbolKind) (f : Func) (sig : Signature) : Prop where
  params : List.Forall₂ (fun (p : String × TypeExpr) (q : String × Ty) => q.1 = p.1 ∧ p.2.Means kind q.2)
    f.params sig.params
  distinct : (sig.params.map (·.1)).Nodup
  ret : f.ret.Means kind sig.ret

namespace Symbols

open Eval

variable {names : Names}

/-- Each parameter gets what its type means, and no name occurs twice. -/
theorem keeps_paramTypes (h : names.Sound) {done : List (String × Ty)} (hd : (done.map (·.1)).Nodup)
    (params : List (String × TypeExpr)) (s : Memo) :
    (paramTypes names done params).Keeps names.kind s fun ps _ => (ps.map (·.1)).Nodup ∧
      ∃ rest, ps = done ++ rest ∧ Forall₂ (fun (p : String × TypeExpr) (q : String × Ty) =>
        q.1 = p.1 ∧ p.2.Means names.kind q.2) params rest := by
  induction params generalizing done s with
  | nil => exact keeps_pure ⟨hd, [], (append_nil done).symm, .nil⟩
  | cons param params ih =>
    obtain ⟨x, t⟩ := param
    unfold paramTypes
    split
    · exact keeps_reject_bind rfl _
    · next hx =>
      refine (Names.keeps_resolve h t s).bind fun ty s1 _ hty => ?_
      have hnew : ((done ++ [(x, ty)]).map (·.1)).Nodup := by
        rw [map_append, nodup_append]
        refine ⟨hd, by simp, ?_⟩
        rintro a ha b hb rfl
        obtain ⟨p, hp, rfl⟩ := mem_map.1 ha
        simp only [map_cons, map_nil, mem_singleton] at hb
        exact hx (any_eq_true.2 ⟨p, hp, by simp [hb]⟩)
      refine (ih hnew s1).mono ?_
      rintro ps s' ⟨hnodup, rest, rfl, hrest⟩
      exact ⟨hnodup, (x, ty) :: rest, by simp, .cons ⟨rfl, hty⟩ hrest⟩

theorem keeps_signature (t : Symbols) (f : Func) (s : Memo) :
    (signature t.names f).Keeps t.kind s fun sig _ => sig.Of t.kind f := by
  have h := t.sound_namesOfDepth (t.depth + 1)
  have hnone : (([] : List (String × Ty)).map (·.1)).Nodup := nodup_nil
  have hparams := keeps_paramTypes h hnone f.params s
  have hret := Names.keeps_resolve h f.ret
  rw [kind_namesOfDepth] at hparams hret
  refine hparams.bind fun params s1 _ hps => ?_
  obtain ⟨hnodup, rest, rfl, hrest⟩ := hps
  exact (hret s1).bind fun ret _ _ hmeans => keeps_pure ⟨hrest, hnodup, hmeans⟩

end Symbols

end Sigil
