import Sigil.Proofs.Emission.Expressions
import Sigil.Proofs.Machine.Values
import Sigil.Proofs.Machine.Writes

/-!
# The leaves of an aggregate

A literal of a struct or an array is given part by part, and a part may be such a literal again. The parts
that are none are the leaves: simple values, zeros and aggregates that are copied as a whole. A part lies
where the layouts and the sizes of elements put it (`Code.Lies`), and a leaf is written there by one store,
one fill or one copy (`Code.Leaf.trace_store`).
-/

namespace Sigil

open List

/-- The number of bytes that a type takes; none if it is too large. -/
def Symbols.bytes (T : Symbols) (t : Ty) : Nat :=
  match T.ask (T.names.sizeOf t) with
  | .ok n => n
  | .error _ => 0

namespace Code

open Machine (Block State Width Write)

variable {given : List (String × Expr)} {es : List Expr} {m : Mark}

/-! ## Parts -/

/-- Whether an expression gives an aggregate of that type part by part. -/
def isLaidOut : Ty → Expr → Bool
  | .struct _, .structLit _ _ => true
  | .array _ _, .arrayLit _ _ => true
  | _, _ => false

/-- In what `e` gives as a `t`, the part that `e'` gives as a `t'` lies `o` bytes behind the start. -/
inductive Lies (T : Symbols) : Ty → Expr → Nat → Ty → Expr → Prop where
  | self {t : Ty} {e : Expr} : Lies T t e 0 t e
  | field {s x : String} {m : Mark} {given : List (String × Expr)} {e e' : Expr} {layout : Layout}
    {f : Field} {o : Nat} {t' : Ty} (hl : T.ask (T.layout s) = .ok layout) (hx : (x, e) ∈ given)
    (hf : layout.field? x = some f) (h : Lies T f.ty e o t' e') :
    Lies T (.struct s) (.structLit m given) (f.offset + o) t' e'
  | element {n i o : Nat} {t t' : Ty} {m : Mark} {es : List Expr} {e e' : Expr} (hi : es[i]? = some e)
    (h : Lies T t e o t' e') : Lies T (.array n t) (.arrayLit m es) (i * T.bytes t + o) t' e'

/-- An expression whose value is written to an offset of the frame as a value of some type. -/
structure Leaf where
  offset : Int
  ty : Ty
  expr : Expr

/-- The leaf is a part of what `e` gives as a `t` at an offset. -/
def Leaf.Of (T : Symbols) (t : Ty) (e : Expr) (offset : Int) (l : Leaf) : Prop :=
  isLaidOut l.ty l.expr = false ∧ ∃ o : Nat, Lies T t e o l.ty l.expr ∧ l.offset = offset + o

mutual

/-- All leaves, in the order in which they are written. -/
def leaves (T : Symbols) (t : Ty) (offset : Int) : Expr → List Leaf
  | .structLit m given =>
    match t with
    | .struct s =>
      match T.ask (T.layout s) with
      | .ok layout => leavesOfFields T layout offset given
      | .error _ => []
    | t => [⟨offset, t, .structLit m given⟩]
  | .arrayLit m es =>
    match t with
    | .array _ elem => leavesOfElements T elem offset es
    | t => [⟨offset, t, .arrayLit m es⟩]
  | e => [⟨offset, t, e⟩]

/-- The leaves of named parts. -/
def leavesOfFields (T : Symbols) (layout : Layout) (offset : Int) : List (String × Expr) → List Leaf
  | [] => []
  | (x, e) :: given =>
    (match layout.field? x with
      | some f => leaves T f.ty (offset + f.offset) e
      | none => []) ++ leavesOfFields T layout offset given

/-- The leaves of parts of one type side by side. -/
def leavesOfElements (T : Symbols) (t : Ty) (offset : Int) : List Expr → List Leaf
  | [] => []
  | e :: es => leaves T t offset e ++ leavesOfElements T t (offset + T.bytes t) es

end

variable {T : Symbols} {t : Ty} {e : Expr} {offset : Int} {l : Leaf}

theorem leaves_of_not_laidOut (h : isLaidOut t e = false) : leaves T t offset e = [⟨offset, t, e⟩] := by
  cases e with
  | structLit m given => cases t <;> simp [leaves, isLaidOut] at h ⊢
  | arrayLit m es => cases t <;> simp [leaves, isLaidOut] at h ⊢
  | _ => simp [leaves]

/-- The leaves of fields are those of each value, at its field's offset. -/
theorem mem_leavesOfFields {layout : Layout} :
    l ∈ leavesOfFields T layout offset given ↔ ∃ x e f, (x, e) ∈ given ∧ layout.field? x = some f ∧
      l ∈ leaves T f.ty (offset + f.offset) e := by
  induction given with
  | nil => simp [leavesOfFields]
  | cons g given ih =>
    obtain ⟨x, e⟩ := g
    rw [leavesOfFields, mem_append, ih]
    constructor
    · rintro (hl | ⟨y, e', f, hg, hf, hl⟩)
      · cases hf : layout.field? x with
        | none =>
          rw [hf] at hl
          cases hl
        | some f =>
          rw [hf] at hl
          exact ⟨x, e, f, mem_cons_self, hf, hl⟩
      · exact ⟨y, e', f, mem_cons_of_mem _ hg, hf, hl⟩
    · rintro ⟨y, e', f, hg, hf, hl⟩
      rcases mem_cons.1 hg with heq | hg
      · cases heq
        left
        rw [hf]
        exact hl
      · exact Or.inr ⟨y, e', f, hg, hf, hl⟩

/-- The leaves of elements are those of each, one size after the other. -/
theorem mem_leavesOfElements :
    l ∈ leavesOfElements T t offset es ↔ ∃ (i : Nat) (e : Expr), es[i]? = some e ∧
      l ∈ leaves T t (offset + (i * T.bytes t : Nat)) e := by
  induction es generalizing offset with
  | nil => simp [leavesOfElements]
  | cons e es ih =>
    have hstep : ∀ i : Nat, offset + T.bytes t + (i * T.bytes t : Nat) =
        offset + ((i + 1) * T.bytes t : Nat) := by
      intro i
      rw [Nat.succ_mul]
      omega
    rw [leavesOfElements, mem_append, ih]
    constructor
    · rintro (hl | ⟨i, e', hi, hl⟩)
      · exact ⟨0, e, rfl, by simpa using hl⟩
      · exact ⟨i + 1, e', hi, hstep i ▸ hl⟩
    · rintro ⟨i, e', hi, hl⟩
      cases i with
      | zero =>
        cases hi
        exact Or.inl (by simpa using hl)
      | succ i => exact Or.inr ⟨i, e', hi, (hstep i).symm ▸ hl⟩

theorem of_iff_of_not_laidOut (h : isLaidOut t e = false) : l.Of T t e offset ↔ l = ⟨offset, t, e⟩ := by
  obtain ⟨at', ty, expr⟩ := l
  constructor
  · rintro ⟨-, o, hlies, hoffset⟩
    cases hlies with
    | self => simp_all
    | field | element => cases h
  · rintro ⟨⟩
    exact ⟨h, 0, .self, by simp⟩

/-- The leaves of a struct are those of its fields. -/
theorem of_struct_iff {s : String} :
    l.Of T (.struct s) (.structLit m given) offset ↔ ∃ layout, T.ask (T.layout s) = .ok layout ∧
      ∃ x e f, (x, e) ∈ given ∧ layout.field? x = some f ∧ l.Of T f.ty e (offset + f.offset) := by
  obtain ⟨at', ty, expr⟩ := l
  constructor
  · rintro ⟨hleaf, o, hlies, hoffset⟩
    cases hlies with
    | self => cases hleaf
    | @field _ x _ _ e _ layout f o _ hlayout hx hf hlies =>
      exact ⟨layout, hlayout, x, e, f, hx, hf, hleaf, o, hlies, by omega⟩
  · rintro ⟨layout, hlayout, x, e, f, hx, hf, hleaf, o, hlies, hoffset⟩
    exact ⟨hleaf, f.offset + o, .field hlayout hx hf hlies, by omega⟩

/-- The leaves of an array are those of its elements. -/
theorem of_array_iff {n : Nat} :
    l.Of T (.array n t) (.arrayLit m es) offset ↔ ∃ (i : Nat) (e : Expr), es[i]? = some e ∧
      l.Of T t e (offset + (i * T.bytes t : Nat)) := by
  obtain ⟨at', ty, expr⟩ := l
  constructor
  · rintro ⟨hleaf, o, hlies, hoffset⟩
    cases hlies with
    | self => cases hleaf
    | @element _ i o _ _ _ _ e _ hi hlies => exact ⟨i, e, hi, hleaf, o, hlies, by omega⟩
  · rintro ⟨i, e, hi, hleaf, o, hlies, hoffset⟩
    exact ⟨hleaf, i * T.bytes t + o, .element hi hlies, by omega⟩

/-- The list of the leaves has all leaves, and nothing else. -/
theorem mem_leaves : l ∈ leaves T t offset e ↔ l.Of T t e offset := by
  induction e using Expr.by_children generalizing t offset with
  | h e ih =>
    cases hlaid : isLaidOut t e with
    | false => rw [leaves_of_not_laidOut hlaid, mem_singleton, of_iff_of_not_laidOut hlaid]
    | true =>
      unfold isLaidOut at hlaid
      split at hlaid
      · next s m given =>
        rw [leaves, of_struct_iff]
        constructor
        · intro hl
          split at hl
          · next layout hlayout =>
            obtain ⟨x, e, f, hx, hf, hl⟩ := mem_leavesOfFields.1 hl
            exact ⟨layout, hlayout, x, e, f, hx, hf, (ih e (mem_map_of_mem hx)).1 hl⟩
          · cases hl
        · rintro ⟨layout, hlayout, x, e, f, hx, hf, hof⟩
          rw [hlayout]
          exact mem_leavesOfFields.2 ⟨x, e, f, hx, hf, (ih e (mem_map_of_mem hx)).2 hof⟩
      · next n u m es =>
        rw [leaves, of_array_iff, mem_leavesOfElements]
        constructor
        · rintro ⟨i, e, hi, hl⟩
          exact ⟨i, e, hi, (ih e (mem_of_getElem? hi)).1 hl⟩
        · rintro ⟨i, e, hi, hof⟩
          exact ⟨i, e, hi, (ih e (mem_of_getElem? hi)).2 hof⟩
      · cases hlaid

/-! ## Stores -/

/-- Some bytes of the frame side by side. -/
def frameBytes (offset : Int) (n : Nat) : List Int :=
  (List.range n).map fun i : Nat => offset + (i : Int)

/-- The addresses of bytes of the frame. -/
theorem addresses_eq (a : Word) (offset : Int) (n : Nat) :
    Machine.addresses (a + .ofInt 64 offset) n = (frameBytes offset n).map fun b => a + .ofInt 64 b := by
  rw [Machine.addresses, frameBytes, map_map]
  refine map_congr_left fun i _ => ?_
  rw [Function.comp_apply, BitVec.ofInt_add, BitVec.ofInt_natCast, BitVec.add_assoc]

namespace Leaf

variable {n : Nat}

/-- Whether the leaf is filled with zeros. -/
def isZeroFill (l : Leaf) : Bool :=
  match l.expr with
  | .zeroed _ => l.ty.isAggregate
  | _ => false

theorem isZeroFill_iff :
    l.isZeroFill = true ↔ l.ty.isAggregate = true ∧ ∃ m, l.expr = .zeroed m := by
  unfold isZeroFill
  split
  · next m h => simp [h]
  · next h => simpa using fun _ m => h m

/-- Puts what the leaf is made from into `rax`. Zeros are made from nothing. -/
def evaluate (site : Site) (l : Leaf) : Emit Block :=
  if l.isZeroFill then return [] else (lower site l.expr).value

/-- Writes the leaf. -/
def store (T : Symbols) (l : Leaf) : Block :=
  if l.isZeroFill then zeroFill l.offset (T.bytes l.ty)
  else if l.ty.isAggregate then
    [.copy .rax .rsi, .lea (slot l.offset) .rdi] ++ copyBytes (T.bytes l.ty)
  else storeTo l.ty (slot l.offset)

/-- The number of bytes that are written. -/
def width (T : Symbols) (l : Leaf) : Nat :=
  if l.ty.isAggregate then T.bytes l.ty else (widthOf l.ty).bytes

theorem toNat_count (hn : n < 2 ^ 64) :
    (Machine.Width.quad.extended false (.ofInt 64 n)).toNat = n := by
  rw [Machine.Width.extended_quad, BitVec.ofInt_natCast, BitVec.toNat_ofNat, Nat.mod_eq_of_lt hn]

theorem bytes_eq_zero_of_width (h : l.width T = 0) : T.bytes l.ty = 0 := by
  unfold width at h
  split at h
  · exact h
  · cases hw : widthOf l.ty <;> rw [hw] at h <;> cases h

/-- A store is as wide as its leaf for every type but `void` and the integer types that no access is as wide
as. -/
theorem width_eq_bytes_iff : l.width T = T.bytes l.ty ↔
    l.ty ≠ .void ∧ ∀ bits signed, l.ty = .int bits signed → (Width.ofBytes? (bits / 8)).isSome := by
  obtain ⟨offset, t, e⟩ := l
  cases t with
  | int bits signed =>
    have hbytes : T.bytes (.int bits signed) = bits / 8 := rfl
    have hwidth : width T ⟨offset, .int bits signed, e⟩ =
      ((Width.ofBytes? (bits / 8)).getD .quad).bytes := rfl
    rw [hwidth, hbytes]
    cases hw : Width.ofBytes? (bits / 8) with
    | some w =>
      refine iff_of_true (Width.bytes_of_ofBytes? hw) ⟨by simp, ?_⟩
      rintro _ _ ⟨⟩
      rw [hw]
      rfl
    | none =>
      -- The width of a store is then the widest there is, and the type would be as wide.
      refine iff_of_false (fun h => ?_) fun h => ?_
      · rw [← h] at hw
        cases hw
      · have hsome := h.2 bits signed rfl
        rw [hw] at hsome
        cases hsome
  | void =>
    have hbytes : T.bytes .void = 0 := rfl
    have hwidth : width T ⟨offset, .void, e⟩ = 8 := rfl
    simp [hwidth, hbytes]
  | char | bool | str | ptr | enum | array | struct => exact iff_of_true rfl ⟨by simp, by simp⟩

theorem trace_zeroFill (s : State) (offset : Int) (hn : n < 2 ^ 64) :
    ∃ s' ws, s.trace (zeroFill offset n) = some (s', ws) ∧
      ws.map (·.1) = (frameBytes offset n).map fun b => s.regs .rbp + .ofInt 64 b := by
  refine ⟨_, _, State.trace_cons rfl (State.trace_cons rfl (State.trace_cons rfl
    (State.trace_cons rfl rfl))), ?_⟩
  -- Only the last line writes, and what it goes by are the registers that the others have set.
  refine (congrArg _ (append_nil _)).trans ((State.map_fst_fill _).trans ?_)
  rw [← addresses_eq]
  exact congrArg _ (toNat_count hn)

theorem trace_copy (s : State) (offset : Int) (hn : n < 2 ^ 64) :
    ∃ s' ws, s.trace ([.copy .rax .rsi, .lea (slot offset) .rdi] ++ copyBytes n) = some (s', ws) ∧
      ws.map (·.1) = (frameBytes offset n).map fun b => s.regs .rbp + .ofInt 64 b := by
  refine ⟨_, _, State.trace_cons rfl (State.trace_cons rfl (State.trace_cons rfl
    (State.trace_cons rfl rfl))), ?_⟩
  refine (congrArg _ (append_nil _)).trans ((Machine.Memory.map_fst_copies _ _ _ _).trans ?_)
  rw [← addresses_eq]
  exact congrArg _ (toNat_count hn)

theorem trace_storeTo (s : State) (t : Ty) (offset : Int) :
    ∃ s' ws, s.trace (storeTo t (slot offset)) = some (s', ws) ∧
      ws.map (·.1) = (frameBytes offset (widthOf t).bytes).map fun b => s.regs .rbp + .ofInt 64 b := by
  refine ⟨_, _, State.trace_cons rfl rfl, ?_⟩
  rw [← addresses_eq, append_nil]
  exact Machine.Memory.map_fst_bytes _ _ _

/-- Writing a leaf writes its bytes, whatever the state. -/
theorem trace_store (hsize : T.bytes l.ty < 2 ^ 64) (s : State) :
    ∃ s' ws, s.trace (l.store T) = some (s', ws) ∧ s'.mem = s.mem.apply ws ∧
      ws.map (·.1) = (frameBytes l.offset (l.width T)).map fun b => s.regs .rbp + .ofInt 64 b := by
  have hstore : ∃ s' ws, s.trace (l.store T) = some (s', ws) ∧
      ws.map (·.1) = (frameBytes l.offset (l.width T)).map fun b => s.regs .rbp + .ofInt 64 b := by
    unfold store width
    split
    · next hzero =>
      rw [if_pos (isZeroFill_iff.1 hzero).1]
      exact trace_zeroFill s l.offset hsize
    · split
      · exact trace_copy s l.offset hsize
      · exact trace_storeTo s l.ty l.offset
  obtain ⟨s', ws, htrace, hws⟩ := hstore
  exact ⟨s', ws, htrace, State.mem_of_trace htrace, hws⟩

end Leaf

/-! ## Leaves side by side -/

theorem frameBytes_add (offset : Int) (m n : Nat) :
    frameBytes offset (m + n) = frameBytes offset m ++ frameBytes (offset + m) n := by
  simp [frameBytes, range_add, Int.add_assoc]

/-- By the sizes of their types, the leaves lie side by side, and fill the frame from `start` to `stop`. -/
def Tiled (T : Symbols) (start : Int) : List Leaf → Int → Prop
  | [], stop => start = stop
  | l :: ls, stop => l.offset = start ∧ Tiled T (start + T.bytes l.ty) ls stop

namespace Tiled

variable {start mid stop : Int} {ls ls' : List Leaf} {n : Nat}

theorem append (h : Tiled T start ls mid) (h' : Tiled T mid ls' stop) : Tiled T start (ls ++ ls') stop := by
  induction ls generalizing start with
  | nil =>
    obtain rfl : start = mid := h
    exact h'
  | cons l ls ih => exact ⟨h.1, ih h.2⟩

theorem le (h : Tiled T start ls stop) : start ≤ stop := by
  induction ls generalizing start with
  | nil => exact Int.le_of_eq h
  | cons l ls ih =>
    have hrest := ih h.2
    omega

/-- What comes behind the first leaf. -/
theorem exists_tail (h : Tiled T start (l :: ls) (start + n)) :
    ∃ k, n = T.bytes l.ty + k ∧ Tiled T (start + T.bytes l.ty) ls (start + T.bytes l.ty + k) := by
  have hle := h.2.le
  refine ⟨n - T.bytes l.ty, by omega, ?_⟩
  have hstop : start + T.bytes l.ty + (n - T.bytes l.ty : Nat) = start + n := by omega
  rw [hstop]
  exact h.2

theorem bytes_le (h : Tiled T start ls stop) (hl : l ∈ ls) : start + T.bytes l.ty ≤ stop := by
  induction ls generalizing start with
  | nil => cases hl
  | cons first ls ih =>
    rcases mem_cons.1 hl with rfl | hl
    · exact h.2.le
    · have hrest := ih h.2 hl
      omega

/-- The places of the leaves are all there is. -/
theorem places_eq (h : Tiled T start ls (start + n)) :
    ls.flatMap (fun l => frameBytes l.offset (T.bytes l.ty)) = frameBytes start n := by
  induction ls generalizing start n with
  | nil =>
    obtain rfl : n = 0 := by
      have heq : start = start + n := h
      omega
    rfl
  | cons l ls ih =>
    obtain ⟨k, rfl, hrest⟩ := h.exists_tail
    rw [flatMap_cons, ih hrest, h.1, frameBytes_add]

/-- Where bytes are written that lie side by side, the first of them is the first byte of all. -/
theorem start_eq (h : Tiled T start ls stop) (hzero : ∀ l ∈ ls, l.width T = 0 → T.bytes l.ty = 0) {x : Int}
    (hbytes : ls.flatMap (fun l => frameBytes l.offset (l.width T)) = frameBytes x n) :
    (n = 0 ∧ start = stop) ∨ (0 < n ∧ start = x) := by
  induction ls generalizing start with
  | nil =>
    left
    have hlength := congrArg length hbytes
    simp only [flatMap_nil, length_nil, frameBytes, length_map, length_range] at hlength
    exact ⟨hlength.symm, h⟩
  | cons l ls ih =>
    rw [flatMap_cons] at hbytes
    cases hwidth : l.width T with
    | zero =>
      rw [hwidth] at hbytes
      refine ih ?_ (fun l hl => hzero l (mem_cons_of_mem _ hl)) hbytes
      simpa [hzero l mem_cons_self hwidth] using h.2
    | succ w =>
      right
      rw [hwidth, h.1] at hbytes
      cases n with
      | zero => simp [frameBytes, range_succ_eq_map] at hbytes
      | succ n =>
        refine ⟨Nat.succ_pos n, ?_⟩
        simp only [frameBytes, range_succ_eq_map, map_cons, cons_append, cons.injEq]
          at hbytes
        simpa using hbytes.1

/-- All bytes are written once, in order, exactly if each leaf writes as many bytes as it has. -/
theorem bytes_eq_iff (h : Tiled T start ls (start + n))
    (hzero : ∀ l ∈ ls, l.width T = 0 → T.bytes l.ty = 0) :
    ls.flatMap (fun l => frameBytes l.offset (l.width T)) = frameBytes start n ↔
      ∀ l ∈ ls, l.width T = T.bytes l.ty := by
  constructor
  · intro hbytes
    induction ls generalizing start n with
    | nil => exact fun l hl => by cases hl
    | cons l ls ih =>
      have hzero' : ∀ l ∈ ls, l.width T = 0 → T.bytes l.ty = 0 :=
        fun l hl => hzero l (mem_cons_of_mem _ hl)
      obtain ⟨k, hk, hrest⟩ := h.exists_tail
      rw [flatMap_cons, h.1] at hbytes
      have hle : l.width T ≤ n := by
        have hlength := congrArg length hbytes
        simp only [frameBytes, length_append, length_map, length_range] at hlength
        omega
      obtain ⟨j, rfl⟩ := Nat.exists_eq_add_of_le hle
      rw [frameBytes_add] at hbytes
      have htail := append_cancel_left hbytes
      -- The other leaves go on where this one ends, and where it should end.
      have hwidth : l.width T = T.bytes l.ty := by
        rcases hrest.start_eq hzero' htail with ⟨hj, hstop⟩ | ⟨-, hstart⟩ <;> omega
      refine forall_mem_cons.2 ⟨hwidth, ih hrest hzero' ?_⟩
      obtain rfl : j = k := by omega
      rw [htail, hwidth]
  · intro hwidth
    rw [← h.places_eq]
    exact flatMap_congr fun l hl => by rw [hwidth l hl]

end Tiled

end Code

end Sigil
