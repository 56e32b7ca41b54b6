import Sigil.Proofs.Folding.Settling
import Sigil.Proofs.Meaning.Constants

/-!
# Written integers and the ranges of types

Where an integer type is expected, an integer that is written with or without a minus sign is accepted if it
is in the range of the type, and folding makes its literal of it (`Check.accepted_iff_inRange`).

There is one exception, the magnitude 2⁶³ in the type `int?` (`WrittenInt.Misread`). It is let pass, since a
minus sign may come before it, and is then read with the sign of the type: as the least integer. So 2⁶³ is
accepted, for -2⁶³, while -2⁶³ is refused, for 2⁶³.
-/

namespace Sigil

open Attempt Fold Program

/-- The integer can be represented with that many bits, one of which is for the sign if there is one. -/
def InRange (bits : Nat) : Bool → Int → Prop
  | true, v => -2 ^ (bits - 1) ≤ v ∧ v < 2 ^ (bits - 1)
  | false, v => 0 ≤ v ∧ v < 2 ^ bits

instance (bits : Nat) : (signed : Bool) → (v : Int) → Decidable (InRange bits signed v)
  | true, v => inferInstanceAs (Decidable (-2 ^ (bits - 1) ≤ v ∧ v < 2 ^ (bits - 1)))
  | false, v => inferInstanceAs (Decidable (0 ≤ v ∧ v < 2 ^ bits))

/-- An integer as it is written: a number, and perhaps a minus sign before it. -/
structure WrittenInt where
  negative : Bool
  magnitude : Word
  /-- The place of the minus sign. -/
  sign : Position
  /-- The place of the number. -/
  digits : Position

namespace WrittenInt

/-- The integer that is written. -/
def value (i : WrittenInt) : Int :=
  if i.negative then -i.magnitude.toNat else i.magnitude.toNat

/-- The expression that is read from it, or that has got a type. -/
def expr (i : WrittenInt) (ty : Option Ty) : Expr :=
  if i.negative then .unary ⟨i.sign, ty⟩ .neg (.intLit ⟨i.digits, ty⟩ i.magnitude)
  else .intLit ⟨i.digits, ty⟩ i.magnitude

/-- The value of the expression when it has a type. The number is read with the sign of the type. -/
def typedValue (i : WrittenInt) (t : Ty) : Int :=
  if i.negative then -readWord (some t) i.magnitude else readWord (some t) i.magnitude

/-- The magnitude is that of the least integer of the signed 64-bit type. -/
def Misread (i : WrittenInt) (bits : Nat) (signed : Bool) : Prop :=
  bits = 64 ∧ signed = true ∧ i.magnitude.toNat = 2 ^ 63

instance (i : WrittenInt) (bits : Nat) (signed : Bool) : Decidable (i.Misread bits signed) :=
  inferInstanceAs (Decidable (_ ∧ _ ∧ _))

/-- The value that the integer has if it is accepted: the integer itself, but for the exception. -/
def accepted (i : WrittenInt) (bits : Nat) (signed : Bool) : Int :=
  if i.Misread bits signed then -i.value else i.value

/-- What the checks look at: the magnitude of the number, and the value that it gets. -/
def Admitted (i : WrittenInt) (bits : Nat) (signed : Bool) : Prop :=
  ∀ lo hi, (Ty.int bits signed).range? = some (lo, hi) →
    i.magnitude.toNat ≤ Check.magnitude (lo, hi) ∧ lo ≤ i.typedValue (.int bits signed) ∧
      i.typedValue (.int bits signed) ≤ hi

/-! ## Ranges -/

variable {bits : Nat} {signed : Bool} {i : WrittenInt} {lo hi : Int}

/-- The ranges of the integer types that can be written. -/
theorem range_cases (hbits : bits = 64 ∨ bits = 16) (signed : Bool) :
    (bits = 64 ∧ signed = true ∧ (Ty.int bits signed).range? = some (-2 ^ 63, 2 ^ 63 - 1)) ∨
      (bits = 64 ∧ signed = false ∧ (Ty.int bits signed).range? = some (0, 2 ^ 64 - 1)) ∨
      (bits = 16 ∧ signed = true ∧ (Ty.int bits signed).range? = some (-2 ^ 15, 2 ^ 15 - 1)) ∨
      (bits = 16 ∧ signed = false ∧ (Ty.int bits signed).range? = some (0, 2 ^ 16 - 1)) := by
  rcases hbits with rfl | rfl <;> cases signed <;> simp [Ty.range?]

theorem readWord_cases (bits : Nat) (signed : Bool) (n : Word) :
    (signed = true ∧ 2 ^ 63 ≤ n.toNat ∧
        readWord (some (.int bits signed)) n = (n.toNat : Int) - 2 ^ 64) ∨
      ((signed = true → n.toNat < 2 ^ 63) ∧ readWord (some (.int bits signed)) n = n.toNat) := by
  cases signed with
  | false => exact Or.inr ⟨by simp, rfl⟩
  | true =>
    have htoInt : readWord (some (.int bits true)) n = n.toInt := rfl
    rw [htoInt, BitVec.toInt_eq_toNat_cond]
    split
    · exact Or.inr ⟨by omega, rfl⟩
    · exact Or.inl ⟨rfl, by omega, rfl⟩

theorem admitted_iff_of_range (hrange : (Ty.int bits signed).range? = some (lo, hi)) :
    i.Admitted bits signed ↔ i.magnitude.toNat ≤ Check.magnitude (lo, hi) ∧
      lo ≤ i.typedValue (.int bits signed) ∧ i.typedValue (.int bits signed) ≤ hi := by
  constructor
  · exact fun h => h lo hi hrange
  · intro h lo' hi' hrange'
    cases hrange.symm.trans hrange'
    exact h

/-- The checks let pass what is in range, but for the exception. -/
theorem admitted_iff (hbits : bits = 64 ∨ bits = 16) :
    i.Admitted bits signed ↔ (InRange bits signed i.value ↔ ¬i.Misread bits signed) := by
  have hword := i.magnitude.isLt
  -- There are four types, and in each of them everything is a linear condition on the magnitude.
  rcases readWord_cases bits signed i.magnitude with ⟨hs, hn, hr⟩ | ⟨hs, hr⟩ <;>
  rcases range_cases hbits signed with ⟨rfl, rfl, hrange⟩ | ⟨rfl, rfl, hrange⟩ |
    ⟨rfl, rfl, hrange⟩ | ⟨rfl, rfl, hrange⟩ <;>
  rw [admitted_iff_of_range hrange] <;> unfold typedValue InRange value Misread Check.magnitude <;>
  rw [hr] <;> cases i.negative <;> simp at hs ⊢ <;> omega

/-- A number whose magnitude is admitted is read as it is, but for the exception. -/
theorem readWord_of_admitted (hbits : bits = 64 ∨ bits = 16) (h : i.Admitted bits signed) :
    (i.Misread bits signed ∧ readWord (some (.int bits signed)) i.magnitude = -i.magnitude.toNat) ∨
      (¬i.Misread bits signed ∧ readWord (some (.int bits signed)) i.magnitude = i.magnitude.toNat) := by
  rcases readWord_cases bits signed i.magnitude with ⟨rfl, hge, hread⟩ | ⟨hlt, hread⟩
  · left
    -- Only the greater one of the signed types admits so great a magnitude, and no greater one.
    rcases range_cases hbits true with ⟨rfl, -, hrange⟩ | ⟨-, ⟨⟩, -⟩ | ⟨rfl, -, hrange⟩ | ⟨-, ⟨⟩, -⟩
    · have hle := ((admitted_iff_of_range hrange).1 h).1
      simp only [Check.magnitude] at hle
      have heq : i.magnitude.toNat = 2 ^ 63 := by omega
      exact ⟨⟨rfl, rfl, heq⟩, by omega⟩
    · have hle := ((admitted_iff_of_range hrange).1 h).1
      simp only [Check.magnitude] at hle
      omega
  · right
    exact ⟨fun hmis => absurd hmis.2.2 (hlt hmis.2.1).ne, hread⟩

/-- An integer that is admitted has the value that it is accepted for. -/
theorem typedValue_eq (hbits : bits = 64 ∨ bits = 16) (h : i.Admitted bits signed) :
    i.typedValue (.int bits signed) = i.accepted bits signed := by
  unfold typedValue accepted value
  rcases readWord_of_admitted hbits h with ⟨hmis, hread⟩ | ⟨hmis, hread⟩
  · rw [hread, if_pos hmis]
    cases i.negative <;> simp
  · rw [hread, if_neg hmis]

end WrittenInt

namespace Check

/-! ## Checking a number -/

variable {bits : Nat} {signed : Bool} {c : Context} {s s' : Scope} {i : WrittenInt} {lo hi : Int}

theorem intRule_apply (hrange : (Ty.int bits signed).range? = some (lo, hi)) (pos : Position) (n : Word) :
    intRule ⟨pos, none⟩ n (some (.int bits signed)) s =
      if magnitude (lo, hi) < n.toNat then
        (.error ⟨⟨pos, .outOfRange n.toNat (Ty.int bits signed).text⟩, .intLit ⟨pos, none⟩ n⟩, s)
      else (.ok (.intLit ⟨pos, some (.int bits signed)⟩ n, .int bits signed), s) := by
  unfold intRule
  dsimp only
  rw [hrange]
  dsimp only
  split <;> rfl

/-- Giving an integer its type looks at the magnitude only. -/
theorem expr_writtenInt (c : Context) (s : Scope) (i : WrittenInt)
    (hrange : (Ty.int bits signed).range? = some (lo, hi)) :
    (magnitude (lo, hi) < i.magnitude.toNat →
      ∃ spoiled, expr c (i.expr none) (some (.int bits signed)) s = (.error spoiled, s)) ∧
    (i.magnitude.toNat ≤ magnitude (lo, hi) →
      expr c (i.expr none) (some (.int bits signed)) s =
        (.ok (i.expr (some (.int bits signed)), .int bits signed), s)) := by
  have hlit := intRule_apply (s := s) hrange i.digits i.magnitude
  unfold WrittenInt.expr
  cases i.negative with
  | false =>
    refine ⟨fun hlt => ?_, fun hle => ?_⟩
    · rw [if_pos hlt] at hlit
      exact ⟨_, hlit⟩
    · rw [if_neg (Int.not_lt.2 hle)] at hlit
      exact hlit
  | true =>
    refine ⟨fun hlt => ?_, fun hle => ?_⟩
    · rw [if_pos hlt] at hlit
      exact ⟨_, (bind_of_ok rfl).trans (bind_of_error (within_of_error hlit))⟩
    · rw [if_neg (Int.not_lt.2 hle)] at hlit
      exact (bind_of_ok rfl).trans (bind_of_ok (within_of_ok hlit))

/-- A word is never read as the least of the integers that constants are computed with, so its negation is
exact. -/
theorem neg_readWord (t : Option Ty) (n : Word) : Int128.neg (readWord t n) = -readWord t n := by
  have htoInt : -2 ^ 63 ≤ n.toInt := BitVec.le_toInt n
  unfold Int128.neg
  rw [if_neg]
  unfold readWord Int128.least
  split
  · split <;> omega
  · omega

theorem value?_writtenInt {τ : Type} (t : Ty) :
    (c.value? (i.expr (some t)) : Checker τ (Option Constant)) s =
      (.ok (some (.int (i.typedValue t))), s) := by
  unfold WrittenInt.expr WrittenInt.typedValue
  rw [← neg_readWord]
  cases i.negative <;> rfl

theorem isOpen_writtenInt (f : Frame) : c.isOpen f (i.expr none) = true := by
  unfold WrittenInt.expr
  cases i.negative <;> rfl

/-- Either an integer is admitted where a type is expected and has that type then, or it is refused. The
scope stays as it is in both cases. -/
theorem coerce_writtenInt (c : Context) (s : Scope) (i : WrittenInt) (bits : Nat) (signed : Bool) :
    (i.Admitted bits signed ∧ coerce c (part c (i.expr none)) (.int bits signed) s =
      (.ok (i.expr (some (.int bits signed))), s)) ∨
    (¬i.Admitted bits signed ∧ ∃ spoiled,
      coerce c (part c (i.expr none)) (.int bits signed) s = (.error spoiled, s)) := by
  obtain ⟨lo, hi, hrange⟩ : ∃ lo hi, (Ty.int bits signed).range? = some (lo, hi) := by
    cases signed with
    | true | false => exact ⟨_, _, rfl⟩
  have hopen : (part c (i.expr none)).isOpen c s = ((.ok true, s) : Except (Spoiled Expr) Bool × Scope) := by
    show (Except.ok (c.isOpen s.frame (i.expr none)), s) = _
    rw [isOpen_writtenInt]
  obtain ⟨hgreat, hsmall⟩ := expr_writtenInt c s i hrange
  rw [WrittenInt.admitted_iff_of_range hrange, coerce, bind_of_ok hopen]
  rcases lt_or_ge (magnitude (lo, hi)) i.magnitude.toNat with hlt | hle
  · obtain ⟨spoiled, hspoiled⟩ := hgreat hlt
    exact Or.inr ⟨fun h => absurd h.1 (Int.not_le.2 hlt), spoiled, bind_of_error hspoiled⟩
  · have hvalue : (c.intValue? (i.expr (some (.int bits signed))) : Checker Expr (Option Int)) s =
        (.ok (some (i.typedValue (.int bits signed))), s) :=
      bind_of_ok (value?_writtenInt _)
    rw [bind_of_ok (by exact hsmall hle)]
    dsimp only
    rw [Ty.assignable_self, if_pos rfl, if_pos rfl, bind_of_ok hvalue, hrange]
    dsimp only
    split
    · next hout => exact Or.inr ⟨fun h => by omega, _, rfl⟩
    · next hin => exact Or.inl ⟨⟨hle, by omega⟩, rfl⟩

/-! ## Checking a declaration -/

/-- The declaration of an integer with a sign. -/
structure IntDecl where
  name : String
  bits : Nat
  signed : Bool
  mutable : Bool
  pos : Position

namespace IntDecl

variable {d : IntDecl} {e e' : Expr}

/-- The type that is declared. -/
def ty (d : IntDecl) : Ty := .int d.bits d.signed

/-- The declaration as it is read. -/
def read (d : IntDecl) (e : Expr) : Stmt :=
  .var d.pos ⟨d.name, some (.int d.bits (some d.signed)), some e, d.mutable, none⟩

/-- The declaration after it has been checked. -/
def checked (d : IntDecl) (e : Expr) : Stmt :=
  .var d.pos ⟨d.name, some (.int d.bits (some d.signed)), some e, d.mutable, some d.ty⟩

/-- The declaration of an integer with a sign comes down to its initial value. -/
theorem stmt_of_ok {v : Constant} (h : coerce c (part c e) d.ty s = (.ok e', s'))
    (hvalue : ∀ s, (c.value? e' : Checker VarDecl (Option Constant)) s = (.ok (some v), s)) :
    ∃ s'', stmt c (d.read e) s = (.ok (d.checked e'), s'') ∧
      s''.errors = s'.errors ∧ s''.learned = s'.learned ∧ s''.trapped = s'.trapped := by
  obtain ⟨x, bits, signed, mutable, pos⟩ := d
  let decl (e : Expr) (t : Option Ty) : VarDecl := ⟨x, some (.int bits (some signed)), some e, mutable, t⟩
  have hinit : initialise c pos (decl e none) (some (.int bits signed)) s =
      (.ok (some e', .int bits signed, false), s') :=
    bind_of_ok (within_of_ok h)
  have hdecl : ∃ s'', varDecl c pos (decl e none) s = (.ok (decl e' (some (.int bits signed))), s'') ∧
      s''.errors = s'.errors ∧ s''.learned = s'.learned ∧ s''.trapped = s'.trapped := by
    cases mutable with
    | true =>
      exact ⟨_, (bind_of_ok rfl).trans ((bind_of_ok hinit).trans rfl), rfl, rfl, rfl⟩
    | false =>
      exact ⟨_, (bind_of_ok rfl).trans ((bind_of_ok hinit).trans
        ((bind_of_ok rfl).trans ((bind_of_ok rfl).trans
          (bind_of_ok (hvalue _))))), rfl, rfl, rfl⟩
  obtain ⟨s'', hdecl, hkept⟩ := hdecl
  exact ⟨s'', within_of_ok (bind_of_ok hdecl), hkept⟩

theorem stmt_of_error {spoiled : Spoiled Expr} (h : coerce c (part c e) d.ty s = (.error spoiled, s')) :
    ∃ spoiled', stmt c (d.read e) s = (.error spoiled', s') := by
  obtain ⟨x, bits, signed, mutable, pos⟩ := d
  have hinit : initialise c pos ⟨x, some (.int bits (some signed)), some e, mutable, none⟩
      (some (.int bits signed)) s = (.error _, s') :=
    bind_of_error (within_of_error h)
  have hdecl : varDecl c pos ⟨x, some (.int bits (some signed)), some e, mutable, none⟩ s =
      (.error _, s') :=
    (bind_of_ok rfl).trans (bind_of_error hinit)
  exact ⟨_, within_of_error (bind_of_error hdecl)⟩

/-! ## Folding a declaration -/

theorem foldsTo_writtenInt (hbits : bits = 64 ∨ bits = 16) (h : i.Admitted bits signed) :
    FoldsTo (.int bits signed) (i.expr (some (.int bits signed))) (i.accepted bits signed) := by
  have hholds : (Ty.int bits signed).Holds (i.typedValue (.int bits signed)) :=
    fun lo hi hrange => (h lo hi hrange).2
  rw [← WrittenInt.typedValue_eq hbits h]
  unfold WrittenInt.expr WrittenInt.typedValue at *
  cases hneg : i.negative with
  | false => exact foldsTo_lit
  | true =>
    rw [hneg, if_pos rfl] at hholds
    have hfolds := foldsTo_neg (m := ⟨i.sign, some (.int bits signed)⟩) rfl rfl
      (foldsTo_lit (m := ⟨i.digits, some (.int bits signed)⟩) (n := i.magnitude))
    rwa [Ty.Holds.wrap_eq hbits hholds] at hfolds

/-- A checked declaration whose initial value is the literal for an integer. -/
def Holds (d : IntDecl) (v : Int) (st : Stmt) : Prop :=
  ∃ m w, st = d.checked (.intLit m w) ∧ m.ty = some d.ty ∧ (Expr.intLit m w).value? = some v

theorem Holds.stmt_eq {v : Int} {st : Stmt} (h : d.Holds v st) : Fold.stmt st = .keep st := by
  obtain ⟨m, w, rfl, -⟩ := h
  rfl

/-- Folding makes a literal of the initial value. -/
theorem holds_of_admitted (hbits : d.bits = 64 ∨ d.bits = 16) (h : i.Admitted d.bits d.signed) :
    (Fold.stmt (d.checked (i.expr (some d.ty)))).errors = [] ∧
      d.Holds (i.accepted d.bits d.signed) (Fold.stmt (d.checked (i.expr (some d.ty)))).result := by
  have hmark : (i.expr (some d.ty)).mark.ty = some (.int d.bits d.signed) := by
    unfold WrittenInt.expr
    cases i.negative <;> rfl
  have hfolds := foldsTo_writtenInt hbits h
  have hvalue := value?_of_foldsTo hmark hfolds
  obtain ⟨w, hw, -⟩ := hfolds
  have hw' : (Fold.expr (i.expr (some d.ty))).result = .intLit (i.expr (some d.ty)).mark w := hw
  refine ⟨?_, _, w, ?_, hmark, hw' ▸ hvalue⟩
  · unfold WrittenInt.expr
    cases i.negative <;> rfl
  · rw [← hw']
    rfl

end IntDecl

/-! ## Programs -/

/-- The names of a program that is one function. -/
def mainSymbols : Symbols :=
  { Symbols.empty with
    defs := [("main", (.func, .origin))]
    funcs := [("main", ⟨[], .uint⟩)] }

/-- What holds throughout this function. -/
def mainContext : Context :=
  ⟨mainSymbols, .uint, []⟩

/-- What is known at the start of this function. -/
def mainScope : Scope :=
  { Scope.start mainSymbols ⟨[], .uint⟩ with frame := (Scope.start mainSymbols ⟨[], .uint⟩).frame.enter }

/-- What is found in the only function of a program is what is found in the program. -/
theorem typed_ofMain (body : List Stmt) (htrap : (stmts mainContext body mainScope).2.trapped = false)
    (hlearned : (stmts mainContext body mainScope).2.learned = []) :
    typed (.ofMain body) = some (⟨.ofMain (stmts mainContext body mainScope).1, mainSymbols⟩,
      (stmts mainContext body mainScope).2.errors) := by
  have hpass : pass mainSymbols ⟨[], .uint⟩ [] body = ((stmts mainContext body mainScope).1,
      { (stmts mainContext body mainScope).2 with
        frame := (stmts mainContext body mainScope).2.frame.leave }) := rfl
  have hpasses : ∀ k, passes mainSymbols ⟨[], .uint⟩ body k [] =
      ((stmts mainContext body mainScope).1, (stmts mainContext body mainScope).2.errors, false) := by
    intro k
    rw [passes, hpass]
    dsimp only
    rw [htrap, if_pos]
    simp [Scope.news, hlearned]
  have hdef : definition mainSymbols ⟨"main", .origin, .func ⟨[], .int 64 (some false), body⟩⟩ =
      some (⟨"main", .origin, .func ⟨[], .int 64 (some false), (stmts mainContext body mainScope).1⟩⟩,
        (stmts mainContext body mainScope).2.errors) := by
    have hsig : mainSymbols.funcs.get? "main" = some ⟨[], .uint⟩ := rfl
    rw [definition]
    dsimp only
    rw [hsig]
    dsimp only
    rw [hpasses]
  have htable : Symbols.ofProgram (.ofMain body) = some (mainSymbols, []) := rfl
  rw [typed, htable]
  simp [ofMain, definitions, hdef]

theorem stmts_singleton (c : Context) (s : Scope) (st : Stmt) :
    stmts c [st] s = ([(settle (stmt c st) s).1], (settle (stmt c st) s).2) :=
  rfl

/-- A program of one statement is accepted if the statement is and leaves no error behind. -/
theorem check_ofMain_of_ok {st st' : Stmt} (h : stmt mainContext st mainScope = (.ok st', s))
    (herrors : s.errors = []) (hlearned : s.learned = []) (htrap : s.trapped = false) :
    Compile.check (.ofMain [st]) = .ok ⟨.ofMain [st'], mainSymbols⟩ := by
  have hstmts : stmts mainContext [st] mainScope = ([st'], s) := by
    rw [stmts_singleton, settle, h]
  have htyped := typed_ofMain [st] (hstmts ▸ htrap) (hstmts ▸ hlearned)
  rw [hstmts, herrors] at htyped
  rw [Compile.check, htyped]

/-- A program of one statement is refused with that statement's error. -/
theorem check_ofMain_of_error {st : Stmt} {spoiled : Spoiled Stmt}
    (h : stmt mainContext st mainScope = (.error spoiled, mainScope)) :
    Compile.check (.ofMain [st]) = .error (.errors [.type spoiled.error]) := by
  have hstmts : stmts mainContext [st] mainScope =
      ([spoiled.tree], { mainScope with errors := [spoiled.error] }) := by
    rw [stmts_singleton, settle, h]
    rfl
  have htyped := typed_ofMain [st] (hstmts ▸ rfl) (hstmts ▸ rfl)
  rw [hstmts] at htyped
  rw [Compile.check, htyped]
  rfl

end Check

/-- If a second pass over the only function has nothing to do, folding the program ends with the first. -/
theorem Program.folded_ofMain {body : List Stmt} (herrors : (stmts body).errors = [])
    (hkeep : stmts (pass body) = .keep (pass body)) :
    ∃ k, folded (.ofMain body) = .ok (.ofMain (pass body), k) := by
  have hsecond : passes 31 (pass body) = .keep (pass body) :=
    passes_of_unchanged 30 (by rw [hkeep]; rfl) (by rw [hkeep]; rfl)
  have hpasses : (passes maxPasses body).result = pass body ∧
      (passes maxPasses body).errors = [] := by
    by_cases hchanges : (stmts body).changes = 0
    · have hsame : pass body = body := (follows_stmts body).unchanged hchanges
      have hfirst : passes maxPasses body = .keep body :=
        passes_of_unchanged 31 herrors hchanges
      rw [hfirst, hsame]
      exact ⟨rfl, rfl⟩
    · obtain ⟨hresult, herrors', -⟩ := passes_of_changed 31 herrors hchanges
      rw [hsecond] at hresult herrors'
      exact ⟨hresult, herrors'⟩
  obtain ⟨hresult, herrors', -⟩ := definitions_eq (.ofMain body)
  refine ⟨_, folded_eq_ok_iff.2 ⟨herrors'.trans ?_, hresult.trans ?_, rfl⟩⟩
  · simp [ofMain, definition, hpasses.2]
  · rw [← hpasses.1]
    rfl

theorem Program.folded_ofMain_singleton {st : Stmt} (herrors : (stmt st).errors = [])
    (hkeep : stmt (stmt st).result = .keep (stmt st).result) :
    ∃ k, folded (.ofMain [st]) = .ok (.ofMain [(stmt st).result], k) := by
  refine folded_ofMain ?_ ?_
  · simp [stmts, herrors]
  · have hpass : pass [st] = [(stmt st).result] := rfl
    rw [hpass, stmts, hkeep]
    rfl

namespace Check

variable {d : IntDecl} {i : WrittenInt}

/-- The declaration of an admitted integer is accepted and reports nothing new. -/
theorem IntDecl.stmt_of_admitted (h : i.Admitted d.bits d.signed) (c : Context) (s : Scope) :
    ∃ s', stmt c (d.read (i.expr none)) s = (.ok (d.checked (i.expr (some d.ty))), s') ∧
      s'.errors = s.errors ∧ s'.learned = s.learned ∧ s'.trapped = s.trapped := by
  rcases coerce_writtenInt c s i d.bits d.signed with ⟨-, hok⟩ | ⟨hnot, -⟩
  · exact IntDecl.stmt_of_ok hok fun s => value?_writtenInt d.ty
  · exact absurd h hnot

/-- The declaration of an integer that is not admitted is refused. -/
theorem IntDecl.stmt_of_not_admitted (h : ¬i.Admitted d.bits d.signed) (c : Context) (s : Scope) :
    ∃ spoiled, stmt c (d.read (i.expr none)) s = (.error spoiled, s) := by
  rcases coerce_writtenInt c s i d.bits d.signed with ⟨hadm, -⟩ | ⟨-, spoiled, herror⟩
  · exact absurd hadm h
  · exact IntDecl.stmt_of_error herror

/-- A declaration of an integer, in any place and as the only statement of a program, is accepted exactly if
the integer is in the range of the type, and then folding makes the literal of the integer of its initial
value. With the magnitude of the least 64-bit integer in the type of this integer everything is the other way
round. -/
theorem accepted_iff_inRange (d : IntDecl) (hbits : d.bits = 64 ∨ d.bits = 16) (i : WrittenInt) :
    (∀ c s, ((∃ st s', stmt c (d.read (i.expr none)) s = (.ok st, s')) ↔
        (InRange d.bits d.signed i.value ↔ ¬i.Misread d.bits d.signed)) ∧
      ∀ st s', stmt c (d.read (i.expr none)) s = (.ok st, s') → (Fold.stmt st).errors = [] ∧
        d.Holds (i.accepted d.bits d.signed) (Fold.stmt st).result) ∧
    ((∃ checked, Compile.check (.ofMain [d.read (i.expr none)]) = .ok checked) ↔
      (InRange d.bits d.signed i.value ↔ ¬i.Misread d.bits d.signed)) ∧
    ∀ checked, Compile.check (.ofMain [d.read (i.expr none)]) = .ok checked → ∃ st k,
      Program.folded checked.program = .ok (.ofMain [st], k) ∧
      d.Holds (i.accepted d.bits d.signed) st := by
  rw [← WrittenInt.admitted_iff hbits]
  by_cases hadm : i.Admitted d.bits d.signed
  · obtain ⟨herrors, hholds⟩ := IntDecl.holds_of_admitted hbits hadm
    refine ⟨fun c s => ?_, ?_⟩
    · obtain ⟨s', hstmt, -⟩ := IntDecl.stmt_of_admitted hadm c s
      refine ⟨iff_of_true ⟨_, _, hstmt⟩ hadm, fun st s'' h => ?_⟩
      cases hstmt.symm.trans h
      exact ⟨herrors, hholds⟩
    · obtain ⟨s', hstmt, hkept⟩ := IntDecl.stmt_of_admitted hadm mainContext mainScope
      have hcheck := check_ofMain_of_ok hstmt hkept.1 hkept.2.1 hkept.2.2
      refine ⟨iff_of_true ⟨_, hcheck⟩ hadm, fun checked h => ?_⟩
      cases hcheck.symm.trans h
      obtain ⟨k, hfolded⟩ := folded_ofMain_singleton herrors hholds.stmt_eq
      exact ⟨_, k, hfolded, hholds⟩
  · refine ⟨fun c s => ?_, ?_⟩
    · obtain ⟨spoiled, hstmt⟩ := IntDecl.stmt_of_not_admitted hadm c s
      refine ⟨iff_of_false ?_ hadm, fun st s' h => ?_⟩
      · rintro ⟨st, s', h⟩
        cases hstmt.symm.trans h
      · cases hstmt.symm.trans h
    · obtain ⟨spoiled, hstmt⟩ := IntDecl.stmt_of_not_admitted hadm mainContext mainScope
      have hcheck := check_ofMain_of_error hstmt
      refine ⟨iff_of_false ?_ hadm, fun checked h => ?_⟩
      · rintro ⟨checked, h⟩
        cases hcheck.symm.trans h
      · cases hcheck.symm.trans h

/-- `have x: short? = -32768;` -/
theorem accepted_iff_inRange_leastShort :
    let d : IntDecl := ⟨"x", 16, true, false, ⟨0, 27⟩⟩
    let i : WrittenInt := ⟨true, 32768, ⟨0, 44⟩, ⟨0, 45⟩⟩
    (d.bits = 64 ∨ d.bits = 16) ∧ i.value = -32768 ∧ ∃ checked st k,
      Compile.check (.ofMain [d.read (i.expr none)]) = .ok checked ∧
      folded checked.program = .ok (.ofMain [st], k) ∧ d.Holds (-32768) st := by
  intro d i
  have hbits : d.bits = 64 ∨ d.bits = 16 := by decide
  obtain ⟨-, haccepted, hfolded⟩ := accepted_iff_inRange d hbits i
  have hin : InRange d.bits d.signed i.value := by decide
  have hread : ¬i.Misread d.bits d.signed := by decide
  obtain ⟨checked, hchecked⟩ := haccepted.2 (iff_of_true hin hread)
  obtain ⟨st, k, hst, hholds⟩ := hfolded checked hchecked
  exact ⟨hbits, by decide, checked, st, k, hchecked, hst, hholds⟩

/-- `have x: int? = 9223372036854775808;` is accepted, for the negative of this integer, and
`have x: int? = -9223372036854775808;` is refused. -/
theorem exists_accepted_not_inRange :
    ∃ (d : IntDecl) (i j : WrittenInt), d.bits = 64 ∧
      (¬InRange d.bits d.signed i.value ∧ ∃ checked st k,
        Compile.check (.ofMain [d.read (i.expr none)]) = .ok checked ∧
        Program.folded checked.program = .ok (.ofMain [st], k) ∧ d.Holds (-i.value) st) ∧
      InRange d.bits d.signed j.value ∧ ∃ error,
        Compile.check (.ofMain [d.read (j.expr none)]) = .error error := by
  refine ⟨⟨"x", 64, true, false, ⟨0, 27⟩⟩, ⟨false, 9223372036854775808, ⟨0, 42⟩, ⟨0, 42⟩⟩,
    ⟨true, 9223372036854775808, ⟨0, 42⟩, ⟨0, 43⟩⟩, rfl, ⟨by decide, ?_⟩, by decide, ?_⟩
  · exact ⟨_, _, _, rfl, rfl, _, _, rfl, rfl, by decide⟩
  · exact ⟨_, rfl⟩

end Check

end Sigil
