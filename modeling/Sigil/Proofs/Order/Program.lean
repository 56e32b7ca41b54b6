import Mathlib.Data.List.Perm.Basic
import Sigil.Proofs.Order.Checking
import Sigil.Proofs.Phases

/-!
# The order of definitions does not matter

A program in which no name is defined twice can be checked in any order of its definitions
(`Program.typed_of_perm`). Its definitions are worked out to the same, whatever else has been kept or is in
progress at the time, and its functions get the same types.
-/

namespace Sigil

open Symbols

/-- By name, two checked programs are the same. -/
structure Checked.Same (c c' : Checked) : Prop where
  layouts : ∀ x, c.symbols.ask (c.symbols.layout x) = c'.symbols.ask (c'.symbols.layout x)
  constants : ∀ x, c.symbols.ask (c.symbols.globalConst x) = c'.symbols.ask (c'.symbols.globalConst x)
  funcs : ∀ x, c.symbols.funcs.get? x = c'.symbols.funcs.get? x
  kinds : ∀ x, c.symbols.kind x = c'.symbols.kind x
  variants : ∀ x v, c.symbols.variant x v = c'.symbols.variant x v
  program : c.program.Perm c'.program
  bodies : ∀ d ∈ c.program, ∀ d' ∈ c'.program, d.name = d'.name → d.body = d'.body

namespace Symbols

/-- What is kept, and what is in progress, does not show in what is worked out. -/
structure Transparent (t : Symbols) : Prop where
  layout : ∀ s, t.Reaches s → ∀ n x l, (t.layoutBy (t.namesOfDepth n) x s).1 = .ok l →
    (t.layout x .empty).1 = .ok l
  constant : ∀ s, t.Reaches s → ∀ n x g, (t.constantBy (t.namesOfDepth n) x s).1 = .ok g →
    (t.globalConst x .empty).1 = .ok g
  layout_of_empty : ∀ s, t.Reaches s → s.inProgress = [] → ∀ x l, (t.layout x .empty).1 = .ok l →
    (t.layout x s).1 = .ok l
  constant_of_empty : ∀ s, t.Reaches s → s.inProgress = [] → ∀ x g,
    (t.globalConst x .empty).1 = .ok g → (t.globalConst x s).1 = .ok g

variable {t : Symbols}

/-- Whatever is kept, a question is answered as from the start. -/
theorem transparent (hapart : t.Apart) : t.Transparent := by
  constructor
  · intro s hs n x l hl
    rw [← consult_layouts] at hl
    have hempty := hs.consult_empty hapart hl
    rwa [consult_layouts] at hempty
  · intro s hs n x g hg
    rw [← consult_constants] at hg
    have hempty := hs.consult_empty hapart hg
    rwa [consult_constants] at hempty
  · intro s hs hin x l hl
    rw [layout, ← consult_layouts] at hl ⊢
    exact hs.consult_of_empty hapart hin hl
  · intro s hs hin x g hg
    rw [globalConst, ← consult_constants] at hg ⊢
    exact hs.consult_of_empty hapart hin hg

/-- Where all that is defined is kept, questions are answered as with nothing kept. -/
theorem consult_empty_eq (hbuilt : t.Built t.memo) (hkept : ∀ (k : Store) (names : Names) (x : String),
      (k.body t names x).isSome = true → (k.get? t.memo x).isSome = true) (k : Store) (x : String) :
    (t.consult (t.namesOfDepth t.depth) k x .empty).1 =
      (t.consult (t.namesOfDepth t.depth) k x t.memo).1 := by
  cases hv : k.get? t.memo x with
  | some v => rw [hbuilt.consult_empty hv, consult_of_kept hv]
  | none =>
    have hb : k.body t (t.namesOfDepth t.depth) x = none := by
      cases hb : k.body t (t.namesOfDepth t.depth) x with
      | none => rfl
      | some b =>
        have hsome := hkept k _ x (Option.isSome_iff_exists.2 ⟨b, hb⟩)
        rw [hv] at hsome
        cases hsome
    rw [consult_of_unknown hv hb, consult_of_unknown (lacks_empty x k) hb]

end Symbols

namespace Program

variable {p q : Program} {c c' : Checked}

/-- The table of a program without errors keeps all that the program defines. -/
theorem settled_of_typed (hnodup : (p.map (·.name)).Nodup) (h : p.typed = some (c, []))
    {t : Symbols} (hsame : c.symbols.Same t) : c.symbols.Settled t := by
  obtain ⟨-, hall, -⟩ := (ofProgram_eq_some hnodup).1 (typed_eq_some.1 h).1
  exact ⟨hsame, fun k names x => isSome_of_defineAll hnodup hall⟩

/-- A program that is accepted in one order is accepted in any other one. -/
theorem exists_typed_of_perm (hnodup : (p.map (·.name)).Nodup) (hperm : p.Perm q)
    (h : p.typed = some (c, [])) :
    ∃ c', q.typed = some (c', []) ∧ c.symbols.Settled c'.symbols ∧ c.program.Perm c'.program := by
  obtain ⟨htable, hdefs⟩ := typed_eq_some.1 h
  obtain ⟨t', htable', hsame⟩ := exists_ofProgram_of_perm hnodup hperm htable
  have hsettled := settled_of_typed hnodup h hsame
  obtain ⟨q', hall, hprogram⟩ := List.perm_comp_forall₂ hperm.symm hdefs
  have hdefs' : List.Forall₂ (fun d d' => Check.definition t' d = some (d', [])) q q' := by
    refine hall.imp ?_
    intro d d' hd
    rwa [← Check.definition_eq hsettled]
  exact ⟨⟨q', t'⟩, typed_eq_some.2 ⟨htable', hdefs'⟩, hsettled, hprogram.symm⟩

/-- Checked definitions have the names that they had. -/
theorem names_of_typed (h : p.typed = some (c, [])) : c.program.map (·.name) = p.map (·.name) := by
  obtain ⟨-, hdefs⟩ := typed_eq_some.1 h
  clear h
  generalize c.program = p' at hdefs ⊢
  induction hdefs with
  | nil => rfl
  | cons hd _ ih => rw [List.map_cons, List.map_cons, (Check.definition_keeps hd).1, ih]

/-- A finished table answers as a table with nothing kept. -/
theorem ask_of_typed (hnodup : (p.map (·.name)).Nodup) (h : p.typed = some (c, [])) (x : String) :
    (c.symbols.layout x .empty).1 = c.symbols.ask (c.symbols.layout x) ∧
      (c.symbols.globalConst x .empty).1 = c.symbols.ask (c.symbols.globalConst x) := by
  obtain ⟨-, hall, -⟩ := (ofProgram_eq_some hnodup).1 (typed_eq_some.1 h).1
  have hbuilt := (told_of_defineAll hnodup hall).1.built
  have hempty := consult_empty_eq hbuilt fun k names x =>
    isSome_of_defineAll hnodup hall
  constructor
  · have hlayout := hempty .layouts x
    rwa [consult_layouts] at hlayout
  · have hconst := hempty .constants x
    rwa [consult_constants] at hconst

/-- Two orders lead to the same program by name. -/
theorem same_of_typed (hnodup : (p.map (·.name)).Nodup) (hperm : p.Perm q)
    (h : p.typed = some (c, [])) (h' : q.typed = some (c', [])) : c.Same c' := by
  obtain ⟨c1, h1, hsettled, hprogram⟩ := exists_typed_of_perm hnodup hperm h
  rw [h'] at h1
  cases h1
  refine ⟨?_, ?_, hsettled.funcs, ?_, ?_, hprogram, ?_⟩
  · intro x
    exact (hsettled.layout x).ask
  · intro x
    exact (hsettled.globalConst x).ask
  · intro x
    rw [hsettled.alike.kind]
  · intro x v
    rw [hsettled.alike.variant]
  · -- A program has one definition of each name.
    intro d hd d' hd' hname
    have hnames : (c.program.map (·.name)).Nodup := (names_of_typed h).symm ▸ hnodup
    rw [List.inj_on_of_nodup_map hnames hd (hprogram.mem_iff.2 hd') hname]

/-- The order of definitions does not matter. If no name is defined twice, a program can be checked in one
order of its definitions if it can be checked in another one, and then both lead to the same layouts,
constants, signatures, enums and typed bodies by name. A finished table answers as one with nothing
kept, and whatever is worked out while other names are in progress is worked out with nothing kept. -/
theorem typed_of_perm (hnodup : (p.map (·.name)).Nodup) (hperm : p.Perm q) :
    ((∃ c, p.typed = some (c, [])) ↔ ∃ c, q.typed = some (c, [])) ∧
      (∀ c c', p.typed = some (c, []) → q.typed = some (c', []) → c.Same c') ∧
      (∀ c, p.typed = some (c, []) → ∀ x,
        (c.symbols.layout x .empty).1 = c.symbols.ask (c.symbols.layout x) ∧
        (c.symbols.globalConst x .empty).1 = c.symbols.ask (c.symbols.globalConst x)) ∧
      (Symbols.empty.indexAll p).1.Transparent := by
  have hnodup' : (q.map (·.name)).Nodup := (hperm.map _).nodup_iff.1 hnodup
  refine ⟨⟨?_, ?_⟩, ?_, ?_, ?_⟩
  · rintro ⟨c, h⟩
    obtain ⟨c', h', -⟩ := exists_typed_of_perm hnodup hperm h
    exact ⟨c', h'⟩
  · rintro ⟨c, h⟩
    obtain ⟨c', h', -⟩ := exists_typed_of_perm hnodup' hperm.symm h
    exact ⟨c', h'⟩
  · intro c c' h h'
    exact same_of_typed hnodup hperm h h'
  · intro c h
    exact ask_of_typed hnodup h
  · rw [indexAll_of_new (fun _ _ => rfl) hnodup]
    exact transparent (apart_ofNames hnodup)

/-- Definitions that refer to later ones: a struct by a constant, the constant by the size of another struct,
and that one by a pointer to the first. -/
def tangled : Program :=
  let pos : Position := ⟨1, 1⟩
  let mark : Mark := ⟨pos, none⟩
  [⟨"main", pos, .func ⟨[], .int 64 (some true), [.ret pos (some (.call mark (.ident mark "f") []))]⟩⟩,
    ⟨"f", pos, .func ⟨[], .int 64 (some true),
      [.var pos ⟨"s", some (.named "S"), none, true, none⟩, .ret pos (some (.ident mark "N"))]⟩⟩,
    ⟨"S", pos, .struct [("a", .array (.ident mark "N") .char)]⟩,
    ⟨"N", pos, .const none (.sizeof mark (.named "T"))⟩,
    ⟨"T", pos, .struct [("n", .int 64 none), ("s", .ptr (.named "S"))]⟩]

theorem typed_of_perm_tangled : ∃ c c', tangled.typed = some (c, []) ∧
    Program.typed tangled.reverse = some (c', []) ∧ c.Same c' := by
  have hok : tangled.typed.map (fun r => r.2.isEmpty) = some true := by decide +kernel
  obtain ⟨⟨c, es⟩, h, hes⟩ := Option.map_eq_some_iff.1 hok
  obtain rfl := List.isEmpty_iff.1 hes
  have hall := typed_of_perm (p := tangled) (by decide) tangled.reverse_perm.symm
  obtain ⟨c', h'⟩ := hall.1.1 ⟨c, h⟩
  exact ⟨c, c', h, h', hall.2.1 c c' h h'⟩

end Program

end Sigil
