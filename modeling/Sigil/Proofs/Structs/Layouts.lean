import Sigil.Proofs.Structs.Fields

/-!
# Exact layouts

The layout of a struct is found if and only if the struct, and every struct that it contains, is well made;
and then its fields are those of the definition, each behind the sizes of those before it
(`Symbols.layout_ok_iff`).

A memo that has been filled in order keeps a struct only after those that it contains, which gives one
direction (`Symbols.Built.accounts`). For the other, structs are entered from the inside out
(`Symbols.reachable_of_wellMade`), and what is kept in one memo is found from any other.
-/

namespace Sigil

open Relation

namespace Symbols

/-! ## What is kept -/

/-- The layouts are those of well-made structs, and the structs that these contain have layouts too. -/
structure Accounts (p : Program) (kind : String → Option SymbolKind) (layouts : Assoc Layout) : Prop where
  struct : ∀ x l, layouts.get? x = some l →
    ∃ fields, p.Struct x fields ∧ p.Proper fields ∧ p.Describes kind fields l
  acyclic : ∀ x l, layouts.get? x = some l → ¬ TransGen p.Contains x x
  contained : ∀ x l, layouts.get? x = some l → ∀ y, p.Contains x y → ∃ l', layouts.get? y = some l'

section

variable {t : Symbols} {p : Program} {kind : String → Option SymbolKind} {layouts : Assoc Layout}
  {s : Memo} {x y : String} {l : Layout} {fields : List (String × TypeExpr)}

theorem Accounts.sized (h : Accounts p kind layouts) : Sized p layouts := by
  intro x l hl
  obtain ⟨fields, hx, -, hdescribes⟩ := h.struct x l hl
  exact .struct hx hdescribes.size .nil

theorem Accounts.reaches (h : Accounts p kind layouts) (hxy : ReflTransGen p.Contains x y)
    (hl : layouts.get? x = some l) : ∃ l', layouts.get? y = some l' := by
  induction hxy with
  | refl => exact ⟨l, hl⟩
  | tail _ hstep ih =>
    obtain ⟨l', hl'⟩ := ih
    exact h.contained _ l' hl' _ hstep

/-- A struct that is laid out over the layouts of others is accounted for. It does not contain itself, since
what it contains has a layout already. -/
theorem Accounts.put (h : Accounts p t.kind s.layouts) (hnodup : (p.map (·.name)).Nodup)
    (htells : t.Tells p) (hlit : p.LiteralLengths) (hx : p.Struct x fields)
    (hnone : s.layouts.get? x = none)
    (hl : layoutFields (t.namesOfDepth 0) x .empty fields s = (.ok l, s)) :
    Accounts p t.kind (s.layouts.put x l) := by
  obtain ⟨hproper, hdescribes, hready⟩ := proper_of_layoutFields hnodup htells h.sized (hlit x fields hx)
    p.proper_nil (p.describes_empty t.kind) hl
  have hheld : ∀ y, p.Contains x y → ∃ l', s.layouts.get? y = some l' := by
    rintro y ⟨fields', hx', ⟨f, hf, hy⟩, fields'', hstruct⟩
    cases hx.unique hnodup hx'
    exact hready f hf y fields'' hy hstruct
  have hstays : ∀ y l', s.layouts.get? y = some l' → (s.layouts.put x l).get? y = some l' := by
    intro y l' hy
    have hne : x ≠ y := by
      rintro rfl
      rw [hnone] at hy
      cases hy
    rw [Assoc.get?_put_of_ne hne]
    exact hy
  -- A layout is the new one or an old one.
  have hcases : ∀ y l', (s.layouts.put x l).get? y = some l' →
      (y = x ∧ l' = l) ∨ s.layouts.get? y = some l' := by
    intro y l' hy
    by_cases hxy : x = y
    · rw [← hxy, Assoc.get?_put_self] at hy
      exact Or.inl ⟨hxy.symm, (Option.some.inj hy).symm⟩
    · rw [Assoc.get?_put_of_ne hxy] at hy
      exact Or.inr hy
  refine ⟨?_, ?_, ?_⟩
  · intro y l' hy
    rcases hcases y l' hy with ⟨rfl, rfl⟩ | hy
    · exact ⟨fields, hx, hproper, hdescribes⟩
    · exact h.struct y l' hy
  · intro y l' hy
    rcases hcases y l' hy with ⟨rfl, rfl⟩ | hy
    · intro hcycle
      obtain ⟨z, hz, hback⟩ := TransGen.head'_iff.1 hcycle
      obtain ⟨lz, hlz⟩ := hheld z hz
      obtain ⟨l', hl'⟩ := h.reaches hback hlz
      rw [hnone] at hl'
      cases hl'
    · exact h.acyclic y l' hy
  · intro y l' hy z hz
    rcases hcases y l' hy with ⟨rfl, rfl⟩ | hy
    · obtain ⟨lz, hlz⟩ := hheld z hz
      exact ⟨lz, hstays z lz hlz⟩
    · obtain ⟨lz, hlz⟩ := h.contained y l' hy z hz
      exact ⟨lz, hstays z lz hlz⟩

/-- In a memo that has been filled in order, all layouts are accounted for. -/
theorem Built.accounts (h : t.Built s) (hnodup : (p.map (·.name)).Nodup) (htells : t.Tells p)
    (hlit : p.LiteralLengths) : Accounts p t.kind s.layouts := by
  induction h with
  | empty =>
    refine ⟨?_, ?_, ?_⟩
    all_goals
      intro x l hl
      cases hl
  | inProgress _ _ ih => exact ih
  | @put s k x v b _ hx hb hv ih =>
    cases k with
    | layouts =>
      obtain ⟨fields, hfields, rfl⟩ := Option.map_eq_some_iff.1 hb
      exact ih.put hnodup htells hlit ((htells.structs x fields).1 hfields) (hx .layouts) hv
    | constants => exact ih

theorem Accounts.wellMade (h : Accounts p kind layouts) (hnodup : (p.map (·.name)).Nodup)
    (hl : layouts.get? x = some l) : p.WellMade x := by
  obtain ⟨fields, hx, hproper, -⟩ := h.struct x l hl
  refine ⟨h.acyclic x l hl, ?_⟩
  intro fields' hx'
  cases hx.unique hnodup hx'
  exact hproper

theorem Accounts.describes (h : Accounts p kind layouts) (hnodup : (p.map (·.name)).Nodup)
    (hx : p.Struct x fields) (hl : layouts.get? x = some l) : p.Describes kind fields l := by
  obtain ⟨fields', hx', -, hdescribes⟩ := h.struct x l hl
  cases hx.unique hnodup hx'
  exact hdescribes

/-! ## Entering structs -/

theorem Ready.mono {s' : Memo} {type : TypeExpr} (h : Ready p s.layouts type) (hs : s.Within s') :
    Ready p s'.layouts type := by
  intro y fields hy hstruct
  obtain ⟨l, hl⟩ := h y fields hy hstruct
  exact ⟨l, hs .layouts y l hl⟩

/-- The memo can be filled further in order, so that the struct has a layout. -/
def Reachable (t : Symbols) (x : String) : Prop :=
  ∀ s, t.Built s → ∃ s', t.Built s' ∧ s.Within s' ∧ ∃ l, s'.layouts.get? x = some l

/-- The structs that some fields hold are entered one after another. -/
theorem exists_ready (fields : List (String × TypeExpr)) (hreach : ∀ y, (∃ f ∈ fields, f.2.held? = some y) →
    (∃ fields', p.Struct y fields') → t.Reachable y) (hs : t.Built s) :
    ∃ s', t.Built s' ∧ s.Within s' ∧ ∀ f ∈ fields, Ready p s'.layouts f.2 := by
  induction fields with
  | nil => exact ⟨s, hs, .refl s, List.forall_mem_nil _⟩
  | cons f rest ih =>
    obtain ⟨s1, hs1, hwithin, hready⟩ := ih fun y hy =>
      hreach y (hy.imp fun _ h => ⟨List.mem_cons_of_mem _ h.1, h.2⟩)
    by_cases hstruct : ∃ y, f.2.held? = some y ∧ ∃ fields', p.Struct y fields'
    · obtain ⟨y, hy, hfields⟩ := hstruct
      obtain ⟨s2, hs2, hwithin', l, hl⟩ := hreach y ⟨f, List.mem_cons_self, hy⟩ hfields s1 hs1
      refine ⟨s2, hs2, hwithin.trans hwithin', List.forall_mem_cons.2 ⟨?_, ?_⟩⟩
      · intro z fields' hz _
        cases hy.symm.trans hz
        exact ⟨l, hl⟩
      · intro g hg
        exact (hready g hg).mono hwithin'
    · refine ⟨s1, hs1, hwithin, List.forall_mem_cons.2 ⟨?_, hready⟩⟩
      intro y fields' hy hx
      exact absurd ⟨y, hy, fields', hx⟩ hstruct

/-- A struct that is well made throughout can be entered, after those that it contains. -/
theorem reachable_of_wellMade (hnodup : (p.map (·.name)).Nodup) (htells : t.Tells p) (hapart : t.Apart)
    (hlit : p.LiteralLengths) (hx : p.Struct x fields)
    (h : ∀ y, ReflTransGen p.Contains x y → p.WellMade y) : t.Reachable x := by
  refine Program.wellMade_induction (motive := fun x => ∀ fields, p.Struct x fields → t.Reachable x)
    ?_ h fields hx
  intro x hmade ih fields hx s hs
  have hreach : ∀ y, (∃ f ∈ fields, f.2.held? = some y) → (∃ fields', p.Struct y fields') →
      t.Reachable y := by
    rintro y hheld ⟨fields', hy⟩
    exact ih y ⟨fields, hx, hheld, fields', hy⟩ fields' hy
  obtain ⟨s1, hs1, hwithin, hready⟩ := exists_ready fields hreach hs
  cases hkept : s1.layouts.get? x with
  | some l => exact ⟨s1, hs1, hwithin, l, hkept⟩
  | none =>
    have hsized := (hs1.accounts hnodup htells hlit).sized
    obtain ⟨l, hl⟩ := exists_layoutFields (x := x) hnodup htells hsized (hlit x fields hx)
      (p.describes_empty t.kind) (hmade.proper fields hx) hready
    have hbody : Store.layouts.body t (t.namesOfDepth 0) x = some _ :=
      Option.map_eq_some_iff.2 ⟨fields, (htells.structs x fields).2 hx, rfl⟩
    have hlacks := hs1.lacks hapart hbody hkept
    exact ⟨_, .put hs1 hlacks hbody hl, hwithin.trans (hlacks.within_put (k := .layouts) l), l,
      Store.get?_put_self .layouts s1 x l⟩

end

/-- The layout of a struct is found if and only if the struct, and every struct that it contains, does not
contain itself and has proper fields; then it is the one that the definition describes. -/
theorem layout_ok_iff {t : Symbols} {p : Program} {es : List (Located TypeError)} {x : String}
    {fields : List (String × TypeExpr)} (hnodup : (p.map (·.name)).Nodup) (hlit : p.LiteralLengths)
    (h : ofProgram p = some (t, es)) (hx : p.Struct x fields) :
    ((∃ l, t.ask (t.layout x) = .ok l) ↔ ∀ y, ReflTransGen p.Contains x y → p.WellMade y) ∧
      ∀ l, t.ask (t.layout x) = .ok l → p.Describes t.kind fields l := by
  obtain ⟨halike, hbuilt, hprogress⟩ := built_ofProgram hnodup h
  have htells := (tells_ofNames hnodup).alike halike
  have hapart := (apart_ofNames hnodup).alike halike
  -- A layout that is found is kept then, in a memo that has been filled in order.
  have hkept : ∀ l, t.ask (t.layout x) = .ok l →
      ∃ s, t.Built s ∧ s.layouts.get? x = some l := by
    intro l hl
    rw [ask, Symbols.layout, ← consult_layouts] at hl
    exact ⟨_, hbuilt.get?_of_consult hapart hl⟩
  refine ⟨⟨?_, ?_⟩, ?_⟩
  · rintro ⟨l, hl⟩ y hxy
    obtain ⟨s, hs, hlayout⟩ := hkept l hl
    have haccounts := hs.accounts hnodup htells hlit
    obtain ⟨l', hl'⟩ := haccounts.reaches hxy hlayout
    exact haccounts.wellMade hnodup hl'
  · intro hmade
    obtain ⟨s, hs, -, l, hl⟩ := reachable_of_wellMade hnodup htells hapart hlit hx hmade .empty .empty
    refine ⟨l, ?_⟩
    rw [ask, Symbols.layout, ← consult_layouts]
    exact hbuilt.consult_of_built hprogress hs hl
  · intro l hl
    obtain ⟨s, hs, hlayout⟩ := hkept l hl
    exact (hs.accounts hnodup htells hlit).describes hnodup hx hlayout

/-- Structs that hold others directly, in an array and behind pointers, and one that holds itself. -/
def nested : Program :=
  [⟨"Twin", .origin, .struct [("left", .named "Tree"), ("right", .named "Tree")]⟩,
    ⟨"Tree", .origin, .struct [("leaves", .array (.intLit ⟨.origin, none⟩ 3) (.named "Leaf")),
      ("kind", .named "Kind"), ("up", .ptr (.named "Twin"))]⟩,
    ⟨"Leaf", .origin, .struct [("tag", .char), ("tree", .ptr (.named "Tree"))]⟩,
    ⟨"Kind", .origin, .enum ["small", "large"]⟩,
    ⟨"Knot", .origin, .struct [("ends", .array (.intLit ⟨.origin, none⟩ 0) (.named "Knot"))]⟩]

theorem literalLengths_nested : nested.LiteralLengths := by
  rintro x fields ⟨d, hd, -, hbody⟩ f hf e he
  simp only [nested, List.mem_cons, List.not_mem_nil, or_false] at hd
  rcases hd with rfl | rfl | rfl | rfl | rfl <;> cases hbody <;>
    simp only [List.mem_cons, List.not_mem_nil, or_false] at hf
  · rcases hf with rfl | rfl <;> cases he
  · rcases hf with rfl | rfl | rfl
    · cases he with
      | head => exact ⟨_, _, rfl, rfl⟩
      | tail _ he => cases he
    · cases he
    · cases he
  · rcases hf with rfl | rfl <;> cases he
  · cases hf
    cases he with
    | head => exact ⟨_, _, rfl, rfl⟩
    | tail _ he => cases he

theorem layouts_nested : (ofProgram nested).map (fun r =>
    ((r.1.ask (r.1.layout "Twin")).toOption.map (·.size), (r.1.ask (r.1.layout "Knot")).toOption))
    = some (some 86, none) := by
  decide +kernel

/-- The struct that holds another one twice is laid out, since both are well made; the one with an array of
itself, even of no elements, is not. -/
theorem layout_ok_iff_nested : ∃ t es, ofProgram nested = some (t, es) ∧
    (∃ l, t.ask (t.layout "Twin") = .ok l ∧ l.size = 86) ∧
    (∀ y, ReflTransGen nested.Contains "Twin" y → nested.WellMade y) ∧
    ¬ ∀ y, ReflTransGen nested.Contains "Knot" y → nested.WellMade y := by
  have hnodup : (nested.map (·.name)).Nodup := by decide
  have hlayouts := layouts_nested
  obtain ⟨⟨t, es⟩, htable, hsizes⟩ := Option.map_eq_some_iff.1 hlayouts
  obtain ⟨htwin, hknot⟩ := Prod.mk.inj hsizes
  obtain ⟨l, hl, hsize⟩ := Option.map_eq_some_iff.1 htwin
  have hfound : t.ask (t.layout "Twin") = .ok l := by
    cases hask : t.ask (t.layout "Twin") with
    | ok l' =>
      rw [hask] at hl
      cases hl
      rfl
    | error e =>
      rw [hask] at hl
      cases hl
  have htwins := layout_ok_iff hnodup literalLengths_nested htable ⟨_, .head _, rfl, rfl⟩
  have hknots := layout_ok_iff (x := "Knot") hnodup literalLengths_nested htable
    ⟨_, .tail _ (.tail _ (.tail _ (.tail _ (.head _)))), rfl, rfl⟩
  refine ⟨t, es, htable, ⟨l, hfound, hsize⟩, htwins.1.1 ⟨l, hfound⟩, ?_⟩
  intro hmade
  obtain ⟨l', hl'⟩ := hknots.1.2 hmade
  rw [hl'] at hknot
  cases hknot

end Symbols

end Sigil
