import Sigil.Proofs.Frames
import Sigil.Proofs.Laws.Folding
import Sigil.Proofs.Locations.Checking
import Sigil.Proofs.Parsing.Programs

/-!
# Errors are at tokens

Every error of a text that is refused is at a token of the text (`Compile.errors_at_tokens`). What is read from
tokens is at their places, and checking and folding keep to the places of what they are given. The one report
that has no place in the text is that of a missing entry point, which is at the first place of all.
-/

namespace Sigil

open List

variable {P : Position → Prop}

/-! ## Symbol tables -/

namespace Symbols

variable {t t' : Symbols} {d : Def} {ds : List Def} {es : List (Located TypeError)}

/-- The names are at places with the property, and every function is among them. -/
structure At (P : Position → Prop) (t : Symbols) : Prop where
  defs : ∀ entry ∈ t.defs, P entry.2.2
  funcs : ∀ x, t.funcs.has x = true → t.defs.has x = true

theorem defs_index (t : Symbols) (d : Def) :
    (t.index d).1.defs = t.defs.putNew d.name (d.body.kind, d.pos) := by
  unfold index Assoc.putNew
  split
  · rfl
  · cases d.body <;> rfl

/-- A name that is taken is reported where it is defined again. -/
theorem at_index (ht : t.At P) (hd : P d.pos) :
    (t.index d).1.At P ∧ ∀ e ∈ (t.index d).2, P e.pos := by
  refine ⟨⟨?_, fun x hx => ?_⟩, ?_⟩
  · rw [defs_index, Assoc.putNew]
    split
    · exact ht.defs
    · exact forall_mem_append.2 ⟨ht.defs, forall_mem_singleton.2 hd⟩
  · rw [(t.index_spec d).2.1] at hx
    rw [defs_index]
    exact Assoc.has_putNew (Or.inl (ht.funcs x hx))
  · unfold index
    split
    · exact forall_mem_singleton.2 hd
    · cases d.body with
      | enum variants => exact forall_mem_map.2 fun _ _ => hd
      | _ => exact forall_mem_nil _

theorem at_indexAll (ht : t.At P) (hds : ∀ d ∈ ds, P d.pos) :
    (t.indexAll ds).1.At P ∧ ∀ e ∈ (t.indexAll ds).2, P e.pos := by
  induction ds generalizing t with
  | nil => exact ⟨ht, forall_mem_nil _⟩
  | cons d ds ih =>
    obtain ⟨hd, hds⟩ := forall_mem_cons.1 hds
    obtain ⟨hindex, herrors⟩ := at_index ht hd
    obtain ⟨hrest, herrors'⟩ := ih hindex hds
    exact ⟨hrest, forall_mem_append.2 ⟨herrors, herrors'⟩⟩

/-- Names that have been entered stay, and all those of the definitions are. -/
theorem has_indexAll {x : String} (h : t.defs.has x = true ∨ ∃ d ∈ ds, d.name = x) :
    (t.indexAll ds).1.defs.has x = true := by
  induction ds generalizing t with
  | nil =>
    refine h.resolve_right ?_
    rintro ⟨d, hd, -⟩
    cases hd
  | cons d ds ih =>
    refine ih (t := (t.index d).1) ?_
    rw [defs_index]
    rcases h with h | ⟨d', hd', rfl⟩
    · exact Or.inl (Assoc.has_putNew (Or.inl h))
    · rcases mem_cons.1 hd' with rfl | hd'
      · exact Or.inl (Assoc.has_putNew (Or.inr rfl))
      · exact Or.inr ⟨d', hd', rfl⟩

/-- A function is entered under the name of its definition. -/
theorem Step.at {r : Except Fault Unit} (h : t.Step d r t') (ht : t.At P) (hd : t.defs.has d.name = true) :
    t'.At P := by
  refine ⟨h.defs ▸ ht.defs, fun x hx => ?_⟩
  obtain ⟨sig, hsig⟩ := Option.isSome_iff_exists.1 hx
  rw [h.defs]
  rcases h.get?_funcs hsig with ⟨rfl, -⟩ | hsig
  · exact hd
  · exact ht.funcs x (Option.isSome_iff_exists.2 ⟨sig, hsig⟩)

theorem at_checkMain (ht : t.At P) : ∀ e ∈ t.checkMain, P e.pos ∨ e = ⟨.origin, .missingMain⟩ := by
  unfold checkMain
  split
  · exact forall_mem_singleton.2 (Or.inr rfl)
  · next sig hsig =>
    split
    · exact forall_mem_nil _
    · -- The function has been entered under its name, with its place.
      have hmain : t.defs.has "main" = true := ht.funcs "main" (by rw [Assoc.has, hsig]; rfl)
      obtain ⟨entry, hentry⟩ := Option.isSome_iff_exists.1 hmain
      refine forall_mem_singleton.2 (Or.inl ?_)
      rw [hentry]
      exact ht.defs _ (Assoc.mem_of_get? hentry)

/-- All errors of a table are at its definitions, but that of a missing entry point. -/
theorem at_ofProgram {p : Program} (hp : ∀ d ∈ p, P d.pos) (h : ofProgram p = some (t, es)) :
    ∀ e ∈ es, P e.pos ∨ e = ⟨.origin, .missingMain⟩ := by
  have hempty : empty.At P := ⟨forall_mem_nil _, fun x hx => by cases hx⟩
  obtain ⟨hindexed, herrors⟩ := at_indexAll hempty hp
  have hstep : ∀ d ∈ p, ∀ t r t', t.At P ∧ t.defs = (indexAll empty p).1.defs → Step t d r t' →
      (t'.At P ∧ t'.defs = (indexAll empty p).1.defs) ∧ ∀ e, r = .error (.error e) → P d.pos := by
    rintro d hd t r t' ⟨ht, hdefs⟩ hstep
    have hname : t.defs.has d.name = true := hdefs ▸ has_indexAll (Or.inr ⟨d, hd, rfl⟩)
    exact ⟨⟨hstep.at ht hname, hstep.defs.trans hdefs⟩, fun _ _ => hp d hd⟩
  obtain ⟨⟨ht, -⟩, es', rfl, herrors', -⟩ :=
    ofProgram_induction (E := fun e => P e.pos) h ⟨hindexed, rfl⟩ hstep
  intro e he
  rcases mem_append.1 he with he | he
  · exact Or.inl ((mem_append.1 he).elim (herrors e) (herrors' e))
  · exact at_checkMain ht e he

end Symbols

/-! ## Programs that are checked -/

/-- The places of a program that has been read. -/
theorem Func.Read.places {f : Func} (h : f.Read P) : Stmt.AllOver P (Expr.At P) f.body :=
  ⟨h.body.1, fun e he n hn => (h.body.2 e he n hn).pos⟩

theorem Program.errors_typed_at {p : Program} {c : Checked} {es : List (Located TypeError)}
    (hp : ∀ d ∈ p, d.Read P) (h : Program.typed p = some (c, es)) :
    ∀ e ∈ es, P e.pos ∨ e = ⟨.origin, .missingMain⟩ := by
  obtain ⟨⟨t, es1⟩, htable, h⟩ := Option.bind_eq_some_iff.1 h
  obtain ⟨⟨p', es2⟩, hdefs, h⟩ := Option.bind_eq_some_iff.1 h
  cases h
  have htable' := Symbols.at_ofProgram (fun d hd => (hp d hd).pos) htable
  have herrors := Check.errors_definitions_at (fun d hd f hf => ((hp d hd).body f hf).places) hdefs
  exact forall_mem_append.2 ⟨htable', fun e he => Or.inl (herrors e he)⟩

/-! ## Texts that are refused -/

namespace Compile

variable {code : String} {p : Program} {c : Checked} {es : List Error}

/-- A text is refused by the first stage that finds errors. -/
theorem stage_of_errors (h : frontend code = .error (.errors es)) :
    parse code = .error (.errors es) ∨
      ∃ p, parse code = .ok p ∧ (check p = .error (.errors es) ∨
        ∃ c, check p = .ok c ∧ fold c = .error (.errors es)) := by
  unfold frontend at h
  cases hparse : parse code with
  | error stop =>
    rw [hparse] at h
    cases h
    exact Or.inl rfl
  | ok p =>
    rw [hparse] at h
    change (check p >>= fold) = .error (.errors es) at h
    refine Or.inr ⟨p, rfl, ?_⟩
    cases hcheck : check p with
    | error stop =>
      rw [hcheck] at h
      cases h
      exact Or.inl rfl
    | ok c =>
      rw [hcheck] at h
      exact Or.inr ⟨c, rfl, h⟩

/-- Errors that were found by one phase. -/
theorem forall_found {α : Type} {found : List (Located α)} {make : Located α → Error} {Q : Located α → Prop}
    (hne : found ≠ []) (h : ∀ x ∈ found, Q x) :
    found.map make ≠ [] ∧ ∀ e ∈ found.map make, ∃ x, e = make x ∧ Q x := by
  refine ⟨fun hmap => hne (map_eq_nil_iff.1 hmap), forall_mem_map.2 fun x hx => ?_⟩
  exact ⟨x, rfl, h x hx⟩

theorem read_of_parse (hP : ∀ t ∈ Token.scan code, P t.pos) (h : parse code = .ok p) : ∀ d ∈ p, d.Read P := by
  unfold parse at h
  split at h
  · next hread =>
    cases h
    exact Parser.read_of_parseSource hP hread
  · cases h

/-- Errors of reading are at tokens. -/
theorem errors_of_parse (hP : ∀ t ∈ Token.scan code, P t.pos) (h : parse code = .error (.errors es)) :
    es ≠ [] ∧ ((∀ e ∈ es, ∃ x, e = .lexical x ∧ P x.pos) ∨ ∀ e ∈ es, ∃ x, e = .grammar x ∧ P x.pos) := by
  obtain ⟨-, herrors⟩ := Parser.read_program hP
  unfold parse parseSource at h
  dsimp only at h
  split at h
  · cases h
  · next hread =>
    cases h
    split at hread
    · split at hread
      · cases hread
      · next errors hnil heq =>
        cases hread
        rw [heq] at herrors
        exact (forall_found hnil herrors).imp_right Or.inr
    · next hlexical =>
      cases hread
      refine ⟨hlexical, Or.inl fun e he => ?_⟩
      obtain ⟨t, ht, hsome⟩ := mem_filterMap.1 he
      split at hsome
      · cases hsome
        exact ⟨_, rfl, hP t ht⟩
      · cases hsome

theorem errors_of_check (hp : ∀ d ∈ p, d.Read P) (h : check p = .error (.errors es)) :
    es ≠ [] ∧ ∀ e ∈ es, ∃ x, e = .type x ∧ (P x.pos ∨ x = ⟨.origin, .missingMain⟩) := by
  unfold check at h
  split at h
  · cases h
  · cases h
  · next c errors hnil htyped =>
    cases h
    exact forall_found hnil (Program.errors_typed_at hp htyped)

/-- What stands in an accepted program stands where something was written. -/
theorem places_of_check (hp : ∀ d ∈ p, d.Read P) (h : check p = .ok c) :
    ∀ d ∈ c.program, ∀ f, d.body = .func f →
      Stmt.AllHave (Expr.All (Expr.Fit P fun _ => True)) (fun _ => True) f.body := by
  obtain ⟨-, hknows, hdefs⟩ := of_check h
  intro d' hd' f' hf'
  obtain ⟨d, hd, hdef⟩ := forall₂_left hdefs.flip hd'
  obtain ⟨f, hf⟩ := Check.func_of_definition hdef hf'
  exact Check.fit_of_definition (fun _ _ _ _ _ _ => trivial) (hknows d hd) hdef hf hf'
    ((hp d hd).body f hf).places.2

/-- Errors of folding are at tokens, as the checked program keeps the places. -/
theorem errors_of_fold (hp : ∀ d ∈ p, d.Read P) (hc : check p = .ok c) (h : fold c = .error (.errors es)) :
    es ≠ [] ∧ ∀ e ∈ es, ∃ x, e = .type x ∧ P x.pos := by
  have herrors := Fold.errors_definitions_at (places_of_check hp hc)
  unfold fold Program.folded at h
  split at h
  · cases h
  · next errors hfolded =>
    cases h
    split at hfolded
    · cases hfolded
    · next hnil heq =>
      cases hfolded
      rw [heq] at herrors
      exact forall_found hnil herrors

/-- If a text is refused, there are errors, all of them from one phase, and each is at the start of a token of
the text. Only a missing entry point is reported at the first place of the text, whether or not a token starts
there. -/
theorem errors_at_tokens (h : frontend code = .error (.errors es)) :
    es ≠ [] ∧
      ((∀ e ∈ es, ∃ x, e = .lexical x ∧ x.pos ∈ (Token.scan code).map (·.pos)) ∨
        (∀ e ∈ es, ∃ x, e = .grammar x ∧ x.pos ∈ (Token.scan code).map (·.pos)) ∨
        ∀ e ∈ es, ∃ x, e = .type x ∧
          (x.pos ∈ (Token.scan code).map (·.pos) ∨ x = ⟨⟨0, 0⟩, .missingMain⟩)) := by
  have hstart : ∀ t ∈ Token.scan code, t.pos ∈ (Token.scan code).map (·.pos) :=
    fun t ht => mem_map_of_mem ht
  rcases stage_of_errors h with hparse | ⟨p, hparse, hcheck | ⟨c, hcheck, hfold⟩⟩
  · exact (errors_of_parse (P := (· ∈ _)) hstart hparse).imp_right fun hall => hall.imp_right Or.inl
  · have hp := read_of_parse (P := (· ∈ _)) hstart hparse
    exact (errors_of_check hp hcheck).imp_right fun hall => Or.inr (Or.inr hall)
  · have hp := read_of_parse (P := (· ∈ _)) hstart hparse
    obtain ⟨hne, hall⟩ := errors_of_fold hp hcheck hfold
    refine ⟨hne, Or.inr (Or.inr fun e he => ?_)⟩
    obtain ⟨x, rfl, hpos⟩ := hall e he
    exact ⟨x, rfl, Or.inl hpos⟩

/-- A program without an entry point, whose first token is in its second line, with a constant that does not fit
where it is used and a name that is not known. -/
def withoutMain : String :=
  "\nconst n := 99999;\nconst f := fn () void \x7b have x: short? = n; return y; \x7d;"

theorem errors_at_tokens_withoutMain :
    ∃ es, frontend withoutMain = .error (.errors es) ∧
      es.map Error.pos? = [some ⟨0, 0⟩, some ⟨2, 41⟩, some ⟨2, 51⟩] ∧
      ((∀ e ∈ es, ∃ x, e = .lexical x ∧ x.pos ∈ (Token.scan withoutMain).map (·.pos)) ∨
        (∀ e ∈ es, ∃ x, e = .grammar x ∧ x.pos ∈ (Token.scan withoutMain).map (·.pos)) ∨
        ∀ e ∈ es, ∃ x, e = .type x ∧
          (x.pos ∈ (Token.scan withoutMain).map (·.pos) ∨ x = ⟨⟨0, 0⟩, .missingMain⟩)) := by
  have hplaces : (errorsOf withoutMain).map Error.pos? = [some ⟨0, 0⟩, some ⟨2, 41⟩, some ⟨2, 51⟩] := by
    decide +kernel
  have hne : errorsOf withoutMain ≠ [] := fun hnil => by simp [hnil] at hplaces
  have hfront := frontend_of_errorsOf rfl hne
  exact ⟨_, hfront, hplaces, (errors_at_tokens hfront).2⟩

end Compile

end Sigil
