import Sigil.Proofs.Phases
import Sigil.Report.Diagnostics

/-!
# Carets

Where the caret of a report stands. A column counts bytes and the blanks before the caret are as many as the
column says, so the caret stands below what the error is about if the characters before it are of one byte
each. If not, it stands to the right of it, for each further byte by one, but not farther than behind the end
of the line (`Diagnostics.caret_below_iff`).
-/

namespace Sigil

open Source

namespace Source

/-- The bytes of some characters beyond one for each. -/
def furtherBytes (cs : List Char) : Nat :=
  byteLength cs - cs.length

theorem length_le_byteLength (cs : List Char) : cs.length ≤ byteLength cs := by
  induction cs with
  | nil => exact Nat.le_refl 0
  | cons c cs ih =>
    have hpos := c.utf8Size_pos
    rw [List.length_cons, byteLength]
    omega

theorem furtherBytes_cons (c : Char) (cs : List Char) :
    furtherBytes (c :: cs) = (c.utf8Size - 1) + furtherBytes cs := by
  have hpos := c.utf8Size_pos
  have hle := length_le_byteLength cs
  rw [furtherBytes, furtherBytes, byteLength, List.length_cons]
  omega

theorem furtherBytes_eq_zero_iff (cs : List Char) : furtherBytes cs = 0 ↔ ∀ c ∈ cs, c.utf8Size = 1 := by
  induction cs with
  | nil => simp [furtherBytes, byteLength]
  | cons c cs ih =>
    have hpos := c.utf8Size_pos
    rw [furtherBytes_cons, Nat.add_eq_zero_iff, ih, List.forall_mem_cons]
    exact and_congr_left fun _ => by omega

end Source

namespace Diagnostics

/-- The line with the caret, with some blanks before it. -/
def caretLine (blanks : Nat) : String :=
  "      " ++ Text.paint .blue "|" ++ " " ++ String.ofList (List.replicate blanks ' ') ++ Text.paintBold .red "^"

theorem caretLine_inj {n m : Nat} (h : caretLine n = caretLine m) : n = m := by
  have hlists := congrArg (List.length ∘ String.toList) h
  simpa [caretLine] using hlists

variable {d : Diagnostics} {e : Error} {p : Position} {before after : List Char}

theorem getLast?_report (hpos : e.pos? = some p)
    (hline : (Source.lines d.code.toList)[p.row]?.getD [] = before ++ after)
    (hcol : byteLength before = p.col) :
    (d.report e).getLast? = some (caretLine (before.length + min (furtherBytes before) after.length)) := by
  have hle := length_le_byteLength before
  have hblanks : min p.col (before ++ after).length =
      before.length + min (furtherBytes before) after.length := by
    rw [← hcol, List.length_append, furtherBytes]
    omega
  rw [report, hpos, Option.map_some, Option.getD_some, place, hline, hblanks]
  rfl

/-- Let an error be at a column behind some characters of its line. The last line of its report has as many
blanks before the caret as there are such characters and, beyond these, as many as they have further bytes,
if the rest of the line is that long. So the caret stands below the error if and only if each character
before is of one byte or the line ends there. -/
theorem caret_below_iff (hpos : e.pos? = some p)
    (hline : (Source.lines d.code.toList)[p.row]?.getD [] = before ++ after)
    (hcol : Source.byteLength before = p.col) :
    (d.report e).getLast? =
        some (caretLine (before.length + min (Source.furtherBytes before) after.length)) ∧
      ((d.report e).getLast? = some (caretLine before.length) ↔
        (∀ c ∈ before, c.utf8Size = 1) ∨ after = []) := by
  have hlast := getLast?_report hpos hline hcol
  refine ⟨hlast, ?_⟩
  rw [hlast, Option.some.injEq, ← furtherBytes_eq_zero_iff, ← List.length_eq_zero_iff]
  constructor
  · -- The caret's own column tells how many blanks stand before it.
    intro h
    have hblanks := caretLine_inj h
    omega
  · intro h
    have hmin : min (furtherBytes before) after.length = 0 := by omega
    rw [hmin, Nat.add_zero]

/-- A name that is not defined stands behind a character of two bytes. -/
def unknownBehindText : String :=
  "const main := fn () int! \x7b have s: str = \"é\"; return y; \x7d;"

def unknownName : Error := .type ⟨⟨0, 54⟩, .unknownIdentifier "y"⟩

theorem lines_unknownBehindText : (Source.lines unknownBehindText.toList)[0]?.getD [] =
    unknownBehindText.toList.take 53 ++ unknownBehindText.toList.drop 53 := by
  decide +kernel

theorem caret_below_iff_unknownBehindText :
    (report ⟨"main.zu", unknownBehindText, [unknownName]⟩ unknownName).getLast? = some (caretLine 54) ∧
      ¬ ((∀ c ∈ unknownBehindText.toList.take 53, c.utf8Size = 1) ∨ unknownBehindText.toList.drop 53 = []) := by
  have hpos : unknownName.pos? = some ⟨0, 54⟩ := rfl
  obtain ⟨hlast, hiff⟩ := caret_below_iff (d := ⟨"main.zu", unknownBehindText, [unknownName]⟩) hpos
    lines_unknownBehindText (by decide +kernel)
  have hblanks : (unknownBehindText.toList.take 53).length + min
      (furtherBytes (unknownBehindText.toList.take 53)) (unknownBehindText.toList.drop 53).length = 54 := by
    decide +kernel
  have hlength : (unknownBehindText.toList.take 53).length = 53 := by decide +kernel
  rw [hblanks] at hlast
  refine ⟨hlast, fun h => ?_⟩
  have hbelow := hlast.symm.trans (hiff.2 h)
  rw [hlength] at hbelow
  exact absurd (caretLine_inj (Option.some.inj hbelow)) (by decide)

/-- So the caret may stand beside what the error is about. -/
theorem exists_caret_beside :
    ∃ code e p before after, Compile.frontend code = .error (.errors [e]) ∧ e.pos? = some p ∧
      (Source.lines code.toList)[p.row]?.getD [] = before ++ after ∧ Source.byteLength before = p.col ∧
      (report ⟨"main.zu", code, [e]⟩ e).getLast? ≠ some (caretLine before.length) := by
  refine ⟨unknownBehindText, unknownName, ⟨0, 54⟩, _, _, ?_, rfl, lines_unknownBehindText, ?_, ?_⟩
  · exact Compile.frontend_of_errorsOf (by decide +kernel) (by decide)
  · decide +kernel
  · decide +kernel

end Diagnostics

end Sigil
