import Sigil.Proofs.Control.Simulation
import Sigil.Proofs.Emission.Labels

/-!
# Lowering of control flow

The code of a function, executed by its labels and jumps, runs the parts of its statements in the order in
which the statements are controlled (`realises_of_function`). Generated code is laid out for the flow
of its statements (`laid_stmt`), and no label stands in it twice, so that executing it follows the flow.
Nothing is assumed of the statements but that there is code for them.
-/

namespace Sigil.Code

open Control List Segment
open Machine (Block Label Line)

/-! ## Layout -/

/-- The block is code for a part. -/
def IsCode (site : Site) (leaf : Leaf) (q : Nat × Block) : Prop :=
  ∃ s s', leaf.code site s = (.ok q.2, s')

/-- The code is laid out for the flow, from any number on, with code for each of its parts. -/
def Laid (site : Site) (exits : Option Exits) (f : Flow Leaf) (c : Block) : Prop :=
  ∀ i, ∃ g segs, Lays site.returnLabel exits i g segs ∧ segs.flatMap Segment.code = c ∧
    Flow.Rel (IsCode site) f g

namespace Laid

variable {site : Site} {exits : Option Exits} {f g : Flow Leaf} {c c' : Block} {s s' : Emission}

theorem skip : Laid site exits .skip [] :=
  fun _ => ⟨.skip, [], .skip, rfl, .skip⟩

theorem atom (leaf : Leaf) (h : leaf.code site s = (.ok c, s')) : Laid site exits (.atom leaf) c :=
  fun i => ⟨.atom (i, c), [.atom c], .atom c, by simp [code], .atom ⟨s, s', h⟩⟩

theorem seq (h : Laid site exits f c) (h' : Laid site exits g c') :
    Laid site exits (.seq f g) (c ++ c') := by
  intro i
  obtain ⟨f', segs, hlays, rfl, hf⟩ := h i
  obtain ⟨g', segs', hlays', rfl, hg⟩ := h' (i + segs.length)
  exact ⟨.seq f' g', segs ++ segs', .seq hlays hlays', flatMap_append, .seq hf hg⟩

theorem cond {e : Expr} {test : Block} (otherwise done : Label)
    (htest : condition site e s = (.ok test, s')) (h : Laid site exits f c)
    (h' : Laid site exits g c') :
    Laid site exits (.cond (.test e) f g) (condCode otherwise done test c c') := by
  intro i
  obtain ⟨f', segs, hlays, rfl, hf⟩ := h (i + 2)
  obtain ⟨g', segs', hlays', rfl, hg⟩ := h' (i + 2 + segs.length + 2)
  refine ⟨.cond (i, test) f' g', condSegments otherwise done test segs segs',
    .cond otherwise done test hlays hlays', ?_, .cond ⟨s, s', htest⟩ hf hg⟩
  simp [condSegments, condCode, code]

theorem loop {e : Expr} {test : Block} (start : Label) (x : Exits)
    (htest : condition site e s = (.ok test, s')) (h : Laid site (some x) f c)
    (h' : Laid site (some x) g c') :
    Laid site exits (.loop (.test e) f g) (loopCode start x [] test c c') := by
  intro i
  obtain ⟨f', segs, hlays, rfl, hf⟩ := h (i + 3)
  obtain ⟨g', segs', hlays', rfl, hg⟩ := h' (i + 3 + segs.length + 1)
  refine ⟨.loop (i + 1, test) f' g', loopSegments start x test segs segs',
    .loop start x test hlays hlays', ?_, .loop ⟨s, s', htest⟩ hf hg⟩
  simp [loopSegments, loopCode, code]

theorem ret : Laid site exits .ret [.jump site.returnLabel] :=
  fun _ => ⟨.ret, [.line (.jump site.returnLabel)], .ret, rfl, .ret⟩

theorem brk (h : exit exits Exits.done s = (.ok c, s')) : Laid site exits .brk c := by
  cases exits with
  | none => cases h
  | some x =>
    cases h
    exact fun _ => ⟨.brk, [.line (.jump x.done)], .brk x, rfl, .brk⟩

theorem cont (h : exit exits Exits.next s = (.ok c, s')) : Laid site exits .cont c := by
  cases exits with
  | none => cases h
  | some x =>
    cases h
    exact fun _ => ⟨.cont, [.line (.jump x.next)], .cont x, rfl, .cont⟩

end Laid

mutual

/-- The code of a statement is laid out for its flow. -/
theorem laid_stmt {site : Site} (st : Stmt) {exits : Option Exits} {s s' : Emission} {c : Block}
    (h : stmt site exits st s = (.ok c, s')) : Laid site exits st.flow c := by
  match st with
  | .block pos body =>
    obtain ⟨s1, hbody, -⟩ := of_enclosed h
    exact laid_stmts body hbody
  | .expr pos e => exact .atom (.expr e) h
  | .var pos d => exact .atom (.var pos d) h
  | .assign pos l r => exact .atom (.assign pos l r) h
  | .cond pos test yes no =>
    obtain ⟨t, s1, y, s2, n, ht, hy, hn, rfl⟩ := of_cond h
    obtain ⟨s3, hy', -⟩ := of_nest hy
    exact .cond _ _ ht (laid_stmt yes hy') (laid_optional no hn)
  | .loop pos none test post body =>
    obtain ⟨i, s1, t, s2, b, s3, p, s4, hi, ht, hb, hp, -, rfl⟩ := of_loop h
    obtain ⟨s5, hb', -⟩ := of_nest hb
    cases hi
    exact .loop _ _ ht (laid_stmt body hb') (laid_optional post hp)
  | .loop pos (some (x, e)) test post body =>
    obtain ⟨i, s1, t, s2, b, s3, p, s4, hi, ht, hb, hp, -, rfl⟩ := of_loop h
    obtain ⟨s5, hb', -⟩ := of_nest hb
    have hinit : Laid site exits (.atom (.init x e)) i := .atom _ hi
    have hloop := hinit.seq (.loop (site.numbered "loop" (s.labels + 1)) (site.loopExits s.labels) ht
      (laid_stmt body hb') (laid_optional post hp))
    simpa [loopCode, Stmt.flow] using hloop
  | .ret pos none =>
    cases h
    exact .ret
  | .ret pos (some e) =>
    obtain ⟨v, hv, rfl⟩ := of_returnCode h
    have hvalue : Laid site exits (.atom (.value pos e)) v := .atom _ hv
    exact hvalue.seq .ret
  | .brk pos => exact .brk h
  | .cont pos => exact .cont h

theorem laid_optional {site : Site} (st : Option Stmt) {exits : Option Exits} {s s' : Emission}
    {c : Block} (h : optional site exits st s = (.ok c, s')) :
    Laid site exits (Stmt.flowOption st) c := by
  match st with
  | none =>
    cases h
    exact .skip
  | some st =>
    obtain ⟨s1, h1, -⟩ := of_nest h
    exact laid_stmt st h1

theorem laid_stmts {site : Site} (sts : List Stmt) {exits : Option Exits} {s s' : Emission} {c : Block}
    (h : stmts site exits sts s = (.ok c, s')) : Laid site exits (Stmt.flowAll sts) c := by
  match sts with
  | [] =>
    cases h
    exact .skip
  | st :: rest =>
    obtain ⟨c1, s1, c2, h1, h2, rfl⟩ := of_stmts h
    exact (laid_stmt st h1).seq (laid_stmts rest h2)

end

/-! ## Functions -/

/-- The segments `prog` are the code of a function with the given statements, and the flow is theirs, with
the blocks of the code as its parts. Executing the code by its labels and jumps runs the blocks in
the order of the flow. -/
structure Realises (site : Site) (body : List Stmt) (fc : FunctionCode) (prog : List Segment)
    (flow : Flow (Nat × Block)) (last : Nat) : Prop where
  code : fc.code = prog.flatMap Segment.code ++ epilogue
  labels : (Block.labels fc.code).Nodup
  /-- The block of each part is code for it. -/
  parts : Flow.Rel (IsCode site) (Stmt.flowAll body) flow
  /-- The parts stand in the code one after another, and there are no other blocks. -/
  atoms : flow.atoms = atomsFrom 0 prog
  finish : prog[last]? = some (.line (.label site.returnLabel))
  /-- Execution follows every run of the flow. One that comes to its end or returns goes to the label where
  the function returns; one that is cut off is followed for as many steps as there were rounds. -/
  follows : ∀ os n, Follows prog none site.returnLabel last n ⟨0, os, []⟩ (flow.exec n os)
  /-- Nothing else is run, however many steps are taken. -/
  trace : ∀ os k c, execute prog k ⟨0, os, []⟩ = some c → ∃ n, c.trace <+: (flow.exec n os).trace

section

variable {site : Site} {pos : Position} {sig : Signature} {body : List Stmt} {fc : FunctionCode}
  {s s' : Emission}

theorem nodup_labels_of_function (h : function site pos sig body s = (.ok fc, s')) :
    (Block.labels fc.code).Nodup := by
  obtain ⟨start, c, s1, -, hc, hcode⟩ := of_function h
  rw [hcode, labels_function]
  exact (fresh_stmts body hc).function

/-- Nothing is run any more where a run of a function has ended. -/
theorem trace_eq_of_lands {prog : List Segment} {ret : Label} {last n m d : Nat} {c c' : Config}
    {exit : Exit} (hnodup : (labelsOf prog).Nodup) (hlast : prog[last]? = some (.line (.label ret)))
    (hend : prog[last + 1]? = none) (h : Lands prog none ret last n m c exit) (hcut : exit ≠ .cut)
    (hexec : execute prog d c = some c') : c'.trace = c.trace := by
  cases d with
  | zero =>
    cases hexec
    rfl
  | succ d =>
    -- The only step that is left passes the label where the function returns.
    have hreturn : c.pc = last → c'.trace = c.trace := by
      intro hpc
      rw [execute_succ (step_line (hpc ▸ hlast) rfl rfl)] at hexec
      cases d with
      | zero =>
        cases hexec
        rfl
      | succ d =>
        rw [execute, step, hpc, hend] at hexec
        cases hexec
    cases exit with
    | next => exact hreturn h
    | ret => exact hreturn (pc_eq_of_label hnodup hlast h)
    | wait =>
      obtain ⟨hos, x, hjump⟩ := h
      rw [execute, step_jumpIf_nil hjump hos] at hexec
      cases hexec
    | cut => exact absurd rfl hcut
    | brk | cont =>
      obtain ⟨x, hx, -⟩ := h
      cases hx

/-- What is run in any number of steps is run in the flow, with a bound of as many rounds. -/
theorem trace_prefix_of_follows {prog : List Segment} {ret : Label} {last k : Nat} {c c' : Config}
    {r : Run (Nat × Block)} (hnodup : (labelsOf prog).Nodup)
    (hlast : prog[last]? = some (.line (.label ret))) (hend : prog[last + 1]? = none)
    (h : Follows prog none ret last k c r) (hexec : execute prog k c = some c') :
    c'.trace <+: c.trace ++ r.trace := by
  obtain ⟨m, c1, hfollow, -, htrace, hlands⟩ := h
  rw [← htrace]
  by_cases hle : k ≤ m
  · obtain ⟨d, rfl⟩ := Nat.exists_eq_add_of_le hle
    rw [execute_add, hexec] at hfollow
    exact trace_prefix_execute hfollow
  · have hcut : r.exit ≠ .cut := by
      intro hcut
      rw [hcut] at hlands
      exact hle hlands
    obtain ⟨d, rfl⟩ := Nat.exists_eq_add_of_le (Nat.le_of_not_le hle)
    rw [execute_add, hfollow] at hexec
    have htrace := trace_eq_of_lands hnodup hlast hend hlands hcut hexec
    exact htrace ▸ prefix_refl _

/-- The code of a function around that of its statements, but for its last lines. -/
def functionSegments (front : Block) (ret : Label) (segs : List Segment) : List Segment :=
  front.map .line ++ (segs ++ [Segment.line (.const 0 .rax), .line (.label ret)])

section

variable (front : Block) (ret : Label) (segs : List Segment)

theorem placed_functionSegments : Placed (functionSegments front ret segs) 0
    (front.map .line ++ (segs ++ [line (.const 0 .rax), .line (.label ret)])) := by
  intro k _
  rw [Nat.zero_add]
  rfl

theorem label_functionSegments :
    (functionSegments front ret segs)[front.length + segs.length + 1]? = some (.line (.label ret)) := by
  have hlabel := (placed_functionSegments front ret segs).right.right.tail.head
  rwa [length_map, Nat.zero_add] at hlabel

theorem end_functionSegments :
    (functionSegments front ret segs)[front.length + segs.length + 1 + 1]? = none := by
  refine getElem?_eq_none ?_
  simp only [functionSegments, length_append, length_map, length_cons, length_nil]
  omega

variable {front ret segs}

/-- Control passes the lines in front of the statements, and a function that does not return by itself comes
to the label where it returns. -/
theorem follows_functionSegments {flow : Flow (Nat × Block)}
    (hlays : Lays ret none front.length flow segs)
    (hfront : ∀ l ∈ front, l.passes = true ∧ l.goto? = none)
    (hnodup : (labelsOf (functionSegments front ret segs)).Nodup) (os : List Bool) (n : Nat) :
    Follows (functionSegments front ret segs) none ret (front.length + segs.length + 1) n ⟨0, os, []⟩
      (flow.exec n os) := by
  have hplaced := placed_functionSegments front ret segs
  have hbody := hplaced.right
  rw [length_map, Nat.zero_add] at hbody
  have hvisible : Visible (functionSegments front ret segs) none ret := by
    refine ⟨⟨_, label_functionSegments front ret segs⟩, ?_, ?_⟩
    · intro x hx
      cases hx
    · intro x hx
      cases hx
  have hstart : Follows (functionSegments front ret segs) none ret (0 + front.length) n ⟨0, os, []⟩
      ⟨[], os, .next⟩ := follows_lines hplaced.left hfront rfl
  rw [Nat.zero_add] at hstart
  refine hstart.andThen (k := flow.exec n) ?_
  intro c hc
  refine (hlays.follows hnodup hbody.left hvisible n c hc).through ?_
  intro c' hc'
  have hconst : Placed (functionSegments front ret segs) (front.length + segs.length)
      ([Line.const 0 .rax].map .line) :=
    hbody.right.left
  refine follows_lines hconst ?_ hc'
  intro l hl
  rw [mem_singleton.1 hl]
  exact ⟨rfl, rfl⟩

end

theorem passes_of_mem_front {x : Label} {frame : Nat} {l : Line} (h : l ∈ .label x :: prologue frame) :
    l.passes = true ∧ l.goto? = none := by
  rcases mem_cons.1 h with rfl | hl
  · exact ⟨rfl, rfl⟩
  · rcases mem_prologue hl with rfl | rfl | rfl
    · exact ⟨rfl, rfl⟩
    · exact ⟨rfl, rfl⟩
    · exact ⟨rfl, rfl⟩

/-- The code of a function runs the simple statements and the conditions of its body in the order of their
structure, whatever the outcomes of the conditions are. -/
theorem realises_of_function (h : function site pos sig body s = (.ok fc, s')) :
    ∃ prog flow last, Realises site body fc prog flow last := by
  have hlabels := nodup_labels_of_function h
  obtain ⟨start, c, s1, -, hc, hcode⟩ := of_function h
  obtain ⟨flow, segs, hlays, rfl, hrel⟩ :=
    laid_stmts body hc (Line.label (functionLabel site.name) :: prologue fc.frame).length
  generalize hfront : Line.label (functionLabel site.name) :: prologue fc.frame = front at *
  have hpasses : ∀ l ∈ front, l.passes = true ∧ l.goto? = none := by
    intro l hl
    exact passes_of_mem_front (hfront ▸ hl)
  have hsegments : fc.code =
      (functionSegments front site.returnLabel segs).flatMap code ++ epilogue := by
    rw [hcode, ← hfront, functionSegments, flatMap_append, flatMap_code_lines]
    simp [code]
  have hnodup : (labelsOf (functionSegments front site.returnLabel segs)).Nodup := by
    refine (labelsOf_sublist _).nodup ?_
    rw [hsegments, Block.labels_append] at hlabels
    exact (nodup_append.1 hlabels).1
  have hfollows := follows_functionSegments hlays hpasses hnodup
  refine ⟨functionSegments front site.returnLabel segs, flow, front.length + segs.length + 1,
    hsegments, hlabels, hrel, ?_, label_functionSegments _ _ _, hfollows, ?_⟩
  · rw [hlays.atoms_eq, functionSegments, atomsFrom_append, atomsFrom_append, atomsFrom_lines]
    simp [atomsFrom]
  · intro os k c hexec
    exact ⟨k, trace_prefix_of_follows hnodup (label_functionSegments _ _ _)
      (end_functionSegments _ _ _) (hfollows os k) hexec⟩

end

/-- A loop in a loop, with all ways out of them. -/
def nestedLoops : List Stmt :=
  let pos : Position := ⟨1, 1⟩
  let test (b : Bool) : Expr := .boolLit ⟨pos, some .bool⟩ b
  let count (n : Word) : Expr := .intLit ⟨pos, some .sint⟩ n
  [.loop pos (some ("i", count 0)) (test true) (some (.expr pos (count 1))) (.block pos
      [.loop pos none (test false) none (.cond pos (test true) (.brk pos) (some (.cont pos))),
        .cond pos (test false) (.ret pos (some (count 2))) none,
        .cont pos]),
    .expr pos (count 3)]

theorem realises_of_function_nestedLoops : ∃ fc s',
    function ⟨.empty, "f", .sint⟩ ⟨1, 1⟩ ⟨[], .sint⟩ nestedLoops ⟨.ofArgs [] false, 0, .empty⟩ =
      (.ok fc, s') ∧
    ∃ prog flow last, Realises ⟨.empty, "f", .sint⟩ nestedLoops fc prog flow last := by
  have hok : (function ⟨.empty, "f", .sint⟩ ⟨1, 1⟩ ⟨[], .sint⟩ nestedLoops
      ⟨.ofArgs [] false, 0, .empty⟩).1.toBool = true := by
    decide +kernel
  rcases h : function ⟨.empty, "f", .sint⟩ ⟨1, 1⟩ ⟨[], .sint⟩ nestedLoops
    ⟨.ofArgs [] false, 0, .empty⟩ with ⟨e | fc, s'⟩
  · rw [h] at hok
    cases hok
  · exact ⟨fc, s', rfl, realises_of_function h⟩

end Sigil.Code
