import Sigil.Proofs.Lowering.Expressions
import Sigil.Proofs.Typing.Statements

/-!
# Code for well-typed statements

While the code of a statement is generated, its expressions are met one by one, each in the state that
the generation has reached by then (`Code.visits`). Where the statement is well typed, the locals of
that state are those under which the expression is well typed: the generator's scopes keep step with the
declarations (`Code.walks_stmt`). So nothing is left to fail but the size of some object, and if nothing
fails all expressions have been met.
-/

namespace Sigil.Code

open Attempt Machine Stmt Typing

variable {site : Site} {α β : Type}

/-! ## The expressions that are met -/

/-- An expression whose code is generated in some state. -/
structure Visit where
  site : Site
  state : Emission
  expr : Expr

/-- The expressions that are met from a state on. -/
abbrev Trail := Emission → List Visit

/-- What is met once `x` has succeeded. -/
def onward (x : Emit α) (k : α → Trail) : Trail := fun s =>
  match x s with
  | (.ok a, s') => k a s'
  | (.error _, _) => []

/-- An expression is met. -/
def meet (site : Site) (e : Expr) : Trail :=
  fun s => [⟨site, s, e⟩]

/-- The trail of `x`, and what is met once it has succeeded. -/
def along (trail : Trail) (x : Emit α) (k : α → Trail) : Trail :=
  fun s => trail s ++ onward x k s

/-- The same state in a new scope. -/
def Emission.enter (s : Emission) : Emission :=
  { s with frame := s.frame.enter }

/-- The trail of a statement that depends on a condition. -/
def nestTrail (st : Stmt) (trail : Trail) : Trail :=
  match st with
  | .block _ _ => trail
  | _ => fun s => trail s.enter

/-- The trail of a declaration. -/
def varTrail (site : Site) (pos : Position) (d : VarDecl) : Trail :=
  onward (typed d.resolved) fun t => onward (site.sizeOf pos t) fun size => onward (temp size) fun _ =>
    match d.init with
    | some e => meet site e
    | none => fun _ => []

/-- The trail of an assignment. -/
def assignTrail (site : Site) (pos : Position) (l r : Expr) : Trail :=
  onward (typed l.ty) fun t =>
    let parts := along (meet site r) (lower site r).value fun _ => meet site l
    if t.isAggregate then onward (site.sizeOf pos t) fun _ => parts else parts

/-- The trail of the counter of a loop. -/
def counterTrail (site : Site) : Option (String × Expr) → Trail
  | none => fun _ => []
  | some (_, e) => onward (typed e.ty) fun _ => onward (temp 8) fun _ => meet site e

/-- The trail of a return. -/
def returnTrail (site : Site) (pos : Position) : Option Expr → Trail
  | none => fun _ => []
  | some e =>
    if site.ret.isAggregate then onward (site.sizeOf pos site.ret) fun _ => meet site e
    else meet site e

mutual

/-- The expressions that are met while the code of a statement is generated. -/
def visits (site : Site) (exits : Option Exits) : Stmt → Trail
  | .block _ body => fun s => visitsAll site exits body s.enter
  | .expr _ e => meet site e
  | .var pos d => varTrail site pos d
  | .assign pos l r => assignTrail site pos l r
  | .cond _ test yes no =>
    onward (site.label "else") fun _ => onward (site.label "endif") fun _ =>
      along (meet site test) (condition site test) fun _ =>
        along (nestTrail yes (visits site exits yes)) (nest yes (stmt site exits yes)) fun _ =>
          visitsOption site exits no
  | .loop _ init test post body =>
    onward (site.label "loop") fun _ => onward (site.label "next") fun next =>
      onward (site.label "endloop") fun done s =>
        (along (counterTrail site init) (counter site init) fun _ =>
          along (meet site test) (condition site test) fun _ =>
            along (nestTrail body (visits site (some ⟨next, done⟩) body))
              (nest body (stmt site (some ⟨next, done⟩) body)) fun _ =>
                visitsOption site (some ⟨next, done⟩) post) s.enter
  | .ret pos e => returnTrail site pos e
  | .brk _ => fun _ => []
  | .cont _ => fun _ => []

/-- The same for a statement that depends on a condition and may be missing. -/
def visitsOption (site : Site) (exits : Option Exits) : Option Stmt → Trail
  | none => fun _ => []
  | some s => nestTrail s (visits site exits s)

/-- The same for statements one after another. -/
def visitsAll (site : Site) (exits : Option Exits) : List Stmt → Trail
  | [] => fun _ => []
  | s :: rest =>
    along (visits site exits s) (stmt site exits s) fun _ => visitsAll site exits rest

end

/-! ## Generation along a trail -/

/-- The expression is well typed under the locals of the state in which it is met. -/
structure Visit.Typed (v : Visit) : Prop where
  complete : v.site.symbols.Complete
  typed : v.expr.Typed v.site.symbols v.state.frame.env

/-- From `s`, what is met along the trail is well typed and `x` ends in `Q` having met all of `ns`, or
some object is too large. -/
structure Walks (s : Emission) (x : Emit α) (trail : Trail) (ns : List Expr)
    (Q : α → Emission → Prop) : Prop where
  ends : x.Ends s (fun a s' => Q a s' ∧ ∀ n ∈ ns, ∃ v ∈ trail s, n ∈ v.expr.nodes)
    (fun e _ => e.TooLarge)
  typed : ∀ v ∈ trail s, v.Typed

namespace Walks

variable {s : Emission} {x : Emit α} {k : α → Emit β} {trail : Trail} {trails : α → Trail}
  {ms ns ns' : List Expr} {P Q : α → Emission → Prop} {R : β → Emission → Prop}

theorem mono (h : Walks s x trail ns P) (hPQ : ∀ a s', P a s' → Q a s') : Walks s x trail ns Q :=
  ⟨h.ends.mono (fun a s' ha => ⟨hPQ a s' ha.1, ha.2⟩) fun _ _ he => he, h.typed⟩

theorem pure {a : α} (h : Q a s) : Walks s (pure a : Emit α) (fun _ => []) [] Q :=
  ⟨ends_pure ⟨h, fun _ hn => nomatch hn⟩, fun _ hv => nomatch hv⟩

/-- One trail follows another where the second part follows the first. -/
theorem along (hx : Walks s x trail ms P)
    (hk : ∀ a s', P a s' → Walks s' (k a) (trails a) ns' R) (hns : ∀ n ∈ ns, n ∈ ms ∨ n ∈ ns') :
    Walks s (x >>= k) (along trail x trails) ns R := by
  have hends := hx.ends
  have htyped := hx.typed
  unfold Code.along onward
  unfold Ends at hends
  rcases hr : x s with ⟨r, s'⟩
  rw [hr] at hends
  cases r with
  | error e =>
    -- Nothing is met after a failure.
    refine ⟨?_, ?_⟩
    · unfold Ends
      rw [bind_of_error hr]
      exact hends
    · simpa [hr] using htyped
  | ok a =>
    obtain ⟨ha, hmet⟩ := hends
    have hrest := hk a s' ha
    refine ⟨?_, ?_⟩
    · unfold Ends
      rw [bind_of_ok hr]
      refine hrest.ends.mono ?_ fun _ _ he => he
      rintro b s'' ⟨hb, hmet'⟩
      refine ⟨hb, fun n hn => ?_⟩
      simp only [hr]
      rcases hns n hn with hn | hn
      · obtain ⟨v, hv, hvn⟩ := hmet n hn
        exact ⟨v, List.mem_append_left _ hv, hvn⟩
      · obtain ⟨v, hv, hvn⟩ := hmet' n hn
        exact ⟨v, List.mem_append_right _ hv, hvn⟩
    · simp only [hr]
      intro v hv
      rcases List.mem_append.1 hv with hv | hv
      · exact htyped v hv
      · exact hrest.typed v hv

/-- Generation that meets nothing comes last. -/
theorem finish (hx : Walks s x trail ns P)
    (hk : ∀ a s', P a s' → Walks s' (k a) (fun _ => []) [] R) : Walks s (x >>= k) trail ns R := by
  have hnil : Code.along trail x (fun _ _ => []) = trail := by
    funext s
    unfold Code.along Code.onward
    split <;> exact List.append_nil _
  rw [← hnil]
  exact hx.along hk fun _ hn => Or.inl hn

/-- A last step that only combines what has been generated. -/
theorem map {f : α → β} (hx : Walks s x trail ns P) (hf : ∀ a s', P a s' → R (f a) s') :
    Walks s (x >>= fun a => Pure.pure (f a)) trail ns R :=
  hx.finish fun a s' ha => .pure (hf a s' ha)

/-- Generation that meets nothing comes first. -/
theorem onward {P : α → Prop} (hx : Emits s.frame P x)
    (hk : ∀ a s', P a → s'.frame.scopes = s.frame.scopes → Walks s' (k a) (trails a) ns R) :
    Walks s (x >>= k) (onward x trails) ns R := by
  have hquiet : Walks s x (fun _ => []) [] fun a s' => P a ∧ s'.frame.scopes = s.frame.scopes :=
    ⟨(hx s rfl).mono (fun _ _ ha => ⟨⟨ha.2, ha.1⟩, fun _ hn => nomatch hn⟩) fun _ _ he => he.2,
      fun _ hv => nomatch hv⟩
  exact hquiet.along (fun a s' ha => hk a s' ha.1 ha.2) fun _ hn => Or.inr hn

/-- What happens in a scope of its own is over when the scope is closed. -/
theorem enclosed
    (h : Walks s.enter x trail ns fun _ s' => s'.frame.scopes.tail = s.frame.scopes) :
    Walks s (enclosed x) (fun s => trail s.enter) ns
      fun _ s' => s'.frame.scopes = s.frame.scopes := by
  refine ⟨ends_bind (ends_modify (ends_bind ?_)), h.typed⟩
  refine h.ends.mono ?_ fun _ _ he => he
  rintro a s' ⟨hs', hmet⟩
  exact ends_bind (ends_modify (ends_pure ⟨hs', hmet⟩))

end Walks

/-! ## Scopes keep step with declarations -/

/-- Some scope is open, and the locals are those of `Γ`. -/
structure Emission.Sees (s : Emission) (Γ : Env) : Prop where
  opened : s.frame.scopes ≠ []
  env : s.frame.env = Γ

/-- Generation started in `s` and has come to `s'`, where the locals are those of `Γ`: only the innermost
scope has changed. -/
structure Leaves (s : Emission) (Γ : Env) (s' : Emission) : Prop extends s'.Sees Γ where
  outer : s'.frame.scopes.tail = s.frame.scopes.tail

variable {s s' s'' : Emission} {Γ Γ' : Env}

theorem Emission.Sees.leaves (hs : s.Sees Γ) (h : s'.frame.scopes = s.frame.scopes) :
    Leaves s Γ s' := by
  refine ⟨⟨h ▸ hs.opened, ?_⟩, congrArg List.tail h⟩
  rw [← hs.env]
  unfold Frame.env Frame.get?
  rw [h]

theorem Emission.Sees.enter (hs : s.Sees Γ) : s.enter.Sees Γ :=
  ⟨List.cons_ne_nil _ _, hs.env⟩

theorem Leaves.trans (h : Leaves s Γ s') (h' : Leaves s' Γ' s'') : Leaves s Γ' s'' :=
  ⟨h'.toSees, h'.outer.trans h.outer⟩

theorem Emission.Sees.lower (hs : s.Sees Γ) (hT : site.symbols.Complete) {e : Expr}
    (he : e.Typed site.symbols Γ) : (lower site e).Sound s.frame e :=
  sound_lower hT (hs.env ▸ he)

/-- An expression is met, and whatever is generated for it leaves the scopes alone. -/
theorem Walks.meet {x : Emit α} (hT : site.symbols.Complete) (hs : s.Sees Γ) {e : Expr}
    (he : e.Typed site.symbols Γ) (hx : Generates s.frame x) :
    Walks s x (meet site e) e.nodes fun _ => Leaves s Γ := by
  refine ⟨(hx s rfl).mono ?_ fun _ _ he => he.2, ?_⟩
  · exact fun _ _ ha => ⟨hs.leaves ha.1, fun n hn => ⟨_, List.mem_singleton_self _, hn⟩⟩
  · intro v hv
    rw [List.mem_singleton.1 hv]
    exact ⟨hT, hs.env ▸ he⟩

/-- At last a slot that has been taken is given a name. -/
theorem walks_bind (hs : s.Sees Γ) (x : String) (t : Ty) (offset : Int) (mutable : Bool)
    (code : Block) :
    Walks s (do bind x t offset mutable; return code) (fun _ => []) []
      fun _ => Leaves s (Γ.bind x (some t)) := by
  obtain ⟨htail, hopened⟩ := s.frame.scopes_bind x t offset mutable
  have henv : (s.frame.bind x t offset mutable).env = Γ.bind x (some t) := by
    rw [← hs.env]
    exact Frame.env_bind hs.opened x t offset mutable
  refine ⟨?_, fun _ hv => nomatch hv⟩
  refine ends_bind (ends_modify (ends_pure ⟨?_, fun _ hn => nomatch hn⟩))
  exact ⟨⟨hopened hs.opened, henv⟩, htail⟩

/-- What depends on a condition declares nothing for what comes after it. -/
theorem Walks.nest {st : Stmt} {x : Emit Block} {trail : Trail} {ns : List Expr}
    (hs : s.Sees Γ)
    (h : ∀ s1 : Emission, s1.Sees Γ → Walks s1 x trail ns fun _ => Leaves s1 (st.after Γ)) :
    Walks s (nest st x) (nestTrail st trail) ns fun _ => Leaves s Γ := by
  -- A block opens a scope itself.
  cases st with
  | block pos body => exact h s hs
  | _ =>
    have hin := (h s.enter hs.enter).mono fun _ _ hl => hl.outer
    exact hin.enclosed.mono fun _ _ hscopes => hs.leaves hscopes

/-- A slot that has been taken gets its first value, and then a name. -/
theorem walks_initialise (hT : site.symbols.Complete) (hs : s.Sees Γ) {e : Expr} {t : Ty}
    (he : e.Typed site.symbols Γ) (hfit : Fits t e) (x : String) (offset : Int) (mutable : Bool) :
    Walks s (do
        let code ← (lower site e).initialise t offset
        bind x t offset mutable
        return code)
      (meet site e) e.nodes fun _ => Leaves s (Γ.bind x (some t)) := by
  refine (Walks.meet hT hs he ((hs.lower hT he).initialise hfit offset)).finish fun code s1 hl1 => ?_
  exact (walks_bind hl1.toSees x t offset mutable code).mono fun _ _ hl => hl1.trans hl

theorem emits_typed {f : Frame} (t : Ty) : Emits f (· = t) (typed (some t)) :=
  .pure rfl

/-- The initial value is met before the name is bound. -/
theorem walks_varDecl (hT : site.symbols.Complete) (hs : s.Sees Γ) {pos : Position} {d : VarDecl}
    {t : Ty} (hd : d.resolved = some t) (ht : t.Defined site.symbols.kind)
    (hinit : ∀ e ∈ d.init, e.Typed site.symbols Γ ∧ Fits t e) :
    Walks s (varDecl site pos d) (varTrail site pos d) (var pos d).nodes
      fun _ => Leaves s ((var pos d).after Γ) := by
  unfold varDecl varTrail
  rw [after, nodes, hd]
  refine .onward (emits_typed t) fun t' s1 ht' hs1 => ?_
  subst ht'
  refine .onward (generates_sizeOf hT ht pos) fun size s2 _ hs2 => ?_
  refine .onward (generates_temp size) fun offset s3 _ hs3 => ?_
  have hl3 := hs.leaves (hs3.trans (hs2.trans hs1))
  cases hi : d.init with
  | none =>
    refine (walks_bind hl3.toSees d.name t' offset d.mutable _).mono fun _ _ hl => ?_
    exact hl3.trans hl
  | some e =>
    obtain ⟨he, hfit⟩ := hinit e hi
    have hnodes : (some e).toList.flatMap Expr.nodes = e.nodes := by simp
    rw [hnodes]
    refine (walks_initialise hT hl3.toSees he hfit d.name offset d.mutable).mono fun _ _ hl => ?_
    exact hl3.trans hl

/-- Both sides are met in the scopes that the statement starts with. -/
theorem walks_assignment (hT : site.symbols.Complete) (hs : s.Sees Γ) {pos : Position} {l r : Expr}
    {t : Ty} (hl : l.Typed site.symbols Γ) (hr : r.Typed site.symbols Γ) (hp : l.isPlace = true)
    (ht : l.ty = some t) :
    Walks s (assignment site pos l r) (assignTrail site pos l r) (assign pos l r).nodes
      fun _ => Leaves s Γ := by
  have hdefined : t.Defined site.symbols.kind := by
    obtain ⟨u, hu, hdef⟩ := hl.node.ty
    exact Option.some.inj (hu.symm.trans ht) ▸ hdef
  have hnodes : ∀ n ∈ (assign pos l r).nodes, n ∈ r.nodes ∨ n ∈ l.nodes := by
    intro n hn
    rw [nodes] at hn
    exact (List.mem_append.1 hn).symm
  -- Both forms of assignment compute the value, then the place, and combine the two.
  have hparts : ∀ s1, Leaves s Γ s1 → ∀ code : Block → Block → Block,
      Walks s1 (do
          let value ← (lower site r).value
          let place ← (lower site l).address
          return code value place)
        (along (meet site r) (lower site r).value fun _ => meet site l)
        (assign pos l r).nodes fun _ => Leaves s Γ := by
    intro s1 hl1 code
    refine (Walks.meet hT hl1.toSees hr (hl1.lower hT hr).value).along (fun _ s2 hl2 => ?_) hnodes
    refine (Walks.meet hT hl2.toSees hl ((hl2.lower hT hl).address hp)).map fun _ s3 hl3 => ?_
    exact hl1.trans (hl2.trans hl3)
  unfold assignment assignTrail
  rw [ht]
  refine .onward (emits_typed t) fun t' s1 ht' hs1 => ?_
  subst ht'
  split
  · refine .onward (generates_sizeOf hT hdefined pos) fun _ s2 _ hs2 => ?_
    exact hparts s2 (hs.leaves (hs2.trans hs1)) _
  · exact hparts s1 (hs.leaves hs1) _

/-- The counter is bound after its initial value has been met. -/
theorem walks_counter (hT : site.symbols.Complete) (hs : s.Sees Γ) {init : Option (String × Expr)}
    (hinit : ∀ x e, init = some (x, e) →
      e.Typed site.symbols Γ ∧ ∃ signed, e.ty = some (.int 64 signed)) :
    Walks s (counter site init) (counterTrail site init) ((init.toList.map (·.2)).flatMap Expr.nodes)
      fun _ => Leaves s (inside Γ init) := by
  cases init with
  | none => exact .pure (hs.leaves rfl)
  | some p =>
    obtain ⟨x, e⟩ := p
    obtain ⟨he, signed, hty⟩ := hinit x e rfl
    have hnodes : ((some (x, e)).toList.map (·.2)).flatMap Expr.nodes = e.nodes := by simp
    rw [hnodes, inside, counter, counterTrail, hty]
    refine .onward (emits_typed _) fun t s1 ht hs1 => ?_
    subst ht
    refine .onward (generates_temp 8) fun offset s2 _ hs2 => ?_
    have hl2 := hs.leaves (hs2.trans hs1)
    have hfit : Fits (.int 64 signed) e := ⟨_, hty, Ty.assignable_iff.2 (Or.inl rfl)⟩
    exact (walks_initialise hT hl2.toSees he hfit x offset true).mono fun _ _ hl => hl2.trans hl

/-- The value that is returned is met, if there is one. -/
theorem walks_returnCode (hT : site.symbols.Complete) (hret : site.ret.Defined site.symbols.kind)
    (hs : s.Sees Γ) {pos : Position} {value : Option Expr}
    (h : ∀ e ∈ value, e.Typed site.symbols Γ) :
    Walks s (returnCode site pos value) (returnTrail site pos value) (ret pos value).nodes
      fun _ => Leaves s Γ := by
  cases value with
  | none => exact .pure (hs.leaves rfl)
  | some e =>
    have he := h e rfl
    have hnodes : (ret pos (some e)).nodes = e.nodes := by simp [nodes]
    rw [hnodes, returnCode, returnTrail]
    split
    · refine .onward (generates_sizeOf hT hret pos) fun _ s1 _ hs1 => ?_
      have hl1 := hs.leaves hs1
      exact (Walks.meet hT hl1.toSees he (hl1.lower hT he).value).map fun _ _ hl => hl1.trans hl
    · exact (Walks.meet hT hs he (hs.lower hT he).value).map fun _ _ hl => hl

theorem walks_exit {looping : Bool} {exits : Option Exits} (hexits : looping = true → exits.isSome)
    (hs : s.Sees Γ) (h : looping = true) (target : Exits → Label) :
    Walks s (exit exits target) (fun _ => []) [] fun _ => Leaves s Γ := by
  obtain ⟨x, rfl⟩ := Option.isSome_iff_exists.1 (hexits h)
  exact .pure (hs.leaves rfl)

/-- A condition is followed by two parts, neither of which declares anything for what comes after. -/
theorem walks_branches (hT : site.symbols.Complete) (hs : s.Sees Γ) {test : Expr}
    (htest : test.Typed site.symbols Γ) {x y : Emit Block} {first second : Trail}
    {ns ns' : List Expr}
    (hx : ∀ s1 : Emission, s1.Sees Γ → Walks s1 x first ns fun _ => Leaves s1 Γ)
    (hy : ∀ s1 : Emission, s1.Sees Γ → Walks s1 y second ns' fun _ => Leaves s1 Γ)
    (code : Block → Block → Block → Block) :
    Walks s (do
        let test ← condition site test
        let a ← x
        let b ← y
        return code test a b)
      (along (meet site test) (condition site test) fun _ => along first x fun _ => second)
      (test.nodes ++ ns ++ ns') fun _ => Leaves s Γ := by
  have hcond : Walks s (condition site test) (meet site test) test.nodes fun _ => Leaves s Γ :=
    (Walks.meet hT hs htest (hs.lower hT htest).value).map fun _ _ hl => hl
  have hrest : ∀ c s1, Leaves s Γ s1 → Walks s1 (do let a ← x; let b ← y; return code c a b)
      (along first x fun _ => second) (ns ++ ns') fun _ => Leaves s Γ := by
    intro c s1 hl1
    refine (hx s1 hl1.toSees).along (fun _ s2 hl2 => ?_) fun n hn => List.mem_append.1 hn
    exact (hy s2 hl2.toSees).map fun _ s3 hl3 => hl1.trans (hl2.trans hl3)
  refine hcond.along hrest fun n hn => ?_
  rwa [List.append_assoc, List.mem_append] at hn

/-! ## All statements -/

mutual

/-- The code of a well-typed statement can be generated, and every expression in it is met with the
locals under which it is well typed. -/
theorem walks_stmt (hT : site.symbols.Complete) (hret : site.ret.Defined site.symbols.kind)
    (st : Stmt) {looping : Bool} {exits : Option Exits} (hexits : looping = true → exits.isSome)
    {s : Emission} {Γ : Env} (hs : s.Sees Γ) (h : st.Typed site.symbols site.ret looping Γ) :
    Walks s (stmt site exits st) (visits site exits st) st.nodes fun _ => Leaves s (st.after Γ) := by
  match st with
  | .block pos body =>
    rw [Typed] at h
    have hin := walks_stmts hT hret body hexits hs.enter h
    exact hin.enclosed.mono fun _ _ hscopes => hs.leaves hscopes
  | .expr pos e =>
    rw [Typed] at h
    cases h with
    | expr he => exact .meet hT hs he (hs.lower hT he).value
  | .var pos d =>
    rw [Typed] at h
    cases h with
    | var hd _ ht hinit => exact walks_varDecl hT hs hd ht hinit
  | .assign pos l r =>
    rw [Typed] at h
    cases h with
    | assign hl hr hp ht => exact walks_assignment hT hs hl hr hp ht
  | .cond pos test yes no =>
    rw [Typed] at h
    obtain ⟨⟨htest, -⟩, hyes, hno⟩ := h
    refine .onward (generates_label "else") fun _ s1 _ hs1 => ?_
    refine .onward (generates_label "endif") fun _ s2 _ hs2 => ?_
    have hl2 := hs.leaves (hs2.trans hs1)
    have hbranches := walks_branches hT hl2.toSees htest
      (fun s1 hs1 => .nest hs1 fun s2 hs2 => walks_stmt hT hret yes hexits hs2 hyes)
      (fun s1 hs1 => walks_optional hT hret no hexits hs1 hno)
    exact (hbranches _).mono fun _ _ hl => hl2.trans hl
  | .loop pos init test post body =>
    rw [Typed] at h
    obtain ⟨hinit, ⟨htest, -⟩, hbody, hpost⟩ := h
    refine .onward (generates_label "loop") fun _ s1 _ hs1 => ?_
    refine .onward (generates_label "next") fun next s2 _ hs2 => ?_
    refine .onward (generates_label "endloop") fun done s3 _ hs3 => ?_
    have hl3 := hs.leaves (hs3.trans (hs2.trans hs1))
    -- The scope of the counter is around the condition, the body and the step.
    refine (Walks.enclosed ?_).mono fun _ _ hscopes => hl3.trans (hl3.leaves hscopes)
    have hnodes : ∀ n ∈ (loop pos init test post body).nodes,
        n ∈ (init.toList.map (·.2)).flatMap Expr.nodes ∨
          n ∈ test.nodes ++ body.nodes ++ nodesOfOption post := by
      intro n hn
      rw [nodes, List.append_assoc, List.append_assoc] at hn
      rw [List.append_assoc]
      exact List.mem_append.1 hn
    refine (walks_counter hT hl3.enter hinit).along (fun _ s4 hl4 => ?_) hnodes
    have hexits : true = true → (some (⟨next, done⟩ : Exits)).isSome := fun _ => rfl
    have hbranches := walks_branches hT hl4.toSees htest
      (fun s5 hs5 => .nest hs5 fun s6 hs6 => walks_stmt hT hret body hexits hs6 hbody)
      (fun s5 hs5 => walks_optional hT hret post hexits hs5 hpost)
    exact (hbranches _).mono fun _ _ hl => (hl4.trans hl).outer
  | .ret pos value =>
    rw [Typed] at h
    refine walks_returnCode hT hret hs ?_
    cases h with
    | done => exact fun _ he => nomatch he
    | ret he => exact fun _ he' => Option.some.inj he' ▸ he
  | .brk pos =>
    rw [Typed] at h
    cases h with
    | brk h => exact walks_exit hexits hs h _
  | .cont pos =>
    rw [Typed] at h
    cases h with
    | cont h => exact walks_exit hexits hs h _

theorem walks_optional (hT : site.symbols.Complete) (hret : site.ret.Defined site.symbols.kind)
    (st : Option Stmt) {looping : Bool} {exits : Option Exits}
    (hexits : looping = true → exits.isSome) {s : Emission} {Γ : Env} (hs : s.Sees Γ)
    (h : OptionTyped site.symbols site.ret looping Γ st) :
    Walks s (optional site exits st) (visitsOption site exits st) (nodesOfOption st)
      fun _ => Leaves s Γ := by
  match st with
  | none => exact .pure (hs.leaves rfl)
  | some st =>
    rw [OptionTyped] at h
    exact .nest hs fun s1 hs1 => walks_stmt hT hret st hexits hs1 h

/-- Statements are walked through one after another, each in the scopes that the ones before it leave. -/
theorem walks_stmts (hT : site.symbols.Complete) (hret : site.ret.Defined site.symbols.kind)
    (sts : List Stmt) {looping : Bool} {exits : Option Exits}
    (hexits : looping = true → exits.isSome) {s : Emission} {Γ : Env} (hs : s.Sees Γ)
    (h : AllTyped site.symbols site.ret looping Γ sts) :
    Walks s (stmts site exits sts) (visitsAll site exits sts) (nodesOfAll sts)
      fun _ s' => s'.frame.scopes.tail = s.frame.scopes.tail := by
  match sts with
  | [] => exact .pure rfl
  | st :: rest =>
    rw [AllTyped] at h
    -- What the first statement declares is both in the scope and in the locals of the rest.
    refine (walks_stmt hT hret st hexits hs h.1).along (fun _ s1 hl1 => ?_) fun n hn =>
      List.mem_append.1 hn
    refine (walks_stmts hT hret rest hexits hl1.toSees h.2).map fun _ s2 hs2 => ?_
    exact hs2.trans hl1.outer

end

end Sigil.Code
