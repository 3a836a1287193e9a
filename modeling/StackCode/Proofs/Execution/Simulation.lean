import StackCode.Proofs.Execution.Conduct

/-!
# The code of a procedure does what its graph says

Main statement: `Procedure.refines_interpret`.  The machine, executing the code of an ordinary procedure,
and direct execution of its graph show the same: the same calls with the same arguments, the same stores,
the same end, in the same order, whatever the run-time system answers and however long they run.  The
layout of the blocks and the options have no part in it.
-/

namespace StackCode

variable {V W : Type} {R : Runtime V W}

/-! ## What has been seen stays -/

/-- What has been seen first is the beginning of what has been seen then. -/
def Kept.Begins (s s' : Kept V W) : Prop := s.memory.trace <+: s'.memory.trace

theorem Kept.Begins.refl (s : Kept V W) : s.Begins s := List.prefix_rfl

theorem Kept.Begins.trans {s s₁ s₂ : Kept V W} (h : s.Begins s₁) (h' : s₁.Begins s₂) : s.Begins s₂ :=
  List.IsPrefix.trans h h'

theorem Kept.begins_note (s : Kept V W) (e : Event V) : s.Begins (s.note e) := List.prefix_append _ _

theorem Memory.trace_perform (op : Operation) (args : List V) (m : Memory V W) :
    m.trace <+: (m.perform R op args).2.trace := by
  unfold Memory.perform
  simp only
  split
  · exact List.prefix_append _ _
  · exact List.prefix_rfl

theorem Instr.trace_exec {i : Instr} {st st' : List V} {m m' : Memory V W}
    (h : i.exec R (st, m) = some (st', m')) : m.trace <+: m'.trace := by
  cases i with
  | call callee argc returns =>
    by_cases hle : argc ≤ st.length
    · rw [exec, if_pos hle] at h
      cases h
      exact Memory.trace_perform _ _ _
    · rw [exec, if_neg hle] at h
      cases h
  | new cls argc =>
    by_cases hle : argc ≤ st.length
    · rw [exec, if_pos hle] at h
      cases h
      exact Memory.trace_perform _ _ _
    · rw [exec, if_neg hle] at h
      cases h
  | storeLocal id =>
    cases st with
    | nil => cases h
    | cons v st =>
      cases h
      exact List.prefix_append _ _
  | clearLocal id =>
    cases h
    exact List.prefix_append _ _
  | convert source target =>
    cases st with
    | nil => cases h
    | cons v st =>
      cases h
      exact Memory.trace_perform _ _ _
  | binary op =>
    cases st with
    | nil => cases h
    | cons b st =>
      cases st with
      | nil => cases h
      | cons a st =>
        cases h
        exact Memory.trace_perform _ _ _
  | pop | dup =>
    cases st with
    | nil => cases h
    | cons v st =>
      cases h
      exact List.prefix_rfl
  | _ =>
    cases h
    try exact List.prefix_rfl

theorem Runtime.memory_goTo {code : List Instr} {c : Control V} {l : Label} {s : Kept V W} :
    (Runtime.goTo code c l s).memory = s := by
  unfold Runtime.goTo
  split
  · rfl
  · rfl

theorem Runtime.begins_step (R : Runtime V W) (code : List Instr) (c : Control V) (s : Kept V W) :
    s.Begins (R.step code c s).memory := by
  have hgoTo (c : Control V) (l : Label) : s.Begins (Runtime.goTo code c l s).memory := by
    rw [Runtime.memory_goTo]
    exact .refl s
  have hraise (c : Control V) (v : V) : s.Begins (Runtime.raise code c v s).memory := by
    unfold Runtime.raise
    split
    · exact s.begins_note _
    · exact hgoTo _ _
  have hwork (i : Instr) : s.Begins (R.work i c s).memory := by
    unfold Runtime.work
    split
    · next hexec => exact Instr.trace_exec hexec
    · exact .refl s
  have hbranch (v : V) (when : Bool) (l : Label) (st : List V) :
      s.Begins (if R.isTrue v = when then Runtime.goTo code { c with stack := st } l s
        else .on (c.pass st) s).memory := by
    split
    · exact hgoTo _ _
    · exact .refl s
  unfold Runtime.step
  split
  all_goals first
    | exact .refl s
    | exact hgoTo _ _
    | exact hbranch _ _ _ _
    | exact hraise _ _
    | exact s.begins_note _
    | exact hwork _

/-! ## The prologue -/

namespace Outline

variable {o : Outline} {r : Reading} {code : List Instr} {c : Control V} {s : Kept V W} {k : List Op}
  {next : Control V → Kept V W → Run (Control V) (Kept V W)}

/-- Without a debugger, the prologue registers a script and gives the variables their first values. -/
theorem prologue_eq (harray : o.procedure.localsArray = none) (hdebug : o.options.debug = false) :
    o.prologue = (if o.options.sequencePoints then [.run .hiddenSequencePoint] else []) ++
      ((match o.procedure.kind with
        | .scriptMain script => (Fragment.callWithName .onInclude script).ops
        | _ => []) ++ o.procedure.initLocals.ops) := by
  have hlocals : o.debugLocals = [] := by
    unfold debugLocals
    rw [harray]
  have hbrace : o.openingBrace = [] := by
    unfold openingBrace
    split
    · rw [hdebug, Bool.false_and, if_neg Bool.false_ne_true]
    · rfl
  unfold prologue
  rw [hlocals, hbrace, hdebug, Bool.false_and, if_neg Bool.false_ne_true, List.append_nil,
    List.append_nil, List.append_nil]
  exact List.append_assoc _ _ _

/-- The machine runs through the prologue. -/
theorem prologue_meets (hnext : R.Extends code next) (harray : o.procedure.localsArray = none)
    (hdebug : o.options.debug = false) (hinit : o.procedure.initLocals.Succeeds)
    (hat : At r code [] (o.prologue ++ k) c) :
    ∃ c', Run.Leads next (.on c s)
      (.on c' { s with memory := o.procedure.execPrologue R s.memory }) ∧ At r code [] k c' := by
  rw [prologue_eq harray hdebug, List.append_assoc, List.append_assoc] at hat
  obtain ⟨c₁, hleads₁, hat₁⟩ : ∃ c₁, Run.Leads next (.on c s) (.on c₁ s) ∧ At r code []
      ((match o.procedure.kind with
        | .scriptMain script => (Fragment.callWithName .onInclude script).ops
        | _ => []) ++ (o.procedure.initLocals.ops ++ k)) c₁ := by
    by_cases hpoints : o.options.sequencePoints = true
    · rw [if_pos hpoints] at hat
      exact At.runs (x := Fragment.emit .hiddenSequencePoint) hnext (Fragment.isPlain_emit rfl)
        (Fragment.runs_emit rfl) hat
    · rw [if_neg hpoints] at hat
      exact ⟨c, .refl _, hat⟩
  obtain ⟨m, hm, c₂, hleads₂, hat₂⟩ : ∃ m, o.procedure.execPrologue R s.memory =
        (if o.procedure.localsInitialized then m
          else o.procedure.locals.toList.foldl (Memory.initVar R) m) ∧
      ∃ c₂, Run.Leads next (.on c₁ s) (.on c₂ { s with memory := m }) ∧
        At r code [] (o.procedure.initLocals.ops ++ k) c₂ := by
    unfold Procedure.execPrologue
    cases hkind : o.procedure.kind with
    | scriptMain script =>
      rw [hkind] at hat₁
      obtain ⟨c₂, hleads₂, hat₂⟩ := hat₁.runs (s := s) hnext (Fragment.isPlain_callWithName _ _)
        (Fragment.runs_callWithName .onInclude rfl script [] s.memory)
      exact ⟨_, rfl, c₂, hleads₂, hat₂⟩
    | function | method =>
      rw [hkind] at hat₁
      exact ⟨_, rfl, c₁, .refl _, hat₁⟩
  obtain ⟨c₃, hleads₃, hat₃⟩ := hat₂.runs (s := { s with memory := m }) hnext
    o.procedure.isPlain_initLocals (Procedure.initLocals_runs harray hinit)
  rw [hm]
  exact ⟨c₃, hleads₁.trans (hleads₂.trans hleads₃), hat₃⟩

end Outline

/-! ## The procedure -/

/-- A system that gets to the first block keeps to direct execution of the blocks from there on. -/
theorem Plan.refines_of_leads {p : Plan} {r : Reading} {code : List Instr} {state : V}
    {next : Control V → Kept V W → Run (Control V) (Kept V W)} {E : Kept V W → Prop}
    (hmade : p.Made) (hdirect : p.procedure.IsDirect)
    (hwrites : ∀ b ∈ p.blocks, p.outline.WritesBlock b) (hreal : Realizes r p.outline code)
    (hcond : Conducts R code p.procedure state next E) (hbegins : ∀ c (s : Kept V W), s.Begins (next c s).memory)
    (hyields : ∀ b ∈ p.blocks, ∀ front y back, b.statements = front ++ .yield y :: back → ∀ {c s},
      At r code [] (p.outline.statement (.yield y) ++ p.outline.rest b back) c → s.state = state →
        Meets r code state next E (fun _ : Unit => p.outline.rest b back) (.on c s)
          (p.procedure.execStmt R (.yield y) s.memory))
    {c c₁ : Control V} {s s₁ : Kept V W} (hleads : Run.Leads next (.on c s) (.on c₁ s₁))
    (hat : At r code [] (p.outline.opsAt .body) c₁) (hs₁ : s₁.state = state) :
    Run.Refines Kept.memory Kept.Begins (Run.after next (.on c s))
        (Run.after (p.procedure.execBlock R) (.on p.procedure.graph.start s₁.memory)) ∧
      ∀ n s', Run.after next (.on c s) n = .done s' → E s' := by
  have hstart : Run.Agrees Kept.memory (p.AtBlock r code state) E (.on c₁ s₁)
      (.on p.procedure.graph.start s₁.memory) := by
    obtain ⟨first, mid, last, hblocks, hfirst, -⟩ := hmade.ends
    have hblockAt : p.AtBlock r code state c₁ p.procedure.graph.start s₁ :=
      ⟨⟨hat, hs₁⟩, first, by rw [hblocks]; exact List.mem_cons_self, hfirst⟩
    exact .on hblockAt
  obtain ⟨n₁, hn₁⟩ := hleads
  have hsteps (k : Nat) : ∃ n, k ≤ n ∧ Run.Agrees Kept.memory (p.AtBlock r code state) E
      (Run.after next (.on c s) n)
        (Run.after (p.procedure.execBlock R) (.on p.procedure.graph.start s₁.memory) k) := by
    obtain ⟨n, hle, hagrees⟩ := Run.simulates
      (fun _ _ _ hat => p.block_meets hmade hdirect hwrites hreal hcond hyields hat) hstart k
    refine ⟨n₁ + n, Nat.le_trans hle (Nat.le_add_left n n₁), ?_⟩
    rw [Run.after_add, hn₁]
    exact hagrees
  constructor
  · apply Run.refines_of_shows Kept.Begins.refl Kept.Begins.trans hbegins
    intro k
    obtain ⟨n, hle, hagrees⟩ := hsteps k
    exact ⟨n, hle, hagrees.shows⟩
  · intro n s' hdone
    obtain ⟨n', hle, hagrees⟩ := hsteps n
    obtain ⟨d, rfl⟩ := Nat.exists_eq_add_of_le hle
    rw [Run.after_add, hdone, Run.after_done] at hagrees
    generalize Run.after (p.procedure.execBlock R) _ n = y at hagrees
    cases hagrees with
    | done hE => exact hE

/-- The machine keeps to its own steps. -/
theorem conducts_step (R : Runtime V W) (code : List Instr) (p : Procedure) (state : V) :
    Conducts R code p state (R.step code) fun _ => True where
  goesOn h := h
  ends h _ := h
  throws _ _ := trivial
  returns _ _ := trivial

/-- Whatever the run-time system answers, the code of an ordinary procedure without protected regions
shows what direct execution of the procedure shows, block by block. -/
theorem Procedure.refines_interpret {p : Procedure} {options : Options} {strategy : LayoutStrategy}
    {out : Array Instr} {sum : Summary} (h : p.lowerInto options strategy #[] = (out, .ok sum))
    (hdirect : p.IsDirect) (hgen : p.isGenerator = false) (hdebug : options.debug = false)
    (R : Runtime V W) (s : Kept V W) :
    Run.Refines Kept.memory Kept.Begins (Run.after (R.step out.toList) (.on R.enter s))
      (p.interpret R s.memory) := by
  obtain ⟨c, labels, ds, final, g, hmake, hlowered, -⟩ := lowerInto_eq_ok_iff.1 h
  obtain ⟨hsize, hblank⟩ := Plan.labels_of_make hmake
  obtain ⟨-, -, hp, hoptions, -⟩ := Plan.make_eq_ok hmake
  have hmade := Plan.made_of_make hmake
  have hreal := hlowered.realizes hmade hsize hblank
  obtain ⟨hwrites, hinit⟩ := hlowered.writes hmade hsize
  subst hp hoptions
  have hentry : At (c.reading final) out.toList [] (c.outline.prologue ++ c.outline.opsAt .body)
      (R.enter : Control V) := by
    have heq : c.outline.entry = c.outline.prologue ++ c.outline.opsAt .body := by
      unfold Outline.entry
      rw [show c.outline.procedure.isGenerator = false from hgen, if_neg Bool.false_ne_true]
    rw [← heq]
    exact ⟨rfl, rfl, hreal.entry⟩
  have hnext : R.Extends out.toList (R.step out.toList) := fun h => h
  obtain ⟨c₁, hleads, hat⟩ :=
    Outline.prologue_meets (s := s) hnext hdirect.localsArray hdebug hinit hentry
  refine (Plan.refines_of_leads hmade hdirect hwrites hreal
    (conducts_step R out.toList c.procedure s.state) (R.begins_step out.toList) ?_ hleads hat rfl).1
  intro b hb front y back hss
  have hyield := (hwrites b hb).statements (.yield y) (by rw [hss]; simp)
  have hgen' : c.procedure.isGenerator = true := hyield.1
  rw [hgen] at hgen'
  cases hgen'

/-- Calls a function on a variable until the variable is false, and returns the variable. -/
def polling : Procedure where
  name := ⟨1⟩
  returnType := .value
  locals := { vars := #[{ id := ⟨0⟩, name := ⟨2⟩, ty := .int, kind := .user }] }
  graph :=
    { blocks := #[
        { id := ⟨0⟩, ordinal := 0, kind := .start, statements := [], edge := .goto ⟨2⟩ },
        { id := ⟨1⟩, ordinal := 1, kind := .exit, statements := [], edge := .none },
        { id := ⟨2⟩, ordinal := 2, kind := .normal
          statements := [.expr
            (.assign { ty := .void } ⟨0⟩ (.call { ty := .int } ⟨3⟩ [.var { ty := .int } ⟨0⟩]))]
          edge := .branch (.var { ty := .int } ⟨0⟩) ⟨2⟩ ⟨3⟩ },
        { id := ⟨3⟩, ordinal := 3, kind := .normal
          statements := [.ret (some (.var { ty := .int } ⟨0⟩))], edge := .goto ⟨1⟩ }]
      wellFormed := wellFormed_of_fault?_eq_none (by decide) }

/-- The code of `polling`. -/
def pollingCode : Array Instr :=
  #[.constInt 0, .storeLocal ⟨0⟩, .markLabel ⟨0⟩, .loadLocal ⟨0⟩, .call (.function ⟨3⟩) 1 true,
    .storeLocal ⟨0⟩, .loadLocal ⟨0⟩, .convert .int .bool, .branchIf true ⟨0⟩, .markLabel ⟨1⟩,
    .loadLocal ⟨0⟩, .allocTemp ⟨0⟩ .value, .convert .int .value, .storeTemp ⟨0⟩, .branch ⟨3⟩,
    .markLabel ⟨2⟩, .markLabel ⟨3⟩, .loadTemp ⟨0⟩, .ret true, .freeTemp ⟨0⟩]

theorem polling_refines :
    Run.Refines Kept.memory Kept.Begins
      (Run.after (Runtime.ints.step pollingCode.toList) (.on Runtime.ints.enter (inState 0)))
      (polling.interpret Runtime.ints (inState 0).memory) := by
  have h : polling.lowerInto {} BlockOrder.ordinal.arrange #[] =
      (pollingCode, .ok { instrCount := 20, temps := [.value], labelCount := 4, resumePoints := []
                          debugLocals := [] }) := by
    have horder : polling.graph.emissionOrder BlockOrder.ordinal.arrange polling.liveBlocks =
        some [⟨0⟩, ⟨2⟩, ⟨3⟩, ⟨1⟩] := by cbv
    unfold Procedure.lowerInto Plan.make
    rw [horder]
    decide +kernel
  have hdirect : polling.IsDirect := ⟨rfl, by simp [polling, Edge.handler?]⟩
  exact Procedure.refines_interpret h hdirect rfl rfl Runtime.ints (inState 0)

end StackCode
