import StackCode.Proofs.Execution.Simulation
import StackCode.Proofs.Generator.Entry

/-!
# A generator is a coroutine

A generator that is invoked again and again until it has ended shows what its graph says if nothing ever
stops it: every suspension point publishes its value, and control goes on behind it.  Main statement:
`Procedure.drive_refines_interpret`.
-/

namespace StackCode

variable {V W : Type} {R : Runtime V W}

namespace Runtime

/-- Invokes the code again whenever it returns in a positive state.  What is not a variable, the world
or the state is lost with the invocation. -/
def drive (R : Runtime V W) (code : List Instr) (c : Control V) (s : Kept V W) :
    Run (Control V) (Kept V W) :=
  match R.step code c s with
  | .done s => if 0 < R.toInt s.state then .on R.enter (s.note (.resume s.state)) else .done s
  | x => x

variable {code : List Instr}

theorem extends_drive (R : Runtime V W) (code : List Instr) : R.Extends code (R.drive code) := by
  intro c s c' s' h
  rw [drive, h]

theorem drive_of_done {c : Control V} {s s' : Kept V W} (h : R.step code c s = .done s') :
    R.drive code c s =
      if 0 < R.toInt s'.state then .on R.enter (s'.note (.resume s'.state)) else .done s' := by
  rw [drive, h]

theorem begins_drive (R : Runtime V W) (code : List Instr) (c : Control V) (s : Kept V W) :
    s.Begins (R.drive code c s).memory := by
  have hbegins := R.begins_step code c s
  cases hstep : R.step code c s with
  | on c' s' =>
    rw [extends_drive R code hstep]
    rw [hstep] at hbegins
    exact hbegins
  | done s' =>
    rw [drive_of_done hstep]
    rw [hstep] at hbegins
    split
    · exact hbegins.trans (s'.begins_note _)
    · exact hbegins
  | stuck s' =>
    rw [drive, hstep]
    rw [hstep] at hbegins
    exact hbegins

/-- The value of an integer literal is that integer. -/
def KeepsInts (R : Runtime V W) : Prop := ∀ n, R.toInt (R.literal (.int n)) = n

/-- How a generator ends: it has thrown an exception in the running state, or it has returned and is
closed. -/
def Ended (R : Runtime V W) (s : Kept V W) : Prop :=
  (∃ v, s.memory.trace.getLast? = some (.throw v) ∧
    s.state = R.literal (.int GeneratorState.running.toInt)) ∨
  (∃ v, s.memory.trace.getLast? = some (.ret v) ∧
    s.state = R.literal (.int GeneratorState.closed.toInt))

theorem Ended.toInt_le {s : Kept V W} (hints : R.KeepsInts) (h : R.Ended s) :
    ¬0 < R.toInt s.state := by
  rcases h with ⟨v, -, hstate⟩ | ⟨v, -, hstate⟩
  · rw [hstate, hints]
    decide
  · rw [hstate, hints]
    decide

/-- Invoked again and again, a generator goes on as the machine does, and it ends for good where it
throws an exception or is closed. -/
theorem conducts_drive (hints : R.KeepsInts) (code : List Instr) {p : Procedure}
    (hgen : p.isGenerator = true) :
    Conducts R code p (R.literal (.int GeneratorState.running.toInt)) (R.drive code) R.Ended where
  goesOn := extends_drive R code
  ends h hended := by
    rw [drive_of_done h, if_neg (hended.toInt_le hints)]
  throws m v := .inl ⟨v, List.getLast?_concat, rfl⟩
  returns m v := by
    refine .inr ⟨v, List.getLast?_concat, ?_⟩
    unfold Procedure.finalState
    rw [if_pos hgen]
    rfl

end Runtime

/-- The caller has given the variables their first values, and nothing else is to be done once. -/
structure Procedure.IsPrepared (p : Procedure) : Prop where
  localsInitialized : p.localsInitialized = true
  kind : ∀ script, p.kind ≠ .scriptMain script

/-! ## Behind a suspension point -/

namespace Outline

variable {o : Outline} {b : Block}

/-- Without a debugger, the prologue of a prepared procedure is a place that a debugger steps over. -/
theorem eq_of_mem_prologue (harray : o.procedure.localsArray = none) (hprepared : o.procedure.IsPrepared)
    (hdebug : o.options.debug = false) {i : Instr} (h : .run i.erased ∈ o.prologue) :
    i = .hiddenSequencePoint := by
  have hinit : o.procedure.initLocals = pure () := by
    unfold Procedure.initLocals
    exact if_pos hprepared.localsInitialized
  rw [prologue_eq harray hdebug, hinit] at h
  rcases List.mem_append.1 h with h | h
  · split at h
    · have herased : i.erased = .hiddenSequencePoint := by
        simpa using h
      cases i <;> first | exact herased | cases herased
    · cases h
  · rcases List.mem_append.1 h with h | h
    · cases hkind : o.procedure.kind with
      | scriptMain script => exact absurd hkind (hprepared.kind script)
      | function | method =>
        rw [hkind] at h
        cases h
    · cases h

theorem afterYield?_append {y : Yield} {front back : List Stmt}
    (hfront : ∀ s ∈ front, s.yieldIndex? ≠ some y.index) :
    o.afterYield? y.index b (front ++ .yield y :: back) = some (o.rest b back) := by
  induction front with
  | nil =>
    rw [List.nil_append, afterYield?]
    exact if_pos rfl
  | cons s front ih =>
    obtain ⟨hs, hfront⟩ := List.forall_mem_cons.1 hfront
    rw [List.cons_append, afterYield?, if_neg hs]
    exact ih hfront

end Outline

namespace Plan

variable {p : Plan}

/-- What is resumed is what follows the suspension point in its block. -/
theorem opsAt_resume (hmade : p.Made) (hgen : p.procedure.isGenerator = true) {b : Block}
    (hb : b ∈ p.procedure.graph.blocks) {front back : List Stmt} {y : Yield}
    (hss : b.statements = front ++ .yield y :: back) :
    p.outline.opsAt (.resume y.index) = p.outline.rest b back := by
  obtain ⟨before, after, hblocks⟩ := List.append_of_mem (Array.mem_toList_iff.2 hb)
  have hnodup := nodup_indices hmade hgen
  rw [hblocks, List.flatMap_append, List.flatMap_cons, hss, List.filterMap_append, List.filterMap_cons,
    show (Stmt.yield y).yieldIndex? = some y.index from rfl] at hnodup
  have hbefore : ∀ b' ∈ before, p.outline.afterYield? y.index b' b'.statements = none := by
    intro b' hb'
    by_contra hne
    obtain ⟨back', hback'⟩ := Option.ne_none_iff_exists'.1 hne
    obtain ⟨⟨stmt, hstmt, hindex⟩, -⟩ := exists_suspend_of_afterYield? hback'
    have hmem : y.index ∈ before.flatMap fun b => b.statements.filterMap Stmt.yieldIndex? :=
      List.mem_flatMap.2 ⟨b', hb', List.mem_filterMap.2 ⟨stmt, hstmt, hindex⟩⟩
    refine (List.nodup_append.1 hnodup).2.2 y.index hmem y.index ?_ rfl
    simp
  have hfront : ∀ stmt ∈ front, stmt.yieldIndex? ≠ some y.index := by
    intro stmt hstmt hindex
    have hmem : y.index ∈ front.filterMap Stmt.yieldIndex? := List.mem_filterMap.2 ⟨stmt, hstmt, hindex⟩
    have hblock := (List.nodup_append.1 (List.nodup_append.1 hnodup).2.1).1
    exact (List.nodup_append.1 hblock).2.2 y.index hmem y.index List.mem_cons_self rfl
  have hfound : p.procedure.graph.blocks.toList.findSome?
      (fun b => p.outline.afterYield? y.index b b.statements) = some (p.outline.rest b back) := by
    rw [hblocks, List.findSome?_append, List.findSome?_eq_none_iff.2 hbefore, Option.none_or,
      List.findSome?_cons, hss, Outline.afterYield?_append hfront]
  change (p.procedure.graph.blocks.toList.findSome? _).getD [] = _
  rw [hfound]
  rfl

/-! ## Invocations -/

section
variable {code pre post : List Instr} {slot : TempSlot} {r : Reading} {s : Kept V W}

/-- The prologue of a prepared procedure does nothing. -/
theorem Entered.keeps (hentered : p.Entered code pre slot post) (hdirect : p.procedure.IsDirect)
    (hprepared : p.procedure.IsPrepared) (hdebug : p.options.debug = false) :
    ∀ i ∈ pre, ∀ c s₁ c' s₂, code[c.pc]? = some i → R.step code c s₁ = .on c' s₂ → s₁ = s → s₂ = s := by
  intro i hi c s₁ c' s₂ hpc hstep hs
  rcases hentered.mem_prologue i hi with hnote | hop
  · rw [Runtime.step_note hpc hnote] at hstep
    cases hstep
    exact hs
  · obtain rfl := Outline.eq_of_mem_prologue hdirect.localsArray hprepared hdebug hop
    rw [Runtime.step_plain hpc rfl rfl] at hstep
    cases hstep
    exact hs

/-- An invocation gets to the operations of the spot of its state. -/
theorem Entered.invokes (hentered : p.Entered code pre slot post) (hdirect : p.procedure.IsDirect)
    (hprepared : p.procedure.IsPrepared) (hdebug : p.options.debug = false)
    (hreal : Realizes r p.outline code) (spot : Spot)
    (hl : r.label? spot = some ((p.resume.points.lookup (R.toInt s.state)).getD ⟨p.bound⟩))
    (hjoins : r.joins spot) :
    ∃ c', Run.Leads (R.drive code) (.on R.enter s)
      (.on c' { s with state := R.literal (.int GeneratorState.running.toInt) }) ∧
        At r code [] (p.outline.opsAt spot) c' := by
  obtain ⟨-, temps, s', rfl, hjump⟩ :=
    hentered.jumps (R := R) (hentered.keeps hdirect hprepared hdebug) (rfl : s = s)
  obtain ⟨c₁, c₂, hgoTo, hleads, hat, -⟩ := At.lands
    (c := ⟨pre.length + 5, [], temps, []⟩)
    (s := { s' with state := R.literal (.int GeneratorState.running.toInt) })
    hreal (R.extends_drive code) hl hjoins rfl rfl
  rw [hgoTo] at hjump
  have hfirst : Run.Leads (R.step code) (.on R.enter s') (.on c₁ _) := ⟨_, hjump⟩
  exact ⟨c₂, (hfirst.mono fun _ _ _ _ => R.extends_drive code).trans hleads, hat⟩

/-- A suspension publishes its value, and the next invocation goes on behind it. -/
theorem Entered.yield_meets (hentered : p.Entered code pre slot post) (hmade : p.Made)
    (hgen : p.procedure.isGenerator = true) (hdirect : p.procedure.IsDirect)
    (hprepared : p.procedure.IsPrepared) (hdebug : p.options.debug = false) {final : Frame}
    (hreal : Realizes (p.reading final) p.outline code) (hints : R.KeepsInts) {b : Block}
    (hb : b ∈ p.blocks) (hwrites : p.outline.WritesBlock b) {front back : List Stmt} {y : Yield}
    (hss : b.statements = front ++ .yield y :: back) {c : Control V}
    (hat : At (p.reading final) code []
      (p.outline.statement (.yield y) ++ p.outline.rest b back) c) :
    Meets (p.reading final) code (R.literal (.int GeneratorState.running.toInt)) (R.drive code)
      R.Ended (fun _ : Unit => p.outline.rest b back) (.on c s)
      (p.procedure.execStmt R (.yield y) s.memory) := by
  have hwritten := hwrites.statements (.yield y) (by rw [hss]; simp)
  obtain ⟨-, hpos, hle, hpublish⟩ : p.procedure.isGenerator = true ∧ 1 ≤ y.index ∧
    y.index.toNat ≤ p.procedure.graph.yields.length ∧ (p.procedure.publish y).Succeeds := hwritten
  have hcond := R.conducts_drive hints code hgen
  have hstops : R.EndsFrom code (R.drive code) c s (Kept.note
      ⟨p.procedure.execPublish R y s.memory, R.literal (.int y.index)⟩ (.ret none)) :=
    Outline.yield_stops (o := p.outline) hcond hdirect.localsArray hpublish hat
  obtain ⟨c₁, s₁, hleads₁, hdone⟩ := hstops
  have hagain := R.drive_of_done hdone
  rw [if_pos (by rw [show R.toInt (Kept.state _) = y.index from hints y.index]; omega)] at hagain
  have hlen : p.resume.labels.length = p.procedure.graph.yields.length := by
    rw [hmade.resume, List.length_map, List.length_range, if_pos hgen]
  obtain ⟨l, hlabel⟩ : ∃ l, p.resume.label? y.index = some l :=
    ⟨⟨_⟩, hmade.resume_label?_eq_some_iff.2 ⟨hpos, hlen ▸ hle, rfl⟩⟩
  have hlookup : p.resume.points.lookup (R.toInt (R.literal (.int y.index))) = some l := by
    rw [hints]
    exact lookup_points hmade hgen ((mem_points_iff hmade hgen).2 hlabel)
  obtain ⟨c₂, hleads₂, hat₂⟩ := hentered.invokes
    (s := (Kept.note ⟨p.procedure.execPublish R y s.memory, R.literal (.int y.index)⟩
      (.ret none)).note (.resume (R.literal (.int y.index)))) hdirect hprepared hdebug hreal
    (.resume y.index) (by rw [show (Kept.state _) = R.literal (.int y.index) from rfl, hlookup]; exact hlabel)
    (Option.isSome_iff_exists.2 ⟨l, hlabel⟩)
  rw [opsAt_resume hmade hgen (FlowGraph.mem_blocks_of_block? (hmade.block? b hb)) hss] at hat₂
  have hinvoked : Run.Leads (R.drive code) (.on c₁ s₁) (.on c₂ _) := .of_step (hagain ▸ hleads₂)
  exact .of_leads (hleads₁.trans hinvoked) (.on () hat₂ rfl)

end

end Plan

/-! ## The procedure -/

/-- Invoked again and again, with its variables kept, a generator shows what direct execution shows if it
is never stopped.  That records at every suspension point that the generator returns there, and that
it is invoked again in the state that is the index of the suspension point.  Where the generator has ended
it has thrown an exception, or it has returned and is closed. -/
theorem Procedure.drive_refines_interpret {p : Procedure} {options : Options}
    {strategy : LayoutStrategy} {out : Array Instr} {sum : Summary}
    (h : p.lowerInto options strategy #[] = (out, .ok sum)) (hgen : p.isGenerator = true)
    (hdirect : p.IsDirect) (hprepared : p.IsPrepared) (hdebug : options.debug = false)
    (R : Runtime V W) (hints : R.KeepsInts) (s : Kept V W)
    (hs : R.toInt s.state = GeneratorState.notStarted.toInt) :
    Run.Refines Kept.memory Kept.Begins (Run.after (R.drive out.toList) (.on R.enter s))
        (p.interpret R s.memory) ∧
      ∀ n s', Run.after (R.drive out.toList) (.on R.enter s) n = .done s' → R.Ended s' := by
  obtain ⟨c, labels, ds, final, g, hmake, hlowered, -⟩ := lowerInto_eq_ok_iff.1 h
  obtain ⟨hsize, hblank⟩ := Plan.labels_of_make hmake
  obtain ⟨-, -, hp, hoptions, -⟩ := Plan.make_eq_ok hmake
  have hmade := Plan.made_of_make hmake
  have hreal := hlowered.realizes hmade hsize hblank
  obtain ⟨hwrites, -⟩ := hlowered.writes hmade hsize
  subst hp hoptions
  obtain ⟨pre, slot, post, hentered⟩ := hlowered.entered hmade hsize hgen
  have hnone : c.resume.points.lookup (R.toInt s.state) = none := by
    rw [List.lookup_eq_none_iff]
    intro point hpoint
    have hpos := Plan.pos_of_mem_yields hmade hgen (Plan.mem_yields_of_mem_points hmade hgen hpoint)
    rw [hs, bne_iff_ne]
    exact Int.ne_of_lt hpos
  obtain ⟨c₁, hleads, hat⟩ := hentered.invokes (R := R) (s := s) hdirect hprepared
    hdebug hreal .body (by rw [hnone]; exact if_pos hgen) hgen
  have hprologue : c.procedure.execPrologue R s.memory = s.memory := by
    unfold Procedure.execPrologue
    rw [if_pos hprepared.localsInitialized]
    cases hkind : c.procedure.kind with
    | scriptMain script => exact absurd hkind (hprepared.kind script)
    | function | method => rfl
  unfold Procedure.interpret
  rw [hprologue]
  generalize hrunning : { s with state := R.literal (.int GeneratorState.running.toInt) } = s₁ at hleads
  have hmemory : s.memory = s₁.memory := by rw [← hrunning]
  rw [hmemory]
  refine Plan.refines_of_leads hmade hdirect hwrites hreal (R.conducts_drive hints out.toList hgen)
    (R.begins_drive out.toList) ?_ hleads hat (by rw [← hrunning])
  intro b hb front y back hss d s' hat' hs'
  exact hentered.yield_meets hmade hgen hdirect hprepared hdebug hreal hints hb (hwrites b hb) hss hat'

theorem counter_drive_refines :
    Run.Refines Kept.memory Kept.Begins
        (Run.after (Runtime.ints.drive (counterCode true).toList) (.on Runtime.ints.enter (inState 0)))
        ((counter true).interpret Runtime.ints (inState 0).memory) ∧
      ∀ n s', Run.after (Runtime.ints.drive (counterCode true).toList)
        (.on Runtime.ints.enter (inState 0)) n = .done s' → Runtime.ints.Ended s' := by
  have hdirect : (counter true).IsDirect := ⟨rfl, by simp [counter, Edge.handler?]⟩
  have hprepared : (counter true).IsPrepared := ⟨rfl, fun _ h => by cases h⟩
  exact Procedure.drive_refines_interpret (lowerInto_counter true) rfl hdirect hprepared rfl
    Runtime.ints (fun _ => rfl) (inState 0) rfl

end StackCode
