import StackCode.Proofs.Execution.Points
import StackCode.Proofs.Outline.Writes

/-!
# The machine keeps to direct execution

Along the operations of a statement, an edge or a block, the machine gets to where direct execution of
the statement, the edge or the block does, with the same memory.  What a system other than the machine
itself does where an invocation ends, and what it does with a suspension, is left to the system: it
comes in as `Conducts` and as a hypothesis on the suspension points.
-/

namespace StackCode

variable {V W : Type} {R : Runtime V W}

/-- A procedure that direct execution covers: without a locals array and without protected regions. -/
structure Procedure.IsDirect (p : Procedure) : Prop where
  localsArray : p.localsArray = none
  handler? : ∀ b ∈ p.graph.blocks, b.edge.handler? = none

/-- The state that a procedure returns in, if it has been executed in this one. -/
def Procedure.finalState (p : Procedure) (R : Runtime V W) (state : V) : V :=
  if p.isGenerator then R.literal (.int GeneratorState.closed.toInt) else state

/-- The system goes on as the machine does, and ends where the machine ends, if `E` holds there.  It
does at the ends of a procedure that is executed in this state. -/
structure Conducts (R : Runtime V W) (code : List Instr) (p : Procedure) (state : V)
    (next : Control V → Kept V W → Run (Control V) (Kept V W)) (E : Kept V W → Prop) : Prop where
  goesOn : R.Extends code next
  ends : ∀ {c s s'}, R.step code c s = .done s' → E s' → next c s = .done s'
  throws : ∀ m v, E (Kept.note ⟨m, state⟩ (.throw v))
  returns : ∀ m v, E (Kept.note ⟨m, p.finalState R state⟩ (.ret v))

/-- The system gets to where direct execution has come to, and is in front of the operations there. -/
def Meets {T : Type} (r : Reading) (code : List Instr) (state : V)
    (next : Control V → Kept V W → Run (Control V) (Kept V W)) (E : Kept V W → Prop) (k : T → List Op)
    (x : Run (Control V) (Kept V W)) (y : Run T (Memory V W)) : Prop :=
  ∃ z, Run.Leads next x z ∧
    Run.Agrees Kept.memory (fun c t s => At r code [] (k t) c ∧ s.state = state) E z y

section
variable {T : Type} {r : Reading} {code : List Instr} {state : V}
  {next : Control V → Kept V W → Run (Control V) (Kept V W)} {E : Kept V W → Prop}
  {c : Control V} {s : Kept V W} {ops : List Op}

theorem Meets.of_leads {k : T → List Op} {x x' : Run (Control V) (Kept V W)} {y : Run T (Memory V W)}
    (h : Run.Leads next x x') (h' : Meets r code state next E k x' y) :
    Meets r code state next E k x y := by
  obtain ⟨z, hleads, hagrees⟩ := h'
  exact ⟨z, h.trans hleads, hagrees⟩

theorem Meets.on {k : T → List Op} (t : T) (hat : At r code [] (k t) c) (hs : s.state = state) :
    Meets r code state next E k (.on c s) (.on t s.memory) :=
  ⟨.on c s, .refl _, .on (s := c) (t := t) ⟨hat, hs⟩⟩

theorem Meets.exists_done {k : T → List Op} {x : Run (Control V) (Kept V W)} {m : Memory V W}
    (h : Meets r code state next E k x (.done m)) :
    ∃ s, Run.Leads next x (.done s) ∧ s.memory = m ∧ E s := by
  obtain ⟨z, hleads, hagrees⟩ := h
  generalize hy : (.done m : Run T (Memory V W)) = y at hagrees
  cases hagrees with
  | on => cases hy
  | done hE =>
    cases hy
    exact ⟨_, hleads, rfl, hE⟩

theorem Meets.mono {k k' : T → List Op} {x : Run (Control V) (Kept V W)} {y : Run T (Memory V W)}
    (hk : ∀ t (c : Control V), At r code [] (k t) c → At r code [] (k' t) c)
    (h : Meets r code state next E k x y) :
    Meets r code state next E k' x y := by
  obtain ⟨z, hleads, hagrees⟩ := h
  refine ⟨z, hleads, ?_⟩
  cases hagrees with
  | on h => exact .on ⟨hk _ _ h.1, h.2⟩
  | done hE => exact .done hE

variable {p : Procedure}

theorem Conducts.done (hcond : Conducts R code p state next E) {k : T → List Op} {s' : Kept V W}
    (h : R.EndsFrom code next c s s') (hE : E s') :
    Meets r code state next E k (.on c s) (.done s'.memory) := by
  obtain ⟨c₁, s₁, hleads, hstep⟩ := h
  refine ⟨.done s', hleads.trans (.of_step ?_), .done hE⟩
  rw [hcond.ends hstep hE]
  exact .refl _

/-- Straight-line code meets what its fragment does. -/
theorem Conducts.run (hcond : Conducts R code p state next E) {α : Type} {x : Fragment α}
    (hx : x.IsPlain) {m' : Memory V W} (hruns : x.Runs R ([], s.memory) ([], m'))
    (hat : At r code [] (x.ops ++ ops) c) (hs : s.state = state) :
    Meets r code state next E (fun _ : Unit => ops) (.on c s) (.on () m') := by
  obtain ⟨c', hleads, hat'⟩ := hat.runs hcond.goesOn hx hruns
  exact .of_leads hleads (.on () hat' hs)

end

/-! ## Returning -/

namespace Fragment

theorem runs_pushDefault (ty : Ty) (st : List V) (m : Memory V W) :
    (pushDefault ty).Runs R (st, m) ((R.default? ty).toList ++ st, m) := by
  unfold pushDefault Runtime.default?
  cases ty.default? with
  | none => exact runs_pure ()
  | some v => exact runs_literal v st m

end Fragment

namespace Outline

variable {o : Outline} {r : Reading} {code : List Instr} {state : V}
  {next : Control V → Kept V W → Run (Control V) (Kept V W)} {E : Kept V W → Prop}
  {c : Control V} {s : Kept V W} {k : List Op}

theorem isSome_defaultReturn (o : Outline) (R : Runtime V W) :
    (o.procedure.defaultReturn R).isSome = o.stages := by
  unfold Procedure.defaultReturn stages Runtime.default?
  cases o.procedure.isGenerator with
  | true => rfl
  | false =>
    cases hty : o.procedure.returnType <;> rfl

theorem isSome_execKeep (o : Outline) (R : Runtime V W) (ty : Ty) (v : V) (m : Memory V W) :
    (o.procedure.execKeep R ty v m).1.isSome = o.stages := by
  unfold Procedure.execKeep
  by_cases hty : ty.isVoid = true
  · rw [if_pos hty]
    exact o.isSome_defaultReturn R
  · rw [if_neg hty]
    unfold stages
    cases o.procedure.isGenerator with
    | true => rfl
    | false => cases o.procedure.returnType <;> rfl

/-- A returned value is brought into its form. -/
theorem keep_runs {ty : Ty} (h : (o.keep ty).Succeeds) (v : V) (m : Memory V W) :
    (o.keep ty).Runs R (if ty.isVoid then [] else [v], m)
      ((o.procedure.execKeep R ty v m).1.toList, (o.procedure.execKeep R ty v m).2) := by
  obtain ⟨u, h⟩ := h
  unfold keep at h ⊢
  unfold Procedure.execKeep Procedure.defaultReturn
  by_cases hgen : o.procedure.isGenerator = true
  · rw [if_pos hgen] at h
    rw [if_pos hgen, if_pos hgen, if_pos hgen]
    by_cases hty : ty.isVoid = true
    · rw [if_pos hty, if_pos hty, if_pos hty]
      exact Fragment.runs_pure ()
    · rw [if_neg hty] at h
      rw [if_neg hty, if_neg hty, if_neg hty]
      obtain ⟨u', hconvert, -, -⟩ := Fragment.bind_eq_ok h
      refine (Fragment.runs_convert hconvert rfl v [] m).bind hconvert ?_
      exact Fragment.runs_callIntrinsic .setGeneratorReturn [_] rfl [] _
  · rw [if_neg hgen] at h
    rw [if_neg hgen, if_neg hgen, if_neg hgen]
    by_cases hvoid : o.procedure.returnType.isVoid = true
    · rw [if_pos hvoid, if_pos hvoid]
      by_cases hty : ty.isVoid = true
      · rw [if_pos hty, if_pos hty, if_pos hty, Ty.isVoid_iff.1 hvoid]
        exact Fragment.runs_pure ()
      · rw [if_neg hty, if_neg hty, if_neg hty]
        exact Fragment.runs_emit rfl
    · rw [if_neg hvoid] at h
      rw [if_neg hvoid, if_neg hvoid]
      by_cases hty : ty.isVoid = true
      · rw [if_pos hty, if_pos hty, if_pos hty]
        have hpush := Fragment.runs_pushDefault (R := R) o.procedure.returnType [] m
        rw [List.append_nil] at hpush
        exact hpush
      · rw [if_neg hty] at h
        rw [if_neg hty, if_neg hty, if_neg hty]
        exact Fragment.runs_convert h (Bool.eq_false_iff.2 hvoid) v [] m

/-- Static storage is initialized with a value of the initializer. -/
theorem staticInit_runs (harray : o.procedure.localsArray = none) {target : LocalId} {init : Expr}
    (h : (o.staticInit target init).Succeeds) (m : Memory V W) :
    (o.staticInit target init).Runs R ([], m)
      ([], (o.procedure.evalAs R init .value m).2.tell R .staticInitialize
        [m.locals target, (o.procedure.evalAs R init .value m).1]) := by
  obtain ⟨⟨u, hload⟩, hrest⟩ := Fragment.succeeds_bind_unit_iff.1 h
  obtain ⟨⟨u', hvalue⟩, -⟩ := Fragment.succeeds_bind_unit_iff.1 hrest
  refine (Procedure.loadVar_runs harray hload [] m).bind hload ?_
  refine (Procedure.value_runs harray ⟨u', hvalue⟩ rfl _ m).bind hvalue ?_
  exact Fragment.runs_callIntrinsic .staticInitialize [_, _] rfl [] _

section
variable (hcond : Conducts R code o.procedure state next E)
include hcond

/-- The end of a path without a return statement. -/
theorem exit_meets {T : Type} {l : T → List Op} (hat : At r code [] (o.exit ++ k) c)
    (hs : s.state = state) :
    Meets r code state next E l (.on c s)
      (.done (s.memory.note (.ret (o.procedure.defaultReturn R)))) := by
  unfold exit at hat
  unfold Procedure.defaultReturn
  have hreturns := hcond.returns s.memory
  unfold Procedure.finalState at hreturns
  by_cases hgen : o.procedure.isGenerator = true
  · rw [if_pos hgen] at hat hreturns
    rw [if_pos hgen]
    have hpush : (Fragment.emit (.constInt GeneratorState.closed.toInt)).Runs R ([], s.memory)
        ([R.literal (.int GeneratorState.closed.toInt)], s.memory) := Fragment.runs_emit rfl
    obtain ⟨c₁, hleads₁, hat₁⟩ := At.runs hcond.goesOn (Fragment.isPlain_emit rfl) hpush hat
    obtain ⟨c₂, hleads₂, hat₂⟩ := hat₁.storeState (s := s) hcond.goesOn
    have hends := hat₂.ret (s := { s with state := R.literal (.int GeneratorState.closed.toInt) })
      hcond.goesOn
    exact hcond.done (.of_leads (hleads₁.trans hleads₂) hends) (hreturns none)
  · rw [if_neg hgen] at hat hreturns
    rw [if_neg hgen]
    rw [List.append_assoc] at hat
    have hpush := Fragment.runs_pushDefault (R := R) o.procedure.returnType [] s.memory
    obtain ⟨c₁, hleads₁, hat₁⟩ := At.runs hcond.goesOn (Fragment.isPlain_pushDefault _) hpush hat
    subst hs
    cases hvalue : R.default? o.procedure.returnType with
    | none =>
      have hty : o.procedure.returnType = .void := by
        unfold Runtime.default? at hvalue
        exact Ty.default?_eq_none_iff.1 (Option.map_eq_none_iff.1 hvalue)
      rw [hvalue, hty] at hat₁
      exact hcond.done (.of_leads hleads₁ (hat₁.ret hcond.goesOn)) (hreturns none)
    | some v =>
      have hty : o.procedure.returnType.isVoid = false := by
        rw [Bool.eq_false_iff]
        intro hvoid
        rw [Ty.isVoid_iff.1 hvoid] at hvalue
        cases hvalue
      rw [hvalue, hty] at hat₁
      exact hcond.done (.of_leads hleads₁ (hat₁.retValue hcond.goesOn)) (hreturns (some v))

/-- What is kept for it is returned. -/
theorem return_meets (hreal : Realizes r o code) {T : Type} {l : T → List Op} {v : Option V}
    (hv : v.isSome = o.stages)
    (hat : At r code v.toList ((if o.stages then [.stage] else []) ++ [.goto .ret] ++ k) c)
    (hs : s.state = state) :
    Meets r code state next E l (.on c s) (.done (s.memory.note (.ret v))) := by
  cases v with
  | none =>
    have hstages : o.stages = false := hv.symm
    rw [hstages] at hat
    obtain ⟨c₁, hleads, hat₁, -⟩ := At.goto (s := s) hreal hcond.goesOn hat
    have hspot : o.opsAt .ret = o.exit ++ [] := by
      rw [List.append_nil, opsAt, returning, hstages, if_neg Bool.false_ne_true]
    have hdefault : o.procedure.defaultReturn R = none := by
      have hsome := o.isSome_defaultReturn R
      rw [hstages] at hsome
      exact Option.isSome_eq_false_iff.1 hsome |> Option.isNone_iff_eq_none.1
    rw [hspot] at hat₁
    refine .of_leads hleads.of_step ?_
    have hexit := exit_meets (l := l) hcond hat₁ hs
    rw [hdefault] at hexit
    exact hexit
  | some v =>
    have hstages : o.stages = true := hv.symm
    rw [hstages] at hat
    obtain ⟨c₁, slot, hleads₁, hat₁, hslot, htemp⟩ := At.stage (s := s) hcond.goesOn hat
    obtain ⟨c₂, hleads₂, hat₂, htemps⟩ := At.goto (s := s) hreal hcond.goesOn hat₁
    have hspot : o.opsAt .ret = [.unstage, .run (.ret true)] := by
      rw [opsAt, returning, hstages, if_pos rfl]
    rw [hspot] at hat₂
    obtain ⟨c₃, hleads₃, hat₃⟩ := hat₂.unstage (s := s) hcond.goesOn hslot
    rw [htemps, htemp] at hat₃
    subst hs
    have hends := Runtime.EndsFrom.of_leads (hleads₁.trans (hleads₂.of_step.trans hleads₃))
      (hat₃.retValue hcond.goesOn)
    refine hcond.done hends ?_
    have hgen : o.procedure.isGenerator = false := by
      unfold stages at hstages
      simpa using (Bool.and_eq_true_iff.1 hstages).1
    have hreturns := hcond.returns s.memory (some v)
    unfold Procedure.finalState at hreturns
    rw [hgen] at hreturns
    exact hreturns

theorem returnValue_meets (hreal : Realizes r o code) (harray : o.procedure.localsArray = none)
    {T : Type} {l : T → List Op} {value : Option Expr} (hwrites : o.Writes (.ret value))
    (hat : At r code [] (o.returnValue value ++ k) c) (hs : s.state = state) :
    Meets r code state next E l (.on c s) (.done (o.procedure.execReturn R value s.memory)) := by
  have hwrites : (o.returned value >>= o.keep).Succeeds := hwrites
  obtain ⟨ty, hty, hkeep⟩ := Fragment.succeeds_bind_iff.1 hwrites
  unfold returnValue Fragment.opsThen at hat
  rw [hty, List.append_assoc] at hat
  obtain ⟨c₁, st₁, m₁, hruns, hleads₁, hat₁⟩ := hat.run (s := s) hcond.goesOn (o.isPlain_returned value)
  have hvalue : ∃ v : V, st₁ = (if ty.isVoid then [] else [v]) ∧
      o.procedure.execReturn R value s.memory =
        (o.procedure.execKeep R ty v m₁).2.note (.ret (o.procedure.execKeep R ty v m₁).1) := by
    cases value with
    | none =>
      cases hty
      cases hruns.unique (Fragment.runs_pure Ty.void)
      exact ⟨R.unbound, rfl, rfl⟩
    | some e =>
      cases Procedure.eq_of_evaluate harray hty hruns
      obtain rfl := Procedure.eq_resultTy_of_evaluate harray hty
      exact ⟨_, rfl, rfl⟩
  obtain ⟨v, rfl, hresult⟩ := hvalue
  rw [List.append_assoc, List.append_assoc] at hat₁
  obtain ⟨c₂, hleads₂, hat₂⟩ := At.runs (s := { s with memory := m₁ }) hcond.goesOn
    (o.isPlain_keep ty) (o.keep_runs hkeep v m₁) hat₁
  rw [← List.append_assoc] at hat₂
  rw [hresult]
  refine .of_leads (hleads₁.trans hleads₂) ?_
  exact return_meets hcond hreal (o.isSome_execKeep R ty v m₁) hat₂ hs

/-! ## Statements -/

theorem bindStatic_meets (hreal : Realizes r o code) (harray : o.procedure.localsArray = none)
    {d : StaticDecl} (hwrites : o.Writes (.bindStatic d))
    (hat : At r code [] (o.bindStatic d ++ k) c) (hs : s.state = state) :
    Meets r code state next E (fun _ : Unit => k) (.on c s)
      (.on () (o.procedure.execStatic R d s.memory)) := by
  obtain ⟨hholder, hinit⟩ := hwrites
  unfold bindStatic at hat
  rw [List.append_assoc] at hat
  obtain ⟨c₁, hleads₁, hat₁⟩ := hat.runs (s := s) hcond.goesOn
    (o.procedure.isPlain_bindHolder d.target d.key) (Procedure.bindHolder_runs harray hholder)
  refine .of_leads hleads₁ ?_
  unfold Procedure.execStatic
  cases hd : d.init with
  | none =>
    rw [hd] at hat₁
    exact .on () hat₁ hs
  | some init =>
    rw [hd] at hat₁
    simp only [List.append_assoc] at hat₁
    generalize hm : Procedure.execBindHolder R d s.memory = bound at hat₁ hleads₁
    have hlocal : bound.2.locals d.target = bound.1 := by
      rw [← hm]
      exact Function.update_self ..
    have hinit := hinit init hd
    obtain ⟨⟨u, hload⟩, -⟩ := Fragment.succeeds_bind_unit_iff.1 hinit
    have hloaded := Procedure.loadVar_runs (R := R) harray hload [] bound.2
    rw [hlocal] at hloaded
    obtain ⟨c₂, hleads₂, hat₂⟩ := hat₁.runs (s := { s with memory := bound.2 }) hcond.goesOn
      (o.procedure.isPlain_loadVar d.target) hloaded
    obtain ⟨c₃, hleads₃, hat₃⟩ := hat₂.runs (s := { s with memory := bound.2 }) hcond.goesOn
      (Fragment.isPlain_callIntrinsic _)
      (Fragment.runs_callIntrinsic .staticIsInitialized [bound.1] rfl [] bound.2)
    refine .of_leads (hleads₂.trans hleads₃) ?_
    generalize hasked : bound.2.ask R .staticIsInitialized [bound.1] = asked
    have hat₃ : At r code [asked.1] (.guard (o.staticInit d.target init).code :: k) c₃ := by
      rw [← hasked]
      exact hat₃
    have htold : bound.2.tell R .staticIsInitialized [bound.1] = asked.2 := congrArg Prod.snd hasked
    change Meets r code state next E _
      (.on c₃ { s with memory := bound.2.tell R .staticIsInitialized [bound.1] }) _
    rw [htold]
    obtain ⟨c₄, hleads₄, hat₄⟩ := hat₃.guard (s := { s with memory := asked.2 }) hreal hcond.goesOn
    refine .of_leads hleads₄ ?_
    by_cases hdone : R.isTrue asked.1 = true
    · rw [if_pos hdone] at hat₄
      simp only [hasked, if_pos hdone]
      exact .on () hat₄ hs
    · rw [if_neg hdone] at hat₄
      simp only [hasked, if_neg hdone]
      have hkept : asked.2.locals d.target = bound.1 := by
        rw [← hasked, ← hlocal]
        rfl
      have hruns := staticInit_runs (R := R) harray hinit asked.2
      rw [hkept] at hruns
      exact hcond.run (s := { s with memory := asked.2 }) (o.isPlain_staticInit d.target init) hruns
        hat₄ hs

theorem throw_meets (harray : o.procedure.localsArray = none) {T : Type} {l : T → List Op} {e : Expr}
    (hwrites : o.Writes (.throw e)) (hat : At r code [] ((o.procedure.throwValue e).ops ++ k) c)
    (hs : s.state = state) :
    Meets r code state next E l (.on c s)
      (.done ((o.procedure.evalAs R e .value s.memory).2.note
        (.throw (o.procedure.evalAs R e .value s.memory).1))) := by
  obtain ⟨u, hwrites⟩ : (o.procedure.throwValue e).Succeeds := hwrites
  obtain ⟨u', hvalue, -, hcode⟩ := Fragment.bind_eq_ok hwrites
  have hops : (o.procedure.throwValue e).ops =
      (o.procedure.value e .value .thrown).ops ++ [.run .throw] := by
    unfold Fragment.ops
    rw [show (o.procedure.throwValue e).code = _ from hcode, List.map_append]
    rfl
  rw [hops, List.append_assoc] at hat
  obtain ⟨c₁, hleads, hat₁⟩ := hat.runs (s := s) hcond.goesOn (o.procedure.isPlain_value e _ _)
    (Procedure.value_runs harray ⟨u', hvalue⟩ rfl [] s.memory)
  subst hs
  exact hcond.done (.of_leads hleads (hat₁.throw hcond.goesOn)) (hcond.throws _ _)

theorem statementBody_meets (hreal : Realizes r o code) (harray : o.procedure.localsArray = none)
    {stmt : Stmt} (hwrites : o.Writes stmt) (hyield : stmt.yieldIndex? = none)
    (hat : At r code [] (o.statementBody stmt ++ k) c) (hs : s.state = state) :
    Meets r code state next E (fun _ : Unit => k) (.on c s)
      (o.procedure.execStmt R stmt s.memory) := by
  cases stmt with
  | empty span =>
    have hops : o.statementBody (.empty span) =
        if (span.isSome && o.options.sequencePoints) = true then [.run .nop] else [] := rfl
    rw [hops] at hat
    split at hat
    · exact hcond.run (x := Fragment.emit .nop) (Fragment.isPlain_emit rfl)
        (Fragment.runs_emit rfl) hat hs
    · exact .on () hat hs
  | declare => exact .on () hat hs
  | expr e =>
    obtain ⟨c₁, st₁, m₁, hruns, hleads, hat₁⟩ :=
      hat.run (s := s) hcond.goesOn (o.procedure.isPlain_discardValue e)
    cases Procedure.eq_of_discardValue harray hwrites hruns
    exact .of_leads hleads (.on () hat₁ hs)
  | ret value => exact returnValue_meets hcond hreal harray hwrites hat hs
  | throw e => exact throw_meets hcond harray hwrites hat hs
  | declareFunction name =>
    exact hcond.run (Fragment.isPlain_callWithName _ _)
      (Fragment.runs_callWithName .declareFunction rfl name [] s.memory) hat hs
  | declareType name =>
    exact hcond.run (Fragment.isPlain_callWithName _ _)
      (Fragment.runs_callWithName .declareType rfl name [] s.memory) hat hs
  | bindGlobal id =>
    exact hcond.run (o.procedure.isPlain_bindGlobal id) (Procedure.bindGlobal_runs harray hwrites)
      hat hs
  | defineConst name e =>
    exact hcond.run (o.procedure.isPlain_defineConst name e)
      (Procedure.defineConst_runs harray hwrites) hat hs
  | bindStatic d => exact bindStatic_meets hcond hreal harray hwrites hat hs
  | unset target =>
    exact hcond.run (o.procedure.isPlain_unset target) (Procedure.unset_runs harray hwrites) hat hs
  | yield y => cases hyield

/-- A place for a debugger is passed. -/
theorem sequencePoint_meets {span : Option Span} (hat : At r code [] (o.sequencePoint span ++ k) c) :
    ∃ c', Run.Leads next (.on c s) (.on c' s) ∧ At r code [] k c' := by
  unfold sequencePoint at hat
  split at hat
  · next span =>
    split at hat
    · exact At.runs (x := Fragment.emit (.sequencePoint span)) hcond.goesOn
        (Fragment.isPlain_emit rfl) (Fragment.runs_emit rfl) hat
    · exact ⟨c, .refl _, hat⟩
  · exact ⟨c, .refl _, hat⟩

theorem statement_meets (hreal : Realizes r o code) (harray : o.procedure.localsArray = none)
    {stmt : Stmt} (hwrites : o.Writes stmt) (hyield : stmt.yieldIndex? = none)
    (hat : At r code [] (o.statement stmt ++ k) c) (hs : s.state = state) :
    Meets r code state next E (fun _ : Unit => k) (.on c s)
      (o.procedure.execStmt R stmt s.memory) := by
  unfold statement at hat
  rw [List.append_assoc, List.append_assoc] at hat
  obtain ⟨c₁, hleads, hat₁⟩ := sequencePoint_meets (s := s) hcond hat
  refine .of_leads hleads (Meets.mono (fun _ _ h => h.settle) ?_)
  exact statementBody_meets hcond hreal harray hwrites hyield hat₁ hs

/-- At a suspension point the value is published, the state is set, and the invocation ends. -/
theorem yield_stops (harray : o.procedure.localsArray = none) {y : Yield}
    (hpublish : (o.procedure.publish y).Succeeds)
    (hat : At r code [] (o.statement (.yield y) ++ k) c) :
    R.EndsFrom code next c s
      (Kept.note ⟨o.procedure.execPublish R y s.memory, R.literal (.int y.index)⟩ (.ret none)) := by
  have hops : o.statement (.yield y) ++ k = o.sequencePoint (Stmt.yield y).span ++
      ((o.procedure.publish y).ops ++ ((Fragment.emit (.constInt y.index)).ops ++
        (.run .storeState :: .suspend y.index :: .settle :: k))) := by
    simp only [statement, statementBody, List.append_assoc]
    rfl
  rw [hops] at hat
  obtain ⟨c₁, hleads₁, hat₁⟩ := sequencePoint_meets (s := s) hcond hat
  obtain ⟨c₂, hleads₂, hat₂⟩ := hat₁.runs (s := s) hcond.goesOn (o.procedure.isPlain_publish y)
    (Procedure.publish_runs harray hpublish)
  generalize o.procedure.execPublish R y s.memory = m at hleads₂ ⊢
  obtain ⟨c₃, hleads₃, hat₃⟩ := hat₂.runs (s := { s with memory := m }) hcond.goesOn
    (Fragment.isPlain_emit rfl) (Fragment.runs_emit rfl)
  obtain ⟨c₄, hleads₄, hat₄⟩ := hat₃.storeState (s := { s with memory := m }) hcond.goesOn
  have hends := hat₄.suspend (s := ⟨m, R.literal (.int y.index)⟩) hcond.goesOn
  exact .of_leads (hleads₁.trans (hleads₂.trans (hleads₃.trans hleads₄))) hends

/-- The statements of a block are met one after the other, if the suspension points among them are. -/
theorem statements_meet (hreal : Realizes r o code) (harray : o.procedure.localsArray = none)
    {ss : List Stmt} (hwrites : ∀ stmt ∈ ss, o.Writes stmt)
    (hyields : ∀ front y back, ss = front ++ .yield y :: back → ∀ {c s},
      At r code [] (o.statement (.yield y) ++ (o.statements back ++ k)) c → s.state = state →
        Meets r code state next E (fun _ : Unit => o.statements back ++ k) (.on c s)
          (o.procedure.execStmt R (.yield y) s.memory))
    (hat : At r code [] (o.statements ss ++ k) c) (hs : s.state = state) :
    Meets r code state next E (fun _ : Unit => k) (.on c s)
      (o.procedure.execStmts R ss s.memory) := by
  induction ss generalizing c s with
  | nil => exact .on () hat hs
  | cons stmt ss ih =>
    obtain ⟨hfirst, hrest⟩ := List.forall_mem_cons.1 hwrites
    have hat : At r code [] (o.statement stmt ++ (o.statements ss ++ k)) c := by
      rw [← List.append_assoc]
      exact hat
    have hmeets : Meets r code state next E (fun _ : Unit => o.statements ss ++ k) (.on c s)
        (o.procedure.execStmt R stmt s.memory) := by
      cases stmt with
      | yield y => exact hyields [] y ss rfl hat hs
      | _ => exact statement_meets hcond hreal harray hfirst rfl hat hs
    obtain ⟨z, hleads, hagrees⟩ := hmeets
    unfold Procedure.execStmts
    generalize o.procedure.execStmt R stmt s.memory = y at hagrees
    cases hagrees with
    | on h =>
      refine .of_leads hleads (ih hrest ?_ h.1 h.2)
      intro front y back hss
      exact hyields (stmt :: front) y back (by rw [hss]; rfl)
    | done hE => exact ⟨_, hleads, .done hE⟩

/-! ## Edges -/

omit hcond in
theorem lookup_cases (cases : List (Int × BlockId)) (key : Int) (default : BlockId) :
    ((cases.map fun (key, target) => (key, Spot.block target)).lookup key).getD (.block default) =
      .block ((cases.lookup key).getD default) := by
  induction cases with
  | nil => rfl
  | cons e cases ih =>
    rw [List.map_cons, List.lookup_cons, List.lookup_cons]
    split
    · rfl
    · exact ih

/-- The machine goes along an edge, in at least one step. -/
theorem edge_meets (hreal : Realizes r o code) (harray : o.procedure.localsArray = none) {e : Edge}
    (hwrites : o.WritesEdge e) (hhandler : e.handler? = none) (hat : At r code [] (o.edge e) c) :
    ∃ t ∈ e.targets, ∃ c' m, o.procedure.follow R e s.memory = .on t m ∧
      Run.Leads next (next c s) (.on c' { s with memory := m }) ∧
        At r code [] (o.opsAt (.block t)) c' := by
  cases e with
  | goto target =>
    obtain ⟨c₁, hleads, hat₁, -⟩ := At.goto (s := s) hreal hcond.goesOn hat
    exact ⟨target, List.mem_singleton.2 rfl, c₁, s.memory, rfl, hleads, hat₁⟩
  | leave target =>
    obtain ⟨c₁, hleads, hat₁⟩ := At.leave (s := s) hreal hcond.goesOn hat
    exact ⟨target, List.mem_singleton.2 rfl, c₁, s.memory, rfl, hleads, hat₁⟩
  | branch condition onTrue onFalse =>
    have hvalue := Procedure.value_runs (R := R) harray hwrites rfl [] s.memory
    obtain ⟨c₁, hleads₁, hat₁⟩ := hat.runs hcond.goesOn (o.procedure.isPlain_value condition _ _) hvalue
    generalize htested : o.procedure.evalAs R condition .bool s.memory = tested at hleads₁ hat₁
    have hfollow : o.procedure.follow R (.branch condition onTrue onFalse) s.memory =
        .on (if R.isTrue tested.1 then onTrue else onFalse) tested.2 := by
      rw [← htested]
      rfl
    refine ⟨if R.isTrue tested.1 then onTrue else onFalse, ?_, ?_⟩
    · simp only [Edge.targets, List.mem_cons, List.not_mem_nil, or_false]
      split
      · exact .inl rfl
      · exact .inr rfl
    by_cases heq : onTrue = onFalse
    · rw [if_pos heq] at hat₁
      obtain ⟨c₂, hleads₂, hat₂⟩ := At.runs (s := { s with memory := tested.2 }) (x := Fragment.emit .pop)
        hcond.goesOn (Fragment.isPlain_emit rfl) (Fragment.runs_emit rfl) hat₁
      obtain ⟨c₃, hleads₃, hat₃, -⟩ := hat₂.goto (s := { s with memory := tested.2 }) hreal hcond.goesOn
      refine ⟨c₃, tested.2, hfollow, (hleads₁.trans hleads₂).step_of hleads₃, ?_⟩
      rw [← heq, ite_self]
      exact hat₃
    · rw [if_neg heq] at hat₁
      obtain ⟨c₂, hleads₂, hat₂⟩ := hat₁.fork (s := { s with memory := tested.2 }) hreal hcond.goesOn
      refine ⟨c₂, tested.2, hfollow, hleads₁.step_of hleads₂, ?_⟩
      rw [apply_ite Spot.block]
      exact hat₂
  | switch selector cases default =>
    have hvalue := Procedure.value_runs (R := R) harray hwrites rfl [] s.memory
    obtain ⟨c₁, hleads₁, hat₁⟩ := hat.runs hcond.goesOn (o.procedure.isPlain_value selector _ _) hvalue
    generalize htested : o.procedure.evalAs R selector .int s.memory = tested at hleads₁ hat₁
    obtain ⟨c₂, hleads₂, hat₂⟩ := hat₁.select (s := { s with memory := tested.2 }) hreal hcond.goesOn
    rw [lookup_cases] at hat₂
    refine ⟨_, getD_lookup_mem cases (R.toInt tested.1) default, c₂, tested.2, ?_,
      hleads₁.step_of hleads₂, hat₂⟩
    rw [← htested]
    rfl
  | protect body handler exception => cases hhandler
  | none => exact hat.follows.not_dangle.elim

end

end Outline

/-! ## Blocks -/

namespace Plan

variable {p : Plan} {r : Reading} {code : List Instr} {state : V}
  {next : Control V → Kept V W → Run (Control V) (Kept V W)} {E : Kept V W → Prop}
  {c : Control V} {s : Kept V W}

/-- Control is at a block of the plan, in this state. -/
def AtBlock (p : Plan) (r : Reading) (code : List Instr) (state : V) (c : Control V) (t : BlockId)
    (s : Kept V W) : Prop :=
  (At r code [] (p.outline.opsAt (.block t)) c ∧ s.state = state) ∧ ∃ b ∈ p.blocks, b.id = t

theorem outline_block_of_isDirect (hmade : p.Made) (hdirect : p.procedure.IsDirect) (b : Block) :
    p.outline.block b = p.outline.rest b b.statements := by
  have hcaught : p.caught? b.id = none := by
    by_contra hne
    obtain ⟨b', hb', hhandler⟩ := Made.isSome_caught?_iff.1 (Option.isSome_iff_ne_none.2 hne)
    have hmem := FlowGraph.mem_blocks_of_block? (hmade.block? b' hb')
    rw [hdirect.handler? b' hmem] at hhandler
    cases hhandler
  have hreceive : p.outline.receive b.id = [] := by
    unfold Outline.receive
    rw [show p.outline.caught b.id = p.caught? b.id from rfl, hcaught]
  unfold Outline.block
  rw [hreceive, List.nil_append]

/-- From a block, the machine gets to where direct execution of the block does, in at least one step. -/
theorem block_meets (hmade : p.Made) (hdirect : p.procedure.IsDirect)
    (hwrites : ∀ b ∈ p.blocks, p.outline.WritesBlock b) (hreal : Realizes r p.outline code)
    (hcond : Conducts R code p.procedure state next E)
    (hyields : ∀ b ∈ p.blocks, ∀ front y back, b.statements = front ++ .yield y :: back → ∀ {c s},
      At r code [] (p.outline.statement (.yield y) ++ p.outline.rest b back) c → s.state = state →
        Meets r code state next E (fun _ : Unit => p.outline.rest b back) (.on c s)
          (p.procedure.execStmt R (.yield y) s.memory))
    {t : BlockId} (hat : p.AtBlock r code state c t s) :
    ∃ x, Run.Leads next (next c s) x ∧
      Run.Agrees Kept.memory (p.AtBlock r code state) E x (p.procedure.execBlock R t s.memory) := by
  obtain ⟨⟨hat, hs⟩, b, hb, rfl⟩ := hat
  have hblock := hmade.block? b hb
  have hops : p.outline.opsAt (.block b.id) =
      p.outline.statements b.statements ++ p.outline.blockEnd b := by
    rw [← Outline.rest, ← outline_block_of_isDirect hmade hdirect, Outline.opsAt,
      show p.outline.procedure.graph.block? b.id = some b from hblock]
    rfl
  rw [hops] at hat
  unfold Procedure.execBlock
  rw [hblock]
  simp only
  obtain ⟨z, hleads, hagrees⟩ := Outline.statements_meet hcond hreal hdirect.localsArray
    (hwrites b hb).statements (hyields b hb) hat hs
  change Run.Agrees _ _ _ z (p.procedure.execStmts R b.statements s.memory) at hagrees
  generalize p.procedure.execStmts R b.statements s.memory = y at hagrees
  cases hagrees with
  | done hE => exact ⟨_, hleads.step_of_done, .done hE⟩
  | @on c₁ _ s₁ h =>
    obtain ⟨hat₁, hs₁⟩ := h
    unfold Run.andThen
    simp only
    unfold Outline.blockEnd at hat₁
    by_cases hkind : b.kind = .exit
    · rw [if_pos hkind] at hat₁ ⊢
      have hexit : At r code [] (p.outline.exit ++ []) c₁ := by
        rw [List.append_nil]
        exact hat₁
      obtain ⟨s₂, hleads₁, hmemory, hE⟩ :=
        (Outline.exit_meets (l := fun _ : Unit => []) hcond hexit hs₁).exists_done
      refine ⟨.done s₂, (hleads.trans hleads₁).step_of_done, ?_⟩
      rw [show p.outline.procedure = p.procedure from rfl] at hmemory
      rw [← hmemory]
      exact .done hE
    · rw [if_neg hkind] at hat₁ ⊢
      have hhandler := hdirect.handler? b (FlowGraph.mem_blocks_of_block? hblock)
      obtain ⟨t, ht, c₂, m, hfollow, hleads₁, hat₂⟩ := Outline.edge_meets (s := s₁) hcond hreal
        hdirect.localsArray ((hwrites b hb).edge hkind) hhandler hat₁
      rw [show p.procedure.follow R b.edge s₁.memory = .on t m from hfollow]
      refine ⟨_, hleads.step_of hleads₁, ?_⟩
      have hblockAt : p.AtBlock r code state c₂ t { s₁ with memory := m } :=
        ⟨⟨hat₂, hs₁⟩, (hmade.target hb ht).1⟩
      exact .on hblockAt

end Plan

end StackCode
