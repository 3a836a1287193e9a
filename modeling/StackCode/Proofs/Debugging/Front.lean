import StackCode.Proofs.Debugging.Blocks

/-!
# The code in front

What runs once per invocation comes to the check of the context, the setup, which is there whatever is
asked for, and the views of the variables, places to stop apart.  The views take the slots from the
first on, and what follows is drafted behind them (`Plan.opening_apply`).
-/

namespace StackCode

namespace Procedure

/-- What every invocation does first: a script is registered, and the variables get their first
values. -/
def setup (p : Procedure) : Fragment Unit := do
  match p.kind with
  | .scriptMain script => Fragment.callWithName .onInclude script
  | _ => pure ()
  p.initLocals

theorem isWork_setup (p : Procedure) : p.setup.IsWork := by
  unfold setup
  cases p.kind with
  | function | method => exact p.isWork_initLocals
  | scriptMain script =>
    exact (Fragment.isWork_callWithName _ _).bind fun _ => p.isWork_initLocals

/-- The variables that a debugger gets views of. -/
def viewed (p : Procedure) (o : Options) : List Local :=
  match p.localsArray with
  | some array =>
    if o.debug && o.sequencePoints then
      p.locals.toList.filter fun v => v.isNamed && v.id ≠ array
    else []
  | none => []

end Procedure

/-- The views of variables, in the slots from the given one on. -/
def viewsOf (first : Nat) (vars : List Local) : List (Name × TempSlot) :=
  (vars.zipIdx first).map fun (v, i) => (v.name, ⟨i⟩)

/-- The code of a view. -/
def viewCode (array : LocalId) (view : Name × TempSlot) : List Instr :=
  [.allocTemp view.2 .value, .loadLocal array, .constStr view.1, .callIntrinsic .indirectLocal,
    .storeTemp view.2]

namespace Procedure

/-- The views of a debugger: the variables by name, each in the next slot. -/
def views (p : Procedure) (o : Options) : List (Name × TempSlot) := viewsOf 0 (p.viewed o)

/-- The code that fills the views. -/
def viewsCode (p : Procedure) (o : Options) : List Instr :=
  match p.localsArray with
  | some array => (p.views o).flatMap (viewCode array)
  | none => []

theorem isStop_viewsCode (p : Procedure) (o : Options) :
    ∀ i ∈ p.viewsCode o, i.isStop = false := by
  intro i hi
  unfold viewsCode at hi
  cases harray : p.localsArray with
  | none =>
    rw [harray] at hi
    cases hi
  | some array =>
    rw [harray] at hi
    obtain ⟨view, -, hi⟩ := List.mem_flatMap.1 hi
    simp only [viewCode, List.mem_cons, List.not_mem_nil, or_false] at hi
    rcases hi with rfl | rfl | rfl | rfl | rfl <;> rfl

/-- The code that checks the context of a static procedure. -/
def contextCheckCode (p : Procedure) (o : Options) : List Instr :=
  if o.debug && p.isStatic then [.loadContext, .callIntrinsic .debugAssertNotNull] else []

end Procedure

namespace Plan

variable (c : Plan) (labels : LabelTable)

/-- Everything in front of the setup. -/
def checked : Draft Unit := do
  if c.options.sequencePoints then Draft.emit .hiddenSequencePoint
  c.contextCheck

/-- Everything between the setup and the dispatch of a generator. -/
def opening : Draft Unit := do
  c.debugLocals
  c.openingBrace

theorem checked_apply (frame : Frame) :
    ∃ ds, c.checked frame = { code := ds, frame, result := .ok () } ∧
      (ds.filter fun d => !d.isStop) =
        (c.procedure.contextCheckCode c.options).map .instr := by
  unfold checked contextCheck Procedure.contextCheckCode
  cases c.options.sequencePoints <;> cases c.options.debug && c.procedure.isStatic <;>
    exact ⟨_, rfl, rfl⟩

/-- A view takes the slot behind those that are there already. -/
theorem debugLocal_apply (array : LocalId) (v : Local) (views : List (Name × TempSlot)) :
    Draft.debugLocal array v (({ labels } : Frame).behind views) =
      { code := (viewCode array (v.name, ⟨views.length⟩)).map .instr
        frame := ({ labels } : Frame).behind (views ++ [(v.name, ⟨views.length⟩)])
        result := .ok () } := by
  have hslot : (⟨0⟩ : TempSlot).shift views.length = ⟨views.length⟩ :=
    congrArg TempSlot.mk (Nat.zero_add _)
  have hacquire : (({ labels } : Frame).behind views).temps.acquire .value =
      (⟨views.length⟩, true, (({} : TempPool).acquire .value).2.2.behind views.length) := by
    rw [← hslot]
    exact TempPool.acquire_behind views.length {} .value
  have hgives : (Draft.acquireTemp .value).Gives (({ labels } : Frame).behind views) _ _ _ :=
    Draft.gives_acquireTemp_iff.2 ⟨rfl, rfl, rfl⟩
  rw [hacquire] at hgives
  unfold Draft.Gives at hgives
  have hgrown : (({} : TempPool).acquire .value).2.2.behind views.length =
      ({} : TempPool).behind (views.length + 1) := by
    refine TempPool.ext (SlotTable.ext ?_ ?_ rfl)
    · exact (Array.replicate_succ).symm
    · exact (Array.replicate_succ).symm
  unfold Draft.debugLocal
  rw [Draft.bind_of_ok (a := ⟨views.length⟩) (by rw [hgives]), hgives, hgrown]
  unfold Frame.behind
  rw [List.length_append, List.length_singleton]
  rfl

theorem forM_debugLocal_apply (array : LocalId) (vars : List Local) (views : List (Name × TempSlot)) :
    vars.forM (Draft.debugLocal array) (({ labels } : Frame).behind views) =
      { code := ((viewsOf views.length vars).flatMap (viewCode array)).map .instr
        frame := ({ labels } : Frame).behind (views ++ viewsOf views.length vars)
        result := .ok () } := by
  induction vars generalizing views with
  | nil =>
    rw [show viewsOf views.length [] = [] from rfl, List.append_nil]
    rfl
  | cons v vars ih =>
    have hrest := ih (views ++ [(v.name, ⟨views.length⟩)])
    rw [List.length_append, List.length_singleton, List.append_assoc] at hrest
    change (Draft.debugLocal array v >>= fun _ => vars.forM (Draft.debugLocal array)) _ = _
    have hfirst := debugLocal_apply labels array v views
    rw [Draft.bind_of_ok (a := ()) (by rw [hfirst]), hfirst, hrest]
    rw [show viewsOf views.length (v :: vars) =
      (v.name, ⟨views.length⟩) :: viewsOf (views.length + 1) vars from rfl, List.flatMap_cons,
      List.map_append]
    rfl

theorem debugLocals_apply :
    c.debugLocals { labels } =
      { code := (c.procedure.viewsCode c.options).map .instr
        frame := ({ labels } : Frame).behind (c.procedure.views c.options)
        result := .ok () } := by
  have hnone : ({ labels } : Frame).behind [] = { labels } := by
    simp [Frame.behind, TempPool.behind, SlotTable.behind]
  unfold debugLocals Procedure.viewsCode Procedure.views Procedure.viewed
  cases c.procedure.localsArray with
  | none => exact congrArg (Drafted.mk [] · (.ok ())) hnone.symm
  | some array =>
    simp only
    split
    · have hviews := forM_debugLocal_apply labels array
        (c.procedure.locals.toList.filter fun v => v.isNamed && v.id ≠ array) []
      rwa [hnone] at hviews
    · exact congrArg (Drafted.mk [] · (.ok ())) hnone.symm

/-- The opening brace is a place to stop, and nothing else. -/
theorem openingBrace_apply (frame : Frame) :
    ∃ ds, c.openingBrace frame = { code := ds, frame, result := .ok () } ∧
      (ds.filter fun d => !d.isStop) = [] := by
  unfold openingBrace sequencePoint
  cases c.procedure.bodySpan with
  | none => exact ⟨_, rfl, rfl⟩
  | some span =>
    simp only
    cases c.options.debug && span.isValid <;> cases c.options.sequencePoints <;> exact ⟨_, rfl, rfl⟩

theorem opening_apply :
    ∃ ds, c.opening { labels } =
        { code := ds
          frame := ({ labels } : Frame).behind (c.procedure.views c.options)
          result := .ok () } ∧
      (ds.filter fun d => !d.isStop) = (c.procedure.viewsCode c.options).map .instr := by
  obtain ⟨ds, hbrace, hstops⟩ :=
    c.openingBrace_apply (({ labels } : Frame).behind (c.procedure.views c.options))
  have hviews := c.debugLocals_apply labels
  refine ⟨(c.procedure.viewsCode c.options).map .instr ++ ds, ?_, ?_⟩
  · unfold opening
    rw [Draft.bind_of_ok (a := ()) (by rw [hviews]), hviews, hbrace]
  · rw [List.filter_append, hstops, List.append_nil]
    exact Directive.filter_instrs (c.procedure.isStop_viewsCode c.options)

end Plan

end StackCode
