import StackCode.Proofs.Debugging.Assembled
import StackCode.Proofs.Plan.Lowered

/-!
# How the code of a procedure opens

The code of a procedure begins with the check of the context, the setup, the debugger's views and a
place to stop at the opening brace.  Control gets through all of it with an empty stack, so it stands in
the code as it is drafted, and what is behind is assembled as from the beginning.  Main statement:
`Plan.Lowered.opened`.
-/

namespace StackCode

/-- The setup leaves the stack as it was. -/
theorem Procedure.setup_carries (p : Procedure) (exact : Prop) :
    p.setup.Carries exact 0 fun _ => 0 := by
  unfold setup
  cases p.kind with
  | function | method => exact initLocals_carries
  | scriptMain script =>
    exact (Fragment.callWithName_carries (n := 0) rfl script).bind fun _ _ => initLocals_carries

namespace Plan

variable (c : Plan) {labels : LabelTable}

/-- The code in front of the setup. -/
def checkCode : List Instr :=
  (if c.options.sequencePoints then [.hiddenSequencePoint] else []) ++
    c.procedure.contextCheckCode c.options

/-- The code of a place to stop at the opening brace. -/
def braceCode : List Instr :=
  match c.procedure.bodySpan with
  | some span =>
    if c.options.debug && span.isValid then
      (if c.options.sequencePoints then [.sequencePoint span.head] else []) ++ [.nop]
    else []
  | none => []

/-- The code between the setup and the dispatch of a generator. -/
def openingCode : List Instr := c.procedure.viewsCode c.options ++ c.braceCode

/-- Everything in front of the label of the start, in a procedure that is no generator; in a generator,
everything in front of the dispatch. -/
def prologueCode : List Instr := c.checkCode ++ (c.procedure.setup.code ++ c.openingCode)

theorem checked_gives (frame : Frame) : c.checked.Gives frame (c.checkCode.map .instr) frame () := by
  unfold checked contextCheck checkCode Procedure.contextCheckCode
  cases c.options.sequencePoints <;> cases c.options.debug && c.procedure.isStatic <;> rfl

theorem openingBrace_gives (frame : Frame) :
    c.openingBrace.Gives frame (c.braceCode.map .instr) frame () := by
  unfold openingBrace sequencePoint braceCode
  cases c.procedure.bodySpan with
  | none => rfl
  | some span =>
    simp only
    cases c.options.debug && span.isValid <;> cases c.options.sequencePoints <;> rfl

theorem opening_gives : c.opening.Gives { labels } (c.openingCode.map .instr)
    (({ labels } : Frame).behind (c.procedure.views c.options)) () := by
  unfold openingCode
  rw [List.map_append]
  exact Draft.gives_bind_iff.2 ⟨(), _, _, _, c.debugLocals_apply labels, c.openingBrace_gives _, rfl⟩

variable {c}

/-! ## What it consists of -/

theorem mem_checkCode {i : Instr} (h : i ∈ c.checkCode) :
    i = .hiddenSequencePoint ∨ i = .loadContext ∨ i = .callIntrinsic .debugAssertNotNull := by
  unfold checkCode Procedure.contextCheckCode at h
  rcases List.mem_append.1 h with h | h
  · split at h
    · exact .inl (List.mem_singleton.1 h)
    · cases h
  · split at h
    · exact .inr ((List.mem_cons.1 h).imp_right List.mem_singleton.1)
    · cases h

theorem isPlain_checkCode (c : Plan) : ∀ i ∈ c.checkCode, i.isPlain = true := by
  intro i hi
  rcases mem_checkCode hi with rfl | rfl | rfl <;> rfl

theorem braceCode_isStop (c : Plan) : ∀ i ∈ c.braceCode, i.isStop = true := by
  unfold braceCode
  split
  · split
    · refine List.forall_mem_append.2 ⟨?_, List.forall_mem_singleton.2 rfl⟩
      split
      · exact List.forall_mem_singleton.2 rfl
      · exact List.forall_mem_nil _
    · exact List.forall_mem_nil _
  · exact List.forall_mem_nil _

theorem isPlain_braceCode (c : Plan) : ∀ i ∈ c.braceCode, i.isPlain = true := fun i hi =>
  Instr.isPlain_of_isStop (c.braceCode_isStop i hi)

/-! ## What it comes to -/

/-- Control gets through the code in front of the setup. -/
theorem checkCode_assembles {f : Flow} (hf : f.isLive = true) :
    Assembles f (c.checkCode.map .instr) c.checkCode f := by
  unfold checkCode
  rw [List.map_append]
  refine Assembles.append ?_ (c.procedure.contextCheck_assembles c.options hf)
  split
  · exact Assembles.of_depthThrough (List.forall_mem_singleton.2 rfl) hf rfl
  · exact .nil f

theorem braceCode_assembles {f : Flow} (hf : f.isLive = true) :
    Assembles f (c.braceCode.map .instr) c.braceCode f :=
  Assembles.of_depthThrough (fun i hi => Instr.passes_of_isPlain (c.isPlain_braceCode i hi)) hf
    (Instr.depthThrough_of_isStop c.braceCode_isStop f.depth)

theorem openingCode_assembles {f : Flow} (hf : f.isLive = true) :
    Assembles f (c.openingCode.map .instr) c.openingCode f := by
  unfold openingCode
  rw [List.map_append]
  exact (c.procedure.views_assemble c.options hf).append (braceCode_assembles hf)

theorem setup_assembles {f : Flow} (hf : f.isLive = true) (h : c.procedure.setup.result = .ok ()) :
    Assembles f (c.procedure.setup.code.map .instr) c.procedure.setup.code f := by
  obtain ⟨after, hthrough, hafter⟩ := (c.procedure.setup_carries True).lands trivial f.depth
  rw [hafter () h] at hthrough
  exact Assembles.of_depthThrough
    (fun i hi => Instr.passes_of_isPlain (c.procedure.isWork_setup.isPlain i hi)) hf hthrough

/-- The code begins with what is done once per invocation, in front of the first block; the rest of it,
`body`, is what is drafted then, with the slots of the views taken. -/
structure Opened (c : Plan) (labels : LabelTable) (final : Frame) (code : List Instr) (g : Flow)
    (first : Block) (others : List Block) (ds : List Directive) (body : List Instr) : Prop where
  code_eq : code = c.checkCode ++ (c.procedure.setup.code ++ (c.openingCode ++ body))
  setup : c.procedure.setup.result = .ok ()
  gives : (c.inner first others >>= fun _ => releaseDebugLocals).Gives
    (({ labels } : Frame).behind (c.procedure.views c.options)) ds final ()
  assembles : Assembles { labels := final.labels } ds body g

theorem Lowered.opened {first : Block} {others : List Block} {ds : List Directive} {final : Frame}
    {code : List Instr} {g : Flow} (h : c.Lowered labels ds final code g)
    (hopens : c.Opens first others) :
    ∃ ds' body, c.Opened labels final code g first others ds' body := by
  have hgives := h.gives
  rw [draft_eq hopens] at hgives
  obtain ⟨_, _, _, _, hcheck, h₁, rfl⟩ := Draft.gives_bind_iff.1 hgives
  obtain ⟨_, _, hsetup, h₂, rfl⟩ := Draft.gives_ofFragment_bind_iff.1 h₁
  obtain ⟨_, _, _, ds', hopening, hinner, rfl⟩ := Draft.gives_bind_iff.1 h₂
  -- each part is drafted in one way
  obtain ⟨rfl, rfl, -⟩ := Drafted.mk.inj ((c.checked_gives { labels }).symm.trans hcheck)
  obtain ⟨rfl, rfl, -⟩ := Drafted.mk.inj (c.opening_gives.symm.trans hopening)
  -- and leaves the flow as it was
  obtain ⟨_, _, _, ha₁, hrest₁, rfl⟩ := Assembles.append_iff.1 h.assembles
  obtain ⟨rfl, rfl⟩ := ha₁.unique (checkCode_assembles rfl)
  obtain ⟨_, _, _, ha₂, hrest₂, rfl⟩ := Assembles.append_iff.1 hrest₁
  obtain ⟨rfl, rfl⟩ := ha₂.unique (setup_assembles rfl hsetup)
  obtain ⟨_, _, body, ha₃, hbody, rfl⟩ := Assembles.append_iff.1 hrest₂
  obtain ⟨rfl, rfl⟩ := ha₃.unique (openingCode_assembles rfl)
  exact ⟨ds', body, rfl, hsetup, hinner, hbody⟩

end Plan

end StackCode
