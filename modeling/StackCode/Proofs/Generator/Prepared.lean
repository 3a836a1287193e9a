import StackCode.Proofs.Entry.Prologue
import StackCode.Proofs.Generator.Entry

/-!
# The prologue of a generator

A generator begins as any other procedure does, and that is where every invocation of it begins.  Between
the prologue and the dispatch there are only notes, for the slot that the state is read into.  So an
invocation gets to a resume label with its variables prepared, unless the caller has done that.  Main
statement: `Plan.Entered.prepares`.
-/

namespace StackCode

/-- Takes no part in the variables: it is called for a debugger or for a script. -/
def Intrinsic.isIdle : Intrinsic → Bool
  | .debugAssertNotNull | .onInclude | .indirectLocal => true
  | _ => false

namespace Instr

/-- What the prologue does besides giving the variables their first values. -/
def isIdle : Instr → Bool
  | .nop | .constStr _ | .loadLocal _ | .storeTemp _ | .loadContext | .sequencePoint _
  | .hiddenSequencePoint => true
  | .call (.intrinsic i) _ _ => i.isIdle
  | i => i.isNote

theorem isJump_of_isIdle {i : Instr} (h : i.isIdle = true) : i.isJump = false := by
  cases i <;> first | rfl | cases h

theorem usesState_of_isIdle {i : Instr} (h : i.isIdle = true) : i.usesState = false := by
  cases i <;> first | rfl | cases h

theorem isIdle_of_isNote {i : Instr} (h : i.isNote = true) : i.isIdle = true := by
  cases i <;> first | rfl | cases h

theorem isIdle_of_isStop {i : Instr} (h : i.isStop = true) : i.isIdle = true := by
  cases i <;> first | rfl | cases h

end Instr

/-! ## What stands in front of the dispatch -/

namespace Procedure

theorem isIdle_registrationCode (p : Procedure) : ∀ i ∈ p.registrationCode, i.isIdle = true := by
  unfold registrationCode
  split
  · intro i hi
    simp only [Fragment.callWithName, Fragment.callIntrinsic, Fragment.code_emit_bind,
      Fragment.code_emit, List.mem_cons, List.not_mem_nil, or_false] at hi
    rcases hi with rfl | rfl | rfl <;> rfl
  · nofun

theorem isIdle_viewsCode (p : Procedure) (o : Options) : ∀ i ∈ p.viewsCode o, i.isIdle = true := by
  unfold viewsCode
  cases p.localsArray with
  | none => nofun
  | some array =>
    intro i hi
    obtain ⟨view, -, hi⟩ := List.mem_flatMap.1 hi
    simp only [viewCode, List.mem_cons, List.not_mem_nil, or_false] at hi
    rcases hi with rfl | rfl | rfl | rfl | rfl <;> rfl

end Procedure

namespace Plan

variable {c : Plan} {code pre post ns : List Instr} {slot : TempSlot}

/-- Besides giving the variables their first values, the prologue does nothing to them. -/
theorem idle_or_mem_initLocals {i : Instr} (h : i ∈ c.prologueCode) :
    i.isIdle = true ∨ i ∈ c.procedure.initLocals.code := by
  unfold prologueCode openingCode at h
  rw [Procedure.setup_eq] at h
  simp only [List.mem_append] at h
  rcases h with hcheck | (hregister | hinit) | hviews | hbrace
  · rcases mem_checkCode hcheck with rfl | rfl | rfl <;> exact .inl rfl
  · exact .inl (c.procedure.isIdle_registrationCode i hregister)
  · exact .inr hinit
  · exact .inl (c.procedure.isIdle_viewsCode c.options i hviews)
  · exact .inl (Instr.isIdle_of_isStop (c.braceCode_isStop i hbrace))

theorem mem_prologueCode_of_initLocals {i : Instr} (h : i ∈ c.procedure.initLocals.code) :
    i ∈ c.prologueCode := by
  unfold prologueCode
  rw [Procedure.setup_eq]
  simp [h]

theorem usesState_prologueCode (c : Plan) : ∀ i ∈ c.prologueCode, i.usesState = false := by
  intro i hi
  rcases idle_or_mem_initLocals hi with hidle | hinit
  · exact Instr.usesState_of_isIdle hidle
  · exact Instr.usesState_of_isPlain (c.procedure.isPlain_initLocals i hinit)

/-- Control gets from the prologue of a generator to the dispatch past notes alone. -/
theorem Opened.exists_body_eq {labels : LabelTable} {final : Frame} {body : List Instr} {g : Flow}
    {first : Block} {others : List Block} {ds : List Directive}
    (h : c.Opened labels final code g first others ds body) (hgen : c.procedure.isGenerator = true) :
    ∃ ns rest, body = ns ++ .loadState :: rest ∧ ∀ i ∈ ns, i.isNote = true := by
  have hgives := h.gives
  rw [inner_eq, hgen] at hgives
  obtain ⟨_, _, _, _, hinner, -, rfl⟩ := Draft.gives_bind_iff.1 hgives
  obtain ⟨_, _, _, _, hdispatch, -, rfl⟩ := Draft.gives_bind_iff.1 hinner
  obtain ⟨slot, notes, hnotes, rfl, -⟩ := dispatch_gives hdispatch
  obtain ⟨ns, rfl, hns⟩ := exists_notes hnotes
  have ha := h.assembles
  simp only [List.append_assoc] at ha
  obtain ⟨f, front, back, hfront, hback, rfl⟩ := Assembles.append_iff.1 ha
  have hpasses : ∀ i ∈ ns, i.passes = true := fun i hi => Instr.passes_of_isNote (hns i hi)
  obtain ⟨hfront_eq, hlive, -⟩ := Assembles.of_passes hpasses rfl hfront
  obtain ⟨_, _, rest, hload, -, rfl⟩ := Assembles.cons_iff.1 hback
  obtain ⟨rfl, -⟩ := Flow.step_live hlive hload
  exact ⟨ns, rest, by rw [hfront_eq, List.singleton_append], hns⟩

/-- The dispatch is where the state is read first. -/
theorem Entered.pre_eq (h : c.Entered code pre slot post) {front back : List Instr}
    (hcode : code = front ++ .loadState :: back) (hfront : ∀ i ∈ front, i.usesState = false) :
    pre = front := by
  have hsplit {is rest : List Instr} (his : ∀ i ∈ is, i.usesState = false) :
      (is ++ .loadState :: rest).takeWhile (fun i => !i.usesState) = is := by
    rw [List.takeWhile_append_of_pos fun i hi => by rw [his i hi]; rfl,
      List.takeWhile_cons_of_neg (by simp [Instr.usesState]), List.append_nil]
  have hpre : code.takeWhile (fun i => !i.usesState) = pre := by
    rw [h.code_eq]
    exact hsplit h.usesState
  rw [← hpre, hcode, hsplit hfront]

/-- In front of the dispatch stands the prologue, which could be written, and behind it notes. -/
structure Front (c : Plan) (pre ns : List Instr) : Prop where
  pre_eq : pre = c.prologueCode ++ ns
  notes : ∀ i ∈ ns, i.isNote = true
  setup : c.procedure.setup.result = .ok ()

theorem Lowered.exists_front {labels : LabelTable} {ds : List Directive} {final : Frame} {g : Flow}
    (h : c.Lowered labels ds final code g) (hmade : c.Made) (hgen : c.procedure.isGenerator = true)
    (hentered : c.Entered code pre slot post) : ∃ ns, c.Front pre ns := by
  obtain ⟨first, others, hopens⟩ := hmade.opens
  obtain ⟨ds', body, hopened⟩ := h.opened hopens
  obtain ⟨ns, rest, rfl, hns⟩ := hopened.exists_body_eq hgen
  have hcode : code = (c.prologueCode ++ ns) ++ .loadState :: rest := by
    rw [hopened.code_eq, prologueCode]
    simp only [List.append_assoc]
  have hquiet : ∀ i ∈ c.prologueCode ++ ns, i.usesState = false :=
    List.forall_mem_append.2 ⟨c.usesState_prologueCode, fun i hi =>
      Instr.usesState_of_isIdle (Instr.isIdle_of_isNote (hns i hi))⟩
  exact ⟨ns, hentered.pre_eq hcode hquiet, hns, hopened.setup⟩

theorem Front.idle_or_mem (h : c.Front pre ns) {i : Instr} (hi : i ∈ pre) :
    i.isIdle = true ∨ i ∈ c.procedure.initLocals.code := by
  rw [h.pre_eq] at hi
  rcases List.mem_append.1 hi with hi | hi
  · exact idle_or_mem_initLocals hi
  · exact .inl (Instr.isIdle_of_isNote (h.notes i hi))

/-! ## An invocation prepares the variables -/

/-- An invocation of a suspended generator gets to where it stopped with its variables prepared. -/
theorem Entered.prepares (h : c.Entered code pre slot post) (hmade : c.Made)
    (hgen : c.procedure.isGenerator = true) (hplaced : (placedIn code).Nodup) (hfront : c.Front pre ns)
    (hinit : c.procedure.localsInitialized = false) {V W : Type} {R : Runtime V W}
    {arrays : W → V → Option (V → Option V)} (hR : R.KeepsArrays arrays) {index : Int} {l : Label}
    (hpoint : (index, l) ∈ c.resume.points) {q : Nat} (hq : code[q]? = some (.markLabel l))
    {s : Kept V W} (hstate : R.toInt s.state = index) :
    ∃ temps s', Run.after (R.step code) (.on R.enter s) (pre.length + 6) =
        .on { R.enter with pc := q, temps } s' ∧
      c.procedure.Prepared R arrays s.memory s'.memory := by
  obtain ⟨t, m, hthrough, hprepared⟩ :=
    c.exists_through_prologueCode hR hinit hfront.setup R.enter.temps s.memory
  have hall := hthrough.append (Runtime.through_notes hfront.notes t ([], m))
  rw [← hfront.pre_eq] at hall
  have hfirst := hall code _ R.enter s h.code_eq rfl rfl rfl
  simp only [Runtime.enter, Nat.zero_add] at hfirst
  obtain ⟨-, temps, hjump⟩ := h.dispatch_steps (R := R) t { s with memory := m }
  rw [show Kept.state _ = s.state from rfl, hstate, lookup_points hmade hgen hpoint, Option.getD_some,
    Runtime.goTo_eq hplaced hq] at hjump
  refine ⟨temps, { memory := m, state := R.literal (.int GeneratorState.running.toInt) }, ?_, hprepared⟩
  rw [Run.after_add, Runtime.enter, hfirst, hjump]

end Plan

end StackCode
