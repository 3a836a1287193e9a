import StackCode.Proofs.Entry.FirstValues
import StackCode.Proofs.Entry.Opened
import StackCode.Proofs.Returns.Trails
import StackCode.Proofs.Storage.Apart

/-!
# The prologue

What stands in front of the first statement of the start block is executed once per invocation, from the
first instruction on, and leaves the variables as `Procedure.Prepared` says: the label of the start
stands behind it, so branches back to the start do not get there.  Main statement:
`Procedure.prologue_of_lowerInto`.
-/

namespace StackCode

variable {V W : Type} {R : Runtime V W} {arrays : W → V → Option (V → Option V)}

/-! ## What the prologue does -/

/-- An intrinsic that pushes or drops a value. -/
theorem Instr.exec_callIntrinsic (i : Intrinsic) (args : List V) (hargs : args.length = i.arity)
    (st : List V) (m : Memory V W) :
    (Instr.callIntrinsic i).exec R (args ++ st, m) =
      some ((if i.returns then [(m.ask R i args.reverse).1] else []) ++ st,
        m.tell R i args.reverse) := Instr.exec_call hargs st m

/-- The code of a view asks the run-time system and keeps the answer in a temporary. -/
theorem exists_through_viewCode (hR : R.KeepsArrays arrays) (array : LocalId) (view : Name × TempSlot)
    (t : TempSlot → V) (m : Memory V W) :
    ∃ t' m', R.Through (viewCode array view) t ([], m) t' ([], m') ∧ m.Spares arrays m' := by
  let args := [R.literal (.str view.1), m.locals array]
  have hload : R.Through [.loadLocal array, .constStr view.1] t ([], m) t (args, m) := by
    refine Runtime.through_of_execAll ?_ rfl t
    exact List.forall_mem_cons.2 ⟨rfl, List.forall_mem_singleton.2 rfl⟩
  have hcall : R.Through [Instr.callIntrinsic .indirectLocal] t (args, m) t
      ([(m.ask R .indirectLocal args.reverse).1], m.tell R .indirectLocal args.reverse) := by
    refine Runtime.through_of_execAll (List.forall_mem_singleton.2 rfl) ?_ t
    have hexec := Instr.exec_callIntrinsic (R := R) .indirectLocal args rfl [] m
    rw [List.append_nil] at hexec
    rw [Instr.execAll_cons, hexec]
    rfl
  have hstore := Runtime.through_storeTemp (R := R) view.2 t (m.ask R .indirectLocal args.reverse).1 []
    (m.tell R .indirectLocal args.reverse)
  have hnote : R.Through [.allocTemp view.2 .value] t ([], m) t ([], m) :=
    Runtime.through_note rfl t _
  exact ⟨_, _, hnote.append (hload.append (hcall.append hstore)), .tell hR (by simp) _ m⟩

theorem exists_through_views (hR : R.KeepsArrays arrays) (array : LocalId)
    (views : List (Name × TempSlot)) (t : TempSlot → V) (m : Memory V W) :
    ∃ t' m', R.Through (views.flatMap (viewCode array)) t ([], m) t' ([], m') ∧
      m.Spares arrays m' := by
  induction views generalizing t m with
  | nil => exact ⟨t, m, .nil t _, .refl m⟩
  | cons view views ih =>
    obtain ⟨t₁, m₁, hfirst, hspares⟩ := exists_through_viewCode hR array view t m
    obtain ⟨t', m', hrest, hspares'⟩ := ih t₁ m₁
    exact ⟨t', m', hfirst.append hrest, hspares.trans hspares'⟩

/-- What is there for a debugger to stop at does nothing. -/
theorem Runtime.through_stops {is : List Instr} (his : ∀ i ∈ is, i.isStop = true) (t : TempSlot → V)
    (s : List V × Memory V W) : R.Through is t s t s := by
  induction is with
  | nil => exact .nil t s
  | cons i is ih =>
    obtain ⟨hi, his⟩ := List.forall_mem_cons.1 his
    have hfirst : R.Through [i] t s t s := by
      refine Runtime.through_of_execAll (List.forall_mem_singleton.2 ?_) ?_ t
      · cases i <;> first | rfl | cases hi
      · cases i <;> first | rfl | cases hi
    exact hfirst.append (ih his)

namespace Plan

variable (c : Plan)

theorem exists_through_checkCode (hR : R.KeepsArrays arrays) (t : TempSlot → V) (m : Memory V W) :
    ∃ m', R.Through c.checkCode t ([], m) t ([], m') ∧ m.Spares arrays m' := by
  have hpoint : R.Through (if c.options.sequencePoints then [.hiddenSequencePoint] else []) t ([], m) t
      ([], m) := by
    refine Runtime.through_stops ?_ t _
    split
    · exact List.forall_mem_singleton.2 rfl
    · nofun
  have hcheck : ∃ m', R.Through (c.procedure.contextCheckCode c.options) t ([], m) t ([], m') ∧
      m.Spares arrays m' := by
    unfold Procedure.contextCheckCode
    split
    · refine ⟨m.tell R .debugAssertNotNull [R.context], Runtime.through_of_execAll ?_ ?_ t,
        .tell hR (by simp) _ m⟩
      · exact List.forall_mem_cons.2 ⟨rfl, List.forall_mem_singleton.2 rfl⟩
      · have hexec := Instr.exec_callIntrinsic (R := R) .debugAssertNotNull [R.context] rfl [] m
        rw [Instr.execAll_cons]
        exact congrArg (Option.bind · (Instr.execAll R [])) hexec
    · exact ⟨m, .nil t _, .refl m⟩
  obtain ⟨m', hthrough, hspares⟩ := hcheck
  exact ⟨m', hpoint.append hthrough, hspares⟩

theorem exists_through_openingCode (hR : R.KeepsArrays arrays) (t : TempSlot → V) (m : Memory V W) :
    ∃ t' m', R.Through c.openingCode t ([], m) t' ([], m') ∧ m.Spares arrays m' := by
  have hviews : ∃ t' m', R.Through (c.procedure.viewsCode c.options) t ([], m) t' ([], m') ∧
      m.Spares arrays m' := by
    unfold Procedure.viewsCode
    cases c.procedure.localsArray with
    | none => exact ⟨t, m, .nil t _, .refl m⟩
    | some array => exact exists_through_views hR array _ t m
  obtain ⟨t', m', hthrough, hspares⟩ := hviews
  have hbrace := Runtime.through_stops (R := R) c.braceCode_isStop t' ([], m')
  exact ⟨t', m', hthrough.append hbrace, hspares⟩

/-- The prologue prepares the variables. -/
theorem exists_through_prologueCode (hR : R.KeepsArrays arrays)
    (hinit : c.procedure.localsInitialized = false) (hok : c.procedure.setup.result = .ok ())
    (t : TempSlot → V) (m₀ : Memory V W) :
    ∃ t' m, R.Through c.prologueCode t ([], m₀) t' ([], m) ∧ c.procedure.Prepared R arrays m₀ m := by
  obtain ⟨m₁, hcheck, hspares₁⟩ := c.exists_through_checkCode hR t m₀
  obtain ⟨m₂, hsetup, hprepared⟩ := Procedure.exists_prepared hR hinit hok m₁
  obtain ⟨t', m, hopening, hspares⟩ := c.exists_through_openingCode hR t m₂
  have hthrough := Runtime.through_of_execAll c.procedure.isWork_setup.isPlain hsetup.runs t
  exact ⟨t', m, hcheck.append (hthrough.append hopening),
    (hprepared.after hspares₁).before hspares⟩

/-! ## Where the start begins -/

/-- What is drafted from the first statement of the start block on. -/
def fromStatements (first : Block) (others : List Block) : Draft Unit := do
  first.statements.forM c.statement
  c.blockEnd first (others.head?.map (·.id))
  c.blocksFrom others
  releaseDebugLocals

/-- The code begins with the prologue and the label of the start, if an edge leads there, and goes on with
what the statements of the start come to, its edge, and the other blocks. -/
structure Begins (c : Plan) (first : Block) (others : List Block)
    (code prologue label body : List Instr) : Prop where
  code_eq : code = prologue ++ (label ++ body)
  prologue_eq : prologue = c.prologueCode
  label_eq : label = ((c.label? first.id).map Instr.markLabel).toList
  body : ∃ frame ds final f g, (c.fromStatements first others).Gives frame ds final () ∧
    Assembles f ds body g ∧ f.isLive = true ∧ f.depth = 0

variable {c}

/-- Entering the start is placing its label, where there is one: it is no handler, since control gets to
it from the prologue. -/
theorem enterBlock_assembles {b : Block} {frame frame' : Frame} {ds rest : List Directive} {u : Unit}
    (h : (c.enterBlock b).Gives frame ds frame' u) {f g : Flow} {code : List Instr}
    (hlive : f.isLive = true) (hdepth : f.depth = 0) (ha : Assembles f (ds ++ rest) code g) :
    ∃ f' body, code = ((c.label? b.id).map Instr.markLabel).toList ++ body ∧
      Assembles f' rest body g ∧ f'.isLive = true ∧ f'.depth = 0 := by
  unfold enterBlock at h
  cases hlabel : c.label? b.id with
  | none =>
    rw [hlabel] at h
    obtain ⟨rfl, -⟩ := Draft.gives_pure_iff.1 h
    exact ⟨f, code, rfl, ha, hlive, hdepth⟩
  | some l =>
    rw [hlabel] at h
    cases hcaught : c.caught? b.id with
    | some exception =>
      rw [hcaught] at h
      obtain ⟨ds', -, rfl⟩ := Draft.gives_directive_bind_iff.1 h
      obtain ⟨instrs, f', code', hstep, -⟩ := Assembles.cons_iff.1 ha
      exact absurd rfl ((Flow.mark_eq_ok_iff.1 hstep).2.1 hlive).1
    | none =>
      rw [hcaught] at h
      obtain ⟨rfl, -⟩ := Draft.gives_mark_iff.1 h
      obtain ⟨instrs, f', code', hstep, hrest, rfl⟩ := Assembles.cons_iff.1 ha
      obtain ⟨rfl, -, labels, -, rfl⟩ := Flow.mark_eq_ok_iff.1 hstep
      refine ⟨_, code', rfl, hrest, ?_, ?_⟩
      · rw [hlive]
        rfl
      · split <;> rfl

theorem Opened.begins {labels : LabelTable} {final : Frame} {code body : List Instr} {g : Flow}
    {first : Block} {others : List Block} {ds : List Directive}
    (h : c.Opened labels final code g first others ds body)
    (hordinary : c.procedure.isGenerator = false) :
    ∃ label rest, c.Begins first others code c.prologueCode label rest := by
  have hgives := h.gives
  rw [inner_eq, hordinary, if_neg Bool.false_ne_true] at hgives
  have hassoc : (c.enterBlock first >>= fun _ => c.fromStatements first others).Gives
      (({ labels } : Frame).behind (c.procedure.views c.options)) ds final () := by
    unfold fromStatements
    simp only [bind_assoc, pure_bind] at hgives
    exact hgives
  obtain ⟨_, mid, ds₁, ds₂, hlabel, hrest, rfl⟩ := Draft.gives_bind_iff.1 hassoc
  obtain ⟨f, body', rfl, hbody, hlive, hdepth⟩ := enterBlock_assembles hlabel rfl rfl h.assembles
  refine ⟨_, body', ?_, rfl, rfl, mid, ds₂, final, f, g, hrest, hbody, hlive, hdepth⟩
  rw [h.code_eq, prologueCode]
  simp only [List.append_assoc]

/-! ## Control gets through it once -/

/-- Control passes all of the prologue. -/
theorem prologueCode_passes (c : Plan) : ∀ i ∈ c.prologueCode, i.passes = true := by
  refine List.forall_mem_append.2 ⟨fun i hi => Instr.passes_of_isPlain (c.isPlain_checkCode i hi),
    List.forall_mem_append.2 ⟨fun i hi => Instr.passes_of_isPlain (c.procedure.isWork_setup.isPlain i hi),
      List.forall_mem_append.2 ⟨c.procedure.viewsCode_passes c.options,
        fun i hi => Instr.passes_of_isPlain (c.isPlain_braceCode i hi)⟩⟩⟩

end Plan

namespace Runtime

variable {code is post : List Instr} {s₀ s : Kept V W} {c : Control V} {ps : List Nat}

/-- Where there is no label, only the beginning of a trail is at the first instruction. -/
theorem Trail.begun (h : Trail R code s₀ c s ps) (hpc : c.pc = 0)
    (hlabel : ∀ l, code[0]? ≠ some (.markLabel l)) : ps = [] := by
  rw [← hpc] at hlabel
  cases h with
  | enter => rfl
  | step trail hstep =>
    obtain ⟨i, -, hgoes⟩ := goes_of_step hstep
    cases hgoes with
    | next _ hnext => omega
    | jump _ _ hq => exact absurd hq (hlabel _)
    | «catch» hcaught =>
      obtain ⟨l, -, hq⟩ := hcaught.exists_label
      exact absurd hq (hlabel l)
  | raise trail v s₁ hraise =>
    obtain ⟨l, -, hq⟩ := (caught_of_raise hraise).exists_label
    exact absurd hq (hlabel l)

/-- A trail gets to code without labels that the code begins with only at its own beginning. -/
theorem Trail.eq_range (hcode : code = is ++ post) (his : ∀ i ∈ is, i.placed? = none)
    (hpc : c.pc < is.length) (h : Trail R code s₀ c s ps) : ps = List.range c.pc := by
  obtain ⟨c₁, s₁, front, hbegin, hzero, rfl, -⟩ :=
    h.straight (show code.drop 0 = is ++ post from hcode) his hpc (Nat.zero_add _).symm
  have hlabel (l : Label) : code[0]? ≠ some (.markLabel l) := by
    intro hl
    rw [hcode, List.getElem?_append_left (Nat.zero_lt_of_lt hpc)] at hl
    cases his _ (List.mem_of_getElem? hl)
  rw [hbegin.begun hzero hlabel, List.nil_append, List.range_eq_range']

/-- Until a trail has got through the code that it begins with, if control cannot leave that but at its
end, it is the run of the machine. -/
theorem Trail.eq_after (hcode : code = is ++ post)
    (his : ∀ i ∈ is, i.endsFlow = false ∧ i.targets = []) (hnew : is.length ∉ ps)
    (h : Trail R code s₀ c s ps) : c.pc ≤ is.length ∧ ps = List.range c.pc ∧ c.regions = [] ∧
      Run.after (R.step code) (.on R.enter s₀) c.pc = .on c s := by
  induction h with
  | enter => exact ⟨Nat.zero_le _, rfl, rfl, rfl⟩
  | @step c c' s s' ps trail hstep ih =>
    obtain ⟨hbefore, hhere⟩ := not_or.1 fun h => hnew (List.mem_append.2 h)
    obtain ⟨hle, rfl, hregions, hrun⟩ := ih hbefore
    have hlt : c.pc < is.length := Nat.lt_of_le_of_ne hle fun heq => hhere (by simp [heq])
    obtain ⟨i, hi, hgoes⟩ := goes_of_step hstep
    rw [hcode, List.getElem?_append_left hlt] at hi
    obtain ⟨hflow, htargets⟩ := his i (List.mem_of_getElem? hi)
    cases hgoes with
    | next _ hpc hopen _ =>
      have hnone : i.handler? = none := by
        cases i <;> first | rfl | cases htargets
      rw [hnone, hregions] at hopen
      refine ⟨by omega, by rw [hpc, List.range_succ], hopen, ?_⟩
      rw [hpc, Run.after_succ, hrun]
      exact hstep
    | jump _ hl =>
      rw [htargets] at hl
      cases hl
    | «catch» hcaught =>
      obtain ⟨l, hl, -⟩ := hcaught.exists_label
      rw [hregions] at hl
      cases hl
  | raise trail v s₁ hraise ih =>
    obtain ⟨-, -, hregions, -⟩ := ih fun h => hnew (List.mem_append_left _ h)
    obtain ⟨l, hl, -⟩ := (caught_of_raise hraise).exists_label
    rw [hregions] at hl
    cases hl

end Runtime

namespace Plan

variable {c : Plan} {first : Block} {others : List Block} {code prologue label body : List Instr}

/-- How the machine gets through the prologue and the label of the start, with what it leads to. -/
structure Enters (c : Plan) (R : Runtime V W) (arrays : W → V → Option (V → Option V))
    (code prologue label : List Instr) (s₀ : Kept V W) (ctl : Control V) (s : Kept V W) : Prop where
  after : Run.after (R.step code) (.on R.enter s₀) (prologue ++ label).length = .on ctl s
  pc : ctl.pc = (prologue ++ label).length
  stack : ctl.stack = []
  regions : ctl.regions = []
  prepared : c.procedure.Prepared R arrays s₀.memory s.memory

theorem Begins.exists_enters (h : c.Begins first others code prologue label body)
    (hR : R.KeepsArrays arrays) (hinit : c.procedure.localsInitialized = false)
    (hok : c.procedure.setup.result = .ok ()) (s₀ : Kept V W) :
    ∃ ctl s, c.Enters R arrays code prologue label s₀ ctl s := by
  obtain ⟨t', m, hthrough, hprepared⟩ :=
    c.exists_through_prologueCode hR hinit hok R.enter.temps s₀.memory
  have hlabel : R.Through label t' ([], m) t' ([], m) := by
    rw [h.label_eq]
    cases c.label? first.id with
    | none => exact .nil t' _
    | some l =>
      refine Runtime.through_of_step fun code ctl k hpc ht hst hm => ?_
      rw [Runtime.step_label hpc, ← ht, ← hst, ← hm]
      rfl
  rw [← h.prologue_eq] at hthrough
  have hcode : code.drop R.enter.pc = (prologue ++ label) ++ body := by
    rw [h.code_eq, List.append_assoc]
    rfl
  have hafter := (hthrough.append hlabel) code body R.enter s₀ hcode rfl rfl rfl
  exact ⟨_, _, hafter, Nat.zero_add _, rfl, rfl, hprepared⟩

/-- In front of the first statement, control does nothing but to go on. -/
theorem Begins.passes (h : c.Begins first others code prologue label body) :
    ∀ i ∈ prologue ++ label, i.endsFlow = false ∧ i.targets = [] := by
  refine List.forall_mem_append.2 ⟨fun i hi => ?_, fun i hi => ?_⟩
  · have hpasses := c.prologueCode_passes i (h.prologue_eq ▸ hi)
    exact ⟨Instr.endsFlow_of_passes hpasses, Instr.targets_of_passes hpasses⟩
  · rw [h.label_eq] at hi
    obtain ⟨l, -, rfl⟩ := Option.map_eq_some_iff.1 (Option.mem_toList.1 hi)
    exact ⟨rfl, rfl⟩

/-- In the prologue there is no label. -/
theorem Begins.placed? (h : c.Begins first others code prologue label body) :
    ∀ i ∈ prologue, i.placed? = none := by
  intro i hi
  have hpasses := c.prologueCode_passes i (h.prologue_eq ▸ hi)
  cases i <;> first | rfl | cases hpasses

end Plan

/-- The code of an ordinary procedure begins with the prologue and the label of the start block.  The
machine gets through both, to the first statement or edge of the start, with an empty stack and the
variables prepared: each that starts out with the default value of its type has it; the locals array is
a new one, and holds the values of the copied parameters and nothing else; no other variable has been
stored to.  Whatever is raised, control gets to the first statement for the first time in this way, and
it is in the prologue only on its way there. -/
theorem Procedure.prologue_of_lowerInto {p : Procedure} {options : Options}
    {strategy : LayoutStrategy} {out : Array Instr} {sum : Summary}
    (h : p.lowerInto options strategy #[] = (out, .ok sum)) (hordinary : p.isGenerator = false)
    (hinit : p.localsInitialized = false) {V W : Type} {R : Runtime V W}
    {arrays : W → V → Option (V → Option V)} (hR : R.KeepsArrays arrays) :
    ∃ c labels first others prologue label body,
      Plan.make p options strategy = .ok (c, labels) ∧ c.blocks = first :: others ∧
      first.kind = .start ∧ c.Begins first others out.toList prologue label body ∧
      ∀ s₀ : Kept V W, ∃ ctl s, c.Enters R arrays out.toList prologue label s₀ ctl s ∧
        (∀ ctl' s' ps, R.Trail out.toList s₀ ctl' s' ps →
          ctl'.pc = (prologue ++ label).length → (prologue ++ label).length ∉ ps →
            ctl' = ctl ∧ s' = s ∧ ps = List.range (prologue ++ label).length) ∧
        ∀ ctl' s' ps, R.Trail out.toList s₀ ctl' s' ps → ctl'.pc < prologue.length →
          ps = List.range ctl'.pc := by
  obtain ⟨c, labels, ds, final, g, hmake, hlowered, -⟩ := lowerInto_eq_ok_iff.1 h
  obtain ⟨-, -, rfl, -⟩ := Plan.make_eq_ok hmake
  obtain ⟨first, others, hopens⟩ := (Plan.made_of_make hmake).opens
  obtain ⟨ds', rest, hopened⟩ := hlowered.opened hopens
  obtain ⟨label, body, hbegins⟩ := hopened.begins hordinary
  refine ⟨c, labels, first, others, _, label, body, hmake, hopens.blocks, hopens.start, hbegins,
    fun s₀ => ?_⟩
  obtain ⟨ctl, s, henters⟩ := hbegins.exists_enters hR hinit hopened.setup s₀
  refine ⟨ctl, s, henters, fun ctl' s' ps trail hpc hnew => ?_, fun ctl' s' ps trail hpc => ?_⟩
  · have hcode : out.toList = (c.prologueCode ++ label) ++ body := by
      rw [hbegins.code_eq, List.append_assoc]
    obtain ⟨-, rfl, -, hafter⟩ := trail.eq_after hcode hbegins.passes hnew
    rw [hpc, henters.after] at hafter
    obtain ⟨rfl, rfl⟩ := Run.on.inj hafter
    exact ⟨rfl, rfl, by rw [hpc]⟩
  · exact trail.eq_range hbegins.code_eq hbegins.placed? hpc

/-- The machine gets into the start of `arrayed` with its variables prepared. -/
theorem arrayed_entered :
    arrayed.isGenerator = false ∧ arrayed.localsInitialized = false ∧
    ∃ prologue rest, arrayedCode.toList = prologue ++ rest ∧
      ∀ s₀ : Kept Item Tables, ∃ n ctl s, prologue.length ≤ n ∧
        Run.after (Runtime.tables.step arrayedCode.toList) (.on Runtime.tables.enter s₀) n = .on ctl s ∧
        ctl.stack = [] ∧ arrayed.Prepared Runtime.tables tableOf s₀.memory s.memory := by
  obtain ⟨c, labels, first, others, prologue, label, body, hmake, -, -, hbegins, henters⟩ :=
    Procedure.prologue_of_lowerInto lowerInto_arrayed rfl rfl Runtime.tables_keepsArrays
  obtain ⟨-, -, hprocedure, -⟩ := Plan.make_eq_ok hmake
  refine ⟨rfl, rfl, prologue, label ++ body, hbegins.code_eq, fun s₀ => ?_⟩
  obtain ⟨ctl, s, hs, -⟩ := henters s₀
  refine ⟨_, ctl, s, ?_, hs.after, hs.stack, hprocedure ▸ hs.prepared⟩
  rw [List.length_append]
  exact Nat.le_add_right _ _

end StackCode
