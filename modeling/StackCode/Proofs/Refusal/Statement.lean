import StackCode.Proofs.Outline.Realizes
import StackCode.Proofs.Refusal.Keeps

/-!
# Statements keep the account

Whatever a statement is, its draft keeps the labels and the slots in order, leaves an empty stack, and
is refused only for what it gives reason for.  Main statement: `Plan.statements_meet`.
-/

namespace StackCode

/-- Bringing a returned value into the form in which it is kept. -/
theorem Outline.keep_carries {exact : Prop} (o : Outline) (ty : Ty) :
    (o.keep ty).Carries exact ty.width fun _ => o.stages.toNat := by
  unfold keep stages
  cases o.procedure.isGenerator with
  | true =>
    rw [if_pos rfl]
    split
    · next hvoid => exact .pure (by rw [Ty.isVoid_iff.1 hvoid]; rfl)
    · exact (Fragment.convert_carries ty .value).bind fun _ _ =>
        Fragment.callIntrinsic_carries (n := 0) .setGeneratorReturn
  | false =>
    rw [if_neg Bool.false_ne_true]
    split
    · next hreturn =>
      rw [hreturn]
      split
      · next hvoid => exact .pure (by rw [Ty.isVoid_iff.1 hvoid]; rfl)
      · next hvoid =>
        rw [Ty.width_of_ne_void fun h => hvoid (Ty.isVoid_iff.2 h)]
        exact .emit (m := 0) rfl
    · next hreturn =>
      have hwidth := Ty.width_of_ne_void fun h => hreturn (Ty.isVoid_iff.2 h)
      rw [eq_false_of_ne_true hreturn]
      split
      · next hvoid =>
        rw [Ty.isVoid_iff.1 hvoid]
        change (Fragment.pushDefault o.procedure.returnType).Carries exact 0 fun _ => 1
        rw [← hwidth]
        exact Fragment.pushDefault_carries _
      · change (Fragment.convert ty o.procedure.returnType).Carries exact ty.width fun _ => 1
        rw [← hwidth]
        exact Fragment.convert_carries ty _

namespace Outline

variable {exact : Prop} {o : Outline}

theorem returned_carries (h : exact → o.procedure.VoidFree) (value : Option Expr) :
    (o.returned value).Carries exact 0 Ty.width := by
  cases value with
  | some e => exact Procedure.evaluate_carries h e
  | none => exact .pure rfl

theorem staticInit_carries (h : exact → o.procedure.VoidFree) (target : LocalId) (init : Expr) :
    (o.staticInit target init).Carries exact 0 fun _ => 0 :=
  (Procedure.loadVar_carries h target).bind fun _ _ =>
    ((Procedure.value_carries h init .value .staticInitializer).above 1).bind fun _ _ =>
      Fragment.callIntrinsic_carries (n := 0) .staticInitialize

end Outline

namespace Plan

variable {c : Plan} {todo : List Label} {R : Account} {v : Bool} {d : Nat}

theorem sequencePoint_meets (span : Option Span) :
    (c.sequencePoint span).Meets c.Permits (c.At R v d) fun _ => c.At R v d := by
  unfold sequencePoint
  split
  · split
    · exact step_meets (.sequencePoint _) d rfl rfl
    · exact .pure fun _ _ => id
  · exact .pure fun _ _ => id

/-! ## Return statements -/

theorem returnSlot?_meets (hgen : c.procedure.isGenerator = false) :
    (Draft.returnSlot? c.procedure.returnType).Meets c.Permits
      (c.At (c.Books todo Frame.Tidy) v d) fun slot =>
        c.At (fun frame labels staged => c.Books todo Frame.Tidy frame labels staged ∧
          frame.returnSlot = slot ∧ slot.isSome = c.outline.stages) v d := by
  have hstages : c.outline.stages = !c.procedure.returnType.isVoid := by
    simp only [Outline.stages, outline, hgen, Bool.not_false, Bool.true_and]
  refine .of_gives fun frame => ?_
  cases hslot : frame.returnSlot with
  | some slot =>
    refine ⟨[], frame, some slot, Draft.gives_returnSlot?_iff.2 ?_, fun _ => rfl, .refl _,
      fun f hp => ⟨⟨hp.1, hslot, (hp.1.1.fits.slot slot hslot).symm⟩, hp.2⟩⟩
    rw [hslot]
    exact ⟨rfl, rfl, rfl⟩
  | none =>
    cases hvoid : c.procedure.returnType.isVoid with
    | true =>
      refine ⟨[], frame, none, Draft.gives_returnSlot?_iff.2 ?_, fun _ => rfl, .refl _,
        fun f hp => ⟨⟨hp.1, hslot, ?_⟩, hp.2⟩⟩
      · rw [hslot]
        simp only [hvoid, ↓reduceIte]
        trivial
      · rw [hstages, hvoid]
        rfl
    | false =>
      refine ⟨_, { frame with
          temps := (frame.temps.acquire c.procedure.returnType).2.2
          returnSlot := some (frame.temps.acquire c.procedure.returnType).1 }, some _,
        Draft.gives_returnSlot?_iff.2 (by
          rw [hslot]
          simp only [hvoid, Bool.false_eq_true, ↓reduceIte]
          trivial), fun f => f.through_allocation _ _ _, .refl _,
        fun f hp => ⟨⟨⟨hp.1.1.congr rfl rfl ?_, hp.1.2.returning hslot _⟩, rfl, ?_⟩, hp.2⟩⟩
      · refine ⟨hp.1.1.fits.size, fun _ _ => ?_, fun l hl => ⟨(hp.1.1.fits.label l hl).1, fun _ => ⟨_, rfl⟩⟩⟩
        rw [hstages, hvoid]
        rfl
      · rw [hstages, hvoid]
        rfl

theorem stageReturn_meets (hgen : c.procedure.isGenerator = false) (ty : Ty) :
    (Draft.stageReturn c.procedure.returnType ty).Meets c.Permits
      (c.At (c.Books todo Frame.Tidy) v ty.width) fun _ => c.At (c.Books todo Frame.Tidy) false 0 := by
  have hstages : c.outline.stages = !c.procedure.returnType.isVoid := by
    simp only [Outline.stages, outline, hgen, Bool.not_false, Bool.true_and]
  unfold Draft.stageReturn
  refine (returnSlot?_meets hgen).bind fun slot => ?_
  cases slot with
  | none =>
    have hrest (v' : Bool) : (Draft.returnLabel >>= fun l => Draft.emit (.branch l)).Meets c.Permits
        (c.At (fun frame labels staged => c.Books todo Frame.Tidy frame labels staged ∧
          frame.returnSlot = none ∧ (none : Option TempSlot).isSome = c.outline.stages) v' 0) fun _ =>
            c.At (c.Books todo Frame.Tidy) false 0 :=
      returnBranch_meets.strengthen fun frame f h => ⟨⟨h.1.1, fun hs => by
        have := h.1.2.2
        rw [hs] at this
        cases this⟩, h.2⟩
    simp only
    split
    · next hvoid =>
      rw [Ty.isVoid_iff.1 hvoid]
      exact hrest v
    · next hvoid =>
      rw [Ty.width_of_ne_void fun h => hvoid (Ty.isVoid_iff.2 h)]
      exact Draft.Meets.seq (step_meets .pop 0 rfl rfl) (hrest v)
  | some slot =>
    -- where control gets to, the value is stored; elsewhere nothing is branched to
    have hrest : (Draft.directive .stageReturn >>= fun _ => Draft.emit (.storeTemp slot) >>= fun _ =>
        Draft.returnLabel >>= fun l => Draft.emit (.branch l)).Meets c.Permits
        (c.At (fun frame labels staged => c.Books todo Frame.Tidy frame labels staged ∧
          frame.returnSlot = some slot ∧ (some slot).isSome = c.outline.stages) v
            c.procedure.returnType.width) fun _ => c.At (c.Books todo Frame.Tidy) false 0 := by
      have hstore (v' : Bool) : (Draft.emit (.storeTemp slot)).Meets c.Permits
          (c.At (fun frame labels staged => c.Staged todo v' frame labels staged ∧
            c.outline.stages = true) v' c.procedure.returnType.width) fun _ =>
              c.At (c.Staged todo v') v' 0 := by
        refine (step_meets_of (m := 0) (fun frame labels staged h => ?_) rfl rfl).weaken
          fun _ frame f h => h.mono (fun _ _ _ h => h.1) id
        refine Ty.width_of_ne_void fun hvoid => ?_
        rw [hstages, hvoid] at h
        cases h.2
      refine .split (fun _ f => f.isLive = true) ?_ ?_
      · refine Draft.Meets.seq (stageReturn_meets_of_live (S := fun frame labels staged =>
          c.Staged todo v frame labels staged ∧ c.outline.stages = true) fun frame labels staged h => ?_)
          ((hstore v).seq returnBranch_meets)
        exact ⟨⟨⟨h.1.1.stage, h.1.2⟩, fun _ => ⟨⟨slot, h.2.1⟩, fun _ => rfl⟩⟩, h.2.2.symm⟩
      · refine Draft.Meets.seq stageReturn_meets_of_dead (Draft.Meets.seq ((hstore false).strengthen
          fun frame f h => h.mono (fun _ _ _ h => ?_) id) returnBranch_meets)
        exact ⟨⟨h.1, fun _ => ⟨⟨slot, h.2.1⟩, fun h => by cases h⟩⟩, h.2.2.symm⟩
    simp only [Draft.liftM_eq]
    split
    · next hvoid =>
      rw [Ty.isVoid_iff.1 hvoid]
      exact (sure_meets (Fragment.isPlain_pushDefault _)
        (Fragment.pushDefault_carries _)).seq hrest
    · exact (sure_meets (Fragment.isPlain_convert _ _) (Fragment.convert_carries _ _)).seq hrest

theorem returnValue_meets (value : Option Expr)
    (hfinds : c.Steady → v = true → c.Finds (.ret value)) :
    (c.returnValue value).Meets c.Permits (c.At (c.Books todo Frame.Tidy) v 0) fun _ =>
      c.At (c.Books todo Frame.Tidy) false 0 := by
  have hreturned : c.returnValue value = (Draft.ofFragment (c.outline.returned value) >>= fun ty =>
      if c.procedure.isGenerator then Draft.finishGenerator ty
      else Draft.stageReturn c.procedure.returnType ty) := by
    cases value <;> rfl
  rw [hreturned]
  refine (fragment_meets (c.outline.isPlain_returned value)
    (Outline.returned_carries nofun value) hfinds).bind fun ty => ?_
  cases hgen : c.procedure.isGenerator with
  | false => exact stageReturn_meets hgen ty
  | true =>
    have hstages : c.outline.stages = false := by
      simp only [Outline.stages, outline, hgen, Bool.not_true, Bool.false_and]
    have hkeep : (Draft.ofFragment (c.outline.keep ty)).Meets c.Permits
        (c.At (c.Books todo Frame.Tidy) v ty.width) fun _ => c.At (c.Books todo Frame.Tidy) v 0 := by
      have := sure_meets (c := c) (R := c.Books todo Frame.Tidy) (v := v)
        (c.outline.isPlain_keep ty) (c.outline.keep_carries ty)
      rwa [hstages] at this
    rw [if_pos rfl, finishGenerator_eq hgen]
    refine hkeep.seq (returnBranch_meets.strengthen fun frame f h => ⟨⟨h.1, fun hs => ?_⟩, h.2⟩)
    rw [hstages] at hs
    cases hs

/-! ## The other statements -/

theorem bindStatic_meets (decl : StaticDecl)
    (hfinds : c.Steady → v = true → c.Finds (.bindStatic decl)) :
    (c.bindStatic decl).Meets c.Permits (c.At (c.Books todo Frame.Tidy) v 0) fun _ =>
      c.At (c.Books todo Frame.Tidy) v 0 := by
  unfold bindStatic
  simp only [Draft.liftM_eq]
  refine (sure_meets (c.procedure.isPlain_bindHolder _ _)
    (Procedure.bindHolder_carries _ _)).seq ?_
  cases hinit : decl.init with
  | none => exact .pure fun _ _ => id
  | some init =>
    have hload {R : Account} : (Draft.ofFragment (c.procedure.loadVar decl.target)).Meets c.Permits
        (c.At R v 0) fun _ => c.At R v 1 :=
      fragment_meets (c.procedure.isPlain_loadVar _) (Procedure.loadVar_carries nofun _)
        fun hsteady hv => (hfinds hsteady hv init hinit).1
    have hinitialize {R : Account} : (Draft.ofFragment (c.outline.staticInit decl.target init)).Meets
        c.Permits (c.At R v 0) fun _ => c.At R v 0 :=
      fragment_meets (c.outline.isPlain_staticInit _ _) (Outline.staticInit_carries nofun _ _)
        fun hsteady hv => (hfinds hsteady hv init hinit).2
    refine freshLabel_meets.bind fun done => hload.seq ?_
    refine (sure_meets (Fragment.isPlain_callIntrinsic _)
      (Fragment.callIntrinsic_carries (n := 0) .staticIsInitialized)).seq ?_
    -- the label is branched to only where control gets to
    refine Draft.Meets.seq (Q := c.At (fun frame labels staged =>
      c.Books (done :: todo) Frame.Tidy frame labels staged ∧
        (labels.isReferenced done = true → v = true)) v 0) ?_ ?_
    · have hbranch := branch_meets (done :: todo) (c := c) (v := v) (i := .branchIf true done)
        (R := c.Unused done (c.Books (done :: todo) Frame.Tidy))
        (S := fun frame labels staged => c.Books (done :: todo) Frame.Tidy frame labels staged ∧
          (labels.isReferenced done = true → v = true)) rfl rfl
        fun frame labels staged h => ⟨h.1.1, ⟨h.1, fun href => ?_⟩, fun hv =>
          ⟨List.forall_mem_singleton.2 ⟨.inr (.inl List.mem_cons_self), fun hret => ?_, fun hexit => ?_⟩,
            fun labels' hkeeps => ⟨⟨hkeeps, h.1.2⟩, fun _ => hv⟩⟩⟩
      · rw [show (Instr.branchIf true done).endsFlow = false from rfl, Bool.not_false,
          Bool.and_true] at hbranch
        exact hbranch
      · rw [h.2.1] at href
        cases href
      · exact absurd hret (h.1.1.owed done List.mem_cons_self).2.2
      · exact absurd hexit (ne_label?_of_bound_le h.2.2 _)
    · have hgroup {x : Draft Unit} : (Draft.ofFragment (c.procedure.loadVar decl.target) >>= fun _ =>
          Draft.ofFragment (c.procedure.value init .value .staticInitializer) >>= fun _ =>
            Draft.ofFragment (Fragment.callIntrinsic .staticInitialize) >>= fun _ => x) =
          (Draft.ofFragment (c.outline.staticInit decl.target init) >>= fun _ => x) := by
        unfold Outline.staticInit
        simp only [Draft.ofFragment_bind, bind_assoc]
        rfl
      rw [hgroup]
      exact hinitialize.seq (place_meets .forward (fun _ => ⟨nofun, rfl⟩) id fun frame labels staged h =>
        ⟨h.1, fun hreach => hreach.elim (fun hne => absurd rfl hne) h.2⟩)

/-- Where a generator is resumed behind a statement. -/
def owedBy (c : Plan) (s : Stmt) : List Label := (s.yieldIndex?.bind c.resume.label?).toList

/-- Every suspension point of the code has a resume label. -/
theorem mem_indices (hmade : c.Made) {b : Block} (hb : b ∈ c.blocks) {s : Stmt}
    (hs : s ∈ b.statements) {index : Int} (hindex : s.yieldIndex? = some index) :
    index ∈ c.procedure.graph.yields.map (·.index) :=
  List.mem_map.2 ⟨⟨index, b.id⟩,
    mem_yields_iff.2 ⟨b, FlowGraph.mem_blocks_of_block? (hmade.block? b hb), rfl, s, hs, hindex⟩, rfl⟩

theorem exists_resume_label (hmade : c.Made) (hgen : c.procedure.isGenerator = true) {b : Block}
    (hb : b ∈ c.blocks) {s : Stmt} (hs : s ∈ b.statements) {index : Int}
    (hindex : s.yieldIndex? = some index) : ∃ l, c.resume.label? index = some l := by
  obtain ⟨i, hi, rfl⟩ := List.mem_map.1 ((hmade.dense hgen).mem_iff.1 (mem_indices hmade hb hs hindex))
  rw [List.mem_range] at hi
  refine ⟨⟨c.labelled.length + i⟩, hmade.resume_label?_eq_some_iff.2 ⟨by omega, ?_, ?_⟩⟩
  · rw [hmade.resume, List.length_map, List.length_range, if_pos hgen]
    omega
  · simp only
    omega

theorem setState_meets (s : GeneratorState) :
    (Draft.setState s).Meets c.Permits (c.At R v 0) fun _ => c.At R v 0 :=
  Draft.Meets.seq (step_meets (.constInt _) 0 rfl rfl) (step_meets .storeState 0 rfl rfl)

theorem suspend_meets {index : Int} {l : Label} (hl : c.resume.label? index = some l) :
    (Draft.suspend c.resume index).Meets c.Permits (c.At (c.Books (l :: todo) Frame.Tidy) v 0)
      fun _ => c.At (c.Books todo Frame.Tidy) true 0 := by
  unfold Draft.suspend
  rw [hl]
  refine (setState_meets _).seq (Draft.Meets.seq (ret_meets false) ?_)
  exact place_meets .forward nofun nofun fun frame labels staged h => ⟨h, fun _ => rfl⟩

theorem yieldValue_meets (hmade : c.Made) {b : Block} (hb : b ∈ c.blocks) {y : Yield}
    (hs : .yield y ∈ b.statements) (hfinds : c.Steady → v = true → c.Finds (.yield y)) :
    (c.yieldValue y).Meets c.Permits (c.At (c.Books (c.owedBy (.yield y) ++ todo) Frame.Tidy) v 0)
      fun _ => c.At (c.Books todo Frame.Tidy) true 0 := by
  unfold yieldValue
  cases hgen : c.procedure.isGenerator with
  | false => exact .fail ⟨rfl, rfl, fun _ => rfl, nofun⟩
  | true =>
    rw [Bool.not_true, if_neg Bool.false_ne_true]
    split
    · next hneg =>
      have hpos := pos_of_mem_yields hmade hgen (mem_indices hmade hb hs rfl)
      omega
    · obtain ⟨l, hl⟩ := exists_resume_label hmade hgen hb hs rfl
      have howed : c.owedBy (.yield y) = [l] := by
        unfold owedBy
        rw [show (Stmt.yield y).yieldIndex? = some y.index from rfl, Option.bind_some, hl]
        rfl
      rw [howed]
      exact Draft.Meets.seq (fragment_meets (c.procedure.isPlain_publish y)
        (Procedure.publish_carries nofun y) hfinds) (suspend_meets hl)

theorem throwValue_meets (e : Expr) (hfinds : c.Steady → v = true → c.Finds (.throw e)) :
    (Draft.ofFragment (c.procedure.throwValue e)).Meets c.Permits (c.At R v 0) fun _ =>
      c.At R false 0 := by
  unfold Procedure.throwValue
  rw [Draft.ofFragment_bind]
  refine Draft.Meets.seq (fragment_meets (c.procedure.isPlain_value _ _ _)
    (Procedure.value_carries nofun e .value .thrown) hfinds) ?_
  have hthrow := emit_meets (c := c) (R := R) (S := R) (v := v) (d := 1) (m := 0) (i := .throw)
    (fun _ _ _ _ => rfl) nofun nofun fun frame labels staged hR _ =>
      ⟨hR, fun _ => ⟨nofun, fun labels' h => by cases h; exact hR⟩⟩
  rw [show (v && !Instr.throw.endsFlow) = false from Bool.and_false v] at hthrow
  exact hthrow

theorem statementBody_meets (hmade : c.Made) {b : Block} (hb : b ∈ c.blocks) {s : Stmt}
    (hs : s ∈ b.statements) (hfinds : c.Steady → v = true → c.Finds s) :
    (c.statementBody s).Meets c.Permits (c.At (c.Books (c.owedBy s ++ todo) Frame.Tidy) v 0) fun _ =>
      c.At (c.Books todo Frame.Tidy) (s.liveAfter v) 0 := by
  have hname {i : Intrinsic} (harity : i.arity = 2) (hreturns : i.returns = false) (name : Name) :
      (Draft.ofFragment (Fragment.callWithName i name)).Meets c.Permits
        (c.At (c.Books todo Frame.Tidy) v 0) fun _ => c.At (c.Books todo Frame.Tidy) v 0 := by
    have hcall := sure_meets (c := c) (R := c.Books todo Frame.Tidy) (v := v)
      (Fragment.isPlain_callWithName i name) (Fragment.callWithName_carries (n := 0) harity name)
    rwa [hreturns] at hcall
  unfold statementBody
  cases s with
  | empty span =>
    simp only
    split
    · exact step_meets .nop 0 rfl rfl
    · exact .pure fun _ _ => id
  | expr e =>
    exact fragment_meets (c.procedure.isPlain_discardValue e)
      (Procedure.discardValue_carries nofun e) hfinds
  | ret value => exact returnValue_meets value hfinds
  | throw e => exact throwValue_meets e hfinds
  | declareFunction name => exact hname rfl rfl name
  | declareType name => exact hname rfl rfl name
  | bindGlobal id => exact sure_meets (c.procedure.isPlain_bindGlobal id) (Procedure.bindGlobal_carries id)
  | defineConst name e =>
    exact fragment_meets (c.procedure.isPlain_defineConst name e)
      (Procedure.defineConst_carries nofun name e) hfinds
  | bindStatic decl => exact bindStatic_meets decl hfinds
  | unset target =>
    exact fragment_meets (c.procedure.isPlain_unset target)
      (Procedure.unset_carries nofun target) hfinds
  | yield y => exact yieldValue_meets hmade hb hs hfinds
  | declare => exact .pure fun _ _ => id

theorem statement_meets (hmade : c.Made) {b : Block} (hb : b ∈ c.blocks) {s : Stmt}
    (hs : s ∈ b.statements) (hfinds : c.Steady → v = true → c.Finds s) :
    (c.statement s).Meets c.Permits (c.At (c.Books (c.owedBy s ++ todo) Frame.Tidy) v 0) fun _ =>
      c.At (c.Books todo Frame.Tidy) (s.liveAfter v) 0 :=
  (sequencePoint_meets s.span).seq ((statementBody_meets hmade hb hs hfinds).seq endStatement_meets)

/-- Statements one after the other. -/
theorem statements_meet (hmade : c.Made) {b : Block} (hb : b ∈ c.blocks) {ss : List Stmt}
    (hss : ∀ s ∈ ss, s ∈ b.statements) (hfinds : c.Steady → c.FindsThrough v ss) :
    (ss.forM c.statement).Meets c.Permits
      (c.At (c.Books (ss.flatMap c.owedBy ++ todo) Frame.Tidy) v 0) fun _ =>
        c.At (c.Books todo Frame.Tidy) (Stmt.liveThrough v ss) 0 := by
  induction ss generalizing v with
  | nil => exact .pure fun _ _ => id
  | cons s ss ih =>
    obtain ⟨hs, hss⟩ := List.forall_mem_cons.1 hss
    rw [List.flatMap_cons, List.append_assoc]
    exact (statement_meets hmade hb hs fun hsteady => (hfinds hsteady).1).seq
      (ih hss fun hsteady => (hfinds hsteady).2)

end Plan

end StackCode
