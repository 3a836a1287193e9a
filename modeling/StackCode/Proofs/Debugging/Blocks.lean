import StackCode.Proofs.Debugging.Mirrors
import StackCode.Proofs.Outline.Block

/-!
# Blocks behind the views

Statement by statement and block by block, the draft of a plan with places to stop mirrors the draft
without them.  Main statement: `Plan.blocksFrom_mirrors`.
-/

namespace StackCode

/-- The same choices, with nothing for a debugger. -/
def Options.plain (o : Options) : Options := { o with debug := false, sequencePoints := false }

/-- The same plan, with nothing for a debugger. -/
def Plan.plain (c : Plan) : Plan := { c with options := c.options.plain }

variable {views : List (Name × TempSlot)}

namespace Draft

/-! ## Returning and suspending -/

theorem mirrors_returnBranch : MirrorsItself views (returnLabel >>= fun l => emit (.branch l)) :=
  mirrors_returnLabel.bind fun _ => mirrors_emit rfl

theorem mirrors_stageReturn (returnType ty : Ty) : MirrorsItself views (stageReturn returnType ty) := by
  refine (mirrors_returnSlot? returnType).bind fun slot => ?_
  cases slot with
  | none =>
    simp only [Option.map_none]
    split
    · exact mirrors_returnBranch
    · exact (mirrors_emit rfl).bind fun _ => mirrors_returnBranch
  | some slot =>
    have hstore : Mirrors views id
        (directive .stageReturn >>= fun _ => emit (.storeTemp slot) >>= fun _ =>
          returnLabel >>= fun l => emit (.branch l))
        (directive .stageReturn >>= fun _ => emit (.storeTemp (slot.shift views.length)) >>= fun _ =>
          returnLabel >>= fun l => emit (.branch l)) :=
      (mirrors_directive rfl).bind fun _ => (mirrors_emit (i := .storeTemp slot) rfl).bind fun _ =>
        mirrors_returnBranch
    simp only [Option.map_some]
    split
    · exact (mirrors_ofFragment (Fragment.isWork_pushDefault _)).bind fun _ => hstore
    · exact (mirrors_ofFragment (Fragment.isWork_convert _ _)).bind fun _ => hstore

theorem mirrors_finishGenerator (ty : Ty) : MirrorsItself views (finishGenerator ty) := by
  unfold finishGenerator
  split
  · exact mirrors_returnBranch
  · exact (mirrors_ofFragment (Fragment.isWork_convert _ _)).bind fun _ =>
      (mirrors_ofFragment (Fragment.isWork_callIntrinsic _)).bind fun _ => mirrors_returnBranch

theorem mirrors_setState (s : GeneratorState) : MirrorsItself views (setState s) :=
  (mirrors_emit rfl).bind fun _ => mirrors_emit rfl

theorem mirrors_exitGenerator : MirrorsItself views exitGenerator := by
  have hclose : MirrorsItself views (setState .closed >>= fun _ => emit (.ret false)) :=
    (mirrors_setState _).bind fun _ => mirrors_emit rfl
  refine mirrors_getFrame_bind fun frame => ?_
  have hlabel : (frame.behind views).returnLabel = frame.returnLabel := rfl
  rw [hlabel]
  cases frame.returnLabel with
  | none => exact hclose frame
  | some l => exact Mirrors.bind (mirrors_mark l .forward) (fun _ => hclose) frame

theorem mirrors_exitOrdinary (returnType : Ty) : MirrorsItself views (exitOrdinary returnType) := by
  have hdefault : MirrorsItself views (ofFragment (Fragment.pushDefault returnType)) :=
    mirrors_ofFragment (Fragment.isWork_pushDefault returnType)
  have hreturn : MirrorsItself views (ofFragment (Fragment.pushDefault returnType) >>= fun _ =>
      emit (.ret !returnType.isVoid)) := hdefault.bind fun _ => mirrors_emit rfl
  refine mirrors_getFrame_bind fun frame => ?_
  have hlabel : (frame.behind views).returnLabel = frame.returnLabel := rfl
  have hslot : (frame.behind views).returnSlot = frame.returnSlot.map (TempSlot.shift views.length) :=
    rfl
  rw [hlabel, hslot]
  cases frame.returnSlot with
  | none =>
    cases frame.returnLabel with
    | none => exact hreturn frame
    | some l => exact Mirrors.bind (mirrors_mark l .forward) (fun _ => hreturn) frame
  | some slot =>
    refine Mirrors.bind hdefault (fun _ => (mirrors_emit rfl).bind fun _ => ?_) frame
    refine mirrors_returnLabel.bind fun l => ?_
    exact (mirrors_directive (d := .returnPoint l slot) rfl).bind fun _ => mirrors_releaseTemp slot

theorem mirrors_dispatch (resume : ResumePlan) : MirrorsItself views (dispatch resume) := by
  refine (mirrors_namedLabel _).bind fun start => (mirrors_acquireTemp _).bind fun slot => ?_
  refine (mirrors_emit rfl).bind fun _ => (mirrors_emit rfl).bind fun _ => ?_
  refine (mirrors_setState _).bind fun _ => (mirrors_emit rfl).bind fun _ => ?_
  exact (mirrors_emit rfl).bind fun _ => (mirrors_releaseTemp slot).bind fun _ => mirrors_mark _ _

theorem mirrors_suspend (resume : ResumePlan) (index : Int) :
    MirrorsItself views (suspend resume index) := by
  unfold suspend
  cases resume.label? index with
  | none => exact mirrors_fail id _
  | some l =>
    exact (mirrors_setState _).bind fun _ => (mirrors_emit rfl).bind fun _ => mirrors_mark _ _

theorem mirrors_ofExcept {α : Type} (x : Except LowerError α) :
    MirrorsItself views (ofFragment (Fragment.ofExcept x)) :=
  mirrors_ofFragment (Fragment.isWork_ofExcept x)

end Draft

namespace Plan

open Draft

variable (c : Plan)

/-! ## Statements -/

theorem sequencePoint_mirrors (span : Option Span) :
    Mirrors views id (c.plain.sequencePoint span) (c.sequencePoint span) := by
  cases span with
  | none => exact mirrors_pure id ()
  | some span =>
    change Mirrors views id (pure ()) (if c.options.sequencePoints then _ else _)
    split
    · exact mirrors_stop rfl
    · exact mirrors_pure id ()

theorem returnValue_mirrors (value : Option Expr) : MirrorsItself views (c.returnValue value) := by
  have hend (ty : Ty) : MirrorsItself views (if c.procedure.isGenerator then finishGenerator ty
      else stageReturn c.procedure.returnType ty) := by
    split
    · exact mirrors_finishGenerator ty
    · exact mirrors_stageReturn _ ty
  cases value with
  | none => exact hend .void
  | some e => exact (mirrors_ofFragment (c.procedure.isWork_evaluate e)).bind hend

theorem bindStatic_mirrors (d : StaticDecl) : MirrorsItself views (c.bindStatic d) := by
  refine (mirrors_ofFragment (c.procedure.isWork_bindHolder d.target d.key)).bind fun _ => ?_
  cases d.init with
  | none => exact mirrors_pure id ()
  | some init =>
    have hload : MirrorsItself views (ofFragment (c.procedure.loadVar d.target)) :=
      mirrors_ofFragment (c.procedure.isWork_loadVar d.target)
    refine mirrors_freshLabel.bind fun done => hload.bind fun _ => ?_
    refine (mirrors_ofFragment (Fragment.isWork_callIntrinsic _)).bind fun _ => ?_
    refine (mirrors_emit rfl).bind fun _ => hload.bind fun _ => ?_
    refine (mirrors_ofFragment (c.procedure.isWork_value init _ _)).bind fun _ => ?_
    exact (mirrors_ofFragment (Fragment.isWork_callIntrinsic _)).bind fun _ => mirrors_mark _ _

theorem yieldValue_mirrors (y : Yield) : MirrorsItself views (c.yieldValue y) := by
  unfold yieldValue
  split
  · exact mirrors_fail id _
  · split
    · exact mirrors_fail id _
    · exact (mirrors_ofFragment (c.procedure.isWork_publish y)).bind fun _ => mirrors_suspend _ _

theorem throwValue_mirrors (e : Expr) :
    MirrorsItself views (ofFragment (c.procedure.throwValue e)) := by
  unfold Procedure.throwValue
  rw [ofFragment_bind]
  exact (mirrors_ofFragment (c.procedure.isWork_value e _ _)).bind fun _ =>
    mirrors_emit (i := .throw) rfl

theorem statementBody_mirrors (s : Stmt) :
    Mirrors views id (c.plain.statementBody s) (c.statementBody s) := by
  cases s with
  | empty span =>
    change Mirrors views id (if span.isSome && false then _ else _) _
    rw [Bool.and_false, if_neg Bool.false_ne_true]
    change Mirrors views id (pure ()) (if span.isSome && c.options.sequencePoints then _ else _)
    split
    · exact mirrors_stop rfl
    · exact mirrors_pure id ()
  | expr e => exact mirrors_ofFragment (c.procedure.isWork_discardValue e)
  | ret value => exact c.returnValue_mirrors value
  | throw e => exact c.throwValue_mirrors e
  | declareFunction name => exact mirrors_ofFragment (Fragment.isWork_callWithName _ _)
  | declareType name => exact mirrors_ofFragment (Fragment.isWork_callWithName _ _)
  | bindGlobal id => exact mirrors_ofFragment (c.procedure.isWork_bindGlobal id)
  | defineConst name e => exact mirrors_ofFragment (c.procedure.isWork_defineConst name e)
  | bindStatic d => exact c.bindStatic_mirrors d
  | unset target => exact mirrors_ofFragment (c.procedure.isWork_unset target)
  | yield y => exact c.yieldValue_mirrors y
  | declare => exact mirrors_pure id ()

theorem statement_mirrors (s : Stmt) : Mirrors views id (c.plain.statement s) (c.statement s) :=
  (c.sequencePoint_mirrors s.span).bind fun _ =>
    (c.statementBody_mirrors s).bind fun _ => mirrors_directive rfl

theorem statements_mirror (ss : List Stmt) :
    Mirrors views id (ss.forM c.plain.statement) (ss.forM c.statement) := by
  induction ss with
  | nil => exact mirrors_pure id ()
  | cons s ss ih => exact (c.statement_mirrors s).bind fun _ => ih

/-! ## Blocks -/

theorem storePending_mirrors (id : LocalId) : MirrorsItself views (c.procedure.storePending id) := by
  refine (mirrors_ofExcept (c.procedure.place id)).bind fun place => ?_
  cases place with
  | slot id => exact mirrors_emit rfl
  | entry array key ty =>
    refine (mirrors_acquireTemp .value).bind fun slot => ?_
    refine (mirrors_emit (i := .storeTemp slot) rfl).bind fun _ => ?_
    refine (mirrors_ofFragment (Place.isWork_pushKey _)).bind fun _ => ?_
    refine (mirrors_emit (i := .loadTemp slot) rfl).bind fun _ => ?_
    exact (mirrors_ofFragment (Fragment.isWork_callIntrinsic _)).bind fun _ => mirrors_releaseTemp slot

theorem enterBlock_mirrors (b : Block) : MirrorsItself views (c.enterBlock b) := by
  unfold enterBlock
  split
  · exact mirrors_pure id ()
  · split
    · next exception _ =>
      refine (mirrors_mark _ _).bind fun _ => ?_
      cases exception with
      | none => exact mirrors_emit rfl
      | some id => exact c.storePending_mirrors id
    · exact mirrors_mark _ _

theorem jump_mirrors (target : BlockId) (next : Option BlockId) :
    MirrorsItself views (c.jump target next) := by
  unfold jump
  split
  · exact mirrors_pure id ()
  · exact (mirrors_ofExcept (c.blockLabel target)).bind fun _ => mirrors_emit rfl

theorem edge_mirrors (b : Block) (next : Option BlockId) : MirrorsItself views (c.edge b next) := by
  unfold edge
  cases b.edge with
  | goto target => exact c.jump_mirrors target next
  | branch condition onTrue onFalse =>
    refine (mirrors_ofFragment (c.procedure.isWork_value condition _ _)).bind fun _ => ?_
    split
    · exact (mirrors_emit rfl).bind fun _ => c.jump_mirrors onTrue next
    · split
      · exact (mirrors_ofExcept (c.blockLabel onFalse)).bind fun _ => mirrors_emit rfl
      · refine (mirrors_ofExcept (c.blockLabel onTrue)).bind fun _ => ?_
        exact (mirrors_emit rfl).bind fun _ => c.jump_mirrors onFalse next
  | switch selector cases default =>
    refine (mirrors_ofFragment (c.procedure.isWork_value selector _ _)).bind fun _ => ?_
    refine (mirrors_ofExcept (c.jumpTable cases)).bind fun _ => ?_
    exact (mirrors_ofExcept (c.blockLabel default)).bind fun _ => mirrors_emit rfl
  | protect body handler exception =>
    refine (mirrors_ofExcept (c.blockLabel handler)).bind fun _ => ?_
    exact (mirrors_emit rfl).bind fun _ => c.jump_mirrors body next
  | leave target => exact (mirrors_ofExcept (c.blockLabel target)).bind fun _ => mirrors_emit rfl
  | none => exact mirrors_directive rfl

theorem blockEnd_mirrors (b : Block) (next : Option BlockId) :
    MirrorsItself views (c.blockEnd b next) := by
  unfold blockEnd
  split
  · split
    · exact mirrors_exitGenerator
    · exact mirrors_exitOrdinary _
  · exact c.edge_mirrors b next

/-- What follows the code that runs once per invocation. -/
theorem blockBody_mirrors (b : Block) (next : Option BlockId) :
    Mirrors views id
      (c.enterBlock b >>= fun _ => b.statements.forM c.plain.statement >>= fun _ => c.blockEnd b next)
      (c.enterBlock b >>= fun _ => b.statements.forM c.statement >>= fun _ => c.blockEnd b next) :=
  (c.enterBlock_mirrors b).bind fun _ =>
    (c.statements_mirror b.statements).bind fun _ => c.blockEnd_mirrors b next

/-- Behind the start, the draft of the blocks mirrors that without anything for a debugger. -/
theorem blocksFrom_mirrors {bs : List Block} (hstart : ∀ b ∈ bs, b.kind ≠ .start) :
    Mirrors views id (c.plain.blocksFrom bs) (c.blocksFrom bs) := by
  induction bs with
  | nil => exact mirrors_pure id ()
  | cons b bs ih =>
    obtain ⟨hb, hbs⟩ := List.forall_mem_cons.1 hstart
    rw [blocksFrom, blocksFrom, block_eq, block_eq, if_neg hb, if_neg hb]
    exact (c.blockBody_mirrors b _).bind fun _ => ih hbs

end Plan

end StackCode
