import StackCode.Proofs.Cut.Graph
import StackCode.Proofs.Refusal.Accepted
import StackCode.Proofs.Refusal.Steady

/-!
# Procedures cut short are accepted

The outlines of statements and edges do not depend on the graph.  So an ordinary procedure that is
accepted can be written when its blocks are cut short, its code finds the values that it takes, and
control gets to the same edges.  Main statement: `Plan.Lowered.exists_appendTo_cut`.
-/

namespace StackCode

/-! ## Outlines do not look at the graph -/

namespace Outline

/-- The same outline with another graph. -/
def withGraph (o : Outline) (g : FlowGraph) : Outline :=
  { o with procedure := o.procedure.withGraph g }

variable (o : Outline) (g : FlowGraph)

theorem returned_withGraph (value : Option Expr) :
    (o.withGraph g).returned value = o.returned value := by
  cases value with
  | none => rfl
  | some e => exact o.procedure.evaluate_withGraph g e

theorem staticInit_withGraph (target : LocalId) (init : Expr) :
    (o.withGraph g).staticInit target init = o.staticInit target init := by
  unfold staticInit
  rw [show (o.withGraph g).procedure.value init .value .staticInitializer =
    o.procedure.value init .value .staticInitializer from
      o.procedure.value_withGraph g init .value .staticInitializer]
  rfl

theorem statement_withGraph (s : Stmt) : (o.withGraph g).statement s = o.statement s := by
  have hbody : (o.withGraph g).statementBody s = o.statementBody s := by
    cases s with
    | empty | declareFunction | declareType | declare | bindGlobal => rfl
    | expr e => exact congrArg Fragment.ops (o.procedure.discardValue_withGraph g e)
    | ret value =>
      change Fragment.opsThen ((o.withGraph g).returned value) _ = _
      rw [returned_withGraph]
      rfl
    | throw e => exact congrArg Fragment.ops (o.procedure.throwValue_withGraph g e)
    | defineConst name e => exact congrArg Fragment.ops (o.procedure.defineConst_withGraph g name e)
    | bindStatic d =>
      change Outline.bindStatic _ d = Outline.bindStatic _ d
      unfold bindStatic
      simp only [staticInit_withGraph]
      rfl
    | unset target => exact congrArg Fragment.ops (o.procedure.unset_withGraph g target)
    | yield y =>
      change (Procedure.publish _ y).ops ++ _ ++ _ = (Procedure.publish _ y).ops ++ _ ++ _
      rw [show (o.withGraph g).procedure.publish y = o.procedure.publish y from
        o.procedure.publish_withGraph g y]
  unfold statement
  rw [hbody]
  rfl

theorem writes_withGraph (hgen : o.procedure.isGenerator = false) {s : Stmt} (h : o.Writes s) :
    (o.withGraph g).Writes s := by
  cases s with
  | empty | declareFunction | declareType | declare | bindGlobal => exact h
  | expr e => exact (congrArg Fragment.Succeeds (o.procedure.discardValue_withGraph g e)).mpr h
  | ret value =>
    change (((o.withGraph g).returned value) >>= _).Succeeds
    rw [returned_withGraph]
    exact h
  | throw e => exact (congrArg Fragment.Succeeds (o.procedure.throwValue_withGraph g e)).mpr h
  | defineConst name e =>
    exact (congrArg Fragment.Succeeds (o.procedure.defineConst_withGraph g name e)).mpr h
  | bindStatic d =>
    refine ⟨h.1, fun init hinit => ?_⟩
    rw [staticInit_withGraph]
    exact h.2 init hinit
  | unset target => exact (congrArg Fragment.Succeeds (o.procedure.unset_withGraph g target)).mpr h
  | yield y =>
    have hyes := h.1
    rw [hgen] at hyes
    cases hyes

theorem writesEdge_withGraph {e : Edge} (h : o.WritesEdge e) : (o.withGraph g).WritesEdge e := by
  cases e with
  | branch condition s t =>
    exact (congrArg Fragment.Succeeds (o.procedure.value_withGraph g condition _ _)).mpr h
  | switch selector cases default =>
    exact (congrArg Fragment.Succeeds (o.procedure.value_withGraph g selector _ _)).mpr h
  | goto | protect | leave | none => trivial

end Outline

/-! ## Where control gets -/

/-- Behind a statement that stops control gets no more, unless a generator is resumed there. -/
theorem Stmt.liveThrough_of_dead {ss : List Stmt} (h : ∀ s ∈ ss, s.yieldIndex? = none) :
    liveThrough false ss = false := by
  induction ss with
  | nil => rfl
  | cons s ss ih =>
    obtain ⟨hs, hss⟩ := List.forall_mem_cons.1 h
    have hdead : s.liveAfter false = false := by
      cases s <;> first | rfl | cases hs
    change liveThrough (s.liveAfter false) ss = false
    rw [hdead]
    exact ih hss

theorem Stmt.liveThrough_cut {live : Bool} {ss : List Stmt} (h : ∀ s ∈ ss, s.yieldIndex? = none) :
    liveThrough live (cut ss) = liveThrough live ss := by
  induction ss generalizing live with
  | nil => rfl
  | cons s ss ih =>
    obtain ⟨-, hss⟩ := List.forall_mem_cons.1 h
    unfold cut
    split
    · next hs =>
      have hdead : s.liveAfter live = false := by
        cases s <;> first | rfl | cases hs
      change s.liveAfter live = liveThrough (s.liveAfter live) ss
      rw [hdead, liveThrough_of_dead hss]
    · exact ih hss

namespace Plan

variable {c : Plan}

theorem caught?_cut (handler : BlockId) : c.cut.caught? handler = c.caught? handler := by
  unfold caught?
  rw [show c.cut.blocks = c.blocks.map Block.cut from rfl, ← List.map_reverse, List.findSome?_map]
  rfl

theorem outline_cut : c.cut.outline = c.outline.withGraph c.procedure.graph.cut := by
  unfold outline
  rw [funext (caught?_cut (c := c))]
  rfl

theorem exists_of_mem_cut {b : Block} (h : b ∈ c.cut.blocks) : ∃ b' ∈ c.blocks, b'.cut = b :=
  List.mem_map.1 h

section
variable (hgen : c.procedure.isGenerator = false)
include hgen

theorem Writes.cut (h : c.Writes) : c.cut.Writes where
  block b hb := by
    obtain ⟨b, hmem, rfl⟩ := exists_of_mem_cut hb
    rw [outline_cut]
    have hwrites := h.block b hmem
    exact ⟨hwrites.receive,
      fun s hs => c.outline.writes_withGraph _ hgen (hwrites.statements s (Stmt.mem_of_mem_cut hs)),
      fun hk => c.outline.writesEdge_withGraph _ (hwrites.edge hk)⟩
  init := h.init

/-- An ordinary procedure that can be written suspends nowhere. -/
theorem Writes.yieldIndex?_eq_none (h : c.Writes) {b : Block} (hb : b ∈ c.blocks) :
    ∀ s ∈ b.statements, s.yieldIndex? = none := by
  intro s hs
  have hwrites := (h.block b hb).statements s hs
  cases s with
  | yield y =>
    have hyes := hwrites.1
    rw [show c.outline.procedure.isGenerator = false from hgen] at hyes
    cases hyes
  | _ => rfl

variable (hwrites : c.Writes)
include hwrites

theorem reachesEdge_cut {b : Block} (hb : b ∈ c.blocks) : c.cut.reachesEdge b.cut = c.reachesEdge b :=
  Stmt.liveThrough_cut (hwrites.yieldIndex?_eq_none hgen hb)

theorem reachesExit_cut : c.cut.reachesExit = c.reachesExit := by
  unfold reachesExit
  rw [show c.cut.blocks = c.blocks.map Block.cut from rfl, List.any_map]
  rw [Bool.eq_iff_iff, List.any_eq_true, List.any_eq_true]
  refine exists_congr fun b => and_congr_right fun hb => Bool.eq_iff_iff.1 ?_
  rw [Function.comp_apply, reachesEdge_cut hgen hwrites hb,
    show c.cut.procedure.graph.exit = c.procedure.graph.exit from FlowGraph.exit_cut _]
  rfl

theorem reachesBlock_cut (b : Block) : c.cut.reachesBlock b.cut = c.reachesBlock b := by
  unfold reachesBlock
  rw [reachesExit_cut hgen hwrites]
  rfl

omit hgen hwrites in
theorem finds_cut {s : Stmt} (h : c.Finds s) : c.cut.Finds s := by
  have hlands {α : Type} {x y : Fragment α} {d : Nat} {f : α → Nat} (heq : x = y)
      (hy : y.Lands d f) : x.Lands d f := heq ▸ hy
  cases s with
  | empty | declareFunction | declareType | declare | bindGlobal => exact h
  | expr e => exact hlands (c.procedure.discardValue_withGraph _ e) h
  | ret value =>
    refine hlands ?_ h
    rw [outline_cut]
    exact c.outline.returned_withGraph _ value
  | throw e => exact hlands (c.procedure.value_withGraph _ e _ _) h
  | defineConst name e => exact hlands (c.procedure.defineConst_withGraph _ name e) h
  | bindStatic d =>
    intro init hinit
    refine ⟨(h init hinit).1, hlands ?_ (h init hinit).2⟩
    rw [outline_cut]
    exact c.outline.staticInit_withGraph _ d.target init
  | unset target => exact hlands (c.procedure.unset_withGraph _ target) h
  | yield y => exact hlands (c.procedure.publish_withGraph _ y) h

omit hgen hwrites in
theorem findsThrough_cut {live : Bool} {ss : List Stmt} (h : c.FindsThrough live ss) :
    c.cut.FindsThrough live (Stmt.cut ss) := by
  induction ss generalizing live with
  | nil => trivial
  | cons s ss ih =>
    unfold Stmt.cut
    split
    · exact ⟨fun hlive => finds_cut (h.1 hlive), trivial⟩
    · exact ⟨fun hlive => finds_cut (h.1 hlive), ih h.2⟩

omit hgen hwrites in
theorem findsEdge_cut {e : Edge} (h : c.FindsEdge e) : c.cut.FindsEdge e := by
  have hlands {x y : Fragment Unit} (heq : x = y) (hy : y.Lands 0 fun _ => 1) :
      x.Lands 0 fun _ => 1 := heq ▸ hy
  cases e with
  | branch condition s t => exact hlands (c.procedure.value_withGraph _ condition _ _) h
  | switch selector cases default => exact hlands (c.procedure.value_withGraph _ selector _ _) h
  | goto | protect | leave | none => trivial

theorem Steady.cut (h : c.Steady) : c.cut.Steady where
  statements b hb := by
    obtain ⟨b, hmem, rfl⟩ := exists_of_mem_cut hb
    rw [reachesBlock_cut hgen hwrites]
    exact findsThrough_cut (h.statements b hmem)
  edge b hb hk hreach := by
    obtain ⟨b, hmem, rfl⟩ := exists_of_mem_cut hb
    rw [reachesEdge_cut hgen hwrites hmem] at hreach
    exact findsEdge_cut (h.edge b hmem hk hreach)

theorem dangles_of_cut {b : Block} (h : c.cut.Dangles b) : ∃ b', c.Dangles b' := by
  obtain ⟨hb, hk, hreach, hedge⟩ := h
  obtain ⟨b, hmem, rfl⟩ := exists_of_mem_cut hb
  exact ⟨b, hmem, hk, reachesEdge_cut hgen hwrites hmem ▸ hreach, hedge⟩

end

/-- An ordinary procedure that is lowered is lowered when its blocks are cut short. -/
theorem Lowered.exists_appendTo_cut {labels : LabelTable} {ds : List Directive} {final : Frame}
    {code : List Instr} {g : Flow} (hmade : c.Made) (hmade' : c.cut.Made)
    (hsize : labels.size = c.bound) (hblank : labels.IsBlank) (hgen : c.procedure.isGenerator = false)
    (h : c.Lowered labels ds final code g) :
    ∃ out sum, c.cut.appendTo labels #[] = (out, .ok sum) := by
  obtain ⟨hblocks, hinit⟩ := h.writes hmade hsize
  have hwrites : c.Writes := ⟨hblocks, hinit⟩
  refine exists_appendTo hmade' hsize hblank (hwrites.cut hgen)
    ((h.steady hmade hsize).cut hgen hwrites) (fun b hdangles => ?_) #[]
  obtain ⟨b', hb'⟩ := dangles_of_cut hgen hwrites hdangles
  exact h.not_dangles hmade hsize b' hb'

end Plan

end StackCode
