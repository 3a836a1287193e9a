import StackCode.Lowering
import StackCode.Proofs.Graph.Agreement
import StackCode.Proofs.Plan.Made

/-!
# Unreachable blocks

What a plan has put down of the graph is all that a draft sees of it (`Plan.appendTo_withGraph`), and a
plan puts down the blocks that code is generated for and the suspension points of a generator.  So
whatever the other blocks are, and however many, they leave no trace: neither in the code nor in what
is known of it, nor in the error.  Main statement: `Procedure.lowerInto_withGraph`.

Other blocks take part in the checks of the graph and are sorted with the rest, so two graphs may number
and arrange different blocks; the orders to choose from keep those in place on which the graphs agree.
-/

namespace StackCode

/-! ## Drafts do not look at the graph -/

namespace Procedure

/-- The same procedure with another graph. -/
def withGraph (p : Procedure) (g : FlowGraph) : Procedure := { p with graph := g }

mutual

theorem evaluate_withGraph (p : Procedure) (g : FlowGraph) :
    ∀ e, (p.withGraph g).evaluate e = p.evaluate e
  | .literal _ _ => by rw [evaluate, evaluate]
  | .var _ _ => by
    rw [evaluate, evaluate]
    rfl
  | .assign _ _ value => by
    rw [evaluate, evaluate, evaluate_withGraph p g value]
    rfl
  | .binary _ _ lhs rhs => by
    rw [evaluate, evaluate, evaluate_withGraph p g lhs, evaluate_withGraph p g rhs]
  | .call _ _ args => by rw [evaluate, evaluate, evaluateArgs_withGraph p g args]
  | .new _ _ args => by rw [evaluate, evaluate, evaluateArgs_withGraph p g args]
  | .item _ array key => by
    rw [evaluate, evaluate, evaluate_withGraph p g array, evaluate_withGraph p g key]

theorem evaluateArgs_withGraph (p : Procedure) (g : FlowGraph) :
    ∀ args, (p.withGraph g).evaluateArgs args = p.evaluateArgs args
  | [] => by rw [evaluateArgs, evaluateArgs]
  | arg :: args => by
    rw [evaluateArgs, evaluateArgs, evaluate_withGraph p g arg, evaluateArgs_withGraph p g args]

end

variable (p : Procedure) (g : FlowGraph)

theorem value_withGraph (e : Expr) (ty : Ty) (use : ValueUse) :
    (p.withGraph g).value e ty use = p.value e ty use := by
  unfold value
  rw [evaluate_withGraph]

theorem discardValue_withGraph (e : Expr) : (p.withGraph g).discardValue e = p.discardValue e := by
  unfold discardValue
  rw [evaluate_withGraph]

theorem defineConst_withGraph (name : Name) (e : Expr) :
    (p.withGraph g).defineConst name e = p.defineConst name e := by
  unfold defineConst
  rw [value_withGraph]

theorem throwValue_withGraph (e : Expr) : (p.withGraph g).throwValue e = p.throwValue e := by
  unfold throwValue
  rw [value_withGraph]

theorem unset_withGraph (target : UnsetTarget) : (p.withGraph g).unset target = p.unset target := by
  cases target with
  | var id => rfl
  | item array key =>
    unfold unset
    simp only [value_withGraph]
  | property inst name =>
    unfold unset
    simp only [value_withGraph]

theorem publish_withGraph (y : Yield) : (p.withGraph g).publish y = p.publish y := by
  unfold publish
  simp only [value_withGraph]

end Procedure

namespace Plan

/-- The same plan for another graph. -/
def withGraph (c : Plan) (g : FlowGraph) : Plan := { c with procedure := c.procedure.withGraph g }

variable (c : Plan) (g : FlowGraph)

theorem returnValue_withGraph (value : Option Expr) :
    (c.withGraph g).returnValue value = c.returnValue value := by
  cases value with
  | none => rfl
  | some e =>
    have h := c.procedure.evaluate_withGraph g e
    change (Draft.ofFragment ((c.procedure.withGraph g).evaluate e) >>= _) = _
    rw [h]
    rfl

theorem bindStatic_withGraph (d : StaticDecl) : (c.withGraph g).bindStatic d = c.bindStatic d := by
  unfold bindStatic
  cases d.init with
  | none => rfl
  | some init =>
    simp only
    rw [show (c.withGraph g).procedure.value init .value .staticInitializer =
      c.procedure.value init .value .staticInitializer from
        c.procedure.value_withGraph g init .value .staticInitializer]
    rfl

theorem yieldValue_withGraph (y : Yield) : (c.withGraph g).yieldValue y = c.yieldValue y := by
  unfold yieldValue
  rw [show (c.withGraph g).procedure.publish y = c.procedure.publish y from
    c.procedure.publish_withGraph g y]
  rfl

theorem statementBody_withGraph (s : Stmt) :
    (c.withGraph g).statementBody s = c.statementBody s := by
  cases s with
  | empty | declareFunction | declareType | declare | bindGlobal => rfl
  | expr e => exact congrArg Draft.ofFragment (c.procedure.discardValue_withGraph g e)
  | ret value => exact c.returnValue_withGraph g value
  | throw e => exact congrArg Draft.ofFragment (c.procedure.throwValue_withGraph g e)
  | defineConst name e => exact congrArg Draft.ofFragment (c.procedure.defineConst_withGraph g name e)
  | bindStatic d => exact c.bindStatic_withGraph g d
  | unset target => exact congrArg Draft.ofFragment (c.procedure.unset_withGraph g target)
  | yield y => exact c.yieldValue_withGraph g y

theorem statement_withGraph (s : Stmt) : (c.withGraph g).statement s = c.statement s := by
  unfold statement
  rw [statementBody_withGraph]
  rfl

theorem edge_withGraph (b : Block) (next : Option BlockId) :
    (c.withGraph g).edge b next = c.edge b next := by
  unfold edge
  cases b.edge with
  | goto | protect | leave | none => rfl
  | branch condition onTrue onFalse =>
    simp only
    rw [show (c.withGraph g).procedure.value condition .bool .branchCondition =
      c.procedure.value condition .bool .branchCondition from
        c.procedure.value_withGraph g condition .bool .branchCondition]
    rfl
  | switch selector cases default =>
    simp only
    rw [show (c.withGraph g).procedure.value selector .int .switchSelector =
      c.procedure.value selector .int .switchSelector from
        c.procedure.value_withGraph g selector .int .switchSelector]
    rfl

theorem block_withGraph (b : Block) (next : Option BlockId) :
    (c.withGraph g).block b next = c.block b next := by
  have hstatements : (c.withGraph g).statement = c.statement := funext (c.statement_withGraph g)
  unfold block blockEnd
  rw [hstatements, edge_withGraph]
  rfl

theorem blocksFrom_withGraph (bs : List Block) : (c.withGraph g).blocksFrom bs = c.blocksFrom bs := by
  induction bs with
  | nil => rfl
  | cons b bs ih => rw [blocksFrom, blocksFrom, ih, block_withGraph]

/-- Of the graph, a draft sees no more than the plan has put down. -/
theorem appendTo_withGraph (labels : LabelTable) (code : Array Instr) :
    (c.withGraph g).appendTo labels code = c.appendTo labels code := by
  have hdraft : (c.withGraph g).draft = c.draft := by
    unfold draft
    rw [blocksFrom_withGraph]
    rfl
  unfold appendTo
  rw [hdraft]
  rfl

end Plan

/-! ## Plans of graphs that agree -/

namespace Procedure

theorem mem_liveBlocks_iff_reaches {p : Procedure} {b : BlockId} :
    b ∈ p.liveBlocks ↔ p.graph.Reaches p.roots b ∨ b = p.graph.exit := by
  rw [mem_liveBlocks, FlowGraph.mem_reachableFrom_iff]
  refine ⟨fun h => h.2, fun h => ⟨?_, h⟩⟩
  rcases h with h | rfl
  · exact h.mem_ids
  · exact (mem_liveBlocks.1 p.exit_mem_liveBlocks).1

theorem root_mem_liveBlocks {p : Procedure} {b : BlockId} (hb : b ∈ p.roots) : b ∈ p.liveBlocks := by
  unfold roots at hb
  rcases List.mem_cons.1 hb with rfl | hb
  · exact p.start_mem_liveBlocks
  · cases hgen : p.isGenerator with
    | false =>
      rw [hgen, if_neg Bool.false_ne_true] at hb
      cases hb
    | true =>
      rw [hgen, if_pos rfl] at hb
      obtain ⟨y, hy, rfl⟩ := List.mem_map.1 hb
      exact p.yield_mem_liveBlocks hgen hy

variable {p : Procedure} {g : FlowGraph}

/-- A graph with the blocks that code is generated for agrees with that of the procedure on them. -/
theorem agreesOn_liveBlocks (h : ∀ b ∈ p.liveBlocks, g.block? b = p.graph.block? b) :
    p.graph.AgreesOn g (· ∈ p.liveBlocks) where
  block? := h
  closed b hb t ht := by
    obtain ⟨blk, hblk⟩ := FlowGraph.exists_block (mem_liveBlocks.1 hb).1
    rw [FlowGraph.successors_of_block? hblk] at ht
    exact target_mem_liveBlocks hb hblk ht

section
variable (h : p.graph.AgreesOn g (· ∈ p.liveBlocks))
include h

theorem emissionOrder_eq (order : BlockOrder) :
    g.emissionOrder order.arrange p.liveBlocks = p.graph.emissionOrder order.arrange p.liveBlocks := by
  have hstart : g.start = p.graph.start := h.start_eq p.start_mem_liveBlocks
  have hexit : g.exit = p.graph.exit := h.exit_eq p.exit_mem_liveBlocks
  have harrange := h.arrange_eq hstart p.start_mem_liveBlocks
    (fun b hb => ⟨(mem_liveBlocks.1 hb).1, hb⟩) order
  unfold FlowGraph.emissionOrder
  rw [harrange, hstart, hexit]

variable (hroots : ∀ b, b ∈ (p.withGraph g).roots ↔ b ∈ p.roots)
include hroots

theorem liveBlocks_withGraph : (p.withGraph g).liveBlocks = p.liveBlocks := by
  have hmem (b : BlockId) : b ∈ (p.withGraph g).liveBlocks ↔ b ∈ p.liveBlocks := by
    rw [mem_liveBlocks_iff_reaches, mem_liveBlocks_iff_reaches]
    exact or_congr (h.reaches_iff hroots fun b hb => root_mem_liveBlocks hb)
      (by rw [show (p.withGraph g).graph.exit = p.graph.exit from h.exit_eq p.exit_mem_liveBlocks])
  unfold liveBlocks
  refine h.filter_ids_eq (fun b hb => ?_) fun b hb => ?_
  · simp only [Bool.or_eq_true, decide_eq_true_eq, beq_iff_eq, FlowGraph.mem_reachableFrom_iff] at hb
    exact mem_liveBlocks_iff_reaches.2 hb
  · simp only [Bool.or_eq_true, decide_eq_true_eq, beq_iff_eq, FlowGraph.mem_reachableFrom_iff,
      ← mem_liveBlocks_iff_reaches]
    exact hmem b

theorem yields_withGraph (hgen : p.isGenerator = true) : g.yields = p.graph.yields := by
  refine h.yields_eq (fun y hy => p.yield_mem_liveBlocks hgen hy) fun y hy => ?_
  rw [← liveBlocks_withGraph h hroots]
  exact (p.withGraph g).yield_mem_liveBlocks hgen hy

theorem make_withGraph (options : Options) (order : BlockOrder) :
    Plan.make (p.withGraph g) options order.arrange =
      (Plan.make p options order.arrange).map fun made => (made.1.withGraph g, made.2) := by
  have horder : (p.withGraph g).graph.emissionOrder order.arrange (p.withGraph g).liveBlocks =
      p.graph.emissionOrder order.arrange p.liveBlocks := by
    rw [liveBlocks_withGraph h hroots]
    exact emissionOrder_eq h order
  unfold Plan.make
  rw [horder]
  cases hemit : p.graph.emissionOrder order.arrange p.liveBlocks with
  | none => rfl
  | some emitted =>
    obtain ⟨-, -, -, hmem⟩ := Plan.emissionOrder_eq_some hemit
    have hblocks : emitted.filterMap (p.withGraph g).graph.block? = emitted.filterMap p.graph.block? :=
      List.filterMap_congr fun b hb => h.block? b ((hmem b).1 hb)
    have hisgen : (p.withGraph g).isGenerator = p.isGenerator := rfl
    simp only [hblocks, hisgen]
    cases hgen : p.isGenerator with
    | false => rfl
    | true =>
      have hyields : (p.withGraph g).graph.yields = p.graph.yields := yields_withGraph h hroots hgen
      simp only [hyields, ↓reduceIte]
      cases (ResumePlan.make (p.graph.yields.map (·.index))
        (LabelTable.reserve {} (Plan.targetsOf (emitted.filterMap p.graph.block?)).length)).1 <;> rfl

end

/-- Blocks that are not the exit and that control never reaches may be any others, and any number of
them: code and result stay the same. -/
theorem lowerInto_withGraph (hroots : ∀ b, b ∈ (p.withGraph g).roots ↔ b ∈ p.roots)
    (hblocks : ∀ b, p.graph.Reaches p.roots b ∨ b = p.graph.exit → g.block? b = p.graph.block? b)
    (options : Options) (order : BlockOrder) (code : Array Instr) :
    (p.withGraph g).lowerInto options order.arrange code = p.lowerInto options order.arrange code := by
  have hagrees : p.graph.AgreesOn g (· ∈ p.liveBlocks) :=
    agreesOn_liveBlocks fun b hb => hblocks b (mem_liveBlocks_iff_reaches.1 hb)
  unfold lowerInto
  rw [make_withGraph hagrees hroots]
  cases Plan.make p options order.arrange with
  | error e => rfl
  | ok made => exact Plan.appendTo_withGraph _ _ _ _

end Procedure

/-- A procedure that has nothing to do, with a block that would use a variable that is not there. -/
def idle : Procedure where
  name := ⟨1⟩
  returnType := .void
  locals := {}
  graph :=
    { blocks := #[
        { id := ⟨0⟩, ordinal := 0, kind := .start, statements := [], edge := .goto ⟨1⟩ },
        { id := ⟨1⟩, ordinal := 5, kind := .exit, statements := [], edge := .none },
        { id := ⟨2⟩, ordinal := 2, kind := .normal
          statements := [.expr (.var { ty := .int } ⟨7⟩)], edge := .goto ⟨1⟩ }]
      wellFormed := wellFormed_of_fault?_eq_none (by decide) }

/-- The graph of `idle` with other blocks that cannot be reached; one of them leads back to the start. -/
def idleAmong : FlowGraph where
  blocks := #[
    { id := ⟨0⟩, ordinal := 0, kind := .start, statements := [], edge := .goto ⟨1⟩ },
    { id := ⟨1⟩, ordinal := 5, kind := .exit, statements := [], edge := .none },
    { id := ⟨2⟩, ordinal := 9, kind := .normal, statements := [.ret none], edge := .goto ⟨3⟩ },
    { id := ⟨3⟩, ordinal := 1, kind := .normal, statements := [], edge := .goto ⟨0⟩ }]
  wellFormed := wellFormed_of_fault?_eq_none (by decide)

theorem idle_withGraph :
    (∀ b, b ∈ (idle.withGraph idleAmong).roots ↔ b ∈ idle.roots) ∧
      (∀ b, idle.graph.Reaches idle.roots b ∨ b = idle.graph.exit →
        idleAmong.block? b = idle.graph.block? b) ∧
      (idle.withGraph idleAmong).lowerInto {} BlockOrder.reversePostorder.arrange #[] =
        idle.lowerInto {} BlockOrder.reversePostorder.arrange #[] := by
  have hroots : ∀ b, b ∈ (idle.withGraph idleAmong).roots ↔ b ∈ idle.roots := fun b => by
    rw [show (idle.withGraph idleAmong).roots = idle.roots from by decide]
  have hreaches : ∀ b, idle.graph.Reaches idle.roots b → b = ⟨0⟩ ∨ b = ⟨1⟩ := by
    intro b hb
    induction hb with
    | root hb =>
      rw [show idle.roots = [⟨0⟩] from by decide, List.mem_singleton] at hb
      exact .inl hb
    | edge _ ht ih =>
      rcases ih with rfl | rfl
      · rw [show idle.graph.successors ⟨0⟩ = [⟨1⟩] from by decide, List.mem_singleton] at ht
        exact .inr ht
      · rw [show idle.graph.successors ⟨1⟩ = [] from by decide] at ht
        cases ht
  have hblocks : ∀ b, idle.graph.Reaches idle.roots b ∨ b = idle.graph.exit →
      idleAmong.block? b = idle.graph.block? b := by
    rintro b (hb | rfl)
    · rcases hreaches b hb with rfl | rfl <;> rfl
    · rfl
  exact ⟨hroots, hblocks, Procedure.lowerInto_withGraph hroots hblocks _ _ _⟩

end StackCode
