import StackCode.Proofs.Lowering.Unreachable

/-!
# Blocks cut short

What follows the first statement of a block that returns or throws can be left out of the block.  The
graph keeps its shape then, and an ordinary procedure its plan: the blocks stay in their order, and
edges lead to the same labels.  Main statement: `Plan.make_cut`.
-/

namespace StackCode

/-! ## Statements -/

namespace Stmt

/-- Control does not get behind the statement. -/
def stops : Stmt → Bool
  | .ret _ | .throw _ => true
  | _ => false

/-- The statements up to the first one that stops. -/
def cut : List Stmt → List Stmt
  | [] => []
  | s :: ss => if s.stops then [s] else s :: cut ss

/-- The statements behind the first one that stops. -/
def afterCut : List Stmt → List Stmt
  | [] => []
  | s :: ss => if s.stops then ss else afterCut ss

variable {ss : List Stmt}

theorem cut_append_afterCut (ss : List Stmt) : cut ss ++ afterCut ss = ss := by
  induction ss with
  | nil => rfl
  | cons s ss ih =>
    unfold cut afterCut
    split
    · rfl
    · rw [List.cons_append, ih]

theorem mem_of_mem_cut {s : Stmt} (h : s ∈ cut ss) : s ∈ ss := by
  rw [← cut_append_afterCut ss]
  exact List.mem_append_left _ h

/-- Nothing is left out unless a statement stops, and then this one comes last. -/
theorem afterCut_eq_nil_or (ss : List Stmt) :
    afterCut ss = [] ∨ ∃ front s, cut ss = front ++ [s] ∧ s.stops = true := by
  induction ss with
  | nil => exact .inl rfl
  | cons s ss ih =>
    unfold cut afterCut
    split
    · next hs => exact .inr ⟨[], s, rfl, hs⟩
    · rcases ih with hnil | ⟨front, t, hcut, ht⟩
      · exact .inl hnil
      · exact .inr ⟨s :: front, t, by rw [hcut, List.cons_append], ht⟩

end Stmt

/-- The block with its statements up to the first one that stops. -/
def Block.cut (b : Block) : Block := { b with statements := Stmt.cut b.statements }

@[simp] theorem Block.cut_id (b : Block) : b.cut.id = b.id := rfl

@[simp] theorem Block.cut_kind (b : Block) : b.cut.kind = b.kind := rfl

@[simp] theorem Block.cut_edge (b : Block) : b.cut.edge = b.edge := rfl

@[simp] theorem Block.cut_statements (b : Block) : b.cut.statements = Stmt.cut b.statements := rfl

/-! ## Graphs -/

/-- What a well-formed graph is does not depend on the statements. -/
theorem WellFormed.map_cut {blocks : Array Block} (h : WellFormed blocks) :
    WellFormed (blocks.map Block.cut) := by
  have hget {i : Nat} {b : Block} (hb : (blocks.map Block.cut)[i]? = some b) :
      ∃ b', blocks[i]? = some b' ∧ b'.cut = b := by
    rw [Array.getElem?_map] at hb
    exact Option.map_eq_some_iff.1 hb
  have hmem {b : Block} (hb : b ∈ blocks.map Block.cut) : ∃ b' ∈ blocks, b'.cut = b :=
    Array.mem_map.1 hb
  have hcount (k : BlockKind) : (blocks.map Block.cut).toList.countP (·.kind = k) =
      blocks.toList.countP (·.kind = k) := by
    rw [Array.toList_map, List.countP_map]
    rfl
  refine ⟨fun i b hb => ?_, (hcount _).trans h.one_start, (hcount _).trans h.one_exit, fun b hb => ?_,
    fun b hb => ?_, fun i j b c hb hc => ?_, fun b hb handler hhandler c hc => ?_,
    fun b hb handler hhandler c hc => ?_⟩
  · obtain ⟨b', hb', rfl⟩ := hget hb
    exact h.id_eq i b' hb'
  · obtain ⟨b', hb', rfl⟩ := hmem hb
    exact h.exit_edge b' hb'
  · obtain ⟨b', hb', rfl⟩ := hmem hb
    rw [Array.size_map]
    exact h.target_lt b' hb'
  · obtain ⟨b', hb', rfl⟩ := hget hb
    obtain ⟨c', hc', rfl⟩ := hget hc
    exact h.ordinal_inj i j b' c' hb' hc'
  · obtain ⟨b', hb', rfl⟩ := hmem hb
    obtain ⟨c', hc', rfl⟩ := hmem hc
    exact h.handler_normal b' hb' handler hhandler c' hc'
  · obtain ⟨b', hb', rfl⟩ := hmem hb
    obtain ⟨c', hc', rfl⟩ := hmem hc
    exact h.handler_exclusive b' hb' handler hhandler c' hc'

namespace FlowGraph

/-- The graph with all blocks cut short. -/
def cut (g : FlowGraph) : FlowGraph := ⟨g.blocks.map Block.cut, g.wellFormed.map_cut⟩

variable (g : FlowGraph)

@[simp] theorem block?_cut (b : BlockId) : g.cut.block? b = (g.block? b).map Block.cut :=
  Array.getElem?_map

@[simp] theorem ids_cut : g.cut.ids = g.ids := by
  unfold ids size cut
  rw [Array.size_map]

theorem idOfKind_cut (k : BlockKind) : g.cut.idOfKind k = g.idOfKind k := by
  unfold idOfKind cut
  rw [Array.toList_map, List.findIdx_map]
  rfl

@[simp] theorem start_cut : g.cut.start = g.start := g.idOfKind_cut .start

@[simp] theorem exit_cut : g.cut.exit = g.exit := g.idOfKind_cut .exit

@[simp] theorem successors_cut (b : BlockId) : g.cut.successors b = g.successors b := by
  unfold successors
  rw [block?_cut]
  cases g.block? b <;> rfl

@[simp] theorem ordinal_cut (b : BlockId) : g.cut.ordinal b = g.ordinal b := by
  unfold ordinal
  rw [block?_cut]
  cases g.block? b <;> rfl

@[simp] theorem walk_cut (fresh left : List BlockId) (todo : List WalkTask) :
    g.cut.walk fresh left todo = g.walk fresh left todo := by
  fun_induction g.walk fresh left todo with
  | case1 fresh left => rw [walk]
  | case2 fresh left b todo ih =>
    rw [walk]
    exact ih
  | case3 fresh left b todo hb ih =>
    have htasks : g.cut.tasksOf b = g.tasksOf b := by
      unfold tasksOf
      rw [successors_cut]
    rw [walk, if_pos hb, htasks]
    exact ih
  | case4 fresh left b todo hb ih =>
    rw [walk, if_neg hb]
    exact ih

theorem arrange_cut (order : BlockOrder) (ids : List BlockId) :
    order.arrange g.cut ids = order.arrange g ids := by
  cases order <;> simp [BlockOrder.arrange, sortByOrdinal, reversePostorder]

end FlowGraph

/-! ## Plans -/

namespace Procedure

/-- The procedure with all blocks cut short. -/
def cut (p : Procedure) : Procedure := p.withGraph p.graph.cut

variable {p : Procedure} (hgen : p.isGenerator = false)
include hgen

theorem liveBlocks_cut : p.cut.liveBlocks = p.liveBlocks := by
  have hroots : p.cut.roots = p.roots := by
    unfold roots
    rw [show p.cut.isGenerator = false from hgen, hgen, show p.cut.graph = p.graph.cut from rfl,
      FlowGraph.start_cut]
    rfl
  unfold liveBlocks FlowGraph.reachableFrom
  rw [hroots, show p.cut.graph = p.graph.cut from rfl]
  simp

theorem emissionOrder_cut (order : BlockOrder) :
    p.cut.graph.emissionOrder order.arrange p.cut.liveBlocks =
      p.graph.emissionOrder order.arrange p.liveBlocks := by
  rw [liveBlocks_cut hgen, show p.cut.graph = p.graph.cut from rfl]
  unfold FlowGraph.emissionOrder
  rw [FlowGraph.arrange_cut, FlowGraph.start_cut, FlowGraph.exit_cut]

end Procedure

namespace Plan

/-- The plan with all blocks cut short. -/
def cut (c : Plan) : Plan :=
  { c.withGraph c.procedure.graph.cut with blocks := c.blocks.map Block.cut }

theorem targetsOf_map_cut (bs : List Block) : targetsOf (bs.map Block.cut) = targetsOf bs := by
  unfold targetsOf
  rw [List.flatMap_map]
  rfl

/-- An ordinary procedure with all blocks cut short has the plan cut short, and the same labels. -/
theorem make_cut {p : Procedure} {options : Options} {order : BlockOrder} {c : Plan}
    {labels : LabelTable} (hgen : p.isGenerator = false)
    (h : make p options order.arrange = .ok (c, labels)) :
    make p.cut options order.arrange = .ok (c.cut, labels) := by
  unfold make at h ⊢
  rw [Procedure.emissionOrder_cut hgen]
  cases hemit : p.graph.emissionOrder order.arrange p.liveBlocks with
  | none =>
    rw [hemit] at h
    cases h
  | some emitted =>
    have hblocks : emitted.filterMap p.cut.graph.block? =
        (emitted.filterMap p.graph.block?).map Block.cut := by
      rw [List.map_filterMap]
      exact List.filterMap_congr fun b _ => p.graph.block?_cut b
    rw [hemit] at h
    simp only [hgen, show p.cut.isGenerator = false from hgen, Bool.false_eq_true, if_false, hblocks,
      targetsOf_map_cut] at h ⊢
    cases h
    rfl

end Plan

end StackCode
