import StackCode.Graph.WellFormed

/-!
# Control-flow graphs

A control-flow graph is a well-formed array of blocks.  Everything else about it, its start, its
exit and its suspension points, is read off the blocks.
-/

namespace StackCode

/-- The control-flow graph of a procedure. -/
structure FlowGraph where
  blocks : Array Block
  wellFormed : WellFormed blocks

namespace FlowGraph

/-- The graph of these blocks, or the first thing that is wrong with them. -/
def ofBlocks (blocks : Array Block) : Except GraphError FlowGraph :=
  match h : WellFormed.fault? blocks with
  | some e => .error e
  | none => .ok ⟨blocks, wellFormed_of_fault?_eq_none h⟩

theorem blocks_of_ofBlocks {blocks : Array Block} {g : FlowGraph} (h : ofBlocks blocks = .ok g) :
    g.blocks = blocks := by
  unfold ofBlocks at h
  split at h
  · cases h
  · cases h; rfl

def size (g : FlowGraph) : Nat := g.blocks.size

def block? (g : FlowGraph) (b : BlockId) : Option Block := g.blocks[b.index]?

/-- The ids of all blocks, ascending. -/
def ids (g : FlowGraph) : List BlockId := (List.range g.size).map BlockId.mk

theorem mem_ids {g : FlowGraph} {b : BlockId} : b ∈ g.ids ↔ b.index < g.size := by
  cases b; simp [ids]

/-- The one block of the given kind. -/
def idOfKind (g : FlowGraph) (k : BlockKind) : BlockId := ⟨g.blocks.toList.findIdx (·.kind = k)⟩

def start (g : FlowGraph) : BlockId := g.idOfKind .start

def exit (g : FlowGraph) : BlockId := g.idOfKind .exit

/-- The suspension points of the procedure, in block order. -/
def yields (g : FlowGraph) : List YieldSite := g.blocks.toList.flatMap Block.yields

/-- The blocks that control may continue at after `b`, in edge order. -/
def successors (g : FlowGraph) (b : BlockId) : List BlockId :=
  (g.block? b).elim [] fun blk => blk.edge.targets

/-- The source position of a block; a block that does not exist has the first. -/
def ordinal (g : FlowGraph) (b : BlockId) : Nat := (g.block? b).elim 0 Block.ordinal

end FlowGraph

end StackCode
