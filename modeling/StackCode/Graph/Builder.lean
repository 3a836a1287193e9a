import StackCode.Graph.FlowGraph

/-!
# Building graphs

A builder holds the blocks of a graph under construction.  A fresh builder holds the start block 0
and the exit block 1; further blocks get the next position.  A change to a block that does not exist
answers `none`.
-/

namespace StackCode

/-- The blocks of a graph under construction. -/
structure GraphBuilder where
  blocks : Array Block

namespace GraphBuilder

/-- A block with nothing in it, whose ordinal is its position. -/
def emptyBlock (position : Nat) (kind : BlockKind) : Block :=
  { id := ⟨position⟩, ordinal := position, kind, statements := [], edge := .none }

def new : GraphBuilder := ⟨#[emptyBlock 0 .start, emptyBlock 1 .exit]⟩

def start (_ : GraphBuilder) : BlockId := ⟨0⟩

def exit (_ : GraphBuilder) : BlockId := ⟨1⟩

/-- Adds an empty block. -/
def newBlock (b : GraphBuilder) : BlockId × GraphBuilder :=
  (⟨b.blocks.size⟩, ⟨b.blocks.push (emptyBlock b.blocks.size .normal)⟩)

/-- Changes one block. -/
def modify? (b : GraphBuilder) (id : BlockId) (f : Block → Block) : Option GraphBuilder :=
  if id.index < b.blocks.size then some ⟨b.blocks.modify id.index f⟩ else none

/-- Appends a statement to a block. -/
def push? (b : GraphBuilder) (id : BlockId) (s : Stmt) : Option GraphBuilder :=
  b.modify? id fun blk => { blk with statements := blk.statements ++ [s] }

def setEdge? (b : GraphBuilder) (id : BlockId) (e : Edge) : Option GraphBuilder :=
  b.modify? id fun blk => { blk with edge := e }

/-- Lets control continue at `target`. -/
def goto? (b : GraphBuilder) (id target : BlockId) : Option GraphBuilder :=
  b.setEdge? id (.goto target)

def setOrdinal? (b : GraphBuilder) (id : BlockId) (ordinal : Nat) : Option GraphBuilder :=
  b.modify? id fun blk => { blk with ordinal }

/-- The graph of the blocks so far. -/
def finish (b : GraphBuilder) : Except GraphError FlowGraph := FlowGraph.ofBlocks b.blocks

end GraphBuilder

end StackCode
