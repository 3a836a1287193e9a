import Mathlib.Data.List.Induction
import StackCode.Graph.Builder
import StackCode.Proofs.Graph.Reachability
import StackCode.Proofs.Graph.Validation

/-!
# What a builder builds

Whatever edits are made, in whatever order, each block of a builder depends on the edits of this block
alone: its statements are those that were pushed to it, and its edge and its ordinal are the last that
were set (`GraphBuilder.blockOf`).  An edit fails only if its block is not there yet.  So the blocks
that are handed over are numbered, the first is the one start and the second the one exit, and what can
be wrong with them are the edges and the ordinals (`GraphBuilder.Consistent`).

One edit takes the blocks of some edits to those of one edit more (`edit?_blocksOf_eq_some_iff`), and all
edits do by induction (`editAll?_eq_some_iff`).  Main statement: `GraphBuilder.finish_built`.
-/

namespace StackCode

namespace FlowGraph

theorem fault?_of_ofBlocks {blocks : Array Block} {e : GraphError} (h : ofBlocks blocks = .error e) :
    WellFormed.fault? blocks = some e := by
  unfold ofBlocks at h
  split at h
  · next e' hfault =>
    cases h
    exact hfault
  · cases h

/-- A graph comes of blocks that have no fault. -/
theorem exists_ofBlocks_iff {blocks : Array Block} :
    (∃ g, ofBlocks blocks = .ok g) ↔ WellFormed blocks := by
  rw [← WellFormed.fault?_eq_none_iff]
  constructor
  · rintro ⟨g, hg⟩
    rw [← blocks_of_ofBlocks hg]
    exact WellFormed.fault?_eq_none_iff.2 g.wellFormed
  · intro hnone
    cases h : ofBlocks blocks with
    | ok g => exact ⟨g, rfl⟩
    | error e => cases hnone.symm.trans (fault?_of_ofBlocks h)

end FlowGraph

namespace GraphBuilder

/-- An edit of a graph under construction. -/
inductive Edit where
  | newBlock
  | push (b : BlockId) (s : Stmt)
  | setEdge (b : BlockId) (e : Edge)
  | goto (b target : BlockId)
  | setOrdinal (b : BlockId) (ordinal : Nat)

namespace Edit

def isNewBlock : Edit → Bool
  | .newBlock => true
  | _ => false

/-- The block that is changed, which has to be there. -/
def block? : Edit → Option BlockId
  | .newBlock => none
  | .push b _ | .setEdge b _ | .goto b _ | .setOrdinal b _ => some b

/-- The statement that is appended to a block. -/
def pushed? (b : BlockId) : Edit → Option Stmt
  | .push c s => if c = b then some s else none
  | _ => none

/-- The edge that a block is given. -/
def edge? (b : BlockId) : Edit → Option Edge
  | .setEdge c e => if c = b then some e else none
  | .goto c target => if c = b then some (.goto target) else none
  | _ => none

/-- The ordinal that a block is given. -/
def ordinal? (b : BlockId) : Edit → Option Nat
  | .setOrdinal c ordinal => if c = b then some ordinal else none
  | _ => none

/-- What becomes of a block. -/
def change (edit : Edit) (b : BlockId) (blk : Block) : Block :=
  { blk with
    statements := blk.statements ++ (edit.pushed? b).toList
    edge := (edit.edge? b).getD blk.edge
    ordinal := (edit.ordinal? b).getD blk.ordinal }

variable {edit : Edit} {b : BlockId}

/-- An edit of one block is none of another. -/
theorem eq_none_of_ne (h : edit.block? ≠ some b) :
    edit.pushed? b = none ∧ edit.edge? b = none ∧ edit.ordinal? b = none := by
  cases edit <;> simp_all [block?, pushed?, edge?, ordinal?]

theorem change_of_ne (h : edit.block? ≠ some b) (blk : Block) : edit.change b blk = blk := by
  obtain ⟨hpushed, hedge, hordinal⟩ := eq_none_of_ne h
  unfold change
  rw [hpushed, hedge, hordinal, Option.toList_none, List.append_nil]
  rfl

end Edit

/-- The builder after an edit. -/
def edit? (b : GraphBuilder) : Edit → Option GraphBuilder
  | .newBlock => some b.newBlock.2
  | .push id s => b.push? id s
  | .setEdge id e => b.setEdge? id e
  | .goto id target => b.goto? id target
  | .setOrdinal id ordinal => b.setOrdinal? id ordinal

theorem edit?_eq_modify? {builder : GraphBuilder} {edit : Edit} {b : BlockId}
    (h : edit.block? = some b) : builder.edit? edit = builder.modify? b (edit.change b) := by
  cases edit with
  | newBlock => cases h
  | _ =>
    cases h
    refine congrArg (builder.modify? _) (funext fun blk => ?_)
    simp [Edit.change, Edit.pushed?, Edit.edge?, Edit.ordinal?]

/-- The builder after some edits. -/
def editAll? (b : GraphBuilder) (edits : List Edit) : Option GraphBuilder := edits.foldlM edit? b

/-! ## What edits say of a block -/

/-- How many blocks there are. -/
def blockCount (edits : List Edit) : Nat := 2 + edits.countP Edit.isNewBlock

def kindOf (b : BlockId) : BlockKind :=
  if b = ⟨0⟩ then .start else if b = ⟨1⟩ then .exit else .normal

/-- What was pushed to a block. -/
def statementsOf (edits : List Edit) (b : BlockId) : List Stmt := edits.filterMap (Edit.pushed? b)

/-- The edge of a block that was set last. -/
def edgeOf (edits : List Edit) (b : BlockId) : Edge :=
  (edits.filterMap (Edit.edge? b)).getLast?.getD .none

/-- The ordinal of a block that was set last. -/
def ordinalOf (edits : List Edit) (b : BlockId) : Nat :=
  (edits.filterMap (Edit.ordinal? b)).getLast?.getD b.index

/-- A block as edits leave it. -/
def blockOf (edits : List Edit) (b : BlockId) : Block where
  id := b
  ordinal := ordinalOf edits b
  kind := kindOf b
  statements := statementsOf edits b
  edge := edgeOf edits b

/-- All blocks as edits leave them. -/
def blocksOf (edits : List Edit) : Array Block :=
  ((List.range (blockCount edits)).map fun i => blockOf edits ⟨i⟩).toArray

/-- Every edit is of a block that is there when it is made. -/
def Legal (edits : List Edit) : Prop :=
  ∀ k edit b, edits[k]? = some edit → edit.block? = some b → b.index < blockCount (edits.take k)

variable {edits : List Edit} {edit : Edit} {b c : BlockId}

theorem two_le_blockCount (edits : List Edit) : 2 ≤ blockCount edits := Nat.le_add_right 2 _

theorem blockCount_concat (edits : List Edit) (edit : Edit) :
    blockCount (edits ++ [edit]) = blockCount edits + if edit.isNewBlock then 1 else 0 := by
  unfold blockCount
  rw [List.countP_append, List.countP_singleton, Nat.add_assoc]

theorem blockCount_take_le (edits : List Edit) (k : Nat) :
    blockCount (edits.take k) ≤ blockCount edits :=
  Nat.add_le_add_left (List.take_sublist k edits).countP_le 2

/-- One edit more changes a block as it says. -/
theorem blockOf_concat : blockOf (edits ++ [edit]) b = edit.change b (blockOf edits b) := by
  have hstatements : statementsOf (edits ++ [edit]) b =
      statementsOf edits b ++ (edit.pushed? b).toList := by
    unfold statementsOf
    rw [List.filterMap_append]
    cases h : edit.pushed? b <;> simp [h]
  have hedge : edgeOf (edits ++ [edit]) b = (edit.edge? b).getD (edgeOf edits b) := by
    unfold edgeOf
    rw [List.filterMap_append]
    cases h : edit.edge? b <;> simp [h]
  have hordinal : ordinalOf (edits ++ [edit]) b = (edit.ordinal? b).getD (ordinalOf edits b) := by
    unfold ordinalOf
    rw [List.filterMap_append]
    cases h : edit.ordinal? b <;> simp [h]
  unfold blockOf
  rw [hstatements, hedge, hordinal]
  rfl

@[simp] theorem size_blocksOf (edits : List Edit) : (blocksOf edits).size = blockCount edits := by
  simp [blocksOf]

theorem getElem?_blocksOf {i : Nat} :
    (blocksOf edits)[i]? = if i < blockCount edits then some (blockOf edits ⟨i⟩) else none := by
  unfold blocksOf
  by_cases h : i < blockCount edits <;> simp [h]

theorem mem_blocksOf_iff {blk : Block} :
    blk ∈ blocksOf edits ↔ ∃ b, b.index < blockCount edits ∧ blockOf edits b = blk := by
  simp only [blocksOf, List.mem_toArray, List.mem_map, List.mem_range]
  exact ⟨fun ⟨i, hi⟩ => ⟨⟨i⟩, hi⟩, fun ⟨b, hb⟩ => ⟨b.index, hb⟩⟩

/-! ## Legal edits -/

theorem legal_concat_iff : Legal (edits ++ [edit]) ↔
    Legal edits ∧ ∀ b, edit.block? = some b → b.index < blockCount edits := by
  constructor
  · intro h
    refine ⟨fun k e b hk hb => ?_, fun b hb => ?_⟩
    · have hlt := (List.getElem?_eq_some_iff.1 hk).1
      have hle := h k e b (by rwa [List.getElem?_append_left hlt]) hb
      rwa [List.take_append_of_le_length (Nat.le_of_lt hlt)] at hle
    · have hle := h edits.length edit b (by simp) hb
      rwa [List.take_left] at hle
  · rintro ⟨h, hlast⟩ k e b hk hb
    rcases Nat.lt_trichotomy k edits.length with hlt | rfl | hgt
    · rw [List.getElem?_append_left hlt] at hk
      rw [List.take_append_of_le_length (Nat.le_of_lt hlt)]
      exact h k e b hk hb
    · rw [List.getElem?_concat_length] at hk
      cases hk
      rw [List.take_left]
      exact hlast b hb
    · rw [List.getElem?_eq_none (by simp; omega)] at hk
      cases hk

theorem Legal.take (h : Legal edits) (n : Nat) : Legal (edits.take n) := by
  intro k edit b hk hb
  rw [List.getElem?_take] at hk
  split at hk
  · next hlt =>
    rw [List.take_take, Nat.min_eq_left (Nat.le_of_lt hlt)]
    exact h k edit b hk hb
  · cases hk

/-- A block that is not there yet has not been edited. -/
theorem Legal.block?_ne (h : Legal edits) (hb : blockCount edits ≤ b.index) :
    ∀ edit ∈ edits, edit.block? ≠ some b := by
  intro edit hedit heq
  obtain ⟨k, hk⟩ := List.mem_iff_getElem?.1 hedit
  have hlt := h k edit b hk heq
  have hle := blockCount_take_le edits k
  omega

/-- A new block is empty. -/
theorem Legal.blockOf_eq (h : Legal edits) :
    blockOf edits ⟨blockCount edits⟩ = emptyBlock (blockCount edits) .normal := by
  have hnone {α : Type} (f : Edit → Option α)
      (hf : ∀ edit, edit.block? ≠ some ⟨blockCount edits⟩ → f edit = none) :
      edits.filterMap f = [] :=
    List.filterMap_eq_nil_iff.2 fun edit hedit => hf edit (h.block?_ne (Nat.le_refl _) edit hedit)
  have hstatements : statementsOf edits ⟨blockCount edits⟩ = [] :=
    hnone _ fun edit hne => (Edit.eq_none_of_ne hne).1
  have hedges := hnone (Edit.edge? ⟨blockCount edits⟩) fun edit hne => (Edit.eq_none_of_ne hne).2.1
  have hordinals := hnone (Edit.ordinal? ⟨blockCount edits⟩) fun edit hne =>
    (Edit.eq_none_of_ne hne).2.2
  have hkind : kindOf ⟨blockCount edits⟩ = .normal := by
    have := two_le_blockCount edits
    unfold kindOf
    rw [if_neg (by simp only [BlockId.mk.injEq]; omega), if_neg (by simp only [BlockId.mk.injEq]; omega)]
  unfold blockOf edgeOf ordinalOf emptyBlock
  rw [hstatements, hedges, hordinals, hkind]
  rfl

/-! ## One edit -/

/-- A new block stands behind the others, which it leaves as they are. -/
theorem push_blocksOf (h : Legal edits) :
    (blocksOf edits).push (emptyBlock (blockCount edits) .normal) = blocksOf (edits ++ [.newBlock]) := by
  have hsame (b : BlockId) : blockOf (edits ++ [.newBlock]) b = blockOf edits b := by
    have hne : Edit.newBlock.block? ≠ some b := (Option.some_ne_none b).symm
    rw [blockOf_concat, Edit.change_of_ne hne]
  unfold blocksOf
  rw [blockCount_concat, Edit.isNewBlock, if_pos rfl, List.range_succ, List.map_append, ← h.blockOf_eq]
  simp [hsame]

/-- A change of one block leaves the others as they are. -/
theorem modify_blocksOf (h : edit.block? = some b) :
    (blocksOf edits).modify b.index (edit.change b) = blocksOf (edits ++ [edit]) := by
  have hcount : blockCount (edits ++ [edit]) = blockCount edits := by
    have hnew : edit.isNewBlock = false := by cases edit <;> first | rfl | cases h
    rw [blockCount_concat, hnew]
    rfl
  refine Array.ext (by simp [hcount]) fun i h₁ h₂ => ?_
  rw [← Option.some_inj, ← Array.getElem?_eq_getElem, ← Array.getElem?_eq_getElem,
    Array.getElem?_modify, getElem?_blocksOf, getElem?_blocksOf, hcount, blockOf_concat]
  by_cases hi : b.index = i
  · subst hi
    rw [if_pos rfl]
    split <;> rfl
  · have hne : edit.block? ≠ some ⟨i⟩ := by
      rw [h]
      rintro ⟨⟩
      exact hi rfl
    rw [if_neg hi, Edit.change_of_ne hne]

/-- One edit takes the blocks of some edits to those of one edit more, if its block is there. -/
theorem edit?_blocksOf_eq_some_iff (h : Legal edits) {after : GraphBuilder} :
    edit? ⟨blocksOf edits⟩ edit = some after ↔
      (∀ b, edit.block? = some b → b.index < blockCount edits) ∧
        after = ⟨blocksOf (edits ++ [edit])⟩ := by
  cases hblock : edit.block? with
  | none =>
    obtain rfl : edit = .newBlock := by cases edit <;> first | rfl | cases hblock
    simp only [edit?, newBlock, size_blocksOf, push_blocksOf h]
    simp [eq_comm]
  | some b =>
    rw [edit?_eq_modify? hblock, modify?, size_blocksOf, modify_blocksOf hblock]
    simp [eq_comm]

/-! ## All edits -/

theorem new_eq : new = ⟨blocksOf []⟩ := rfl

/-- Exactly legal edits can be made, and the blocks are then as they leave them. -/
theorem editAll?_eq_some_iff {after : GraphBuilder} :
    new.editAll? edits = some after ↔ Legal edits ∧ after = ⟨blocksOf edits⟩ := by
  -- on the last edit, as the blocks before it are those of all the edits before it
  induction edits using List.reverseRecOn generalizing after with
  | nil =>
    have hlegal : Legal [] := fun k edit b hk => by cases hk
    rw [new_eq]
    simp [editAll?, hlegal, eq_comm]
  | append_singleton edits edit ih =>
    have hconcat : new.editAll? (edits ++ [edit]) =
        (new.editAll? edits).bind fun before => before.edit? edit := by
      unfold editAll?
      rw [List.foldlM_append]
      cases new.editAll? edits <;> simp
    rw [hconcat, Option.bind_eq_some_iff, legal_concat_iff]
    constructor
    · rintro ⟨before, hbefore, hedit⟩
      obtain ⟨hlegal, rfl⟩ := ih.1 hbefore
      obtain ⟨hlast, hafter⟩ := (edit?_blocksOf_eq_some_iff hlegal).1 hedit
      exact ⟨⟨hlegal, hlast⟩, hafter⟩
    · rintro ⟨⟨hlegal, hlast⟩, hafter⟩
      exact ⟨_, ih.2 ⟨hlegal, rfl⟩, (edit?_blocksOf_eq_some_iff hlegal).2 ⟨hlast, hafter⟩⟩

/-- In a run of edits, a new block gets the next id, and an edit changes no other block than its own. -/
theorem Legal.step (h : Legal edits) {k : Nat} (hk : edits[k]? = some edit) :
    ∃ before after, new.editAll? (edits.take k) = some before ∧ before.edit? edit = some after ∧
      new.editAll? (edits.take (k + 1)) = some after ∧
      before.newBlock.1 = ⟨blockCount (edits.take k)⟩ ∧
      ∀ i < before.blocks.size, edit.block? ≠ some ⟨i⟩ → after.blocks[i]? = before.blocks[i]? := by
  have hsucc : edits.take (k + 1) = edits.take k ++ [edit] := by
    rw [List.take_add_one, hk, Option.toList_some]
  obtain ⟨hbefore, hblock⟩ := legal_concat_iff.1 (hsucc ▸ h.take (k + 1))
  refine ⟨⟨blocksOf (edits.take k)⟩, ⟨blocksOf (edits.take (k + 1))⟩, ?_, ?_, ?_, ?_, ?_⟩
  · exact editAll?_eq_some_iff.2 ⟨hbefore, rfl⟩
  · rw [hsucc]
    exact (edit?_blocksOf_eq_some_iff hbefore).2 ⟨hblock, rfl⟩
  · exact editAll?_eq_some_iff.2 ⟨h.take (k + 1), rfl⟩
  · rw [newBlock, size_blocksOf]
  · intro i hi hne
    have hcount : blockCount (edits.take k) ≤ blockCount (edits.take (k + 1)) := by
      rw [hsucc, blockCount_concat]
      exact Nat.le_add_right _ _
    rw [size_blocksOf] at hi
    rw [getElem?_blocksOf, getElem?_blocksOf, if_pos hi, if_pos (Nat.lt_of_lt_of_le hi hcount), hsucc,
      blockOf_concat, Edit.change_of_ne hne]

/-! ## The finished graph -/

/-- The edges and ordinals that edits leave behind are those of a graph. -/
structure Consistent (edits : List Edit) : Prop where
  target_lt : ∀ b, b.index < blockCount edits →
    ∀ t ∈ (edgeOf edits b).targets, t.index < blockCount edits
  exit_edge : edgeOf edits ⟨1⟩ = .none
  ordinal_inj : ∀ b c, b.index < blockCount edits → c.index < blockCount edits →
    ordinalOf edits b = ordinalOf edits c → b = c
  /-- A handler is neither the start nor the exit. -/
  handler_ne : ∀ b, b.index < blockCount edits → ∀ h, (edgeOf edits b).handler? = some h →
    h ≠ ⟨0⟩ ∧ h ≠ ⟨1⟩
  /-- Only an exception enters a handler. -/
  handler_exclusive : ∀ b, b.index < blockCount edits → ∀ h, (edgeOf edits b).handler? = some h →
    ∀ c, c.index < blockCount edits → h ∉ (edgeOf edits c).normalTargets

/-- The graph has the blocks that edits leave behind. -/
structure Built (edits : List Edit) (g : FlowGraph) : Prop where
  start : g.start = ⟨0⟩
  exit : g.exit = ⟨1⟩
  size : g.size = blockCount edits
  block : ∀ b, b.index < blockCount edits → g.block? b = some {
    id := b, ordinal := ordinalOf edits b, kind := kindOf b, statements := statementsOf edits b
    edge := edgeOf edits b }

theorem kindOf_eq_start_iff : kindOf b = .start ↔ b = ⟨0⟩ := by
  unfold kindOf
  split_ifs <;> simp_all

theorem kindOf_eq_exit_iff : kindOf b = .exit ↔ b = ⟨1⟩ := by
  unfold kindOf
  split_ifs <;> simp_all

/-- One block is the start, and one the exit. -/
theorem countP_blocksOf {k : BlockKind} {b : BlockId} (hb : b.index < blockCount edits)
    (hk : ∀ c, kindOf c = k ↔ c = b) : (blocksOf edits).toList.countP (·.kind = k) = 1 := by
  have hcount := List.count_eq_one_of_mem List.nodup_range (List.mem_range.2 hb)
  unfold blocksOf
  rw [List.countP_map, ← hcount, List.count_eq_countP]
  refine List.countP_congr fun i _ => ?_
  simp only [Function.comp_apply, decide_eq_true_eq, beq_iff_eq]
  exact (hk ⟨i⟩).trans ⟨fun h => congrArg BlockId.index h, fun h => by rw [h]⟩

/-- The edges and ordinals of the blocks of a graph are consistent. -/
theorem consistent_of_wellFormed (h : WellFormed (blocksOf edits)) : Consistent edits := by
  have hcount := two_le_blockCount edits
  have hmem {b : BlockId} (hb : b.index < blockCount edits) : blockOf edits b ∈ blocksOf edits :=
    mem_blocksOf_iff.2 ⟨b, hb, rfl⟩
  refine ⟨fun b hb t ht => ?_, ?_, fun b c hb hc heq => ?_, fun b hb handler hh => ⟨?_, ?_⟩,
    fun b hb handler hh c hc => ?_⟩
  · have hlt := h.target_lt _ (hmem hb) t ht
    rwa [size_blocksOf] at hlt
  · exact h.exit_edge (blockOf edits ⟨1⟩) (hmem hcount) rfl
  · have hindex : b.index = c.index := by
      refine h.ordinal_inj b.index c.index (blockOf edits b) (blockOf edits c) ?_ ?_ heq
      · rw [getElem?_blocksOf, if_pos hb]
      · rw [getElem?_blocksOf, if_pos hc]
    cases b
    cases c
    cases hindex
    rfl
  · rintro rfl
    have hkind := h.handler_normal _ (hmem hb) ⟨0⟩ hh _ (hmem (Nat.lt_of_succ_lt hcount)) rfl
    cases hkind
  · rintro rfl
    have hkind := h.handler_normal _ (hmem hb) ⟨1⟩ hh _ (hmem hcount) rfl
    cases hkind
  · exact h.handler_exclusive _ (hmem hb) handler hh _ (hmem hc)

/-- Consistent edges and ordinals are all that it takes. -/
theorem Consistent.wellFormed (h : Consistent edits) : WellFormed (blocksOf edits) := by
  have hcount := two_le_blockCount edits
  have hget {i : Nat} {blk : Block} (hi : (blocksOf edits)[i]? = some blk) :
      i < blockCount edits ∧ blk = blockOf edits ⟨i⟩ := by
    rw [getElem?_blocksOf] at hi
    split at hi
    · next hlt => exact ⟨hlt, (Option.some_inj.1 hi).symm⟩
    · cases hi
  refine ⟨fun i blk hi => ?_, ?_, ?_, fun blk hblk hk => ?_, fun blk hblk t ht => ?_,
    fun i j blk blk' hi hj heq => ?_, fun blk hblk handler hh blk' hblk' hid => ?_,
    fun blk hblk handler hh blk' hblk' => ?_⟩
  · rw [(hget hi).2]
    rfl
  · exact countP_blocksOf (Nat.lt_of_succ_lt hcount) fun b => kindOf_eq_start_iff
  · exact countP_blocksOf hcount fun b => kindOf_eq_exit_iff
  · obtain ⟨b, -, rfl⟩ := mem_blocksOf_iff.1 hblk
    obtain rfl := kindOf_eq_exit_iff.1 hk
    exact h.exit_edge
  · obtain ⟨b, hb, rfl⟩ := mem_blocksOf_iff.1 hblk
    rw [size_blocksOf]
    exact h.target_lt b hb t ht
  · obtain ⟨hlt, rfl⟩ := hget hi
    obtain ⟨hlt', rfl⟩ := hget hj
    exact congrArg BlockId.index (h.ordinal_inj ⟨i⟩ ⟨j⟩ hlt hlt' heq)
  · obtain ⟨b, hb, rfl⟩ := mem_blocksOf_iff.1 hblk
    obtain ⟨c, -, rfl⟩ := mem_blocksOf_iff.1 hblk'
    obtain ⟨hstart, hexit⟩ := h.handler_ne b hb handler hh
    change c = handler at hid
    change kindOf c = .normal
    rw [hid, kindOf, if_neg hstart, if_neg hexit]
  · obtain ⟨b, hb, rfl⟩ := mem_blocksOf_iff.1 hblk
    obtain ⟨c, hc, rfl⟩ := mem_blocksOf_iff.1 hblk'
    exact h.handler_exclusive b hb handler hh c hc

/-- A graph with the blocks that edits leave behind. -/
theorem built_of_blocks_eq {g : FlowGraph} (h : g.blocks = blocksOf edits) : Built edits g := by
  have hblock (b : BlockId) (hb : b.index < blockCount edits) : g.block? b = some (blockOf edits b) := by
    unfold FlowGraph.block?
    rw [h, getElem?_blocksOf, if_pos hb]
  have hcount := two_le_blockCount edits
  refine ⟨?_, ?_, ?_, hblock⟩
  · exact ((FlowGraph.kind_eq_start_iff (hblock ⟨0⟩ (Nat.lt_of_succ_lt hcount))).1 rfl).symm
  · exact ((FlowGraph.kind_eq_exit_iff (hblock ⟨1⟩ hcount)).1 rfl).symm
  · unfold FlowGraph.size
    rw [h, size_blocksOf]

/-- The numbering, the one start and the one exit are never at fault. -/
theorem ne_of_fault? {e : GraphError} (h : WellFormed.fault? (blocksOf edits) = some e) (n : Nat)
    (id : BlockId) : e ≠ .misnumberedBlock n id ∧ e ≠ .startCount n ∧ e ≠ .exitCount n := by
  have hcount := two_le_blockCount edits
  have hholds := WellFormed.holds_of_fault? h
  refine ⟨?_, ?_, ?_⟩
  · rintro rfl
    obtain ⟨blk, hblk, rfl, hne⟩ := hholds
    rw [getElem?_blocksOf] at hblk
    split at hblk
    · cases hblk
      exact hne rfl
    · cases hblk
  · rintro rfl
    have hone : (blocksOf edits).toList.countP (·.kind = .start) = 1 :=
      countP_blocksOf (Nat.lt_of_succ_lt hcount) fun b => kindOf_eq_start_iff
    exact hholds.2 (hholds.1.symm.trans hone)
  · rintro rfl
    have hone : (blocksOf edits).toList.countP (·.kind = .exit) = 1 :=
      countP_blocksOf hcount fun b => kindOf_eq_exit_iff
    exact hholds.2 (hholds.1.symm.trans hone)

/-- What becomes of edits.  They can be made exactly if each is of a block that is there.  The blocks
that they leave behind are then numbered, with one start and one exit; if a graph comes of them, it has
for each block what was pushed to this block and set last for it, and one does exactly if the edges and
the ordinals are consistent.  On the way, a new block gets the next id, and an edit changes no other
block than its own. -/
theorem finish_built (edits : List Edit) :
    ((∃ builder, new.editAll? edits = some builder) ↔ Legal edits) ∧
    ∀ builder, new.editAll? edits = some builder →
      (∀ e, builder.finish = .error e → ∀ n id,
        e ≠ .misnumberedBlock n id ∧ e ≠ .startCount n ∧ e ≠ .exitCount n) ∧
      (∀ g, builder.finish = .ok g → Built edits g) ∧
      ((∃ g, builder.finish = .ok g) ↔ Consistent edits) ∧
      ∀ k edit, edits[k]? = some edit → ∃ before after,
        new.editAll? (edits.take k) = some before ∧ before.edit? edit = some after ∧
        new.editAll? (edits.take (k + 1)) = some after ∧
        before.newBlock.1 = ⟨blockCount (edits.take k)⟩ ∧
        ∀ i < before.blocks.size, edit.block? ≠ some ⟨i⟩ → after.blocks[i]? = before.blocks[i]? := by
  refine ⟨?_, fun builder h => ?_⟩
  · constructor
    · rintro ⟨builder, h⟩
      exact (editAll?_eq_some_iff.1 h).1
    · intro hlegal
      exact ⟨_, editAll?_eq_some_iff.2 ⟨hlegal, rfl⟩⟩
  · obtain ⟨hlegal, rfl⟩ := editAll?_eq_some_iff.1 h
    refine ⟨fun e he => ?_, fun g hg => ?_, ?_, fun k edit hk => hlegal.step hk⟩
    · exact ne_of_fault? (FlowGraph.fault?_of_ofBlocks he)
    · exact built_of_blocks_eq (FlowGraph.blocks_of_ofBlocks hg)
    · exact FlowGraph.exists_ofBlocks_iff.trans ⟨consistent_of_wellFormed, Consistent.wellFormed⟩

/-- A block that is led to before it is there, and whose edge and statements are set in turns. -/
def forwarded : List Edit :=
  [.goto ⟨0⟩ ⟨2⟩, .newBlock, .setOrdinal ⟨2⟩ 7, .push ⟨2⟩ .declare, .goto ⟨2⟩ ⟨3⟩, .newBlock,
    .push ⟨3⟩ (.ret none), .push ⟨2⟩ (.empty none), .goto ⟨2⟩ ⟨1⟩]

/-- The block has both statements and its last edge, and the edits behind it left the start alone. -/
theorem forwarded_built : ∃ builder g, new.editAll? forwarded = some builder ∧
    builder.finish = .ok g ∧ g.start = ⟨0⟩ ∧ g.size = 4 ∧
    g.block? ⟨2⟩ = some { id := ⟨2⟩, ordinal := 7, kind := .normal
                          statements := [.declare, .empty none], edge := .goto ⟨1⟩ } ∧
    ∃ before after, new.editAll? (forwarded.take 5) = some before ∧
      before.edit? .newBlock = some after ∧ before.newBlock.1 = ⟨3⟩ ∧
      after.blocks[0]? = before.blocks[0]? := by
  obtain ⟨-, hmade⟩ := finish_built forwarded
  have hedits : new.editAll? forwarded = some ⟨blocksOf forwarded⟩ := rfl
  obtain ⟨-, hbuilt, -, hstep⟩ := hmade _ hedits
  have hwf : WellFormed (blocksOf forwarded) := wellFormed_of_fault?_eq_none (by decide)
  obtain ⟨g, hg⟩ := FlowGraph.exists_ofBlocks_iff.2 hwf
  have hfinish := hbuilt g hg
  obtain ⟨before, after, hbefore, hafter, -, hnext, hothers⟩ := hstep 5 .newBlock rfl
  have hstart := hothers 0 (by cases hbefore; decide) nofun
  exact ⟨_, g, hedits, hg, hfinish.start, hfinish.size, hfinish.block ⟨2⟩ (by decide), before, after,
    hbefore, hafter, hnext, hstart⟩

end GraphBuilder

end StackCode
