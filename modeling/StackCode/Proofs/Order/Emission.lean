import StackCode.Proofs.Graph.Agreement
import StackCode.Proofs.Graph.DepthFirst
import StackCode.Proofs.Order.Plans
import StackCode.Proofs.Refusal.Refused

/-!
# Emission orders

The arrangements to choose from rearrange whatever blocks of a graph they are given, and do not depend
on the order in which they are given: the ordinals tell the blocks apart, and a traversal does not look
at the list.  What any other strategy answers is checked, and the check accepts exactly the
rearrangements; of these it keeps the order, except that the start is moved to the front and the exit
to the end.  So a procedure is refused for its order exactly if the strategy does not rearrange the
blocks that need code.  Main statement: `FlowGraph.emissionOrder_spec`.
-/

namespace StackCode

/-! ## The arrangements to choose from -/

namespace FlowGraph

variable {g : FlowGraph} {ids ids' : List BlockId}

/-- Sorting blocks does not depend on the order in which they are given. -/
theorem sortByOrdinal_eq_of_perm (hids : ∀ b ∈ ids, b ∈ g.ids) (hperm : ids'.Perm ids) :
    g.sortByOrdinal ids' = g.sortByOrdinal ids := by
  have hmem : ∀ b ∈ g.sortByOrdinal ids, b ∈ g.ids := by
    intro b hb
    exact hids b ((g.perm_sortByOrdinal ids).mem_iff.1 hb)
  have hsorted : (g.sortByOrdinal ids').Perm (g.sortByOrdinal ids) := by
    apply (g.perm_sortByOrdinal ids').trans
    exact hperm.trans (g.perm_sortByOrdinal ids).symm
  refine List.Perm.eq_of_pairwise ?_ (g.pairwise_sortByOrdinal ids') (g.pairwise_sortByOrdinal ids)
    hsorted
  intro a b ha hb hab hba
  exact eq_of_ordinal (hmem a (hsorted.mem_iff.1 ha)) (hmem b hb) (Nat.le_antisymm hab hba)

end FlowGraph

/-- No arrangement to choose from depends on the order in which the blocks are given. -/
theorem BlockOrder.arrange_eq_of_perm {g : FlowGraph} {ids ids' : List BlockId} (order : BlockOrder)
    (hids : ∀ b ∈ ids, b ∈ g.ids) (hperm : ids'.Perm ids) :
    order.arrange g ids' = order.arrange g ids := by
  cases order with
  | ordinal => exact FlowGraph.sortByOrdinal_eq_of_perm hids hperm
  | reversePostorder =>
    have hplaced : g.reversePostorder.filter (· ∈ ids') = g.reversePostorder.filter (· ∈ ids) := by
      apply List.filter_congr
      intro b _
      simp only [hperm.mem_iff]
    unfold arrange
    simp only
    rw [hplaced]
    congr 1
    apply FlowGraph.sortByOrdinal_eq_of_perm
    · intro b hb
      exact hids b (List.mem_filter.1 hb).1
    · exact hperm.filter _

/-! ## Procedures -/

/-- Suspension points are refused for their indices alone. -/
theorem ResumePlan.make_ne_invalidEmitOrder {indices : List Int} {labels labels' : LabelTable} :
    make indices labels ≠ (.error .invalidEmitOrder, labels') := by
  have hindex (expected : Int) (previous : Option Int) (index : Int) :
      indexFault? expected previous index ≠ some .invalidEmitOrder := by
    unfold indexFault?
    split_ifs <;> simp
  have hfirst (expected : Int) (previous : Option Int) (indices : List Int) :
      firstFault? expected previous indices ≠ some .invalidEmitOrder := by
    induction indices generalizing expected previous with
    | nil => simp [firstFault?]
    | cons index rest ih =>
      unfold firstFault?
      split
      · next e he =>
        intro heq
        exact hindex expected previous index (he.trans heq)
      · exact ih (expected + 1) (some index)
  exact fun h => hfirst 1 none _ (make_eq_error h).1

/-- A plan is refused for the order only where there is none. -/
theorem Plan.emissionOrder_eq_none {p : Procedure} {options : Options} {strategy : LayoutStrategy}
    (h : make p options strategy = .error .invalidEmitOrder) :
    p.graph.emissionOrder strategy p.liveBlocks = none := by
  rcases make_eq_error h with ⟨horder, -⟩ | ⟨_, _, hresume⟩
  · exact horder
  · exact absurd hresume ResumePlan.make_ne_invalidEmitOrder

/-- A procedure is refused for its order exactly if the blocks that need code are not rearranged. -/
theorem Procedure.lowerInto_invalidEmitOrder_iff {p : Procedure} {options : Options}
    {strategy : LayoutStrategy} {code : Array Instr} :
    (p.lowerInto options strategy code).2 = .error .invalidEmitOrder ↔
      ¬ (strategy p.graph p.liveBlocks).Perm p.liveBlocks := by
  rw [← FlowGraph.isSome_emissionOrder_iff p.nodup_liveBlocks, Option.not_isSome_iff_eq_none]
  constructor
  · intro h
    unfold lowerInto at h
    cases hmake : Plan.make p options strategy with
    | error e =>
      rw [hmake] at h
      cases h
      exact Plan.emissionOrder_eq_none hmake
    | ok made =>
      -- what is wrong with the code of a plan is not its order
      obtain ⟨c, labels⟩ := made
      rw [hmake] at h
      obtain ⟨hsize, hblank⟩ := Plan.labels_of_make hmake
      have hpermits := Plan.permits_of_appendTo (Plan.made_of_make hmake) hsize hblank
        (Prod.ext rfl h)
      cases hpermits.planned
  · intro hnone
    unfold lowerInto Plan.make
    rw [hnone]

namespace FlowGraph

/-- What the orders of the blocks are.  An arrangement to choose from rearranges the blocks that it is
given, whatever their order.  What a strategy answers is an order exactly if it is a rearrangement; then
the start comes first, the exit last, and the rest as the strategy has it.  So with an arrangement to
choose from, no procedure is refused for its order. -/
theorem emissionOrder_spec (g : FlowGraph) :
    (∀ (order : BlockOrder) (ids : List BlockId), ids.Nodup → (∀ b ∈ ids, b ∈ g.ids) →
      (order.arrange g ids).Perm ids ∧
        ∀ ids', ids'.Perm ids → order.arrange g ids' = order.arrange g ids) ∧
    (∀ (strategy : LayoutStrategy) (ids : List BlockId), ids.Nodup → g.start ∈ ids → g.exit ∈ ids →
      ((g.emissionOrder strategy ids).isSome = true ↔ (strategy g ids).Perm ids) ∧
        ∀ order, g.emissionOrder strategy ids = some order → order.Perm ids ∧
          ∃ mid, order = g.start :: (mid ++ [g.exit]) ∧ mid.Sublist (strategy g ids)) ∧
    ∀ (p : Procedure) (options : Options) (order : BlockOrder) (code : Array Instr), p.graph = g →
      (p.lowerInto options order.arrange code).2 ≠ .error .invalidEmitOrder := by
  refine ⟨?_, ?_, ?_⟩
  · intro order ids hnodup hids
    exact ⟨order.rearranges g ids hnodup, fun ids' hperm => order.arrange_eq_of_perm hids hperm⟩
  · intro strategy ids hnodup hstart hexit
    exact ⟨isSome_emissionOrder_iff hnodup, fun order h => ends_of_emissionOrder hnodup hstart hexit h⟩
  · intro p options order code _ h
    apply Procedure.lowerInto_invalidEmitOrder_iff.1 h
    exact order.rearranges p.graph p.liveBlocks p.nodup_liveBlocks

/-- The block that no edge leads to follows the others, wherever it was given; and a strategy that puts
the exit first is accepted, while one that forgets a block is not. -/
theorem winding_emissionOrder :
    BlockOrder.reversePostorder.arrange winding [⟨5⟩, ⟨4⟩, ⟨3⟩, ⟨2⟩, ⟨1⟩, ⟨0⟩] =
        [⟨0⟩, ⟨2⟩, ⟨3⟩, ⟨1⟩, ⟨4⟩, ⟨5⟩] ∧
      (winding.emissionOrder (fun _ ids => ids.reverse) winding.ids).isSome = true ∧
      (winding.emissionOrder (fun _ ids => ids.tail) winding.ids).isSome = false := by
  obtain ⟨harrange, horder, -⟩ := winding.emissionOrder_spec
  have hids : winding.ids = [⟨0⟩, ⟨1⟩, ⟨2⟩, ⟨3⟩, ⟨4⟩, ⟨5⟩] := by decide
  obtain ⟨-, hsame⟩ := harrange .reversePostorder winding.ids winding.nodup_ids fun _ => id
  have hends : winding.start ∈ winding.ids ∧ winding.exit ∈ winding.ids := by decide
  refine ⟨?_, ?_, ?_⟩
  · rw [hsame _ (by rw [hids]; decide)]
    cbv
  · exact (horder _ winding.ids winding.nodup_ids hends.1 hends.2).1.2 (List.reverse_perm _)
  · rw [Bool.eq_false_iff, Ne, (horder _ winding.ids winding.nodup_ids hends.1 hends.2).1]
    intro hperm
    cases hperm.length_eq

end FlowGraph

end StackCode
