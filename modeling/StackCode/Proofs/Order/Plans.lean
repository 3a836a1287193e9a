import StackCode.Proofs.Layout.Drafted
import StackCode.Proofs.Refusal.Ledger

/-!
# Plans that differ in the order of the blocks

Two ways to arrange the blocks, such as those to choose from (`BlockOrder.rearranges`), make two plans
of one procedure, and one exactly if the other (`Plan.exists_make`).  Where regions with the same
handler agree on the exception, the plans have the same outline, the same labels to allot, and control
gets to the same blocks and edges in both; what is known of the blocks of one plan is known of those of
the other (`Plan.Rearranged`).
-/

namespace StackCode

/-! ## Arrangements -/

/-- What the strategy answers are the blocks that it is given, of which none is given twice. -/
def LayoutStrategy.Rearranges (σ : LayoutStrategy) : Prop := ∀ g ids, ids.Nodup → (σ g ids).Perm ids

theorem FlowGraph.perm_sortByOrdinal (g : FlowGraph) (ids : List BlockId) :
    (g.sortByOrdinal ids).Perm ids := List.mergeSort_perm _ _

/-- The arrangements to choose from are rearrangements. -/
theorem BlockOrder.rearranges (order : BlockOrder) : order.arrange.Rearranges := by
  intro g ids hnodup
  cases order with
  | ordinal => exact g.perm_sortByOrdinal ids
  | reversePostorder =>
    unfold arrange
    simp only
    generalize hplaced : g.reversePostorder.filter (· ∈ ids) = placed
    have hmem : ∀ b ∈ placed, b ∈ ids := fun b hb => by
      rw [← hplaced] at hb
      exact of_decide_eq_true (List.mem_filter.1 hb).2
    have hrest (b : BlockId) : b ∈ g.sortByOrdinal (ids.filter (· ∉ placed)) ↔ b ∈ ids ∧ b ∉ placed := by
      rw [(g.perm_sortByOrdinal _).mem_iff, List.mem_filter, decide_eq_true_eq]
    refine (List.perm_ext_iff_of_nodup (List.nodup_append'.2 ⟨?_, ?_, ?_⟩) hnodup).2 fun b => ?_
    · exact hplaced ▸ g.nodup_reversePostorder.filter _
    · exact (g.perm_sortByOrdinal _).nodup_iff.2 (hnodup.filter _)
    · exact fun b hb hb' => ((hrest b).1 hb').2 hb
    · rw [List.mem_append, hrest b]
      by_cases hb : b ∈ placed
      · exact ⟨fun _ => hmem b hb, fun _ => .inl hb⟩
      · exact ⟨fun h => (h.resolve_left hb).1, fun h => .inr ⟨h, hb⟩⟩

/-- Regions with the same handler do the same with the exception. -/
def FlowGraph.HandlersAgree (g : FlowGraph) : Prop :=
  ∀ b ∈ g.blocks, ∀ b' ∈ g.blocks, ∀ body body' handler exception exception',
    b.edge = .protect body handler exception → b'.edge = .protect body' handler exception' →
      exception = exception'

/-- Lists with the same members have as many different ones. -/
theorem length_eraseDups_eq {α : Type} [BEq α] [LawfulBEq α] {xs ys : List α}
    (h : ∀ x, x ∈ xs ↔ x ∈ ys) : xs.eraseDups.length = ys.eraseDups.length := by
  refine ((List.perm_ext_iff_of_nodup (nodup_eraseDups xs) (nodup_eraseDups ys)).2 fun x => ?_).length_eq
  rw [List.mem_eraseDups, List.mem_eraseDups]
  exact h x

namespace Plan

variable {p : Procedure} {options : Options} {σ τ : LayoutStrategy} {c c' : Plan}
  {labels labels' : LabelTable}

/-- A strategy that rearranges the blocks is not refused. -/
theorem exists_emissionOrder (hτ : τ.Rearranges) :
    ∃ order, p.graph.emissionOrder τ p.liveBlocks = some order := by
  have hperm := hτ p.graph _ p.nodup_liveBlocks
  exact Option.isSome_iff_exists.1
    ((FlowGraph.isSome_emissionOrder_iff p.nodup_liveBlocks).2 hperm)

/-- The blocks of two orders are the same. -/
theorem perm_of_emissionOrder {order order' : List BlockId}
    (h : p.graph.emissionOrder σ p.liveBlocks = some order)
    (h' : p.graph.emissionOrder τ p.liveBlocks = some order') : order'.Perm order := by
  obtain ⟨_, -, hnodup, hmem⟩ := emissionOrder_eq_some h
  obtain ⟨_, -, hnodup', hmem'⟩ := emissionOrder_eq_some h'
  exact (List.perm_ext_iff_of_nodup hnodup' hnodup).2 fun b => (hmem' b).trans (hmem b).symm

theorem length_targetsOf {bs bs' : List Block} (h : bs'.Perm bs) :
    (targetsOf bs').length = (targetsOf bs).length :=
  length_eraseDups_eq fun t => by simp only [List.mem_flatMap, h.mem_iff]

/-! ## What does not depend on the order -/

/-- Two plans of one procedure that differ in the order of the blocks at most. -/
structure Rearranged (c c' : Plan) : Prop where
  procedure : c'.procedure = c.procedure
  options : c'.options = c.options
  blocks : c'.blocks.Perm c.blocks
  resume : c'.resume = c.resume
  labelled : c'.labelled.length = c.labelled.length
  caught : ∀ h, c'.caught? h = c.caught? h

/-- What is done with the exception does not depend on which region decides. -/
theorem caught?_eq_of_agree (hagree : c.procedure.graph.HandlersAgree)
    (hc : ∀ b ∈ c.blocks, b ∈ c.procedure.graph.blocks) (hblocks : c'.blocks.Perm c.blocks)
    (h : BlockId) : c'.caught? h = c.caught? h := by
  have hregion {b : Block} {exception : Option LocalId} (hb : exceptionOf? h b = some exception) :
      ∃ body, b.edge = .protect body h exception := by
    unfold exceptionOf? at hb
    split at hb
    · next body handler exception' hedge =>
      split at hb
      · next hh =>
        cases hb
        exact ⟨body, hh ▸ hedge⟩
      · cases hb
    · cases hb
  have hsame {b b' : Block} {e e' : Option LocalId} (hb : b ∈ c.blocks) (hb' : b' ∈ c.blocks)
      (he : exceptionOf? h b = some e) (he' : exceptionOf? h b' = some e') : e = e' := by
    obtain ⟨body, hedge⟩ := hregion he
    obtain ⟨body', hedge'⟩ := hregion he'
    exact hagree b (hc b hb) b' (hc b' hb') body body' h e e' hedge hedge'
  unfold caught?
  cases hfound : c.blocks.reverse.findSome? (exceptionOf? h) with
  | none =>
    rw [List.findSome?_eq_none_iff] at hfound ⊢
    exact fun b hb => hfound b (List.mem_reverse.2 (hblocks.mem_iff.1 (List.mem_reverse.1 hb)))
  | some e =>
    obtain ⟨b, hb, he⟩ := List.exists_of_findSome?_eq_some hfound
    have hb := List.mem_reverse.1 hb
    cases hfound' : c'.blocks.reverse.findSome? (exceptionOf? h) with
    | none =>
      rw [List.findSome?_eq_none_iff] at hfound'
      rw [hfound' b (List.mem_reverse.2 (hblocks.mem_iff.2 hb))] at he
      cases he
    | some e' =>
      obtain ⟨b', hb', he'⟩ := List.exists_of_findSome?_eq_some hfound'
      rw [hsame (hblocks.mem_iff.1 (List.mem_reverse.1 hb')) hb he' he]

/-- A plan is made of one arrangement exactly if it is made of another, with the same labels. -/
theorem exists_make (hagree : p.graph.HandlersAgree) (hτ : τ.Rearranges)
    (h : make p options σ = .ok (c, labels)) :
    ∃ c', make p options τ = .ok (c', labels) ∧ c.Rearranged c' := by
  have hmade := made_of_make h
  obtain ⟨order, horder, hp, hoptions, hblocks, hlabelled, hresume⟩ := make_eq_ok h
  obtain ⟨order', horder'⟩ := exists_emissionOrder hτ
  have hperm : (order'.filterMap p.graph.block?).Perm c.blocks :=
    hblocks ▸ (perm_of_emissionOrder horder horder').filterMap _
  have hlength : (targetsOf (order'.filterMap p.graph.block?)).length = c.labelled.length := by
    rw [hlabelled]
    exact length_targetsOf hperm
  have hagree' : c.procedure.graph.HandlersAgree := hp ▸ hagree
  have hmem : ∀ b ∈ c.blocks, b ∈ c.procedure.graph.blocks := fun b hb =>
    FlowGraph.mem_blocks_of_block? (hmade.block? b hb)
  -- the other plan
  let c' : Plan := { procedure := p, options, blocks := order'.filterMap p.graph.block?
                     labelled := targetsOf (order'.filterMap p.graph.block?), resume := c.resume }
  refine ⟨c', ?_, ⟨hp.symm, hoptions.symm, hperm, rfl, hlength, caught?_eq_of_agree hagree' hmem hperm⟩⟩
  unfold make
  rw [horder']
  simp only [hlength]
  cases hgen : p.isGenerator with
  | true =>
    rw [hgen, if_pos rfl] at hresume
    rw [hresume]
    rfl
  | false =>
    rw [hgen, if_neg Bool.false_ne_true] at hresume
    rw [← hresume.1, hresume.2]
    rfl

namespace Rearranged

variable (h : c.Rearranged c')
include h

theorem outline_eq : c'.outline = c.outline := by
  unfold outline
  rw [h.procedure, h.options, funext h.caught]

theorem bound_eq : c'.bound = c.bound := by
  unfold bound
  rw [h.labelled, h.resume]

theorem entry_eq : c'.entry = c.entry := by
  obtain ⟨hp, ho, -, hr, -, -⟩ := h
  cases c
  cases c'
  cases hp
  cases ho
  cases hr
  rfl

theorem dispatchLabels_eq : c'.dispatchLabels = c.dispatchLabels := by
  unfold dispatchLabels
  rw [h.procedure]

theorem ownLabelsIn_eq : ownLabelsIn c'.blocks = ownLabelsIn c.blocks :=
  (h.blocks.map _).sum_nat

theorem returnsIn_eq : returnsIn c'.blocks = returnsIn c.blocks := h.blocks.any_eq

theorem writes (hwrites : c.Writes) : c'.Writes where
  block b hb := by
    rw [h.outline_eq]
    exact hwrites.block b (h.blocks.mem_iff.1 hb)
  init := by
    rw [h.procedure]
    exact hwrites.init

theorem finds {s : Stmt} (hfinds : c.Finds s) : c'.Finds s := by
  unfold Finds at hfinds ⊢
  rwa [h.procedure, h.outline_eq]

theorem findsThrough {live : Bool} {ss : List Stmt} (hfinds : c.FindsThrough live ss) :
    c'.FindsThrough live ss := by
  induction ss generalizing live with
  | nil => trivial
  | cons s ss ih => exact ⟨fun hlive => h.finds (hfinds.1 hlive), ih hfinds.2⟩

section
variable (hmade : c.Made) (hmade' : c'.Made)
include hmade hmade'

theorem isLabelled_eq (t : BlockId) : c'.isLabelled t = c.isLabelled t := by
  refine Bool.eq_iff_iff.2 (hmade'.isSome_label?_iff.trans ?_)
  rw [show (c.isLabelled t = true) ↔ _ from hmade.isSome_label?_iff]
  simp only [h.blocks.mem_iff]

theorem reachesEdge_eq (b : Block) : c'.reachesEdge b = c.reachesEdge b := by
  unfold reachesEdge
  rw [h.isLabelled_eq hmade hmade']

theorem reachesExit_eq : c'.reachesExit = c.reachesExit := by
  unfold reachesExit
  simp only [h.reachesEdge_eq hmade hmade', h.procedure]
  exact h.blocks.any_eq

theorem reachesBlock_eq (b : Block) : c'.reachesBlock b = c.reachesBlock b := by
  unfold reachesBlock
  rw [h.isLabelled_eq hmade hmade', h.reachesExit_eq hmade hmade']

theorem steady (hsteady : c.Steady) : c'.Steady where
  statements b hb := by
    rw [h.reachesBlock_eq hmade hmade']
    exact h.findsThrough (hsteady.statements b (h.blocks.mem_iff.1 hb))
  edge b hb hk hreach := by
    have hfinds := hsteady.edge b (h.blocks.mem_iff.1 hb) hk (h.reachesEdge_eq hmade hmade' b ▸ hreach)
    unfold FindsEdge at hfinds ⊢
    rwa [h.procedure]

theorem dangles {b : Block} (hb : c'.Dangles b) : c.Dangles b :=
  ⟨h.blocks.mem_iff.1 hb.1, hb.2.1, h.reachesEdge_eq hmade hmade' b ▸ hb.2.2.1, hb.2.2.2⟩

end

end Rearranged

end Plan

end StackCode
