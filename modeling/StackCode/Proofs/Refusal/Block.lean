import Mathlib.Data.List.Flatten
import StackCode.Proofs.Refusal.Entry

/-!
# The account of a whole draft

Before the first block nothing has been placed, and every label of the plan is owed by exactly one
block: the label of the block itself, and the resume labels behind its suspension points
(`Plan.keeps_of_make`).  Every block pays what it owes, and the last one is the exit.  Main statement:
`Plan.draft_meets`.
-/

namespace StackCode

namespace Plan

variable {c : Plan} {todo : List Label} {v : Bool} {b : Block}

/-! ## Blocks -/

/-- The labels that the code of a block places. -/
def owedByBlock (c : Plan) (b : Block) : List Label :=
  (c.label? b.id).toList ++ b.statements.flatMap c.owedBy

/-- How control comes to a block by itself. -/
def Arrives (c : Plan) (v : Bool) (b : Block) : Prop :=
  v = true → c.reachesBlock b = true ∧ c.caught? b.id = none

/-- Nothing is caught at the start. -/
theorem arrives_start (hmade : c.Made) (hb : b ∈ c.blocks) (hk : b.kind = .start) :
    c.Arrives v b := by
  refine fun _ => ⟨?_, ?_⟩
  · simp [reachesBlock, hk]
  · by_contra hne
    obtain ⟨⟨b', hb', hid, hk'⟩, -⟩ := hmade.handler (Option.isSome_iff_ne_none.2 hne)
    obtain rfl : b' = b := Option.some_inj.1
      ((hmade.block? b' hb').symm.trans (hid ▸ hmade.block? b hb))
    rw [hk] at hk'
    cases hk'

/-- What stands in front of the statements of a block. -/
theorem openBlock_meets (hmade : c.Made) (hb : b ∈ c.blocks) (harrives : c.Arrives v b)
    (hstart : b.kind = .start → v = true) :
    (c.openBlock b).Meets c.Permits
      (c.At (c.Books ((c.label? b.id).toList ++ todo) Frame.Tidy) v 0) fun _ =>
        c.At (c.Books todo Frame.Tidy) (c.reachesBlock b) 0 := by
  rw [openBlock_eq]
  refine Draft.Meets.seq (Q := c.At (c.Books ((c.label? b.id).toList ++ todo) Frame.Tidy) v 0) ?_
    (enterBlock_meets hmade hb harrives)
  split
  · next hk =>
    rw [hstart hk]
    exact entry_meets hmade
  · exact .pure fun _ _ => id

/-- What stands in front of the edge of a block. -/
theorem blockBody_meets (hmade : c.Made) (hb : b ∈ c.blocks) (harrives : c.Arrives v b)
    (hstart : b.kind = .start → v = true) {x : Draft Unit} {Q : Unit → Frame → Flow → Prop}
    (hx : x.Meets c.Permits (c.At (c.Books todo Frame.Tidy)
      (Stmt.liveThrough (c.reachesBlock b) b.statements) 0) Q) :
    (c.openBlock b >>= fun _ => b.statements.forM c.statement >>= fun _ => x : Draft Unit).Meets
      c.Permits (c.At (c.Books (c.owedByBlock b ++ todo) Frame.Tidy) v 0) Q := by
  unfold owedByBlock
  rw [List.append_assoc]
  refine (openBlock_meets hmade hb harrives hstart).seq ?_
  exact (statements_meet hmade hb (fun _ => id) fun hsteady => hsteady.statements b hb).seq hx

/-- Control comes from a block to the one whose code follows only over its edge. -/
def falls (c : Plan) (b next : Block) : Bool :=
  c.reachesEdge b && decide (next.id ∈ b.edge.normalTargets)

theorem arrives_falls (hmade : c.Made) (hb : b ∈ c.blocks) (hk : b.kind ≠ .exit) {next : Block}
    (hnext : next ∈ c.blocks) : c.Arrives (c.falls b next) next := by
  intro hfalls
  rw [falls, Bool.and_eq_true, decide_eq_true_eq] at hfalls
  exact ⟨reachesBlock_of_edge hmade hb hk hfalls.1 hnext (Edge.mem_targets_iff.2 (.inl hfalls.2)),
    hmade.caught?_eq_none hb hfalls.2⟩

theorem innerBlock_meets (hmade : c.Made) (hb : b ∈ c.blocks) (hk : b.kind ≠ .exit)
    (harrives : c.Arrives v b) (hstart : b.kind = .start → v = true) (next : Block) :
    (c.block b (some next.id)).Meets c.Permits
      (c.At (c.Books (c.owedByBlock b ++ todo) Frame.Tidy) v 0) fun _ =>
        c.At (c.Books todo Frame.Tidy) (c.falls b next) 0 := by
  rw [block_eq_openBlock]
  refine blockBody_meets hmade hb harrives hstart ?_
  rw [← reachesEdge_eq hk]
  unfold blockEnd
  rw [if_neg hk]
  refine edge_meets hmade hb hk (fun hsteady => hsteady.edge b hb hk) fun t ht hreach hnext => ?_
  obtain rfl := Option.some_inj.1 hnext
  simp [falls, hreach, ht]

theorem exitBlock_meets (hmade : c.Made) (hb : b ∈ c.blocks) (hk : b.kind = .exit)
    (harrives : c.Arrives v b) (next : Option BlockId) :
    (c.block b next).Meets c.Permits (c.At (c.Books (c.owedByBlock b) Frame.Tidy) v 0) fun _ =>
      c.Done := by
  rw [block_eq_openBlock, ← List.append_nil (c.owedByBlock b)]
  refine blockBody_meets hmade hb harrives (fun h => by rw [hk] at h; cases h) ?_
  unfold blockEnd
  rw [if_pos hk]
  exact exit_meets

/-- Blocks one after the other, the last of them the exit. -/
theorem blocksFrom_meets (hmade : c.Made) (front : List Block) {last : Block}
    (hfront : ∀ b ∈ front, b ∈ c.blocks ∧ b.kind = .normal) (hlast : last ∈ c.blocks)
    (hexit : last.kind = .exit)
    (harrives : ∀ b, (front ++ [last]).head? = some b → c.Arrives v b) :
    (c.blocksFrom (front ++ [last])).Meets c.Permits
      (c.At (c.Books ((front ++ [last]).flatMap c.owedByBlock) Frame.Tidy) v 0) fun _ => c.Done := by
  induction front generalizing v with
  | nil =>
    rw [List.nil_append, List.flatMap_cons, List.flatMap_nil, List.append_nil]
    exact (exitBlock_meets hmade hlast hexit (harrives last rfl) none).seq (.pure fun _ _ => id)
  | cons b front ih =>
    obtain ⟨⟨hb, hk⟩, hfront⟩ := List.forall_mem_cons.1 hfront
    obtain ⟨next, rest, hrest⟩ : ∃ next rest, front ++ [last] = next :: rest := by
      cases front with
      | nil => exact ⟨last, [], rfl⟩
      | cons next front => exact ⟨next, front ++ [last], rfl⟩
    have hnext : next ∈ c.blocks := by
      have hmem : next ∈ front ++ [last] := hrest ▸ List.mem_cons_self
      rcases List.mem_append.1 hmem with hmem | hmem
      · exact (hfront next hmem).1
      · exact List.mem_singleton.1 hmem ▸ hlast
    have hk' : b.kind ≠ .exit := by rw [hk]; nofun
    have ih := ih (v := c.falls b next) hfront fun b' hb' => by
      rw [hrest] at hb'
      cases hb'
      exact arrives_falls hmade hb hk' hnext
    rw [List.cons_append, List.flatMap_cons, hrest]
    rw [hrest] at ih
    exact (innerBlock_meets hmade hb hk' (harrives b rfl) (fun h => by rw [hk] at h; cases h) next).seq ih

/-- The slots of the debugger's views are handed back one after the other. -/
theorem releaseViews_meets (views : List (Name × TempSlot)) :
    (views.forM fun view => Draft.releaseTemp view.2).Meets c.Permits
      (c.At (Settled (·.Viewing (views.map Prod.snd))) v 0) fun _ =>
        c.At (Settled (·.Viewing [])) v 0 := by
  induction views with
  | nil => exact .pure fun _ _ => id
  | cons view views ih =>
    refine Draft.Meets.seq (releaseTemp_meets_of fun frame labels staged h => ?_) ih
    have hviews := h.2
    rw [List.map_cons] at hviews
    obtain ⟨hnot, hnodup⟩ := List.nodup_cons.1 hviews.nodup
    obtain ⟨temps, hrelease, hinUse⟩ :=
      TempPool.exists_tryRelease ((hviews.inUse_iff view.2).2 List.mem_cons_self)
    refine ⟨temps, hrelease, h.1, fun s => ?_, hnodup⟩
    change temps.inUse s = true ↔ _
    rw [hinUse, hviews.inUse_iff, List.mem_cons]
    constructor
    · rintro ⟨hne, heq | hmem⟩
      · exact absurd heq hne
      · exact hmem
    · intro hmem
      exact ⟨fun heq => hnot (heq ▸ hmem), .inr hmem⟩

theorem releaseDebugLocals_meets :
    releaseDebugLocals.Meets c.Permits c.Done fun _ => c.At (Settled (·.Viewing [])) false 0 := by
  unfold releaseDebugLocals
  refine .getFrame fun frame => (releaseViews_meets (c := c) (v := false) frame.debugLocals).strengthen ?_
  rintro frame' f ⟨rfl, h⟩
  exact h

/-- What a finished draft leaves behind. -/
theorem draft_meets (hmade : c.Made) :
    c.draft.Meets c.Permits (c.At (c.Books (c.blocks.flatMap c.owedByBlock) Frame.Tidy) true 0)
      fun _ => c.At (Settled (·.Viewing [])) false 0 := by
  obtain ⟨first, mid, last, hblocks, hstart, hexit, hmid⟩ := hmade.blocks_eq
  have hmem {b : Block} (hb : b ∈ first :: (mid ++ [last])) : b ∈ c.blocks := hblocks ▸ hb
  have hfirst : first ∈ c.blocks := hmem List.mem_cons_self
  have hk : first.kind ≠ .exit := by rw [hstart]; nofun
  obtain ⟨next, rest, hrest⟩ : ∃ next rest, mid ++ [last] = next :: rest := by
    cases mid with
    | nil => exact ⟨last, [], rfl⟩
    | cons next mid => exact ⟨next, mid ++ [last], rfl⟩
  have hnext : next ∈ c.blocks := hmem (List.mem_cons_of_mem _ (hrest ▸ List.mem_cons_self))
  have hothers := blocksFrom_meets (v := c.falls first next) hmade mid
    (fun b hb => ⟨hmem (List.mem_cons_of_mem _ (List.mem_append_left _ hb)), hmid b hb⟩)
    (hmem (List.mem_cons_of_mem _ (List.mem_append_right _ (List.mem_singleton.2 rfl)))) hexit
    fun b hb => by
      rw [hrest] at hb
      cases hb
      exact arrives_falls hmade hfirst hk hnext
  unfold draft
  rw [hblocks, List.flatMap_cons]
  refine Draft.Meets.seq (Q := c.Done) ?_ releaseDebugLocals_meets
  rw [hrest] at hothers ⊢
  exact (innerBlock_meets hmade hfirst hk (arrives_start hmade hfirst hstart) (fun _ => rfl) next).seq
    hothers

/-! ## Before the first block -/

theorem mem_owedByBlock {l : Label} : l ∈ c.owedByBlock b ↔
    c.label? b.id = some l ∨
      ∃ s ∈ b.statements, ∃ index, s.yieldIndex? = some index ∧ c.resume.label? index = some l := by
  simp only [owedByBlock, owedBy, List.mem_append, Option.mem_toList, List.mem_flatMap,
    Option.bind_eq_some_iff]

/-- The labels of the plan are those that its blocks place. -/
theorem mem_owed_iff (hmade : c.Made) {l : Label} :
    l ∈ c.blocks.flatMap c.owedByBlock ↔ l.index < c.bound := by
  simp only [List.mem_flatMap, mem_owedByBlock]
  unfold bound
  constructor
  · rintro ⟨b, -, hl | ⟨s, -, index, -, hl⟩⟩
    · have := label?_lt hl
      omega
    · obtain ⟨hpos, hle, heq⟩ := hmade.resume_label?_eq_some_iff.1 hl
      omega
  · intro hlt
    by_cases hblock : l.index < c.labelled.length
    · -- a block label: some edge of the code leads to the block
      have hl : c.label? (c.labelled[l.index]) = some l := by
        rw [label?_eq_some_iff, List.idxOf?_eq_some_iff]
        refine ⟨hblock, rfl, fun j hj heq => ?_⟩
        have hnodup : c.labelled.Nodup := hmade.labelled ▸ nodup_eraseDups _
        have := (hnodup.getElem_inj_iff).1 heq
        omega
      obtain ⟨b', hb', ht⟩ := hmade.isSome_label?_iff.1 (Option.isSome_iff_exists.2 ⟨l, hl⟩)
      obtain ⟨⟨b, hb, hid⟩, -⟩ := hmade.target hb' ht
      exact ⟨b, hb, .inl (hid ▸ hl)⟩
    · -- a resume label: the block of its suspension point is in the code
      have hgen : c.procedure.isGenerator = true := by
        by_contra hgen
        rw [hmade.resume, List.length_map, List.length_range, if_neg hgen] at hlt
        omega
      have hl : c.resume.label? (l.index - c.labelled.length + 1) = some l :=
        hmade.resume_label?_eq_some_iff.2 ⟨by omega, by omega, by omega⟩
      obtain ⟨y, hy, hindex⟩ := List.mem_map.1
        (mem_yields_of_mem_points hmade hgen ((mem_points_iff hmade hgen).2 hl))
      obtain ⟨b', hb', hid', s, hs, hyield⟩ := mem_yields_iff.1 hy
      obtain ⟨b, hb, hid⟩ := hmade.exists_block _ (Procedure.yield_mem_liveBlocks hgen hy)
      obtain rfl : b = b' := Option.some_inj.1 ((hmade.block? b hb).symm.trans
        ((hid.trans hid'.symm) ▸ FlowGraph.block?_of_mem hb'))
      exact ⟨b, hb, .inr ⟨s, hs, y.index, hyield, hindex ▸ hl⟩⟩

/-- No block places the label of another one. -/
theorem nodup_blockLabels (hmade : c.Made) :
    (c.blocks.flatMap fun b => (c.label? b.id).toList).Nodup := by
  have heq : (c.blocks.flatMap fun b => (c.label? b.id).toList) =
      (c.blocks.map (·.id)).filterMap c.label? := by
    rw [List.filterMap_eq_flatMap_toList, List.flatMap_map]
  rw [heq]
  exact hmade.nodup.filterMap fun b b' l hb hb' => label?_inj hb hb'

/-- No two suspension points are resumed at the same label. -/
theorem nodup_resumeLabels (hmade : c.Made) :
    (c.blocks.flatMap fun b => b.statements.flatMap c.owedBy).Nodup := by
  have heq : (c.blocks.flatMap fun b => b.statements.flatMap c.owedBy) =
      (c.blocks.flatMap fun b => b.statements.filterMap Stmt.yieldIndex?).filterMap
        c.resume.label? := by
    rw [List.filterMap_flatMap]
    congr 1
    funext b
    rw [List.filterMap_filterMap, List.filterMap_eq_flatMap_toList]
    rfl
  rw [heq]
  cases hgen : c.procedure.isGenerator with
  | false =>
    have hnone : ∀ index, c.resume.label? index = none := by
      refine fun index => Option.eq_none_iff_forall_ne_some.2 fun l hl => ?_
      obtain ⟨hpos, hle, -⟩ := hmade.resume_label?_eq_some_iff.1 hl
      rw [hmade.resume, hgen, if_neg Bool.false_ne_true, List.range_zero] at hle
      change index.toNat ≤ 0 at hle
      omega
    rw [List.filterMap_eq_nil_iff.2 fun index _ => hnone index]
    exact List.nodup_nil
  | true =>
    refine List.Nodup.filterMap (fun i j l hi hj => ?_) ?_
    · obtain ⟨hi, -, hil⟩ := hmade.resume_label?_eq_some_iff.1 hi
      obtain ⟨hj, -, hjl⟩ := hmade.resume_label?_eq_some_iff.1 hj
      omega
    · obtain ⟨blocks, hperm, hsub⟩ := hmade.nodup.of_map.subperm fun b hb =>
        Array.mem_toList_iff.2 (FlowGraph.mem_blocks_of_block? (hmade.block? b hb))
      have hnodup := (nodup_indices hmade hgen).sublist (hsub.flatMap _)
      exact (hperm.flatMap fun _ _ => .refl _).nodup_iff.1 hnodup

theorem nodup_owed (hmade : c.Made) : (c.blocks.flatMap c.owedByBlock).Nodup := by
  refine (List.flatMap_append_perm c.blocks _ _).nodup_iff.1 (List.nodup_append.2
    ⟨nodup_blockLabels hmade, nodup_resumeLabels hmade, fun l hl m hm heq => ?_⟩)
  subst heq
  obtain ⟨b, -, hb⟩ := List.mem_flatMap.1 hl
  obtain ⟨b', -, hb'⟩ := List.mem_flatMap.1 hm
  obtain ⟨s, -, hs⟩ := List.mem_flatMap.1 hb'
  obtain ⟨index, -, hindex⟩ := Option.bind_eq_some_iff.1 (Option.mem_toList.1 hs)
  have hlt := label?_lt (Option.mem_toList.1 hb)
  obtain ⟨-, -, heq⟩ := hmade.resume_label?_eq_some_iff.1 hindex
  omega

theorem keeps_of_make (hmade : c.Made) {table labels : LabelTable} (hsize : table.size = c.bound)
    (hblank : labels.IsBlank) :
    c.Books (c.blocks.flatMap c.owedByBlock) Frame.Tidy { labels := table } labels false := by
  refine ⟨⟨⟨Nat.le_of_eq hsize.symm, nofun, nofun⟩, nodup_owed hmade, fun l hl => ?_, fun l hl => ?_,
    fun l hl => ?_, fun l _ => hblank l, nofun, fun l _ hl => ?_⟩, .empty table⟩
  · exact ⟨hsize ▸ (mem_owed_iff hmade).1 hl, (hblank l).1, nofun⟩
  · exact .inr ((mem_owed_iff hmade).2 hl)
  · rw [(hblank l).2] at hl
    cases hl
  · rw [(hblank l).2] at hl
    cases hl

end Plan

end StackCode
