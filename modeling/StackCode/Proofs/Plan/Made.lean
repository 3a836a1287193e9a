import Mathlib.Data.List.Perm.Subperm
import Mathlib.Data.List.Permutation
import StackCode.Plan
import StackCode.Proofs.Assembly.Labels
import StackCode.Proofs.Graph.Reachability

/-!
# Finished plans

What holds of a plan that has been made, whatever the layout: its blocks are the live blocks of the
procedure, each once, from the start to the exit, and closed under the edges; a block has a label
exactly if an edge leads to it, and no two share one; the resume labels follow those of the blocks.
Main statement: `Plan.made_of_make`.
-/

namespace StackCode

theorem nodup_eraseDups {α : Type} [BEq α] [LawfulBEq α] (xs : List α) : xs.eraseDups.Nodup := by
  induction h : xs.length using Nat.strongRecOn generalizing xs with
  | _ n ih =>
    cases xs with
    | nil => exact List.nodup_nil
    | cons x xs =>
      rw [List.eraseDups_cons, List.nodup_cons]
      refine ⟨fun hmem => ?_, ih _ ?_ _ rfl⟩
      · simpa using List.mem_eraseDups.1 hmem
      · rw [← h, List.length_cons]
        exact Nat.lt_succ_of_le (List.length_filter_le _ xs)

theorem LabelTable.size_reserve_empty (n : Nat) : (LabelTable.reserve {} n).size = n := by
  rw [size_reserve]
  exact Nat.zero_add n

namespace FlowGraph

/-- What `isArrangement` says. -/
theorem isArrangement_iff {arranged ids : List BlockId} :
    isArrangement arranged ids = true ↔
      arranged.length = ids.length ∧ (∀ b ∈ arranged, b ∈ ids) ∧ arranged.Nodup := by
  simp [isArrangement, and_assoc]

/-- The check accepts exactly the rearrangements. -/
theorem isArrangement_iff_perm {arranged ids : List BlockId} (hnodup : ids.Nodup) :
    isArrangement arranged ids = true ↔ arranged.Perm ids := by
  rw [isArrangement_iff]
  constructor
  · rintro ⟨hlength, hsub, hnodup'⟩
    exact (hnodup'.subperm hsub).perm_of_length_le (Nat.le_of_eq hlength.symm)
  · intro hperm
    exact ⟨hperm.length_eq, fun b hb => hperm.mem_iff.1 hb, hperm.nodup_iff.2 hnodup⟩

section
variable {g : FlowGraph} {strategy : LayoutStrategy} {arranged ids order : List BlockId}

/-- There is an order exactly if the strategy rearranges the blocks. -/
theorem isSome_emissionOrder_iff (hnodup : ids.Nodup) :
    (g.emissionOrder strategy ids).isSome = true ↔ (strategy g ids).Perm ids := by
  rw [← isArrangement_iff_perm hnodup]
  unfold emissionOrder
  simp only
  split
  · next h => simp [h]
  · next h => simp [h]

/-- With the start moved to the front and the exit to the end, the blocks are the same. -/
theorem perm_ends (hstart : g.start ∈ arranged) (hexit : g.exit ∈ arranged)
    (hnodup : arranged.Nodup) :
    (g.start :: (arranged.filter (fun b => b ≠ g.start && b ≠ g.exit) ++ [g.exit])).Perm
      arranged := by
  refine (List.perm_ext_iff_of_nodup ?_ hnodup).2 ?_
  · have hne := g.start_ne_exit
    rw [List.nodup_cons, List.nodup_append']
    refine ⟨?_, hnodup.filter _, List.nodup_singleton _, ?_⟩
    · simp [hne]
    · simp [List.Disjoint]
  · intro b
    by_cases hs : b = g.start
    · simp [hs, hstart]
    · by_cases he : b = g.exit
      · simp [he, hexit]
      · simp [hs, he]

/-- An order begins with the start and ends with the exit, and between them are the other blocks, in
the order of the strategy. -/
theorem ends_of_emissionOrder (hnodup : ids.Nodup) (hstart : g.start ∈ ids) (hexit : g.exit ∈ ids)
    (h : g.emissionOrder strategy ids = some order) :
    order.Perm ids ∧
      ∃ mid, order = g.start :: (mid ++ [g.exit]) ∧ mid.Sublist (strategy g ids) := by
  have hperm : (strategy g ids).Perm ids := (isSome_emissionOrder_iff hnodup).1 (by rw [h]; rfl)
  have hends := perm_ends (hperm.mem_iff.2 hstart) (hperm.mem_iff.2 hexit) (hperm.nodup_iff.2 hnodup)
  unfold emissionOrder at h
  rw [if_pos ((isArrangement_iff_perm hnodup).2 hperm)] at h
  cases h
  exact ⟨hends.trans hperm, _, rfl, List.filter_sublist⟩

end

end FlowGraph

namespace Plan

/-- What holds of a plan that has been made. -/
structure Made (c : Plan) : Prop where
  block? : ∀ b ∈ c.blocks, c.procedure.graph.block? b.id = some b
  exists_block : ∀ id ∈ c.procedure.liveBlocks, ∃ b ∈ c.blocks, b.id = id
  live : ∀ b ∈ c.blocks, b.id ∈ c.procedure.liveBlocks
  nodup : (c.blocks.map (·.id)).Nodup
  /-- The start comes first and the exit last. -/
  ends : ∃ first mid last, c.blocks = first :: (mid ++ [last]) ∧
    first.id = c.procedure.graph.start ∧ last.id = c.procedure.graph.exit
  labelled : c.labelled = targetsOf c.blocks
  resume : c.resume.labels = (List.range (if c.procedure.isGenerator then
    c.procedure.graph.yields.length else 0)).map fun i => ⟨c.labelled.length + i⟩
  dense : c.procedure.isGenerator = true →
    (c.procedure.graph.yields.map (·.index)).Perm
      ((List.range c.procedure.graph.yields.length).map fun (i : Nat) => (i : Int) + 1)

end Plan

/-! ## Making a plan -/

/-- Indices without a fault go on with `expected`. -/
theorem ResumePlan.eq_range_of_firstFault? {expected : Int} {previous : Option Int}
    {indices : List Int} (h : firstFault? expected previous indices = none) :
    indices = (List.range indices.length).map fun (i : Nat) => (i : Int) + expected := by
  induction indices generalizing expected previous with
  | nil => rfl
  | cons index rest ih =>
    rw [firstFault?] at h
    split at h
    · cases h
    · next hfault =>
      have hindex : index = expected := by
        unfold indexFault? at hfault
        split at hfault
        · cases hfault
        · split at hfault
          · cases hfault
          · split at hfault
            · cases hfault
            · next hne => exact Decidable.not_not.1 hne
      rw [List.length_cons, List.range_succ_eq_map, List.map_cons, List.map_map]
      congr 1
      · rw [hindex]; simp
      · rw [ih h]
        simp only [List.length_map, List.length_range, Function.comp_def]
        refine List.map_congr_left fun i _ => ?_
        push_cast
        omega

/-- The labels that are allotted are those that follow. -/
theorem ResumePlan.allot_eq (table : LabelTable) (indices : List Int) :
    allot table indices = ((List.range indices.length).map fun i => ⟨table.size + i⟩,
      table.reserve indices.length) := by
  induction indices generalizing table with
  | nil => simp [allot, LabelTable.reserve]
  | cons index rest ih =>
    have hsize : table.fresh.2.size = table.size + 1 := Array.size_push _
    have hcons : allot table (index :: rest) =
        (table.fresh.1 :: (allot table.fresh.2 rest).1, (allot table.fresh.2 rest).2) := rfl
    rw [hcons, ih, hsize, List.length_cons, List.range_succ_eq_map, List.map_cons, List.map_map,
      LabelTable.reserve_succ]
    have hnext : ∀ i, table.size + 1 + i = table.size + (i + 1) := fun i => by omega
    exact Prod.ext (congrArg (_ :: ·) (List.map_congr_left fun i _ => congrArg Label.mk (hnext i))) rfl

/-- What comes of planning suspension points, and the labels that there are then. -/
theorem ResumePlan.make_eq (indices : List Int) (table : LabelTable) :
    make indices table = match firstFault? 1 none (indices.mergeSort (· ≤ ·)) with
      | some e => (.error e, table)
      | none => (.ok ⟨(List.range indices.length).map fun i => ⟨table.size + i⟩⟩,
          table.reserve indices.length) := by
  have hlength := (List.mergeSort_perm indices fun a b => decide (a ≤ b)).length_eq
  cases hfault : firstFault? 1 none (indices.mergeSort fun a b => decide (a ≤ b)) with
  | some e => simp only [make, hfault]
  | none => simp only [make, hfault, allot_eq, hlength]

theorem ResumePlan.make_eq_ok {indices : List Int} {table table' : LabelTable} {plan : ResumePlan}
    (h : make indices table = (.ok plan, table')) :
    plan.labels = (List.range indices.length).map (fun i => ⟨table.size + i⟩) ∧
      table' = table.reserve indices.length ∧
      indices.Perm ((List.range indices.length).map fun (i : Nat) => (i : Int) + 1) := by
  rw [make_eq] at h
  split at h
  · cases h
  · next hfault =>
    cases h
    refine ⟨rfl, rfl, ?_⟩
    have hperm := List.mergeSort_perm indices (fun a b => decide (a ≤ b))
    have hrange := eq_range_of_firstFault? hfault
    rw [hperm.length_eq] at hrange
    exact hperm.symm.trans (List.Perm.of_eq hrange)

/-- What is refused is refused for the first fault of the ascending indices, and no label is allotted. -/
theorem ResumePlan.make_eq_error {indices : List Int} {table table' : LabelTable} {e : LowerError}
    (h : make indices table = (.error e, table')) :
    firstFault? 1 none (indices.mergeSort (· ≤ ·)) = some e ∧ table' = table := by
  rw [make_eq] at h
  split at h
  · next hfault =>
    cases h
    exact ⟨hfault, rfl⟩
  · cases h

namespace Plan

section
variable {p : Procedure} {options : Options} {strategy : LayoutStrategy} {c : Plan}
  {labels : LabelTable}

/-- What comes of making a plan, in the order of the emission order that the strategy arranges. -/
theorem make_eq_ok (h : make p options strategy = .ok (c, labels)) :
    ∃ order, p.graph.emissionOrder strategy p.liveBlocks = some order ∧
      c.procedure = p ∧ c.options = options ∧ c.blocks = order.filterMap p.graph.block? ∧
      c.labelled = targetsOf c.blocks ∧
      (if p.isGenerator then
        ResumePlan.make (p.graph.yields.map (·.index))
          (LabelTable.reserve {} c.labelled.length) = (.ok c.resume, labels)
      else c.resume = ⟨[]⟩ ∧ labels = LabelTable.reserve {} c.labelled.length) := by
  unfold make at h
  cases ho : p.graph.emissionOrder strategy p.liveBlocks with
  | none => rw [ho] at h; cases h
  | some order =>
    rw [ho] at h
    simp only at h
    refine ⟨order, rfl, ?_⟩
    cases hgen : p.isGenerator with
    | false =>
      rw [hgen, if_neg Bool.false_ne_true] at h
      cases h
      exact ⟨rfl, rfl, rfl, rfl, by rw [if_neg Bool.false_ne_true]; exact ⟨rfl, rfl⟩⟩
    | true =>
      rw [hgen, if_pos rfl] at h
      rcases hr : ResumePlan.make (p.graph.yields.map (·.index))
        (LabelTable.reserve {} (targetsOf (order.filterMap p.graph.block?)).length) with ⟨_ | _, _⟩
      · rw [hr] at h
        cases h
      · rw [hr] at h
        cases h
        exact ⟨rfl, rfl, rfl, rfl, by rw [if_pos rfl]; exact hr⟩

/-- A plan is refused for the order of the blocks, or for the suspension points. -/
theorem make_eq_error {e : LowerError} (h : make p options strategy = .error e) :
    (p.graph.emissionOrder strategy p.liveBlocks = none ∧ e = .invalidEmitOrder) ∨
      ∃ table table', ResumePlan.make (p.graph.yields.map (·.index)) table = (.error e, table') := by
  unfold make at h
  cases ho : p.graph.emissionOrder strategy p.liveBlocks with
  | none =>
    rw [ho] at h
    cases h
    exact .inl ⟨rfl, rfl⟩
  | some order =>
    rw [ho] at h
    simp only at h
    cases hgen : p.isGenerator with
    | false =>
      rw [hgen, if_neg Bool.false_ne_true] at h
      cases h
    | true =>
      rw [hgen, if_pos rfl] at h
      rcases hr : ResumePlan.make (p.graph.yields.map (·.index))
        (LabelTable.reserve {} (targetsOf (order.filterMap p.graph.block?)).length) with ⟨_ | _, _⟩
      · rw [hr] at h
        cases h
        exact .inr ⟨_, _, hr⟩
      · rw [hr] at h
        cases h

/-- The blocks of the code in their order: the start, some others, and the exit. -/
theorem emissionOrder_eq_some {order : List BlockId}
    (h : p.graph.emissionOrder strategy p.liveBlocks = some order) :
    ∃ mid, order = p.graph.start :: (mid ++ [p.graph.exit]) ∧ order.Nodup ∧
      ∀ b, b ∈ order ↔ b ∈ p.liveBlocks := by
  obtain ⟨hperm, mid, hshape, -⟩ := FlowGraph.ends_of_emissionOrder p.nodup_liveBlocks
    p.start_mem_liveBlocks p.exit_mem_liveBlocks h
  exact ⟨mid, hshape, hperm.nodup_iff.2 p.nodup_liveBlocks, fun _ => hperm.mem_iff⟩

/-- Blocks looked up one by one are those with the ids. -/
theorem map_id_filterMap_block? {g : FlowGraph} {order : List BlockId}
    (h : ∀ b ∈ order, b ∈ g.ids) : (order.filterMap g.block?).map (·.id) = order := by
  induction order with
  | nil => rfl
  | cons b order ih =>
    obtain ⟨blk, hblk⟩ := FlowGraph.exists_block (h b List.mem_cons_self)
    rw [List.filterMap_cons_some hblk, List.map_cons, FlowGraph.id_of_block? hblk,
      ih fun c hc => h c (List.mem_cons_of_mem b hc)]

theorem made_of_make (h : make p options strategy = .ok (c, labels)) : c.Made := by
  obtain ⟨order, horder, rfl, -, hblocks, hlabelled, hresume⟩ := make_eq_ok h
  obtain ⟨mid, hshape, hnodup, hmem⟩ := emissionOrder_eq_some horder
  have hid : ∀ b ∈ order, b ∈ c.procedure.graph.ids := fun b hb =>
    (Procedure.mem_liveBlocks.1 ((hmem b).1 hb)).1
  have hids : c.blocks.map (·.id) = order := by rw [hblocks, map_id_filterMap_block? hid]
  have hblock : ∀ b ∈ c.blocks, c.procedure.graph.block? b.id = some b := by
    intro b hb
    rw [hblocks] at hb
    obtain ⟨id, -, hb⟩ := List.mem_filterMap.1 hb
    rw [FlowGraph.id_of_block? hb, hb]
  refine ⟨hblock, fun id hlive => ?_, fun b hb => ?_, hids ▸ hnodup, ?_, hlabelled, ?_, ?_⟩
  · have horder : id ∈ c.blocks.map (·.id) := hids ▸ (hmem id).2 hlive
    obtain ⟨b, hb, rfl⟩ := List.mem_map.1 horder
    exact ⟨b, hb, rfl⟩
  · refine (hmem b.id).1 (hids ▸ List.mem_map_of_mem hb)
  · rw [hshape, List.map_eq_cons_iff] at hids
    obtain ⟨first, tail, hcons, hfirst, htail⟩ := hids
    rw [List.map_eq_append_iff] at htail
    obtain ⟨mid', last', rfl, -, hlast⟩ := htail
    obtain ⟨last, rfl, hexit⟩ := List.map_eq_singleton_iff.1 hlast
    exact ⟨first, mid', last, hcons, hfirst, hexit⟩
  · cases hgen : c.procedure.isGenerator with
    | false =>
      rw [hgen, if_neg Bool.false_ne_true] at hresume
      rw [hresume.1]
      rfl
    | true =>
      rw [hgen, if_pos rfl] at hresume
      rw [(ResumePlan.make_eq_ok hresume).1, List.length_map, if_pos rfl,
        LabelTable.size_reserve_empty]
  · intro hgen
    rw [hgen, if_pos rfl] at hresume
    have hperm := (ResumePlan.make_eq_ok hresume).2.2
    rwa [List.length_map] at hperm

/-- The labels that a plan allots are blank, one for each labelled block and each suspension
point. -/
theorem labels_of_make (h : make p options strategy = .ok (c, labels)) :
    labels.size = c.labelled.length + c.resume.labels.length ∧ labels.IsBlank := by
  obtain ⟨order, -, rfl, -, -, -, hresume⟩ := make_eq_ok h
  have hblank := LabelTable.isBlank_reserve LabelTable.isBlank_empty
  cases hgen : c.procedure.isGenerator with
  | false =>
    rw [hgen, if_neg Bool.false_ne_true] at hresume
    obtain ⟨hplan, rfl⟩ := hresume
    rw [hplan, LabelTable.size_reserve_empty]
    exact ⟨rfl, hblank _⟩
  | true =>
    rw [hgen, if_pos rfl] at hresume
    obtain ⟨hplan, rfl, -⟩ := ResumePlan.make_eq_ok hresume
    rw [hplan, LabelTable.size_reserve, LabelTable.size_reserve_empty, List.length_map,
      List.length_map, List.length_range]
    exact ⟨rfl, LabelTable.isBlank_reserve (hblank _) _⟩

end

/-! ## Labels -/

section
variable {c : Plan}

theorem label?_eq_some_iff {b : BlockId} {l : Label} :
    c.label? b = some l ↔ c.labelled.idxOf? b = some l.index := by
  unfold label?
  rw [Option.map_eq_some_iff]
  constructor
  · rintro ⟨i, hi, rfl⟩; exact hi
  · intro h; exact ⟨l.index, h, rfl⟩

theorem label?_lt {b : BlockId} {l : Label} (h : c.label? b = some l) :
    l.index < c.labelled.length := (List.idxOf?_eq_some_iff.1 (label?_eq_some_iff.1 h)).1

/-- No two blocks share a label. -/
theorem label?_inj {b b' : BlockId} {l : Label} (h : c.label? b = some l)
    (h' : c.label? b' = some l) : b = b' := by
  obtain ⟨_, hb, -⟩ := List.idxOf?_eq_some_iff.1 (label?_eq_some_iff.1 h)
  obtain ⟨_, hb', -⟩ := List.idxOf?_eq_some_iff.1 (label?_eq_some_iff.1 h')
  exact hb.symm.trans hb'

theorem isSome_label?_iff {b : BlockId} : (c.label? b).isSome = true ↔ b ∈ c.labelled := by
  unfold label?
  rw [Option.isSome_map, List.isSome_idxOf?]

namespace Made

theorem isSome_label?_iff (h : c.Made) {t : BlockId} :
    (c.label? t).isSome = true ↔ ∃ b ∈ c.blocks, t ∈ b.edge.targets := by
  rw [Plan.isSome_label?_iff, h.labelled, targetsOf, List.mem_eraseDups, List.mem_flatMap]

/-- Whatever an edge of the code leads to has code, and a label. -/
theorem target (h : c.Made) {b : Block} (hb : b ∈ c.blocks) {t : BlockId}
    (ht : t ∈ b.edge.targets) : (∃ b' ∈ c.blocks, b'.id = t) ∧ ∃ l, c.label? t = some l := by
  refine ⟨h.exists_block t (Procedure.target_mem_liveBlocks (h.live b hb) (h.block? b hb) ht), ?_⟩
  exact Option.isSome_iff_exists.1 (h.isSome_label?_iff.2 ⟨b, hb, ht⟩)

/-- Labels behind suspension points are numbered after those of the blocks. -/
theorem resume_label?_eq_some_iff (h : c.Made) {index : Int} {l : Label} :
    c.resume.label? index = some l ↔
      1 ≤ index ∧ index.toNat ≤ c.resume.labels.length ∧
        l.index = c.labelled.length + (index.toNat - 1) := by
  unfold ResumePlan.label?
  rw [h.resume]
  simp only [List.length_map, List.length_range]
  split
  · next hlt => exact ⟨fun h => (nomatch h), fun h => absurd h.1 (by omega)⟩
  · next hge =>
    rw [List.getElem?_map, Option.map_eq_some_iff]
    constructor
    · rintro ⟨i, hi, rfl⟩
      obtain ⟨hlt, rfl⟩ := List.getElem?_eq_some_iff.1 hi
      rw [List.length_range] at hlt
      rw [List.getElem_range]
      exact ⟨by omega, by omega, rfl⟩
    · rintro ⟨h₁, h₂, h₃⟩
      refine ⟨index.toNat - 1, List.getElem?_range (by omega), ?_⟩
      rw [← h₃]

/-- Only a generator is resumed. -/
theorem isGenerator_of_resume_label? (h : c.Made) {index : Int} {l : Label}
    (hl : c.resume.label? index = some l) : c.procedure.isGenerator = true := by
  obtain ⟨hpos, hle, -⟩ := h.resume_label?_eq_some_iff.1 hl
  rw [h.resume, List.length_map, List.length_range] at hle
  cases hgen : c.procedure.isGenerator with
  | true => rfl
  | false =>
    rw [hgen, if_neg Bool.false_ne_true] at hle
    omega

/-! ## Handlers -/

theorem isSome_caught?_iff {t : BlockId} :
    (c.caught? t).isSome = true ↔ ∃ b ∈ c.blocks, b.edge.handler? = some t := by
  have hexception : ∀ b : Block, (exceptionOf? t b).isSome = true ↔ b.edge.handler? = some t := by
    intro b
    unfold exceptionOf?
    cases b.edge <;> simp [Edge.handler?]
  unfold caught?
  rw [List.findSome?_isSome_iff]
  simp only [List.mem_reverse, hexception]

/-- A handler has code and a label of its own. -/
theorem handler (h : c.Made) {t : BlockId} (ht : (c.caught? t).isSome = true) :
    (∃ b ∈ c.blocks, b.id = t ∧ b.kind = .normal) ∧ ∃ l, c.label? t = some l := by
  obtain ⟨b, hb, hhandler⟩ := isSome_caught?_iff.1 ht
  have htarget := h.target hb (Edge.mem_targets_iff.2 (.inr hhandler))
  refine ⟨?_, htarget.2⟩
  obtain ⟨b', hb', hid⟩ := htarget.1
  refine ⟨b', hb', hid, ?_⟩
  have hmem := fun {blk : Block} (hblk : blk ∈ c.blocks) =>
    FlowGraph.mem_blocks_of_block? (h.block? blk hblk)
  exact c.procedure.graph.wellFormed.handler_normal b (hmem hb) t hhandler b' (hmem hb') hid

/-- Only an exception gets to a handler. -/
theorem caught?_eq_none (h : c.Made) {b : Block} (hb : b ∈ c.blocks) {t : BlockId}
    (ht : t ∈ b.edge.normalTargets) : c.caught? t = none := by
  by_contra hne
  obtain ⟨b', hb', hhandler⟩ := isSome_caught?_iff.1 (Option.isSome_iff_ne_none.2 hne)
  have hmem := fun {blk : Block} (hblk : blk ∈ c.blocks) =>
    FlowGraph.mem_blocks_of_block? (h.block? blk hblk)
  exact c.procedure.graph.wellFormed.handler_exclusive b' (hmem hb') t hhandler b (hmem hb) ht

/-! ## The start and the exit -/

theorem kind_eq_start_iff (h : c.Made) {b : Block} (hb : b ∈ c.blocks) :
    b.kind = .start ↔ b.id = c.procedure.graph.start :=
  FlowGraph.kind_eq_start_iff (h.block? b hb)

theorem kind_eq_exit_iff (h : c.Made) {b : Block} (hb : b ∈ c.blocks) :
    b.kind = .exit ↔ b.id = c.procedure.graph.exit :=
  FlowGraph.kind_eq_exit_iff (h.block? b hb)

/-- The blocks in their order: the start block, blocks that are neither, and the exit block. -/
theorem blocks_eq (h : c.Made) :
    ∃ first mid last, c.blocks = first :: (mid ++ [last]) ∧ first.kind = .start ∧
      last.kind = .exit ∧ ∀ b ∈ mid, b.kind = .normal := by
  obtain ⟨first, mid, last, hblocks, hfirst, hlast⟩ := h.ends
  have hnodup := h.nodup
  rw [hblocks, List.map_cons, List.map_append, List.nodup_cons, List.nodup_append] at hnodup
  obtain ⟨hnot, -, -, hdisjoint⟩ := hnodup
  refine ⟨first, mid, last, hblocks, ?_, ?_, fun b hb => ?_⟩
  · exact (h.kind_eq_start_iff (hblocks ▸ List.mem_cons_self)).2 hfirst
  · exact (h.kind_eq_exit_iff (by rw [hblocks]; simp)).2 hlast
  · have hmem : b ∈ c.blocks := by rw [hblocks]; simp [hb]
    cases hk : b.kind with
    | normal => rfl
    | start =>
      have hid := (h.kind_eq_start_iff hmem).1 hk
      rw [← hfirst] at hid
      exact absurd (List.mem_append_left _ (hid ▸ List.mem_map_of_mem hb)) hnot
    | exit =>
      have hid := (h.kind_eq_exit_iff hmem).1 hk
      rw [← hlast] at hid
      exact absurd hid (hdisjoint _ (List.mem_map_of_mem hb) _ (by simp))

end Made

end

/-! ## Suspension points -/

section
variable {c : Plan}

/-- No two suspension points have the same index. -/
theorem nodup_indices (hmade : c.Made) (hgen : c.procedure.isGenerator = true) :
    (c.procedure.graph.blocks.toList.flatMap fun b =>
      b.statements.filterMap Stmt.yieldIndex?).Nodup := by
  have hnodup : (c.procedure.graph.yields.map (·.index)).Nodup := by
    rw [(hmade.dense hgen).nodup_iff]
    apply List.Nodup.map _ List.nodup_range
    intro i j hij
    dsimp only at hij
    omega
  have heq : c.procedure.graph.yields.map (·.index) =
      c.procedure.graph.blocks.toList.flatMap fun b => b.statements.filterMap Stmt.yieldIndex? := by
    unfold FlowGraph.yields Block.yields
    rw [List.map_flatMap]
    congr 1
    funext b
    rw [List.map_filterMap]
    congr 1
    funext stmt
    cases stmt.yieldIndex? <;> rfl
  rw [← heq]
  exact hnodup

/-- The resume labels stand in the order of their indices. -/
theorem points_eq (hmade : c.Made) (hgen : c.procedure.isGenerator = true) :
    c.resume.points = (List.range c.procedure.graph.yields.length).map
      fun (i : Nat) => ((i : Int) + 1, ⟨c.labelled.length + i⟩) := by
  unfold ResumePlan.points
  rw [hmade.resume, if_pos hgen]
  refine List.ext_getElem (by simp) fun i h₁ h₂ => ?_
  simp

theorem mem_points_iff (hmade : c.Made) (hgen : c.procedure.isGenerator = true) {index : Int}
    {l : Label} : (index, l) ∈ c.resume.points ↔ c.resume.label? index = some l := by
  rw [points_eq hmade hgen, hmade.resume_label?_eq_some_iff, hmade.resume, if_pos hgen,
    List.length_map, List.length_range, List.mem_map]
  constructor
  · rintro ⟨i, hi, heq⟩
    have hi := List.mem_range.1 hi
    cases heq
    refine ⟨by omega, by omega, by simp⟩
  · rintro ⟨hpos, hle, hl⟩
    refine ⟨index.toNat - 1, List.mem_range.2 (by omega), ?_⟩
    rw [← hl]
    congr 1
    omega

/-- The points of the plan are the suspension points of the procedure. -/
theorem mem_yields_of_mem_points (hmade : c.Made) (hgen : c.procedure.isGenerator = true)
    {index : Int} {l : Label} (h : (index, l) ∈ c.resume.points) :
    index ∈ c.procedure.graph.yields.map (·.index) := by
  rw [points_eq hmade hgen] at h
  obtain ⟨i, hi, heq⟩ := List.mem_map.1 h
  cases heq
  exact (hmade.dense hgen).mem_iff.2 (List.mem_map_of_mem hi)

theorem pos_of_mem_yields (hmade : c.Made) (hgen : c.procedure.isGenerator = true) {index : Int}
    (h : index ∈ c.procedure.graph.yields.map (·.index)) : 0 < index := by
  obtain ⟨i, -, rfl⟩ := List.mem_map.1 ((hmade.dense hgen).mem_iff.1 h)
  omega

/-- The jump table leads to the label of every suspension point. -/
theorem lookup_points (hmade : c.Made) (hgen : c.procedure.isGenerator = true) {index : Int}
    {l : Label} (h : (index, l) ∈ c.resume.points) : c.resume.points.lookup index = some l := by
  obtain ⟨front, back, heq⟩ := List.append_of_mem h
  have hnodup : (c.resume.points.map Prod.fst).Nodup := by
    rw [points_eq hmade hgen, List.map_map]
    refine List.Nodup.map (fun i j hij => ?_) List.nodup_range
    simp only [Function.comp_apply] at hij
    omega
  rw [heq, List.map_append, List.map_cons, List.nodup_append] at hnodup
  refine List.lookup_eq_some_iff.2 ⟨front, back, heq, fun e he => ?_⟩
  have hne := hnodup.2.2 e.1 (List.mem_map_of_mem he) index List.mem_cons_self
  simpa using Ne.symm hne

end

end Plan

end StackCode
