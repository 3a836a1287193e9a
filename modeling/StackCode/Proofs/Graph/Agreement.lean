import StackCode.Layout
import StackCode.Proofs.Graph.Reachability

/-!
# Graphs that agree

Two graphs agree on some blocks if these are the same in both and no edge leads out of them
(`FlowGraph.AgreesOn`).  Whatever other blocks there are, and however many, a walk of the one that keeps
to these blocks is a walk of the other (`AgreesOn.walk_eq`), they reach the same blocks
(`AgreesOn.reaches_iff`), and the orders to choose from arrange them alike (`AgreesOn.arrange_eq`).
-/

namespace StackCode

theorem flatMap_eq_flatMap_filter {α β : Type} {xs : List α} {f : α → List β} {q : α → Bool}
    (h : ∀ x ∈ xs, q x = false → f x = []) : xs.flatMap f = (xs.filter q).flatMap f := by
  induction xs with
  | nil => rfl
  | cons x xs ih =>
    have htail := ih fun y hy => h y (List.mem_cons_of_mem x hy)
    cases hx : q x with
    | true => rw [List.filter_cons_of_pos hx, List.flatMap_cons, List.flatMap_cons, htail]
    | false =>
      rw [List.filter_cons_of_neg (by rw [hx]; exact Bool.false_ne_true), List.flatMap_cons,
        h x List.mem_cons_self hx, List.nil_append, htail]

namespace FlowGraph

/-- Two graphs have the same blocks where `R` holds, and no edge leads out of there. -/
structure AgreesOn (g g' : FlowGraph) (R : BlockId → Prop) : Prop where
  block? : ∀ b, R b → g'.block? b = g.block? b
  closed : ∀ b, R b → ∀ t ∈ g.successors b, R t

theorem mem_ids_iff {g : FlowGraph} {b : BlockId} : b ∈ g.ids ↔ (g.block? b).isSome = true := by
  constructor
  · intro h
    obtain ⟨blk, hblk⟩ := exists_block h
    rw [hblk]
    rfl
  · intro h
    obtain ⟨blk, hblk⟩ := Option.isSome_iff_exists.1 h
    exact mem_ids_of_block? hblk

/-- The ordinals of blocks tell them apart. -/
theorem eq_of_ordinal {g : FlowGraph} {a b : BlockId} (ha : a ∈ g.ids) (hb : b ∈ g.ids)
    (h : g.ordinal a = g.ordinal b) : a = b := by
  obtain ⟨blk, hblk⟩ := exists_block ha
  obtain ⟨blk', hblk'⟩ := exists_block hb
  unfold ordinal at h
  rw [hblk, hblk'] at h
  have hindex : a.index = b.index := g.wellFormed.ordinal_inj a.index b.index blk blk' hblk hblk' h
  cases a
  cases b
  exact congrArg BlockId.mk hindex

theorem pairwise_sortByOrdinal (g : FlowGraph) (ids : List BlockId) :
    (g.sortByOrdinal ids).Pairwise fun a b => g.ordinal a ≤ g.ordinal b := by
  refine (List.pairwise_mergeSort (fun a b c hab hbc => ?_) (fun a b => ?_) ids).imp fun h => ?_
  · simp only [decide_eq_true_eq] at hab hbc ⊢
    exact Nat.le_trans hab hbc
  · simp only [Bool.or_eq_true, decide_eq_true_eq]
    exact Nat.le_total _ _
  · exact of_decide_eq_true h

/-- The blocks ascend by their ids. -/
theorem pairwise_ids (g : FlowGraph) : g.ids.Pairwise fun a b => a.index < b.index :=
  List.pairwise_map.2 List.pairwise_lt_range

theorem map_id_blocks (g : FlowGraph) : g.blocks.toList.map (·.id) = g.ids := by
  refine List.ext_getElem ?_ fun i hi hi' => ?_
  · simp [ids, size]
  · rw [List.length_map] at hi
    have hget : g.blocks[i]? = some g.blocks.toList[i] := by
      rw [← Array.getElem?_toList]
      exact List.getElem?_eq_getElem hi
    rw [List.getElem_map, g.wellFormed.id_eq i _ hget]
    simp [ids]

/-- The suspension points, read off one block after the other. -/
theorem yields_eq_flatMap (g : FlowGraph) :
    g.yields = g.ids.flatMap fun b => (g.block? b).elim [] Block.yields := by
  rw [← map_id_blocks, List.flatMap_map]
  refine List.flatMap_congr fun blk hblk => ?_
  rw [block?_of_mem (Array.mem_toList_iff.1 hblk)]
  rfl

namespace AgreesOn

variable {g g' : FlowGraph} {R : BlockId → Prop}

section
variable (h : g.AgreesOn g' R)
include h

theorem mem_ids_iff {b : BlockId} (hb : R b) : b ∈ g'.ids ↔ b ∈ g.ids := by
  rw [FlowGraph.mem_ids_iff, FlowGraph.mem_ids_iff, h.block? b hb]

theorem successors_eq {b : BlockId} (hb : R b) : g'.successors b = g.successors b := by
  unfold successors
  rw [h.block? b hb]

theorem ordinal_eq {b : BlockId} (hb : R b) : g'.ordinal b = g.ordinal b := by
  unfold ordinal
  rw [h.block? b hb]

theorem start_eq (hstart : R g.start) : g'.start = g.start := by
  obtain ⟨blk, hblk, hk⟩ := g.block?_start
  rw [← h.block? _ hstart] at hblk
  exact ((kind_eq_start_iff hblk).1 hk).symm

theorem exit_eq (hexit : R g.exit) : g'.exit = g.exit := by
  obtain ⟨blk, hblk, hk⟩ := g.block?_exit
  rw [← h.block? _ hexit] at hblk
  exact ((kind_eq_exit_iff hblk).1 hk).symm

/-- A choice among the blocks on which the graphs agree is the same in both. -/
theorem filter_ids_eq {q q' : BlockId → Bool} (hq : ∀ b, q b = true → R b)
    (heq : ∀ b ∈ g'.ids, q' b = true ↔ q b = true) : g'.ids.filter q' = g.ids.filter q := by
  have hmem (b : BlockId) : b ∈ g'.ids.filter q' ↔ b ∈ g.ids.filter q := by
    rw [List.mem_filter, List.mem_filter]
    constructor
    · rintro ⟨hid, hb⟩
      have hb' := (heq b hid).1 hb
      exact ⟨(h.mem_ids_iff (hq b hb')).1 hid, hb'⟩
    · rintro ⟨hid, hb⟩
      have hid' := (h.mem_ids_iff (hq b hb)).2 hid
      exact ⟨hid', (heq b hid').2 hb⟩
  have hperm : (g'.ids.filter q').Perm (g.ids.filter q) :=
    (List.perm_ext_iff_of_nodup (g'.nodup_ids.filter _) (g.nodup_ids.filter _)).2 hmem
  refine List.Perm.eq_of_pairwise (fun a b _ _ hab hba => ?_) (g'.pairwise_ids.filter _)
    (g.pairwise_ids.filter _) hperm
  exact absurd hab (Nat.lt_asymm hba)

/-- Where every suspension point stands in a block on which the graphs agree, they are the same. -/
theorem yields_eq (hyields : ∀ y ∈ g.yields, R y.block) (hyields' : ∀ y ∈ g'.yields, R y.block) :
    g'.yields = g.yields := by
  classical
  have hlist (f : FlowGraph) (hf : ∀ y ∈ f.yields, R y.block) :
      f.yields = (f.ids.filter fun b => decide (R b)).flatMap
        fun b => (f.block? b).elim [] Block.yields := by
    refine (yields_eq_flatMap f).trans (flatMap_eq_flatMap_filter fun b hb hout => ?_)
    obtain ⟨blk, hblk⟩ := exists_block hb
    rw [hblk]
    refine List.eq_nil_iff_forall_not_mem.2 fun y hy => of_decide_eq_false hout ?_
    have hmem : y ∈ f.yields :=
      List.mem_flatMap.2 ⟨blk, Array.mem_toList_iff.2 (mem_blocks_of_block? hblk), hy⟩
    have hin := hf y hmem
    rwa [Block.block_of_mem_yields hy, id_of_block? hblk] at hin
  rw [hlist g hyields, hlist g' hyields',
    h.filter_ids_eq (fun b hb => of_decide_eq_true hb) fun _ _ => Iff.rfl]
  refine List.flatMap_congr fun b hb => ?_
  rw [h.block? b (of_decide_eq_true (List.mem_filter.1 hb).2)]

/-! ## Walks -/

/-- A walk that keeps to blocks on which the graphs agree finds the same in both, whatever other
blocks are fresh. -/
theorem walk_eq {fresh fresh' left : List BlockId} {todo : List WalkTask}
    (hfresh : ∀ b, R b → (b ∈ fresh' ↔ b ∈ fresh)) (hnodup : fresh.Nodup) (hnodup' : fresh'.Nodup)
    (htodo : ∀ b, .enter b ∈ todo → R b) : g'.walk fresh' left todo = g.walk fresh left todo := by
  fun_induction g.walk fresh left todo generalizing fresh' with
  | case1 fresh left => rw [walk]
  | case2 fresh left b todo ih =>
    rw [walk]
    exact ih hfresh hnodup hnodup' fun t ht => htodo t (List.mem_cons_of_mem _ ht)
  | case3 fresh left b todo hb ih =>
    have hreached : R b := htodo b List.mem_cons_self
    have htasks : g'.tasksOf b = g.tasksOf b := by
      unfold tasksOf
      rw [h.successors_eq hreached]
    rw [walk, if_pos ((hfresh b hreached).2 hb), htasks]
    refine ih (fun t ht => ?_) (hnodup.erase b) (hnodup'.erase b) fun t ht => ?_
    · rw [hnodup.mem_erase_iff, hnodup'.mem_erase_iff, hfresh t ht]
    · rcases List.mem_append.1 ht with ht | ht
      · simp only [tasksOf, List.mem_append, List.mem_map, WalkTask.enter.injEq, exists_eq_right,
          List.mem_singleton, reduceCtorEq, or_false] at ht
        exact h.closed b hreached t ht
      · exact htodo t (List.mem_cons_of_mem _ ht)
  | case4 fresh left b todo hb ih =>
    have hreached : R b := htodo b List.mem_cons_self
    rw [walk, if_neg (mt (hfresh b hreached).1 hb)]
    exact ih hfresh hnodup hnodup' fun t ht => htodo t (List.mem_cons_of_mem _ ht)

theorem reversePostorder_eq (hstart : g'.start = g.start) (hreached : R g.start) :
    g'.reversePostorder = g.reversePostorder := by
  unfold reversePostorder
  rw [hstart]
  refine h.walk_eq (fun b hb => h.mem_ids_iff hb) g.nodup_ids g'.nodup_ids fun b hb => ?_
  cases List.mem_singleton.1 hb
  exact hreached

/-- From the same roots the graphs reach the same blocks. -/
theorem reaches_iff {roots roots' : List BlockId} (hroots : ∀ b, b ∈ roots' ↔ b ∈ roots)
    (hreached : ∀ b ∈ roots, R b) {b : BlockId} : g'.Reaches roots' b ↔ g.Reaches roots b := by
  constructor
  · intro hb
    suffices hboth : g.Reaches roots b ∧ R b from hboth.1
    induction hb with
    | root hb hid =>
      have hR := hreached _ ((hroots _).1 hb)
      exact ⟨.root ((hroots _).1 hb) ((h.mem_ids_iff hR).1 hid), hR⟩
    | edge _ ht ih =>
      rw [h.successors_eq ih.2] at ht
      exact ⟨.edge ih.1 ht, h.closed _ ih.2 _ ht⟩
  · intro hb
    suffices hboth : g'.Reaches roots' b ∧ R b from hboth.1
    induction hb with
    | root hb hid =>
      have hR := hreached _ hb
      exact ⟨.root ((hroots _).2 hb) ((h.mem_ids_iff hR).2 hid), hR⟩
    | edge _ ht ih => exact ⟨.edge ih.1 (h.successors_eq ih.2 ▸ ht), h.closed _ ih.2 _ ht⟩

/-! ## Orders -/

theorem sortByOrdinal_eq {ids : List BlockId} (hids : ∀ b ∈ ids, b ∈ g.ids ∧ R b) :
    g'.sortByOrdinal ids = g.sortByOrdinal ids := by
  have hperm : (g'.sortByOrdinal ids).Perm ids := List.mergeSort_perm _ _
  have hperm' : (g.sortByOrdinal ids).Perm ids := List.mergeSort_perm _ _
  have hsorted : (g'.sortByOrdinal ids).Pairwise fun a b => g.ordinal a ≤ g.ordinal b := by
    refine (List.pairwise_iff_forall_sublist.2 fun {a b} hsub => ?_)
    have hle := List.pairwise_iff_forall_sublist.1 (g'.pairwise_sortByOrdinal ids) hsub
    have hR {c : BlockId} (hc : c ∈ [a, b]) : R c := (hids c (hperm.mem_iff.1 (hsub.subset hc))).2
    rwa [h.ordinal_eq (hR List.mem_cons_self),
      h.ordinal_eq (hR (List.mem_cons_of_mem _ List.mem_cons_self))] at hle
  refine List.Perm.eq_of_pairwise (fun a b ha hb hab hba => ?_) hsorted (g.pairwise_sortByOrdinal ids)
    (hperm.trans hperm'.symm)
  exact eq_of_ordinal (hids a (hperm.mem_iff.1 ha)).1 (hids b (hperm'.mem_iff.1 hb)).1
    (Nat.le_antisymm hab hba)

/-- The orders to choose from do not depend on other blocks. -/
theorem arrange_eq (hstart : g'.start = g.start) (hreached : R g.start) {ids : List BlockId}
    (hids : ∀ b ∈ ids, b ∈ g.ids ∧ R b) (order : BlockOrder) :
    order.arrange g' ids = order.arrange g ids := by
  cases order with
  | ordinal => exact h.sortByOrdinal_eq hids
  | reversePostorder =>
    simp only [BlockOrder.arrange, h.reversePostorder_eq hstart hreached]
    rw [h.sortByOrdinal_eq fun b hb => hids b (List.mem_filter.1 hb).1]

end

end AgreesOn

end FlowGraph

end StackCode
