import Mathlib.Data.List.Basic
import Mathlib.Data.Prod.Basic
import StackCode.Graph.FlowGraph

/-!
# Validation of block lists

What a list of blocks is refused for is a fault that it has (`GraphError.Holds`), and no well-formed
list has one; so the well-formed lists are those that are accepted.  The graph of an accepted list
names the suspension points of the list, each with its block, in the order in which they stand there
(`ListsYields`).  Main statement: `FlowGraph.ofBlocks_spec`.
-/

namespace StackCode

/-- The blocks have the fault that is reported. -/
def GraphError.Holds (blocks : Array Block) : GraphError → Prop
  | .misnumberedBlock position id =>
    ∃ b, blocks[position]? = some b ∧ b.id = id ∧ id.index ≠ position
  | .startCount count => blocks.toList.countP (·.kind = .start) = count ∧ count ≠ 1
  | .exitCount count => blocks.toList.countP (·.kind = .exit) = count ∧ count ≠ 1
  | .exitHasEdge block edge =>
    ∃ b ∈ blocks, b.id = block ∧ b.kind = .exit ∧ b.edge ≠ .none ∧ b.edge.kindName = edge
  | .danglingTarget block target =>
    ∃ b ∈ blocks, b.id = block ∧ target ∈ b.edge.targets ∧ blocks.size ≤ target.index
  | .handlerEnteredNormally handler block =>
    (∃ b ∈ blocks, b.edge.handler? = some handler) ∧
      ∃ c ∈ blocks, c.id = block ∧ handler ∈ c.edge.normalTargets
  | .reservedHandler handler =>
    (∃ b ∈ blocks, b.edge.handler? = some handler) ∧
      ∃ c ∈ blocks, c.id = handler ∧ (c.kind = .start ∨ c.kind = .exit)
  | .duplicateOrdinal ordinal first second =>
    ∃ (i j : Nat) (b c : Block), i < j ∧ blocks[i]? = some b ∧ blocks[j]? = some c ∧
      b.id = first ∧ c.id = second ∧ b.ordinal = ordinal ∧ c.ordinal = ordinal

variable {blocks : Array Block} {e : GraphError}

/-- A list of blocks that has a fault is not well formed. -/
theorem GraphError.Holds.not_wellFormed (h : e.Holds blocks) : ¬ WellFormed blocks := by
  intro hwf
  cases e with
  | misnumberedBlock position id =>
    obtain ⟨b, hb, rfl, hne⟩ := h
    exact hne (congrArg BlockId.index (hwf.id_eq position b hb))
  | startCount count => exact h.2 (h.1 ▸ hwf.one_start)
  | exitCount count => exact h.2 (h.1 ▸ hwf.one_exit)
  | exitHasEdge block edge =>
    obtain ⟨b, hb, -, hk, hedge, -⟩ := h
    exact hedge (hwf.exit_edge b hb hk)
  | danglingTarget block target =>
    obtain ⟨b, hb, -, ht, hle⟩ := h
    exact absurd (hwf.target_lt b hb target ht) (Nat.not_lt.2 hle)
  | handlerEnteredNormally handler block =>
    obtain ⟨⟨b, hb, hh⟩, c, hc, -, ht⟩ := h
    exact hwf.handler_exclusive b hb handler hh c hc ht
  | reservedHandler handler =>
    obtain ⟨⟨b, hb, hh⟩, c, hc, hid, hk⟩ := h
    have hnormal := hwf.handler_normal b hb handler hh c hc hid
    rw [hnormal] at hk
    rcases hk with hk | hk <;> cases hk
  | duplicateOrdinal ordinal first second =>
    obtain ⟨i, j, b, c, hlt, hb, hc, -, -, hob, hoc⟩ := h
    exact absurd (hwf.ordinal_inj i j b c hb hc (hob.trans hoc.symm)) (Nat.ne_of_lt hlt)

/-! ## What is reported -/

namespace WellFormed

theorem holds_of_positionFault? {i : Nat} {b : Block} (hb : blocks[i]? = some b)
    (h : positionFault? blocks i b = some e) : e.Holds blocks := by
  have hmem : b ∈ blocks := Array.mem_of_getElem? hb
  unfold positionFault? at h
  split at h
  · next hid =>
    cases h
    exact ⟨b, hb, rfl, hid⟩
  · split at h
    · next hexit =>
      cases h
      exact ⟨b, hmem, rfl, hexit.1, fun hnone => hexit.2 (Edge.isNone_iff.2 hnone), rfl⟩
    · split at h
      · next t ht =>
        cases h
        have hle : blocks.size ≤ t.index := by simpa using List.find?_some ht
        exact ⟨b, hmem, rfl, List.mem_of_find?_eq_some ht, hle⟩
      · obtain ⟨first, hfirst, rfl⟩ := Option.map_eq_some_iff.1 h
        obtain ⟨j, hj, hget⟩ := List.mem_take_iff_getElem.1 (List.mem_of_find?_eq_some hfirst)
        have hordinal : first.ordinal = b.ordinal := by simpa using List.find?_some hfirst
        have hji : j < i := Nat.lt_of_lt_of_le hj (Nat.min_le_left _ _)
        refine ⟨j, i, first, b, hji, ?_, hb, rfl, rfl, hordinal, rfl⟩
        rw [← Array.getElem?_toList, ← hget]
        exact List.getElem?_eq_getElem _

theorem holds_of_handlerFault? (h : handlerFault? blocks = some e) : e.Holds blocks := by
  unfold handlerFault? at h
  simp only at h
  split at h
  · next b hb =>
    cases h
    have hhandler : b.id ∈ handlers blocks := by simpa using List.find?_some hb
    have hreserved : b ∈ reserved blocks := List.mem_of_find?_eq_some hb
    have hkind : b ∈ blocks ∧ (b.kind = .start ∨ b.kind = .exit) := by
      simp only [reserved, List.mem_append, List.mem_filter, Array.mem_toList_iff,
        decide_eq_true_eq] at hreserved
      rcases hreserved with ⟨hmem, hk⟩ | ⟨hmem, hk⟩
      · exact ⟨hmem, .inl hk⟩
      · exact ⟨hmem, .inr hk⟩
    exact ⟨mem_handlers.1 hhandler, b, hkind.1, rfl, hkind.2⟩
  · obtain ⟨c, hc, hfound⟩ := List.exists_of_findSome?_eq_some h
    obtain ⟨t, ht, rfl⟩ := Option.map_eq_some_iff.1 hfound
    have hhandler : t ∈ handlers blocks := by simpa using List.find?_some ht
    exact ⟨mem_handlers.1 hhandler, c, Array.mem_toList_iff.1 hc, rfl, List.mem_of_find?_eq_some ht⟩

/-- The first fault that is found is one that the blocks have. -/
theorem holds_of_fault? (h : fault? blocks = some e) : e.Holds blocks := by
  unfold fault? at h
  split at h
  · next e' hfound =>
    cases h
    obtain ⟨i, -, hi⟩ := List.exists_of_findSome?_eq_some hfound
    obtain ⟨b, hb, hfault⟩ := Option.bind_eq_some_iff.1 hi
    exact holds_of_positionFault? hb hfault
  · simp only at h
    split at h
    · next hstart =>
      cases h
      exact ⟨rfl, hstart⟩
    · split at h
      · next hexit =>
        cases h
        exact ⟨rfl, hexit⟩
      · exact holds_of_handlerFault? h

/-- Exactly the well-formed lists of blocks have no fault. -/
theorem fault?_eq_none_iff : fault? blocks = none ↔ WellFormed blocks := by
  refine ⟨wellFormed_of_fault?_eq_none, fun hwf => ?_⟩
  cases h : fault? blocks with
  | none => rfl
  | some e => exact absurd hwf (holds_of_fault? h).not_wellFormed

end WellFormed

/-! ## Suspension points -/

/-- The statement at this position of the block at this position is that suspension point. -/
def YieldAt (blocks : Array Block) (position : Nat × Nat) (site : YieldSite) : Prop :=
  ∃ b y, blocks[position.1]? = some b ∧ b.statements[position.2]? = some (.yield y) ∧
    site = ⟨y.index, b.id⟩

/-- All suspension points of the blocks, in the order of the blocks and, in one block, in the order of
its statements. -/
def ListsYields (blocks : Array Block) (sites : List YieldSite) : Prop :=
  ∃ entries : List ((Nat × Nat) × YieldSite), entries.map Prod.snd = sites ∧
    (entries.Pairwise fun a b => Prod.Lex (· < ·) (· < ·) a.1 b.1) ∧
    ∀ position site, (position, site) ∈ entries ↔ YieldAt blocks position site

namespace Block

/-- The suspension points of the block at position `i`, each with where it stands. -/
def yieldEntries (b : Block) (i : Nat) : List ((Nat × Nat) × YieldSite) :=
  b.statements.zipIdx.filterMap fun s => s.1.yieldIndex?.map fun index => ((i, s.2), ⟨index, b.id⟩)

theorem map_snd_yieldEntries (b : Block) (i : Nat) : (b.yieldEntries i).map Prod.snd = b.yields := by
  have hstatements : b.statements = b.statements.zipIdx.map Prod.fst := (List.zipIdx_map_fst 0 _).symm
  unfold yields yieldEntries
  conv_rhs => rw [hstatements]
  rw [List.map_filterMap, List.filterMap_map]
  refine List.filterMap_congr fun s _ => ?_
  rw [Option.map_map]
  rfl

theorem mem_yieldEntries {b : Block} {i : Nat} {position : Nat × Nat} {site : YieldSite} :
    (position, site) ∈ b.yieldEntries i ↔
      position.1 = i ∧ ∃ y, b.statements[position.2]? = some (.yield y) ∧ site = ⟨y.index, b.id⟩ := by
  unfold yieldEntries
  rw [List.mem_filterMap]
  constructor
  · rintro ⟨⟨s, j⟩, hmem, hs⟩
    obtain ⟨index, hindex, heq⟩ := Option.map_eq_some_iff.1 hs
    cases heq
    cases s with
    | yield y =>
      cases hindex
      exact ⟨rfl, y, List.mk_mem_zipIdx_iff_getElem?.1 hmem, rfl⟩
    | _ => cases hindex
  · rintro ⟨rfl, y, hy, rfl⟩
    exact ⟨(.yield y, position.2), List.mk_mem_zipIdx_iff_getElem?.2 hy, rfl⟩

end Block

/-- Positions ascend in a list that is numbered. -/
theorem pairwise_zipIdx {α : Type} (xs : List α) : xs.zipIdx.Pairwise fun a b => a.2 < b.2 := by
  rw [← List.pairwise_map (f := Prod.snd) (R := (· < ·)), List.zipIdx_map_snd]
  exact List.pairwise_lt_range'

theorem listsYields (blocks : Array Block) :
    ListsYields blocks (blocks.toList.flatMap Block.yields) := by
  refine ⟨blocks.toList.zipIdx.flatMap fun b => b.1.yieldEntries b.2, ?_, ?_, fun position site => ?_⟩
  · have hblocks : blocks.toList = blocks.toList.zipIdx.map Prod.fst := (List.zipIdx_map_fst 0 _).symm
    conv_rhs => rw [hblocks]
    rw [List.map_flatMap, List.flatMap_map]
    exact List.flatMap_congr fun b _ => b.1.map_snd_yieldEntries b.2
  · refine List.pairwise_flatMap.2 ⟨fun b _ => ?_, (pairwise_zipIdx _).imp fun hlt x hx y hy => ?_⟩
    · refine List.pairwise_filterMap.2 ((pairwise_zipIdx _).imp fun hlt x hx y hy => ?_)
      obtain ⟨-, -, rfl⟩ := Option.map_eq_some_iff.1 hx
      obtain ⟨-, -, rfl⟩ := Option.map_eq_some_iff.1 hy
      exact .right _ hlt
    · obtain ⟨hi, -⟩ := Block.mem_yieldEntries.1 hx
      obtain ⟨hj, -⟩ := Block.mem_yieldEntries.1 hy
      refine Prod.lex_iff.2 (.inl ?_)
      rw [hi, hj]
      exact hlt
  · simp only [List.mem_flatMap, Block.mem_yieldEntries, YieldAt]
    constructor
    · rintro ⟨⟨b, i⟩, hmem, rfl, y, hy, rfl⟩
      rw [List.mk_mem_zipIdx_iff_getElem?, Array.getElem?_toList] at hmem
      exact ⟨b, y, hmem, hy, rfl⟩
    · rintro ⟨b, y, hb, hy, rfl⟩
      refine ⟨(b, position.1), ?_, rfl, y, hy, rfl⟩
      rw [List.mk_mem_zipIdx_iff_getElem?, Array.getElem?_toList]
      exact hb

/-! ## Graphs of block lists -/

/-- Exactly the well-formed lists of blocks are accepted; the graph of one has its blocks and its
suspension points, and what another is refused for is a fault that it has. -/
theorem FlowGraph.ofBlocks_spec (blocks : Array Block) :
    ((∃ g, ofBlocks blocks = .ok g) ↔ WellFormed blocks) ∧
      (∀ g, ofBlocks blocks = .ok g → g.blocks = blocks ∧ ListsYields blocks g.yields) ∧
      ∀ e, ofBlocks blocks = .error e → e.Holds blocks := by
  refine ⟨⟨?_, fun hwf => ?_⟩, fun g hg => ?_, fun e he => ?_⟩
  · rintro ⟨g, hg⟩
    exact blocks_of_ofBlocks hg ▸ g.wellFormed
  · have hfault := WellFormed.fault?_eq_none_iff.2 hwf
    unfold ofBlocks
    split
    · next e he =>
      rw [hfault] at he
      cases he
    · exact ⟨_, rfl⟩
  · have hblocks := blocks_of_ofBlocks hg
    refine ⟨hblocks, ?_⟩
    unfold yields
    rw [hblocks]
    exact listsYields blocks
  · unfold ofBlocks at he
    split at he
    · next e' hfault =>
      cases he
      exact WellFormed.holds_of_fault? hfault
    · cases he

end StackCode
