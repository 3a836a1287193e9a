import Mathlib.Data.List.Nodup
import StackCode.Procedure

/-!
# What a traversal reaches

A depth-first walk leaves every block it was asked for, and every block that an edge leads to from
one it has left.  So the blocks that code is generated for hold the start, the exit and the
suspension points of a generator, and are closed under the edges of the graph.

Conversely it leaves nothing but what the roots reach (`FlowGraph.mem_reachableFrom_iff`).

The walk's invariant is that a block is fresh, left, or about to be left, and that whatever an edge
leads to from a block that is no longer fresh is left, about to be left, or about to be entered.
-/

namespace StackCode

namespace FlowGraph

variable {g : FlowGraph} {fresh left : List BlockId} {todo : List WalkTask}

/-- The walk has left the block or is going to. -/
def Pending (left : List BlockId) (todo : List WalkTask) (b : BlockId) : Prop :=
  b ∈ left ∨ .leave b ∈ todo ∨ .enter b ∈ todo

/-- What holds between two steps of a walk. -/
structure WalkInvariant (g : FlowGraph) (fresh left : List BlockId) (todo : List WalkTask) :
    Prop where
  entered : ∀ b ∈ g.ids, b ∈ fresh ∨ b ∈ left ∨ .leave b ∈ todo
  closed : ∀ b, b ∈ left ∨ .leave b ∈ todo → ∀ t ∈ g.successors b, t ∈ g.ids → Pending left todo t

/-- A step of the walk loses no block that is pending. -/
theorem pending_of_cons {b t : BlockId} {task : WalkTask} {left' : List BlockId}
    {todo' : List WalkTask} (h : Pending left (task :: todo) t)
    (hleft : ∀ s ∈ left, s ∈ left') (htodo : ∀ s ∈ todo, s ∈ todo')
    (htask : task = .leave b ∧ b ∈ left' ∨ task = .enter b ∧ Pending left' todo' b) :
    Pending left' todo' t := by
  rcases h with h | h | h
  · exact .inl (hleft t h)
  · rcases List.mem_cons.1 h with h | h
    · rcases htask with ⟨rfl, hb⟩ | ⟨rfl, -⟩
      · cases h; exact .inl hb
      · cases h
    · exact .inr (.inl (htodo _ h))
  · rcases List.mem_cons.1 h with h | h
    · rcases htask with ⟨rfl, -⟩ | ⟨rfl, hb⟩
      · cases h
      · cases h; exact hb
    · exact .inr (.inr (htodo _ h))

theorem WalkInvariant.leave {b : BlockId} (h : WalkInvariant g fresh left (.leave b :: todo)) :
    WalkInvariant g fresh (b :: left) todo where
  entered t ht := by
    rcases h.entered t ht with h | h | h
    · exact .inl h
    · exact .inr (.inl (List.mem_cons_of_mem b h))
    · rcases List.mem_cons.1 h with h | h
      · cases h; exact .inr (.inl List.mem_cons_self)
      · exact .inr (.inr h)
  closed s hs t ht hid := by
    have hs' : s ∈ left ∨ .leave s ∈ WalkTask.leave b :: todo := by
      rcases hs with hs | hs
      · rcases List.mem_cons.1 hs with rfl | hs
        · exact .inr List.mem_cons_self
        · exact .inl hs
      · exact .inr (List.mem_cons_of_mem _ hs)
    exact pending_of_cons (h.closed s hs' t ht hid) (fun _ => List.mem_cons_of_mem b)
      (fun _ => id) (.inl ⟨rfl, List.mem_cons_self⟩)

theorem WalkInvariant.enter {b : BlockId} (h : WalkInvariant g fresh left (.enter b :: todo)) :
    WalkInvariant g (fresh.erase b) left (g.tasksOf b ++ todo) := by
  have hleave : WalkTask.leave b ∈ g.tasksOf b ++ todo := by simp [tasksOf]
  have hstep : ∀ t, Pending left (.enter b :: todo) t → Pending left (g.tasksOf b ++ todo) t :=
    fun t ht => pending_of_cons ht (fun _ => id) (fun _ => List.mem_append_right _)
      (.inr ⟨rfl, .inr (.inl hleave)⟩)
  refine ⟨fun t ht => ?_, fun s hs t ht hid => ?_⟩
  · by_cases hb : t = b
    · subst hb
      exact .inr (.inr hleave)
    · rcases h.entered t ht with h | h | h
      · exact .inl ((List.mem_erase_of_ne hb).2 h)
      · exact .inr (.inl h)
      · rcases List.mem_cons.1 h with h | h
        · cases h
        · exact .inr (.inr (List.mem_append_right _ h))
  · have hold : s ∈ left ∨ .leave s ∈ WalkTask.enter b :: todo → Pending left (g.tasksOf b ++ todo) t :=
      fun hs => hstep t (h.closed s hs t ht hid)
    rcases hs with hs | hs
    · exact hold (.inl hs)
    · rcases List.mem_append.1 hs with hs | hs
      · have hsb : s = b := by simpa [tasksOf] using hs
        subst hsb
        exact .inr (.inr (List.mem_append_left _ (List.mem_append_left _ (List.mem_map_of_mem ht))))
      · exact hold (.inr (List.mem_cons_of_mem _ hs))

theorem WalkInvariant.skip {b : BlockId} (h : WalkInvariant g fresh left (.enter b :: todo))
    (hb : b ∉ fresh) : WalkInvariant g fresh left todo where
  entered t ht := by
    rcases h.entered t ht with h | h | h
    · exact .inl h
    · exact .inr (.inl h)
    · rcases List.mem_cons.1 h with h | h
      · cases h
      · exact .inr (.inr h)
  closed s hs t ht hid := by
    have hs' : s ∈ left ∨ .leave s ∈ WalkTask.enter b :: todo :=
      hs.imp id (List.mem_cons_of_mem _)
    rcases h.closed s hs' t ht hid with h' | h' | h'
    · exact .inl h'
    · rcases List.mem_cons.1 h' with h' | h'
      · cases h'
      · exact .inr (.inl h')
    · rcases List.mem_cons.1 h' with h' | h'
      · cases h'
        -- A block that has been entered before is left, or will be.
        rcases h.entered _ hid with h' | h' | h'
        · exact absurd h' hb
        · exact .inl h'
        · rcases List.mem_cons.1 h' with h' | h'
          · cases h'
          · exact .inr (.inl h')
      · exact .inr (.inr h')

/-- The walk leaves what is pending, and what edges lead to from there. -/
theorem walk_spec (h : WalkInvariant g fresh left todo) :
    (∀ t ∈ g.ids, Pending left todo t → t ∈ g.walk fresh left todo) ∧
      ∀ b ∈ g.walk fresh left todo, ∀ t ∈ g.successors b, t ∈ g.ids →
        t ∈ g.walk fresh left todo := by
  fun_induction g.walk fresh left todo with
  | case1 fresh left =>
    have hpending : ∀ t, Pending left [] t → t ∈ left := by
      rintro t (ht | ht | ht)
      · exact ht
      · cases ht
      · cases ht
    exact ⟨fun t _ ht => hpending t ht, fun b hb t ht hid => hpending t (h.closed b (.inl hb) t ht hid)⟩
  | case2 fresh left b todo ih =>
    obtain ⟨hpending, hclosed⟩ := ih h.leave
    refine ⟨fun t hid ht => hpending t hid ?_, hclosed⟩
    exact pending_of_cons ht (fun _ => List.mem_cons_of_mem b) (fun _ => id)
      (.inl ⟨rfl, List.mem_cons_self⟩)
  | case3 fresh left b todo hb ih =>
    obtain ⟨hpending, hclosed⟩ := ih h.enter
    refine ⟨fun t hid ht => hpending t hid ?_, hclosed⟩
    exact pending_of_cons ht (fun _ => id) (fun _ => List.mem_append_right _)
      (.inr ⟨rfl, .inr (.inl (by simp [tasksOf]))⟩)
  | case4 fresh left b todo hb ih =>
    obtain ⟨hpending, hclosed⟩ := ih (h.skip hb)
    refine ⟨fun t hid ht => hpending t hid ?_, hclosed⟩
    rcases ht with ht | ht | ht
    · exact .inl ht
    · rcases List.mem_cons.1 ht with ht | ht
      · cases ht
      · exact .inr (.inl ht)
    · rcases List.mem_cons.1 ht with ht | ht
      · cases ht
        rcases h.entered _ hid with h' | h' | h'
        · exact absurd h' hb
        · exact .inl h'
        · rcases List.mem_cons.1 h' with h' | h'
          · cases h'
          · exact .inr (.inl h')
      · exact .inr (.inr ht)

/-- The blocks that a walk is going to leave. -/
def leaving (todo : List WalkTask) : List BlockId :=
  todo.filterMap fun
    | .leave b => some b
    | .enter _ => none

theorem leaving_tasksOf (b : BlockId) (todo : List WalkTask) :
    leaving (g.tasksOf b ++ todo) = b :: leaving todo := by
  have hsuccessors : leaving ((g.successors b).map .enter) = [] :=
    List.filterMap_eq_nil_iff.2 fun task htask => by
      obtain ⟨t, -, rfl⟩ := List.mem_map.1 htask
      rfl
  unfold leaving at hsuccessors ⊢
  unfold tasksOf
  rw [List.filterMap_append, List.filterMap_append, hsuccessors]
  rfl

/-- A walk leaves no block twice: one that it enters is not fresh any more. -/
theorem nodup_walk (h : (fresh ++ (leaving todo ++ left)).Nodup) : (g.walk fresh left todo).Nodup := by
  fun_induction g.walk fresh left todo with
  | case1 fresh left => exact (List.nodup_append.1 h).2.1
  | case2 fresh left b todo ih =>
    have hmove : (fresh ++ (leaving todo ++ b :: left)).Perm
        (fresh ++ (leaving (.leave b :: todo) ++ left)) := List.perm_middle.append_left fresh
    exact ih (hmove.nodup_iff.2 h)
  | case3 fresh left b todo hb ih =>
    have hmove : (fresh.erase b ++ (leaving (g.tasksOf b ++ todo) ++ left)).Perm
        (fresh ++ (leaving (.enter b :: todo) ++ left)) := by
      rw [leaving_tasksOf]
      exact List.perm_middle.trans ((List.perm_cons_erase hb).symm.append_right _)
    exact ih (hmove.nodup_iff.2 h)
  | case4 fresh left b todo hb ih => exact ih h

theorem nodup_ids (g : FlowGraph) : g.ids.Nodup :=
  List.Nodup.map (fun _ _ h => BlockId.mk.inj h) List.nodup_range

theorem nodup_reversePostorder (g : FlowGraph) : g.reversePostorder.Nodup := by
  refine nodup_walk ?_
  rw [show leaving [.enter g.start] ++ [] = [] from rfl, List.append_nil]
  exact g.nodup_ids

theorem reachableFrom_spec (g : FlowGraph) (roots : List BlockId) :
    (∀ t ∈ roots, t ∈ g.ids → t ∈ g.reachableFrom roots) ∧
      ∀ b ∈ g.reachableFrom roots, ∀ t ∈ g.successors b, t ∈ g.ids → t ∈ g.reachableFrom roots := by
  have hinv : WalkInvariant g g.ids [] (roots.map .enter) := by
    refine ⟨fun b hb => .inl hb, fun b hb => ?_⟩
    simp at hb
  obtain ⟨hpending, hclosed⟩ := walk_spec hinv
  exact ⟨fun t ht hid => hpending t hid (.inr (.inr (List.mem_map_of_mem ht))), hclosed⟩

/-- The block is one of the roots, or edges lead there from one. -/
inductive Reaches (g : FlowGraph) (roots : List BlockId) : BlockId → Prop
  | root {b : BlockId} (hb : b ∈ roots) (hid : b ∈ g.ids) : Reaches g roots b
  | edge {b t : BlockId} (hb : Reaches g roots b) (ht : t ∈ g.successors b) : Reaches g roots t

/-! ## Blocks of a graph -/

theorem mem_blocks_of_block? {b : BlockId} {blk : Block} (h : g.block? b = some blk) :
    blk ∈ g.blocks := Array.mem_of_getElem? h

theorem id_of_block? {b : BlockId} {blk : Block} (h : g.block? b = some blk) : blk.id = b := by
  rw [g.wellFormed.id_eq b.index blk h]

theorem exists_block {b : BlockId} (h : b ∈ g.ids) : ∃ blk, g.block? b = some blk :=
  ⟨_, Array.getElem?_eq_getElem (mem_ids.1 h)⟩

theorem mem_ids_of_block? {b : BlockId} {blk : Block} (h : g.block? b = some blk) : b ∈ g.ids :=
  mem_ids.2 (Array.getElem?_eq_some_iff.1 h).1

theorem block?_of_mem {blk : Block} (h : blk ∈ g.blocks) : g.block? blk.id = some blk := by
  obtain ⟨i, hi⟩ := Array.mem_iff_getElem?.1 h
  rw [g.wellFormed.id_eq i blk hi]
  exact hi

/-- The targets of a block are blocks. -/
theorem target_mem_ids {b : BlockId} {blk : Block} (h : g.block? b = some blk) {t : BlockId}
    (ht : t ∈ blk.edge.targets) : t ∈ g.ids :=
  mem_ids.2 (g.wellFormed.target_lt blk (mem_blocks_of_block? h) t ht)

theorem successors_of_block? {b : BlockId} {blk : Block} (h : g.block? b = some blk) :
    g.successors b = blk.edge.targets := by
  rw [successors, h]
  rfl

theorem successors_mem_ids {b t : BlockId} (ht : t ∈ g.successors b) : t ∈ g.ids := by
  unfold successors at ht
  cases h : g.block? b with
  | none =>
    rw [h] at ht
    cases ht
  | some blk =>
    rw [h] at ht
    exact target_mem_ids h ht

theorem Reaches.mem_ids {roots : List BlockId} {b : BlockId} (h : g.Reaches roots b) : b ∈ g.ids := by
  cases h with
  | root _ hid => exact hid
  | edge _ ht => exact successors_mem_ids ht

/-- The walk leaves nothing but what it had left or the tasks reach. -/
theorem reaches_of_mem_walk {roots : List BlockId} (hfresh : ∀ b ∈ fresh, b ∈ g.ids)
    (hleft : ∀ b ∈ left, g.Reaches roots b)
    (htodo : ∀ b, .leave b ∈ todo ∨ .enter b ∈ todo ∧ b ∈ g.ids → g.Reaches roots b) :
    ∀ b ∈ g.walk fresh left todo, g.Reaches roots b := by
  fun_induction g.walk fresh left todo with
  | case1 fresh left => exact hleft
  | case2 fresh left b todo ih =>
    refine ih hfresh (List.forall_mem_cons.2 ⟨htodo b (.inl List.mem_cons_self), hleft⟩) fun t ht => ?_
    exact htodo t (ht.imp (List.mem_cons_of_mem _) fun h => ⟨List.mem_cons_of_mem _ h.1, h.2⟩)
  | case3 fresh left b todo hb ih =>
    have hreach : g.Reaches roots b := htodo b (.inr ⟨List.mem_cons_self, hfresh b hb⟩)
    refine ih (fun t ht => hfresh t (List.mem_of_mem_erase ht)) hleft fun t ht => ?_
    simp only [tasksOf, List.mem_append, List.mem_map, List.mem_singleton] at ht
    rcases ht with ((⟨s, -, hs⟩ | hs) | hs) | ⟨(⟨s, hs, heq⟩ | hs) | hs, hid⟩
    · cases hs
    · cases hs
      exact hreach
    · exact htodo t (.inl (List.mem_cons_of_mem _ hs))
    · cases heq
      exact .edge hreach hs
    · cases hs
    · exact htodo t (.inr ⟨List.mem_cons_of_mem _ hs, hid⟩)
  | case4 fresh left b todo hb ih =>
    refine ih hfresh hleft fun t ht => ?_
    exact htodo t (ht.imp (List.mem_cons_of_mem _) fun h => ⟨List.mem_cons_of_mem _ h.1, h.2⟩)

/-- The traversal from some roots finds what they reach. -/
theorem mem_reachableFrom_iff {roots : List BlockId} {b : BlockId} :
    b ∈ g.reachableFrom roots ↔ g.Reaches roots b := by
  constructor
  · refine reaches_of_mem_walk (fun _ => id) (fun _ h => absurd h List.not_mem_nil) (fun t ht => ?_) b
    simp only [List.mem_map, WalkTask.enter.injEq, reduceCtorEq, and_false, exists_false, false_or,
      exists_eq_right] at ht
    exact .root ht.1 ht.2
  · intro h
    obtain ⟨hroots, hclosed⟩ := g.reachableFrom_spec roots
    induction h with
    | root hb hid => exact hroots _ hb hid
    | edge _ ht ih => exact hclosed _ ih _ ht (successors_mem_ids ht)

/-- Where one block has a kind, that block is found. -/
theorem block?_idOfKind {k : BlockKind} (h : g.blocks.toList.countP (·.kind = k) = 1) :
    ∃ blk, g.block? (g.idOfKind k) = some blk ∧ blk.kind = k := by
  obtain ⟨blk, hmem, hk⟩ := List.countP_pos_iff.1 (by rw [h]; exact Nat.one_pos)
  have hlt : g.blocks.toList.findIdx (·.kind = k) < g.blocks.toList.length :=
    List.findIdx_lt_length_of_exists ⟨blk, hmem, hk⟩
  refine ⟨g.blocks.toList[g.blocks.toList.findIdx (·.kind = k)], ?_, ?_⟩
  · unfold block? idOfKind
    rw [← Array.getElem?_toList]
    exact List.getElem?_eq_getElem hlt
  · have := List.findIdx_getElem (w := hlt)
    simpa using this

theorem idOfKind_eq {k : BlockKind} (h : g.blocks.toList.countP (·.kind = k) = 1) {b : BlockId}
    {blk : Block} (hb : g.block? b = some blk) (hk : blk.kind = k) : b = g.idOfKind k := by
  obtain ⟨blk', hb', hk'⟩ := block?_idOfKind h
  rw [List.countP_eq_length_filter, List.length_eq_one_iff] at h
  obtain ⟨only, honly⟩ := h
  have hall : ∀ c ∈ g.blocks, c.kind = k → c = only := by
    intro c hc hck
    have hmem : c ∈ g.blocks.toList.filter (·.kind = k) := by simp [hc, hck]
    rw [honly, List.mem_singleton] at hmem
    exact hmem
  have heq : blk = blk' := (hall blk (mem_blocks_of_block? hb) hk).trans
    (hall blk' (mem_blocks_of_block? hb') hk').symm
  rw [← id_of_block? hb, ← id_of_block? hb', heq]

theorem block?_start (g : FlowGraph) : ∃ blk, g.block? g.start = some blk ∧ blk.kind = .start :=
  block?_idOfKind g.wellFormed.one_start

theorem block?_exit (g : FlowGraph) : ∃ blk, g.block? g.exit = some blk ∧ blk.kind = .exit :=
  block?_idOfKind g.wellFormed.one_exit

/-- The kind of a block tells whether it is the start, and whether it is the exit. -/
theorem kind_eq_start_iff {b : BlockId} {blk : Block} (h : g.block? b = some blk) :
    blk.kind = .start ↔ b = g.start := by
  constructor
  · exact idOfKind_eq g.wellFormed.one_start h
  · rintro rfl
    obtain ⟨blk', h', hk⟩ := g.block?_start
    rw [h] at h'
    cases h'
    exact hk

theorem kind_eq_exit_iff {b : BlockId} {blk : Block} (h : g.block? b = some blk) :
    blk.kind = .exit ↔ b = g.exit := by
  constructor
  · exact idOfKind_eq g.wellFormed.one_exit h
  · rintro rfl
    obtain ⟨blk', h', hk⟩ := g.block?_exit
    rw [h] at h'
    cases h'
    exact hk

theorem start_ne_exit (g : FlowGraph) : g.start ≠ g.exit := by
  intro heq
  obtain ⟨blk, h, hk⟩ := g.block?_start
  rw [(kind_eq_exit_iff h).2 heq] at hk
  cases hk

end FlowGraph

/-- A suspension point names the block that holds it. -/
theorem Block.block_of_mem_yields {b : Block} {y : YieldSite} (h : y ∈ b.yields) : y.block = b.id := by
  obtain ⟨s, -, hs⟩ := List.mem_filterMap.1 h
  obtain ⟨index, -, rfl⟩ := Option.map_eq_some_iff.1 hs
  rfl

/-! ## Blocks that code is generated for -/

namespace Procedure

variable {p : Procedure}

theorem mem_liveBlocks {b : BlockId} :
    b ∈ p.liveBlocks ↔ b ∈ p.graph.ids ∧
      (b ∈ p.graph.reachableFrom p.roots ∨ b = p.graph.exit) := by
  simp [liveBlocks]

theorem nodup_liveBlocks (p : Procedure) : p.liveBlocks.Nodup := p.graph.nodup_ids.filter _

theorem start_mem_liveBlocks (p : Procedure) : p.graph.start ∈ p.liveBlocks := by
  obtain ⟨blk, h, -⟩ := p.graph.block?_start
  have hid := FlowGraph.mem_ids_of_block? h
  refine mem_liveBlocks.2 ⟨hid, .inl ?_⟩
  exact (p.graph.reachableFrom_spec p.roots).1 _ List.mem_cons_self hid

theorem exit_mem_liveBlocks (p : Procedure) : p.graph.exit ∈ p.liveBlocks := by
  obtain ⟨blk, h, -⟩ := p.graph.block?_exit
  exact mem_liveBlocks.2 ⟨FlowGraph.mem_ids_of_block? h, .inr rfl⟩

/-- Code is generated for whatever an edge of the code leads to. -/
theorem target_mem_liveBlocks {b t : BlockId} {blk : Block} (hb : b ∈ p.liveBlocks)
    (h : p.graph.block? b = some blk) (ht : t ∈ blk.edge.targets) : t ∈ p.liveBlocks := by
  have hid := FlowGraph.target_mem_ids h ht
  refine mem_liveBlocks.2 ⟨hid, .inl ?_⟩
  rcases (mem_liveBlocks.1 hb).2 with hb | rfl
  · refine (p.graph.reachableFrom_spec p.roots).2 b hb t ?_ hid
    rw [FlowGraph.successors_of_block? h]
    exact ht
  · have hexit := p.graph.wellFormed.exit_edge blk (FlowGraph.mem_blocks_of_block? h)
      ((FlowGraph.kind_eq_exit_iff h).2 rfl)
    rw [hexit] at ht
    cases ht

/-- Code is generated for every suspension point of a generator. -/
theorem yield_mem_liveBlocks (hgen : p.isGenerator = true) {y : YieldSite}
    (hy : y ∈ p.graph.yields) : y.block ∈ p.liveBlocks := by
  have hid : y.block ∈ p.graph.ids := by
    obtain ⟨blk, hblk, hmem⟩ := List.mem_flatMap.1 hy
    rw [Block.block_of_mem_yields hmem]
    exact FlowGraph.mem_ids_of_block? (FlowGraph.block?_of_mem (Array.mem_toList_iff.1 hblk))
  refine mem_liveBlocks.2 ⟨hid, .inl ?_⟩
  refine (p.graph.reachableFrom_spec p.roots).1 _ ?_ hid
  unfold roots
  rw [hgen, if_pos rfl]
  exact List.mem_cons_of_mem _ (List.mem_map_of_mem hy)

end Procedure

end StackCode
