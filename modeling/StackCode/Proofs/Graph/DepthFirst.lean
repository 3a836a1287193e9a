import Mathlib.Data.List.Perm.Subperm
import Mathlib.Data.List.Permutation
import StackCode.Proofs.Graph.Reachability

/-!
# Depth-first postorder

The walk with its list of tasks is the recursive depth-first traversal (`FlowGraph.Visits`): blocks are
visited in edge order, a block that was seen before is passed over, and a block is listed after all that
is seen below it.  A visit runs through a walk's tasks without looking at those behind it
(`FlowGraph.Visits.walk_eq`), so the postorder is what a visit of the start lists.

So does the loop over a stack whose entries tell whether the successors of their block are done
(`FlowGraph.drain`).  It puts only new successors on the stack, but a block can be there several times and
be seen in the meantime; so it is looked at again when its entry comes to the top, and a visit passes the
same blocks over (`FlowGraph.Visits.drain_eq`).

When a block is listed, an edge leads from it to a block that was listed before, or to one that is still
being visited; the latter leads back to it.  So the reverse postorder follows every edge that is on no
cycle.  Main statement: `FlowGraph.postorder_spec`.
-/

namespace StackCode

namespace FlowGraph

/-- A recursive depth-first traversal: with the blocks `seen` passed over, the visit of some blocks, one
after the other, has seen `seen'` in the end and lists `listed`. -/
inductive Visits (g : FlowGraph) :
    (seen bs seen' listed : List BlockId) → Prop
  /-- There is nothing to visit. -/
  | nil {seen : List BlockId} : Visits g seen [] seen []
  /-- The block was seen before. -/
  | skip {seen seen' bs listed : List BlockId} {b : BlockId} (hb : b ∈ seen)
      (hrest : Visits g seen bs seen' listed) : Visits g seen (b :: bs) seen' listed
  /-- The successors of the block are visited, the block is listed, and the rest is visited. -/
  | enter {seen inner seen' bs below listed : List BlockId} {b : BlockId} (hb : b ∉ seen)
      (hbelow : Visits g (b :: seen) (g.successors b) inner below)
      (hrest : Visits g inner bs seen' listed) :
      Visits g seen (b :: bs) seen' (below ++ b :: listed)

variable {g : FlowGraph} {seen seen' bs listed : List BlockId} {b u v : BlockId}

/-! ## Visits -/

/-- What is listed is what has been seen since. -/
theorem Visits.mem_iff (h : g.Visits seen bs seen' listed) :
    b ∈ seen' ↔ b ∈ seen ∨ b ∈ listed := by
  induction h with
  | nil => simp
  | skip _ _ ih => exact ih
  | enter _ _ _ ihbelow ihrest =>
    rw [ihrest, ihbelow, List.mem_cons, List.mem_append, List.mem_cons]
    tauto

/-- All blocks that are visited have been seen in the end. -/
theorem Visits.mem_of_mem (h : g.Visits seen bs seen' listed) : ∀ b ∈ bs, b ∈ seen' := by
  induction h with
  | nil => simp
  | skip hb hrest ih =>
    intro c hc
    rcases List.mem_cons.1 hc with rfl | hc
    · exact hrest.mem_iff.2 (.inl hb)
    · exact ih c hc
  | enter _ hbelow hrest _ ihrest =>
    intro c hc
    rcases List.mem_cons.1 hc with rfl | hc
    · apply hrest.mem_iff.2
      exact .inl (hbelow.mem_iff.2 (.inl List.mem_cons_self))
    · exact ihrest c hc

/-- A visit has one outcome. -/
theorem Visits.unique (h : g.Visits seen bs seen' listed) {seen'' listed' : List BlockId}
    (h' : g.Visits seen bs seen'' listed') : seen'' = seen' ∧ listed' = listed := by
  induction h generalizing seen'' listed' with
  | nil =>
    cases h'
    exact ⟨rfl, rfl⟩
  | skip hb _ ih =>
    cases h' with
    | skip _ hrest' => exact ih hrest'
    | enter hb' _ _ => exact absurd hb hb'
  | enter hb _ _ ihbelow ihrest =>
    cases h' with
    | skip hb' _ => exact absurd hb' hb
    | enter _ hbelow' hrest' =>
      obtain ⟨rfl, rfl⟩ := ihbelow hbelow'
      obtain ⟨rfl, rfl⟩ := ihrest hrest'
      exact ⟨rfl, rfl⟩

/-- What a block's successors reach, the block reaches. -/
theorem Reaches.of_successors (hb : b ∈ g.ids) (h : g.Reaches (g.successors b) u) :
    g.Reaches [b] u := by
  induction h with
  | root ht _ => exact .edge (.root List.mem_cons_self hb) ht
  | edge _ ht ih => exact .edge ih ht

theorem Reaches.mono {roots roots' : List BlockId} (hroots : ∀ b ∈ roots, b ∈ roots')
    (h : g.Reaches roots u) : g.Reaches roots' u := by
  induction h with
  | root hb hid => exact .root (hroots _ hb) hid
  | edge _ ht ih => exact .edge ih ht

/-- Only what the blocks reach is listed. -/
theorem Visits.reaches (h : g.Visits seen bs seen' listed) (hbs : ∀ b ∈ bs, b ∈ g.ids) :
    ∀ u ∈ listed, g.Reaches bs u := by
  induction h with
  | nil => simp
  | skip _ _ ih =>
    intro u hu
    have hrest := ih (fun c hc => hbs c (List.mem_cons_of_mem _ hc)) u hu
    exact hrest.mono fun c hc => List.mem_cons_of_mem _ hc
  | @enter _ _ _ bs _ _ b _ _ _ ihbelow ihrest =>
    intro u hu
    have hid : b ∈ g.ids := hbs b List.mem_cons_self
    rcases List.mem_append.1 hu with hu | hu
    · have hbelow := ihbelow (fun c hc => successors_mem_ids hc) u hu
      apply (hbelow.of_successors hid).mono
      simp
    · rcases List.mem_cons.1 hu with rfl | hu
      · exact .root List.mem_cons_self hid
      · have hrest := ihrest (fun c hc => hbs c (List.mem_cons_of_mem _ hc)) u hu
        exact hrest.mono fun c hc => List.mem_cons_of_mem _ hc

/-- When a block is listed, the blocks that it leads to were seen before, or lead back to it, or are
listed in front of it. -/
theorem Visits.edge (h : g.Visits seen bs seen' listed) (hbs : ∀ b ∈ bs, b ∈ g.ids) :
    ∀ u ∈ listed, ∀ v ∈ g.successors u,
      v ∈ seen ∨ g.Reaches [v] u ∨ [v, u].Sublist listed := by
  induction h with
  | nil => simp
  | skip _ _ ih => exact ih fun c hc => hbs c (List.mem_cons_of_mem _ hc)
  | @enter seen inner seen' bs below listed b hb hbelow hrest ihbelow ihrest =>
    intro u hu v hv
    have hid : b ∈ g.ids := hbs b List.mem_cons_self
    have hsucc : ∀ c ∈ g.successors b, c ∈ g.ids := fun c hc => successors_mem_ids hc
    have hinner : v ∈ inner → v = b ∨ v ∈ seen ∨ v ∈ below := by
      intro hmem
      rw [hbelow.mem_iff, List.mem_cons] at hmem
      tauto
    rcases List.mem_append.1 hu with hlow | hhigh
    · -- the block is listed below `b`
      rcases ihbelow hsucc u hlow v hv with hseen | hback | hsub
      · rcases List.mem_cons.1 hseen with rfl | hseen
        · exact .inr (.inl ((hbelow.reaches hsucc u hlow).of_successors hid))
        · exact .inl hseen
      · exact .inr (.inl hback)
      · exact .inr (.inr (hsub.trans (List.sublist_append_left _ _)))
    · rcases List.mem_cons.1 hhigh with rfl | hrear
      · rcases hinner (hbelow.mem_of_mem v hv) with rfl | hseen | hmem
        · exact .inr (.inl (.root List.mem_cons_self hid))
        · exact .inl hseen
        · refine .inr (.inr ?_)
          exact (List.singleton_sublist.2 hmem).append (List.singleton_sublist.2 List.mem_cons_self)
      · -- the block is listed behind `b`
        rcases ihrest (fun c hc => hbs c (List.mem_cons_of_mem _ hc)) u hrear v hv with
          hin | hback | hsub
        · rcases hinner hin with rfl | hseen | hmem
          · have hsub : [v, u].Sublist (v :: listed) := (List.singleton_sublist.2 hrear).cons_cons v
            exact .inr (.inr (hsub.trans (List.sublist_append_right _ _)))
          · exact .inl hseen
          · refine .inr (.inr ?_)
            apply (List.singleton_sublist.2 hmem).append
            exact List.singleton_sublist.2 (List.mem_cons_of_mem _ hrear)
        · exact .inr (.inl hback)
        · refine .inr (.inr ?_)
          apply hsub.trans
          exact (List.sublist_cons_self _ _).trans (List.sublist_append_right _ _)

/-! ## The walk visits -/

/-- The blocks that have not been seen. -/
def unseen (g : FlowGraph) (seen : List BlockId) : List BlockId := g.ids.filter (· ∉ seen)

theorem mem_unseen : b ∈ g.unseen seen ↔ b ∈ g.ids ∧ b ∉ seen := by
  simp [unseen]

theorem unseen_nil (g : FlowGraph) : g.unseen [] = g.ids := by
  simp [unseen]

/-- A block that is entered has been seen. -/
theorem erase_unseen (g : FlowGraph) (seen : List BlockId) (b : BlockId) :
    (g.unseen seen).erase b = g.unseen (b :: seen) := by
  unfold unseen
  rw [(g.nodup_ids.filter _).erase_eq_filter, List.filter_filter]
  apply List.filter_congr
  intro c _
  simp [bne, beq_eq_decide]

theorem length_unseen_le {seen seen' : List BlockId} (h : ∀ b ∈ seen, b ∈ seen') :
    (g.unseen seen').length ≤ (g.unseen seen).length := by
  apply List.Subperm.length_le
  refine List.Nodup.subperm (g.nodup_ids.filter _) fun b hb => ?_
  obtain ⟨hid, hb⟩ := mem_unseen.1 hb
  exact mem_unseen.2 ⟨hid, fun hseen => hb (h b hseen)⟩

theorem length_unseen_lt (hid : b ∈ g.ids) (hb : b ∉ seen) :
    (g.unseen (b :: seen)).length < (g.unseen seen).length := by
  have hmem : b ∈ g.unseen seen := mem_unseen.2 ⟨hid, hb⟩
  have hpos := List.length_pos_of_mem hmem
  rw [← erase_unseen, List.length_erase_of_mem hmem]
  omega

/-- Every visit comes to an end. -/
theorem exists_visits (hbs : ∀ b ∈ bs, b ∈ g.ids) :
    ∃ seen' listed, g.Visits seen bs seen' listed := by
  induction hn : (g.unseen seen).length using Nat.strongRecOn generalizing seen bs with
  | _ n ih =>
    induction bs with
    | nil => exact ⟨seen, [], .nil⟩
    | cons b bs ihbs =>
      have hid : b ∈ g.ids := hbs b List.mem_cons_self
      have hrest : ∀ c ∈ bs, c ∈ g.ids := fun c hc => hbs c (List.mem_cons_of_mem _ hc)
      by_cases hb : b ∈ seen
      · obtain ⟨seen', listed, h⟩ := ihbs hrest
        exact ⟨seen', listed, .skip hb h⟩
      · have hlt : (g.unseen (b :: seen)).length < n := hn ▸ length_unseen_lt hid hb
        obtain ⟨inner, below, hbelow⟩ :
            ∃ inner below, g.Visits (b :: seen) (g.successors b) inner below :=
          ih _ hlt (fun c hc => successors_mem_ids hc) rfl
        have hinner : (g.unseen inner).length < n := by
          have hle : (g.unseen inner).length ≤ (g.unseen (b :: seen)).length := by
            apply length_unseen_le
            exact fun c hc => hbelow.mem_iff.2 (.inl hc)
          omega
        obtain ⟨seen', listed, h⟩ : ∃ seen' listed, g.Visits inner bs seen' listed :=
          ih _ hinner hrest rfl
        exact ⟨seen', below ++ b :: listed, .enter hb hbelow h⟩

/-- A walk through the tasks of entering some blocks is a visit of these, whatever it goes on with. -/
theorem Visits.walk_eq (h : g.Visits seen bs seen' listed) (hbs : ∀ b ∈ bs, b ∈ g.ids)
    (left : List BlockId) (todo : List WalkTask) :
    g.walk (g.unseen seen) left (bs.map .enter ++ todo) =
      g.walk (g.unseen seen') (listed.reverse ++ left) todo := by
  induction h generalizing left todo with
  | nil => rfl
  | skip hb _ ih =>
    have hfresh : _ ∉ g.unseen _ := fun hmem => (mem_unseen.1 hmem).2 hb
    rw [List.map_cons, List.cons_append, walk, if_neg hfresh]
    exact ih (fun c hc => hbs c (List.mem_cons_of_mem _ hc)) left todo
  | @enter seen inner seen' bs below listed b hb _ _ ihbelow ihrest =>
    have hfresh : b ∈ g.unseen seen := mem_unseen.2 ⟨hbs b List.mem_cons_self, hb⟩
    rw [List.map_cons, List.cons_append, walk, if_pos hfresh, erase_unseen, tasksOf,
      List.append_assoc, ihbelow fun c hc => successors_mem_ids hc]
    rw [List.singleton_append, walk, ihrest fun c hc => hbs c (List.mem_cons_of_mem _ hc)]
    simp

theorem start_mem_ids (g : FlowGraph) : ∀ b ∈ [g.start], b ∈ g.ids := by
  intro b hb
  obtain ⟨blk, hblk, -⟩ := g.block?_start
  rw [List.mem_singleton.1 hb]
  exact mem_ids_of_block? hblk

/-- The postorder is what a visit of the start lists. -/
theorem visits_iff (g : FlowGraph) (listed : List BlockId) :
    (∃ seen, g.Visits [] [g.start] seen listed) ↔ listed = g.postorder := by
  have hlisted {seen listed : List BlockId} (h : g.Visits [] [g.start] seen listed) :
      listed = g.postorder := by
    have hwalk := h.walk_eq g.start_mem_ids [] []
    rw [unseen_nil, List.append_nil, List.append_nil, walk] at hwalk
    unfold postorder reversePostorder
    rw [show [WalkTask.enter g.start] = [g.start].map .enter from rfl, hwalk, List.reverse_reverse]
  constructor
  · rintro ⟨seen, h⟩
    exact hlisted h
  · rintro rfl
    obtain ⟨seen, listed, h⟩ : ∃ seen listed, g.Visits [] [g.start] seen listed :=
      exists_visits g.start_mem_ids
    exact ⟨seen, hlisted h ▸ h⟩

/-! ## The loop visits -/

theorem successors_eq_nil (hid : b ∉ g.ids) : g.successors b = [] := by
  cases h : g.block? b with
  | none => rw [successors, h, Option.elim_none]
  | some blk => exact absurd (mem_ids_of_block? h) hid

/-- What is left to do with the entries of a stack: a block is looked at, and later it is listed. -/
def visitsDue (stack : List (BlockId × Bool)) : Nat :=
  stack.length + stack.countP (!·.2)

/-- The blocks that are listed once the stack is empty.  An entry whose successors are done is listed; a
block that is new stays on the stack, below those of its successors that are new. -/
def drain (g : FlowGraph) (seen listed : List BlockId) : List (BlockId × Bool) → List BlockId
  | [] => listed
  | (b, true) :: stack => g.drain seen (listed ++ [b]) stack
  | (b, false) :: stack =>
    if b ∈ seen then g.drain seen listed stack
    else
      let new := (g.successors b).filter (· ∉ b :: seen)
      g.drain (b :: seen) listed (new.map (·, false) ++ (b, true) :: stack)
termination_by stack => ((g.unseen seen).length, visitsDue stack)
decreasing_by
  · exact .right _ (by simp [visitsDue])
  · exact .right _ (by simp only [visitsDue, List.length_cons, List.countP_cons]; omega)
  · by_cases hid : b ∈ g.ids
    · exact .left _ _ (length_unseen_lt hid ‹_›)
    · -- what is no block puts nothing on the stack
      refine .right' _ (length_unseen_le fun c => List.mem_cons_of_mem b) ?_
      simp [visitsDue, successors_eq_nil hid]

/-- The loop through the entries of some blocks is a visit of these, and it may leave out what was seen. -/
theorem Visits.drain_eq (h : g.Visits seen bs seen' listed) {known : List BlockId}
    (hknown : ∀ b ∈ known, b ∈ seen) (before : List BlockId) (stack : List (BlockId × Bool)) :
    g.drain seen before ((bs.filter (· ∉ known)).map (·, false) ++ stack) =
      g.drain seen' (before ++ listed) stack := by
  induction h generalizing known before stack with
  | nil => simp
  | @skip seen seen' bs listed b hb _ ih =>
    by_cases hout : b ∈ known
    · rw [List.filter_cons_of_neg (by simpa using hout)]
      exact ih hknown before stack
    · rw [List.filter_cons_of_pos (by simpa using hout), List.map_cons, List.cons_append, drain, if_pos hb]
      exact ih hknown before stack
  | @enter seen inner seen' bs below listed b hb hbelow _ ihbelow ihrest =>
    have hin : b ∉ known := fun hb' => hb (hknown b hb')
    have hinner : ∀ c ∈ known, c ∈ inner := fun c hc =>
      hbelow.mem_iff.2 (.inl (List.mem_cons_of_mem b (hknown c hc)))
    rw [List.filter_cons_of_pos (by simpa using hin), List.map_cons, List.cons_append, drain, if_neg hb,
      ihbelow fun c => id]
    rw [drain, ihrest hinner]
    simp

/-- The loop that starts with the start alone lists the postorder. -/
theorem drain_eq_postorder (g : FlowGraph) : g.drain [] [] [(g.start, false)] = g.postorder := by
  obtain ⟨seen, h⟩ := (g.visits_iff g.postorder).2 rfl
  have hnone : ∀ b ∈ ([] : List BlockId), b ∈ ([] : List BlockId) := nofun
  simpa [drain] using h.drain_eq hnone [] []

/-! ## Order -/

/-- Of two members of a list without repetitions, one comes first. -/
theorem not_sublist_swap {α : Type} {xs : List α} {x y : α} (hnodup : xs.Nodup)
    (h : [x, y].Sublist xs) : ¬ [y, x].Sublist xs := by
  induction xs with
  | nil => cases h
  | cons z xs ih =>
    obtain ⟨hz, hnodup⟩ := List.nodup_cons.1 hnodup
    intro h'
    cases h with
    | cons _ h =>
      cases h' with
      | cons _ h' => exact ih hnodup h h'
      | cons_cons _ h' => exact hz (h.subset (by simp))
    | cons_cons _ h =>
      cases h' with
      | cons _ h' => exact hz (h'.subset (by simp))
      | cons_cons _ h' => exact hz (h.subset (by simp))

theorem mem_reversePostorder_iff : b ∈ g.reversePostorder ↔ g.Reaches [g.start] b := by
  have h : b ∈ g.reachableFrom [g.start] ↔ g.Reaches [g.start] b := mem_reachableFrom_iff
  exact h

theorem mem_postorder_iff : b ∈ g.postorder ↔ g.Reaches [g.start] b := by
  unfold postorder
  rw [List.mem_reverse, mem_reversePostorder_iff]

theorem nodup_postorder (g : FlowGraph) : g.postorder.Nodup :=
  List.nodup_reverse.2 g.nodup_reversePostorder

/-- The start is left last. -/
theorem getLast?_postorder (g : FlowGraph) : g.postorder.getLast? = some g.start := by
  obtain ⟨seen, h⟩ := (g.visits_iff _).2 rfl
  generalize g.postorder = listed at h
  cases h with
  | skip hb _ => cases hb
  | enter _ _ hrest =>
    cases hrest
    simp

/-- An edge that is on no cycle leads forward in the reverse postorder. -/
theorem sublist_reversePostorder (hu : g.Reaches [g.start] u) (hv : v ∈ g.successors u)
    (hforward : ¬ g.Reaches [v] u) : [u, v].Sublist g.reversePostorder := by
  obtain ⟨seen, h⟩ := (g.visits_iff _).2 rfl
  rcases h.edge g.start_mem_ids u (mem_postorder_iff.2 hu) v hv with hseen | hback | hsub
  · cases hseen
  · exact absurd hback hforward
  · have hreverse := hsub.reverse
    unfold postorder at hreverse
    rwa [List.reverse_reverse] at hreverse

/-- Where edges from the start are on no cycle, none leads back in the reverse postorder. -/
theorem pairwise_reversePostorder
    (hacyclic : ∀ u, g.Reaches [g.start] u → ∀ v ∈ g.successors u, ¬ g.Reaches [v] u) :
    g.reversePostorder.Pairwise fun u v => u ∉ g.successors v := by
  rw [List.pairwise_iff_forall_sublist]
  intro u v hsub hedge
  have hv : g.Reaches [g.start] v := mem_reversePostorder_iff.1 (hsub.subset (by simp))
  have hswap := sublist_reversePostorder hv hedge (hacyclic v hv u hedge)
  exact not_sublist_swap g.nodup_reversePostorder hsub hswap

/-- What the postorder of a graph is.  It is what the recursive depth-first traversal from the start
lists, and the loop with a stack of flagged entries: each block that the start reaches, once, and the
start last.  In the reverse order, an edge that is on no cycle leads forward; so if there are no cycles,
the order is a topological one. -/
theorem postorder_spec (g : FlowGraph) :
    (∀ listed, (∃ seen, g.Visits [] [g.start] seen listed) ↔ listed = g.postorder) ∧
    g.drain [] [] [(g.start, false)] = g.postorder ∧
    g.postorder.Nodup ∧ (∀ b, b ∈ g.postorder ↔ g.Reaches [g.start] b) ∧
    g.postorder.getLast? = some g.start ∧
    (∀ u v, g.Reaches [g.start] u → v ∈ g.successors u → ¬ g.Reaches [v] u →
      [u, v].Sublist g.reversePostorder) ∧
    ((∀ u, g.Reaches [g.start] u → ∀ v ∈ g.successors u, ¬ g.Reaches [v] u) →
      g.reversePostorder.Pairwise fun u v => u ∉ g.successors v) := by
  refine ⟨g.visits_iff, g.drain_eq_postorder, g.nodup_postorder, ?_, g.getLast?_postorder, ?_, ?_⟩
  · intro b
    exact mem_postorder_iff
  · intro u v hu hv hforward
    exact sublist_reversePostorder hu hv hforward
  · intro hacyclic
    exact pairwise_reversePostorder hacyclic

/-- A loop with a branch in it, two edges to one block, and a block that no edge leads to. -/
def winding : FlowGraph where
  blocks := #[
    { id := ⟨0⟩, ordinal := 0, kind := .start, statements := [], edge := .goto ⟨2⟩ },
    { id := ⟨1⟩, ordinal := 1, kind := .exit, statements := [], edge := .none },
    { id := ⟨2⟩, ordinal := 2, kind := .normal, statements := []
      edge := .switch (.var { ty := .int } ⟨0⟩) [(0, ⟨4⟩), (1, ⟨4⟩), (2, ⟨1⟩)] ⟨3⟩ },
    { id := ⟨3⟩, ordinal := 3, kind := .normal, statements := [], edge := .goto ⟨4⟩ },
    { id := ⟨4⟩, ordinal := 4, kind := .normal, statements := [], edge := .goto ⟨2⟩ },
    { id := ⟨5⟩, ordinal := 5, kind := .normal, statements := [], edge := .goto ⟨3⟩ }]
  wellFormed := wellFormed_of_fault?_eq_none (by decide)

/-- The recursive traversal lists the end of the loop first, and the way out of the loop leads forward. -/
theorem winding_postorder :
    (∃ seen, winding.Visits [] [winding.start] seen [⟨4⟩, ⟨1⟩, ⟨3⟩, ⟨2⟩, ⟨0⟩]) ∧
      ¬ winding.Reaches [⟨1⟩] ⟨2⟩ ∧ [⟨2⟩, ⟨1⟩].Sublist winding.reversePostorder := by
  obtain ⟨hvisits, -, -, hreaches, -, hforward, -⟩ := winding.postorder_spec
  have hpostorder : winding.postorder = [⟨4⟩, ⟨1⟩, ⟨3⟩, ⟨2⟩, ⟨0⟩] := by cbv
  have hout : ¬ winding.Reaches [⟨1⟩] ⟨2⟩ := by
    rw [← mem_reachableFrom_iff, show winding.reachableFrom [⟨1⟩] = [⟨1⟩] by cbv]
    decide
  have hloop : winding.Reaches [winding.start] ⟨2⟩ := by
    rw [← hreaches, hpostorder]
    decide
  exact ⟨(hvisits _).2 hpostorder.symm, hout, hforward ⟨2⟩ ⟨1⟩ hloop (by decide) hout⟩

end FlowGraph

end StackCode
