import Mathlib.Logic.Relation
import StackCode.Proofs.Graph.DepthFirst

/-!
# The closure of the edges

What some roots reach are the blocks that a path of edges leads to from a root.  The edge into a
handler counts like any other, and a root that is no block leads nowhere.

The set does not depend on the way it is searched.  Beside the depth-first walk stands the sweep with
a set of seen blocks and a stack, which may hold a block several times: a block is passed over unless it
is new, and those of its successors that are new are put on the stack.  The sweep ends, because a block
that is taken from the stack is either seen for the first time or makes the stack shorter.  Its
invariant is that an edge from a seen block leads to a block that is seen or on the stack
(`FlowGraph.Frontier`).  Main statement: `FlowGraph.reachableFrom_closure`.
-/

namespace StackCode

namespace FlowGraph

variable {g : FlowGraph} {seen stack roots roots' : List BlockId} {b u v : BlockId}

/-! ## Paths -/

/-- The edge of a block leads there, by itself or with an exception. -/
def LeadsTo (g : FlowGraph) (u v : BlockId) : Prop :=
  ∃ blk, g.block? u = some blk ∧ (v ∈ blk.edge.normalTargets ∨ blk.edge.handler? = some v)

theorem mem_successors_iff : v ∈ g.successors u ↔ g.LeadsTo u v := by
  unfold successors LeadsTo
  cases g.block? u with
  | none => simp
  | some blk => simp [Edge.mem_targets_iff]

/-- What is reached are the ends of paths. -/
theorem reaches_iff_path :
    g.Reaches roots b ↔ ∃ r ∈ roots, r ∈ g.ids ∧ Relation.ReflTransGen g.LeadsTo r b := by
  constructor
  · intro h
    induction h with
    | root hb hid => exact ⟨_, hb, hid, .refl⟩
    | edge _ ht ih =>
      obtain ⟨r, hr, hid, hpath⟩ := ih
      exact ⟨r, hr, hid, hpath.tail (mem_successors_iff.1 ht)⟩
  · rintro ⟨r, hr, hid, hpath⟩
    induction hpath with
    | refl => exact .root hr hid
    | tail _ hedge ih => exact .edge ih (mem_successors_iff.2 hedge)

/-- What is reached from what is reached is reached; roots that are no blocks do not count. -/
theorem Reaches.through (hroots : ∀ r ∈ roots, r ∈ g.ids → g.Reaches roots' r)
    (h : g.Reaches roots b) : g.Reaches roots' b := by
  induction h with
  | root hb hid => exact hroots _ hb hid
  | edge _ ht ih => exact .edge ih ht

theorem nodup_reachableFrom (g : FlowGraph) (roots : List BlockId) :
    (g.reachableFrom roots).Nodup := by
  have hleaving : leaving (roots.map .enter) = [] := List.filterMap_eq_nil_iff.2 fun task htask => by
    obtain ⟨r, -, rfl⟩ := List.mem_map.1 htask
    rfl
  refine nodup_walk ?_
  rw [hleaving, List.append_nil, List.append_nil]
  exact g.nodup_ids

/-! ## The sweep -/

/-- The blocks that are seen once the stack is empty. -/
def sweep (g : FlowGraph) (seen : List BlockId) : List BlockId → List BlockId
  | [] => seen
  | b :: stack =>
    if b ∈ g.ids ∧ b ∉ seen then
      g.sweep (b :: seen) (((g.successors b).filter (· ∉ b :: seen)).reverse ++ stack)
    else g.sweep seen stack
termination_by stack => ((g.unseen seen).length, stack.length)
decreasing_by
  · exact .left _ _ (length_unseen_lt ‹_ ∧ _›.1 ‹_ ∧ _›.2)
  · exact .right _ (Nat.lt_succ_self _)

/-- Every edge from a seen block leads to a block that is seen or will be looked at. -/
def Frontier (g : FlowGraph) (seen stack : List BlockId) : Prop :=
  ∀ u ∈ seen, ∀ v ∈ g.successors u, v ∈ seen ∨ v ∈ stack

/-- Where the roots are seen or will be looked at, what they reach is seen or will be reached. -/
theorem Frontier.reaches (h : g.Frontier seen stack)
    (hroots : ∀ r ∈ roots, r ∈ g.ids → r ∈ seen ∨ r ∈ stack) (hb : g.Reaches roots b) :
    b ∈ seen ∨ g.Reaches stack b := by
  induction hb with
  | root hr hid => exact (hroots _ hr hid).imp_right fun hstack => .root hstack hid
  | edge _ ht ih =>
    rcases ih with hseen | hreach
    · exact (h _ hseen _ ht).imp_right fun hstack => .root hstack (successors_mem_ids ht)
    · exact .inr (.edge hreach ht)

theorem Frontier.see (h : g.Frontier seen (b :: stack)) :
    g.Frontier (b :: seen) (((g.successors b).filter (· ∉ b :: seen)).reverse ++ stack) := by
  intro u hu v hv
  by_cases hseen : v ∈ b :: seen
  · exact .inl hseen
  · refine .inr (List.mem_append.2 ?_)
    rcases List.mem_cons.1 hu with rfl | hu
    · exact .inl (List.mem_reverse.2 (List.mem_filter.2 ⟨hv, by simpa using hseen⟩))
    · rcases h u hu v hv with hv | hv
      · exact absurd (List.mem_cons_of_mem b hv) hseen
      · rcases List.mem_cons.1 hv with rfl | hv
        · exact absurd List.mem_cons_self hseen
        · exact .inr hv

theorem Frontier.pass (h : g.Frontier seen (b :: stack)) (hb : ¬ (b ∈ g.ids ∧ b ∉ seen)) :
    g.Frontier seen stack := by
  intro u hu v hv
  rcases h u hu v hv with hseen | hstack
  · exact .inl hseen
  · rcases List.mem_cons.1 hstack with rfl | hstack
    · exact .inl (Decidable.not_not.1 fun hseen => hb ⟨successors_mem_ids hv, hseen⟩)
    · exact .inr hstack

/-- The sweep sees what was seen and what the stack reaches. -/
theorem mem_sweep_iff (h : g.Frontier seen stack) :
    b ∈ g.sweep seen stack ↔ b ∈ seen ∨ g.Reaches stack b := by
  fun_induction g.sweep seen stack with
  | case1 seen =>
    refine ⟨.inl, fun hb => hb.elim id fun hreach => ?_⟩
    obtain ⟨r, hr, -⟩ := reaches_iff_path.1 hreach
    cases hr
  | case2 seen c stack hc ih =>
    have hroot : g.Reaches (c :: stack) c := .root List.mem_cons_self hc.1
    rw [ih h.see]
    -- what the new block leads to and was not seen is on the stack now, so nothing that it reaches is lost
    constructor
    · rintro (hb | hreach)
      · rcases List.mem_cons.1 hb with rfl | hb
        · exact .inr hroot
        · exact .inl hb
      · refine .inr (hreach.through fun r hr hid => ?_)
        rcases List.mem_append.1 hr with hr | hr
        · exact .edge hroot (List.mem_filter.1 (List.mem_reverse.1 hr)).1
        · exact .root (List.mem_cons_of_mem c hr) hid
    · rintro (hb | hreach)
      · exact .inl (List.mem_cons_of_mem c hb)
      · refine h.see.reaches (fun r hr hid => ?_) hreach
        rcases List.mem_cons.1 hr with rfl | hr
        · exact .inl List.mem_cons_self
        · exact .inr (List.mem_append_right _ hr)
  | case3 seen c stack hc ih =>
    rw [ih (h.pass hc)]
    constructor
    · exact Or.imp_right (Reaches.mono fun r => List.mem_cons_of_mem c)
    · rintro (hb | hreach)
      · exact .inl hb
      · refine (h.pass hc).reaches (fun r hr hid => ?_) hreach
        rcases List.mem_cons.1 hr with rfl | hr
        · exact .inl (Decidable.not_not.1 fun hseen => hc ⟨hid, hseen⟩)
        · exact .inr hr

theorem nodup_sweep (h : seen.Nodup) : (g.sweep seen stack).Nodup := by
  fun_induction g.sweep seen stack with
  | case1 => exact h
  | case2 seen c stack hc ih => exact ih (List.nodup_cons.2 ⟨hc.2, h⟩)
  | case3 seen c stack hc ih => exact ih h

/-- What is reachable from some roots: each block once that a path of edges, of any length, leads to from
a root that is a block.  It depends on nothing but which blocks are among the roots, and the sweep that
takes the last root first sees the same blocks. -/
theorem reachableFrom_closure (g : FlowGraph) (roots : List BlockId) :
    (g.reachableFrom roots).Nodup ∧
    (∀ b, b ∈ g.reachableFrom roots ↔
      ∃ r ∈ roots, r.index < g.size ∧ Relation.ReflTransGen g.LeadsTo r b) ∧
    (∀ roots', (∀ r, r.index < g.size → (r ∈ roots' ↔ r ∈ roots)) →
      (g.reachableFrom roots').Perm (g.reachableFrom roots)) ∧
    (g.sweep [] roots.reverse).Perm (g.reachableFrom roots) := by
  refine ⟨g.nodup_reachableFrom roots, fun b => ?_, fun roots' hroots => ?_, ?_⟩
  · simp only [← mem_ids]
    exact mem_reachableFrom_iff.trans reaches_iff_path
  · simp only [← mem_ids] at hroots
    apply (List.perm_ext_iff_of_nodup (g.nodup_reachableFrom _) (g.nodup_reachableFrom _)).2
    intro b
    rw [mem_reachableFrom_iff, mem_reachableFrom_iff]
    constructor
    · exact Reaches.through fun r hr hid => .root ((hroots r hid).1 hr) hid
    · exact Reaches.through fun r hr hid => .root ((hroots r hid).2 hr) hid
  · have hfrontier : g.Frontier [] roots.reverse := fun u hu => absurd hu List.not_mem_nil
    apply (List.perm_ext_iff_of_nodup (nodup_sweep List.nodup_nil) (g.nodup_reachableFrom _)).2
    intro b
    rw [mem_reachableFrom_iff, mem_sweep_iff hfrontier, or_iff_right List.not_mem_nil]
    exact ⟨Reaches.mono fun r => List.mem_reverse.1, Reaches.mono fun r => List.mem_reverse.2⟩

/-- From the block that nothing leads to, named twice and beside an id that is no block, the loop and the
exit are reached, but not the start. -/
theorem winding_closure :
    (winding.reachableFrom [⟨5⟩, ⟨9⟩, ⟨5⟩]).Perm (winding.reachableFrom [⟨5⟩]) ∧
      ⟨1⟩ ∈ winding.reachableFrom [⟨5⟩, ⟨9⟩, ⟨5⟩] ∧ ¬ Relation.ReflTransGen winding.LeadsTo ⟨5⟩ ⟨0⟩ := by
  obtain ⟨-, hmem, hroots, -⟩ := winding.reachableFrom_closure [⟨5⟩]
  have hreached : winding.reachableFrom [⟨5⟩] = [⟨5⟩, ⟨3⟩, ⟨4⟩, ⟨2⟩, ⟨1⟩] := by cbv
  have hperm := hroots [⟨5⟩, ⟨9⟩, ⟨5⟩] fun r hr => by
    have hlt : r.index < 6 := hr
    have hne : r ≠ ⟨9⟩ := fun h => absurd (h ▸ hlt) (by decide)
    simp [hne]
  refine ⟨hperm, hperm.mem_iff.2 (by rw [hreached]; decide), fun hpath => ?_⟩
  have hstart : ⟨0⟩ ∈ winding.reachableFrom [⟨5⟩] := (hmem _).2 ⟨⟨5⟩, by simp, by decide, hpath⟩
  rw [hreached] at hstart
  revert hstart
  decide

end FlowGraph

end StackCode
