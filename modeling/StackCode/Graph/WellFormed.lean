import StackCode.Graph.Error

/-!
# Well-formed graphs

`WellFormed` says what makes an array of blocks a control-flow graph; `fault?` finds the first
thing that is wrong with one.  A fault of a single position wins over a wrong number of start or
exit blocks, and both win over a misused handler.  Main statement: an array without a fault is well
formed (`wellFormed_of_fault?_eq_none`).
-/

namespace StackCode

/-- The conditions on a procedure's blocks. -/
structure WellFormed (blocks : Array Block) : Prop where
  id_eq : ∀ (i : Nat) (b : Block), blocks[i]? = some b → b.id = ⟨i⟩
  one_start : blocks.toList.countP (·.kind = .start) = 1
  one_exit : blocks.toList.countP (·.kind = .exit) = 1
  exit_edge : ∀ b ∈ blocks, b.kind = .exit → b.edge = .none
  target_lt : ∀ b ∈ blocks, ∀ t ∈ b.edge.targets, t.index < blocks.size
  ordinal_inj : ∀ (i j : Nat) (b c : Block), blocks[i]? = some b → blocks[j]? = some c →
    b.ordinal = c.ordinal → i = j
  /-- A handler is neither the entry nor the end of the procedure. -/
  handler_normal : ∀ b ∈ blocks, ∀ h, b.edge.handler? = some h →
    ∀ c ∈ blocks, c.id = h → c.kind = .normal
  /-- Only an exception enters a handler. -/
  handler_exclusive : ∀ b ∈ blocks, ∀ h, b.edge.handler? = some h →
    ∀ c ∈ blocks, h ∉ c.edge.normalTargets

namespace WellFormed

/-- The first fault of the block at position `i`, judged by itself and the blocks before it. -/
def positionFault? (blocks : Array Block) (i : Nat) (b : Block) : Option GraphError :=
  if b.id.index ≠ i then
    some (.misnumberedBlock i b.id)
  else if b.kind = .exit ∧ ¬ b.edge.isNone then
    some (.exitHasEdge b.id b.edge.kindName)
  else
    match b.edge.targets.find? (blocks.size ≤ ·.index) with
    | some t => some (.danglingTarget b.id t)
    | none =>
      ((blocks.toList.take i).find? (·.ordinal = b.ordinal)).map fun first =>
        .duplicateOrdinal b.ordinal first.id b.id

/-- The blocks that some protected region names as its handler. -/
def handlers (blocks : Array Block) : List BlockId :=
  blocks.toList.filterMap (·.edge.handler?)

/-- The start and exit blocks, which cannot be handlers. -/
def reserved (blocks : Array Block) : List Block :=
  blocks.toList.filter (·.kind = .start) ++ blocks.toList.filter (·.kind = .exit)

/-- A handler that control also reaches in another way. -/
def handlerFault? (blocks : Array Block) : Option GraphError :=
  let hs := handlers blocks
  match (reserved blocks).find? (·.id ∈ hs) with
  | some b => some (.reservedHandler b.id)
  | none => blocks.toList.findSome? fun b =>
      (b.edge.normalTargets.find? (· ∈ hs)).map (.handlerEnteredNormally · b.id)

/-- The first fault of an array of blocks. -/
def fault? (blocks : Array Block) : Option GraphError :=
  match (List.range blocks.size).findSome? fun i =>
      blocks[i]?.bind (positionFault? blocks i) with
  | some e => some e
  | none =>
    let starts := blocks.toList.countP (·.kind = .start)
    let exits := blocks.toList.countP (·.kind = .exit)
    if starts ≠ 1 then some (.startCount starts)
    else if exits ≠ 1 then some (.exitCount exits)
    else handlerFault? blocks

/-! ## Soundness -/

/-- What the absence of a fault at one position says. -/
theorem of_positionFault?_eq_none {blocks : Array Block} {i : Nat} {b : Block}
    (h : positionFault? blocks i b = none) :
    b.id = ⟨i⟩ ∧ (b.kind = .exit → b.edge = .none) ∧
      (∀ t ∈ b.edge.targets, t.index < blocks.size) ∧
      ∀ (j : Nat) (c : Block), j < i → blocks[j]? = some c → c.ordinal ≠ b.ordinal := by
  unfold positionFault? at h
  split at h
  · cases h
  · next hid =>
    split at h
    · cases h
    · next hexit =>
      split at h
      · cases h
      · next htargets =>
        refine ⟨?_, ?_, ?_, ?_⟩
        · have hi : b.id.index = i := by omega
          rw [← hi]
        · intro hk
          simp only [hk, true_and, Edge.isNone_iff] at hexit
          exact Classical.not_not.1 hexit
        · intro t ht
          have := List.find?_eq_none.1 htargets t ht
          simp only [decide_eq_true_eq, Nat.not_le] at this
          exact this
        · intro j c hj hc
          rw [Option.map_eq_none_iff, List.find?_eq_none] at h
          have hmem : c ∈ blocks.toList.take i := by
            rw [List.mem_take_iff_getElem]
            obtain ⟨hlt, hget⟩ := Array.getElem?_eq_some_iff.1 hc
            exact ⟨j, by simp only [Array.length_toList]; omega, by simpa using hget⟩
          simpa using h c hmem

theorem mem_handlers {blocks : Array Block} {h : BlockId} :
    h ∈ handlers blocks ↔ ∃ b ∈ blocks, b.edge.handler? = some h := by
  simp [handlers, List.mem_filterMap]

/-- What the absence of a misused handler says. -/
theorem of_handlerFault?_eq_none {blocks : Array Block} (h : handlerFault? blocks = none) :
    (∀ c ∈ blocks, c.id ∈ handlers blocks → c.kind = .normal) ∧
      ∀ c ∈ blocks, ∀ t ∈ c.edge.normalTargets, t ∉ handlers blocks := by
  unfold handlerFault? at h
  simp only at h
  split at h
  · cases h
  · next hres =>
    constructor
    · intro c hc hmem
      rw [List.find?_eq_none] at hres
      cases hk : c.kind with
      | normal => rfl
      | start =>
        have := hres c (by simp [reserved, hc, hk])
        simp [hmem] at this
      | exit =>
        have := hres c (by simp [reserved, hc, hk])
        simp [hmem] at this
    · intro c hc t ht hmem
      rw [List.findSome?_eq_none_iff] at h
      have := h c (by simpa using hc)
      rw [Option.map_eq_none_iff, List.find?_eq_none] at this
      simpa [hmem] using this t ht

end WellFormed

/-- An array of blocks without a fault is well formed. -/
theorem wellFormed_of_fault?_eq_none {blocks : Array Block}
    (h : WellFormed.fault? blocks = none) : WellFormed blocks := by
  unfold WellFormed.fault? at h
  split at h
  · cases h
  · next hpos =>
    have hposition : ∀ (i : Nat) (b : Block), blocks[i]? = some b →
        WellFormed.positionFault? blocks i b = none := by
      intro i b hb
      have hi : i < blocks.size := (Array.getElem?_eq_some_iff.1 hb).1
      have := List.findSome?_eq_none_iff.1 hpos i (List.mem_range.2 hi)
      simpa [hb] using this
    have hmem : ∀ b ∈ blocks, ∃ i : Nat, blocks[i]? = some b := fun b hb =>
      Array.mem_iff_getElem?.1 hb
    simp only at h
    split at h
    · cases h
    · next hstart =>
      split at h
      · cases h
      · next hexit =>
        obtain ⟨hnormal, hexclusive⟩ := WellFormed.of_handlerFault?_eq_none h
        exact {
          id_eq := fun i b hb => (WellFormed.of_positionFault?_eq_none (hposition i b hb)).1
          one_start := Decidable.not_not.1 hstart
          one_exit := Decidable.not_not.1 hexit
          exit_edge := fun b hb => by
            obtain ⟨i, hi⟩ := hmem b hb
            exact (WellFormed.of_positionFault?_eq_none (hposition i b hi)).2.1
          target_lt := fun b hb => by
            obtain ⟨i, hi⟩ := hmem b hb
            exact (WellFormed.of_positionFault?_eq_none (hposition i b hi)).2.2.1
          ordinal_inj := fun i j b c hb hc hbc => by
            have hi := (WellFormed.of_positionFault?_eq_none (hposition i b hb)).2.2.2
            have hj := (WellFormed.of_positionFault?_eq_none (hposition j c hc)).2.2.2
            rcases Nat.lt_trichotomy i j with hij | hij | hij
            · exact absurd hbc (hj i b hij hb)
            · exact hij
            · exact absurd hbc.symm (hi j c hij hc)
          handler_normal := fun b hb h' hh c hc hid =>
            hnormal c hc (hid ▸ WellFormed.mem_handlers.2 ⟨b, hb, hh⟩)
          handler_exclusive := fun b hb h' hh c hc ht =>
            hexclusive c hc h' ht (WellFormed.mem_handlers.2 ⟨b, hb, hh⟩) }

end StackCode
