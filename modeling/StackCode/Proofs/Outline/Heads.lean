import StackCode.Proofs.Outline.Follows

/-!
# The first operation

Code that follows operations has labels and notes in front of what the first operation comes to.
Each lemma here runs down them (`Skips`) and tells which instruction comes next and how the code goes
on behind it.
-/

namespace StackCode

/-- There are labels and notes only between the positions. -/
inductive Skips (code : List Instr) : Nat → Nat → Prop
  | refl (pc : Nat) : Skips code pc pc
  | note {pc q : Nat} {i : Instr} (hpc : code[pc]? = some i) (hi : i.isNote = true)
      (rest : Skips code (pc + 1) q) : Skips code pc q
  | label {pc q : Nat} {l : Label} (hpc : code[pc]? = some (.markLabel l))
      (rest : Skips code (pc + 1) q) : Skips code pc q

theorem Skips.trans {code : List Instr} {pc q q' : Nat} (h : Skips code pc q) (h' : Skips code q q') :
    Skips code pc q' := by
  induction h with
  | refl => exact h'
  | note hpc hi _ ih => exact .note hpc hi (ih h')
  | label hpc _ ih => exact .label hpc (ih h')

namespace Follows

variable {r : Reading} {code : List Instr} {pc depth : Nat} {ops : List Op}

theorem run_inv {i : Instr} (h : Follows r code pc depth (.run i :: ops)) :
    ∃ q j after, Skips code pc q ∧ code[q]? = some j ∧ j.isStraight = true ∧ j.erased = i ∧
      j.depthAfter depth = .ok after ∧ (j.endsFlow = false → Follows r code (q + 1) after ops) := by
  generalize hops : Op.run i :: ops = ops' at h
  induction h with
  | note hpc hi _ ih =>
    obtain ⟨q, j, after, hskip, hrest⟩ := ih hops
    exact ⟨q, j, after, .note hpc hi hskip, hrest⟩
  | label hpc _ _ ih =>
    obtain ⟨q, j, after, hskip, hrest⟩ := ih hops
    exact ⟨q, j, after, .label hpc hskip, hrest⟩
  | run hpc hi _ hdepth rest =>
    cases hops
    exact ⟨_, _, _, .refl _, hpc, hi, rfl, hdepth, fun _ => rest⟩
  | halt hpc hi hflow hdepth =>
    cases hops
    refine ⟨_, _, _, .refl _, hpc, hi, rfl, hdepth, fun hpass => ?_⟩
    rw [hflow] at hpass
    cases hpass
  | _ => cases hops

theorem stage_inv (h : Follows r code pc depth (.stage :: ops)) :
    ∃ q slot rest, Skips code pc q ∧ code[q]? = some (.storeTemp slot) ∧ r.slot? = some slot ∧
      depth = rest + 1 ∧ Follows r code (q + 1) rest ops := by
  generalize hops : Op.stage :: ops = ops' at h
  induction h with
  | note hpc hi _ ih =>
    obtain ⟨q, slot, rest, hskip, hrest⟩ := ih hops
    exact ⟨q, slot, rest, .note hpc hi hskip, hrest⟩
  | label hpc _ _ ih =>
    obtain ⟨q, slot, rest, hskip, hrest⟩ := ih hops
    exact ⟨q, slot, rest, .label hpc hskip, hrest⟩
  | stage hpc hslot rest =>
    cases hops
    exact ⟨_, _, _, .refl _, hpc, hslot, rfl, rest⟩
  | _ => cases hops

theorem unstage_inv (h : Follows r code pc depth (.unstage :: ops)) :
    ∃ q slot, Skips code pc q ∧ code[q]? = some (.loadTemp slot) ∧ r.slot? = some slot ∧
      Follows r code (q + 1) (depth + 1) ops := by
  generalize hops : Op.unstage :: ops = ops' at h
  induction h with
  | note hpc hi _ ih =>
    obtain ⟨q, slot, hskip, hrest⟩ := ih hops
    exact ⟨q, slot, .note hpc hi hskip, hrest⟩
  | label hpc _ _ ih =>
    obtain ⟨q, slot, hskip, hrest⟩ := ih hops
    exact ⟨q, slot, .label hpc hskip, hrest⟩
  | unstage hpc hslot rest =>
    cases hops
    exact ⟨_, _, .refl _, hpc, hslot, rest⟩
  | _ => cases hops

theorem guard_inv {body : List Instr} (h : Follows r code pc depth (.guard body :: ops)) :
    ∃ q l dest, Skips code pc q ∧ code[q]? = some (.branchIf true l) ∧
      code[dest]? = some (.markLabel l) ∧ depth = 1 ∧ Follows r code (dest + 1) 0 ops ∧
      Follows r code (q + 1) 0 (body.map (fun i => .run i.erased) ++ ops) := by
  generalize hops : Op.guard body :: ops = ops' at h
  induction h with
  | note hpc hi _ ih =>
    obtain ⟨q, l, dest, hskip, hrest⟩ := ih hops
    exact ⟨q, l, dest, .note hpc hi hskip, hrest⟩
  | label hpc _ _ ih =>
    obtain ⟨q, l, dest, hskip, hrest⟩ := ih hops
    exact ⟨q, l, dest, .label hpc hskip, hrest⟩
  | guard hpc hq _ skip rest =>
    cases hops
    exact ⟨_, _, _, .refl _, hpc, hq, rfl, skip, rest⟩
  | _ => cases hops

theorem enter_inv {b : BlockId} (h : Follows r code pc depth (.enter b :: ops)) :
    ∃ q l, Skips code pc q ∧ code[q]? = some (.enterTry l) ∧ r.label? (.block b) = some l ∧
      r.catches b ∧ Follows r code (q + 1) depth ops := by
  generalize hops : Op.enter b :: ops = ops' at h
  induction h with
  | note hpc hi _ ih =>
    obtain ⟨q, l, hskip, hrest⟩ := ih hops
    exact ⟨q, l, .note hpc hi hskip, hrest⟩
  | label hpc _ _ ih =>
    obtain ⟨q, l, hskip, hrest⟩ := ih hops
    exact ⟨q, l, .label hpc hskip, hrest⟩
  | enter hpc hl hb rest =>
    cases hops
    exact ⟨_, _, .refl _, hpc, hl, hb, rest⟩
  | _ => cases hops

/-- The code falls into the label of the spot, or branches there. -/
theorem goto_inv {s : Spot} (h : Follows r code pc depth (.goto s :: ops)) :
    ∃ q l, Skips code pc q ∧ depth = 0 ∧ r.label? s = some l ∧ r.joins s ∧
      (code[q]? = some (.branch l) ∨ code[q]? = some (.markLabel l)) := by
  generalize hops : Op.goto s :: ops = ops' at h
  induction h with
  | note hpc hi _ ih =>
    obtain ⟨q, l, hskip, hrest⟩ := ih hops
    exact ⟨q, l, .note hpc hi hskip, hrest⟩
  | label hpc _ _ ih =>
    obtain ⟨q, l, hskip, hrest⟩ := ih hops
    exact ⟨q, l, .label hpc hskip, hrest⟩
  | jump hpc hl hs =>
    cases hops
    exact ⟨_, _, .refl _, rfl, hl, hs, .inl hpc⟩
  | fall hpc hl hs =>
    cases hops
    exact ⟨_, _, .refl _, rfl, hl, hs, .inr hpc⟩
  | _ => cases hops

theorem fork_inv {s t : Spot} (h : Follows r code pc depth (.fork s t :: ops)) :
    ∃ q when l, Skips code pc q ∧ depth = 1 ∧ code[q]? = some (.branchIf when l) ∧
      r.label? (if when then s else t) = some l ∧ r.joins s ∧ r.joins t ∧
      Follows r code (q + 1) 0 [.goto (if when then t else s)] := by
  generalize hops : Op.fork s t :: ops = ops' at h
  induction h with
  | note hpc hi _ ih =>
    obtain ⟨q, when, l, hskip, hrest⟩ := ih hops
    exact ⟨q, when, l, .note hpc hi hskip, hrest⟩
  | label hpc _ _ ih =>
    obtain ⟨q, when, l, hskip, hrest⟩ := ih hops
    exact ⟨q, when, l, .label hpc hskip, hrest⟩
  | fork when hpc hl hs ht rest =>
    cases hops
    exact ⟨_, when, _, .refl _, rfl, hpc, hl, hs, ht, rest⟩
  | _ => cases hops

theorem select_inv {cases : List (Int × Spot)} {default : Spot}
    (h : Follows r code pc depth (.select cases default :: ops)) :
    ∃ q table l, Skips code pc q ∧ depth = 1 ∧ code[q]? = some (.switch table l) ∧
      List.Forall₂ (fun c e => c.1 = e.1 ∧ r.label? c.2 = some e.2) cases table ∧
      r.label? default = some l ∧ (∀ c ∈ cases, r.joins c.2) ∧ r.joins default := by
  generalize hops : Op.select cases default :: ops = ops' at h
  induction h with
  | note hpc hi _ ih =>
    obtain ⟨q, table, l, hskip, hrest⟩ := ih hops
    exact ⟨q, table, l, .note hpc hi hskip, hrest⟩
  | label hpc _ _ ih =>
    obtain ⟨q, table, l, hskip, hrest⟩ := ih hops
    exact ⟨q, table, l, .label hpc hskip, hrest⟩
  | select hpc hcases hl hs hdefault =>
    cases hops
    exact ⟨_, _, _, .refl _, rfl, hpc, hcases, hl, hs, hdefault⟩
  | _ => cases hops

theorem leave_inv {s : Spot} (h : Follows r code pc depth (.leave s :: ops)) :
    ∃ q l, Skips code pc q ∧ depth = 0 ∧ code[q]? = some (.leave l) ∧ r.label? s = some l ∧
      r.joins s := by
  generalize hops : Op.leave s :: ops = ops' at h
  induction h with
  | note hpc hi _ ih =>
    obtain ⟨q, l, hskip, hrest⟩ := ih hops
    exact ⟨q, l, .note hpc hi hskip, hrest⟩
  | label hpc _ _ ih =>
    obtain ⟨q, l, hskip, hrest⟩ := ih hops
    exact ⟨q, l, .label hpc hskip, hrest⟩
  | leave hpc hl hs =>
    cases hops
    exact ⟨_, _, .refl _, rfl, hpc, hl, hs⟩
  | _ => cases hops

theorem suspend_inv {index : Int} (h : Follows r code pc depth (.suspend index :: ops)) :
    ∃ q, Skips code pc q ∧ depth = 0 ∧ code[q]? = some (.ret false) := by
  generalize hops : Op.suspend index :: ops = ops' at h
  induction h with
  | note hpc hi _ ih =>
    obtain ⟨q, hskip, hrest⟩ := ih hops
    exact ⟨q, .note hpc hi hskip, hrest⟩
  | label hpc _ _ ih =>
    obtain ⟨q, hskip, hrest⟩ := ih hops
    exact ⟨q, .label hpc hskip, hrest⟩
  | suspend hpc => exact ⟨_, .refl _, rfl, hpc⟩
  | _ => cases hops

theorem settle_inv (h : Follows r code pc depth (.settle :: ops)) :
    depth = 0 ∧ Follows r code pc depth ops := by
  generalize hops : Op.settle :: ops = ops' at h
  induction h with
  | note hpc hi _ ih => exact ⟨(ih hops).1, .note hpc hi (ih hops).2⟩
  | label hpc hl _ ih => exact ⟨rfl, .label hpc hl (ih hops).2⟩
  | settle rest =>
    cases hops
    exact ⟨rfl, rest⟩
  | _ => cases hops

theorem not_dangle (h : Follows r code pc depth (.dangle :: ops)) : False := by
  generalize hops : Op.dangle :: ops = ops' at h
  induction h with
  | note _ _ _ ih => exact ih hops
  | label _ _ _ ih => exact ih hops
  | _ => cases hops

end Follows

end StackCode
