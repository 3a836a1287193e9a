import StackCode.Lowering
import StackCode.Proofs.Outline.Block

/-!
# The reading of a finished draft

The labels of blocks and suspension points come from the plan, the others from the frame that the
draft ends with.  The reading takes for granted that control gets where `Plan.reachesBlock` and
`Plan.reachesReturn` say, and it keeps handlers apart from everything else (`Plan.reading_suits`).
-/

namespace StackCode

namespace Plan

variable {c : Plan} {frame frame' final : Frame} {ds : List Directive} {u : Unit}

/-- How the code of a plan is read, where the draft has ended with this frame. -/
def reading (c : Plan) (final : Frame) : Reading where
  label?
    | .block b => c.label? b
    | .resume index => c.resume.label? index
    | .body => if c.procedure.isGenerator then some ⟨c.bound⟩ else none
    | .ret => final.returnLabel
  slot? := final.returnSlot
  bound := c.bound
  joins
    | .block t => c.caught? t = none ∧ c.isLabelled t = true ∧
        ∃ b ∈ c.blocks, b.id = t ∧ c.reachesBlock b = true
    | .resume index => (c.resume.label? index).isSome = true
    | .body => c.procedure.isGenerator = true
    | .ret => c.reachesReturn = true
  catches h := (c.caught? h).isSome = true

theorem reading_covers (h : frame.Grows final) : (c.reading final).Covers c frame :=
  ⟨rfl, fun _ => rfl, fun _ => rfl, h.returnLabel, h.returnSlot⟩

/-! ## Where control gets to -/

theorem reachesEdge_eq {b : Block} (hk : b.kind ≠ .exit) :
    c.reachesEdge b = Stmt.liveThrough (c.reachesBlock b) b.statements := by
  unfold reachesEdge reachesBlock
  rw [if_neg hk]

/-- Control gets from an edge to the blocks it leads to. -/
theorem reading_admits (hmade : c.Made) {b : Block} (hb : b ∈ c.blocks) (hk : b.kind ≠ .exit) :
    Reading.Admits (c.reading final) b.edge (c.reachesEdge b) where
  joins t ht hreach := by
    have hmem : t ∈ b.edge.targets := Edge.mem_targets_iff.2 (.inl ht)
    obtain ⟨⟨b', hb', rfl⟩, l, hl⟩ := hmade.target hb hmem
    have hlabelled : c.isLabelled b'.id = true := Option.isSome_iff_exists.2 ⟨l, hl⟩
    refine ⟨hmade.caught?_eq_none hb ht, hlabelled, b', hb', rfl, ?_⟩
    unfold reachesBlock
    split
    · next hexit =>
      rw [(hmade.kind_eq_exit_iff hb').1 hexit] at hmem
      exact List.any_eq_true.2 ⟨b, hb, by simp [hk, hreach, hmem]⟩
    · rw [hlabelled, Bool.or_true]
  catches h hh := Made.isSome_caught?_iff.2 ⟨b, hb, hh⟩

theorem reading_joins_ret {b : Block} (hb : b ∈ c.blocks)
    (h : Stmt.reachesReturn (c.reachesBlock b) b.statements = true) :
    (c.reading final).joins .ret := List.any_eq_true.2 ⟨b, hb, h⟩

/-! ## The directives of the draft -/

theorem labelMark_sound {b : Block} : ∀ d ∈ c.labelMark b, d.Sound (c.reading final) := by
  intro d hd
  obtain ⟨l, hl, rfl⟩ := List.mem_map.1 hd
  refine ⟨trivial, nofun, fun m hm => .inr ⟨b.id, ?_, ?_⟩⟩
  · cases hm
    exact Option.mem_toList.1 hl
  · change _ ↔ (c.caught? b.id).isSome = true
    unfold arrival
    cases (c.caught? b.id).isSome with
    | true => exact ⟨fun _ => rfl, fun _ => rfl⟩
    | false => cases b.kind <;> exact ⟨nofun, nofun⟩

/-- The exception is taken from the stack behind the label of a handler. -/
theorem labelMark_receives {b : Block} {ops : List Op} {v w : Bool} {r : Reading}
    (hreceives : (c.caught? b.id).isSome = true →
      ∃ i ops, c.outline.receive b.id = .run i :: ops ∧ i.pops = 1)
    (h : Renders r v ds (c.outline.receive b.id ++ ops) w) : Receives (c.labelMark b ++ ds) := by
  unfold labelMark arrival
  cases c.label? b.id with
  | none => exact h.receives
  | some l =>
    cases hc : (c.caught? b.id).isSome with
    | true =>
      obtain ⟨i, ops', hops, hpops⟩ := hreceives hc
      rw [hops] at h
      obtain ⟨notes, j, rest, rfl, hnotes, hj, rfl, hrest⟩ := h.exists_run
      exact .handler hnotes hj (Instr.pops_erased j ▸ hpops) hrest.receives
    | false => cases b.kind <;> exact .quiet rfl h.receives

theorem entry_sound (hfits : frame.Fits c) (h : c.entry.Gives frame ds frame' u) :
    (∀ d ∈ ds, d.Sound (c.reading final)) ∧ Receives ds := by
  obtain ⟨mid, ds₁, ds₂, rfl, hkeeps, hprologue, hdispatch⟩ := entry_gives h
  have hrenders := hprologue (c.reading final) true
  suffices h : (∀ d ∈ ds₂, d.Sound (c.reading final)) ∧ ∀ d ∈ ds₂, d.isHandlerMark = false by
    exact ⟨List.forall_mem_append.2 ⟨hrenders.sound, h.1⟩, hrenders.receives.append (.of_forall h.2)⟩
  split at hdispatch
  · obtain ⟨slot, notes, hnotes, rfl, -⟩ := dispatch_gives hdispatch
    have hbody : (c.reading final).IsInner ⟨mid.labels.size⟩ := .inl (by
      rw [hkeeps.labels]
      exact hfits.size)
    simp only [List.forall_mem_append, List.forall_mem_cons]
    refine ⟨⟨fun d hd => ?_, .of_isStraight rfl, .of_isStraight rfl, .of_isStraight rfl,
      .of_isStraight rfl, .of_isStraight rfl, .of_instr rfl rfl, .of_isNote rfl,
      .of_forward hbody, nofun⟩, fun d hd => ?_, rfl, rfl, rfl, rfl, rfl, rfl, rfl, rfl, nofun⟩
    · obtain ⟨i, rfl, hi⟩ := hnotes d hd
      exact .of_isNote hi
    · obtain ⟨i, rfl, hi⟩ := hnotes d hd
      rfl
  · obtain ⟨rfl, -, -⟩ := Draft.gives_pure_iff.1 hdispatch
    exact ⟨nofun, nofun⟩

theorem exit_sound (hfits : frame.Fits c)
    (h : (if c.procedure.isGenerator then Draft.exitGenerator
      else Draft.exitOrdinary c.procedure.returnType).Gives frame ds frame' u) :
    (∀ d ∈ ds, d.Sound (c.reading final)) ∧ Receives ds := by
  obtain ⟨-, hfits', ds₀, hexit, hcode⟩ := exit_gives hfits h
  have hrenders := hexit (c.reading final) true
  split at hcode
  · obtain ⟨l, hl, rfl⟩ := hcode
    refine ⟨List.forall_mem_append.2 ⟨hrenders.sound, ?_⟩,
      hrenders.receives.append (.quiet rfl (.quiet rfl .nil))⟩
    simp only [List.forall_mem_cons]
    exact ⟨.of_returnPoint (.inl (hfits'.label l hl).1), .of_isNote rfl, nofun⟩
  · obtain ⟨-, rfl⟩ := hcode
    cases hl : frame.returnLabel with
    | none => exact ⟨hrenders.sound, hrenders.receives⟩
    | some l =>
      refine ⟨List.forall_mem_append.2 ⟨?_, hrenders.sound⟩, .quiet rfl hrenders.receives⟩
      exact List.forall_mem_singleton.2 (.of_forward (.inl (hfits.label l hl).1))

/-- What the draft of a block does to the frame, and what its directives are like. -/
theorem block_sound (hmade : c.Made) {b : Block} (hb : b ∈ c.blocks) {next : Option BlockId}
    (hfits : frame.Fits c) (h : (c.block b next).Gives frame ds frame' u) :
    frame.Grows frame' ∧ frame'.Fits c ∧
      ∀ final, frame'.Grows final → (∀ d ∈ ds, d.Sound (c.reading final)) ∧ Receives ds := by
  obtain ⟨mid, mid', dsEntry, dsBody, dsEnd, hgrows, hblock⟩ := block_gives hmade hfits h
  have hend : mid'.Grows frame' ∧ frame'.Fits c ∧ ∀ final, frame'.Grows final →
      (∀ d ∈ dsEnd, d.Sound (c.reading final)) ∧ Receives dsEnd := by
    have hend := hblock.blockEnd
    unfold blockEnd at hend
    split at hend
    · obtain ⟨hgrows, hfits', -⟩ := exit_gives hblock.fits hend
      exact ⟨hgrows, hfits', fun final _ => exit_sound hblock.fits hend⟩
    · next hk =>
      obtain ⟨rfl, hedge⟩ := edge_renders hend
      refine ⟨.refl _, hblock.fits, fun final hfinal => ?_⟩
      have hrenders := hedge _ _ (reading_covers hfinal) (reading_admits hmade hb hk)
      exact ⟨hrenders.sound, hrenders.receives⟩
  refine ⟨(hgrows.trans hblock.grows).trans hend.1, hend.2.1, fun final hfinal => ?_⟩
  have hbody := hblock.body _ _ (reading_covers (hend.1.trans hfinal)) (reading_joins_ret hb)
  have hentry : (∀ d ∈ dsEntry, d.Sound (c.reading final)) ∧ Receives dsEntry := by
    have hentry := hblock.entry
    split at hentry
    · exact entry_sound hfits hentry
    · obtain ⟨rfl, -, -⟩ := Draft.gives_pure_iff.1 hentry
      exact ⟨nofun, .nil⟩
  obtain ⟨hsoundEnd, hreceivesEnd⟩ := hend.2.2 final hfinal
  rw [hblock.code, ← List.append_assoc (c.labelMark b)]
  refine ⟨List.forall_mem_append.2 ⟨hentry.1, List.forall_mem_append.2
    ⟨List.forall_mem_append.2 ⟨labelMark_sound, hbody.sound⟩, hsoundEnd⟩⟩, ?_⟩
  exact hentry.2.append ((labelMark_receives hblock.receives hbody).append hreceivesEnd)

theorem blocksFrom_sound (hmade : c.Made) {bs : List Block} (hbs : ∀ b ∈ bs, b ∈ c.blocks)
    (hfits : frame.Fits c) (h : (c.blocksFrom bs).Gives frame ds frame' u) :
    frame.Grows frame' ∧ frame'.Fits c ∧
      ∀ final, frame'.Grows final → (∀ d ∈ ds, d.Sound (c.reading final)) ∧ Receives ds := by
  induction bs generalizing frame ds with
  | nil =>
    obtain ⟨rfl, rfl, -⟩ := Draft.gives_pure_iff.1 h
    exact ⟨.refl _, hfits, fun _ _ => ⟨nofun, .nil⟩⟩
  | cons b bs ih =>
    obtain ⟨hb, hbs⟩ := List.forall_mem_cons.1 hbs
    obtain ⟨_, mid, ds₁, ds₂, h₁, h₂, rfl⟩ := Draft.gives_bind_iff.1 h
    obtain ⟨hgrows₁, hfits₁, hsound₁⟩ := block_sound hmade hb hfits h₁
    obtain ⟨hgrows₂, hfits₂, hsound₂⟩ := ih hbs hfits₁ h₂
    refine ⟨hgrows₁.trans hgrows₂, hfits₂, fun final hfinal => ?_⟩
    obtain ⟨hsound₁, hreceives₁⟩ := hsound₁ final (hgrows₂.trans hfinal)
    obtain ⟨hsound₂, hreceives₂⟩ := hsound₂ final hfinal
    exact ⟨List.forall_mem_append.2 ⟨hsound₁, hsound₂⟩, hreceives₁.append hreceives₂⟩

/-- In the end the temporaries of the debugger's views are handed back. -/
theorem releaseDebugLocals_gives (h : releaseDebugLocals.Gives frame ds frame' u) :
    KeepsLabels frame frame' ∧ ∀ d ∈ ds, ∃ i, d = .instr i ∧ i.isNote = true := by
  unfold releaseDebugLocals at h
  rw [Draft.gives_getFrame_bind_iff] at h
  revert h
  generalize frame.debugLocals = views
  intro h
  induction views generalizing frame ds with
  | nil =>
    obtain ⟨rfl, rfl, -⟩ := Draft.gives_pure_iff.1 h
    exact ⟨.refl _, fun d hd => absurd hd List.not_mem_nil⟩
  | cons view views ih =>
    obtain ⟨_, mid, ds₁, ds₂, h₁, h₂, rfl⟩ := Draft.gives_bind_iff.1 h
    obtain ⟨temps, -, rfl, rfl⟩ := Draft.gives_releaseTemp_iff.1 h₁
    obtain ⟨hkeeps, hnotes⟩ := ih h₂
    have hfirst : KeepsLabels frame { frame with temps } := ⟨rfl, rfl, rfl⟩
    refine ⟨hfirst.trans hkeeps, ?_⟩
    exact List.forall_mem_append.2 ⟨List.forall_mem_singleton.2 ⟨_, rfl, rfl⟩, hnotes⟩

/-! ## Handlers stand apart -/

/-- The regions that the code of sound directives opens have handlers of the reading. -/
theorem handlersIn_of_sound {r : Reading} {f g : Flow} {code : List Instr}
    (ha : Assembles f ds code g) (hds : ∀ d ∈ ds, d.Sound r) :
    ∀ l ∈ handlersIn code, ∃ h, r.catches h ∧ r.label? (.block h) = some l := by
  induction ha with
  | nil => exact fun l hl => absurd hl List.not_mem_nil
  | @cons f g k d ds instrs code hstep _ ih =>
    obtain ⟨hd, hds⟩ := List.forall_mem_cons.1 hds
    intro l hl
    rw [handlersIn, List.filterMap_append, List.mem_append] at hl
    rcases hl with hl | hl
    · obtain ⟨i, hi, hhandler⟩ := List.mem_filterMap.1 hl
      exact hd.opens l (Flow.opens_of_step hstep hi hhandler)
    · exact ih hds l hl

/-- Handlers stand apart from where control gets by itself. -/
theorem reading_suits (hmade : c.Made) (hfits : final.Fits c) {f g : Flow} {code : List Instr}
    (ha : Assembles f ds code g) (hds : ∀ d ∈ ds, d.Sound (c.reading final)) :
    (c.reading final).Suits code where
  handler_lt l hl := by
    obtain ⟨h, -, hlabel⟩ := handlersIn_of_sound ha hds l hl
    exact Nat.lt_of_lt_of_le (label?_lt hlabel) (Nat.le_add_right _ _)
  apart s l hs hlabel hl := by
    obtain ⟨h, hh, hlabel'⟩ := handlersIn_of_sound ha hds l hl
    have hlt : l.index < c.labelled.length := label?_lt hlabel'
    have hbound : l.index < c.bound := Nat.lt_of_lt_of_le hlt (Nat.le_add_right _ _)
    cases s with
    | block t =>
      obtain rfl : h = t := label?_inj hlabel' hlabel
      have hnone : c.caught? h = none := hs.1
      change (c.caught? h).isSome = true at hh
      rw [hnone] at hh
      cases hh
    | resume index =>
      obtain ⟨-, -, hindex⟩ := hmade.resume_label?_eq_some_iff.1 hlabel
      omega
    | body =>
      change (if c.procedure.isGenerator then some (Label.mk c.bound) else none) = some l at hlabel
      rw [show c.procedure.isGenerator = true from hs, if_pos rfl] at hlabel
      cases hlabel
      exact absurd hbound (Nat.lt_irrefl _)
    | ret => exact absurd hbound (Nat.not_lt.2 (hfits.label l hlabel).1)
  resume index l hl := Option.isSome_iff_exists.2 ⟨l, hl⟩

end Plan

end StackCode
