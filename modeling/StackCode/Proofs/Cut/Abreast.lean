import StackCode.Proofs.Cut.Renamed

/-!
# Two codes abreast

One draft is another with other labels, and says more where control does not get.  Whatever the second
comes to, the first comes to as well, with labels in between that nothing leads to (`Mimics`).
-/

namespace StackCode

/-- Control gets to both places or to none of them, with as many values on the stack, and has branched
to the same labels, which have other names; labels without a counterpart are not branched to. -/
structure Flow.Mirrors (σ : Label → Label) (f f' : Flow) : Prop where
  isLive : f.isLive = f'.isLive
  depth : f.isLive = true → f.depth = f'.depth
  hasStaged : f.hasStaged = f'.hasStaged
  isReferenced : ∀ l, f.labels.isReferenced (σ l) = f'.labels.isReferenced l
  apart : ∀ l, l ∉ Set.range σ → f.labels.isReferenced l = false

namespace Flow.Mirrors

variable {σ : Label → Label} {f f' g g' : Flow} {code code' : List Instr}

/-- A label is placed, and no label is branched to. -/
theorem mark_eq {l : Label} {arrival : Arrival} (h : f.mark l arrival = .ok (code, g)) :
    code = [.markLabel l] ∧ f.Enters g l arrival ∧
      ∀ k, g.labels.isReferenced k = f.labels.isReferenced k := by
  obtain ⟨rfl, hlive, labels, hlabels, rfl⟩ := mark_eq_ok_iff.1 h
  refine ⟨rfl, ⟨fun hf => (hlive hf).2, rfl, rfl, rfl⟩, fun k => Bool.eq_iff_iff.2 ?_⟩
  rw [(LabelTable.mark_grows hlabels).1.isReferenced_iff k]
  exact or_iff_left List.not_mem_nil

/-- A label without a counterpart changes nothing. -/
theorem of_mark (h : f.Mirrors σ f') {l : Label} (hl : l ∉ Set.range σ)
    (hmark : f.mark l .forward = .ok (code, g)) : g.Mirrors σ f' ∧ Sprinkled σ code [] := by
  obtain ⟨rfl, henters, hreferenced⟩ := mark_eq hmark
  have hlive : g.isLive = f.isLive := by
    rw [henters.isLive, h.apart l hl, Bool.or_false]
    exact Bool.or_false _
  refine ⟨⟨hlive.trans h.isLive, fun hg => ?_, henters.hasStaged.trans h.hasStaged,
    fun k => (hreferenced _).trans (h.isReferenced k),
    fun k hk => (hreferenced k).trans (h.apart k hk)⟩, .mark hl .nil⟩
  have hf := hlive.symm.trans hg
  rw [henters.depth, ← h.depth hf]
  exact (henters.depth_eq hf).symm

theorem mark (h : f.Mirrors σ f') {l : Label} {arrival : Arrival}
    (hmark : f.mark (σ l) arrival = .ok (code, g)) (hmark' : f'.mark l arrival = .ok (code', g')) :
    g.Mirrors σ g' ∧ code = code'.map (Instr.relabel σ) := by
  obtain ⟨rfl, henters, hreferenced⟩ := mark_eq hmark
  obtain ⟨rfl, henters', hreferenced'⟩ := mark_eq hmark'
  refine ⟨⟨?_, fun _ => henters.depth.trans henters'.depth.symm, ?_, fun k => ?_, fun k hk => ?_⟩, rfl⟩
  · rw [henters.isLive, henters'.isLive, h.isLive, h.isReferenced]
  · rw [henters.hasStaged, henters'.hasStaged, h.hasStaged]
  · rw [hreferenced, hreferenced', h.isReferenced]
  · rw [hreferenced, h.apart k hk]

variable (hσ : Function.Injective σ) (h : f.Mirrors σ f')
include hσ h

theorem emit {i : Instr} (hemit : f.emit (i.relabel σ) = .ok (code, g))
    (hemit' : f'.emit i = .ok (code', g')) : g.Mirrors σ g' ∧ code = code'.map (Instr.relabel σ) := by
  cases hf : f.isLive with
  | false =>
    obtain ⟨rfl, rfl⟩ := (emit_dead hf).1 hemit
    obtain ⟨rfl, rfl⟩ := (emit_dead (h.isLive.symm.trans hf)).1 hemit'
    refine ⟨h, ?_⟩
    rw [Instr.isBookkeeping_relabel]
    split <;> rfl
  | true =>
    obtain ⟨rfl, depth, labels, hdepth, hlabels, rfl⟩ := (emit_live hf).1 hemit
    obtain ⟨rfl, depth', labels', hdepth', hlabels', rfl⟩ :=
      (emit_live (h.isLive.symm.trans hf)).1 hemit'
    rw [Instr.depthAfter_relabel, h.depth hf, hdepth'] at hdepth
    cases hdepth
    rw [Instr.targets_relabel] at hlabels
    have hgrows := LabelTable.referenceAll_grows hlabels
    have hgrows' := LabelTable.referenceAll_grows hlabels'
    refine ⟨⟨?_, fun _ => ?_, h.hasStaged, fun l => Bool.eq_iff_iff.2 ?_, fun l hl => ?_⟩, rfl⟩
    · exact congrArg (!·) (Instr.endsFlow_relabel σ i)
    · simp only [Instr.endsFlow_relabel]
    · rw [hgrows.isReferenced_iff, hgrows'.isReferenced_iff, h.isReferenced,
        List.mem_map_of_injective hσ]
    · refine eq_false_of_ne_true fun hreferenced => ?_
      rcases (hgrows.isReferenced_iff l).1 hreferenced with hold | hnew
      · rw [h.apart l hl] at hold
        cases hold
      · obtain ⟨l', -, rfl⟩ := List.mem_map.1 hnew
        exact hl ⟨l', rfl⟩

/-- Directives that are the same but for the labels come to the same but for the labels. -/
theorem of_step {d : Directive} (hstep : f.step (d.relabel σ) = .ok (code, g))
    (hstep' : f'.step d = .ok (code', g')) : g.Mirrors σ g' ∧ code = code'.map (Instr.relabel σ) := by
  cases d with
  | instr i => exact h.emit hσ hstep hstep'
  | mark l arrival => exact h.mark hstep hstep'
  | endStatement =>
    obtain ⟨-, rfl, rfl⟩ := step_endStatement.1 hstep
    obtain ⟨-, rfl, rfl⟩ := step_endStatement.1 hstep'
    exact ⟨h, rfl⟩
  | endBlock b =>
    obtain ⟨-, rfl, rfl⟩ := step_endBlock.1 hstep
    obtain ⟨-, rfl, rfl⟩ := step_endBlock.1 hstep'
    exact ⟨h, rfl⟩
  | stageReturn =>
    obtain ⟨rfl, rfl⟩ := step_stageReturn hstep
    obtain ⟨rfl, rfl⟩ := step_stageReturn hstep'
    exact ⟨⟨h.isLive, h.depth, congrArg₂ (· || ·) h.hasStaged h.isLive, h.isReferenced, h.apart⟩, rfl⟩
  | returnPoint l slot =>
    have hcases := step_returnPoint hstep
    have hcases' := step_returnPoint hstep'
    rw [h.hasStaged] at hcases
    split at hcases
    · next hstaged =>
      rw [if_pos hstaged] at hcases'
      obtain ⟨f₁, f₂, c₁, c₂, c₃, h₁, h₂, h₃, rfl⟩ := hcases
      obtain ⟨f₁', f₂', c₁', c₂', c₃', h₁', h₂', h₃', rfl⟩ := hcases'
      obtain ⟨hm₁, rfl⟩ := h.mark h₁ h₁'
      obtain ⟨hm₂, rfl⟩ := hm₁.emit hσ (i := .loadTemp slot) h₂ h₂'
      obtain ⟨hm₃, rfl⟩ := hm₂.emit hσ (i := .ret true) h₃ h₃'
      exact ⟨hm₃, by rw [List.map_append, List.map_append]⟩
    · next hstaged =>
      rw [if_neg hstaged] at hcases'
      obtain ⟨-, rfl, rfl⟩ := hcases
      obtain ⟨-, rfl, rfl⟩ := hcases'
      exact ⟨h, rfl⟩

end Flow.Mirrors

/-! ## Drafts -/

/-- Wherever both drafts can be assembled, the first comes to what the second comes to, with other
labels and with labels in between that nothing leads to. -/
def Mimics (σ : Label → Label) (ds ds' : List Directive) : Prop :=
  ∀ ⦃f f' g g' : Flow⦄ ⦃code code' : List Instr⦄, f.Mirrors σ f' → Assembles f ds code g →
    Assembles f' ds' code' g' → g.Mirrors σ g' ∧ Sprinkled σ code code'

namespace Mimics

variable {σ : Label → Label} {ds ds' ds₁ ds₁' : List Directive}

theorem nil (σ : Label → Label) : Mimics σ [] [] := by
  intro f f' g g' code code' h ha ha'
  obtain ⟨rfl, rfl⟩ := Assembles.nil_iff.1 ha
  obtain ⟨rfl, rfl⟩ := Assembles.nil_iff.1 ha'
  exact ⟨h, .nil⟩

theorem append (h : Mimics σ ds ds') (h₁ : Mimics σ ds₁ ds₁') :
    Mimics σ (ds ++ ds₁) (ds' ++ ds₁') := by
  intro f f' g g' code code' hmirrors ha ha'
  obtain ⟨m, c₁, c₂, ha₁, ha₂, rfl⟩ := Assembles.append_iff.1 ha
  obtain ⟨m', c₁', c₂', ha₁', ha₂', rfl⟩ := Assembles.append_iff.1 ha'
  obtain ⟨hmid, hs₁⟩ := h hmirrors ha₁ ha₁'
  obtain ⟨hend, hs₂⟩ := h₁ hmid ha₂ ha₂'
  exact ⟨hend, hs₁.append hs₂⟩

theorem of_relabel (hσ : Function.Injective σ) (ds : List Directive) :
    Mimics σ (ds.map (Directive.relabel σ)) ds := by
  induction ds with
  | nil => exact .nil σ
  | cons d ds ih =>
    intro f f' g g' code code' hmirrors ha ha'
    obtain ⟨c₁, m, c₂, hstep, hrest, rfl⟩ := Assembles.cons_iff.1 ha
    obtain ⟨c₁', m', c₂', hstep', hrest', rfl⟩ := Assembles.cons_iff.1 ha'
    obtain ⟨hmid, rfl⟩ := hmirrors.of_step hσ hstep hstep'
    obtain ⟨hend, hs⟩ := ih hmid hrest hrest'
    exact ⟨hend, (Sprinkled.of_map σ c₁').append hs⟩

end Mimics

/-! ## Dead directives -/

/-- Changes nothing where control does not get, a label apart. -/
def Directive.isIdle : Directive → Bool
  | .instr i => !i.isBookkeeping
  | .mark _ arrival => arrival = .forward
  | .endStatement | .stageReturn => true
  | .endBlock _ | .returnPoint _ _ => false

/-- Behind these directives control does not get on. -/
def Blocks (ds : List Directive) : Prop :=
  ∀ ⦃f g : Flow⦄ ⦃code : List Instr⦄, Assembles f ds code g → g.isLive = false

/-- Where control does not get, idle directives come to labels that nothing leads to. -/
theorem Flow.Mirrors.of_idle {σ : Label → Label} {f f' g : Flow} {ds : List Directive}
    {code : List Instr} (h : f.Mirrors σ f') (hf : f.isLive = false) (hds : ∀ d ∈ ds, d.isIdle = true)
    (hmarks : ∀ l ∈ marksIn ds, l ∉ Set.range σ) (ha : Assembles f ds code g) :
    g.Mirrors σ f' ∧ g.isLive = false ∧ Sprinkled σ code [] := by
  -- the other code stands still meanwhile: control stays away, and so do branches to these labels
  induction ha with
  | nil f => exact ⟨h, hf, .nil⟩
  | @cons f m g d ds instrs code hstep _ ih =>
    obtain ⟨hd, hds⟩ := List.forall_mem_cons.1 hds
    rw [← List.singleton_append, marksIn_append] at hmarks
    obtain ⟨hmark, hmarks⟩ := List.forall_mem_append.1 hmarks
    have hfirst : m.Mirrors σ f' ∧ m.isLive = false ∧ Sprinkled σ instrs [] := by
      cases d with
      | instr i =>
        obtain ⟨rfl, rfl⟩ := (emit_dead hf).1 hstep
        rw [show i.isBookkeeping = false by simpa [Directive.isIdle] using hd]
        exact ⟨h, hf, .nil⟩
      | mark l arrival =>
        obtain rfl : arrival = .forward := of_decide_eq_true hd
        obtain ⟨hm, hs⟩ := h.of_mark (hmark l (List.mem_singleton_self _)) hstep
        exact ⟨hm, hm.isLive.trans (h.isLive.symm.trans hf), hs⟩
      | endStatement =>
        obtain ⟨-, rfl, rfl⟩ := Flow.step_endStatement.1 hstep
        exact ⟨h, hf, .nil⟩
      | stageReturn =>
        obtain ⟨rfl, rfl⟩ := step_stageReturn hstep
        refine ⟨⟨h.isLive, h.depth, ?_, h.isReferenced, h.apart⟩, hf, .nil⟩
        rw [hf, Bool.or_false, h.hasStaged]
      | endBlock | returnPoint => cases hd
    obtain ⟨hm, hlive, hs⟩ := hfirst
    obtain ⟨hg, hlive, hs'⟩ := ih hm hlive hds hmarks
    exact ⟨hg, hlive, hs.append hs'⟩

/-- Idle directives can be added where control does not get. -/
theorem Mimics.append_idle {σ : Label → Label} {ds ds' idle : List Directive} (h : Mimics σ ds ds')
    (hblocks : Blocks ds) (hidle : ∀ d ∈ idle, d.isIdle = true)
    (hmarks : ∀ l ∈ marksIn idle, l ∉ Set.range σ) : Mimics σ (ds ++ idle) ds' := by
  intro f f' g g' code code' hmirrors ha ha'
  obtain ⟨m, c₁, c₂, ha₁, ha₂, rfl⟩ := Assembles.append_iff.1 ha
  obtain ⟨hmid, hs⟩ := h hmirrors ha₁ ha'
  obtain ⟨hend, -, hs'⟩ := hmid.of_idle (hblocks ha₁) hidle hmarks ha₂
  exact ⟨hend, by simpa using hs.append hs'⟩

end StackCode
