import StackCode.Proofs.Labels.Placed

/-!
# Assembly with other labels

What is executed of some code are its instructions without the labels that nothing leads to
(`executable`).  Directives come to the same code with other labels in place of theirs, and labels that
have no counterpart, none of which is branched to, do not change what is executed.  Main statements:
`Flow.Mirrors.of_step`, `Sprinkled.executable_eq`.
-/

namespace StackCode

/-! ## Other labels -/

namespace Instr

/-- The instruction with other labels. -/
def relabel (σ : Label → Label) : Instr → Instr
  | .branch l => .branch (σ l)
  | .branchIf when l => .branchIf when (σ l)
  | .switch cases default => .switch (cases.map fun (key, l) => (key, σ l)) (σ default)
  | .enterTry l => .enterTry (σ l)
  | .leave l => .leave (σ l)
  | .markLabel l => .markLabel (σ l)
  | i => i

variable (σ : Label → Label) (i : Instr)

theorem targets_relabel : (i.relabel σ).targets = i.targets.map σ := by
  cases i with
  | switch cases default => simp [relabel, targets]
  | _ => rfl

theorem placed?_relabel : (i.relabel σ).placed? = i.placed?.map σ := by
  cases i <;> rfl

theorem depthAfter_relabel (depth : Nat) : (i.relabel σ).depthAfter depth = i.depthAfter depth := by
  cases i with
  | branchIf when l => cases when <;> rfl
  | _ => rfl

@[simp] theorem endsFlow_relabel : (i.relabel σ).endsFlow = i.endsFlow := by
  cases i <;> rfl

@[simp] theorem isBookkeeping_relabel : (i.relabel σ).isBookkeeping = i.isBookkeeping := by
  cases i <;> rfl

@[simp] theorem isNote_relabel : (i.relabel σ).isNote = i.isNote := by
  cases i <;> rfl

variable {σ i}

/-- Without labels of its own, an instruction is the same with other labels. -/
theorem relabel_eq_self (htargets : ∀ l ∈ i.targets, σ l = l) (hplaced : i.placed? = none) :
    i.relabel σ = i := by
  cases i with
  | markLabel l => cases hplaced
  | branch l => exact congrArg Instr.branch (htargets l List.mem_cons_self)
  | branchIf w l => exact congrArg (Instr.branchIf w) (htargets l List.mem_cons_self)
  | enterTry l => exact congrArg Instr.enterTry (htargets l List.mem_cons_self)
  | leave l => exact congrArg Instr.leave (htargets l List.mem_cons_self)
  | switch cases default =>
    obtain ⟨hcases, hdefault⟩ := List.forall_mem_append.1 htargets
    have hsame : cases.map (fun e => (e.1, σ e.2)) = cases := by
      refine (List.map_congr_left fun e he => ?_).trans (List.map_id cases)
      rw [hcases e.2 (List.mem_map_of_mem he)]
      rfl
    exact congrArg₂ Instr.switch hsame (hdefault default (List.mem_singleton_self _))
  | _ => rfl

end Instr

/-- The directive with other labels. -/
def Directive.relabel (σ : Label → Label) : Directive → Directive
  | .instr i => .instr (i.relabel σ)
  | .mark l arrival => .mark (σ l) arrival
  | .returnPoint l slot => .returnPoint (σ l) slot
  | d => d

/-! ## What is executed -/

/-- What is executed of some code: without notes about slots and the numbers of slots, and without the
labels that nothing leads to. -/
def executable (code : List Instr) : List Instr :=
  (code.filter fun i => !i.isNote && i.placed?.all (· ∈ targetsIn code)).map Instr.erased

/-- The instructions of some code without slots. -/
def withoutSlots (code : List Instr) : List Instr := (code.filter (!·.isNote)).map Instr.erased

theorem withoutSlots_append (code code' : List Instr) :
    withoutSlots (code ++ code') = withoutSlots code ++ withoutSlots code' := by
  unfold withoutSlots
  rw [List.filter_append, List.map_append]

theorem targetsIn_withoutSlots (code : List Instr) :
    targetsIn (withoutSlots code) = targetsIn code := by
  induction code with
  | nil => rfl
  | cons i code ih =>
    rw [← List.singleton_append, withoutSlots_append, targetsIn_append, targetsIn_append, ih]
    congr 1
    cases hi : i.isNote with
    | true => simp [withoutSlots, hi, targetsIn, Instr.targets_of_isNote hi]
    | false => simp [withoutSlots, hi, targetsIn]

/-- What is executed is what is left of the code without slots. -/
theorem executable_eq (code : List Instr) : executable code =
    (withoutSlots code).filter fun i => i.placed?.all (· ∈ targetsIn (withoutSlots code)) := by
  rw [targetsIn_withoutSlots]
  unfold executable withoutSlots
  rw [List.filter_map, List.filter_filter]
  simp only [Function.comp_def, Instr.placed?_erased, Bool.and_comm]

/-- The first code is the second with other labels, and among its instructions stand labels that have
no counterpart. -/
inductive Sprinkled (σ : Label → Label) : List Instr → List Instr → Prop
  | nil : Sprinkled σ [] []
  | cons (i : Instr) {code code' : List Instr} (rest : Sprinkled σ code code') :
      Sprinkled σ (i.relabel σ :: code) (i :: code')
  | mark {l : Label} (hl : l ∉ Set.range σ) {code code' : List Instr}
      (rest : Sprinkled σ code code') : Sprinkled σ (.markLabel l :: code) code'

namespace Sprinkled

variable {σ : Label → Label} {code code' code₁ code₁' : List Instr}

theorem of_map (σ : Label → Label) (code : List Instr) :
    Sprinkled σ (code.map (Instr.relabel σ)) code := by
  induction code with
  | nil => exact .nil
  | cons i code ih => exact .cons i ih

theorem append (h : Sprinkled σ code code') (h₁ : Sprinkled σ code₁ code₁') :
    Sprinkled σ (code ++ code₁) (code' ++ code₁') := by
  induction h with
  | nil => exact h₁
  | cons i _ ih => exact .cons i ih
  | mark hl _ ih => exact .mark hl ih

theorem targetsIn_eq (h : Sprinkled σ code code') : targetsIn code = (targetsIn code').map σ := by
  induction h with
  | nil => rfl
  | @cons i code code' _ ih =>
    change (i.relabel σ).targets ++ targetsIn code = (i.targets ++ targetsIn code').map σ
    rw [ih, Instr.targets_relabel, List.map_append]
  | mark _ _ ih => exact ih

/-- Labels without a counterpart are left out. -/
theorem filter_eq (h : Sprinkled σ code code') {targets targets' : List Label}
    (hsame : ∀ l, σ l ∈ targets ↔ l ∈ targets') (hrange : ∀ l ∈ targets, l ∈ Set.range σ) :
    code.filter (fun i => i.placed?.all (· ∈ targets)) =
      (code'.filter fun i => i.placed?.all (· ∈ targets')).map (Instr.relabel σ) := by
  induction h with
  | nil => rfl
  | @cons i code code' _ ih =>
    have hplaced : (i.relabel σ).placed?.all (· ∈ targets) = i.placed?.all (· ∈ targets') := by
      rw [Instr.placed?_relabel]
      cases i.placed? with
      | none => rfl
      | some l => simpa using hsame l
    rw [List.filter_cons, List.filter_cons, hplaced, ih]
    split <;> rfl
  | @mark l hl _ _ _ ih =>
    rw [List.filter_cons_of_neg, ih]
    simp only [Instr.placed?, Option.all_some, decide_eq_true_eq]
    exact fun hmem => hl (hrange l hmem)

/-- The same is executed of both codes, the labels apart. -/
theorem executable_eq (hσ : Function.Injective σ)
    (h : Sprinkled σ (withoutSlots code) (withoutSlots code')) :
    executable code = (executable code').map (Instr.relabel σ) := by
  have htargets := h.targetsIn_eq
  rw [StackCode.executable_eq, StackCode.executable_eq]
  refine h.filter_eq (fun l => ?_) fun l hl => ?_
  · rw [htargets, List.mem_map_of_injective hσ]
  · rw [htargets] at hl
    obtain ⟨l', -, rfl⟩ := List.mem_map.1 hl
    exact ⟨l', rfl⟩

end Sprinkled

/-! ## Directives without slots -/

namespace Flow

variable {f g : Flow} {code : List Instr}

/-- A note leaves everything as it is. -/
theorem step_note_eq {i : Instr} (hi : i.isNote = true) (h : f.step (.instr i) = .ok (code, g)) :
    code = [i] ∧ g = f := by
  cases hf : f.isLive with
  | false =>
    obtain ⟨rfl, rfl⟩ := (emit_dead hf).1 h
    rw [Instr.isBookkeeping_of_isNote hi]
    exact ⟨rfl, rfl⟩
  | true =>
    obtain ⟨rfl, depth, labels, hdepth, hlabels, rfl⟩ := (emit_live hf).1 h
    rw [Instr.depthAfter_of_isNote hi] at hdepth
    rw [Instr.targets_of_isNote hi, LabelTable.referenceAll_nil] at hlabels
    cases hdepth
    cases hlabels
    refine ⟨rfl, ?_⟩
    rw [Instr.endsFlow_of_isNote hi]
    cases f
    cases hf
    rfl

theorem emit_withoutSlots {i : Instr} (hi : i.isNote = false) (h : f.emit i = .ok (code, g)) :
    f.emit i.erased = .ok (withoutSlots code, g) := by
  have hsingle : withoutSlots [i] = [i.erased] := by simp [withoutSlots, hi]
  cases hf : f.isLive with
  | false =>
    obtain ⟨rfl, rfl⟩ := (emit_dead hf).1 h
    refine (emit_dead hf).2 ⟨?_, rfl⟩
    rw [Instr.isBookkeeping_erased]
    split
    · exact hsingle
    · rfl
  | true =>
    obtain ⟨rfl, depth, labels, hdepth, hlabels, rfl⟩ := (emit_live hf).1 h
    refine (emit_live hf).2 ⟨hsingle, depth, labels, ?_, ?_, ?_⟩
    · rw [Instr.depthAfter_erased, hdepth]
    · rw [Instr.targets_erased, hlabels]
    · rw [Instr.endsFlow_erased]

/-- Without its slot, a directive comes to the same code without slots. -/
theorem step_withoutSlots {d d' : Directive} (hd : d.bare? = some d') (h : f.step d = .ok (code, g)) :
    f.step d' = .ok (withoutSlots code, g) := by
  cases d with
  | instr i =>
    obtain ⟨hi, rfl⟩ := Directive.bare?_instr.1 hd
    exact emit_withoutSlots hi h
  | mark l arrival =>
    cases hd
    obtain ⟨rfl, -⟩ := step_mark h
    exact h
  | endStatement =>
    cases hd
    obtain ⟨-, rfl, -⟩ := step_endStatement.1 h
    exact h
  | endBlock b =>
    cases hd
    obtain ⟨-, rfl, -⟩ := step_endBlock.1 h
    exact h
  | stageReturn =>
    cases hd
    obtain ⟨rfl, -⟩ := step_stageReturn h
    exact h
  | returnPoint l slot =>
    cases hd
    have hcases := step_returnPoint h
    cases hs : f.hasStaged with
    | false =>
      rw [hs, if_neg Bool.false_ne_true] at hcases
      obtain ⟨href, rfl, rfl⟩ := hcases
      simp [step, hs, href, withoutSlots]
    | true =>
      rw [hs, if_pos rfl] at hcases
      obtain ⟨f₁, f₂, c₁, c₂, c₃, hmark, hload, hret, rfl⟩ := hcases
      obtain ⟨rfl, -⟩ := mark_eq_ok_iff.1 hmark
      have hload' : f₁.emit (.loadTemp ⟨0⟩) = _ := emit_withoutSlots rfl hload
      have hret' : f₂.emit (.ret true) = _ := emit_withoutSlots rfl hret
      simp only [step, hs, if_true, hmark, hload', hret', bind, Except.bind, pure, Except.pure,
        withoutSlots_append]
      rfl

end Flow

/-- Without slots, directives come to the code without slots. -/
theorem Assembles.withoutSlots {f g : Flow} {ds : List Directive} {code : List Instr}
    (h : Assembles f ds code g) : Assembles f (bare ds) (withoutSlots code) g := by
  induction h with
  | nil f => exact .nil f
  | @cons f m g d ds instrs code hstep _ ih =>
    rw [withoutSlots_append]
    cases hd : d.bare? with
    | some d' =>
      rw [bare_cons hd]
      exact .cons (Flow.step_withoutSlots hd hstep) ih
    | none =>
      obtain ⟨i, rfl, hi⟩ := isNote_of_bare? hd
      obtain ⟨rfl, rfl⟩ := Flow.step_note_eq hi hstep
      rw [bare_note hi]
      simpa [StackCode.withoutSlots, hi] using ih

end StackCode
