import StackCode.Assembly.Basic
import StackCode.Proofs.Assembly.Labels
import StackCode.Proofs.Instr.Labels

/-!
# Assembly as a relation

`Assembles f ds code g` says that from the flow `f` the directives `ds` come to the instructions
`code` and leave the flow `g`.  It splits where a list of directives splits, so what is known of the
parts of a draft carries over to the parts of the code.  Main statements: the assembler stops
without a fault exactly where the relation holds (`assemble_eq_iff`), and the label table grows by
the labels that the code marks and names, each marked once (`Assembles.grows`,
`Assembles.marks_nodup`).
-/

namespace StackCode

/-- From the flow `f`, the directives come to the code and leave the flow `g`. -/
inductive Assembles : Flow → List Directive → List Instr → Flow → Prop
  | nil (f : Flow) : Assembles f [] [] f
  | cons {f g h : Flow} {d : Directive} {ds : List Directive} {instrs code : List Instr}
      (step : f.step d = .ok (instrs, g)) (rest : Assembles g ds code h) :
      Assembles f (d :: ds) (instrs ++ code) h

namespace Assembles

theorem nil_iff {f g : Flow} {code : List Instr} :
    Assembles f [] code g ↔ code = [] ∧ g = f := by
  constructor
  · intro h; cases h; exact ⟨rfl, rfl⟩
  · rintro ⟨rfl, rfl⟩; exact .nil _

theorem cons_iff {f h : Flow} {d : Directive} {ds : List Directive} {code : List Instr} :
    Assembles f (d :: ds) code h ↔
      ∃ instrs g rest, f.step d = .ok (instrs, g) ∧ Assembles g ds rest h ∧
        code = instrs ++ rest := by
  constructor
  · intro ha
    cases ha with
    | cons step rest => exact ⟨_, _, _, step, rest, rfl⟩
  · rintro ⟨instrs, g, rest, step, hrest, rfl⟩
    exact .cons step hrest

theorem append_iff {f h : Flow} {ds es : List Directive} {code : List Instr} :
    Assembles f (ds ++ es) code h ↔
      ∃ g code₁ code₂, Assembles f ds code₁ g ∧ Assembles g es code₂ h ∧
        code = code₁ ++ code₂ := by
  induction ds generalizing f code with
  | nil =>
    constructor
    · intro ha; exact ⟨f, [], code, .nil f, ha, rfl⟩
    · rintro ⟨g, code₁, code₂, h₁, h₂, rfl⟩
      obtain ⟨rfl, rfl⟩ := nil_iff.1 h₁
      exact h₂
  | cons d ds ih =>
    constructor
    · intro ha
      obtain ⟨instrs, g, rest, step, hrest, rfl⟩ := cons_iff.1 ha
      obtain ⟨g', code₁, code₂, h₁, h₂, rfl⟩ := ih.1 hrest
      exact ⟨g', instrs ++ code₁, code₂, .cons step h₁, h₂, (List.append_assoc ..).symm⟩
    · rintro ⟨g', code₁, code₂, h₁, h₂, rfl⟩
      obtain ⟨instrs, g, rest, step, hrest, rfl⟩ := cons_iff.1 h₁
      rw [List.append_assoc]
      exact .cons step (ih.2 ⟨g', rest, code₂, hrest, h₂, rfl⟩)

theorem append {f g h : Flow} {ds es : List Directive} {code₁ code₂ : List Instr}
    (h₁ : Assembles f ds code₁ g) (h₂ : Assembles g es code₂ h) :
    Assembles f (ds ++ es) (code₁ ++ code₂) h :=
  append_iff.2 ⟨g, code₁, code₂, h₁, h₂, rfl⟩

theorem singleton_iff {f g : Flow} {d : Directive} {code : List Instr} :
    Assembles f [d] code g ↔ f.step d = .ok (code, g) := by
  rw [cons_iff]
  constructor
  · rintro ⟨instrs, g', rest, step, hrest, rfl⟩
    obtain ⟨rfl, rfl⟩ := nil_iff.1 hrest
    rwa [List.append_nil]
  · intro step
    exact ⟨code, g, [], step, .nil g, (List.append_nil _).symm⟩

/-- Directives come to one code and leave one flow. -/
theorem unique {f g g' : Flow} {ds : List Directive} {code code' : List Instr}
    (h : Assembles f ds code g) (h' : Assembles f ds code' g') : code = code' ∧ g = g' := by
  induction h generalizing code' with
  | nil f =>
    obtain ⟨rfl, rfl⟩ := nil_iff.1 h'
    exact ⟨rfl, rfl⟩
  | cons step _ ih =>
    obtain ⟨instrs, f', rest, step', hrest, rfl⟩ := cons_iff.1 h'
    rw [step] at step'
    cases step'
    obtain ⟨rfl, rfl⟩ := ih hrest
    exact ⟨rfl, rfl⟩

end Assembles

/-! ## The assembler -/

private theorem appendList_assoc (code : Array Instr) (xs ys : List Instr) :
    code ++ xs ++ ys = code ++ (xs ++ ys) :=
  Array.ext' (by simp only [Array.toList_appendList, List.append_assoc])

/-- The assembler gets to the end of the directives exactly where they come to some code, and then
it has appended that code. -/
theorem assemble_eq_iff {code out : Array Instr} {f g : Flow} {ds : List Directive} :
    assemble code f ds = { code := out, flow := g, fault := none } ↔
      ∃ instrs, Assembles f ds instrs g ∧ out = code ++ instrs := by
  induction ds generalizing code f with
  | nil =>
    constructor
    · intro h; cases h; exact ⟨[], .nil _, Array.appendList_nil.symm⟩
    · rintro ⟨instrs, ha, rfl⟩
      obtain ⟨rfl, rfl⟩ := Assembles.nil_iff.1 ha
      rw [assemble, Array.appendList_nil]
  | cons d ds ih =>
    rw [assemble]
    cases hs : f.step d with
    | error e =>
      constructor
      · intro h; cases h
      · rintro ⟨instrs, ha, -⟩
        obtain ⟨_, _, _, step, -, -⟩ := Assembles.cons_iff.1 ha
        rw [hs] at step; cases step
    | ok r =>
      obtain ⟨first, f'⟩ := r
      simp only [ih]
      constructor
      · rintro ⟨rest, ha, rfl⟩
        exact ⟨first ++ rest, .cons hs ha, appendList_assoc ..⟩
      · rintro ⟨instrs, ha, rfl⟩
        obtain ⟨instrs', g', rest, step, hrest, rfl⟩ := Assembles.cons_iff.1 ha
        rw [hs] at step
        cases step
        exact ⟨rest, hrest, (appendList_assoc ..).symm⟩

/-- Behind directives that are assembled without a fault, others are assembled as if they were the first. -/
theorem assemble_append_of_fault {code : Array Instr} {f : Flow} {ds : List Directive}
    (h : (assemble code f ds).fault = none) (es : List Directive) :
    assemble code f (ds ++ es) = assemble (assemble code f ds).code (assemble code f ds).flow es := by
  induction ds generalizing code f with
  | nil => rfl
  | cons d ds ih =>
    rw [List.cons_append, assemble, assemble] at *
    cases hstep : f.step d with
    | error e =>
      rw [hstep] at h
      cases h
    | ok r =>
      rw [hstep] at h
      exact ih h

/-! ## Labels of the code -/

/-- What a stretch of code does to the flow's label table and to its record of stored return
values. -/
structure Flow.Advances (f g : Flow) (code : List Instr) : Prop where
  grows : f.labels.Grows g.labels (placedIn code) (targetsIn code)
  placed_nodup : (placedIn code).Nodup
  placed_fresh : ∀ l ∈ placedIn code, f.labels.isMarked l = false
  hasStaged : f.hasStaged = true → g.hasStaged = true

namespace Flow.Advances

theorem refl (f : Flow) : f.Advances f [] :=
  ⟨.refl _, List.nodup_nil, fun _ h => absurd h List.not_mem_nil, id⟩

theorem trans {f g h : Flow} {code code' : List Instr} (h₁ : f.Advances g code)
    (h₂ : g.Advances h code') : f.Advances h (code ++ code') := by
  refine ⟨?_, ?_, ?_, h₂.hasStaged ∘ h₁.hasStaged⟩
  · rw [placedIn_append, targetsIn_append]
    exact h₁.grows.trans h₂.grows
  · rw [placedIn_append, List.nodup_append]
    refine ⟨h₁.placed_nodup, h₂.placed_nodup, ?_⟩
    rintro l hl _ hl' rfl
    have hmarked : g.labels.isMarked l = true := (h₁.grows.isMarked_iff l).2 (.inr hl)
    rw [h₂.placed_fresh l hl'] at hmarked
    cases hmarked
  · intro l hl
    rw [placedIn_append, List.mem_append] at hl
    rcases hl with hl | hl
    · exact h₁.placed_fresh l hl
    · cases hf : f.labels.isMarked l with
      | false => rfl
      | true =>
        have hmarked : g.labels.isMarked l = true := (h₁.grows.isMarked_iff l).2 (.inl hf)
        rw [h₂.placed_fresh l hl] at hmarked
        cases hmarked

/-- A label that has been referenced stays so. -/
theorem isReferenced {f g : Flow} {code : List Instr} (h : f.Advances g code) {l : Label}
    (hl : f.labels.isReferenced l = true) : g.labels.isReferenced l = true :=
  (h.grows.isReferenced_iff l).2 (.inl hl)

end Flow.Advances

namespace Flow

/-- What a live instruction comes to. -/
theorem emit_live {f g : Flow} {i : Instr} {code : List Instr} (hf : f.isLive = true) :
    f.emit i = .ok (code, g) ↔
      code = [i] ∧ ∃ depth labels, i.depthAfter f.depth = .ok depth ∧
        f.labels.referenceAll i.targets = .ok labels ∧
        g = { f with labels, isLive := !i.endsFlow, depth := if i.endsFlow then 0 else depth } := by
  unfold emit
  simp only [hf, ↓reduceIte, bind, Except.bind, pure, Except.pure]
  cases i.depthAfter f.depth with
  | error e => simp
  | ok depth =>
    cases f.labels.referenceAll i.targets with
    | error e => simp
    | ok labels =>
      cases i.endsFlow <;> simp [eq_comm]

/-- What an instruction that control does not reach comes to. -/
theorem emit_dead {f g : Flow} {i : Instr} {code : List Instr} (hf : f.isLive = false) :
    f.emit i = .ok (code, g) ↔ code = (if i.isBookkeeping then [i] else []) ∧ g = f := by
  unfold emit
  simp only [hf, Bool.false_eq_true, ↓reduceIte, pure, Except.pure, Except.ok.injEq, Prod.mk.injEq,
    eq_comm (b := code), eq_comm (b := g)]

/-- What a label comes to. -/
theorem mark_eq_ok_iff {f g : Flow} {l : Label} {arrival : Arrival} {code : List Instr} :
    f.mark l arrival = .ok (code, g) ↔
      code = [.markLabel l] ∧ (f.isLive = true → arrival ≠ .handler ∧ f.depth = 0) ∧
        ∃ labels, f.labels.mark l = .ok labels ∧
          g = { f with
            labels
            isLive := f.isLive || decide (arrival ≠ .forward) || f.labels.isReferenced l
            depth := entryDepth arrival } := by
  unfold mark
  by_cases hc : (f.isLive && (decide (arrival = .handler) || decide (f.depth ≠ 0))) = true
  · rw [if_pos hc]
    simp only [Bool.and_eq_true, Bool.or_eq_true, decide_eq_true_eq] at hc
    constructor
    · intro h; cases h
    · rintro ⟨-, h, -⟩
      obtain ⟨h₁, h₂⟩ := h hc.1
      rcases hc.2 with h' | h'
      · exact absurd h' h₁
      · exact absurd h₂ h'
  · rw [if_neg hc]
    have hlive : f.isLive = true → arrival ≠ .handler ∧ f.depth = 0 := by
      intro hl
      simp only [hl, Bool.true_and, Bool.or_eq_true, decide_eq_true_eq, not_or,
        Decidable.not_not] at hc
      exact hc
    simp only [bind, Except.bind, pure, Except.pure]
    cases f.labels.mark l with
    | error e => simp
    | ok labels =>
      simp only [Except.ok.injEq, Prod.mk.injEq, exists_eq_left']
      constructor
      · rintro ⟨rfl, rfl⟩; exact ⟨rfl, hlive, rfl⟩
      · rintro ⟨rfl, -, rfl⟩; exact ⟨rfl, rfl⟩

theorem emit_advances {f g : Flow} {i : Instr} {code : List Instr} (h : f.emit i = .ok (code, g))
    (hi : i.placed? = none) : f.Advances g code := by
  cases hf : f.isLive with
  | false =>
    obtain ⟨rfl, rfl⟩ := (emit_dead hf).1 h
    cases hb : i.isBookkeeping with
    | false => exact .refl _
    | true =>
      have ht : i.targets = [] := by cases i <;> simp_all [Instr.isBookkeeping, Instr.targets]
      refine ⟨?_, ?_, ?_, id⟩
      · simpa [placedIn, targetsIn, hi, ht] using LabelTable.Grows.refl g.labels
      · simp [placedIn, hi]
      · simp [placedIn, hi]
  | true =>
    obtain ⟨rfl, depth, labels, -, hr, rfl⟩ := (emit_live hf).1 h
    refine ⟨?_, ?_, ?_, id⟩
    · simpa [placedIn, targetsIn, hi] using LabelTable.referenceAll_grows hr
    · simp [placedIn, hi]
    · simp [placedIn, hi]

theorem mark_advances {f g : Flow} {l : Label} {arrival : Arrival} {code : List Instr}
    (h : f.mark l arrival = .ok (code, g)) : f.Advances g code := by
  obtain ⟨rfl, -, labels, hm, rfl⟩ := mark_eq_ok_iff.1 h
  obtain ⟨hgrows, hfresh⟩ := LabelTable.mark_grows hm
  refine ⟨hgrows, by simp [placedIn, Instr.placed?], ?_, id⟩
  intro k hk
  simp only [placedIn, Instr.placed?, List.filterMap_cons, List.filterMap_nil,
    List.mem_singleton] at hk
  rw [hk, hfresh]

theorem step_endStatement {f g : Flow} {code : List Instr} :
    f.step .endStatement = .ok (code, g) ↔
      (f.isLive = true → f.depth = 0) ∧ code = [] ∧ g = f := by
  simp only [step]
  cases f.isLive with
  | false => simp [eq_comm]
  | true => by_cases hd : f.depth = 0 <;> simp [hd, eq_comm]

theorem step_endBlock {f g : Flow} {b : BlockId} {code : List Instr} :
    f.step (.endBlock b) = .ok (code, g) ↔ f.isLive = false ∧ code = [] ∧ g = f := by
  simp only [step]
  cases f.isLive <;> simp [eq_comm]

/-- What a return point comes to where some return value has been stored. -/
theorem step_returnPoint {f g : Flow} {l : Label} {slot : TempSlot} {code : List Instr}
    (h : f.step (.returnPoint l slot) = .ok (code, g)) :
    if f.hasStaged then
      ∃ f₁ f₂ c₁ c₂ c₃, f.mark l .forward = .ok (c₁, f₁) ∧ f₁.emit (.loadTemp slot) = .ok (c₂, f₂) ∧
        f₂.emit (.ret true) = .ok (c₃, g) ∧ code = c₁ ++ c₂ ++ c₃
    else f.labels.isReferenced l = false ∧ code = [] ∧ g = f := by
  unfold step at h
  cases hs : f.hasStaged with
  | false =>
    simp only [hs, Bool.false_eq_true, ↓reduceIte] at h ⊢
    cases hr : f.labels.isReferenced l with
    | true => rw [hr] at h; cases h
    | false => rw [hr] at h; cases h; exact ⟨rfl, rfl, rfl⟩
  | true =>
    simp only [hs, ↓reduceIte, bind, Except.bind, pure, Except.pure] at h ⊢
    cases hm : f.mark l .forward with
    | error e => rw [hm] at h; cases h
    | ok r₁ =>
      cases hl : r₁.2.emit (.loadTemp slot) with
      | error e => simp only [hm, hl] at h; cases h
      | ok r₂ =>
        cases hr : r₂.2.emit (.ret true) with
        | error e => simp only [hm, hl, hr] at h; cases h
        | ok r₃ =>
          simp only [hm, hl, hr] at h
          cases h
          exact ⟨r₁.2, r₂.2, r₁.1, r₂.1, r₃.1, rfl, hl, hr, rfl⟩

end Flow

/-- Labels are placed by their own directive only. -/
def Directive.IsProper : Directive → Prop
  | .instr i => i.placed? = none
  | _ => True

theorem Flow.step_advances {f g : Flow} {d : Directive} {code : List Instr}
    (h : f.step d = .ok (code, g)) (hd : d.IsProper) : f.Advances g code := by
  cases d with
  | instr i => exact emit_advances h hd
  | mark l arrival => exact mark_advances h
  | endStatement =>
    obtain ⟨-, rfl, rfl⟩ := step_endStatement.1 h
    exact .refl _
  | endBlock b =>
    obtain ⟨-, rfl, rfl⟩ := step_endBlock.1 h
    exact .refl _
  | stageReturn =>
    cases h
    exact ⟨.refl _, List.nodup_nil, fun _ hl => absurd hl List.not_mem_nil,
      fun hs => by simp only [hs, Bool.true_or]⟩
  | returnPoint l slot =>
    have hr := step_returnPoint h
    split at hr
    · obtain ⟨f₁, f₂, c₁, c₂, c₃, hm, hl, he, rfl⟩ := hr
      exact ((mark_advances hm).trans (emit_advances hl rfl)).trans (emit_advances he rfl)
    · obtain ⟨-, rfl, rfl⟩ := hr
      exact .refl _

/-- Assembled code marks fresh labels, each once, and the label table keeps account of it. -/
theorem Assembles.advances {f g : Flow} {ds : List Directive} {code : List Instr}
    (h : Assembles f ds code g) (hds : ∀ d ∈ ds, d.IsProper) : f.Advances g code := by
  induction h with
  | nil f => exact .refl f
  | cons step _ ih =>
    exact (Flow.step_advances step (hds _ List.mem_cons_self)).trans
      (ih fun d hd => hds d (List.mem_cons_of_mem _ hd))

end StackCode
