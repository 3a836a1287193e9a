import StackCode.Proofs.Assembly.Assembles

/-!
# One directive at a time

What the assembler does at an instruction that control gets to (`Flow.Passes`), at a label
(`Flow.Enters`) and at a note, and where the code of a directive stands in the whole.
-/

namespace StackCode

namespace Flow

variable {f f' : Flow} {instrs : List Instr}

theorem step_stageReturn (h : f.step .stageReturn = .ok (instrs, f')) :
    instrs = [] ∧ f' = { f with hasStaged := f.hasStaged || f.isLive } := by
  cases h
  exact ⟨rfl, rfl⟩

/-- A note stands in the code whether control gets there or not. -/
theorem step_note {i : Instr} (hi : i.isNote = true) (h : f.step (.instr i) = .ok (instrs, f')) :
    instrs = [i] ∧ f'.isLive = f.isLive ∧ f'.depth = f.depth := by
  cases hf : f.isLive with
  | false =>
    obtain ⟨rfl, rfl⟩ := (emit_dead hf).1 h
    rw [Instr.isBookkeeping_of_isNote hi]
    exact ⟨rfl, hf, rfl⟩
  | true =>
    obtain ⟨rfl, after, labels, hafter, -, rfl⟩ := (emit_live hf).1 h
    rw [Instr.depthAfter_of_isNote hi] at hafter
    cases hafter
    simp only [Instr.endsFlow_of_isNote hi]
    exact ⟨trivial, rfl, rfl⟩

/-- What a live instruction leaves behind. -/
structure Passes (f f' : Flow) (i : Instr) (after : Nat) : Prop where
  depthAfter : i.depthAfter f.depth = .ok after
  isLive : f'.isLive = !i.endsFlow
  depth : i.endsFlow = false → f'.depth = after
  referenced : ∀ l ∈ i.targets, f'.labels.isReferenced l = true
  hasStaged : f'.hasStaged = f.hasStaged

theorem step_live {i : Instr} (hf : f.isLive = true) (h : f.step (.instr i) = .ok (instrs, f')) :
    instrs = [i] ∧ ∃ after, f.Passes f' i after := by
  obtain ⟨rfl, after, labels, hafter, hlabels, rfl⟩ := (emit_live hf).1 h
  refine ⟨rfl, after, hafter, rfl, fun hflow => if_neg (by rw [hflow]; exact Bool.false_ne_true),
    fun l hl => ?_, rfl⟩
  exact ((LabelTable.referenceAll_grows hlabels).isReferenced_iff l).2 (.inr hl)

/-- Liveness passes an instruction that control passes. -/
theorem isLive_of_run {i : Instr} {v : Bool} (hlive : v = true → f.isLive = true)
    (h : f.step (.instr i) = .ok (instrs, f')) : (v && !i.endsFlow) = true → f'.isLive = true := by
  intro hv
  obtain ⟨-, after, hpass⟩ := step_live (hlive (Bool.and_eq_true_iff.1 hv).1) h
  exact hpass.isLive.trans (Bool.and_eq_true_iff.1 hv).2

theorem isLive_of_step {i : Instr} {v : Bool} (hi : i.endsFlow = false)
    (hlive : v = true → f.isLive = true) (h : f.step (.instr i) = .ok (instrs, f')) :
    v = true → f'.isLive = true := by
  intro hv
  exact isLive_of_run hlive h (by rw [hv, hi]; rfl)

/-- What a label leaves behind. -/
structure Enters (f f' : Flow) (l : Label) (arrival : Arrival) : Prop where
  depth_eq : f.isLive = true → f.depth = 0
  depth : f'.depth = entryDepth arrival
  isLive : f'.isLive = (f.isLive || decide (arrival ≠ .forward) || f.labels.isReferenced l)
  hasStaged : f'.hasStaged = f.hasStaged

theorem step_mark {l : Label} {arrival : Arrival}
    (h : f.step (.mark l arrival) = .ok (instrs, f')) :
    instrs = [.markLabel l] ∧ f.Enters f' l arrival := by
  obtain ⟨rfl, hlive, labels, -, rfl⟩ := mark_eq_ok_iff.1 h
  exact ⟨rfl, fun hf => (hlive hf).2, rfl, rfl, rfl⟩

end Flow

/-- Notes come to themselves. -/
theorem Assembles.of_notes {f g : Flow} {notes seg : List Instr}
    (hnotes : ∀ i ∈ notes, i.isNote = true) (ha : Assembles f (notes.map .instr) seg g) :
    seg = notes ∧ g.isLive = f.isLive := by
  induction notes generalizing f seg with
  | nil =>
    obtain ⟨rfl, rfl⟩ := Assembles.nil_iff.1 ha
    exact ⟨rfl, rfl⟩
  | cons i notes ih =>
    obtain ⟨hi, hnotes⟩ := List.forall_mem_cons.1 hnotes
    obtain ⟨instrs, f₁, rest, hstep, hrest, rfl⟩ := Assembles.cons_iff.1 ha
    obtain ⟨rfl, hlive, -⟩ := Flow.step_note hi hstep
    obtain ⟨rfl, hlive'⟩ := ih hnotes hrest
    exact ⟨rfl, hlive'.trans hlive⟩

/-- Live instructions that control passes come to themselves. -/
theorem Assembles.of_passes {f g : Flow} {is seg : List Instr} (his : ∀ i ∈ is, i.passes = true)
    (hlive : f.isLive = true) (ha : Assembles f (is.map .instr) seg g) :
    seg = is ∧ g.isLive = true ∧ Instr.depthThrough is f.depth = .ok g.depth := by
  induction is generalizing f seg with
  | nil =>
    obtain ⟨rfl, rfl⟩ := Assembles.nil_iff.1 ha
    exact ⟨rfl, hlive, rfl⟩
  | cons i is ih =>
    obtain ⟨hi, his⟩ := List.forall_mem_cons.1 his
    obtain ⟨instrs, f₁, rest, hstep, hrest, rfl⟩ := Assembles.cons_iff.1 ha
    obtain ⟨rfl, after, hpass⟩ := Flow.step_live hlive hstep
    have hflow := Instr.endsFlow_of_passes hi
    obtain ⟨rfl, hlive', hdepth⟩ := ih his (by rw [hpass.isLive, hflow]; rfl) hrest
    refine ⟨rfl, hlive', Instr.depthThrough_cons_iff.2 ⟨after, hpass.depthAfter, ?_⟩⟩
    rw [← hpass.depth hflow]
    exact hdepth

/-- Code that control gets to and passes comes to itself. -/
theorem Assembles.of_depthThrough {f : Flow} {is : List Instr} {depth : Nat}
    (his : ∀ i ∈ is, i.passes = true) (hf : f.isLive = true)
    (h : Instr.depthThrough is f.depth = .ok depth) :
    Assembles f (is.map .instr) is { f with depth } := by
  induction is generalizing f with
  | nil =>
    cases h
    exact .nil f
  | cons i is ih =>
    obtain ⟨hi, his⟩ := List.forall_mem_cons.1 his
    obtain ⟨after, hafter, hrest⟩ := Instr.depthThrough_cons_iff.1 h
    have hstep : f.step (.instr i) = .ok ([i], { f with depth := after }) := by
      refine (Flow.emit_live hf).2 ⟨rfl, after, f.labels, hafter, ?_, ?_⟩
      · rw [Instr.targets_of_passes hi]
        rfl
      · rw [Instr.endsFlow_of_passes hi, hf]
        rfl
    exact .cons hstep (ih his hf hrest)

/-- Nothing comes of plain code that control does not get to. -/
theorem Assembles.of_isPlain_dead {f : Flow} {is : List Instr} (his : ∀ i ∈ is, i.isPlain = true)
    (hf : f.isLive = false) : Assembles f (is.map .instr) [] f := by
  induction is with
  | nil => exact .nil f
  | cons i is ih =>
    obtain ⟨hi, his⟩ := List.forall_mem_cons.1 his
    have hstep : f.step (.instr i) = .ok ([], f) := (Flow.emit_dead hf).2
      ⟨by rw [Instr.isBookkeeping_of_isStraight (Instr.isStraight_of_isPlain hi)]; rfl, rfl⟩
    exact .cons hstep (ih his)

/-- The first directive of some, and where the code of the others begins. -/
theorem Assembles.uncons {f g : Flow} {d : Directive} {ds : List Directive}
    {code seg post : List Instr} {start stop : Nat} (ha : Assembles f (d :: ds) seg g)
    (hcode : code.drop start = seg ++ post) (hstop : stop = start + seg.length) :
    ∃ instrs f' seg', f.step d = .ok (instrs, f') ∧ Assembles f' ds seg' g ∧
      code.drop start = instrs ++ (seg' ++ post) ∧
      code.drop (start + instrs.length) = seg' ++ post ∧
      stop = start + instrs.length + seg'.length := by
  obtain ⟨instrs, f', seg', hstep, hrest, rfl⟩ := Assembles.cons_iff.1 ha
  rw [List.append_assoc] at hcode
  refine ⟨instrs, f', seg', hstep, hrest, hcode, drop_add_of_drop hcode, ?_⟩
  rw [hstop, List.length_append, Nat.add_assoc]

end StackCode
