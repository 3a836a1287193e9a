import StackCode.Body.Verify
import StackCode.Proofs.Outline.Follows

/-!
# The verifier beside the assembler

The verifier goes over the code that the assembler has made and keeps the same account of the stack,
with two differences.  It takes the handlers from the protected regions that the code opens, where
the assembler is told of them; and it takes every label for reachable.  Both matter at a handler
alone: there the verifier goes along if the code opens a region with it, and no label stands right
before it.  Main statement: `Receives.tracks`.
-/

namespace StackCode

/-- The last instruction, notes apart, places a label. -/
def endsInLabel (code : List Instr) : Bool :=
  ((code.filter fun i => !i.isNote).getLast?).any fun i => i.placed?.isSome

theorem endsInLabel_concat (code : List Instr) (i : Instr) :
    endsInLabel (code ++ [i]) = if i.isNote then endsInLabel code else i.placed?.isSome := by
  unfold endsInLabel
  rw [List.filter_append]
  cases hi : i.isNote <;> simp [hi]

/-! ## Label tables with other names -/

namespace LabelTable

/-- The tables differ in the names of their labels at most. -/
structure Agrees (t u : LabelTable) : Prop where
  size_eq : t.size = u.size
  isMarked_eq : ∀ l, t.isMarked l = u.isMarked l
  isReferenced_eq : ∀ l, t.isReferenced l = u.isReferenced l

namespace Agrees

variable {t t' u u' : LabelTable} {marks refs : List Label}

theorem of_grows (h : t.Agrees u) (ht : t.Grows t' marks refs) (hu : u.Grows u' marks refs) :
    t'.Agrees u' where
  size_eq := by rw [ht.size_eq, hu.size_eq, h.size_eq]
  isMarked_eq l := by rw [Bool.eq_iff_iff, ht.isMarked_iff, hu.isMarked_iff, h.isMarked_eq]
  isReferenced_eq l := by
    rw [Bool.eq_iff_iff, ht.isReferenced_iff, hu.isReferenced_iff, h.isReferenced_eq]

theorem mark (h : t.Agrees u) {l : Label} (ht : t.mark l = .ok t') :
    ∃ u', u.mark l = .ok u' ∧ t'.Agrees u' := by
  obtain ⟨hgrows, hfresh⟩ := mark_grows ht
  have hlt : l.index < t'.size :=
    lt_size_of_isMarked ((hgrows.isMarked_iff l).2 (.inr (List.mem_singleton.2 rfl)))
  rw [hgrows.size_eq, h.size_eq] at hlt
  obtain ⟨u', hu⟩ := exists_mark hlt ((h.isMarked_eq l).symm.trans hfresh)
  exact ⟨u', hu, h.of_grows hgrows (mark_grows hu).1⟩

theorem referenceAll (h : t.Agrees u) {ls : List Label} (ht : t.referenceAll ls = .ok t') :
    ∃ u', u.referenceAll ls = .ok u' ∧ t'.Agrees u' := by
  have hgrows := referenceAll_grows ht
  have hlt : ∀ l ∈ ls, l.index < u.size := by
    intro l hl
    rw [← h.size_eq, ← hgrows.size_eq]
    exact lt_size_of_isReferenced ((hgrows.isReferenced_iff l).2 (.inr hl))
  obtain ⟨u', hu⟩ := exists_referenceAll hlt
  exact ⟨u', hu, h.of_grows hgrows (referenceAll_grows hu)⟩

end Agrees

end LabelTable

/-! ## One directive -/

/-- The verifier's account, behind some code, beside the assembler's: behind a label it takes for
reachable what the assembler may know better. -/
structure BodyCheck.Tracks (pre : List Instr) (f : Flow) (s : BodyCheck) : Prop where
  labels : f.labels.Agrees s.labels
  live : f.isLive = true → s.isLive = true ∧ s.depth = f.depth
  dead : f.isLive = false → s.isLive = endsInLabel pre
  empty : f.isLive = false → s.isLive = true → s.depth = 0

/-- Goes over some code. -/
def BodyCheck.run (handlers : List Label) (s : BodyCheck) (code : List Instr) :
    Except LowerError BodyCheck := code.foldlM (step handlers) s

namespace BodyCheck

variable {handlers : List Label} {s s' : BodyCheck} {code code' : List Instr}

theorem run_cons (i : Instr) : s.run handlers (i :: code) =
    (s.step handlers i).bind fun s' => s'.run handlers code := List.foldlM_cons

theorem run_append (h : s.run handlers code = .ok s') :
    s.run handlers (code ++ code') = s'.run handlers code' := by
  unfold run at h ⊢
  rw [List.foldlM_append, h]
  rfl

theorem run_singleton (i : Instr) : s.run handlers [i] = s.step handlers i := by
  rw [run_cons]
  cases s.step handlers i <;> rfl

theorem step_of_placed {i : Instr} (hi : i.placed? = none) :
    s.step handlers i = s.execute i := by
  cases i <;> first | rfl | cases hi

theorem execute_eq {i : Instr} {labels : LabelTable}
    (h : s.labels.referenceAll i.targets = .ok labels) :
    s.execute i = if s.isLive then (i.depthAfter s.depth).bind fun depth =>
        .ok { labels, isLive := !i.endsFlow, depth := if !i.endsFlow then depth else 0 }
      else .ok { s with labels } := by
  unfold execute
  rw [h]
  rfl

theorem step_markLabel {l : Label} {labels : LabelTable} (h : s.labels.mark l = .ok labels) :
    s.step handlers (.markLabel l) =
      if s.isLive && (decide (l ∈ handlers) || decide (s.depth ≠ 0)) then
        .error (.stackImbalance .label s.depth (decide (l ∈ handlers)).toNat)
      else .ok { labels, depth := (decide (l ∈ handlers)).toNat, isLive := true } := by
  change (s.labels.mark l).bind _ = _
  rw [h]
  rfl

/-- A note changes nothing. -/
theorem step_of_isNote {i : Instr} (hi : i.isNote = true) : s.step handlers i = .ok s := by
  have hlabels : s.labels.referenceAll i.targets = .ok s.labels := by
    rw [Instr.targets_of_isNote hi]
    exact LabelTable.referenceAll_nil _
  rw [step_of_placed (Instr.placed?_of_isNote hi), execute_eq hlabels,
    Instr.depthAfter_of_isNote hi, Instr.endsFlow_of_isNote hi]
  obtain ⟨labels, depth, isLive⟩ := s
  cases isLive <;> rfl

theorem run_notes {notes : List Instr} (h : ∀ i ∈ notes, i.isNote = true) :
    s.run handlers notes = .ok s := by
  induction notes with
  | nil => rfl
  | cons i notes ih =>
    obtain ⟨hi, hnotes⟩ := List.forall_mem_cons.1 h
    rw [run_cons, step_of_isNote hi]
    exact ih hnotes

namespace Tracks

variable {pre instrs : List Instr} {f f' : Flow} {l : Label} {arrival : Arrival}

theorem emit (handlers : List Label) {i : Instr} (h : Tracks pre f s) (hi : i.placed? = none)
    (hstep : f.emit i = .ok (instrs, f')) :
    ∃ s', s.run handlers instrs = .ok s' ∧ Tracks (pre ++ instrs) f' s' := by
  cases hf : f.isLive with
  | true =>
    obtain ⟨rfl, after, labels, hafter, hlabels, rfl⟩ := (Flow.emit_live hf).1 hstep
    obtain ⟨labels', hlabels', hagrees⟩ := h.labels.referenceAll hlabels
    obtain ⟨hlive, hdepth⟩ := h.live hf
    rw [run_singleton, step_of_placed hi, execute_eq hlabels', if_pos hlive, hdepth, hafter]
    refine ⟨_, rfl, hagrees, fun hflow => ⟨hflow, ?_⟩, fun hflow => ?_, fun hflow hs => ?_⟩
    · change (!i.endsFlow) = true at hflow
      simp only [hflow, ↓reduceIte]
      rw [if_neg (by simpa using hflow)]
    · change (!i.endsFlow) = false at hflow
      have hnote : i.isNote = false := by
        refine eq_false_of_ne_true fun hnote => ?_
        rw [Instr.endsFlow_of_isNote hnote] at hflow
        cases hflow
      rw [endsInLabel_concat, hnote, hi]
      exact hflow
    · change (!i.endsFlow) = false at hflow
      change (!i.endsFlow) = true at hs
      rw [hflow] at hs
      cases hs
  | false =>
    obtain ⟨rfl, rfl⟩ := (Flow.emit_dead hf).1 hstep
    cases hb : i.isBookkeeping with
    | false =>
      rw [if_neg Bool.false_ne_true, List.append_nil]
      exact ⟨s, rfl, h⟩
    | true =>
      have hnote := Instr.isNote_of_isBookkeeping hb hi
      rw [if_pos rfl, run_singleton, step_of_isNote hnote]
      refine ⟨s, rfl, h.labels, fun hlive => ?_, fun hdead => ?_, h.empty⟩
      · rw [hf] at hlive
        cases hlive
      · rw [endsInLabel_concat, if_pos hnote]
        exact h.dead hdead

/-- A label that is no handler. -/
theorem mark (h : Tracks pre f s) (harrival : arrival ≠ .handler) (hl : l ∉ handlers)
    (hstep : f.mark l arrival = .ok (instrs, f')) :
    ∃ s', s.run handlers instrs = .ok s' ∧ Tracks (pre ++ instrs) f' s' := by
  obtain ⟨rfl, hlive, labels, hlabels, rfl⟩ := Flow.mark_eq_ok_iff.1 hstep
  obtain ⟨labels', hlabels', hagrees⟩ := h.labels.mark hlabels
  have hdepth : s.isLive = true → s.depth = 0 := by
    intro hs
    cases hf : f.isLive with
    | true => rw [(h.live hf).2, (hlive hf).2]
    | false => exact h.empty hf hs
  have hrun : s.run handlers [.markLabel l] =
      .ok { labels := labels', depth := 0, isLive := true } := by
    rw [run_singleton, step_markLabel hlabels', decide_eq_false hl, if_neg]
    · rfl
    · intro hs
      rw [Bool.and_eq_true, Bool.false_or, decide_eq_true_eq] at hs
      exact hs.2 (hdepth hs.1)
  have hentry : Flow.entryDepth arrival = 0 := by
    cases arrival <;> first | rfl | exact absurd rfl harrival
  refine ⟨_, hrun, hagrees, fun _ => ⟨rfl, hentry.symm⟩, fun _ => ?_, fun _ _ => rfl⟩
  rw [endsInLabel_concat]
  rfl

/-- A handler, where the code has opened a region with it and no label stands right before it. -/
theorem markHandler (h : Tracks pre f s) (hl : l ∈ handlers) (hpre : endsInLabel pre = false)
    (hstep : f.mark l .handler = .ok (instrs, f')) :
    ∃ s', s.run handlers instrs = .ok s' ∧ Tracks (pre ++ instrs) f' s' := by
  obtain ⟨rfl, hlive, labels, hlabels, rfl⟩ := Flow.mark_eq_ok_iff.1 hstep
  obtain ⟨labels', hlabels', hagrees⟩ := h.labels.mark hlabels
  have hf : f.isLive = false := eq_false_of_ne_true fun hf => (hlive hf).1 rfl
  have hrun : s.run handlers [.markLabel l] =
      .ok { labels := labels', depth := 1, isLive := true } := by
    rw [run_singleton, step_markLabel hlabels', decide_eq_true hl, h.dead hf, hpre]
    rfl
  refine ⟨_, hrun, hagrees, fun _ => ⟨rfl, rfl⟩, fun hdead => ?_, fun hdead => ?_⟩
  · rw [hf] at hdead
    cases hdead
  · rw [hf] at hdead
    cases hdead

/-- What the assembler emits for one directive that marks no handler. -/
theorem step {d : Directive} (h : Tracks pre f s) (hproper : d.IsProper)
    (hmarks : ∀ l, d.marks? = some l → l ∉ handlers) (hquiet : d.isHandlerMark = false)
    (hstep : f.step d = .ok (instrs, f')) :
    ∃ s', s.run handlers instrs = .ok s' ∧ Tracks (pre ++ instrs) f' s' := by
  cases d with
  | instr i => exact h.emit handlers hproper hstep
  | mark l arrival =>
    refine h.mark (fun harrival => ?_) (hmarks l rfl) hstep
    subst harrival
    cases hquiet
  | endStatement =>
    obtain ⟨-, rfl, rfl⟩ := Flow.step_endStatement.1 hstep
    rw [List.append_nil]
    exact ⟨s, rfl, h⟩
  | endBlock b =>
    obtain ⟨-, rfl, rfl⟩ := Flow.step_endBlock.1 hstep
    rw [List.append_nil]
    exact ⟨s, rfl, h⟩
  | stageReturn =>
    obtain ⟨rfl, rfl⟩ := Flow.step_stageReturn hstep
    rw [List.append_nil]
    exact ⟨s, rfl, h.labels, h.live, h.dead, h.empty⟩
  | returnPoint l slot =>
    have hpoint := Flow.step_returnPoint hstep
    split at hpoint
    · obtain ⟨f₁, f₂, c₁, c₂, c₃, hmark, hload, hret, rfl⟩ := hpoint
      obtain ⟨s₁, hrun₁, h₁⟩ := h.mark (nofun : Arrival.forward ≠ .handler) (hmarks l rfl) hmark
      obtain ⟨s₂, hrun₂, h₂⟩ := h₁.emit handlers rfl hload
      obtain ⟨s₃, hrun₃, h₃⟩ := h₂.emit handlers rfl hret
      rw [List.append_assoc, run_append hrun₁, run_append hrun₂, ← List.append_assoc,
        ← List.append_assoc]
      exact ⟨s₃, hrun₃, h₃⟩
    · obtain ⟨-, rfl, rfl⟩ := hpoint
      rw [List.append_nil]
      exact ⟨s, rfl, h⟩

/-- What the assembler emits for instructions that place no label. -/
theorem assembled (handlers : List Label) {is seg : List Instr} (h : Tracks pre f s) (his : ∀ i ∈ is, i.placed? = none)
    (ha : Assembles f (is.map .instr) seg f') :
    ∃ s', s.run handlers seg = .ok s' ∧ Tracks (pre ++ seg) f' s' := by
  induction is generalizing pre f s seg with
  | nil =>
    obtain ⟨rfl, rfl⟩ := Assembles.nil_iff.1 ha
    rw [List.append_nil]
    exact ⟨s, rfl, h⟩
  | cons i is ih =>
    obtain ⟨hi, his⟩ := List.forall_mem_cons.1 his
    obtain ⟨instrs, f₁, rest, hstep, hrest, rfl⟩ := Assembles.cons_iff.1 ha
    obtain ⟨s₁, hrun, h₁⟩ := h.emit handlers hi hstep
    rw [run_append hrun, ← List.append_assoc]
    exact ih h₁ his hrest

/-- Otherwise the verifier stops: at the label, or at the instruction that takes the exception. -/
theorem stops_at_handler (h : Tracks pre f s) {notes rest : List Instr} {i : Instr}
    (hbad : ¬ (l ∈ handlers ∧ endsInLabel pre = false)) (hf : f.isLive = false)
    (hnotes : ∀ i ∈ notes, i.isNote = true) (hi : i.placed? = none) (htargets : i.targets = [])
    (hpops : i.pops = 1) :
    ¬ ∃ s', s.run handlers (.markLabel l :: (notes ++ i :: rest)) = .ok s' := by
  rintro ⟨s', hrun⟩
  rw [run_cons] at hrun
  cases hlabels : s.labels.mark l with
  | error e =>
    have hstep : s.step handlers (.markLabel l) = .error e := by
      change (s.labels.mark l).bind _ = _
      rw [hlabels]
      rfl
    rw [hstep] at hrun
    cases hrun
  | ok labels =>
    rw [step_markLabel hlabels] at hrun
    split at hrun
    · cases hrun
    · next hpass =>
      by_cases hl : l ∈ handlers
      · have hs : s.isLive = true := by
          rw [h.dead hf]
          exact eq_true_of_ne_false fun hpre => hbad ⟨hl, hpre⟩
        rw [hs, decide_eq_true hl] at hpass
        exact hpass rfl
      · rw [decide_eq_false hl] at hrun
        change (BodyCheck.mk labels 0 true).run handlers (notes ++ i :: rest) = .ok s' at hrun
        have hlabels' : labels.referenceAll i.targets = .ok labels := by
          rw [htargets]
          exact LabelTable.referenceAll_nil _
        have hdepth : i.depthAfter 0 = .error (.stackUnderflow i.mnemonic 0) := by
          unfold Instr.depthAfter
          rw [hpops]
          rfl
        rw [run_append (run_notes hnotes), run_cons, step_of_placed hi, execute_eq hlabels',
          if_pos rfl, hdepth] at hrun
        cases hrun

end Tracks

end BodyCheck

/-! ## All directives -/

/-- The labels of handlers. -/
def Reading.IsHandler (r : Reading) (l : Label) : Prop :=
  ∃ h, r.catches h ∧ r.label? (.block h) = some l

/-- Wherever some code behind `pre` marks a handler, a region has been opened with it, and no label
stands right before. -/
def HandlersEntered (r : Reading) (handlers : List Label) (pre code : List Instr) : Prop :=
  ∀ front l back, code = front ++ .markLabel l :: back → r.IsHandler l →
    l ∈ handlers ∧ endsInLabel (pre ++ front) = false

namespace HandlersEntered

variable {r : Reading} {handlers : List Label} {pre code code' : List Instr}

theorem cons_iff {i : Instr} : HandlersEntered r handlers pre (i :: code) ↔
    (∀ l, i = .markLabel l → r.IsHandler l → l ∈ handlers ∧ endsInLabel pre = false) ∧
      HandlersEntered r handlers (pre ++ [i]) code := by
  constructor
  · intro h
    refine ⟨fun l hi hl => ?_, fun front l back hcode hl => ?_⟩
    · subst hi
      have := h [] l code rfl hl
      rwa [List.append_nil] at this
    · subst hcode
      have := h (i :: front) l back rfl hl
      rwa [List.append_cons] at this
  · rintro ⟨hfirst, hrest⟩ front l back hcode hl
    cases front with
    | nil =>
      injection hcode with hi
      rw [List.append_nil]
      exact hfirst l hi hl
    | cons j front =>
      injection hcode with hi hcode
      subst hi
      rw [List.append_cons]
      exact hrest front l back hcode hl

theorem append_iff (h : ∀ i ∈ code, ∀ l, i = .markLabel l → ¬ r.IsHandler l) :
    HandlersEntered r handlers pre (code ++ code') ↔
      HandlersEntered r handlers (pre ++ code) code' := by
  induction code generalizing pre with
  | nil => rw [List.nil_append, List.append_nil]
  | cons i code ih =>
    obtain ⟨hi, hcode⟩ := List.forall_mem_cons.1 h
    rw [List.cons_append, cons_iff, ih hcode, ← List.append_cons]
    exact ⟨And.right, fun hrest => ⟨fun l hl hh => absurd hh (hi l hl), hrest⟩⟩

end HandlersEntered

/-- The verifier goes over the code exactly if every handler has been entered, and keeps beside the
assembler. -/
theorem Receives.tracks {r : Reading} {handlers : List Label} {ds : List Directive}
    (hds : Receives ds) (hproper : ∀ d ∈ ds, d.IsProper)
    (hmarks : ∀ d ∈ ds, ∀ l, d.marks? = some l → (d.isHandlerMark = true ↔ r.IsHandler l))
    (hhandlers : ∀ l ∈ handlers, r.IsHandler l) {pre code : List Instr}
    {f g : Flow} {s : BodyCheck} (h : s.Tracks pre f) (ha : Assembles f ds code g) :
    (HandlersEntered r handlers pre code →
      ∃ s', s.run handlers code = .ok s' ∧ s'.Tracks (pre ++ code) g) ∧
    ((∃ s', s.run handlers code = .ok s') → HandlersEntered r handlers pre code) := by
  induction hds generalizing pre code f s with
  | nil =>
    obtain ⟨rfl, rfl⟩ := Assembles.nil_iff.1 ha
    rw [List.append_nil]
    refine ⟨fun _ => ⟨s, rfl, h⟩, fun _ front l back hcode _ => ?_⟩
    cases front <;> cases hcode
  | @quiet d ds hquiet _ ih =>
    obtain ⟨hproper, hproper'⟩ := List.forall_mem_cons.1 hproper
    obtain ⟨hmarks, hmarks'⟩ := List.forall_mem_cons.1 hmarks
    have hmarks (l : Label) (hl : d.marks? = some l) : ¬ r.IsHandler l := fun hh => by
      rw [(hmarks l hl).2 hh] at hquiet
      cases hquiet
    obtain ⟨instrs, f₁, rest, hstep, hrest, rfl⟩ := Assembles.cons_iff.1 ha
    obtain ⟨s₁, hrun, h₁⟩ := h.step hproper
      (fun l hl hmem => hmarks l hl (hhandlers l hmem)) hquiet hstep
    have hnone : ∀ i ∈ instrs, ∀ l, i = .markLabel l → ¬ r.IsHandler l := by
      rintro i hi l rfl
      exact hmarks l (Flow.marks_of_step hproper hstep hi)
    rw [HandlersEntered.append_iff hnone, BodyCheck.run_append hrun, ← List.append_assoc]
    exact ih hproper' hmarks' h₁ hrest
  | @handler l notes i ds hnotes hi hpops _ ih =>
    have hl : r.IsHandler l := (hmarks _ List.mem_cons_self l rfl).1 rfl
    have htail : ∀ d ∈ ds, d ∈ .mark l .handler :: (notes.map .instr ++ .instr i :: ds) :=
      fun d hd => List.mem_cons_of_mem _ (List.mem_append_right _ (List.mem_cons_of_mem _ hd))
    obtain ⟨_, f₁, _, hstep, hrest₁, rfl⟩ := Assembles.cons_iff.1 ha
    obtain ⟨f₂, segNotes, _, hnotesCode, hrest₂, rfl⟩ := Assembles.append_iff.1 hrest₁
    obtain ⟨_, f₃, rest, hstepi, hrest₃, rfl⟩ := Assembles.cons_iff.1 hrest₂
    obtain ⟨rfl, hlive⟩ := Assembles.of_notes hnotes hnotesCode
    obtain ⟨rfl, henter⟩ := Flow.step_mark hstep
    have hlive₁ : f₁.isLive = true := by
      rw [henter.isLive, decide_eq_true nofun, Bool.or_true]
      rfl
    obtain ⟨rfl, -⟩ := Flow.step_live (hlive.trans hlive₁) hstepi
    have hquiet : ∀ j ∈ segNotes ++ [i], j.placed? = none := List.forall_mem_append.2
      ⟨fun j hj => Instr.placed?_of_isNote (hnotes j hj),
        List.forall_mem_singleton.2 (Instr.placed?_of_isStraight hi)⟩
    have hnone : ∀ j ∈ segNotes ++ [i], ∀ l, j = .markLabel l → ¬ r.IsHandler l := by
      rintro j hj l rfl
      cases hquiet _ hj
    have hcode : HandlersEntered r handlers pre ([.markLabel l] ++ (segNotes ++ ([i] ++ rest))) ↔
        (l ∈ handlers ∧ endsInLabel pre = false) ∧
          HandlersEntered r handlers (pre ++ [.markLabel l] ++ (segNotes ++ [i])) rest := by
      rw [List.singleton_append, HandlersEntered.cons_iff, ← List.append_assoc segNotes,
        HandlersEntered.append_iff hnone]
      refine and_congr_left fun _ => ⟨fun hall => hall l rfl hl, ?_⟩
      rintro hentered _ ⟨⟩ -
      exact hentered
    rw [hcode]
    by_cases hgood : l ∈ handlers ∧ endsInLabel pre = false
    · obtain ⟨s₁, hrun₁, h₁⟩ := h.markHandler hgood.1 hgood.2 hstep
      obtain ⟨s₂, hrun₂, h₂⟩ := h₁.assembled handlers hquiet
        (by rw [List.map_append]; exact hnotesCode.append (Assembles.singleton_iff.2 hstepi))
      have hwhole : pre ++ ([.markLabel l] ++ (segNotes ++ [i] ++ rest)) =
          pre ++ [.markLabel l] ++ (segNotes ++ [i]) ++ rest := by simp only [List.append_assoc]
      rw [BodyCheck.run_append hrun₁, ← List.append_assoc segNotes, BodyCheck.run_append hrun₂,
        hwhole]
      obtain ⟨hforward, hback⟩ := ih (fun d hd => hproper d (htail d hd))
        (fun d hd => hmarks d (htail d hd)) h₂ hrest₃
      exact ⟨fun hentered => hforward hentered.2, fun hrun => ⟨hgood, hback hrun⟩⟩
    · have hdead : f.isLive = false := by
        obtain ⟨-, hlive, -⟩ := Flow.mark_eq_ok_iff.1 hstep
        exact eq_false_of_ne_true fun hf => (hlive hf).1 rfl
      refine ⟨fun hentered => absurd hentered.1 hgood, fun hrun => absurd hrun ?_⟩
      exact h.stops_at_handler hgood hdead hnotes (Instr.placed?_of_isStraight hi)
        (Instr.targets_of_isStraight hi) hpops

end StackCode
