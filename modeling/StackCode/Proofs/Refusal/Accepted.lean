import StackCode.Proofs.Layout.Drafted
import StackCode.Proofs.Refusal.Refused

/-!
# Accepted procedures

What can be written is refused only for its code: a value is missing, a block has no end, or the code
generator is broken.  The last is ruled out, so that a procedure that can be written, finds its values
and has an edge wherever control needs one is lowered.  Main statement: `Plan.exists_appendTo`.
-/

namespace StackCode

/-! ## What the assembler refuses -/

/-- A computation stops in one of its parts. -/
theorem error_of_bind {α β : Type} {x : Except LowerError α} {f : α → Except LowerError β} {e : LowerError}
    (h : (x >>= f) = .error e) : x = .error e ∨ ∃ a, x = .ok a ∧ f a = .error e := by
  cases x with
  | error e' =>
    cases h
    exact .inl rfl
  | ok a => exact .inr ⟨a, rfl, h⟩

/-- What the assembler stops for: the code generator is broken, an instruction does not find what it
takes, or a block has no end. -/
def LowerError.isOfCode : LowerError → Bool
  | .fallsOffBlock _ => true
  | e => e.isInternal || e.isUnderflow

namespace LabelTable

variable {t : LabelTable} {l : Label} {e : LowerError}

theorem isOfCode_of_mark (h : t.mark l = .error e) : e.isOfCode = true := by
  unfold mark at h
  split at h
  · cases h
    rfl
  · split at h
    · cases h
      rfl
    · cases h

theorem isOfCode_of_reference (h : t.reference l = .error e) : e.isOfCode = true := by
  unfold reference at h
  split at h
  · cases h
    rfl
  · cases h

theorem isOfCode_of_referenceAll {ls : List Label} (h : t.referenceAll ls = .error e) :
    e.isOfCode = true := by
  induction ls generalizing t with
  | nil => cases h
  | cons l ls ih =>
    unfold referenceAll at h
    rw [List.foldlM_cons] at h
    obtain hfirst | ⟨t', -, hrest⟩ := error_of_bind h
    · exact isOfCode_of_reference hfirst
    · exact ih hrest

theorem isOfCode_of_finish (h : t.finish = .error e) : e.isOfCode = true := by
  unfold finish at h
  split at h
  · cases h
    rfl
  · cases h

end LabelTable

theorem Instr.isOfCode_of_depthAfter {i : Instr} {depth : Nat} {e : LowerError}
    (h : i.depthAfter depth = .error e) : e.isOfCode = true := by
  unfold depthAfter at h
  split at h
  · cases h
    rfl
  · split at h
    · cases h
      rfl
    · simp only at h
      split at h
      · cases h
        rfl
      · cases h

namespace Flow

variable {f : Flow} {e : LowerError}

theorem isOfCode_of_emit {i : Instr} (h : f.emit i = .error e) : e.isOfCode = true := by
  unfold emit at h
  split at h
  · obtain hdepth | ⟨depth, -, h⟩ := error_of_bind h
    · exact Instr.isOfCode_of_depthAfter hdepth
    · obtain hlabels | ⟨labels, -, h⟩ := error_of_bind h
      · exact LabelTable.isOfCode_of_referenceAll hlabels
      · cases h
  · cases h

theorem isOfCode_of_flowMark {l : Label} {arrival : Arrival} (h : f.mark l arrival = .error e) :
    e.isOfCode = true := by
  unfold mark at h
  split at h
  · cases h
    rfl
  · obtain hlabels | ⟨labels, -, h⟩ := error_of_bind h
    · exact LabelTable.isOfCode_of_mark hlabels
    · cases h

theorem isOfCode_of_step {d : Directive} (h : f.step d = .error e) : e.isOfCode = true := by
  cases d with
  | instr i => exact isOfCode_of_emit h
  | mark l arrival => exact isOfCode_of_flowMark h
  | endStatement | endBlock =>
    simp only [step] at h
    split at h
    · cases h
      rfl
    · cases h
  | stageReturn => cases h
  | returnPoint l slot =>
    simp only [step] at h
    split at h
    · obtain hmark | ⟨marked, -, h⟩ := error_of_bind h
      · exact isOfCode_of_flowMark hmark
      obtain hload | ⟨loaded, -, h⟩ := error_of_bind h
      · exact isOfCode_of_emit hload
      obtain hret | ⟨returned, -, h⟩ := error_of_bind h
      · exact isOfCode_of_emit hret
      cases h
    · split at h
      · cases h
        rfl
      · cases h

theorem isOfCode_of_through {ds : List Directive} (h : f.through ds = .error e) : e.isOfCode = true := by
  induction ds generalizing f with
  | nil => cases h
  | cons d ds ih =>
    rw [through_cons] at h
    obtain hstep | ⟨r, -, hrest⟩ := error_of_bind h
    · exact isOfCode_of_step hstep
    · exact ih hrest

end Flow

namespace Plan

variable {c : Plan} {labels : LabelTable}

theorem isOfCode_of_summary {base : Nat} {frame : Frame} {assembly : Assembly} {e : LowerError}
    (h : c.summary base frame assembly = .error e) : e.isOfCode = true := by
  unfold summary at h
  obtain hfinish | ⟨-, -, h⟩ := error_of_bind h
  · exact LabelTable.isOfCode_of_finish hfinish
  · split at h
    · cases h
      rfl
    · cases h

/-- Of a procedure that can be written, only the code can be refused. -/
theorem isOfCode_of_appendTo (hmade : c.Made) (hsize : labels.size = c.bound) (hwrites : c.Writes)
    {code out : Array Instr} {e : LowerError} (h : c.appendTo labels code = (out, .error e)) :
    e.isOfCode = true := by
  obtain ⟨ds, final, u, hgives⟩ := draft_succeeds hmade hsize hwrites
  have hdrafted : c.draft { labels } = { code := ds, frame := final, result := .ok u } := hgives
  have hthrough := Flow.through_eq code { labels := final.labels } ds
  unfold appendTo at h
  simp only [hdrafted] at h
  generalize assemble code { labels := final.labels } ds = assembly at h hthrough
  cases hfault : assembly.fault with
  | some e' =>
    rw [hfault] at h hthrough
    cases h
    exact Flow.isOfCode_of_through hthrough
  | none =>
    rw [hfault] at h
    exact isOfCode_of_summary (Prod.mk.inj h).2

/-- What can be written, finds its values and does not dangle is lowered. -/
theorem exists_appendTo (hmade : c.Made) (hsize : labels.size = c.bound) (hblank : labels.IsBlank)
    (hwrites : c.Writes) (hsteady : c.Steady) (hends : ∀ b, ¬ c.Dangles b) (code : Array Instr) :
    ∃ out sum, c.appendTo labels code = (out, .ok sum) := by
  cases hlowered : c.appendTo labels code with
  | mk out result =>
    cases result with
    | ok sum => exact ⟨out, sum, rfl⟩
    | error e =>
      have hpermits := permits_of_appendTo hmade hsize hblank hlowered
      have hcode := isOfCode_of_appendTo hmade hsize hwrites hlowered
      unfold LowerError.isOfCode at hcode
      split at hcode
      · obtain ⟨b, hdangles, -⟩ := hpermits.falls _ rfl
        exact absurd hdangles (hends b)
      · rw [hpermits.internal, hpermits.underflow hsteady] at hcode
        cases hcode

end Plan

end StackCode
