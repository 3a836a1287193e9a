import StackCode.Proofs.Refusal.Refused

/-!
# Appending to other code

The code of a procedure is appended to what is there already, and does not depend on it: neither what
is appended nor what is known of it does, whether the procedure is lowered or refused.  A procedure
that no plan can be made of is refused before anything is appended; with a plan, it is refused for
something else.  Main statement: `Procedure.lowerInto_appends`.
-/

namespace StackCode

namespace Procedure

variable {p : Procedure} {options : Options} {strategy : LayoutStrategy} {out : Array Instr}

/-- The number of instructions is that of what has been appended. -/
theorem instrCount_of_lowerInto {sum : Summary}
    (h : p.lowerInto options strategy #[] = (out, .ok sum)) : sum.instrCount = out.size := by
  obtain ⟨_, _, _, _, _, -, -, rfl⟩ := lowerInto_eq_ok_iff.1 h
  rfl

/-- Nothing has been appended where no plan could be made. -/
theorem eq_empty_of_isOfPlan {e : LowerError}
    (h : p.lowerInto options strategy #[] = (out, .error e)) (he : e.isOfPlan = true) : out = #[] := by
  unfold lowerInto at h
  cases hmake : Plan.make p options strategy with
  | error e' =>
    rw [hmake] at h
    cases h
    rfl
  | ok made =>
    obtain ⟨c, labels⟩ := made
    rw [hmake] at h
    obtain ⟨hsize, hblank⟩ := Plan.labels_of_make hmake
    have hpermits := Plan.permits_of_appendTo (Plan.made_of_make hmake) hsize hblank h
    rw [hpermits.planned] at he
    cases he

/-- Lowering appends to the code that is there already, and does not look at it. -/
theorem lowerInto_appends (p : Procedure) (options : Options) (strategy : LayoutStrategy)
    (code : Array Instr) :
    p.lowerInto options strategy code =
        (code ++ (p.lowerInto options strategy #[]).1, (p.lowerInto options strategy #[]).2) ∧
      (∀ sum, (p.lowerInto options strategy #[]).2 = .ok sum →
        sum.instrCount = (p.lowerInto options strategy #[]).1.size) ∧
      ∀ e, (p.lowerInto options strategy #[]).2 = .error e → e.isOfPlan = true →
        (p.lowerInto options strategy #[]).1 = #[] :=
  ⟨p.lowerInto_eq options strategy code, fun _ h => instrCount_of_lowerInto (Prod.ext rfl h),
    fun _ h => eq_empty_of_isOfPlan (Prod.ext rfl h)⟩

end Procedure

end StackCode
