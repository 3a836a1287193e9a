import StackCode.Proofs.Generator.Entry

/-!
# Protected regions of a generator

The regions that are open where a generator stops are lost: the prologue and the dispatch, which every
invocation runs through, open none.  Main statement: `Procedure.resume_regions`.
-/

namespace StackCode

namespace Procedure

variable {p : Procedure} {options : Options} {strategy : LayoutStrategy} {out : Array Instr}
  {sum : Summary}

/-- An invocation of a suspended generator gets to where the generator stopped without a protected
region, whichever were open when it stopped; an exception there ends the invocation. -/
theorem resume_regions (hgen : p.isGenerator = true)
    (h : p.lowerInto options strategy #[] = (out, .ok sum)) {y : YieldSite}
    (hy : y ∈ p.graph.yields) {V W : Type} (R : Runtime V W) (s : Kept V W)
    (hs : R.toInt s.state = y.index) :
    ∃ l n c' s', (y.index, l) ∈ sum.resumePoints ∧ out.toList[c'.pc]? = some (.markLabel l) ∧
      Run.after (R.step out.toList) (.on R.enter s) n = .on c' s' ∧
      (∀ k < n, ∃ c'' s'', Run.after (R.step out.toList) (.on R.enter s) k = .on c'' s'' ∧
        c''.regions = []) ∧
      (∀ s₀ n₀ c₀ s₁, Run.after (R.step out.toList) (.on R.enter s₀) n₀ = .on c₀ s₁ →
        out.toList[c₀.pc]? = some (.ret false) → out.toList[c₀.pc + 1]? = some (.markLabel l) →
          (c'.regions = c₀.regions ↔ c₀.regions = [])) ∧
      ∀ v, Runtime.raise out.toList c' v s' = .done (s'.note (.throw v)) := by
  obtain ⟨c, labels, ds, final, g, pre, slot, post, rfl, hpoints, -, -, hcode⟩ :=
    generatorLowered_of_lowerInto hgen h
  obtain ⟨l, q, hpoint, hq⟩ := hcode.exists_point hy
  obtain ⟨hbefore, temps, s', -, hrun⟩ := hcode.entered.resumes (Q := fun _ => True) hcode.made hgen
    hcode.placed_nodup hpoint hq hs (fun _ _ _ _ _ _ _ _ _ => trivial) trivial
  refine ⟨l, pre.length + 6, _, _, hpoints ▸ hpoint, hq, hrun, fun k hk => ?_,
    fun s₀ n₀ c₀ s₁ _ _ _ => eq_comm, fun v => rfl⟩
  obtain ⟨c'', s'', hk, -, hregions⟩ := hbefore k hk
  exact ⟨c'', s'', hk, hregions⟩

end Procedure

/-- A generator that yields in a protected region. -/
def guardedYield : Procedure where
  name := ⟨1⟩
  returnType := .void
  locals := {}
  isGenerator := true
  graph :=
    { blocks := #[
        { id := ⟨0⟩, ordinal := 0, kind := .start, statements := [], edge := .protect ⟨2⟩ ⟨3⟩ none },
        { id := ⟨1⟩, ordinal := 1, kind := .exit, statements := [], edge := .none },
        { id := ⟨2⟩, ordinal := 2, kind := .normal
          statements := [.yield { index := 1, value := .lit (.int 7), key := none
                                  isDelegated := false }]
          edge := .leave ⟨1⟩ },
        { id := ⟨3⟩, ordinal := 3, kind := .normal, statements := [], edge := .leave ⟨1⟩ }]
      wellFormed := wellFormed_of_fault?_eq_none (by decide) }

/-- The code of `guardedYield`. -/
def guardedYieldCode : Array Instr :=
  #[.allocTemp ⟨0⟩ .int, .loadState, .storeTemp ⟨0⟩, .constInt (-1), .storeState, .loadTemp ⟨0⟩,
    .switch [(1, ⟨3⟩)] ⟨4⟩, .freeTemp ⟨0⟩, .markLabel ⟨4⟩, .enterTry ⟨1⟩, .markLabel ⟨0⟩, .constInt 7,
    .convert .int .value, .call (.intrinsic .setGeneratorCurrent) 1 false, .constInt 1, .storeState,
    .ret false, .markLabel ⟨3⟩, .leave ⟨2⟩, .markLabel ⟨1⟩, .pop, .leave ⟨2⟩, .markLabel ⟨2⟩,
    .constInt (-2), .storeState, .ret false]

theorem lowerInto_guardedYield :
    guardedYield.lowerInto {} BlockOrder.ordinal.arrange #[] =
      (guardedYieldCode,
        .ok { instrCount := 26, temps := [.int], labelCount := 5, resumePoints := [(1, ⟨3⟩)]
              debugLocals := [] }) := by
  have horder : guardedYield.graph.emissionOrder BlockOrder.ordinal.arrange
      guardedYield.liveBlocks = some [⟨0⟩, ⟨2⟩, ⟨3⟩, ⟨1⟩] := by cbv
  unfold Procedure.lowerInto Plan.make
  rw [horder]
  decide +kernel

theorem guardedYield_regions :
    ∃ l n c' s', (1, l) ∈ [((1 : Int), (⟨3⟩ : Label))] ∧
      guardedYieldCode.toList[c'.pc]? = some (.markLabel l) ∧
      Run.after (Runtime.ints.step guardedYieldCode.toList) (.on Runtime.ints.enter (inState 1)) n =
        .on c' s' ∧
      (∀ k < n, ∃ c'' s'', Run.after (Runtime.ints.step guardedYieldCode.toList)
        (.on Runtime.ints.enter (inState 1)) k = .on c'' s'' ∧ c''.regions = []) ∧
      (∀ s₀ n₀ c₀ s₁, Run.after (Runtime.ints.step guardedYieldCode.toList)
          (.on Runtime.ints.enter s₀) n₀ = .on c₀ s₁ →
        guardedYieldCode.toList[c₀.pc]? = some (.ret false) →
          guardedYieldCode.toList[c₀.pc + 1]? = some (.markLabel l) →
            (c'.regions = c₀.regions ↔ c₀.regions = [])) ∧
      ∀ v, Runtime.raise guardedYieldCode.toList c' v s' = .done (s'.note (.throw v)) :=
  Procedure.resume_regions rfl lowerInto_guardedYield (y := ⟨1, ⟨2⟩⟩) (by decide) Runtime.ints
    (inState 1) rfl

/-- `guardedYield` stops with its region open, and goes on without it. -/
theorem guardedYield_forgets :
    guardedYield.lowerInto {} BlockOrder.ordinal.arrange #[] =
        (guardedYieldCode,
          .ok { instrCount := 26, temps := [.int], labelCount := 5, resumePoints := [(1, ⟨3⟩)]
                debugLocals := [] }) ∧
      (∃ c s, Run.after (Runtime.ints.step guardedYieldCode.toList)
          (.on Runtime.ints.enter (inState 0)) 15 = .on c s ∧
        guardedYieldCode.toList[c.pc]? = some (.ret false) ∧ s.state = 1 ∧ c.regions = [⟨1⟩]) ∧
      ∃ c s, Run.after (Runtime.ints.step guardedYieldCode.toList)
          (.on Runtime.ints.enter (inState 1)) 7 = .on c s ∧
        guardedYieldCode.toList[c.pc]? = some (.markLabel ⟨3⟩) ∧ c.regions = [] := by
  refine ⟨lowerInto_guardedYield, ⟨_, _, rfl, rfl, rfl, rfl⟩, _, _, rfl, rfl, rfl⟩

end StackCode
