import StackCode.Proofs.Body.Account
import StackCode.Proofs.Plan.Made

/-!
# Which suspension points are planned

A plan is made exactly if the indices of the suspension points are `1, …, n` in some order.  It allots
one label to each, and the label of an index is found by counting.  Otherwise the ascending list of the
indices departs from `1, 2, …` somewhere, and what is reported is read off the first index that does
(`ResumePlan.Departs`): it is not positive, or it is the one before once more, or there is a gap.  As the
indices are sorted first, their order does not matter.

The verifier has a check of its own, which does not sort: it accepts the indices `1, …, n` in this order
and nothing else, each at a label that the body places.  Main statement: `ResumePlan.planned_iff_dense`.
-/

namespace StackCode

namespace ResumePlan

/-- The indices `1, …, n`. -/
def dense (n : Nat) : List Int := (List.range n).map fun (i : Nat) => (i : Int) + 1

theorem length_dense (n : Nat) : (dense n).length = n := by
  simp [dense]

theorem getElem?_dense {n i : Nat} (h : i < n) : (dense n)[i]? = some ((i : Int) + 1) := by
  simp [dense, h]

theorem dense_succ (n : Nat) : dense (n + 1) = dense n ++ [(n : Int) + 1] := by
  simp [dense, List.range_succ]

theorem pairwise_dense (n : Nat) : (dense n).Pairwise (· ≤ ·) := by
  refine List.pairwise_map.2 (List.pairwise_lt_range.imp fun h => ?_)
  omega

/-- At the first index of an ascending list that is not one more than its position, the list departs from
`1, 2, …`; the report says how. -/
def Departs (ascending : List Int) (e : LowerError) : Prop :=
  ∃ (p : Nat) (index : Int), ascending[p]? = some index ∧ index ≠ p + 1 ∧
    (∀ q < p, ascending[q]? = some ((q : Int) + 1)) ∧
    e = if index < 1 then .nonPositiveYieldIndex index
      else if 0 < p ∧ ascending[p - 1]? = some index then .duplicateYieldIndex index
      else .yieldIndexGap (p + 1) index

variable {indices indices' ascending rest : List Int} {table table' : LabelTable} {plan : ResumePlan}
  {e : LowerError}

/-- Behind `1, …, n`, an index is reported if it is not the next one. -/
theorem indexFault?_dense (n : Nat) (index : Int) :
    indexFault? (n + 1) (dense n).getLast? index =
      if index = n + 1 then none
      else some (if index < 1 then .nonPositiveYieldIndex index
        else if 0 < n ∧ (dense n)[n - 1]? = some index then .duplicateYieldIndex index
        else .yieldIndexGap (n + 1) index) := by
  have hlast : (dense n).getLast? = some index ↔ 0 < n ∧ (dense n)[n - 1]? = some index := by
    rw [List.getLast?_eq_getElem?, length_dense]
    refine ⟨fun h => ⟨?_, h⟩, fun h => h.2⟩
    cases n with
    | zero => cases h
    | succ n => exact Nat.succ_pos n
  have hbefore : 0 < n ∧ (dense n)[n - 1]? = some index → index = n := by
    rintro ⟨hpos, h⟩
    rw [getElem?_dense (by omega)] at h
    have := Option.some_inj.1 h
    omega
  unfold indexFault?
  simp only [hlast]
  by_cases hnext : index = n + 1
  · rw [if_neg (by omega), if_neg (fun h => by have := hbefore h; omega),
      if_neg (not_not.2 hnext), if_pos hnext]
  · rw [if_neg hnext]
    split_ifs <;> rfl

/-- What is reported of an ascending list that begins with `1, …, n`. -/
theorem departs_of_firstFault? {n : Nat}
    (h : firstFault? (n + 1) (dense n).getLast? rest = some e) : Departs (dense n ++ rest) e := by
  -- the indices that have passed are `1, …, n`, so the last of them is all that the check has to remember
  induction rest generalizing n with
  | nil => cases h
  | cons index rest ih =>
    rw [firstFault?, indexFault?_dense] at h
    by_cases hnext : index = n + 1
    · rw [if_pos hnext] at h
      have hsucc : dense n ++ index :: rest = dense (n + 1) ++ rest := by
        rw [dense_succ, hnext, List.append_assoc, List.singleton_append]
      have hlast : (dense (n + 1)).getLast? = some index := by
        rw [dense_succ, List.getLast?_concat, hnext]
      rw [hsucc]
      refine ih ?_
      rw [hlast, Int.natCast_succ]
      exact h
    · rw [if_neg hnext] at h
      cases h
      have hfront (q : Nat) (hq : q < n) : (dense n ++ index :: rest)[q]? = some ((q : Int) + 1) := by
        rw [List.getElem?_append_left (by rw [length_dense]; exact hq), getElem?_dense hq]
      refine ⟨n, index, ?_, hnext, hfront, ?_⟩
      · rw [List.getElem?_append_right (by rw [length_dense]), length_dense, Nat.sub_self]
        rfl
      · by_cases hpos : 0 < n
        · rw [hfront (n - 1) (by omega), getElem?_dense (by omega)]
        · simp only [hpos, false_and]

/-- The indices `1, …, n` depart nowhere. -/
theorem not_departs_dense (n : Nat) : ¬ Departs (dense n) e := by
  rintro ⟨p, index, hp, hne, -⟩
  have hlt : p < n := by
    have := (List.getElem?_eq_some_iff.1 hp).1
    rwa [length_dense] at this
  rw [getElem?_dense hlt] at hp
  exact hne (Option.some_inj.1 hp).symm

/-! ## Sorted indices -/

theorem pairwise_mergeSort (indices : List Int) : (indices.mergeSort (· ≤ ·)).Pairwise (· ≤ ·) := by
  refine (List.pairwise_mergeSort (fun a b c hab hbc => ?_) (fun a b => ?_) indices).imp fun h => ?_
  · rw [decide_eq_true_eq] at hab hbc ⊢
    exact Int.le_trans hab hbc
  · rw [Bool.or_eq_true, decide_eq_true_eq, decide_eq_true_eq]
    exact Int.le_total a b
  · exact of_decide_eq_true h

/-- There is one ascending list of the indices. -/
theorem eq_mergeSort (hperm : ascending.Perm indices) (hsorted : ascending.Pairwise (· ≤ ·)) :
    ascending = indices.mergeSort (· ≤ ·) := by
  refine List.Perm.eq_of_pairwise (fun a b _ _ => Int.le_antisymm) hsorted
    (pairwise_mergeSort indices) ?_
  exact hperm.trans (List.mergeSort_perm indices _).symm

theorem mergeSort_eq_of_perm (h : indices'.Perm indices) :
    indices'.mergeSort (· ≤ ·) = indices.mergeSort (· ≤ ·) :=
  eq_mergeSort ((List.mergeSort_perm indices' _).trans h) (pairwise_mergeSort indices')

/-! ## Plans -/

/-- The order of the indices does not matter. -/
theorem make_eq_of_perm (h : indices'.Perm indices) (table : LabelTable) :
    make indices' table = make indices table := by
  rw [make_eq, make_eq, mergeSort_eq_of_perm h, h.length_eq]

/-- What is reported is where the ascending indices depart from `1, 2, …`. -/
theorem departs_of_make_eq_error (h : make indices table = (.error e, table'))
    (hperm : ascending.Perm indices) (hsorted : ascending.Pairwise (· ≤ ·)) : Departs ascending e := by
  rw [eq_mergeSort hperm hsorted]
  exact departs_of_firstFault? (n := 0) (make_eq_error h).1

/-- The plan is made exactly for the indices `1, …, n`. -/
theorem exists_make_iff :
    (∃ plan, (make indices table).1 = .ok plan) ↔ indices.Perm (dense indices.length) := by
  constructor
  · rintro ⟨plan, h⟩
    exact (make_eq_ok (Prod.ext h rfl)).2.2
  · intro hperm
    cases h : (make indices table).1 with
    | ok plan => exact ⟨plan, rfl⟩
    | error e =>
      have hdeparts := departs_of_make_eq_error (Prod.ext h rfl) hperm.symm (pairwise_dense _)
      exact absurd hdeparts (not_departs_dense _)

/-- The labels of the points follow those that there were. -/
theorem label?_of_make (h : make indices table = (.ok plan, table')) (index : Int) :
    plan.label? index = if 1 ≤ index ∧ index ≤ indices.length then
      some ⟨table.size + (index.toNat - 1)⟩ else none := by
  unfold label?
  rw [(make_eq_ok h).1, List.getElem?_map]
  by_cases hpos : index < 1
  · rw [if_pos hpos, if_neg (by omega)]
  · rw [if_neg hpos]
    by_cases hle : index ≤ indices.length
    · rw [if_pos ⟨by omega, hle⟩, List.getElem?_range (by omega)]
      rfl
    · rw [if_neg (by omega), List.getElem?_eq_none (by rw [List.length_range]; omega)]
      rfl

end ResumePlan

/-! ## The verifier -/

namespace MethodBody

/-- The check goes on with the next index, at a label that is placed. -/
theorem checkResumePoints_eq_ok_iff {labels : LabelTable} {expected : Int}
    {points : List (Int × Label)} (hpos : 1 ≤ expected) :
    checkResumePoints labels expected points = .ok () ↔
      points.map Prod.fst = (List.range points.length).map (fun (i : Nat) => (i : Int) + expected) ∧
        ∀ point ∈ points, labels.isMarked point.2 = true := by
  induction points generalizing expected with
  | nil => simp [checkResumePoints]
  | cons point points ih =>
    obtain ⟨index, l⟩ := point
    have hrange : (List.range (points.length + 1)).map (fun (i : Nat) => (i : Int) + expected) =
        expected :: (List.range points.length).map fun (i : Nat) => (i : Int) + (expected + 1) := by
      rw [List.range_succ_eq_map, List.map_cons, List.map_map]
      congr 1
      · simp
      · refine List.map_congr_left fun i _ => ?_
        simp only [Function.comp_apply]
        omega
    rw [List.map_cons, List.length_cons, hrange, List.cons.injEq, List.forall_mem_cons,
      checkResumePoints]
    by_cases hindex : index = expected
    · rw [if_neg (by omega), if_neg (by omega), if_neg (not_not.2 hindex)]
      cases hmarked : labels.isMarked l with
      | true =>
        rw [Bool.not_true, if_neg Bool.false_ne_true, ih (by omega)]
        simp [hindex]
      | false => simp
    · have hrefused : ∃ e, (if index < 1 then Except.error (LowerError.nonPositiveYieldIndex index)
          else if index = expected - 1 then .error (.duplicateYieldIndex index)
          else if index ≠ expected then .error (.yieldIndexGap expected index)
          else if !labels.isMarked l then .error (.missingResumeLabel index)
          else checkResumePoints labels (expected + 1) points) = .error e := by
        split_ifs <;> exact ⟨_, rfl⟩
      obtain ⟨e, he⟩ := hrefused
      rw [he]
      simp [hindex]

/-- A body is accepted if its code is and the check of its suspension points. -/
theorem verify_iff_run {b : MethodBody} :
    b.verify = .ok () ↔ ∃ done,
      ({ labels := LabelTable.reserve {} b.labelCount } : BodyCheck).run b.handlers b.instrs =
        .ok done ∧ done.labels.finish = .ok () ∧
      checkResumePoints done.labels 1 b.resumePoints = .ok () := by
  have hverify : b.verify = (BodyCheck.run b.handlers
      { labels := LabelTable.reserve {} b.labelCount } b.instrs).bind fun done =>
        done.labels.finish.bind fun _ => checkResumePoints done.labels 1 b.resumePoints := rfl
  rw [hverify]
  cases BodyCheck.run b.handlers { labels := LabelTable.reserve {} b.labelCount } b.instrs with
  | error e => simp [Except.bind]
  | ok done => cases hfinish : done.labels.finish <;> simp [Except.bind, hfinish]

/-- A body is accepted if it is without its suspension points, and these are `1, …, n` in this order and
are resumed at labels that it places. -/
theorem verify_iff_dense (b : MethodBody) :
    b.verify = .ok () ↔ { b with resumePoints := [] }.verify = .ok () ∧
      b.resumePoints.map Prod.fst = ResumePlan.dense b.resumePoints.length ∧
      ∀ point ∈ b.resumePoints, .markLabel point.2 ∈ b.instrs := by
  have hplaced {done : BodyCheck}
      (hrun : ({ labels := LabelTable.reserve {} b.labelCount } : BodyCheck).run b.handlers b.instrs =
        .ok done) (l : Label) : done.labels.isMarked l = true ↔ .markLabel l ∈ b.instrs := by
    have hblank := LabelTable.isBlank_reserve LabelTable.isBlank_empty b.labelCount l
    rw [(BodyCheck.run_grows hrun).1.isMarked_iff, hblank.1, mem_placedIn]
    simp
  rw [verify_iff_run, verify_iff_run]
  constructor
  · rintro ⟨done, hrun, hfinish, hcheck⟩
    obtain ⟨hdense, hmarked⟩ := (checkResumePoints_eq_ok_iff (Int.le_refl 1)).1 hcheck
    exact ⟨⟨done, hrun, hfinish, rfl⟩, hdense, fun point hpoint =>
      (hplaced hrun point.2).1 (hmarked point hpoint)⟩
  · rintro ⟨⟨done, hrun, hfinish, -⟩, hdense, hmem⟩
    refine ⟨done, hrun, hfinish, ?_⟩
    exact (checkResumePoints_eq_ok_iff (Int.le_refl 1)).2 ⟨hdense, fun point hpoint =>
      (hplaced hrun point.2).2 (hmem point hpoint)⟩

end MethodBody

/-! ## Planned and checked -/

namespace ResumePlan

/-- The points of a plan are `1, …, n` in this order, each with its label. -/
theorem map_fst_points (plan : ResumePlan) : plan.points.map Prod.fst = dense plan.labels.length := by
  refine List.ext_getElem (by simp [points, dense]) fun i h₁ h₂ => ?_
  simp [points, dense]

/-- Suspension points are planned exactly if their indices are `1, …, n` in some order.  Then there are
`n` labels more, and the `i`-th of them is where point `i` is resumed.  Otherwise there is no label more,
and what is reported is where the ascending indices depart from `1, 2, …`.  The order of the points does
not matter.  The points of a body pass the verifier exactly if they are `1, …, n` in this order and the body
places their labels. -/
theorem planned_iff_dense (sites : List YieldSite) (table : LabelTable) :
    ((∃ plan, (make (sites.map (·.index)) table).1 = .ok plan) ↔
      (sites.map (·.index)).Perm (dense sites.length)) ∧
    (∀ plan table', make (sites.map (·.index)) table = (.ok plan, table') →
      table' = table.reserve sites.length ∧
      plan.points.map Prod.fst = dense sites.length ∧
      ∀ index, plan.label? index = if 1 ≤ index ∧ index ≤ sites.length then
        some ⟨table.size + (index.toNat - 1)⟩ else none) ∧
    (∀ e table', make (sites.map (·.index)) table = (.error e, table') → table' = table ∧
      ∀ ascending, ascending.Perm (sites.map (·.index)) → ascending.Pairwise (· ≤ ·) →
        Departs ascending e) ∧
    (∀ sites' : List YieldSite, sites'.Perm sites →
      make (sites'.map (·.index)) table = make (sites.map (·.index)) table) ∧
    ∀ b : MethodBody, b.verify = .ok () ↔ { b with resumePoints := [] }.verify = .ok () ∧
      b.resumePoints.map Prod.fst = dense b.resumePoints.length ∧
      ∀ point ∈ b.resumePoints, .markLabel point.2 ∈ b.instrs := by
  have hlength : (sites.map (·.index)).length = sites.length := List.length_map _
  refine ⟨?_, fun plan table' h => ⟨?_, ?_, fun index => ?_⟩, fun e table' h => ⟨?_, ?_⟩, ?_,
    MethodBody.verify_iff_dense⟩
  · rw [exists_make_iff, hlength]
  · rw [(make_eq_ok h).2.1, hlength]
  · rw [map_fst_points, (make_eq_ok h).1, List.length_map, List.length_range, hlength]
  · rw [label?_of_make h, hlength]
  · exact (make_eq_error h).2
  · intro ascending hperm hsorted
    exact departs_of_make_eq_error h hperm hsorted
  · intro sites' hperm
    exact make_eq_of_perm (hperm.map _) table

/-- Three points that do not stand in the order of their indices. -/
def shuffled : List YieldSite := [⟨2, ⟨4⟩⟩, ⟨3, ⟨2⟩⟩, ⟨1, ⟨2⟩⟩]

/-- Four points, of which two have one index, and with a gap. -/
def repeating : List YieldSite := [⟨2, ⟨4⟩⟩, ⟨5, ⟨2⟩⟩, ⟨1, ⟨2⟩⟩, ⟨2, ⟨3⟩⟩]

/-- Three points are planned behind two labels; a repetition is reported before a gap, in any order. -/
theorem shuffled_planned :
    (∃ plan, make (shuffled.map (·.index)) (LabelTable.reserve {} 2) =
        (.ok plan, (LabelTable.reserve {} 2).reserve 3) ∧
      plan.label? 2 = some ⟨3⟩ ∧ plan.label? 4 = none) ∧
    Departs [1, 2, 2, 5] (.duplicateYieldIndex 2) ∧
    make (repeating.reverse.map (·.index)) {} = (.error (.duplicateYieldIndex 2), {}) := by
  obtain ⟨hmade, hplan, -⟩ := planned_iff_dense shuffled (LabelTable.reserve {} 2)
  obtain ⟨-, -, herror, hperm, -⟩ := planned_iff_dense repeating {}
  have hrefused : make (repeating.map (·.index)) {} = (.error (.duplicateYieldIndex 2), {}) := by cbv
  refine ⟨?_, ?_, ?_⟩
  · obtain ⟨plan, h⟩ := hmade.2 (by decide)
    obtain ⟨htable, -, hlabel⟩ := hplan plan _ (Prod.ext h rfl)
    refine ⟨plan, Prod.ext h htable, ?_, ?_⟩
    · rw [hlabel]
      rfl
    · rw [hlabel]
      rfl
  · exact (herror _ _ hrefused).2 [1, 2, 2, 5] (by decide) (by decide)
  · rw [hperm repeating.reverse (List.reverse_perm _), hrefused]

end ResumePlan

end StackCode
