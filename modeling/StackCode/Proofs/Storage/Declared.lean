import StackCode.Proofs.Storage.Apart
import StackCode.Proofs.Storage.Completed

/-!
# Variables that are not declared

Before code works on a variable, the variable is looked up, so a procedure is refused that uses one that
is not declared.  One place does not look: the debugger's views fetch the locals array as the procedure
names it.  Main statement: `Procedure.declared_or_unknown`.
-/

namespace StackCode

namespace Procedure

variable {p : Procedure} {array id : LocalId}

/-- Where there is a view, its code fetches the array. -/
theorem loadLocal_mem_viewsCode {o : Options} (harray : p.localsArray = some array)
    (hviewed : p.viewed o ≠ []) : .loadLocal array ∈ p.viewsCode o := by
  obtain ⟨v, vars, hvars⟩ := List.exists_cons_of_ne_nil hviewed
  have hcode : p.viewsCode o = (viewsOf 0 (v :: vars)).flatMap (viewCode array) := by
    unfold viewsCode views
    rw [harray, hvars]
  rw [hcode]
  exact List.mem_append_left _ (List.mem_cons_of_mem _ List.mem_cons_self)

/-- Views are asked for by both debugging options, for the named variables. -/
theorem viewed_ne_nil_iff {o : Options} (harray : p.localsArray = some array) :
    p.viewed o ≠ [] ↔ o.debug = true ∧ o.sequencePoints = true ∧
      ∃ v ∈ p.locals.toList, v.isNamed = true ∧ v.id ≠ array := by
  unfold viewed
  rw [harray]
  simp only
  split
  · next ho =>
    rw [Bool.and_eq_true] at ho
    simp [ho.1, ho.2]
  · next ho =>
    rw [Bool.and_eq_true] at ho
    simp only [ne_eq, not_true_eq_false, false_iff]
    exact fun h => ho ⟨h.1, h.2.1⟩

/-- Whoever creates the locals array has looked it up. -/
theorem exists_array_of_initLocals (harray : p.localsArray = some array)
    (hinit : p.localsInitialized = false) {u : Unit} (h : p.initLocals.result = .ok u) :
    (p.locals.get? array).isSome = true := by
  obtain ⟨v, hv⟩ := (initLocalsArray_eq_ok harray (initLocals_eq_ok hinit h).1).1.exists_local
  rw [hv]
  rfl

/-- How finished code works on a variable that is not declared: it fetches it for the debugger's views,
if it is to hold the locals array. -/
structure FetchesForViews (p : Procedure) (o : Options) (id : LocalId) (code : List Instr) : Prop where
  not_stored : .storeLocal id ∉ code
  not_cleared : .clearLocal id ∉ code
  loaded_iff : .loadLocal id ∈ code ↔ p.localsArray = some id ∧ o.debug = true ∧
    o.sequencePoints = true ∧ ∃ v ∈ p.locals.toList, v.isNamed = true
  /-- Whoever is to create the array looks it up. -/
  initialized : .loadLocal id ∈ code → p.localsInitialized = true

theorem fetchesForViews {options : Options} {strategy : LayoutStrategy} {out : Array Instr}
    {sum : Summary} (h : p.lowerInto options strategy #[] = (out, .ok sum))
    (hid : p.locals.get? id = none) : p.FetchesForViews options id out.toList := by
  obtain ⟨c, labels, ds, final, g, hmake, hlowered, -⟩ := lowerInto_eq_ok_iff.1 h
  obtain ⟨-, -, rfl, rfl, -⟩ := Plan.make_eq_ok hmake
  obtain ⟨first, others, hopens⟩ := (Plan.made_of_make hmake).opens
  obtain ⟨ds', body, hopened⟩ := hlowered.opened hopens
  have hundeclared : ∀ v ∈ c.procedure.locals.toList, v.id ≠ id := by
    rintro v hv rfl
    rw [Locals.mem_toList_iff.1 hv] at hid
    cases hid
  have hviews {i : Instr} (hi : i ∈ out.toList) (hlocal : i.local? = some id) :
      i = .loadLocal id ∧ c.procedure.localsArray = some id ∧ c.procedure.viewed c.options ≠ [] := by
    rcases hopened.cases_of_local? hopens hi hlocal with hslot | hview | ⟨-, -, v, hv, heq, -⟩
    · obtain ⟨v, hv⟩ := hslot.exists_local
      rw [hid] at hv
      cases hv
    · exact hview
    · exact absurd heq.symm (hundeclared v hv)
  refine ⟨fun hi => ?_, fun hi => ?_, ?_, fun hi => ?_⟩
  · cases (hviews hi rfl).1
  · cases (hviews hi rfl).1
  · constructor
    · intro hi
      obtain ⟨-, harray, hviewed⟩ := hviews hi rfl
      obtain ⟨hdebug, hpoints, v, hv, hnamed, -⟩ := (viewed_ne_nil_iff harray).1 hviewed
      exact ⟨harray, hdebug, hpoints, v, hv, hnamed⟩
    · rintro ⟨harray, hdebug, hpoints, v, hv, hnamed⟩
      have hviewed := (viewed_ne_nil_iff (o := c.options) harray).2
        ⟨hdebug, hpoints, v, hv, hnamed, hundeclared v hv⟩
      rw [hopened.code_eq]
      simp only [Plan.openingCode, List.mem_append]
      exact .inr (.inr (.inl (.inl (loadLocal_mem_viewsCode harray hviewed))))
  · obtain ⟨-, harray, -⟩ := hviews hi rfl
    by_contra hinit
    have hdeclared := exists_array_of_initLocals harray (Bool.eq_false_iff.2 hinit) hopened.initLocals
    rw [hid] at hdeclared
    cases hdeclared

end Procedure

/-- In finished code, every variable that is fetched, stored to or cleared is declared, except that the
debugger's views fetch the variable that is to hold the locals array where its first value is up to the
caller, declared or not.  What would be lowered with more variables declared is lowered, or refused
because a variable that is not declared is unknown. -/
theorem Procedure.declared_or_unknown (p : Procedure) (options : Options) (strategy : LayoutStrategy) :
    (∀ out sum, p.lowerInto options strategy #[] = (out, .ok sum) →
      ∀ id, p.locals.get? id = none →
        .storeLocal id ∉ out.toList ∧ .clearLocal id ∉ out.toList ∧
        (.loadLocal id ∈ out.toList ↔ p.localsArray = some id ∧ options.debug = true ∧
          options.sequencePoints = true ∧ ∃ v ∈ p.locals.toList, v.isNamed = true) ∧
        (.loadLocal id ∈ out.toList → p.localsInitialized = true)) ∧
    ∀ more, more.Extends p.locals → ∀ out sum,
      (p.withLocals more).lowerInto options strategy #[] = (out, .ok sum) →
        (∃ out sum, p.lowerInto options strategy #[] = (out, .ok sum)) ∨
          ∃ id, p.locals.get? id = none ∧
            (p.lowerInto options strategy #[]).2 = .error (.unknownLocal id) := by
  constructor
  · intro out sum h id hid
    have hviews := fetchesForViews h hid
    exact ⟨hviews.not_stored, hviews.not_cleared, hviews.loaded_iff, hviews.initialized⟩
  · exact fun more hmore out sum h => lowerInto_completed hmore h

/-- A procedure whose locals array is not declared and nothing but shown. -/
def strayed : Procedure where
  name := ⟨1⟩
  returnType := .void
  locals := { vars := #[{ id := ⟨0⟩, name := ⟨2⟩, ty := .value, kind := .user }] }
  localsInitialized := true
  localsArray := some ⟨9⟩
  graph :=
    { blocks := #[
        { id := ⟨0⟩, ordinal := 0, kind := .start, statements := [.declare], edge := .goto ⟨1⟩ },
        { id := ⟨1⟩, ordinal := 1, kind := .exit, statements := [], edge := .none }]
      wellFormed := wellFormed_of_fault?_eq_none (by decide) }

/-- The code of `strayed` for a debugging build. -/
def strayedCode : Array Instr :=
  #[.hiddenSequencePoint, .allocTemp ⟨0⟩ .value, .loadLocal ⟨9⟩, .constStr ⟨2⟩,
    .callIntrinsic .indirectLocal, .storeTemp ⟨0⟩, .markLabel ⟨0⟩, .ret false, .freeTemp ⟨0⟩]

theorem lowerInto_strayed : strayed.lowerInto .debugging BlockOrder.ordinal.arrange #[] =
    (strayedCode, .ok { instrCount := 9, temps := [.value], labelCount := 1, resumePoints := []
                        debugLocals := [(⟨2⟩, ⟨0⟩)] }) := by
  have horder : strayed.graph.emissionOrder BlockOrder.ordinal.arrange strayed.liveBlocks =
      some [⟨0⟩, ⟨1⟩] := by cbv
  unfold Procedure.lowerInto Plan.make
  rw [horder]
  decide +kernel

/-- The array of `strayed` is fetched although it is not declared. -/
theorem strayed_undeclared :
    (∃ sum, strayed.lowerInto .debugging BlockOrder.ordinal.arrange #[] = (strayedCode, .ok sum)) ∧
      strayed.locals.get? ⟨9⟩ = none ∧ .loadLocal ⟨9⟩ ∈ strayedCode.toList :=
  ⟨⟨_, lowerInto_strayed⟩, rfl, by decide⟩

/-- Without its variables, `arrayed` is lowered or one of them is unknown; and `strayed` does not store
to its array. -/
theorem arrayed_unknown :
    (.storeLocal ⟨9⟩ ∉ strayedCode.toList ∧ .clearLocal ⟨9⟩ ∉ strayedCode.toList) ∧
    arrayed.locals.Extends {} ∧
    ((∃ out sum, (arrayed.withLocals {}).lowerInto {} BlockOrder.ordinal.arrange #[] = (out, .ok sum)) ∨
      ∃ id, ({} : Locals).get? id = none ∧
        ((arrayed.withLocals {}).lowerInto {} BlockOrder.ordinal.arrange #[]).2 =
          .error (.unknownLocal id)) := by
  obtain ⟨hshown, -⟩ := strayed.declared_or_unknown .debugging BlockOrder.ordinal.arrange
  obtain ⟨hstored, hcleared, -⟩ := hshown _ _ lowerInto_strayed ⟨9⟩ rfl
  obtain ⟨-, hfewer⟩ := (arrayed.withLocals {}).declared_or_unknown {} BlockOrder.ordinal.arrange
  have hmore : arrayed.locals.Extends {} := fun _ _ h => by simp [Locals.get?] at h
  exact ⟨⟨hstored, hcleared⟩, hmore, hfewer arrayed.locals hmore _ _ lowerInto_arrayed⟩

end StackCode
