import StackCode.Proofs.Entry.Opened
import StackCode.Proofs.Entry.Setup

/-!
# Slots and entries apart

A procedure that keeps a locals array has two stores for its variables, and each variable is in one of
them.  The slot of a named variable is worked on at most once, where the setup copies the value that
came in for a parameter; every access to one of the other variables, and to the array itself, is one to
its slot.  Main statement: `Procedure.apart_of_lowerInto`.
-/

namespace StackCode

namespace Procedure

variable {p : Procedure} {array id : LocalId} {v w : Local}

/-! ## The setup -/

theorem initLocalsArray_usesOnly : p.initLocalsArray.UsesOnly p.HasSlot := by
  unfold initLocalsArray
  split
  · exact Fragment.usesOnly_pure ()
  · next array harray =>
    have hlift : (discard (liftM (p.getLocal array) : Fragment Local) >>= fun _ =>
        Fragment.emit (.constInt p.locals.size) >>= fun _ =>
          Fragment.callIntrinsic .newLocalsArray >>= fun _ => Fragment.emit (.storeLocal array)) =
        (liftM (p.getLocal array) >>= fun _ => Fragment.emit (.constInt p.locals.size) >>= fun _ =>
          Fragment.callIntrinsic .newLocalsArray >>= fun _ => Fragment.emit (.storeLocal array)) := by
      cases p.getLocal array <;> rfl
    refine hlift ▸ Fragment.usesOnly_lift_bind fun v hv => ?_
    have hslot : p.HasSlot array := hasSlot_of_get? (getLocal_eq_ok_iff.1 hv) fun other hother =>
      .inl (Option.some_inj.1 (hother.symm.trans harray))
    refine (Fragment.usesOnly_other rfl).bind fun _ => (Fragment.usesOnly_other rfl).bind fun _ => ?_
    exact Fragment.usesOnly_emit fun _ heq => by cases heq; exact hslot

/-- A first value goes to the slot of a variable that has one, or comes out of that of a parameter. -/
theorem initVar_usesOnly (v : Local) :
    (p.initVar v).UsesOnly fun id => p.HasSlot id ∨ id = v.id ∧ v.kind = .parameter := by
  unfold initVar
  split
  · exact Fragment.usesOnly_pure ()
  · refine Fragment.usesOnly_lift_bind fun place hplace => ?_
    have hkey := (Place.usesOnly_pushKey hplace).mono (Q := fun id => p.HasSlot id ∨ id = v.id ∧
      v.kind = .parameter) fun _ => .inl
    have hstore := (Place.usesOnly_store hplace).mono (Q := fun id => p.HasSlot id ∨ id = v.id ∧
      v.kind = .parameter) fun _ => .inl
    split
    · split
      · next hkind =>
        refine hkey.bind fun _ => Fragment.UsesOnly.bind ?_ fun _ => hstore
        exact Fragment.usesOnly_emit fun _ heq => by cases heq; exact .inr ⟨rfl, hkind⟩
      · exact Fragment.usesOnly_pure ()
    · split
      · split
        · exact (Fragment.usesOnly_literal _).bind fun _ => hstore
        · exact Fragment.usesOnly_pure ()
      · exact Fragment.usesOnly_pure ()

theorem registrationCode_local? (p : Procedure) : ∀ i ∈ p.registrationCode, i.local? = none := by
  intro i hi
  unfold registrationCode at hi
  split at hi
  · exact Option.eq_none_iff_forall_not_mem.2 fun id hid =>
      Fragment.usesOnly_callWithName (Q := fun _ => False) _ _ i hi id hid
  · cases hi

/-- The setup works on the slots of variables that live there, and on those of parameters. -/
theorem initLocals_usesOnly : p.initLocals.UsesOnly fun id => p.HasSlot id ∨
    p.localsInitialized = false ∧ ∃ v ∈ p.locals.toList, id = v.id ∧ v.kind = .parameter := by
  unfold initLocals
  split
  · exact Fragment.usesOnly_pure ()
  · next hinit =>
    refine (initLocalsArray_usesOnly.mono fun _ => .inl).bind fun _ => .forM fun v hv => ?_
    refine (initVar_usesOnly v).mono fun id h => h.imp_right fun ⟨heq, hkind⟩ => ?_
    exact ⟨Bool.eq_false_iff.2 hinit, v, hv, heq, hkind⟩

/-- What other variables get leaves the slot of a variable alone that does not live there. -/
theorem initVar_spares (hid : ¬ p.HasSlot id) (hne : v.id ≠ id) :
    ∀ i ∈ (p.initVar v).code, i.local? ≠ some id := fun i hi hlocal =>
  (initVar_usesOnly v i hi id hlocal).elim hid fun h => hne h.1.symm

/-- The setup works on the slot of a named parameter once, to copy its value. -/
theorem initLocals_copies (hinit : p.localsInitialized = false) (harray : p.localsArray = some array)
    (hv : p.locals.get? v.id = some v) (hne : array ≠ v.id) (hnamed : v.isNamed = true)
    (hkind : v.kind = .parameter) (h : p.initLocals.result = .ok ()) :
    ∃ before after, p.initLocals.code = before ++ (v.copyCode array ++ after) ∧
      ∀ i ∈ before ++ after, i.local? ≠ some v.id := by
  obtain ⟨-, hall, hcode⟩ := initLocals_eq_ok hinit h
  obtain ⟨_, hself⟩ := initVar_of_parameter hv harray hne hnamed hkind
    (hall v (Locals.mem_toList_iff.2 hv))
  have hslot : ¬ p.HasSlot v.id := by
    intro hslot
    have hentry := place_of_named hv harray hne hnamed
    rw [hslot] at hentry
    cases hget : p.getLocal array <;> rw [hget] at hentry <;> cases hentry
  obtain ⟨vars, vars', hvars⟩ := List.append_of_mem (Locals.mem_toList_iff.2 hv)
  have hnodup := p.locals.nodup_ids
  rw [hvars, List.map_append, List.map_cons, List.nodup_append] at hnodup
  obtain ⟨-, hrest, hapart⟩ := hnodup
  have hspares {vars : List Local} (hvars : ∀ w ∈ vars, w.id ≠ v.id) :
      ∀ i ∈ vars.flatMap fun w => (p.initVar w).code, i.local? ≠ some v.id := by
    intro i hi
    obtain ⟨w, hw, hi⟩ := List.mem_flatMap.1 hi
    exact initVar_spares hslot (hvars w hw) i hi
  refine ⟨p.initLocalsArray.code ++ vars.flatMap fun w => (p.initVar w).code,
    vars'.flatMap fun w => (p.initVar w).code, ?_, ?_⟩
  · rw [hcode, hvars, List.flatMap_append, List.flatMap_cons, hself]
    simp only [List.append_assoc]
  · refine List.forall_mem_append.2 ⟨List.forall_mem_append.2 ⟨fun i hi hlocal => ?_, ?_⟩, ?_⟩
    · exact hslot (initLocalsArray_usesOnly i hi v.id hlocal)
    · exact hspares fun w hw => hapart w.id (List.mem_map_of_mem hw) v.id List.mem_cons_self
    · exact hspares fun w hw heq => (List.nodup_cons.1 hrest).1 (heq ▸ List.mem_map_of_mem hw)

end Procedure

/-! ## The code -/

namespace Plan

variable {c : Plan} {labels : LabelTable} {final : Frame} {code body : List Instr} {g : Flow}
  {first : Block} {others : List Block} {ds : List Directive} {i : Instr} {id : LocalId}

theorem checkCode_local? (c : Plan) : ∀ i ∈ c.checkCode, i.local? = none := by
  intro i hi
  rcases mem_checkCode hi with rfl | rfl | rfl <;> rfl

/-- The code of the views fetches the array for each. -/
theorem openingCode_local? (hi : i ∈ c.openingCode) (hlocal : i.local? = some id) :
    i = .loadLocal id ∧ c.procedure.localsArray = some id ∧ c.procedure.viewed c.options ≠ [] := by
  rcases List.mem_append.1 hi with hi | hi
  · unfold Procedure.viewsCode at hi
    split at hi
    · next array harray =>
      obtain ⟨view, hview, hi⟩ := List.mem_flatMap.1 hi
      have hviewed : c.procedure.viewed c.options ≠ [] := by
        intro hnone
        unfold Procedure.views at hview
        rw [hnone] at hview
        cases hview
      simp only [viewCode, List.mem_cons, List.not_mem_nil, or_false] at hi
      rcases hi with rfl | rfl | rfl | rfl | rfl <;> cases hlocal
      exact ⟨rfl, harray, hviewed⟩
    · cases hi
  · have hstop := c.braceCode_isStop i hi
    have hnone : i.local? = none := by
      cases i <;> first | rfl | cases hstop
    rw [hnone] at hlocal
    cases hlocal

theorem Opened.initLocals (h : c.Opened labels final code g first others ds body) :
    c.procedure.initLocals.result = .ok () := by
  have hok := h.setup
  rwa [c.procedure.setup_eq] at hok

theorem Opened.body_usesOnly (h : c.Opened labels final code g first others ds body)
    (hopens : c.Opens first others) (hi : i ∈ body) : i.UsesOnly c.procedure.HasSlot := by
  intro id hlocal
  have hmem := h.assembles.mem_of_local? hi (by rw [hlocal]; exact nofun)
  have hgives := h.gives
  unfold Draft.Gives at hgives
  have huses : (c.inner first others >>= fun _ => releaseDebugLocals).UsesOnly c.procedure.HasSlot :=
    c.inner_usesOnly hopens.others
  refine huses (({ labels } : Frame).behind (c.procedure.views c.options)) i ?_ id hlocal
  rw [hgives]
  exact hmem

/-- The code works on the slots of variables that live there, and of parameters, in the setup; and the
debugger's views fetch the locals array. -/
theorem Opened.cases_of_local? (h : c.Opened labels final code g first others ds body)
    (hopens : c.Opens first others) (hi : i ∈ code) (hlocal : i.local? = some id) :
    c.procedure.HasSlot id ∨
      (i = .loadLocal id ∧ c.procedure.localsArray = some id ∧ c.procedure.viewed c.options ≠ []) ∨
      (i ∈ c.procedure.initLocals.code ∧ c.procedure.localsInitialized = false ∧
        ∃ v ∈ c.procedure.locals.toList, id = v.id ∧ v.kind = .parameter) := by
  rw [h.code_eq, c.procedure.setup_eq] at hi
  simp only [List.mem_append] at hi
  rcases hi with hi | (hi | hi) | hi | hi
  · rw [c.checkCode_local? i hi] at hlocal
    cases hlocal
  · rw [c.procedure.registrationCode_local? i hi] at hlocal
    cases hlocal
  · rcases Procedure.initLocals_usesOnly i hi id hlocal with hslot | hcopied
    · exact .inl hslot
    · exact .inr (.inr ⟨hi, hcopied⟩)
  · exact .inr (.inl (openingCode_local? hi hlocal))
  · exact .inl (h.body_usesOnly hopens hi id hlocal)

end Plan

/-! ## The two stores -/

namespace Procedure

/-- The code copies the value of a parameter into the locals array, in front of everything that control
can come back to, and works on the slot of the parameter nowhere else. -/
structure CopiesOnce (p : Procedure) (array : LocalId) (v : Local) (code : List Instr) : Prop where
  exists_copy : ∃ front before after back,
    code = front ++ (p.initLocals.code ++ back) ∧
      p.initLocals.code = before ++ (v.copyCode array ++ after) ∧
      (∀ i ∈ front ++ p.initLocals.code, i.passes = true) ∧
      ∀ i ∈ front ++ before ++ after ++ back, i.local? ≠ some v.id
  count_eq : code.count (.loadLocal v.id) = 1

/-- Whatever reads, stores or removes the variable works on its slot. -/
structure AccessesSlot (p : Procedure) (v : Local) : Prop where
  load : p.loadVar v.id = Fragment.emit (.loadLocal v.id)
  read : ∀ note, p.evaluate (.var note v.id) =
    (Fragment.emit (.loadLocal v.id) >>= fun _ => pure note.ty.orValue)
  assign : ∀ note e, p.evaluate (.assign note v.id e) =
    ((p.evaluate e).convertedTo v.ty .assigned >>= fun _ =>
      if note.ty.isVoid then Fragment.emit (.storeLocal v.id) >>= fun _ => pure note.ty
      else Fragment.emit .dup >>= fun _ => Fragment.emit (.storeLocal v.id) >>= fun _ =>
        Fragment.convert v.ty note.ty >>= fun _ => pure note.ty)
  bindGlobal : p.bindGlobal v.id =
    (Fragment.callWithName .globalRef v.name >>= fun _ => Fragment.emit (.storeLocal v.id))
  bindHolder : ∀ key, p.bindHolder v.id key =
    (Fragment.callWithName .staticHolder key >>= fun _ => Fragment.emit (.storeLocal v.id))
  unset : p.unset (.var v.id) = Fragment.emit (.clearLocal v.id)
  «catch» : p.storePending v.id = Draft.emit (.storeLocal v.id)
  init : (p.initVar v).code = [] ∨
    ∃ value, (p.initVar v).code = [Instr.ofLiteral value, .storeLocal v.id]
  view : ∀ options, p.localsArray ≠ none → v ∉ p.viewed options

variable {p : Procedure} {array : LocalId} {v : Local}

/-- A variable in a slot gets nothing but a default value. -/
theorem initVar_code_of_slot (hslot : p.HasSlot v.id) : (p.initVar v).code = [] ∨
    ∃ value, (p.initVar v).code = [Instr.ofLiteral value, .storeLocal v.id] := by
  by_cases hself : p.localsArray = some v.id
  · left
    unfold initVar
    rw [if_pos hself]
    rfl
  · rw [initVar_of_place hself hslot]
    simp only
    split
    · next value _ =>
      split
      · exact .inr ⟨value, rfl⟩
      · exact .inl rfl
    · exact .inl rfl

/-- There are no views of the variable that holds the array and of unnamed ones. -/
theorem not_mem_viewed {options : Options}
    (hother : ∀ array, p.localsArray = some array → array = v.id ∨ v.isNamed = false) :
    v ∉ p.viewed options := by
  intro hmem
  unfold viewed at hmem
  split at hmem
  · next array heq =>
    split at hmem
    · have hnamed := (List.mem_filter.1 hmem).2
      rw [Bool.and_eq_true, decide_eq_true_eq] at hnamed
      rcases hother array heq with hself | hunnamed
      · exact hnamed.2 hself.symm
      · rw [hunnamed] at hnamed
        cases hnamed.1
    · cases hmem
  · cases hmem

theorem accessesSlot (hv : p.locals.get? v.id = some v) (hslot : p.HasSlot v.id)
    (hother : ∀ array, p.localsArray = some array → array = v.id ∨ v.isNamed = false) :
    p.AccessesSlot v := by
  have hplace {α : Type} (f : Place → Fragment α) :
      ((liftM (p.place v.id) : Fragment Place) >>= f) = f (.slot v.id) :=
    Fragment.bind_of_ok (x := .ofExcept (p.place v.id)) hslot f
  have hlocal {α : Type} (f : Local → Fragment α) :
      ((liftM (p.getLocal v.id) : Fragment Local) >>= f) = f v :=
    Fragment.bind_of_ok (x := .ofExcept (p.getLocal v.id)) (getLocal_eq_ok_iff.2 hv) f
  have hload : p.loadVar v.id = Fragment.emit (.loadLocal v.id) := hplace _
  refine ⟨hload, fun note => ?_, fun note e => ?_, ?_, fun key => ?_, hplace _, ?_,
    initVar_code_of_slot hslot, fun _ _ => not_mem_viewed hother⟩
  · unfold evaluate
    rw [hload]
  · rw [evaluate, hlocal, hplace]
    simp only [Place.pushKey, Place.store, pure_bind]
  · rw [Procedure.bindGlobal, hlocal, hplace]
    rfl
  · rw [Procedure.bindHolder, hplace]
    rfl
  · funext frame
    exact Draft.bind_of_ok (x := liftM (p.place v.id)) (a := .slot v.id) hslot _

/-- A variable with a slot is the one that holds the array, or not a named one. -/
theorem not_hasSlot (hv : p.locals.get? v.id = some v) (harray : p.localsArray = some array)
    (hne : array ≠ v.id) (hnamed : v.isNamed = true) : ¬ p.HasSlot v.id := by
  intro hslot
  have hentry := place_of_named hv harray hne hnamed
  rw [hslot] at hentry
  cases hget : p.getLocal array <;> rw [hget] at hentry <;> cases hentry

end Procedure

namespace Local

variable {array : LocalId} {v : Local}

theorem eq_of_mem_copyCode (hne : array ≠ v.id) {i : Instr} (hi : i ∈ v.copyCode array)
    (hlocal : i.local? = some v.id) : i = .loadLocal v.id := by
  have hcast : ∀ i ∈ v.ty.cast .value, i.local? = none := by
    unfold Ty.cast
    split
    · nofun
    · exact List.forall_mem_singleton.2 rfl
  simp only [copyCode, List.mem_append, List.mem_cons, List.not_mem_nil, or_false] at hi
  rcases hi with (rfl | rfl | rfl) | hi | rfl
  · exact absurd (Option.some_inj.1 hlocal) hne
  · cases hlocal
  · rfl
  · rw [hcast i hi] at hlocal
    cases hlocal
  · cases hlocal

theorem count_copyCode (hne : array ≠ v.id) :
    (v.copyCode array).count (.loadLocal v.id) = 1 := by
  have hcast : (v.ty.cast .value).count (.loadLocal v.id) = 0 := by
    refine List.count_eq_zero.2 fun hmem => ?_
    unfold Ty.cast at hmem
    split at hmem
    · cases hmem
    · cases List.mem_singleton.1 hmem
  have hload : Instr.loadLocal array ≠ .loadLocal v.id := fun heq => hne (Instr.loadLocal.inj heq)
  unfold copyCode
  rw [List.count_append, List.count_append, hcast]
  simp [hload, Instr.callIntrinsic]

end Local

/-- The opened code copies a named parameter into the locals array once. -/
theorem Plan.Opened.copiesOnce {c : Plan} {labels : LabelTable} {final : Frame}
    {code body : List Instr} {g : Flow} {first : Block} {others : List Block} {ds : List Directive}
    (h : c.Opened labels final code g first others ds body) (hopens : c.Opens first others)
    {array : LocalId} {v : Local} (hinit : c.procedure.localsInitialized = false)
    (harray : c.procedure.localsArray = some array) (hv : c.procedure.locals.get? v.id = some v)
    (hne : array ≠ v.id) (hnamed : v.isNamed = true) (hkind : v.kind = .parameter) :
    c.procedure.CopiesOnce array v code := by
  obtain ⟨before, after, hcopies, hspare⟩ :=
    Procedure.initLocals_copies hinit harray hv hne hnamed hkind h.initLocals
  have hfront : ∀ i ∈ c.checkCode ++ c.procedure.registrationCode, i.local? ≠ some v.id := by
    refine List.forall_mem_append.2 ⟨fun i hi => ?_, fun i hi => ?_⟩
    · rw [c.checkCode_local? i hi]
      nofun
    · rw [c.procedure.registrationCode_local? i hi]
      nofun
  have hback : ∀ i ∈ c.openingCode ++ body, i.local? ≠ some v.id := by
    refine List.forall_mem_append.2 ⟨fun i hi hlocal => ?_, fun i hi hlocal => ?_⟩
    · exact hne (Option.some_inj.1 (harray.symm.trans (Plan.openingCode_local? hi hlocal).2.1))
    · exact Procedure.not_hasSlot hv harray hne hnamed (h.body_usesOnly hopens hi v.id hlocal)
  have hcode : code = (c.checkCode ++ c.procedure.registrationCode) ++
      (c.procedure.initLocals.code ++ (c.openingCode ++ body)) := by
    rw [h.code_eq, c.procedure.setup_eq]
    simp only [List.append_assoc]
  have hnone {is : List Instr} (his : ∀ i ∈ is, i.local? ≠ some v.id) :
      is.count (.loadLocal v.id) = 0 := List.count_eq_zero.2 fun hmem => his _ hmem rfl
  obtain ⟨hbefore, hafter⟩ := List.forall_mem_append.1 hspare
  refine ⟨⟨_, before, after, _, hcode, hcopies, ?_, ?_⟩, ?_⟩
  · have hsetup := c.procedure.isWork_setup.isPlain
    rw [c.procedure.setup_eq] at hsetup
    rw [List.append_assoc]
    exact fun i hi => Instr.passes_of_isPlain
      ((List.mem_append.1 hi).elim (c.isPlain_checkCode i) (hsetup i))
  · simp only [List.forall_mem_append] at hfront hspare hback ⊢
    exact ⟨⟨⟨hfront, hspare.1⟩, hspare.2⟩, hback⟩
  · rw [hcode, hcopies]
    simp only [List.count_append, hnone hbefore, hnone hafter, Local.count_copyCode hne]
    rw [← List.count_append, ← List.count_append, hnone hfront, hnone hback]

/-- Where a procedure keeps a locals array, the slots of the other named variables are never stored to
nor cleared, and fetched from once, for a parameter that is copied; and every access to a variable that is
not in the array is one to its slot. -/
theorem Procedure.apart_of_lowerInto {p : Procedure} {options : Options} {strategy : LayoutStrategy}
    {out : Array Instr} {sum : Summary} {array id : LocalId} {v : Local}
    (h : p.lowerInto options strategy #[] = (out, .ok sum)) (harray : p.localsArray = some array)
    (hv : p.locals.get? id = some v) :
    (id ≠ array → v.isNamed = true →
      .storeLocal id ∉ out.toList ∧ .clearLocal id ∉ out.toList ∧
      (.loadLocal id ∈ out.toList → v.kind = .parameter ∧ p.localsInitialized = false) ∧
      (v.kind = .parameter → p.localsInitialized = false → p.CopiesOnce array v out.toList)) ∧
    (id = array ∨ v.isNamed = false → p.AccessesSlot v) := by
  obtain rfl := Locals.id_of_get? hv
  obtain ⟨c, labels, ds, final, g, hmake, hlowered, -⟩ := lowerInto_eq_ok_iff.1 h
  obtain ⟨-, -, rfl, -⟩ := Plan.make_eq_ok hmake
  obtain ⟨first, others, hopens⟩ := (Plan.made_of_make hmake).opens
  obtain ⟨ds', body, hopened⟩ := hlowered.opened hopens
  refine ⟨fun hne hnamed => ?_, fun hother => ?_⟩
  · have hslot := not_hasSlot hv harray (Ne.symm hne) hnamed
    -- what works on the slot is part of the setup, and fetches the value of a parameter
    have hcopied {i : Instr} (hi : i ∈ out.toList) (hlocal : i.local? = some v.id) :
        i ∈ c.procedure.initLocals.code ∧ c.procedure.localsInitialized = false ∧
          v.kind = .parameter := by
      rcases hopened.cases_of_local? hopens hi hlocal with
        hhas | ⟨-, harr, -⟩ | ⟨hmem, hinit, w, hw, heq, hkind⟩
      · exact absurd hhas hslot
      · exact absurd (Option.some_inj.1 (harr.symm.trans harray)) hne
      · have hsame : w = v := by
          rw [Locals.mem_toList_iff, ← heq, hv] at hw
          exact (Option.some_inj.1 hw).symm
        exact ⟨hmem, hinit, hsame ▸ hkind⟩
    have hloads {i : Instr} (hi : i ∈ out.toList) (hlocal : i.local? = some v.id) :
        i = .loadLocal v.id := by
      obtain ⟨hmem, hinit, hkind⟩ := hcopied hi hlocal
      obtain ⟨before, after, hcode, hspare⟩ :=
        initLocals_copies hinit harray hv (Ne.symm hne) hnamed hkind hopened.initLocals
      rw [hcode, ← List.append_assoc, List.mem_append, List.mem_append] at hmem
      rcases hmem with (hmem | hmem) | hmem
      · exact absurd hlocal (hspare i (List.mem_append_left _ hmem))
      · exact Local.eq_of_mem_copyCode (Ne.symm hne) hmem hlocal
      · exact absurd hlocal (hspare i (List.mem_append_right _ hmem))
    refine ⟨fun hi => ?_, fun hi => ?_, fun hi => ?_, fun hkind hinit => ?_⟩
    · cases hloads hi rfl
    · cases hloads hi rfl
    · exact ⟨(hcopied hi rfl).2.2, (hcopied hi rfl).2.1⟩
    · exact hopened.copiesOnce hopens hinit harray hv (Ne.symm hne) hnamed hkind
  · refine accessesSlot hv (hasSlot_of_get? hv fun other hsome => ?_) fun other hsome => ?_
    all_goals
      rw [harray] at hsome
      cases hsome
      exact hother.imp_left Eq.symm

/-- A procedure that assigns its parameter to a variable, with both in a locals array. -/
def arrayed : Procedure where
  name := ⟨1⟩
  returnType := .void
  locals := { vars := #[{ id := ⟨0⟩, name := .empty, ty := .array, kind := .temporary },
    { id := ⟨1⟩, name := ⟨2⟩, ty := .int, kind := .parameter },
    { id := ⟨2⟩, name := ⟨3⟩, ty := .value, kind := .user }] }
  localsArray := some ⟨0⟩
  graph :=
    { blocks := #[
        { id := ⟨0⟩, ordinal := 0, kind := .start
          statements := [.expr (.assign { ty := .void } ⟨2⟩ (.var { ty := .int } ⟨1⟩))]
          edge := .goto ⟨1⟩ },
        { id := ⟨1⟩, ordinal := 1, kind := .exit, statements := [], edge := .none }]
      wellFormed := wellFormed_of_fault?_eq_none (by decide) }

/-- The code of `arrayed`. -/
def arrayedCode : Array Instr :=
  #[.constInt 3, .callIntrinsic .newLocalsArray, .storeLocal ⟨0⟩,
    .loadLocal ⟨0⟩, .constStr ⟨2⟩, .loadLocal ⟨1⟩, .convert .int .value, .callIntrinsic .arraySet,
    .loadLocal ⟨0⟩, .constStr ⟨3⟩, .loadLocal ⟨0⟩, .constStr ⟨2⟩, .callIntrinsic .arrayGet,
    .convert .value .int, .convert .int .value, .callIntrinsic .arraySet, .markLabel ⟨0⟩, .ret false]

theorem lowerInto_arrayed : arrayed.lowerInto {} BlockOrder.ordinal.arrange #[] =
    (arrayedCode, .ok { instrCount := 18, temps := [], labelCount := 1, resumePoints := []
                        debugLocals := [] }) := by
  have horder : arrayed.graph.emissionOrder BlockOrder.ordinal.arrange arrayed.liveBlocks =
      some [⟨0⟩, ⟨1⟩] := by cbv
  unfold Procedure.lowerInto Plan.make
  rw [horder]
  decide +kernel

/-- The parameter of `arrayed` is in the array, and the variable that holds the array is in a slot. -/
theorem arrayed_apart :
    arrayed.localsArray = some ⟨0⟩ ∧
    (.storeLocal ⟨1⟩ ∉ arrayedCode.toList ∧
      arrayed.CopiesOnce ⟨0⟩ { id := ⟨1⟩, name := ⟨2⟩, ty := .int, kind := .parameter }
        arrayedCode.toList) ∧
    arrayed.AccessesSlot { id := ⟨0⟩, name := .empty, ty := .array, kind := .temporary } := by
  have hparameter : arrayed.locals.get? ⟨1⟩ =
      some { id := ⟨1⟩, name := ⟨2⟩, ty := .int, kind := .parameter } := rfl
  have hholder : arrayed.locals.get? ⟨0⟩ =
      some { id := ⟨0⟩, name := .empty, ty := .array, kind := .temporary } := rfl
  obtain ⟨hnamed, -⟩ := Procedure.apart_of_lowerInto lowerInto_arrayed rfl hparameter
  obtain ⟨hstore, -, -, hcopied⟩ := hnamed (by decide) rfl
  exact ⟨rfl, ⟨hstore, hcopied rfl rfl⟩,
    (Procedure.apart_of_lowerInto lowerInto_arrayed rfl hholder).2 (.inl rfl)⟩

end StackCode
