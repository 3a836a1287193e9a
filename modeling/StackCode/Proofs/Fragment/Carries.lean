import StackCode.Draft.Entry
import StackCode.Proofs.Fragment.Plain

/-!
# Stack depth along fragments

`x.Carries exact n φ` says how the depth of the stack moves along the code of the fragment `x`: from
`n`, with whatever below, it gets at most to `φ a`, where `a` is the answer, and exactly there under
the condition `exact`, in which case no value is missing on the way.  A variable of type `void` is
what makes the difference: loading it may leave nothing.  Main statements:
`Procedure.evaluate_carries`, and one for every simple statement.
-/

namespace StackCode

/-- Something is missing from a procedure that its code needs: a value or a variable. -/
def LowerError.isMissing : LowerError → Bool
  | .missingValue _ | .unknownLocal _ => true
  | _ => false

/-- The number of values that a value of the type takes on the stack. -/
def Ty.width (t : Ty) : Nat := if t.isVoid then 0 else 1

theorem Ty.width_of_ne_void {t : Ty} (h : t ≠ .void) : t.width = 1 :=
  if_neg fun hvoid => h (Ty.isVoid_iff.1 hvoid)

theorem Ty.width_le_one (t : Ty) : t.width ≤ 1 := by
  unfold width
  split <;> omega

namespace Instr

theorem depthThrough_append (is js : List Instr) (depth : Nat) :
    depthThrough (is ++ js) depth = (depthThrough is depth).bind (depthThrough js) := by
  unfold depthThrough
  rw [List.foldlM_append]
  rfl

theorem depthThrough_append_iff {is js : List Instr} {depth after : Nat} :
    depthThrough (is ++ js) depth = .ok after ↔
      ∃ d, depthThrough is depth = .ok d ∧ depthThrough js d = .ok after := by
  rw [depthThrough_append]
  cases depthThrough is depth with
  | error e => simp [Except.bind]
  | ok d => simp [Except.bind]

theorem depthThrough_singleton (i : Instr) (depth : Nat) :
    depthThrough [i] depth = i.depthAfter depth := by
  unfold depthThrough
  rw [List.foldlM_cons]
  cases i.depthAfter depth <;> rfl

/-- Code that gets to the same depth from two depths has begun at one. -/
theorem depthThrough_inj {is : List Instr} {d d' after : Nat} (h : depthThrough is d = .ok after)
    (h' : depthThrough is d' = .ok after) : d = d' := by
  induction is generalizing d d' with
  | nil =>
    cases h
    cases h'
    rfl
  | cons i is ih =>
    obtain ⟨e, hi, hrest⟩ := depthThrough_cons_iff.1 h
    obtain ⟨e', hi', hrest'⟩ := depthThrough_cons_iff.1 h'
    obtain rfl := ih hrest hrest'
    obtain ⟨hpops, heq⟩ := depth_eq_of_passes hi
    obtain ⟨hpops', heq'⟩ := depth_eq_of_passes hi'
    omega

/-- An instruction that is no return and no jump asks for the values it takes, and nothing else. -/
theorem depthAfter_of_pops_le {i : Instr} {depth : Nat} (hret : i.returnDepth? = none)
    (hjump : i.isJump = false) (h : i.pops ≤ depth) :
    i.depthAfter depth = .ok (depth - i.pops + i.pushes) := by
  rw [depthAfter_eq_ok_iff]
  refine ⟨h, fun d hd => ?_, rfl, fun hj => ?_⟩
  · rw [hret] at hd
    cases hd
  · rw [hjump] at hj
    cases hj

theorem returnDepth?_of_isPlain {i : Instr} (h : i.isPlain = true) : i.returnDepth? = none := by
  cases i <;> first | rfl | cases h

theorem isJump_of_isPlain {i : Instr} (h : i.isPlain = true) : i.isJump = false :=
  isJump_of_passes (by simp [passes, isStraight_of_isPlain h, endsFlow_of_isPlain h])

end Instr

namespace Fragment

variable {α β : Type} {exact : Prop} {n m : Nat} {φ ψ : α → Nat}

/-- How the depth of the stack moves along a fragment. -/
structure Carries (exact : Prop) (x : Fragment α) (n : Nat) (φ : α → Nat) : Prop where
  missing : ∀ e, x.result = .error e → e.isMissing = true
  le : ∀ a, x.result = .ok a → ∀ k depth after, depth ≤ k + n →
    Instr.depthThrough x.code depth = .ok after → after ≤ k + φ a
  lands : exact → ∀ k, ∃ after, Instr.depthThrough x.code (k + n) = .ok after ∧
    ∀ a, x.result = .ok a → after = k + φ a
  /-- A fragment that gets where it should has not worked on what lies below. -/
  spares : ∀ a, x.result = .ok a → ∀ k, Instr.depthThrough x.code (k + n) = .ok (k + φ a) →
    ∀ j ≤ k, Instr.depthThrough x.code (j + n) = .ok (j + φ a)

namespace Carries

theorem pure {a : α} (h : φ a = n) : (pure a : Fragment α).Carries exact n φ where
  missing := nofun
  le b hb k depth after hdepth hthrough := by
    cases hb
    cases hthrough
    rw [h]
    exact hdepth
  lands _ k := ⟨_, rfl, fun b hb => by cases hb; rw [h]⟩
  spares b hb _ _ j _ := by
    cases hb
    rw [h]
    rfl

theorem fail {e : LowerError} (h : e.isMissing = true) :
    (fail e : Fragment α).Carries exact n φ where
  missing e' he' := by cases he'; exact h
  le _ := nofun
  lands _ k := ⟨_, rfl, nofun⟩
  spares _ := nofun

/-- What passes a result on moves nothing. -/
theorem ofExcept {r : Except LowerError α} (h : ∀ e, r = .error e → e.isMissing = true) :
    (ofExcept r).Carries exact n fun _ => n where
  missing := h
  le a _ k depth after hdepth hthrough := by
    cases hthrough
    exact hdepth
  lands _ k := ⟨_, rfl, fun _ _ => rfl⟩
  spares _ _ _ _ _ _ := rfl

theorem emit {i : Instr} (hi : i.isPlain = true) :
    (emit i).Carries exact (m + i.pops) fun _ => m + i.pushes where
  missing := nofun
  le _ _ k depth after hdepth hthrough := by
    rw [code_emit, Instr.depthThrough_singleton] at hthrough
    obtain ⟨hpops, rfl⟩ := Instr.depth_eq_of_passes hthrough
    omega
  lands _ k := by
    refine ⟨k + (m + i.pushes), ?_, fun _ _ => rfl⟩
    rw [code_emit, Instr.depthThrough_singleton, Instr.depthAfter_of_pops_le
      (Instr.returnDepth?_of_isPlain hi) (Instr.isJump_of_isPlain hi) (by omega)]
    congr 1
    omega
  spares _ _ _ _ j _ := by
    rw [code_emit, Instr.depthThrough_singleton, Instr.depthAfter_of_pops_le
      (Instr.returnDepth?_of_isPlain hi) (Instr.isJump_of_isPlain hi) (by omega)]
    congr 1
    omega

theorem bind {x : Fragment α} {f : α → Fragment β} {ψ : β → Nat} (hx : x.Carries exact n φ)
    (hf : ∀ a, x.result = .ok a → (f a).Carries exact (φ a) ψ) :
    (x >>= f).Carries exact n ψ := by
  cases hr : x.result with
  | error e =>
    rw [bind_of_error hr]
    refine ⟨fun e' he' => ?_, fun b => nofun, fun h k => ?_, fun b => nofun⟩
    · cases he'
      exact hx.missing e hr
    · obtain ⟨after, hthrough, -⟩ := hx.lands h k
      exact ⟨after, hthrough, nofun⟩
  | ok a =>
    have hfa := hf a hr
    rw [bind_of_ok hr]
    refine ⟨hfa.missing, fun b hb k depth after hdepth hthrough => ?_, fun h k => ?_,
      fun b hb k hthrough j hj => ?_⟩
    · obtain ⟨mid, hfirst, hrest⟩ := Instr.depthThrough_append_iff.1 hthrough
      exact hfa.le b hb k mid after (hx.le a hr k depth mid hdepth hfirst) hrest
    · obtain ⟨mid, hfirst, hmid⟩ := hx.lands h k
      obtain ⟨after, hrest, hafter⟩ := hfa.lands h k
      refine ⟨after, Instr.depthThrough_append_iff.2 ⟨mid, hfirst, ?_⟩, hafter⟩
      rw [hmid a hr]
      exact hrest
    · cases k with
      | zero =>
        obtain rfl := Nat.le_zero.1 hj
        exact hthrough
      | succ k =>
        obtain ⟨mid, hfirst, hrest⟩ := Instr.depthThrough_append_iff.1 hthrough
        -- what the first part falls short of, the second does not make good
        have hmid : mid = k + 1 + φ a := by
          refine Nat.le_antisymm (hx.le a hr (k + 1) _ mid (Nat.le_refl _) hfirst) ?_
          refine Nat.not_lt.1 fun hlt => ?_
          have hshort := hfa.le b hb k mid _ (by omega) hrest
          omega
        subst hmid
        exact Instr.depthThrough_append_iff.2
          ⟨_, hx.spares a hr (k + 1) hfirst j hj, hfa.spares b hb (k + 1) hrest j hj⟩

/-- What lies below does not matter. -/
theorem above {x : Fragment α} (h : x.Carries exact n φ) (m : Nat) :
    x.Carries exact (m + n) fun a => m + φ a where
  missing := h.missing
  le a ha k depth after hdepth hthrough := by
    rw [← Nat.add_assoc] at hdepth ⊢
    exact h.le a ha (k + m) depth after hdepth hthrough
  lands hexact k := by
    rw [← Nat.add_assoc]
    obtain ⟨after, hthrough, hafter⟩ := h.lands hexact (k + m)
    exact ⟨after, hthrough, fun a ha => by rw [hafter a ha, Nat.add_assoc]⟩
  spares a ha k hthrough j hj := by
    rw [← Nat.add_assoc, ← Nat.add_assoc] at hthrough ⊢
    exact h.spares a ha (k + m) hthrough (j + m) (Nat.add_le_add_right hj m)

/-- A bound may be wider than the depth it bounds, unless it has to be exact. -/
theorem relax {x : Fragment α} (h : x.Carries exact n φ) (hle : ∀ a, x.result = .ok a → φ a ≤ ψ a)
    (heq : exact → ∀ a, x.result = .ok a → φ a = ψ a) : x.Carries exact n ψ where
  missing := h.missing
  le a ha k depth after hdepth hthrough :=
    Nat.le_trans (h.le a ha k depth after hdepth hthrough) (Nat.add_le_add_left (hle a ha) k)
  lands hexact k := by
    obtain ⟨after, hthrough, hafter⟩ := h.lands hexact k
    exact ⟨after, hthrough, fun a ha => by rw [hafter a ha, heq hexact a ha]⟩
  spares a ha k hthrough j hj := by
    have hbound := h.le a ha k _ _ (Nat.le_refl _) hthrough
    have hsame : φ a = ψ a := by
      have hwider := hle a ha
      omega
    rw [← hsame] at hthrough ⊢
    exact h.spares a ha k hthrough j hj

theorem discard {x : Fragment α} (h : x.Carries exact n fun _ => m) :
    (discard x).Carries exact n fun _ => m := h.bind fun _ _ => .pure rfl

theorem forM {xs : List α} {f : α → Fragment Unit}
    (hf : ∀ a ∈ xs, (f a).Carries exact n fun _ => n) :
    (xs.forM f).Carries exact n fun _ => n := by
  induction xs with
  | nil => exact .pure rfl
  | cons a xs ih =>
    exact (hf a List.mem_cons_self).bind fun _ _ =>
      ih fun b hb => hf b (List.mem_cons_of_mem a hb)

end Carries

/-! ## Values -/

theorem literal_carries (v : Literal) : (literal v).Carries exact n fun _ => n + 1 := by
  cases v <;> exact .emit (m := n) rfl

theorem convert_carries (source target : Ty) :
    (convert source target).Carries exact source.width fun _ => target.width := by
  unfold convert
  split
  · next heq => exact .pure (by rw [heq])
  · split
    · exact .fail rfl
    · next hsource =>
      rw [Ty.width_of_ne_void fun h => hsource (Ty.isVoid_iff.2 h)]
      split
      · next htarget =>
        rw [Ty.isVoid_iff.1 htarget]
        exact .emit (m := 0) rfl
      · next htarget =>
        rw [Ty.width_of_ne_void fun h => htarget (Ty.isVoid_iff.2 h)]
        exact .emit (m := 0) rfl

/-- What is turned into a value has been one. -/
theorem convert_carries_one {source target : Ty} (h : target ≠ .void) :
    (convert source target).Carries exact 1 fun _ => 1 := by
  by_cases hsource : source = .void
  · subst hsource
    unfold convert
    rw [if_neg fun heq => h heq.symm]
    exact .fail rfl
  · have hcarries : (convert source target).Carries exact source.width fun _ => target.width :=
      convert_carries source target
    rwa [Ty.width_of_ne_void hsource, Ty.width_of_ne_void h] at hcarries

theorem pushDefault_carries (ty : Ty) :
    (pushDefault ty).Carries exact 0 fun _ => ty.width := by
  unfold pushDefault
  cases hdefault : ty.default? with
  | none =>
    rw [Ty.default?_eq_none_iff.1 hdefault]
    exact .pure rfl
  | some v =>
    have hne : ty ≠ .void := fun h => by
      rw [Ty.default?_eq_none_iff.2 h] at hdefault
      cases hdefault
    rw [Ty.width_of_ne_void hne]
    exact literal_carries v

/-- A value that is required is there. -/
theorem ne_void_of_required {x : Fragment Ty} {use : ValueUse} {ty : Ty}
    (h : (x.required use).result = .ok ty) : ty ≠ .void := by
  obtain ⟨ty', -, hty, -⟩ := bind_eq_ok h
  split at hty
  · cases hty
  · next hvoid =>
    cases hty
    exact fun h => hvoid (Ty.isVoid_iff.2 h)

theorem Carries.required {x : Fragment Ty} (h : x.Carries exact 0 Ty.width) (use : ValueUse) :
    (x.required use).Carries exact 0 Ty.width := by
  refine h.bind fun ty _ => ?_
  split
  · exact .fail rfl
  · exact .pure rfl

/-- A value that is needed, whatever its type. -/
theorem Carries.operand {x : Fragment Ty} (h : x.Carries exact 0 Ty.width) (use : ValueUse) :
    (Functor.discard (x.required use)).Carries exact 0 fun _ => 1 := by
  have hone : (x.required use).Carries exact 0 fun _ => 1 :=
    (h.required use).relax (fun ty _ => ty.width_le_one)
      fun _ _ hty => Ty.width_of_ne_void (ne_void_of_required hty)
  exact hone.discard

theorem Carries.convertedTo {x : Fragment Ty} (h : x.Carries exact 0 Ty.width) (target : Ty)
    (use : ValueUse) : (x.convertedTo target use).Carries exact 0 fun _ => target.width :=
  (h.required use).bind fun ty _ => convert_carries ty target

/-- An intrinsic whose arguments are all there is above `n`. -/
theorem callIntrinsic_carries (i : Intrinsic) :
    (callIntrinsic i).Carries exact (n + i.arity) fun _ => n + i.returns.toNat :=
  .emit (m := n) rfl

theorem callWithName_carries {i : Intrinsic} (h : i.arity = 2) (name : Name) :
    (callWithName i name).Carries exact n fun _ => n + i.returns.toNat := by
  have hcall : (callIntrinsic i).Carries exact (n + i.arity) fun _ => n + i.returns.toNat :=
    callIntrinsic_carries i
  rw [h] at hcall
  exact (Carries.emit (m := n) rfl).bind fun _ _ => (Carries.emit (m := n + 1) rfl).bind fun _ _ => hcall

end Fragment

/-! ## Storage -/

/-- No variable is declared without a value to hold. -/
def Procedure.VoidFree (p : Procedure) : Prop := ∀ v ∈ p.locals.vars, v.ty ≠ .void

namespace Place

/-- The number of values that a store has on the stack below the value itself. -/
def keyDepth : Place → Nat
  | .slot _ => 0
  | .entry _ _ _ => 2

/-- What the place holds is a value. -/
def HoldsValue : Place → Prop
  | .slot _ => True
  | .entry _ _ ty => ty ≠ .void

variable {exact : Prop} {place : Place}

theorem pushKey_carries (place : Place) :
    place.pushKey.Carries exact 0 fun _ => place.keyDepth := by
  cases place with
  | slot id => exact .pure rfl
  | entry array key ty =>
    exact (Fragment.Carries.emit (m := 0) rfl).bind fun _ _ => .emit (m := 1) rfl

theorem load_carries (h : exact → place.HoldsValue) : place.load.Carries exact 0 fun _ => 1 := by
  cases place with
  | slot id => exact .emit (m := 0) rfl
  | entry array key ty =>
    refine (pushKey_carries _).bind fun _ _ =>
      (Fragment.callIntrinsic_carries (n := 0) .arrayGet).bind fun _ _ => ?_
    exact (Fragment.convert_carries .value ty).relax (fun _ _ => ty.width_le_one)
      fun hexact _ _ => Ty.width_of_ne_void (h hexact)

theorem store_carries (place : Place) :
    place.store.Carries exact (place.keyDepth + 1) fun _ => 0 := by
  cases place with
  | slot id => exact .emit (m := 0) rfl
  | entry array key ty =>
    have hconvert : (Fragment.convert ty .value).Carries exact 1 fun _ => 1 :=
      Fragment.convert_carries_one nofun
    exact (hconvert.above 2).bind fun _ _ => Fragment.callIntrinsic_carries (n := 0) .arraySet

theorem clear_carries (place : Place) : place.clear.Carries exact 0 fun _ => 0 := by
  cases place with
  | slot id => exact .emit (m := 0) rfl
  | entry array key ty =>
    exact (pushKey_carries _).bind fun _ _ => Fragment.callIntrinsic_carries (n := 0) .removeKey

end Place

namespace Procedure

variable {p : Procedure} {exact : Prop}

theorem missing_of_getLocal {id : LocalId} {e : LowerError} (h : p.getLocal id = .error e) :
    e.isMissing = true := by
  unfold getLocal at h
  split at h
  · cases h
  · cases h
    rfl

theorem ne_void_of_getLocal (hvoid : p.VoidFree) {id : LocalId} {v : Local}
    (h : p.getLocal id = .ok v) : v.ty ≠ .void := by
  unfold getLocal at h
  split at h
  · next hget =>
    cases h
    exact hvoid v (Array.mem_of_getElem? hget)
  · cases h

theorem missing_of_place {id : LocalId} {e : LowerError} (h : p.place id = .error e) :
    e.isMissing = true := by
  unfold place at h
  cases hv : p.getLocal id with
  | error e' =>
    rw [hv] at h
    cases h
    exact missing_of_getLocal hv
  | ok v =>
    rw [hv] at h
    cases harray : p.localsArray with
    | none =>
      simp only [harray] at h
      cases h
    | some array =>
      simp only [harray, bind, Except.bind] at h
      split at h
      · cases hget : p.getLocal array with
        | error e' =>
          rw [hget] at h
          cases h
          exact missing_of_getLocal hget
        | ok a =>
          rw [hget] at h
          cases h
      · cases h

theorem holdsValue_of_place (hvoid : p.VoidFree) {id : LocalId} {place : Place}
    (h : p.place id = .ok place) : place.HoldsValue := by
  unfold Procedure.place at h
  cases hv : p.getLocal id with
  | error e =>
    rw [hv] at h
    cases h
  | ok v =>
    rw [hv] at h
    cases harray : p.localsArray with
    | none =>
      simp only [harray] at h
      cases h
      trivial
    | some array =>
      simp only [harray, bind, Except.bind] at h
      split at h
      · cases hget : p.getLocal array with
        | error e' =>
          rw [hget] at h
          cases h
        | ok a =>
          rw [hget] at h
          cases h
          exact ne_void_of_getLocal hvoid hv
      · cases h
        trivial

theorem loadVar_carries (h : exact → p.VoidFree) (id : LocalId) :
    (p.loadVar id).Carries exact 0 fun _ => 1 :=
  (Fragment.Carries.ofExcept fun _ => missing_of_place).bind fun _ hplace =>
    Place.load_carries fun hexact => holdsValue_of_place (h hexact) hplace

/-! ## Expressions -/

mutual

/-- The code of an expression pushes its value, if it has one. -/
theorem evaluate_carries (h : exact → p.VoidFree) :
    (e : Expr) → (p.evaluate e).Carries exact 0 Ty.width
  | .literal note v => by
    rw [evaluate]
    exact (Fragment.literal_carries v).bind fun _ _ =>
      .pure (Ty.width_of_ne_void note.ty.orValue_ne_void)
  | .var note id => by
    rw [evaluate]
    exact (loadVar_carries h id).bind fun _ _ =>
      .pure (Ty.width_of_ne_void note.ty.orValue_ne_void)
  | .assign note target value => by
    rw [evaluate]
    refine (Fragment.Carries.ofExcept fun _ => missing_of_getLocal).bind fun v hv => ?_
    refine (Fragment.Carries.ofExcept fun _ => missing_of_place).bind fun place _ => ?_
    refine place.pushKey_carries.bind fun _ _ => ?_
    have hvalue : ((p.evaluate value).convertedTo v.ty .assigned).Carries exact 0 fun _ => 1 :=
      ((evaluate_carries h value).convertedTo v.ty .assigned).relax (fun _ _ => v.ty.width_le_one)
        fun hexact _ _ => Ty.width_of_ne_void (ne_void_of_getLocal (h hexact) hv)
    refine (hvalue.above place.keyDepth).bind fun _ _ => ?_
    split
    · next hvoid =>
      refine place.store_carries.bind fun _ _ => .pure ?_
      rw [Ty.isVoid_iff.1 hvoid]
      rfl
    · next hvoid =>
      have hne : note.ty ≠ .void := fun heq => hvoid (Ty.isVoid_iff.2 heq)
      have hback : (Fragment.convert v.ty note.ty >>= fun _ => pure note.ty).Carries exact 1
          Ty.width := (Fragment.convert_carries_one hne).bind fun _ _ =>
        .pure (Ty.width_of_ne_void hne)
      cases place with
      | slot id =>
        refine (Fragment.Carries.emit (m := 0) rfl).bind fun _ _ => ?_
        exact ((Place.slot id).store_carries.above 1).bind fun _ _ => hback
      | entry array key ty =>
        refine (Place.store_carries _).bind fun _ _ => ?_
        exact (loadVar_carries h target).bind fun _ _ => hback
  | .binary note op lhs rhs => by
    rw [evaluate]
    refine ((evaluate_carries h lhs).operand _).bind fun _ _ => ?_
    refine (((evaluate_carries h rhs).operand _).above 1).bind fun _ _ => ?_
    exact (Fragment.Carries.emit (m := 0) rfl).bind fun _ _ =>
      .pure (Ty.width_of_ne_void note.ty.orValue_ne_void)
  | .call note callee args => by
    rw [evaluate]
    refine (evaluateArgs_carries h args).bind fun _ _ => ?_
    have hcall : (Fragment.emit (.call (.function callee) args.length (!note.ty.isVoid))).Carries
        exact (0 + args.length) fun _ => 0 + (!note.ty.isVoid).toNat := .emit rfl
    refine hcall.bind fun _ _ => .pure ?_
    unfold Ty.width
    cases note.ty.isVoid <;> rfl
  | .new note cls args => by
    rw [evaluate]
    refine (evaluateArgs_carries h args).bind fun _ _ => ?_
    have hnew : (Fragment.emit (.new cls args.length)).Carries exact (0 + args.length)
        fun _ => 0 + 1 := .emit rfl
    exact hnew.bind fun _ _ => .pure (Ty.width_of_ne_void note.ty.orValue_ne_void)
  | .item note array key => by
    rw [evaluate]
    refine ((evaluate_carries h array).convertedTo .array _).bind fun _ _ => ?_
    refine (((evaluate_carries h key).convertedTo .value _).above 1).bind fun _ _ => ?_
    exact (Fragment.callIntrinsic_carries (n := 0) .arrayGet).bind fun _ _ =>
      .pure (Ty.width_of_ne_void note.ty.orValue_ne_void)

/-- The code of arguments pushes a value for each. -/
theorem evaluateArgs_carries (h : exact → p.VoidFree) :
    (args : List Expr) → (p.evaluateArgs args).Carries exact 0 fun _ => 0 + args.length
  | [] => .pure rfl
  | arg :: args => by
    rw [evaluateArgs]
    refine ((evaluate_carries h arg).operand _).bind fun _ _ => ?_
    have hrest := (evaluateArgs_carries h args).above 1
    rw [show 1 + (0 + args.length) = 0 + (arg :: args).length by
      rw [List.length_cons]; omega] at hrest
    exact hrest

end

theorem value_carries (h : exact → p.VoidFree) (e : Expr) (ty : Ty) (use : ValueUse) :
    (p.value e ty use).Carries exact 0 fun _ => ty.width :=
  (evaluate_carries h e).convertedTo ty use

/-! ## Simple statements -/

theorem discardValue_carries (h : exact → p.VoidFree) (e : Expr) :
    (p.discardValue e).Carries exact 0 fun _ => 0 := by
  refine (evaluate_carries h e).bind fun ty _ => ?_
  split
  · next hvoid =>
    rw [Ty.isVoid_iff.1 hvoid]
    exact .pure rfl
  · next hvoid =>
    rw [Ty.width_of_ne_void fun heq => hvoid (Ty.isVoid_iff.2 heq)]
    exact .emit (m := 0) rfl

theorem bindGlobal_carries (id : LocalId) : (p.bindGlobal id).Carries exact 0 fun _ => 0 :=
  (Fragment.Carries.ofExcept fun _ => missing_of_getLocal).bind fun _ _ =>
    (Fragment.Carries.ofExcept fun _ => missing_of_place).bind fun place _ =>
      place.pushKey_carries.bind fun _ _ =>
        (Fragment.callWithName_carries rfl _).bind fun _ _ => place.store_carries

theorem defineConst_carries (h : exact → p.VoidFree) (name : Name) (e : Expr) :
    (p.defineConst name e).Carries exact 0 fun _ => 0 :=
  (Fragment.Carries.emit (m := 0) rfl).bind fun _ _ =>
    (Fragment.Carries.emit (m := 1) rfl).bind fun _ _ =>
      ((value_carries h e .value .constant).above 2).bind fun _ _ =>
        Fragment.callIntrinsic_carries (n := 0) .defineConstant

theorem bindHolder_carries (id : LocalId) (key : Name) :
    (p.bindHolder id key).Carries exact 0 fun _ => 0 :=
  (Fragment.Carries.ofExcept fun _ => missing_of_place).bind fun place _ =>
    place.pushKey_carries.bind fun _ _ =>
      (Fragment.callWithName_carries rfl _).bind fun _ _ => place.store_carries

theorem unset_carries (h : exact → p.VoidFree) (target : UnsetTarget) :
    (p.unset target).Carries exact 0 fun _ => 0 := by
  cases target with
  | var id =>
    exact (Fragment.Carries.ofExcept fun _ => missing_of_place).bind fun place _ =>
      place.clear_carries
  | item array key =>
    refine (value_carries h array .array .unsetArray).bind fun _ _ => ?_
    refine ((value_carries h key .value .unsetKey).above 1).bind fun _ _ => ?_
    exact Fragment.callIntrinsic_carries (n := 0) .removeKey
  | property inst name =>
    refine (value_carries h inst .value .unsetInstance).bind fun _ _ => ?_
    exact (Fragment.Carries.emit (m := 1) rfl).bind fun _ _ =>
      Fragment.callIntrinsic_carries (n := 0) .unsetProperty

theorem publish_carries (h : exact → p.VoidFree) (y : Yield) :
    (p.publish y).Carries exact 0 fun _ => 0 := by
  unfold publish
  refine (value_carries h y.value .value .yielded).bind fun _ _ => ?_
  split
  · next key _ =>
    refine ((value_carries h key .value .yieldedKey).above 1).bind fun _ _ => ?_
    split
    · exact Fragment.callIntrinsic_carries (n := 0) .setGeneratorCurrentDelegated
    · exact Fragment.callIntrinsic_carries (n := 0) .setGeneratorCurrentWithKey
  · split
    · exact (Fragment.Carries.emit (m := 1) rfl).bind fun _ _ =>
        Fragment.callIntrinsic_carries (n := 0) .setGeneratorCurrentDelegated
    · exact Fragment.callIntrinsic_carries (n := 0) .setGeneratorCurrent

/-! ## First values -/

theorem initLocalsArray_carries : p.initLocalsArray.Carries exact 0 fun _ => 0 := by
  unfold initLocalsArray
  split
  · exact .pure rfl
  · next array _ =>
    refine (Fragment.Carries.ofExcept (n := 0) fun _ => missing_of_getLocal).discard.bind
      fun _ _ => ?_
    refine (Fragment.Carries.emit (m := 0) rfl).bind fun _ _ => ?_
    exact (Fragment.callIntrinsic_carries (n := 0) .newLocalsArray).bind fun _ _ =>
      .emit (m := 0) rfl

theorem initVar_carries (v : Local) : (p.initVar v).Carries exact 0 fun _ => 0 := by
  unfold initVar
  split
  · exact .pure rfl
  · refine (Fragment.Carries.ofExcept fun _ => missing_of_place).bind fun place _ => ?_
    split
    · next array key ty =>
      split
      · refine (Place.pushKey_carries _).bind fun _ _ => ?_
        exact (Fragment.Carries.emit (m := 2) rfl).bind fun _ _ => Place.store_carries _
      · exact .pure rfl
    · split
      · split
        · exact (Fragment.literal_carries _).bind fun _ _ => .emit (m := 0) rfl
        · exact .pure rfl
      · exact .pure rfl

theorem initLocals_carries : p.initLocals.Carries exact 0 fun _ => 0 := by
  unfold initLocals
  split
  · exact .pure rfl
  · exact initLocalsArray_carries.bind fun _ _ => .forM fun v _ => initVar_carries v

end Procedure

end StackCode
