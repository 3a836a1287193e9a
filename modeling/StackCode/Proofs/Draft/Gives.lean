import StackCode.Draft.Block
import StackCode.Proofs.Assembly.Labels

/-!
# Drafts that get to their end

`x.Gives frame code frame' a` says that the draft `x` does not stop: from the frame it adds the code,
leaves the other frame and answers `a`.  A draft made of several gives what they give one after the
other (`gives_bind_iff`), so what is known of the parts is all that is known.  A frame only grows:
labels are added blank, and the return label and the return slot stay what they are once they are
there (`Frame.Grows`).
-/

namespace StackCode

/-- `frame'` is `frame` after more has been allotted. -/
structure Frame.Grows (frame frame' : Frame) : Prop where
  size_le : frame.labels.size ≤ frame'.labels.size
  isBlank : frame.labels.IsBlank → frame'.labels.IsBlank
  returnLabel : ∀ l, frame.returnLabel = some l → frame'.returnLabel = some l
  returnSlot : ∀ s, frame.returnSlot = some s → frame'.returnSlot = some s

namespace Frame.Grows

theorem refl (frame : Frame) : frame.Grows frame := ⟨Nat.le_refl _, id, fun _ => id, fun _ => id⟩

theorem trans {frame₁ frame₂ frame₃ : Frame} (h : frame₁.Grows frame₂) (h' : frame₂.Grows frame₃) :
    frame₁.Grows frame₃ :=
  ⟨Nat.le_trans h.size_le h'.size_le, h'.isBlank ∘ h.isBlank,
    fun l hl => h'.returnLabel l (h.returnLabel l hl),
    fun s hs => h'.returnSlot s (h.returnSlot s hs)⟩

end Frame.Grows

namespace Draft

section
variable {α β : Type} {frame frame' : Frame} {code : List Directive}

/-- The draft gets to its end. -/
def Gives (x : Draft α) (frame : Frame) (code : List Directive) (frame' : Frame) (a : α) : Prop :=
  x frame = { code, frame := frame', result := .ok a }

/-- A draft that answers gives the code and the frame it has come to. -/
theorem gives_of_result {x : Draft α} {a : α} (h : (x frame).result = .ok a) :
    x.Gives frame (x frame).code (x frame).frame a := by
  unfold Gives
  rw [← h]

theorem gives_bind_iff {x : Draft α} {f : α → Draft β} {b : β} :
    (x >>= f).Gives frame code frame' b ↔
      ∃ a mid code₁ code₂, x.Gives frame code₁ mid a ∧ (f a).Gives mid code₂ frame' b ∧
        code = code₁ ++ code₂ := by
  constructor
  · intro h
    unfold Gives at h
    cases hx : (x frame).result with
    | error e =>
      rw [bind_of_error hx] at h
      cases h
    | ok a =>
      rw [bind_of_ok hx] at h
      injection h with hcode hframe hresult
      subst hcode hframe
      exact ⟨a, _, _, _, gives_of_result hx, gives_of_result hresult, rfl⟩
  · rintro ⟨a, mid, code₁, code₂, h₁, h₂, rfl⟩
    unfold Gives at h₁ h₂ ⊢
    rw [bind_of_ok (by rw [h₁])]
    rw [h₁, h₂]

@[simp] theorem gives_pure_iff {a b : α} :
    (pure a : Draft α).Gives frame code frame' b ↔ code = [] ∧ frame' = frame ∧ b = a := by
  unfold Gives
  rw [pure_apply, Drafted.mk.injEq, Except.ok.injEq]
  exact ⟨fun ⟨h₁, h₂, h₃⟩ => ⟨h₁.symm, h₂.symm, h₃.symm⟩,
    fun ⟨h₁, h₂, h₃⟩ => ⟨h₁.symm, h₂.symm, h₃.symm⟩⟩

@[simp] theorem gives_directive_iff {d : Directive} {u : Unit} :
    (directive d).Gives frame code frame' u ↔ code = [d] ∧ frame' = frame := by
  unfold Gives
  rw [directive_apply, Drafted.mk.injEq]
  exact ⟨fun ⟨h₁, h₂, _⟩ => ⟨h₁.symm, h₂.symm⟩, fun ⟨h₁, h₂⟩ => ⟨h₁.symm, h₂.symm, rfl⟩⟩

@[simp] theorem gives_emit_iff {i : Instr} {u : Unit} :
    (emit i).Gives frame code frame' u ↔ code = [.instr i] ∧ frame' = frame := gives_directive_iff

@[simp] theorem gives_mark_iff {l : Label} {arrival : Arrival} {u : Unit} :
    (mark l arrival).Gives frame code frame' u ↔ code = [.mark l arrival] ∧ frame' = frame :=
  gives_directive_iff

@[simp] theorem not_gives_fail {e : LowerError} {a : α} :
    ¬ (fail e : Draft α).Gives frame code frame' a := by
  intro h
  unfold Gives at h
  rw [fail_apply, Drafted.mk.injEq] at h
  cases h.2.2

@[simp] theorem gives_ofFragment_iff {x : Fragment α} {a : α} :
    (ofFragment x).Gives frame code frame' a ↔
      code = x.code.map .instr ∧ frame' = frame ∧ x.result = .ok a := by
  unfold Gives
  rw [ofFragment_apply, Drafted.mk.injEq]
  exact ⟨fun ⟨h₁, h₂, h₃⟩ => ⟨h₁.symm, h₂.symm, h₃⟩, fun ⟨h₁, h₂, h₃⟩ => ⟨h₁.symm, h₂.symm, h₃⟩⟩

@[simp] theorem gives_getFrame_iff {a : Frame} :
    getFrame.Gives frame code frame' a ↔ code = [] ∧ frame' = frame ∧ a = frame :=
  gives_pure_iff (a := frame)

@[simp] theorem gives_setFrame_iff {set : Frame} {u : Unit} :
    (setFrame set).Gives frame code frame' u ↔ code = [] ∧ frame' = set := by
  unfold Gives setFrame
  rw [Drafted.mk.injEq]
  exact ⟨fun ⟨h₁, h₂, _⟩ => ⟨h₁.symm, h₂.symm⟩, fun ⟨h₁, h₂⟩ => ⟨h₁.symm, h₂.symm, rfl⟩⟩

/-! ## Sequences that begin with one operation -/

@[simp] theorem gives_pure_bind_iff {a : α} {f : α → Draft β} {b : β} :
    (pure a >>= f).Gives frame code frame' b ↔ (f a).Gives frame code frame' b := by
  rw [pure_bind]

@[simp] theorem gives_getFrame_bind_iff {f : Frame → Draft β} {b : β} :
    (getFrame >>= f).Gives frame code frame' b ↔ (f frame).Gives frame code frame' b := by
  rw [gives_bind_iff]
  constructor
  · rintro ⟨a, mid, c₁, c₂, h₁, h₂, rfl⟩
    obtain ⟨rfl, rfl, rfl⟩ := gives_getFrame_iff.1 h₁
    exact h₂
  · intro h
    exact ⟨frame, frame, [], code, gives_getFrame_iff.2 ⟨rfl, rfl, rfl⟩, h, rfl⟩

@[simp] theorem gives_setFrame_bind_iff {set : Frame} {f : Unit → Draft β} {b : β} :
    (setFrame set >>= f).Gives frame code frame' b ↔ (f ()).Gives set code frame' b := by
  rw [gives_bind_iff]
  constructor
  · rintro ⟨a, mid, c₁, c₂, h₁, h₂, rfl⟩
    obtain ⟨rfl, rfl⟩ := gives_setFrame_iff.1 h₁
    exact h₂
  · intro h
    exact ⟨(), set, [], code, gives_setFrame_iff.2 ⟨rfl, rfl⟩, h, rfl⟩

@[simp] theorem gives_directive_bind_iff {d : Directive} {f : Unit → Draft β} {b : β} :
    (directive d >>= f).Gives frame code frame' b ↔
      ∃ rest, (f ()).Gives frame rest frame' b ∧ code = d :: rest := by
  rw [gives_bind_iff]
  constructor
  · rintro ⟨a, mid, c₁, c₂, h₁, h₂, rfl⟩
    obtain ⟨rfl, rfl⟩ := gives_directive_iff.1 h₁
    exact ⟨c₂, h₂, rfl⟩
  · rintro ⟨rest, h, rfl⟩
    exact ⟨(), frame, [d], rest, gives_directive_iff.2 ⟨rfl, rfl⟩, h, rfl⟩

@[simp] theorem gives_emit_bind_iff {i : Instr} {f : Unit → Draft β} {b : β} :
    (emit i >>= f).Gives frame code frame' b ↔
      ∃ rest, (f ()).Gives frame rest frame' b ∧ code = .instr i :: rest :=
  gives_directive_bind_iff

@[simp] theorem gives_ofFragment_bind_iff {x : Fragment α} {f : α → Draft β} {b : β} :
    (ofFragment x >>= f).Gives frame code frame' b ↔
      ∃ a rest, x.result = .ok a ∧ (f a).Gives frame rest frame' b ∧
        code = x.code.map .instr ++ rest := by
  rw [gives_bind_iff]
  constructor
  · rintro ⟨a, mid, c₁, c₂, h₁, h₂, rfl⟩
    obtain ⟨rfl, rfl, ha⟩ := gives_ofFragment_iff.1 h₁
    exact ⟨a, c₂, ha, h₂, rfl⟩
  · rintro ⟨a, rest, ha, h, rfl⟩
    exact ⟨a, frame, _, rest, gives_ofFragment_iff.2 ⟨rfl, rfl, ha⟩, h, rfl⟩

/-! ## Labels and temporaries -/

theorem gives_freshLabel_iff {l : Label} :
    freshLabel.Gives frame code frame' l ↔
      code = [] ∧ frame' = { frame with labels := (frame.labels.add {}).2 } ∧
        l = ⟨frame.labels.size⟩ := by
  simp only [freshLabel, gives_getFrame_bind_iff, gives_setFrame_bind_iff, gives_pure_iff,
    LabelTable.fresh, LabelTable.add]

theorem gives_namedLabel_iff {name : String} {l : Label} :
    (namedLabel name).Gives frame code frame' l ↔
      code = [] ∧ frame' = { frame with labels := (frame.labels.add { name := some name }).2 } ∧
        l = ⟨frame.labels.size⟩ := by
  simp only [namedLabel, gives_getFrame_bind_iff, gives_setFrame_bind_iff, gives_pure_iff,
    LabelTable.named, LabelTable.add]

/-- The declaration of a slot, if it is a new one. -/
def allocation (slot : TempSlot) (isNew : Bool) (ty : Ty) : List Directive :=
  if isNew then [.instr (.allocTemp slot ty)] else []

theorem gives_acquireTemp_iff {ty : Ty} {slot : TempSlot} :
    (acquireTemp ty).Gives frame code frame' slot ↔
      slot = (frame.temps.acquire ty).1 ∧
        code = allocation slot (frame.temps.acquire ty).2.1 ty ∧
        frame' = { frame with temps := (frame.temps.acquire ty).2.2 } := by
  have happly : acquireTemp ty frame =
      { code := allocation (frame.temps.acquire ty).1 (frame.temps.acquire ty).2.1 ty
        frame := { frame with temps := (frame.temps.acquire ty).2.2 }
        result := .ok (frame.temps.acquire ty).1 } := by
    unfold acquireTemp allocation
    rw [bind_of_ok (a := frame) rfl]
    obtain ⟨s, isNew, temps⟩ := frame.temps.acquire ty
    cases isNew <;> rfl
  unfold Gives
  rw [happly, Drafted.mk.injEq, Except.ok.injEq]
  constructor
  · rintro ⟨rfl, rfl, rfl⟩
    exact ⟨rfl, rfl, rfl⟩
  · rintro ⟨rfl, rfl, rfl⟩
    exact ⟨rfl, rfl, rfl⟩

theorem gives_releaseTemp_iff {slot : TempSlot} {u : Unit} :
    (releaseTemp slot).Gives frame code frame' u ↔
      ∃ temps, frame.temps.tryRelease slot = (.ok (), temps) ∧ code = [.instr (.freeTemp slot)] ∧
        frame' = { frame with temps } := by
  rw [releaseTemp, gives_getFrame_bind_iff]
  obtain ⟨result, temps⟩ := frame.temps.tryRelease slot
  simp only [gives_setFrame_bind_iff]
  cases result with
  | error e => simp
  | ok u => simp only [gives_emit_iff, Prod.mk.injEq, true_and, exists_eq_left']

/-! ## Returning -/

theorem gives_returnLabel_iff {l : Label} :
    returnLabel.Gives frame code frame' l ↔
      code = [] ∧
        match frame.returnLabel with
        | some l' => frame' = frame ∧ l = l'
        | none => frame' = { frame with
            labels := (frame.labels.add { name := some "<return>" }).2
            returnLabel := some l } ∧ l = ⟨frame.labels.size⟩ := by
  rw [returnLabel, gives_getFrame_bind_iff]
  cases frame.returnLabel with
  | some l' => rw [gives_pure_iff]
  | none =>
    simp only [gives_bind_iff (x := namedLabel "<return>"), gives_namedLabel_iff,
      gives_getFrame_bind_iff, gives_setFrame_bind_iff, gives_pure_iff]
    constructor
    · rintro ⟨_, _, _, _, ⟨rfl, rfl, rfl⟩, ⟨rfl, rfl, rfl⟩, rfl⟩
      exact ⟨rfl, rfl, rfl⟩
    · rintro ⟨rfl, rfl, rfl⟩
      exact ⟨_, _, [], [], ⟨rfl, rfl, rfl⟩, ⟨rfl, rfl, rfl⟩, rfl⟩

theorem gives_returnSlot?_iff {ty : Ty} {slot : Option TempSlot} :
    (returnSlot? ty).Gives frame code frame' slot ↔
      match frame.returnSlot with
      | some s => code = [] ∧ frame' = frame ∧ slot = some s
      | none =>
        if ty.isVoid then code = [] ∧ frame' = frame ∧ slot = none
        else
          code = allocation (frame.temps.acquire ty).1 (frame.temps.acquire ty).2.1 ty ∧
            frame' = { frame with
              temps := (frame.temps.acquire ty).2.2
              returnSlot := some (frame.temps.acquire ty).1 } ∧
            slot = some (frame.temps.acquire ty).1 := by
  rw [returnSlot?, gives_getFrame_bind_iff]
  cases frame.returnSlot with
  | some s => rw [gives_pure_iff]
  | none =>
    simp only
    split
    · rw [gives_pure_iff]
    · simp only [gives_bind_iff (x := acquireTemp ty), gives_acquireTemp_iff,
        gives_getFrame_bind_iff, gives_setFrame_bind_iff, gives_pure_iff]
      constructor
      · rintro ⟨_, _, _, _, ⟨rfl, rfl, rfl⟩, ⟨rfl, rfl, rfl⟩, rfl⟩
        exact ⟨List.append_nil _, rfl, rfl⟩
      · rintro ⟨rfl, rfl, rfl⟩
        exact ⟨_, _, _, [], ⟨rfl, rfl, rfl⟩, ⟨rfl, rfl, rfl⟩, (List.append_nil _).symm⟩

theorem gives_setState_bind_iff {s : GeneratorState} {f : Unit → Draft β} {b : β} :
    (setState s >>= f).Gives frame code frame' b ↔
      ∃ rest, (f ()).Gives frame rest frame' b ∧
        code = .instr (.constInt s.toInt) :: .instr .storeState :: rest := by
  rw [setState, bind_assoc, gives_emit_bind_iff]
  simp only [gives_emit_bind_iff]
  constructor
  · rintro ⟨_, ⟨rest, h, rfl⟩, rfl⟩
    exact ⟨rest, h, rfl⟩
  · rintro ⟨rest, h, rfl⟩
    exact ⟨_, ⟨rest, h, rfl⟩, rfl⟩

end

end Draft

end StackCode
