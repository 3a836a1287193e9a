import StackCode.Fragment.Stmt
import StackCode.Proofs.Draft.Gives

/-!
# Fragments and drafts that succeed

Whether writing stops somewhere.  What is made of parts succeeds if the parts do one after the other;
allotting labels and temporaries always does.
-/

namespace StackCode

namespace Fragment

variable {α β : Type}

/-- Writing does not stop. -/
def Succeeds (x : Fragment α) : Prop := ∃ a, x.result = .ok a

theorem succeeds_bind_iff {x : Fragment α} {f : α → Fragment β} :
    (x >>= f).Succeeds ↔ ∃ a, x.result = .ok a ∧ (f a).Succeeds := by
  constructor
  · rintro ⟨b, h⟩
    obtain ⟨a, ha, hb, -⟩ := bind_eq_ok h
    exact ⟨a, ha, b, hb⟩
  · rintro ⟨a, ha, b, hb⟩
    refine ⟨b, ?_⟩
    rw [bind_of_ok ha]
    exact hb

theorem succeeds_bind_unit_iff {x : Fragment Unit} {f : Unit → Fragment β} :
    (x >>= f).Succeeds ↔ x.Succeeds ∧ (f ()).Succeeds := by
  rw [succeeds_bind_iff]
  exact ⟨fun ⟨a, ha, hf⟩ => ⟨⟨a, ha⟩, hf⟩, fun ⟨⟨a, ha⟩, hf⟩ => ⟨a, ha, hf⟩⟩

theorem succeeds_emit (i : Instr) : (emit i).Succeeds := ⟨(), rfl⟩

theorem succeeds_pure (a : α) : (pure a : Fragment α).Succeeds := ⟨a, rfl⟩

theorem succeeds_callWithName (i : Intrinsic) (name : Name) : (callWithName i name).Succeeds :=
  ⟨(), rfl⟩

end Fragment

namespace Draft

section
variable {α β : Type} {frame : Frame}

/-- The draft gets from a frame to its end. -/
def Succeeds (x : Draft α) (frame : Frame) : Prop := ∃ ds frame' a, x.Gives frame ds frame' a

theorem succeeds_bind_iff {x : Draft α} {f : α → Draft β} :
    (x >>= f).Succeeds frame ↔ ∃ ds mid a, x.Gives frame ds mid a ∧ (f a).Succeeds mid := by
  constructor
  · rintro ⟨ds, frame', b, h⟩
    obtain ⟨a, mid, ds₁, ds₂, h₁, h₂, rfl⟩ := gives_bind_iff.1 h
    exact ⟨ds₁, mid, a, h₁, ds₂, frame', b, h₂⟩
  · rintro ⟨ds₁, mid, a, h₁, ds₂, frame', b, h₂⟩
    exact ⟨ds₁ ++ ds₂, frame', b, gives_bind_iff.2 ⟨a, mid, ds₁, ds₂, h₁, h₂, rfl⟩⟩

/-- Behind a part that succeeds, only the rest matters. -/
theorem succeeds_bind_of {x : Draft α} {f : α → Draft β} {P : Prop} (hx : x.Succeeds frame)
    (hf : ∀ ds mid a, x.Gives frame ds mid a → ((f a).Succeeds mid ↔ P)) :
    (x >>= f).Succeeds frame ↔ P := by
  rw [succeeds_bind_iff]
  constructor
  · rintro ⟨ds, mid, a, h, h'⟩
    exact (hf ds mid a h).1 h'
  · intro hP
    obtain ⟨ds, mid, a, h⟩ := hx
    exact ⟨ds, mid, a, h, (hf ds mid a h).2 hP⟩

@[simp] theorem succeeds_pure (a : α) : (pure a : Draft α).Succeeds frame :=
  ⟨[], frame, a, gives_pure_iff.2 ⟨rfl, rfl, rfl⟩⟩

@[simp] theorem succeeds_directive (d : Directive) : (directive d).Succeeds frame :=
  ⟨[d], frame, (), gives_directive_iff.2 ⟨rfl, rfl⟩⟩

@[simp] theorem succeeds_emit (i : Instr) : (emit i).Succeeds frame := succeeds_directive _

@[simp] theorem succeeds_mark (l : Label) (arrival : Arrival) :
    (mark l arrival).Succeeds frame := succeeds_directive _

@[simp] theorem not_succeeds_fail (e : LowerError) : ¬ (fail e : Draft α).Succeeds frame :=
  fun ⟨_, _, _, h⟩ => not_gives_fail h

@[simp] theorem succeeds_ofFragment_iff {x : Fragment α} :
    (ofFragment x).Succeeds frame ↔ x.Succeeds := by
  constructor
  · rintro ⟨ds, frame', a, h⟩
    exact ⟨a, (gives_ofFragment_iff.1 h).2.2⟩
  · rintro ⟨a, ha⟩
    exact ⟨_, _, a, gives_ofFragment_iff.2 ⟨rfl, rfl, ha⟩⟩

@[simp] theorem succeeds_pure_bind_iff {a : α} {f : α → Draft β} :
    (pure a >>= f).Succeeds frame ↔ (f a).Succeeds frame := by
  rw [pure_bind]

@[simp] theorem succeeds_directive_bind_iff {d : Directive} {f : Unit → Draft β} :
    (directive d >>= f).Succeeds frame ↔ (f ()).Succeeds frame := by
  refine succeeds_bind_of (succeeds_directive d) fun ds mid u h => ?_
  obtain ⟨-, rfl⟩ := gives_directive_iff.1 h
  rfl

@[simp] theorem succeeds_emit_bind_iff {i : Instr} {f : Unit → Draft β} :
    (emit i >>= f).Succeeds frame ↔ (f ()).Succeeds frame := succeeds_directive_bind_iff

@[simp] theorem succeeds_mark_bind_iff {l : Label} {arrival : Arrival} {f : Unit → Draft β} :
    (mark l arrival >>= f).Succeeds frame ↔ (f ()).Succeeds frame := succeeds_directive_bind_iff

theorem succeeds_ofFragment_bind_iff {x : Fragment α} {f : α → Draft β} :
    (ofFragment x >>= f).Succeeds frame ↔ ∃ a, x.result = .ok a ∧ (f a).Succeeds frame := by
  rw [succeeds_bind_iff]
  constructor
  · rintro ⟨ds, mid, a, h, hf⟩
    obtain ⟨-, rfl, ha⟩ := gives_ofFragment_iff.1 h
    exact ⟨a, ha, hf⟩
  · rintro ⟨a, ha, hf⟩
    exact ⟨_, frame, a, gives_ofFragment_iff.2 ⟨rfl, rfl, ha⟩, hf⟩

/-- Straight-line code in front, which answers nothing. -/
theorem succeeds_ofFragment_bind_unit_iff {x : Fragment Unit} {f : Unit → Draft β} :
    (ofFragment x >>= f).Succeeds frame ↔ x.Succeeds ∧ (f ()).Succeeds frame := by
  rw [succeeds_ofFragment_bind_iff]
  exact ⟨fun ⟨a, ha, hf⟩ => ⟨⟨a, ha⟩, hf⟩, fun ⟨⟨a, ha⟩, hf⟩ => ⟨a, ha, hf⟩⟩

@[simp] theorem succeeds_getFrame_bind_iff {f : Frame → Draft β} :
    (getFrame >>= f).Succeeds frame ↔ (f frame).Succeeds frame := by
  unfold Succeeds
  simp only [gives_getFrame_bind_iff]

@[simp] theorem succeeds_setFrame_bind_iff {set : Frame} {f : Unit → Draft β} :
    (setFrame set >>= f).Succeeds frame ↔ (f ()).Succeeds set := by
  unfold Succeeds
  simp only [gives_setFrame_bind_iff]

@[simp] theorem succeeds_setFrame (set : Frame) : (setFrame set).Succeeds frame :=
  ⟨[], set, (), gives_setFrame_iff.2 ⟨rfl, rfl⟩⟩

/-! ## Labels and temporaries -/

theorem succeeds_freshLabel : freshLabel.Succeeds frame :=
  ⟨_, _, _, gives_freshLabel_iff.2 ⟨rfl, rfl, rfl⟩⟩

theorem succeeds_namedLabel (name : String) : (namedLabel name).Succeeds frame :=
  ⟨_, _, _, gives_namedLabel_iff.2 ⟨rfl, rfl, rfl⟩⟩

theorem succeeds_acquireTemp (ty : Ty) : (acquireTemp ty).Succeeds frame :=
  ⟨_, _, _, gives_acquireTemp_iff.2 ⟨rfl, rfl, rfl⟩⟩

theorem succeeds_returnLabel : returnLabel.Succeeds frame := by
  unfold returnLabel
  rw [succeeds_getFrame_bind_iff]
  cases frame.returnLabel with
  | some l => exact succeeds_pure l
  | none =>
    refine (succeeds_bind_of (P := True) (succeeds_namedLabel _) fun ds mid l _ => ?_).2 trivial
    rw [succeeds_getFrame_bind_iff, succeeds_setFrame_bind_iff]
    exact iff_of_true (succeeds_pure l) trivial

theorem succeeds_returnSlot? (ty : Ty) : (returnSlot? ty).Succeeds frame := by
  unfold returnSlot?
  rw [succeeds_getFrame_bind_iff]
  cases frame.returnSlot with
  | some slot => exact succeeds_pure _
  | none =>
    simp only
    split
    · exact succeeds_pure _
    · refine (succeeds_bind_of (P := True) (succeeds_acquireTemp _) fun ds mid s _ => ?_).2 trivial
      rw [succeeds_getFrame_bind_iff, succeeds_setFrame_bind_iff]
      exact iff_of_true (succeeds_pure _) trivial

@[simp] theorem succeeds_setState_bind_iff {s : GeneratorState} {f : Unit → Draft β} :
    (setState s >>= f).Succeeds frame ↔ (f ()).Succeeds frame := by
  rw [setState, bind_assoc, succeeds_emit_bind_iff, succeeds_emit_bind_iff]

end

end Draft

end StackCode
