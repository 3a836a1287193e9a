import StackCode.Proofs.Refusal.Ledger

/-!
# Fewer labels

The assembler is told how many labels there are.  Where it gets through with all of them, it gets
through with some of them as well, or it finds that one is missing.  Main statement:
`Flow.through_within`.
-/

namespace StackCode

/-- The second computation has no answer, or the first has a similar one, or it stops because the code
generator is broken. -/
def Echoes {α β : Type} (R : α → β → Prop) (r : Except LowerError α) (r' : Except LowerError β) : Prop :=
  ∀ b, r' = .ok b → (∃ a, r = .ok a ∧ R a b) ∨ ∃ e, r = .error e ∧ e.isInternal = true

namespace Echoes

variable {α β γ δ : Type} {R : α → β → Prop} {S : γ → δ → Prop}

theorem ok {a : α} {b : β} (h : R a b) : Echoes R (.ok a) (.ok b) := by
  intro b' hb'
  cases hb'
  exact .inl ⟨a, rfl, h⟩

theorem of_error {r : Except LowerError α} {e : LowerError} : Echoes R r (.error e) := nofun

theorem of_internal {e : LowerError} {r' : Except LowerError β} (h : e.isInternal = true) :
    Echoes R (.error e) r' := fun _ _ => .inr ⟨e, rfl, h⟩

theorem bind {r : Except LowerError α} {r' : Except LowerError β} {f : α → Except LowerError γ}
    {g : β → Except LowerError δ} (h : Echoes R r r') (hf : ∀ a b, R a b → Echoes S (f a) (g b)) :
    Echoes S (r >>= f) (r' >>= g) := by
  cases r' with
  | error e => exact of_error
  | ok b =>
    obtain ⟨a, rfl, hab⟩ | ⟨e, rfl, he⟩ := h b rfl
    · exact hf a b hab
    · exact of_internal he

end Echoes

namespace LabelTable

variable {t t' : LabelTable}

/-- Of every label of the first table, the second knows the same. -/
def Within (t t' : LabelTable) : Prop := ∀ l : Label, l.index < t.size →
  t'.isMarked l = t.isMarked l ∧ t'.isReferenced l = t.isReferenced l

theorem within_of_isBlank (h : t.IsBlank) (h' : t'.IsBlank) : t.Within t' := fun l _ =>
  ⟨(h' l).1.trans (h l).1.symm, (h' l).2.trans (h l).2.symm⟩

theorem Within.grow {u u' : LabelTable} {marks refs : List Label} (h : t.Within t')
    (hgrows : t.Grows u marks refs) (hgrows' : t'.Grows u' marks refs) : u.Within u' := by
  intro l hl
  rw [hgrows.size_eq] at hl
  obtain ⟨hmarked, hreferenced⟩ := h l hl
  constructor
  · rw [Bool.eq_iff_iff, hgrows.isMarked_iff, hgrows'.isMarked_iff, hmarked]
  · rw [Bool.eq_iff_iff, hgrows.isReferenced_iff, hgrows'.isReferenced_iff, hreferenced]

/-- What names a label that there is not is an error of the code generator. -/
theorem mark_of_size_le {l : Label} (h : t.size ≤ l.index) : t.mark l = .error (.unknownLabel l) := by
  have hl : t.find? l = none := Array.getElem?_eq_none h
  unfold LabelTable.mark
  rw [hl]

theorem reference_of_size_le {l : Label} (h : t.size ≤ l.index) :
    t.reference l = .error (.unknownLabel l) := by
  have hl : t.find? l = none := Array.getElem?_eq_none h
  unfold LabelTable.reference
  rw [hl]

theorem Within.mark (h : t.Within t') (l : Label) : Echoes Within (t.mark l) (t'.mark l) := by
  rcases Nat.lt_or_ge l.index t.size with hl | hl
  · intro u' hu'
    obtain ⟨hgrows', hunmarked⟩ := mark_grows hu'
    obtain ⟨u, hu⟩ := exists_mark hl ((h l hl).1.symm.trans hunmarked)
    exact .inl ⟨u, hu, h.grow (mark_grows hu).1 hgrows'⟩
  · rw [mark_of_size_le hl]
    exact .of_internal rfl

theorem Within.reference (h : t.Within t') (l : Label) :
    Echoes Within (t.reference l) (t'.reference l) := by
  rcases Nat.lt_or_ge l.index t.size with hl | hl
  · intro u' hu'
    obtain ⟨u, hu⟩ := exists_reference hl
    exact .inl ⟨u, hu, h.grow (reference_grows hu) (reference_grows hu')⟩
  · rw [reference_of_size_le hl]
    exact .of_internal rfl

theorem Within.referenceAll (h : t.Within t') (ls : List Label) :
    Echoes Within (t.referenceAll ls) (t'.referenceAll ls) := by
  unfold LabelTable.referenceAll
  induction ls generalizing t t' with
  | nil => exact .ok h
  | cons l ls ih =>
    rw [List.foldlM_cons, List.foldlM_cons]
    exact (h.reference l).bind fun _ _ hnext => ih hnext

end LabelTable

namespace Flow

variable {f g : Flow}

/-- The flows differ in labels that only the second knows. -/
structure Within (f g : Flow) : Prop where
  labels : f.labels.Within g.labels
  eq : g = { f with labels := g.labels }

/-- The same instructions come of both, and flows that differ in the labels. -/
def Alike (r r' : List Instr × Flow) : Prop := r'.1 = r.1 ∧ r.2.Within r'.2

theorem Within.emit (h : f.Within g) (i : Instr) : Echoes Alike (f.emit i) (g.emit i) := by
  obtain ⟨hlabels, heq⟩ := h
  have hlive : g.isLive = f.isLive := by rw [heq]
  have hdepth : g.depth = f.depth := by rw [heq]
  unfold Flow.emit
  rw [hlive, hdepth]
  split
  · cases i.depthAfter f.depth with
    | error e => exact .of_error
    | ok depth =>
      refine (hlabels.referenceAll i.targets).bind fun t t' ht => .ok ⟨rfl, ht, ?_⟩
      rw [heq]
  · exact .ok ⟨rfl, hlabels, heq⟩

theorem Within.mark (h : f.Within g) (l : Label) (arrival : Arrival) :
    Echoes Alike (f.mark l arrival) (g.mark l arrival) := by
  obtain ⟨hlabels, heq⟩ := h
  have hlive : g.isLive = f.isLive := by rw [heq]
  have hdepth : g.depth = f.depth := by rw [heq]
  unfold Flow.mark
  rw [hlive, hdepth]
  split
  · exact .of_error
  · rcases Nat.lt_or_ge l.index f.labels.size with hl | hl
    · rw [(hlabels l hl).2]
      refine (hlabels.mark l).bind fun t t' ht => .ok ⟨rfl, ht, ?_⟩
      rw [heq]
    · rw [LabelTable.mark_of_size_le hl]
      exact .of_internal rfl

theorem Within.step (h : f.Within g) (d : Directive) : Echoes Alike (f.step d) (g.step d) := by
  have hlive : g.isLive = f.isLive := by rw [h.eq]
  have hdepth : g.depth = f.depth := by rw [h.eq]
  have hstaged : g.hasStaged = f.hasStaged := by rw [h.eq]
  cases d with
  | instr i => exact h.emit i
  | mark l arrival => exact h.mark l arrival
  | endStatement | endBlock b =>
    simp only [Flow.step, hlive, hdepth]
    split
    · exact .of_error
    · exact .ok ⟨rfl, h⟩
  | stageReturn =>
    refine .ok ⟨rfl, h.labels, ?_⟩
    rw [h.eq]
  | returnPoint l slot =>
    simp only [Flow.step, hstaged]
    split
    · refine (h.mark l .forward).bind fun a b hmarked => ?_
      refine (hmarked.2.emit (.loadTemp slot)).bind fun a' b' hloaded => ?_
      refine (hloaded.2.emit (.ret true)).bind fun a'' b'' hreturned => .ok ⟨?_, hreturned.2⟩
      rw [hmarked.1, hloaded.1, hreturned.1]
    · cases hl : f.labels.isReferenced l with
      | true =>
        have hboth := (h.labels l (LabelTable.lt_size_of_isReferenced hl)).2.trans hl
        rw [hboth, if_pos rfl]
        exact .of_error
      | false =>
        rw [if_neg Bool.false_ne_true]
        split
        · exact .of_error
        · exact .ok ⟨rfl, h⟩

/-- Where directives are assembled with more labels, they are with fewer, or a label is missing. -/
theorem through_within (h : f.Within g) (ds : List Directive) :
    Echoes Within (f.through ds) (g.through ds) := by
  unfold through
  induction ds generalizing f g with
  | nil => exact .ok h
  | cons d ds ih =>
    rw [List.foldlM_cons, List.foldlM_cons]
    refine Echoes.bind (R := Within) ?_ fun _ _ hnext => ih hnext
    exact (h.step d).bind fun _ _ halike => .ok halike.2

end Flow

end StackCode
