import StackCode.LabelTable

/-!
# Label tables as sets

Of a label table the assembler asks three things: how many labels there are, which are marked and
which are referenced.  `LabelTable.Grows` says what a stretch of code does to the three, and every
operation of the table is an instance of it.  Main statements: an operation that succeeds grows the
table (`mark_grows`, `referenceAll_grows`), and it succeeds on labels of the table (`exists_mark`,
`exists_referenceAll`); the final check says that what is referenced is marked (`finish_eq_ok_iff`).
-/

namespace StackCode

namespace LabelTable

/-- `u` is `t` after more labels have been marked and referenced. -/
structure Grows (t u : LabelTable) (marks refs : List Label) : Prop where
  size_eq : u.size = t.size
  isMarked_iff : ∀ l, u.isMarked l = true ↔ t.isMarked l = true ∨ l ∈ marks
  isReferenced_iff : ∀ l, u.isReferenced l = true ↔ t.isReferenced l = true ∨ l ∈ refs

namespace Grows

theorem refl (t : LabelTable) : Grows t t [] [] :=
  ⟨rfl, fun _ => by simp, fun _ => by simp⟩

theorem trans {t u v : LabelTable} {marks refs marks' refs' : List Label}
    (h : Grows t u marks refs) (h' : Grows u v marks' refs') :
    Grows t v (marks ++ marks') (refs ++ refs') := by
  refine ⟨h'.size_eq.trans h.size_eq, fun l => ?_, fun l => ?_⟩
  · rw [h'.isMarked_iff, h.isMarked_iff, List.mem_append, or_assoc]
  · rw [h'.isReferenced_iff, h.isReferenced_iff, List.mem_append, or_assoc]

end Grows

/-- A label that is marked or referenced is one of the table. -/
theorem lt_size_of_isMarked {t : LabelTable} {l : Label} (h : t.isMarked l = true) :
    l.index < t.size := by
  unfold isMarked find? at h
  cases he : t.entries[l.index]? with
  | none => rw [he] at h; cases h
  | some e => exact (Array.getElem?_eq_some_iff.1 he).1

theorem lt_size_of_isReferenced {t : LabelTable} {l : Label} (h : t.isReferenced l = true) :
    l.index < t.size := by
  unfold isReferenced find? at h
  cases he : t.entries[l.index]? with
  | none => rw [he] at h; cases h
  | some e => exact (Array.getElem?_eq_some_iff.1 he).1

/-- One entry replaced: the others are what they were. -/
theorem find?_setIfInBounds {t : LabelTable} {l : Label} {e : LabelEntry} (h : l.index < t.size)
    (k : Label) :
    (LabelTable.mk (t.entries.setIfInBounds l.index e)).find? k =
      if k = l then some e else t.find? k := by
  unfold find?
  rw [Array.getElem?_setIfInBounds]
  by_cases hk : k = l
  · subst hk; simp only [↓reduceIte]; exact if_pos h
  · have hne : l.index ≠ k.index := fun he => hk (by cases k; cases l; cases he; rfl)
    rw [if_neg hne, if_neg hk]

theorem size_setIfInBounds (t : LabelTable) (i : Nat) (e : LabelEntry) :
    (LabelTable.mk (t.entries.setIfInBounds i e)).size = t.size := by
  simp only [size, Array.size_setIfInBounds]

/-! ## Marking -/

theorem mark_grows {t u : LabelTable} {l : Label} (h : t.mark l = .ok u) :
    Grows t u [l] [] ∧ t.isMarked l = false := by
  unfold mark at h
  cases he : t.find? l with
  | none => rw [he] at h; cases h
  | some e =>
    rw [he] at h
    have hl : l.index < t.size := (Array.getElem?_eq_some_iff.1 he).1
    cases hm : e.isMarked with
    | true => simp only [hm, ↓reduceIte] at h; cases h
    | false =>
      simp only [hm, Bool.false_eq_true, ↓reduceIte] at h
      cases h
      refine ⟨⟨size_setIfInBounds .., fun k => ?_, fun k => ?_⟩, ?_⟩
      · unfold isMarked
        rw [find?_setIfInBounds hl]
        by_cases hk : k = l <;> simp [hk]
      · unfold isReferenced
        rw [find?_setIfInBounds hl]
        by_cases hk : k = l
        · subst hk; simp [he]
        · simp [hk]
      · simp only [isMarked, he, Option.any_some, hm]

theorem exists_mark {t : LabelTable} {l : Label} (hl : l.index < t.size)
    (hm : t.isMarked l = false) : ∃ u, t.mark l = .ok u := by
  obtain ⟨e, he⟩ : ∃ e, t.find? l = some e := ⟨_, Array.getElem?_eq_getElem hl⟩
  unfold isMarked at hm
  rw [he, Option.any_some] at hm
  unfold mark
  simp only [he, hm, Bool.false_eq_true, ↓reduceIte]
  exact ⟨_, rfl⟩

/-! ## Referencing -/

theorem reference_grows {t u : LabelTable} {l : Label} (h : t.reference l = .ok u) :
    Grows t u [] [l] := by
  unfold reference at h
  cases he : t.find? l with
  | none => rw [he] at h; cases h
  | some e =>
    rw [he] at h
    have hl : l.index < t.size := (Array.getElem?_eq_some_iff.1 he).1
    cases h
    refine ⟨size_setIfInBounds .., fun k => ?_, fun k => ?_⟩
    · unfold isMarked
      rw [find?_setIfInBounds hl]
      by_cases hk : k = l
      · subst hk; simp [he]
      · simp [hk]
    · unfold isReferenced
      rw [find?_setIfInBounds hl]
      by_cases hk : k = l <;> simp [hk]

theorem exists_reference {t : LabelTable} {l : Label} (hl : l.index < t.size) :
    ∃ u, t.reference l = .ok u := by
  obtain ⟨e, he⟩ : ∃ e, t.find? l = some e := ⟨_, Array.getElem?_eq_getElem hl⟩
  unfold reference
  simp only [he]
  exact ⟨_, rfl⟩

theorem referenceAll_grows {t u : LabelTable} {ls : List Label} (h : t.referenceAll ls = .ok u) :
    Grows t u [] ls := by
  induction ls generalizing t with
  | nil => cases h; exact .refl _
  | cons l ls ih =>
    unfold referenceAll at h
    rw [List.foldlM_cons] at h
    cases hr : t.reference l with
    | error e => rw [hr] at h; cases h
    | ok v =>
      rw [hr] at h
      exact (reference_grows hr).trans (ih h)

theorem exists_referenceAll {t : LabelTable} {ls : List Label} (h : ∀ l ∈ ls, l.index < t.size) :
    ∃ u, t.referenceAll ls = .ok u := by
  induction ls generalizing t with
  | nil => exact ⟨t, rfl⟩
  | cons l ls ih =>
    obtain ⟨v, hv⟩ := exists_reference (h l List.mem_cons_self)
    have hsize : v.size = t.size := (reference_grows hv).size_eq
    obtain ⟨u, hu⟩ := @ih v fun k hk => by rw [hsize]; exact h k (List.mem_cons_of_mem _ hk)
    refine ⟨u, ?_⟩
    unfold referenceAll
    rw [List.foldlM_cons, hv]
    exact hu

@[simp] theorem referenceAll_nil (t : LabelTable) : t.referenceAll [] = .ok t := rfl

/-! ## The final check -/

theorem finish_eq_ok_iff {t : LabelTable} :
    t.finish = .ok () ↔ ∀ l, t.isReferenced l = true → t.isMarked l = true := by
  have hfind : t.finish = .ok () ↔ t.firstUnmarked? = none := by
    unfold finish
    cases t.firstUnmarked? <;> simp
  rw [hfind, firstUnmarked?, Option.map_eq_none_iff, Array.findIdx?_eq_none_iff]
  constructor
  · intro h l hr
    unfold isReferenced at hr
    cases he : t.find? l with
    | none => rw [he] at hr; cases hr
    | some e =>
      rw [he, Option.any_some] at hr
      have := h e (Array.mem_of_getElem? he)
      simpa only [isMarked, he, Option.any_some, hr, Bool.true_and, Bool.not_eq_false'] using this
  · intro h e he
    obtain ⟨i, hi⟩ := Array.mem_iff_getElem?.1 he
    have hi' : t.find? ⟨i⟩ = some e := hi
    have := h ⟨i⟩
    simp only [isReferenced, isMarked, hi', Option.any_some] at this
    cases hr : e.isReferenced
    · rfl
    · rw [this hr]; rfl

/-! ## Blank tables -/

/-- No label has been marked or referenced. -/
def IsBlank (t : LabelTable) : Prop := ∀ l, t.isMarked l = false ∧ t.isReferenced l = false

theorem isBlank_empty : IsBlank {} := fun _ => ⟨rfl, rfl⟩

theorem isBlank_add {t : LabelTable} (h : t.IsBlank) (name : Option String) :
    (t.add { name }).2.IsBlank := by
  intro l
  have hl := h l
  simp only [isMarked, isReferenced, find?, add, Array.getElem?_push] at hl ⊢
  split
  · exact ⟨rfl, rfl⟩
  · exact hl

theorem isBlank_reserve {t : LabelTable} (h : t.IsBlank) (n : Nat) : (t.reserve n).IsBlank := by
  intro l
  have hl := h l
  simp only [isMarked, isReferenced, find?, reserve, Array.getElem?_append] at hl ⊢
  split
  · exact hl
  · rw [Array.getElem?_replicate]
    split <;> exact ⟨rfl, rfl⟩

end LabelTable

end StackCode
