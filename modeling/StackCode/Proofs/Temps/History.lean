import StackCode.Proofs.Debugging.Front
import StackCode.Proofs.Layout.Slots

/-!
# The history of a pool

What some code does with each temporary, against the pool of the draft that the code comes from: the
slots of the pool have been declared in their order; what is done with a slot begins with its declaration,
and if the slot is idle, ends with the end of a use; and the slots of the debugger's views have been
filled and nothing else.  There is one lemma for each thing that can happen to a pool.
-/

namespace StackCode

namespace Instr

/-- The temporary that an instruction mentions. -/
def temp? : Instr → Option TempSlot
  | .loadTemp s | .storeTemp s | .allocTemp s _ | .freeTemp s => some s
  | _ => none

/-- Declares a temporary. -/
def isAlloc : Instr → Bool
  | .allocTemp _ _ => true
  | _ => false

theorem temp?_of_isPlain {i : Instr} (h : i.isPlain = true) : i.temp? = none := by
  cases i <;> first | rfl | cases h

theorem exists_temp?_of_isAlloc {i : Instr} (h : i.isAlloc = true) : ∃ s, i.temp? = some s := by
  cases i <;> first | exact ⟨_, rfl⟩ | cases h

end Instr

/-- What some code does with a temporary, in its order. -/
def usesOf (s : TempSlot) (code : List Instr) : List Instr :=
  code.filter fun i => i.temp? = some s

theorem usesOf_append (s : TempSlot) (code code' : List Instr) :
    usesOf s (code ++ code') = usesOf s code ++ usesOf s code' := List.filter_append ..

theorem usesOf_eq_nil {s : TempSlot} {code : List Instr} (h : ∀ i ∈ code, i.temp? ≠ some s) :
    usesOf s code = [] := List.filter_eq_nil_iff.2 fun i hi => by simpa using h i hi

/-- The declaration of a slot, if it is a new one. -/
def declaration (slot : TempSlot) (isNew : Bool) (ty : Ty) : List Instr :=
  if isNew then [.allocTemp slot ty] else []

theorem isNote_declaration (slot : TempSlot) (isNew : Bool) (ty : Ty) :
    ∀ i ∈ declaration slot isNew ty, i.isNote = true := by
  unfold declaration
  split
  · exact List.forall_mem_singleton.2 rfl
  · nofun

namespace TempPool

/-- What some code has done with the slots of a pool, where `views` are those of a debugger's views. -/
structure History (p : TempPool) (views : List TempSlot) (code : List Instr) : Prop where
  declared : code.filter Instr.isAlloc = p.types.toList.mapIdx fun k ty => .allocTemp ⟨k⟩ ty
  begins : ∀ (k : Nat) (ty : Ty), p.types[k]? = some ty →
    ∃ uses, usesOf ⟨k⟩ code = .allocTemp ⟨k⟩ ty :: uses
  unborn : ∀ s : TempSlot, p.size ≤ s.index → usesOf s code = []
  ends : ∀ s : TempSlot, s.index < p.size → p.inUse s = false → (usesOf s code).getLast? = some (.freeTemp s)
  filled : ∀ s ∈ views, usesOf s code = [.allocTemp s .value, .storeTemp s]

namespace History

variable {p q : TempPool} {views : List TempSlot} {code : List Instr}

theorem empty : ({} : TempPool).History [] [] where
  declared := rfl
  begins _ _ := nofun
  unborn _ _ := rfl
  ends _ := nofun
  filled _ := nofun

/-- It says as much of a pool of which more slots are checked out. -/
theorem mono (h : p.History views code) (htypes : q.types = p.types)
    (hused : ∀ s, p.inUse s = true → q.inUse s = true) : q.History views code := by
  have hsize : q.size = p.size := congrArg Array.size htypes
  refine ⟨by rw [htypes]; exact h.declared, fun k ty hty => h.begins k ty (by rwa [← htypes]),
    fun s hs => h.unborn s (hsize ▸ hs), fun s hs hidle => h.ends s (hsize ▸ hs) ?_, h.filled⟩
  exact Bool.eq_false_iff.2 fun hin => Bool.eq_false_iff.1 hidle (hused s hin)

/-- A slot that is mentioned has been declared. -/
theorem lt_size (h : p.History views code) {s : TempSlot} {i : Instr} (hi : i ∈ code)
    (hs : i.temp? = some s) : s.index < p.size := by
  by_contra hge
  have hmem : i ∈ usesOf s code := List.mem_filter.2 ⟨hi, by simpa using hs⟩
  rw [h.unborn s (Nat.not_lt.1 hge)] at hmem
  cases hmem

theorem view_lt_size (h : p.History views code) {s : TempSlot} (hs : s ∈ views) :
    s.index < p.size := by
  by_contra hge
  have hfilled := h.filled s hs
  rw [h.unborn s (Nat.not_lt.1 hge)] at hfilled
  cases hfilled

/-- What a slot that is back in the pool was used for, from its declaration on. -/
theorem closed (h : p.History views code) {k : Nat} {ty : Ty} (hty : p.types[k]? = some ty)
    (hidle : p.inUse ⟨k⟩ = false) :
    ∃ uses, usesOf ⟨k⟩ code = .allocTemp ⟨k⟩ ty :: (uses ++ [.freeTemp ⟨k⟩]) := by
  obtain ⟨uses, huses⟩ := h.begins k ty hty
  have hends := h.ends ⟨k⟩ (Array.getElem?_eq_some_iff.1 hty).1 hidle
  rw [huses] at hends ⊢
  cases uses using List.reverseRecOn with
  | nil => cases hends
  | append_singleton uses last =>
    rw [← List.cons_append, List.getLast?_concat] at hends
    exact ⟨uses, by rw [Option.some_inj.1 hends]⟩

/-- More code that only stores to and loads from slots that are checked out, those of the views apart. -/
theorem uses (h : p.History views code) (seg : List Instr) (hseg : ∀ i ∈ seg, ∀ s, i.temp? = some s →
    i.isAlloc = false ∧ p.inUse s = true ∧ s ∉ views) : p.History views (code ++ seg) := by
  have hnone {s : TempSlot} (hs : p.inUse s = true → s ∈ views) : usesOf s seg = [] :=
    usesOf_eq_nil fun i hi hi' => (hseg i hi s hi').2.2 (hs (hseg i hi s hi').2.1)
  refine ⟨?_, fun k ty hty => ?_, fun s hs => ?_, fun s hs hidle => ?_, fun s hs => ?_⟩
  · have hnil : seg.filter Instr.isAlloc = [] := List.filter_eq_nil_iff.2 fun i hi halloc => by
      obtain ⟨s, hs⟩ := Instr.exists_temp?_of_isAlloc halloc
      rw [(hseg i hi s hs).1] at halloc
      cases halloc
    rw [List.filter_append, hnil, List.append_nil, h.declared]
  · obtain ⟨uses, huses⟩ := h.begins k ty hty
    exact ⟨uses ++ usesOf ⟨k⟩ seg, by rw [usesOf_append, huses, List.cons_append]⟩
  · rw [usesOf_append, h.unborn s hs, hnone fun hin => ?_, List.append_nil]
    exact absurd (lt_size_of_inUse hin) (Nat.not_lt.2 hs)
  · rw [usesOf_append, hnone fun hin => ?_, List.append_nil]
    · exact h.ends s hs hidle
    · rw [hidle] at hin
      cases hin
  · rw [usesOf_append, hnone fun _ => hs, List.append_nil, h.filled s hs]

/-- More code that mentions no temporary. -/
theorem spares (h : p.History views code) {seg : List Instr} (hseg : ∀ i ∈ seg, i.temp? = none) :
    p.History views (code ++ seg) :=
  h.uses seg fun i hi s hs => by
    rw [hseg i hi] at hs
    cases hs

/-- A new slot is declared. -/
theorem grow (h : p.History views code) (ty : Ty) :
    (p.grow ty).History views (code ++ [.allocTemp ⟨p.size⟩ ty]) := by
  have hsize : (p.grow ty).size = p.size + 1 := Array.size_push _
  have hother {s : TempSlot} (hs : s.index ≠ p.size) :
      usesOf s (code ++ [.allocTemp ⟨p.size⟩ ty]) = usesOf s code := by
    have hnone : usesOf s [.allocTemp ⟨p.size⟩ ty] = [] :=
      usesOf_eq_nil (List.forall_mem_singleton.2 fun heq => hs (by cases heq; rfl))
    rw [usesOf_append, hnone, List.append_nil]
  refine ⟨?_, fun k ty' hty => ?_, fun s hs => ?_, fun s hs hidle => ?_, fun s hs => ?_⟩
  · change _ = (p.types.push ty).toList.mapIdx _
    rw [List.filter_append, h.declared, Array.toList_push, List.mapIdx_concat, Array.length_toList]
    rfl
  · change (p.types.push ty)[k]? = some ty' at hty
    rw [Array.getElem?_push] at hty
    split at hty
    · next heq =>
      cases hty
      subst heq
      refine ⟨[], ?_⟩
      rw [usesOf_append, h.unborn ⟨p.types.size⟩ (Nat.le_refl _)]
      simp [usesOf, Instr.temp?, size]
    · next hne =>
      rw [hother hne]
      exact h.begins k ty' hty
  · rw [hother (by omega)]
    exact h.unborn s (by omega)
  · have hnot := fun hor => Bool.eq_false_iff.1 hidle ((p.inUse_grow ty s).2 hor)
    have hne : s.index ≠ p.size := fun heq => hnot (.inl (congrArg TempSlot.mk heq))
    rw [hother hne]
    exact h.ends s (by omega) (Bool.eq_false_iff.2 fun hin => hnot (.inr hin))
  · rw [hother (Nat.ne_of_lt (h.view_lt_size hs))]
    exact h.filled s hs

/-- The declaration of a slot that is checked out, if it is a new one. -/
theorem acquire (h : p.History views code) (ty : Ty) :
    (p.acquire ty).2.2.History views
      (code ++ declaration (p.acquire ty).1 (p.acquire ty).2.1 ty) := by
  rcases p.acquire_cases ty with ⟨rest, -, hnew, htable⟩ | ⟨-, hslot, hnew, htable⟩
  · rw [hnew]
    refine (h.mono (by rw [htable]; rfl) fun s hs => ((p.acquire_spec ty).2 s).2 (.inr hs)).spares ?_
    exact nofun
  · rw [hslot, hnew, htable]
    exact h.grow ty

/-- A slot is handed back, with the end of its use behind. -/
theorem release (h : p.History views code) {s : TempSlot} (hrelease : p.tryRelease s = (.ok (), q))
    (hs : s ∉ views) : q.History views (code ++ [.freeTemp s]) := by
  obtain ⟨hin, htypes⟩ := tryRelease_spec hrelease
  have hsize : q.size = p.size := congrArg Array.size htypes
  have hused := h.uses [.freeTemp s] (List.forall_mem_singleton.2 fun t ht => by
    cases ht
    exact ⟨rfl, hin, hs⟩)
  refine ⟨by rw [htypes]; exact hused.declared, fun k ty hty => hused.begins k ty (by rwa [← htypes]),
    fun t ht => hused.unborn t (hsize ▸ ht), fun t ht hidle => ?_, hused.filled⟩
  by_cases hts : t = s
  · subst hts
    rw [usesOf_append]
    simp [usesOf, Instr.temp?]
  · refine hused.ends t (hsize ▸ ht) (Bool.eq_false_iff.2 fun hin => ?_)
    exact Bool.eq_false_iff.1 hidle ((inUse_of_tryRelease hrelease t).2 ⟨hts, hin⟩)

/-- A new slot is filled for one more view of the debugger. -/
theorem view (h : p.History views code) (array : LocalId) (name : Name) :
    (p.grow .value).History (views ++ [⟨p.size⟩]) (code ++ viewCode array (name, ⟨p.size⟩)) := by
  have hgrown := h.grow .value
  have hfilled := hgrown.uses [.loadLocal array, .constStr name, .callIntrinsic .indirectLocal,
    .storeTemp ⟨p.size⟩] (by
    refine List.forall_mem_cons.2 ⟨nofun, List.forall_mem_cons.2 ⟨nofun, List.forall_mem_cons.2
      ⟨nofun, List.forall_mem_singleton.2 fun s hs => ?_⟩⟩⟩
    cases hs
    refine ⟨rfl, (p.inUse_grow .value _).2 (.inl rfl), fun hmem => ?_⟩
    exact absurd (h.view_lt_size hmem) (Nat.lt_irrefl _))
  rw [List.append_assoc] at hfilled
  refine ⟨hfilled.declared, hfilled.begins, hfilled.unborn, hfilled.ends, fun s hs => ?_⟩
  rcases List.mem_append.1 hs with hs | hs
  · exact hfilled.filled s hs
  · rw [List.mem_singleton.1 hs, usesOf_append, h.unborn ⟨p.size⟩ (Nat.le_refl _)]
    simp [usesOf, Instr.temp?, Instr.callIntrinsic, viewCode]

/-- New slots are filled for the debugger's views of some variables. -/
theorem view_all (h : p.History views code) (array : LocalId) (vars : List Local)
    (htypes : q.types = p.types ++ Array.replicate vars.length .value)
    (hflags : q.flags = p.flags ++ Array.replicate vars.length true) :
    q.History (views ++ (viewsOf p.size vars).map Prod.snd)
      (code ++ (viewsOf p.size vars).flatMap (viewCode array)) := by
  induction vars generalizing p views code with
  | nil =>
    simp only [viewsOf, List.zipIdx_nil, List.map_nil, List.flatMap_nil, List.append_nil]
    have hsame : q.flags = p.flags := by simpa using hflags
    exact h.mono (by simpa using htypes) fun s hs => by rw [inUse, hsame]; exact hs
  | cons v vars ih =>
    have hsize : (p.grow .value).size = p.size + 1 := Array.size_push _
    have hrest := ih (h.view array v.name) (by
      rw [htypes, List.length_cons, Array.replicate_succ']
      simp [TempPool.grow, SlotTable.grow]) (by
      rw [hflags, List.length_cons, Array.replicate_succ']
      simp [TempPool.grow, SlotTable.grow])
    rw [hsize] at hrest
    simpa [viewsOf] using hrest

/-- The views of a procedure are filled by a pool that has no other slots. -/
theorem viewsCode (h : ({} : TempPool).History [] code) (p : Procedure) (o : Options)
    (labels : LabelTable) :
    (({ labels } : Frame).behind (p.views o)).temps.History ((p.views o).map Prod.snd)
      (code ++ p.viewsCode o) := by
  have hlength : (p.views o).length = (p.viewed o).length := by
    simp [Procedure.views, viewsOf]
  unfold Procedure.viewsCode
  cases harray : p.localsArray with
  | some array =>
    refine h.view_all array (p.viewed o) ?_ ?_ <;>
      simp [Frame.behind, TempPool.behind, SlotTable.behind, hlength]
  | none =>
    have hviews : p.views o = [] := by
      unfold Procedure.views Procedure.viewed
      rw [harray]
      rfl
    rw [hviews, List.append_nil]
    refine h.mono (by simp [Frame.behind, TempPool.behind, SlotTable.behind]) fun s hs => ?_
    simp [inUse] at hs

end History

end TempPool

end StackCode
