import StackCode.Proofs.Entry.Opened
import StackCode.Proofs.Returns.Paths
import StackCode.Proofs.Temps.Lends

/-!
# Temporaries in the code

What the assembler leaves of the uses of temporaries.  Declarations and ends of uses stand in the code
whether control gets there or not, so the code is the history of the pool; a value is loaded from a slot
only where it has been stored right before, or where a return value is fetched.  Main statement:
`Plan.Lowered.manages`.
-/

namespace StackCode

/-! ## What directives come to -/

/-- The code of a directive mentions no other temporary than the directive. -/
theorem Flow.temp?_of_step {f g : Flow} {d : Directive} {instrs : List Instr} {i : Instr}
    {s : TempSlot} (h : f.step d = .ok (instrs, g)) (hi : i ∈ instrs) (hs : i.temp? = some s) :
    d.temp? = some s := by
  rcases mem_of_step h hi with rfl | ⟨l, -, rfl⟩ | ⟨l, slot, rfl, rfl | rfl⟩
  · exact hs
  · cases hs
  · exact hs
  · cases hs

namespace Assembles

variable {f g : Flow} {ds : List Directive} {code : List Instr}

theorem temp?_eq_none (ha : Assembles f ds code g) (hds : ∀ d ∈ ds, d.temp? = none) :
    ∀ i ∈ code, i.temp? = none := by
  induction ha with
  | nil => nofun
  | cons hstep _ ih =>
    obtain ⟨hd, hds⟩ := List.forall_mem_cons.1 hds
    refine List.forall_mem_append.2 ⟨fun i hi => ?_, ih hds⟩
    by_contra hne
    obtain ⟨s, hs⟩ := Option.ne_none_iff_exists'.1 hne
    rw [Flow.temp?_of_step hstep hi hs] at hd
    cases hd

/-- The declaration of a slot stands in the code, if it is a new one. -/
theorem allocation {slot : TempSlot} {isNew : Bool} {ty : Ty}
    (ha : Assembles f (Draft.allocation slot isNew ty) code g) :
    code = declaration slot isNew ty := by
  unfold Draft.allocation at ha
  cases isNew with
  | false => exact (nil_iff.1 ha).1
  | true =>
    have ha : Assembles f ([.allocTemp slot ty].map .instr) code g := ha
    exact (ha.of_notes (List.forall_mem_singleton.2 rfl)).1

/-- Instructions that control passes, and one more, come to themselves or, where control does not get,
to nothing. -/
theorem of_straight (front : List Instr) (last : Instr)
    (hfront : ∀ i ∈ front, i.passes = true) (hnotes : ∀ i ∈ front ++ [last], i.isBookkeeping = false)
    (ha : Assembles f ((front ++ [last]).map .instr) code g) : code = front ++ [last] ∨ code = [] := by
  cases hf : f.isLive with
  | false => exact .inr (ha.of_dead_instrs hf hnotes).1
  | true =>
    rw [List.map_append] at ha
    obtain ⟨f', _, _, hpasses, hlast, rfl⟩ := append_iff.1 ha
    obtain ⟨rfl, hf', -⟩ := of_passes hfront hf hpasses
    obtain ⟨rfl, -⟩ := Flow.step_live hf' (singleton_iff.1 hlast)
    exact .inl rfl

end Assembles

theorem FetchesAt.append {code : List Instr} {k : Nat} {slot : TempSlot} (h : FetchesAt code k slot)
    (front back : List Instr) : FetchesAt (front ++ (code ++ back)) (front.length + k) slot := by
  have hget {n : Nat} {i : Instr} (hn : code[n]? = some i) :
      (front ++ (code ++ back))[front.length + n]? = some i := by
    rw [List.getElem?_append_right (Nat.le_add_right _ _), Nat.add_sub_cancel_left,
      List.getElem?_append_left (List.getElem?_eq_some_iff.1 hn).1, hn]
  exact ⟨hget h.1, hget h.2⟩

namespace Plan

variable {c : Plan} {frame frame' : Frame} {ds : List Directive} {f g : Flow}
  {code seg : List Instr} {slot : TempSlot}

/-! ## Errands -/

/-- Where a slot is borrowed, the store at one position of the code and the load at another serve one
errand: the dispatch of a generator, or the handler of a region that receives the exception into the
locals array, right behind its label. -/
inductive Borrows (c : Plan) (code : List Instr) (slot : TempSlot) : Nat → Nat → Prop
  | dispatch {pre post : List Instr} {start : Label} (hgen : c.procedure.isGenerator = true)
      (hcode : code = pre ++ ([.loadState, .storeTemp slot,
        .constInt GeneratorState.running.toInt, .storeState, .loadTemp slot,
        .switch c.resume.points start] ++ post)) :
      Borrows c code slot (pre.length + 1) (pre.length + 4)
  | receive {pre notes post : List Instr} {b : BlockId} {l : Label} {id array : LocalId} {key : Name}
      {ty : Ty} (hlabel : c.label? b = some l) (hcaught : c.caught? b = some (some id))
      (hplace : c.procedure.place id = .ok (.entry array key ty))
      (hnotes : ∀ i ∈ notes, i.isNote = true)
      (hcode : code = pre ++ .markLabel l :: notes ++ ([.storeTemp slot, .loadLocal array,
        .constStr key, .loadTemp slot, .callIntrinsic .arraySet] ++ post)) :
      Borrows c code slot (pre ++ .markLabel l :: notes).length
        ((pre ++ .markLabel l :: notes).length + 3)

theorem Borrows.append {q k : Nat} (h : c.Borrows code slot q k) (front back : List Instr) :
    c.Borrows (front ++ (code ++ back)) slot (front.length + q) (front.length + k) := by
  cases h with
  | @dispatch pre post start hgen hcode =>
    have hall : c.Borrows (front ++ pre ++ ([.loadState, .storeTemp slot,
        .constInt GeneratorState.running.toInt, .storeState, .loadTemp slot,
        .switch c.resume.points start] ++ (post ++ back))) slot ((front ++ pre).length + 1)
        ((front ++ pre).length + 4) := .dispatch hgen rfl
    rw [hcode]
    simpa [Nat.add_assoc] using hall
  | @receive pre notes post b l id array key ty hlabel hcaught hplace hnotes hcode =>
    have hall : c.Borrows (front ++ pre ++ .markLabel l :: notes ++ ([.storeTemp slot,
        .loadLocal array, .constStr key, .loadTemp slot, .callIntrinsic .arraySet] ++ (post ++ back)))
        slot (front ++ pre ++ .markLabel l :: notes).length
        ((front ++ pre ++ .markLabel l :: notes).length + 3) :=
      .receive hlabel hcaught hplace hnotes rfl
    rw [hcode]
    simpa [Nat.add_assoc] using hall

/-- What is loaded is returned, by an ordinary procedure, or has been stored for the same errand. -/
def Fetches (c : Plan) (code : List Instr) : Prop :=
  ∀ k slot, code[k]? = some (.loadTemp slot) →
    (c.procedure.isGenerator = false ∧ FetchesAt code k slot) ∨ ∃ q, c.Borrows code slot q k

theorem fetches_of_temp? (h : ∀ i ∈ code, i.temp? = none) : c.Fetches code := by
  intro k slot hk
  cases h _ (List.mem_of_getElem? hk)

theorem fetches_of_notes (h : ∀ i ∈ code, i.isNote = true) : c.Fetches code := by
  intro k slot hk
  cases h _ (List.mem_of_getElem? hk)

theorem Fetches.append (h : c.Fetches code) (h' : c.Fetches seg) : c.Fetches (code ++ seg) := by
  intro k slot hk
  by_cases hlt : k < code.length
  · rw [List.getElem?_append_left hlt] at hk
    refine (h k slot hk).imp (fun ⟨hgen, hk⟩ => ⟨hgen, ?_⟩) fun ⟨q, hq⟩ => ⟨q, ?_⟩
    · simpa using hk.append [] seg
    · simpa using hq.append [] seg
  · obtain ⟨k, rfl⟩ := Nat.exists_eq_add_of_le (Nat.not_lt.1 hlt)
    rw [List.getElem?_append_right (Nat.le_add_right _ _), Nat.add_sub_cancel_left] at hk
    refine (h' k slot hk).imp (fun ⟨hgen, hk⟩ => ⟨hgen, ?_⟩) fun ⟨q, hq⟩ => ⟨code.length + q, ?_⟩
    · simpa using hk.append code []
    · simpa using hq.append code []

namespace Errand

variable {lead : List Directive} {body : List Instr}

theorem lead_temp? (h : c.Errand slot lead body) : ∀ d ∈ lead, d.temp? = none := by
  cases h with
  | dispatch => nofun
  | receive => exact List.forall_mem_singleton.2 rfl

/-- An errand stores to its slot and loads from it. -/
theorem body_temp? (h : c.Errand slot lead body) :
    ∀ i ∈ body, ∀ s, i.temp? = some s → i.isAlloc = false ∧ s = slot := by
  intro i hi s hs
  cases h <;> simp only [List.mem_cons, List.not_mem_nil, or_false] at hi <;>
    rcases hi with rfl | rfl | rfl | rfl | rfl | rfl <;> cases hs <;> exact ⟨rfl, rfl⟩

/-- An errand is run as a whole or not at all. -/
theorem assembles (h : c.Errand slot lead body) (ha : Assembles f (body.map .instr) seg g) :
    seg = body ∨ seg = [] := by
  cases h with
  | dispatch start _ =>
    refine Assembles.of_straight [.loadState, .storeTemp slot,
      .constInt GeneratorState.running.toInt, .storeState, .loadTemp slot]
      (.switch c.resume.points start) ?_ ?_ ha
    · simp [Instr.passes, Instr.isNote, Instr.isStraight, Instr.targets, Instr.isBookkeeping,
        Instr.endsFlow]
    · simp [Instr.isBookkeeping]
  | @receive _ _ _ array key =>
    refine Assembles.of_straight [.storeTemp slot, .loadLocal array, .constStr key, .loadTemp slot]
      (.callIntrinsic .arraySet) ?_ ?_ ha
    · simp [Instr.passes, Instr.isNote, Instr.isStraight, Instr.targets, Instr.isBookkeeping,
        Instr.endsFlow]
    · simp [Instr.isBookkeeping, Instr.callIntrinsic]

/-- A borrowed slot in the code: what leads to it, its declaration if it is new, the errand if it is run,
and the end of the use. -/
theorem parts {isNew : Bool} {ty : Ty} (h : c.Errand slot lead body)
    (ha : Assembles f (lead ++ (Draft.allocation slot isNew ty ++
      (body.map .instr ++ [.instr (.freeTemp slot)]))) seg g) :
    ∃ front stored f', Assembles f lead front f' ∧ (stored = body ∨ stored = []) ∧
      seg = front ++ (declaration slot isNew ty ++ (stored ++ [.freeTemp slot])) := by
  obtain ⟨f₁, front, _, hlead, h₁, rfl⟩ := Assembles.append_iff.1 ha
  obtain ⟨f₂, notes, _, halloc, h₂, rfl⟩ := Assembles.append_iff.1 h₁
  obtain ⟨f₃, stored, _, hbody, hfree, rfl⟩ := Assembles.append_iff.1 h₂
  obtain rfl := halloc.allocation
  obtain ⟨rfl, -⟩ := Flow.step_note rfl (Assembles.singleton_iff.1 hfree)
  exact ⟨front, stored, f₁, hlead, h.assembles hbody, rfl⟩

/-- What an errand loads it has stored. -/
theorem fetches {front notes : List Instr} (h : c.Errand slot lead body)
    (hlead : Assembles f lead front g) (hnotes : ∀ i ∈ notes, i.isNote = true) :
    c.Fetches (front ++ (notes ++ (body ++ [.freeTemp slot]))) := by
  cases h with
  | dispatch start hgen =>
    obtain ⟨rfl, -⟩ := Assembles.nil_iff.1 hlead
    intro k s hk
    rw [List.nil_append] at hk ⊢
    have hge : ¬ k < notes.length := fun hlt => by
      rw [List.getElem?_append_left hlt] at hk
      cases hnotes _ (List.mem_of_getElem? hk)
    obtain ⟨k, rfl⟩ := Nat.exists_eq_add_of_le (Nat.not_lt.1 hge)
    rw [List.getElem?_append_right (Nat.le_add_right _ _), Nat.add_sub_cancel_left] at hk
    match k with
    | 4 =>
      cases hk
      exact .inr ⟨notes.length + 1, .dispatch hgen rfl⟩
    | 0 | 1 | 2 | 3 | 5 | 6 => cases hk
    | k + 7 => cases hk
  | @receive b l id array key ty hlabel hcaught hplace =>
    obtain ⟨rfl, -⟩ := Flow.step_mark (Assembles.singleton_iff.1 hlead)
    intro k s hk
    rw [← List.append_assoc, List.singleton_append] at hk ⊢
    have hge : ¬ k < (Instr.markLabel l :: notes).length := fun hlt => by
      rw [List.getElem?_append_left hlt] at hk
      rcases List.mem_cons.1 (List.mem_of_getElem? hk) with heq | hmem
      · cases heq
      · cases hnotes _ hmem
    obtain ⟨k, rfl⟩ := Nat.exists_eq_add_of_le (Nat.not_lt.1 hge)
    rw [List.getElem?_append_right (Nat.le_add_right _ _), Nat.add_sub_cancel_left] at hk
    match k with
    | 3 =>
      cases hk
      have hreceive : c.Borrows ([] ++ .markLabel l :: notes ++ ([.storeTemp slot, .loadLocal array,
          .constStr key, .loadTemp slot, .callIntrinsic .arraySet] ++ [.freeTemp slot])) slot
          (Instr.markLabel l :: notes).length ((Instr.markLabel l :: notes).length + 3) :=
        .receive hlabel hcaught hplace hnotes rfl
      exact .inr ⟨_, hreceive⟩
    | 0 | 1 | 2 | 4 | 5 => cases hk
    | k + 6 => cases hk

end Errand

/-! ## What is lent -/

namespace Lends

/-- Between the parts of a draft the slots of the views and the return slot are checked out. -/
theorem tidy (h : c.Lends frame ds frame') (htidy : frame.Tidy) :
    frame'.Tidy ∧ frame'.debugLocals = frame.debugLocals := by
  induction h with
  | abstain hsame _ =>
    exact ⟨htidy.congr (fun s => by rw [hsame.temps]) hsame.debugLocals hsame.returnSlot,
      hsame.debugLocals⟩
  | append _ _ ih₁ ih₂ =>
    obtain ⟨htidy₁, hviews₁⟩ := ih₁ htidy
    obtain ⟨htidy₂, hviews₂⟩ := ih₂ htidy₁
    exact ⟨htidy₂, hviews₂.trans hviews₁⟩
  | borrow _ hrelease => exact ⟨htidy.congr (TempPool.inUse_borrow hrelease) rfl rfl, rfl⟩
  | reserve hnone ty => exact ⟨htidy.returning hnone ty, rfl⟩
  | store => exact ⟨htidy, rfl⟩

/-- The code carries the history of the pool on. -/
theorem history (h : c.Lends frame ds frame') (htidy : frame.Tidy) (ha : Assembles f ds seg g)
    (hcode : frame.temps.History (frame.debugLocals.map Prod.snd) code) :
    frame'.temps.History (frame'.debugLocals.map Prod.snd) (code ++ seg) := by
  induction h generalizing f g code seg with
  | abstain hsame hds =>
    rw [hsame.temps, hsame.debugLocals]
    exact hcode.spares (ha.temp?_eq_none hds)
  | append first _ ih₁ ih₂ =>
    obtain ⟨_, _, _, ha₁, ha₂, rfl⟩ := Assembles.append_iff.1 ha
    rw [← List.append_assoc]
    exact ih₂ (first.tidy htidy).1 ha₂ (ih₁ htidy ha₁ hcode)
  | @borrow frame ty temps lead body errand hrelease =>
    obtain ⟨_, stored, _, hlead, hstored, rfl⟩ := errand.parts ha
    obtain ⟨hfresh, hinUse⟩ := frame.temps.acquire_spec ty
    have hview : (frame.temps.acquire ty).1 ∉ frame.debugLocals.map Prod.snd := fun hmem => by
      rw [(htidy.inUse_iff _).2 (.inl hmem)] at hfresh
      cases hfresh
    have hled := hcode.spares (hlead.temp?_eq_none errand.lead_temp?)
    have hused := (hled.acquire ty).uses stored fun i hi s hs => by
      rcases hstored with rfl | rfl
      · obtain ⟨halloc, rfl⟩ := errand.body_temp? i hi s hs
        exact ⟨halloc, (hinUse _).2 (.inl rfl), hview⟩
      · cases hi
    have hall := hused.release hrelease hview
    simpa only [List.append_assoc] using hall
  | reserve hnone ty =>
    rw [ha.allocation]
    exact hcode.acquire ty
  | @store frame slot hslot =>
    refine hcode.uses _ fun i hi s hs => ?_
    obtain rfl : i = .storeTemp slot := by
      rcases Flow.mem_of_step (Assembles.singleton_iff.1 ha) hi with h | ⟨l, hl, -⟩ | ⟨l, s, h, -⟩
      · cases h
        rfl
      · cases hl
      · cases h
    cases hs
    exact ⟨rfl, (htidy.inUse_iff slot).2 (.inr hslot), htidy.apart slot hslot⟩

/-- What is loaded on an errand has been stored for it. -/
theorem fetches (h : c.Lends frame ds frame') (ha : Assembles f ds seg g) : c.Fetches seg := by
  induction h generalizing f g seg with
  | abstain _ hds => exact fetches_of_temp? (ha.temp?_eq_none hds)
  | append _ _ ih₁ ih₂ =>
    obtain ⟨_, _, _, ha₁, ha₂, rfl⟩ := Assembles.append_iff.1 ha
    exact (ih₁ ha₁).append (ih₂ ha₂)
  | @borrow frame ty temps lead body errand hrelease =>
    obtain ⟨_, stored, _, hlead, hstored, rfl⟩ := errand.parts ha
    have hnotes := isNote_declaration (frame.temps.acquire ty).1 (frame.temps.acquire ty).2.1 ty
    rcases hstored with rfl | rfl
    · exact errand.fetches hlead hnotes
    · exact (fetches_of_temp? (hlead.temp?_eq_none errand.lead_temp?)).append
        (fetches_of_notes (List.forall_mem_append.2 ⟨hnotes, List.forall_mem_singleton.2 rfl⟩))
  | reserve hnone ty =>
    rw [ha.allocation]
    exact fetches_of_notes (isNote_declaration _ _ _)
  | @store frame slot hslot =>
    intro k s hk
    rcases Flow.mem_of_step (Assembles.singleton_iff.1 ha) (List.mem_of_getElem? hk) with
      h | ⟨l, hl, -⟩ | ⟨l, s, h, -⟩
    · cases h
    · cases hl
    · cases h

end Lends

end Plan

end StackCode
