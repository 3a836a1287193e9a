import Mathlib
import StackCode.Proofs.Layout.Slots

/-!
# What a pool lends over time

A fresh pool is asked again and again for slots, and handed slots back, rightly or wrongly.  Which slots
are out can be told from what came of the calls alone (`TempPool.out`), and the tables of the pool agree:
a slot has its flag while it is out (`mem_out_iff`), and is listed under its type while it is not
(`mem_free_ofCalls_iff`).  A pool never lends a slot twice at a time, and it lends a new
one only where all slots of the type are out: a call leaves the slots of a type what they were or finds
all of them out (`slotsOf_serve`), so there are never more of them than were out at one time
(`card_slotsOf`).  Main statement: `TempPool.disciplined`.
-/

namespace StackCode

namespace TempPool

/-- A call of a pool. -/
inductive Call where
  | acquire (ty : Ty)
  | release (s : TempSlot)

/-- What has come of a call. -/
inductive Event where
  /-- A slot is checked out, which may be a new one. -/
  | lent (s : TempSlot) (isNew : Bool)
  | returned (s : TempSlot)
  | refused (e : LowerError)

/-- What comes of a call, and the pool after it. -/
def serve (p : TempPool) : Call → Event × TempPool
  | .acquire ty => (.lent (p.acquire ty).1 (p.acquire ty).2.1, (p.acquire ty).2.2)
  | .release s =>
    match p.tryRelease s with
    | (.ok (), q) => (.returned s, q)
    | (.error e, q) => (.refused e, q)

/-- A fresh pool after some calls. -/
def ofCalls (calls : List Call) : TempPool := calls.foldl (fun p c => (p.serve c).2) {}

/-- What comes of some calls, one after the other. -/
def events (p : TempPool) : List Call → List Event
  | [] => []
  | c :: calls => (p.serve c).1 :: (p.serve c).2.events calls

/-- The slots that are out after an event. -/
def Event.update (slots : Finset TempSlot) : Event → Finset TempSlot
  | .lent s _ => insert s slots
  | .returned s => slots.erase s
  | .refused _ => slots

/-- The slots that are out after some calls of a fresh pool, judging by what came of them. -/
def out (calls : List Call) : Finset TempSlot :=
  (({} : TempPool).events calls).foldl Event.update ∅

/-- The slots of a type, in use or not. -/
def slotsOf (p : TempPool) (ty : Ty) : Finset TempSlot :=
  {s ∈ (Finset.range p.size).image TempSlot.mk | p.ty? s = some ty}

/-- The slots of a type that are out. -/
def outOf (calls : List Call) (ty : Ty) : Finset TempSlot :=
  {s ∈ out calls | (ofCalls calls).ty? s = some ty}

/-- The largest number of slots of a type that have been out at one time. -/
def peak (calls : List Call) (ty : Ty) : Nat :=
  (Finset.range (calls.length + 1)).sup fun k => (outOf (calls.take k) ty).card

variable {p q : TempPool} {s : TempSlot} {ty : Ty} {calls : List Call} {c : Call}

/-! ## The slots of a pool -/

theorem lt_size_of_ty? (h : p.ty? s = some ty) : s.index < p.size :=
  (Array.getElem?_eq_some_iff.1 h).1

theorem mem_slotsOf_iff : s ∈ p.slotsOf ty ↔ p.ty? s = some ty := by
  unfold slotsOf
  rw [Finset.mem_filter, Finset.mem_image]
  refine ⟨And.right, fun h => ⟨⟨s.index, ?_, rfl⟩, h⟩⟩
  exact Finset.mem_range.2 (lt_size_of_ty? h)

/-- The first slot that is out is the one with the smallest number. -/
theorem firstLeaked?_eq_some_iff :
    p.firstLeaked? = some s ↔ p.inUse s = true ∧ ∀ t, p.inUse t = true → s.index ≤ t.index := by
  have hsome : p.firstLeaked? = some s ↔ p.flags.findIdx? id = some s.index := by
    unfold firstLeaked?
    rw [Option.map_eq_some_iff]
    constructor
    · rintro ⟨k, hk, rfl⟩
      exact hk
    · exact fun h => ⟨s.index, h, rfl⟩
  rw [hsome, Array.findIdx?_eq_some_iff_getElem, inUse_iff, Array.getElem?_eq_some_iff]
  constructor
  · rintro ⟨hlt, hs, hbefore⟩
    refine ⟨⟨hlt, hs⟩, fun t ht => ?_⟩
    by_contra hlater
    obtain ⟨_, htrue⟩ := Array.getElem?_eq_some_iff.1 (inUse_iff.1 ht)
    exact hbefore t.index (Nat.lt_of_not_le hlater) htrue
  · rintro ⟨⟨hlt, hs⟩, hleast⟩
    refine ⟨hlt, hs, fun k hk htrue => ?_⟩
    have hin : p.inUse ⟨k⟩ = true :=
      inUse_iff.2 (Array.getElem?_eq_some_iff.2 ⟨Nat.lt_trans hk hlt, htrue⟩)
    exact absurd hk (Nat.not_lt.2 (hleast ⟨k⟩ hin))

/-! ## One call -/

/-- What is listed under a type are the slots of that type that are not out. -/
theorem mem_free_iff : s ∈ p.free ty ↔ p.ty? s = some ty ∧ p.inUse s = false := by
  rw [p.consistent.mem_free_iff]
  refine and_congr_right fun hty => ?_
  have hlt : s.index < p.flags.size := by
    rw [p.consistent.size_flags]
    exact lt_size_of_ty? hty
  simp [inUse, hlt]

/-- No slot of a type is listed exactly if all of them are out. -/
theorem free_eq_nil_iff : p.free ty = [] ↔ ∀ s, p.ty? s = some ty → p.inUse s = true := by
  rw [List.eq_nil_iff_forall_not_mem]
  simp only [mem_free_iff, not_and, Bool.not_eq_false]

/-- A slot that is asked for is new exactly if no slot of its type is listed. -/
theorem isNew_acquire_iff : (p.acquire ty).2.1 = true ↔ p.free ty = [] := by
  rcases p.acquire_cases ty with ⟨rest, hfree, hnew, -⟩ | ⟨hfree, -, hnew, -⟩
  · simp [hfree, hnew]
  · simp [hfree, hnew]

/-- A slot that is new has not been there, and one that is not has. -/
theorem ty?_acquire (p : TempPool) (ty : Ty) :
    p.ty? (p.acquire ty).1 = if (p.acquire ty).2.1 then none else some ty := by
  rcases p.acquire_cases ty with ⟨rest, hfree, hnew, -⟩ | ⟨-, hslot, hnew, -⟩
  · rw [hnew]
    exact (mem_free_iff.1 (by rw [hfree]; exact List.mem_cons_self)).1
  · rw [hnew, hslot]
    exact Array.getElem?_size

theorem ty?_acquire_self : (p.acquire ty).2.2.ty? (p.acquire ty).1 = some ty := by
  rcases p.acquire_cases ty with ⟨rest, -, hnew, htable⟩ | ⟨-, hslot, -, htable⟩
  · have hty := p.ty?_acquire ty
    rw [hnew] at hty
    rw [ty?, htable]
    exact hty
  · rw [htable, hslot]
    exact Array.getElem?_push_size

theorem serve_release_of_inUse_eq_false (h : p.inUse s = false) :
    p.serve (.release s) = (.refused (.tempDoubleFree s), p) := by
  simp only [serve, tryRelease_of_inUse_eq_false h]

/-- A call leaves the types of the slots what they were, or finds that a slot of a type is missing and
adds it. -/
theorem types_serve (p : TempPool) (c : Call) : (p.serve c).2.types = p.types ∨
    ∃ ty, c = .acquire ty ∧ p.free ty = [] ∧ (p.serve c).2 = p.grow ty := by
  cases c with
  | acquire ty =>
    rcases p.acquire_cases ty with ⟨rest, -, -, htable⟩ | ⟨hfree, -, -, htable⟩
    · refine .inl ?_
      change (p.acquire ty).2.2.types = p.types
      rw [htable]
      rfl
    · exact .inr ⟨ty, rfl, hfree, htable⟩
  | release s =>
    refine .inl ?_
    cases hs : p.inUse s with
    | true =>
      obtain ⟨q, hrelease, -⟩ := exists_tryRelease hs
      simp only [serve, hrelease]
      exact (tryRelease_spec hrelease).2
    | false => rw [serve_release_of_inUse_eq_false hs]

/-- A slot keeps its type. -/
theorem ty?_serve (h : p.ty? s = some ty) (c : Call) : (p.serve c).2.ty? s = some ty := by
  obtain hsame | ⟨ty', -, -, hgrown⟩ := p.types_serve c
  · rw [ty?, hsame]
    exact h
  · rw [hgrown]
    exact (Array.getElem?_push_lt (lt_size_of_ty? h)).trans
      (Array.getElem?_eq_getElem (lt_size_of_ty? h) ▸ h)

/-- The slots that are out afterwards are told from those that were and what comes of the call. -/
theorem inUse_serve_iff {slots : Finset TempSlot} (h : ∀ t, t ∈ slots ↔ p.inUse t = true)
    (c : Call) (t : TempSlot) :
    t ∈ (p.serve c).1.update slots ↔ (p.serve c).2.inUse t = true := by
  cases c with
  | acquire ty =>
    change t ∈ insert _ slots ↔ _
    rw [Finset.mem_insert, h]
    exact ((p.acquire_spec ty).2 t).symm
  | release s =>
    cases hs : p.inUse s with
    | true =>
      obtain ⟨q, hrelease, hq⟩ := exists_tryRelease hs
      simp only [serve, hrelease, Event.update]
      rw [Finset.mem_erase, h, hq]
    | false =>
      rw [serve_release_of_inUse_eq_false hs]
      exact h t

theorem slotsOf_subset_serve (p : TempPool) (c : Call) (ty : Ty) :
    p.slotsOf ty ⊆ (p.serve c).2.slotsOf ty :=
  fun _ hs => mem_slotsOf_iff.2 (ty?_serve (mem_slotsOf_iff.1 hs) c)

/-- A call leaves the slots of a type what they were, or all of them are out afterwards. -/
theorem slotsOf_serve (p : TempPool) (c : Call) (ty : Ty) :
    (p.serve c).2.slotsOf ty = p.slotsOf ty ∨
      ∀ s ∈ (p.serve c).2.slotsOf ty, (p.serve c).2.inUse s = true := by
  have hsame (h : ∀ s, (p.serve c).2.ty? s = some ty → p.ty? s = some ty) :
      (p.serve c).2.slotsOf ty = p.slotsOf ty :=
    Finset.Subset.antisymm
      (fun s hs => mem_slotsOf_iff.2 (h s (mem_slotsOf_iff.1 hs))) (p.slotsOf_subset_serve c ty)
  obtain htypes | ⟨ty', rfl, hnone, hgrown⟩ := p.types_serve c
  · refine .inl (hsame fun s hs => ?_)
    rwa [ty?, htypes] at hs
  -- the new slot has the type that was asked for
  have hpush (s : TempSlot) (hs : (p.grow ty').ty? s = some ty) :
      s.index = p.size ∧ ty' = ty ∨ p.ty? s = some ty := by
    change (p.types.push ty')[s.index]? = some ty at hs
    rw [Array.getElem?_push] at hs
    split at hs
    · next heq => exact .inl ⟨heq, Option.some_inj.1 hs⟩
    · exact .inr hs
  by_cases hty : ty' = ty
  · subst hty
    refine .inr fun s hs => ?_
    rw [mem_slotsOf_iff, hgrown] at hs
    rw [hgrown, inUse_grow]
    obtain ⟨hnew, -⟩ | hold := hpush s hs
    · exact .inl (congrArg TempSlot.mk hnew)
    · exact .inr (free_eq_nil_iff.1 hnone s hold)
  · refine .inl (hsame fun s hs => ?_)
    rw [hgrown] at hs
    exact (hpush s hs).resolve_left fun hnew => hty hnew.2

/-! ## All calls -/

theorem ofCalls_concat : ofCalls (calls ++ [c]) = ((ofCalls calls).serve c).2 := by
  simp [ofCalls]

theorem events_concat (p : TempPool) (calls : List Call) (c : Call) :
    p.events (calls ++ [c]) =
      p.events calls ++ [((calls.foldl (fun p c => (p.serve c).2) p).serve c).1] := by
  induction calls generalizing p with
  | nil => rfl
  | cons d calls ih => exact congrArg ((p.serve d).1 :: ·) (ih (p.serve d).2)

theorem out_concat : out (calls ++ [c]) = ((ofCalls calls).serve c).1.update (out calls) := by
  unfold out
  rw [events_concat, List.foldl_append]
  rfl

/-- The slots with a flag are those that are out, judging by what came of the calls. -/
theorem mem_out_iff : s ∈ out calls ↔ (ofCalls calls).inUse s = true := by
  induction calls using List.reverseRecOn generalizing s with
  | nil => simp [out, events, ofCalls, inUse]
  | append_singleton calls c ih =>
    rw [out_concat, ofCalls_concat]
    exact inUse_serve_iff (fun _ => ih) c s

/-- The slots that are listed under a type are those of the type that are not out. -/
theorem mem_free_ofCalls_iff :
    s ∈ (ofCalls calls).free ty ↔ (ofCalls calls).ty? s = some ty ∧ s ∉ out calls := by
  rw [mem_free_iff, mem_out_iff, Bool.not_eq_true]

theorem mem_outOf_iff :
    s ∈ outOf calls ty ↔ (ofCalls calls).inUse s = true ∧ s ∈ (ofCalls calls).slotsOf ty := by
  rw [outOf, Finset.mem_filter, mem_out_iff, mem_slotsOf_iff]

theorem outOf_subset : outOf calls ty ⊆ (ofCalls calls).slotsOf ty :=
  fun _ hs => (mem_outOf_iff.1 hs).2

theorem ty?_ofCalls_append (h : (ofCalls calls).ty? s = some ty) (more : List Call) :
    (ofCalls (calls ++ more)).ty? s = some ty := by
  induction more using List.reverseRecOn with
  | nil => rwa [List.append_nil]
  | append_singleton more c ih =>
    rw [← List.append_assoc, ofCalls_concat]
    exact ty?_serve ih c

theorem peak_concat : peak (calls ++ [c]) ty = max (peak calls ty) (outOf (calls ++ [c]) ty).card := by
  have hbefore : ∀ k ∈ Finset.range (calls.length + 1),
      (outOf ((calls ++ [c]).take k) ty).card = (outOf (calls.take k) ty).card := fun k hk => by
    rw [List.take_append_of_le_length (Nat.le_of_lt_succ (Finset.mem_range.1 hk))]
  unfold peak
  rw [List.length_append, List.length_singleton, Finset.range_add_one, Finset.sup_insert,
    Finset.sup_congr rfl hbefore, max_comm]
  congr 3
  exact List.take_of_length_le (by simp)

/-- There are as many slots of a type as have been out at one time. -/
theorem card_slotsOf (calls : List Call) (ty : Ty) :
    ((ofCalls calls).slotsOf ty).card = peak calls ty := by
  induction calls using List.reverseRecOn with
  | nil => rfl
  | append_singleton calls c ih =>
    rw [peak_concat, ← ih]
    have hout : (outOf (calls ++ [c]) ty).card ≤ ((ofCalls (calls ++ [c])).slotsOf ty).card :=
      Finset.card_le_card outOf_subset
    have hgrows := Finset.card_le_card ((ofCalls calls).slotsOf_subset_serve c ty)
    rw [← ofCalls_concat] at hgrows
    refine Nat.le_antisymm ?_ (Nat.max_le.2 ⟨hgrows, hout⟩)
    obtain hsame | hall := (ofCalls calls).slotsOf_serve c ty
    · rw [ofCalls_concat, hsame]
      exact Nat.le_max_left _ _
    · rw [← ofCalls_concat] at hall
      refine Nat.le_trans (Finset.card_le_card fun s hs => ?_) (Nat.le_max_right _ _)
      exact mem_outOf_iff.2 ⟨hall s hs, hs⟩

/-! ## Discipline -/

/-- How a fresh pool stands after some calls. -/
structure Disciplined (calls : List Call) : Prop where
  /-- A slot that is asked for is not out yet, has the type, and is new exactly if all slots of the type
  are out. -/
  acquire : ∀ ty s isNew p, (ofCalls calls).acquire ty = (s, isNew, p) →
    s ∉ out calls ∧ p.ty? s = some ty ∧ (isNew = true ↔ (ofCalls calls).ty? s = none) ∧
      (isNew = true ↔ ∀ t, (ofCalls calls).ty? t = some ty → t ∈ out calls)
  ty_stable : ∀ s ty, (ofCalls calls).ty? s = some ty →
    ∀ more, (ofCalls (calls ++ more)).ty? s = some ty
  /-- What is out is taken back. -/
  release : ∀ s, (∃ p, (ofCalls calls).release s = .ok p) ↔ s ∈ out calls
  /-- What is not out is refused, and nothing changes. -/
  refuse : ∀ s, s ∉ out calls →
    (ofCalls calls).tryRelease s = (.error (.tempDoubleFree s), ofCalls calls) ∧
      ofCalls (calls ++ [.release s]) = ofCalls calls
  /-- A slot that is not out is listed once, under its own type, and no other slot is listed. -/
  listed : ∀ ty, ((ofCalls calls).free ty).Nodup ∧
    ∀ s, s ∈ (ofCalls calls).free ty ↔ (ofCalls calls).ty? s = some ty ∧ s ∉ out calls
  leaked : ∀ s, (ofCalls calls).firstLeaked? = some s ↔
    s ∈ out calls ∧ ∀ t ∈ out calls, s.index ≤ t.index
  unleaked : (ofCalls calls).firstLeaked? = none ↔ out calls = ∅
  /-- There are no more slots than were needed at one time. -/
  card : ∀ ty, ((ofCalls calls).slotsOf ty).card = peak calls ty

theorem inUse_of_notMem_out (h : s ∉ out calls) : (ofCalls calls).inUse s = false :=
  Bool.eq_false_iff.2 fun hused => h (mem_out_iff.2 hused)

/-- Whatever is asked for and handed back, a pool lends no slot twice at a time, and no more slots than
it must. -/
theorem disciplined (calls : List Call) : Disciplined calls where
  acquire ty s isNew p h := by
    obtain rfl : ((ofCalls calls).acquire ty).1 = s := by rw [h]
    obtain rfl : ((ofCalls calls).acquire ty).2.1 = isNew := by rw [h]
    obtain rfl : ((ofCalls calls).acquire ty).2.2 = p := by rw [h]
    refine ⟨fun hs => ?_, ty?_acquire_self, ?_, ?_⟩
    · have hidle := ((ofCalls calls).acquire_spec ty).1
      rw [mem_out_iff.1 hs] at hidle
      cases hidle
    · rw [ty?_acquire]
      cases ((ofCalls calls).acquire ty).2.1 <;> simp
    · rw [isNew_acquire_iff, free_eq_nil_iff]
      simp only [mem_out_iff]
  ty_stable s ty h more := ty?_ofCalls_append h more
  release s := by
    constructor
    · rintro ⟨p, hp⟩
      by_contra hs
      rw [release_eq_ok_iff, tryRelease_of_inUse_eq_false (inUse_of_notMem_out hs)] at hp
      cases hp
    · intro hs
      obtain ⟨p, hp, -⟩ := exists_tryRelease (mem_out_iff.1 hs)
      exact ⟨p, release_eq_ok_iff.2 hp⟩
  refuse s hs := by
    have hunused := inUse_of_notMem_out hs
    rw [ofCalls_concat, serve_release_of_inUse_eq_false hunused]
    exact ⟨tryRelease_of_inUse_eq_false hunused, rfl⟩
  listed ty := ⟨(ofCalls calls).consistent.nodup_free ty, fun _ => mem_free_ofCalls_iff⟩
  leaked s := by
    rw [firstLeaked?_eq_some_iff]
    simp only [mem_out_iff]
  unleaked := by
    rw [firstLeaked?_eq_none_iff, Finset.eq_empty_iff_forall_notMem]
    simp only [mem_out_iff, Bool.not_eq_true]
  card := card_slotsOf calls

/-- Of three integers no more than two are held at a time. -/
example : (ofCalls [.acquire .int, .acquire .int, .release ⟨0⟩, .acquire .bool, .acquire .int]).types =
    #[.int, .int, .bool] := by decide

end TempPool

end StackCode
