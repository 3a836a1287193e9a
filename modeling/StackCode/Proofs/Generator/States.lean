import StackCode.Proofs.Generator.Entry

/-!
# The states of a generator

On every path through the code of a generator, with any results of the run-time system and
exceptions at any point, the state is set to running once, before the dispatch, and then only where
the generator stops; a return directly follows.  Main statement: `Procedure.exists_dispatches`.
-/

namespace StackCode

variable {V W : Type}

/-! ## Paths -/

/-- A path of an invocation that begins with the memory `s₀`: steps of the machine, and exceptions at
any point.  It records the states that it sets, in order. -/
inductive Runtime.Path (R : Runtime V W) (code : List Instr) (s₀ : Kept V W) :
    Control V → Kept V W → List V → Prop
  | enter : Path R code s₀ R.enter s₀ []
  | step {c c' : Control V} {s s' : Kept V W} {stored : List V} (path : Path R code s₀ c s stored)
      (hstep : R.step code c s = .on c' s') :
      Path R code s₀ c' s'
        (if code[c.pc]? = some .storeState then stored ++ [s'.state] else stored)
  | raise {c c' : Control V} {s s' : Kept V W} {stored : List V} (path : Path R code s₀ c s stored)
      (v : V) (hraise : Runtime.raise code c v s = .on c' s') : Path R code s₀ c' s' stored

namespace Runtime

variable {R : Runtime V W} {code : List Instr} {s₀ s s' : Kept V W} {c c' : Control V}
  {stored : List V}

theorem raise_eq_on {v : V} (h : raise code c v s = .on c' s') :
    s' = s ∧ c.regions ≠ [] ∧ ∃ l, code[c'.pc]? = some (.markLabel l) := by
  unfold raise at h
  split at h
  · cases h
  · next l _ hregions =>
    obtain ⟨rfl, hq, -⟩ := goTo_eq_on h
    exact ⟨rfl, by rw [hregions]; exact nofun, l, hq⟩

/-- A path gets to an instruction that is no label from the one before it. -/
theorem Path.of_succ (h : Path R code s₀ c s stored) {q : Nat} (hpc : c.pc = q + 1)
    (hlabel : ∀ l, code[q + 1]? ≠ some (.markLabel l)) :
    ∃ c₁ s₁ stored₁, Path R code s₀ c₁ s₁ stored₁ ∧ c₁.pc = q ∧ R.step code c₁ s₁ = .on c s ∧
      stored = if code[q]? = some .storeState then stored₁ ++ [s.state] else stored₁ := by
  cases h with
  | enter => cases hpc
  | @step c₁ _ s₁ _ stored₁ path hstep =>
    obtain ⟨i, -, hstepped⟩ := stepped hstep
    rcases hstepped.next with hnext | ⟨l, hl⟩
    · have hq : c₁.pc = q := by omega
      exact ⟨c₁, s₁, stored₁, path, hq, hstep, by rw [hq]⟩
    · rw [hpc] at hl
      exact absurd hl (hlabel l)
  | raise path v hraise =>
    obtain ⟨-, -, l, hl⟩ := raise_eq_on hraise
    rw [hpc] at hl
    exact absurd hl (hlabel l)

theorem stack_of_constInt {n : Int} (hpc : code[c.pc]? = some (.constInt n))
    (h : R.step code c s = .on c' s') : c'.stack = R.literal (.int n) :: c.stack := by
  rw [step_plain hpc rfl rfl] at h
  cases h
  rfl

theorem state_of_storeState {v : V} {st : List V} (hpc : code[c.pc]? = some .storeState)
    (hst : c.stack = v :: st) (h : R.step code c s = .on c' s') : s'.state = v := by
  simp only [step, hpc, hst] at h
  cases h
  rfl

/-- A constant in front of a store is what is stored. -/
theorem Path.stack_of_store (h : Path R code s₀ c s stored) {q : Nat} {n : Int}
    (hpc : c.pc = q + 1) (hconst : code[q]? = some (.constInt n))
    (hstore : code[q + 1]? = some .storeState) : ∃ st, c.stack = R.literal (.int n) :: st := by
  obtain ⟨c₁, s₁, stored₁, -, rfl, hstep, -⟩ := h.of_succ hpc (by rw [hstore]; exact nofun)
  exact ⟨c₁.stack, stack_of_constInt hconst hstep⟩

/-- Where the generator stops, a path has just set the state. -/
theorem Path.stored_of_stopsAt {points : List (Int × Label)} {p : Nat} {n : Int}
    (hstops : StopsAt points code p n) (h : Path R code s₀ c s stored) (hpc : c.pc = p + 2) :
    s.state = R.literal (.int n) ∧ ∃ before, stored = before ++ [R.literal (.int n)] := by
  obtain ⟨c₁, s₁, before, hpath, hpc₁, hstep, rfl⟩ :=
    h.of_succ hpc (by rw [hstops.ret]; exact nofun)
  obtain ⟨st, hst⟩ := hpath.stack_of_store hpc₁ hstops.const hstops.store
  have hstore : code[c₁.pc]? = some .storeState := by rw [hpc₁, hstops.store]
  have hstate : s.state = R.literal (.int n) := state_of_storeState hstore hst hstep
  rw [if_pos hstops.store, hstate]
  exact ⟨rfl, before, rfl⟩

end Runtime

/-! ## The code of a generator -/

/-- The states that an invocation has set when it gets to position `pc`, where the dispatch begins at
`d`: running right before the jump, and behind the jump only closed and the indices of suspension
points. -/
structure Procedure.StatesSet (p : Procedure) (d pc : Nat) (states : List Int) : Prop where
  before : pc ≤ d + 3 → states = []
  behind : d + 3 < pc → ∃ rest, states = GeneratorState.running.toInt :: rest ∧
    (pc ≤ d + 5 → rest = []) ∧
      ∀ n ∈ rest, n = GeneratorState.closed.toInt ∨ n ∈ p.graph.yields.map (·.index)

namespace Plan

variable {c : Plan} {code pre post : List Instr} {slot : TempSlot}

/-- Every state that is set stands for one. -/
theorem isSome_of_statesSet (hmade : c.Made) (hgen : c.procedure.isGenerator = true) {d pc : Nat}
    {states : List Int} (h : c.procedure.StatesSet d pc states) :
    ∀ n ∈ states, (GeneratorState.ofInt? n).isSome = true := by
  intro n hn
  by_cases hpc : d + 3 < pc
  · obtain ⟨rest, rfl, -, hrest⟩ := h.behind hpc
    rcases List.mem_cons.1 hn with rfl | hn
    · rfl
    · rcases hrest n hn with rfl | hindex
      · rfl
      · rw [GeneratorState.ofInt?_of_pos (pos_of_mem_yields hmade hgen hindex)]
        rfl
  · rw [h.before (Nat.not_lt.1 hpc)] at hn
    cases hn

namespace Entered

/-- Up to the jump, every instruction passes control on. -/
theorem passes_at (h : c.Entered code pre slot post) {q : Nat} (hq : q < pre.length + 5) :
    ∃ i, code[q]? = some i ∧ i.passes = true ∧ (i = .storeState ↔ q = pre.length + 3) ∧
      ∀ w, i ≠ .ret w := by
  by_cases hpre : q < pre.length
  · have hget : code[q]? = some pre[q] := by
      rw [h.code_eq, List.getElem?_append_left hpre, List.getElem?_eq_getElem hpre]
    have hmem := List.getElem_mem hpre
    have hpasses := h.passes _ hmem
    refine ⟨pre[q], hget, hpasses, ⟨fun heq => ?_, fun heq => by omega⟩, fun w heq => ?_⟩
    · have hstate := h.usesState _ hmem
      rw [heq] at hstate
      cases hstate
    · rw [heq] at hpasses
      cases hpasses
  · obtain ⟨k, rfl⟩ := Nat.exists_eq_add_of_le (Nat.not_lt.1 hpre)
    have hk : k < 5 := by omega
    rw [h.getElem?_dispatch (by omega)]
    interval_cases k
    · exact ⟨_, rfl, rfl, iff_of_false nofun (by omega), nofun⟩
    · exact ⟨_, rfl, rfl, iff_of_false nofun (by omega), nofun⟩
    · exact ⟨_, rfl, rfl, iff_of_false nofun (by omega), nofun⟩
    · exact ⟨_, rfl, rfl, iff_of_true rfl rfl, nofun⟩
    · exact ⟨_, rfl, rfl, iff_of_false nofun (by omega), nofun⟩

/-- The state is set in the dispatch, and behind it where the generator stops; there control
returns, and nowhere else. -/
theorem stops_of (h : c.Entered code pre slot post) {q : Nat} {i : Instr} (hq : code[q]? = some i)
    (hi : i.isQuiet = false) :
    (q = pre.length + 3 ∧ i = .storeState) ∨ ∃ p n, StopsAt c.resume.points code p n ∧
      pre.length + 8 ≤ p ∧ (q = p + 1 ∧ i = .storeState ∨ q = p + 2 ∧ i = .ret false) := by
  by_cases hearly : q < pre.length + 5
  · obtain ⟨j, hj, -, hstore, hret⟩ := h.passes_at hearly
    obtain rfl := Option.some_inj.1 (hq.symm.trans hj)
    cases i with
    | storeState => exact .inl ⟨hstore.1 rfl, rfl⟩
    | ret w => exact absurd rfl (hret w)
    | _ => cases hi
  · have hlate : pre.length + 8 ≤ q := by
      by_contra hlt
      obtain ⟨k, rfl⟩ := Nat.exists_eq_add_of_le (Nat.not_lt.1 hearly)
      have hk : k < 3 := by omega
      rw [Nat.add_assoc, h.getElem?_dispatch (by omega)] at hq
      interval_cases k <;> cases hq <;> cases hi
    obtain ⟨k, rfl⟩ := Nat.exists_eq_add_of_le hlate
    have hfront : (pre ++ dispatchCode c.resume.points ⟨c.bound⟩ slot).length = pre.length + 8 := by
      rw [List.length_append]
      rfl
    have hcode : code = (pre ++ dispatchCode c.resume.points ⟨c.bound⟩ slot) ++ post := by
      rw [List.append_assoc]
      exact h.code_eq
    have hget : post[k]? = some i := by
      rw [hcode, ← hfront, List.getElem?_append_right (Nat.le_add_right _ _),
        Nat.add_sub_cancel_left] at hq
      exact hq
    obtain ⟨p, n, hstops, hp⟩ := h.stops.stopsAt hget hi
    have hwhole := hstops.append (pre ++ dispatchCode c.resume.points ⟨c.bound⟩ slot)
    rw [← hcode, hfront] at hwhole
    refine .inr ⟨_, n, hwhole, Nat.le_add_right _ _, ?_⟩
    rcases hp with rfl | rfl
    · have hstore := hget.symm.trans hstops.store
      exact .inl ⟨by omega, Option.some_inj.1 hstore⟩
    · have hret := hget.symm.trans hstops.ret
      exact .inr ⟨by omega, Option.some_inj.1 hret⟩

theorem label_late (h : c.Entered code pre slot post) {q : Nat} {l : Label}
    (hq : code[q]? = some (.markLabel l)) : pre.length + 7 ≤ q := by
  by_contra hlt
  by_cases hearly : q < pre.length + 5
  · obtain ⟨i, hi, hpasses, -⟩ := h.passes_at hearly
    obtain rfl := Option.some_inj.1 (hq.symm.trans hi)
    cases hpasses
  · obtain ⟨k, rfl⟩ := Nat.exists_eq_add_of_le (Nat.not_lt.1 hearly)
    have hk : k < 2 := by omega
    rw [Nat.add_assoc, h.getElem?_dispatch (by omega)] at hq
    interval_cases k <;> cases hq

/-- What has been set on a path. -/
theorem states_of_path (h : c.Entered code pre slot post) (hmade : c.Made)
    (hgen : c.procedure.isGenerator = true) {R : Runtime V W} {s₀ s : Kept V W} {ctl : Control V}
    {stored : List V} (path : R.Path code s₀ ctl s stored) :
    (ctl.pc ≤ pre.length + 5 → ctl.regions = []) ∧
      ∃ states : List Int, stored = states.map (fun n => R.literal (.int n)) ∧
        c.procedure.StatesSet pre.length ctl.pc states := by
  induction path with
  | enter => exact ⟨fun _ => rfl, [], rfl, fun _ => rfl, fun hlt => absurd hlt (Nat.not_lt_zero _)⟩
  | @step c₁ c₂ s₁ s₂ stored path hstep ih =>
    obtain ⟨hregions, states, rfl, hstates⟩ := ih
    obtain ⟨i, hi, hstepped⟩ := Runtime.stepped hstep
    by_cases hearly : c₁.pc < pre.length + 5
    · obtain ⟨j, hj, hpasses, hstore, -⟩ := h.passes_at hearly
      obtain rfl := Option.some_inj.1 (hi.symm.trans hj)
      obtain ⟨hnext, hsame⟩ := hstepped.of_passes hpasses
      refine ⟨fun _ => hsame.trans (hregions (by omega)), ?_⟩
      by_cases hat : c₁.pc = pre.length + 3
      · -- the store of the dispatch
        obtain rfl := hstore.2 hat
        have hconst : code[pre.length + 2]? = some (.constInt GeneratorState.running.toInt) :=
          h.getElem?_dispatch (by omega)
        have hstored : code[pre.length + 3]? = some .storeState := h.getElem?_dispatch (by omega)
        obtain ⟨st, hst⟩ := path.stack_of_store hat hconst hstored
        rw [if_pos hi, Runtime.state_of_storeState hi hst hstep, hstates.before (by omega)]
        exact ⟨[GeneratorState.running.toInt], rfl, fun hle => by omega,
          fun _ => ⟨[], rfl, fun _ => rfl, nofun⟩⟩
      · have hnot : code[c₁.pc]? ≠ some .storeState := by
          rw [hi]
          exact fun heq => hat (hstore.1 (Option.some_inj.1 heq))
        rw [if_neg hnot]
        refine ⟨states, rfl, fun hle => hstates.before (by omega), fun hlt => ?_⟩
        obtain ⟨rest, rfl, hnone, hrest⟩ := hstates.behind (by omega)
        exact ⟨rest, rfl, fun _ => hnone (by omega), hrest⟩
    · have hlate : pre.length + 5 < c₂.pc := by
        rcases hstepped.next with hnext | ⟨l, hl⟩
        · omega
        · have hlabel : pre.length + 7 ≤ c₂.pc := h.label_late hl
          omega
      refine ⟨fun hle => by omega, ?_⟩
      obtain ⟨rest, rfl, -, hrest⟩ := hstates.behind (by omega)
      by_cases hstore : code[c₁.pc]? = some .storeState
      · obtain ⟨hat, -⟩ | ⟨p, n, hstops, -, hp⟩ := h.stops_of hstore rfl
        · omega
        · have hp : c₁.pc = p + 1 := by
            rcases hp with hp | hp
            · exact hp.1
            · cases hp.2
          obtain ⟨st, hst⟩ := path.stack_of_store hp hstops.const hstops.store
          rw [if_pos hstore, Runtime.state_of_storeState hstore hst hstep]
          refine ⟨GeneratorState.running.toInt :: (rest ++ [n]), ?_, fun hle => by omega, fun _ =>
            ⟨rest ++ [n], rfl, fun hle => by omega, List.forall_mem_append.2 ⟨hrest, ?_⟩⟩⟩
          · rw [List.map_cons, List.map_cons, List.map_append]
            rfl
          · refine List.forall_mem_singleton.2 (hstops.label.imp_right ?_)
            rintro ⟨l, hl, -⟩
            exact mem_yields_of_mem_points hmade hgen hl
      · rw [if_neg hstore]
        exact ⟨_, rfl, fun hle => by omega, fun _ => ⟨rest, rfl, fun hle => by omega, hrest⟩⟩
  | @raise c₁ c₂ s₁ s₂ stored path v hraise ih =>
    obtain ⟨hregions, states, rfl, hstates⟩ := ih
    obtain ⟨-, hopen, l, hl⟩ := Runtime.raise_eq_on hraise
    have hlate : pre.length + 5 < c₁.pc := by
      by_contra hle
      exact hopen (hregions (Nat.not_lt.1 hle))
    have hlabel := h.label_late hl
    obtain ⟨rest, rfl, -, hrest⟩ := hstates.behind (by omega)
    exact ⟨fun hle => by omega, _, rfl, fun hle => by omega,
      fun _ => ⟨rest, rfl, fun hle => by omega, hrest⟩⟩

end Entered

end Plan

/-- The dispatch of a generator, at position `d` of its code, and the states that it sets. -/
structure Procedure.Dispatches (p : Procedure) (code : List Instr) (points : List (Int × Label))
    (d : Nat) (slot : TempSlot) (start : Label) : Prop where
  indices : points.map Prod.fst =
    (List.range p.graph.yields.length).map (fun (i : Nat) => (i : Int) + 1)
  labels_nodup : (points.map Prod.snd).Nodup
  placed_once : ∀ point ∈ points, code.count (.markLabel point.2) = 1
  /-- Control runs straight to the dispatch. -/
  straight : ∀ i ∈ code.take d, i.passes = true
  dispatch : (code.drop d).take 8 = dispatchCode points start slot
  ret : ∀ w, .ret w ∈ code → w = false
  store : ∀ q, code[q]? = some .storeState →
    q = d + 3 ∨ ∃ p n, q = p + 1 ∧ StopsAt points code p n
  /-- What has been set on a path, and what was set last where control returns. -/
  path : ∀ {V W : Type} (R : Runtime V W) (s₀ s : Kept V W) (ctl : Control V) (stored : List V),
    R.Path code s₀ ctl s stored →
      ∃ states : List Int, stored = states.map (fun n => R.literal (.int n)) ∧
        p.StatesSet d ctl.pc states ∧ (∀ n ∈ states, (GeneratorState.ofInt? n).isSome = true) ∧
        (code[ctl.pc]? = some (.ret false) → ∃ n, stored.getLast? = some (R.literal (.int n)) ∧
          (n = GeneratorState.closed.toInt ∨ n ∈ p.graph.yields.map (·.index)))

/-- Every generator has its dispatch, whose cases are the resume points `1, …, n`, and keeps its
state by it. -/
theorem Procedure.exists_dispatches {p : Procedure} {options : Options} {strategy : LayoutStrategy}
    {out : Array Instr} {sum : Summary} (hgen : p.isGenerator = true)
    (h : p.lowerInto options strategy #[] = (out, .ok sum)) :
    ∃ d slot start, p.Dispatches out.toList sum.resumePoints d slot start := by
  obtain ⟨c, labels, ds, final, g, pre, slot, post, rfl, hpoints, -, -, hcode⟩ :=
    generatorLowered_of_lowerInto hgen h
  have hentered := hcode.entered
  have hresume := Plan.points_eq hcode.made hgen
  rw [hpoints]
  refine ⟨pre.length, slot, ⟨c.bound⟩, ?_, ?_, ?_, ?_, ?_, fun w hw => ?_, fun q hq => ?_,
    fun R s₀ s ctl stored path => ?_⟩
  · rw [hresume, List.map_map]
    rfl
  · rw [hresume, List.map_map]
    refine List.Nodup.map (fun i j hij => ?_) List.nodup_range
    have hindex := congrArg Label.index hij
    exact Nat.add_left_cancel hindex
  · rintro ⟨index, l⟩ hpoint
    obtain ⟨y, hy, rfl⟩ :=
      List.mem_map.1 (Plan.mem_yields_of_mem_points hcode.made hgen hpoint)
    obtain ⟨l', q, hpoint', hq⟩ := hcode.exists_point hy
    have hlabel := (Plan.mem_points_iff hcode.made hgen).1 hpoint
    obtain rfl := Option.some_inj.1 (hlabel.symm.trans ((Plan.mem_points_iff hcode.made hgen).1 hpoint'))
    exact count_markLabel hcode.placed_nodup (mem_placedIn.2 (List.mem_of_getElem? hq))
  · rw [hentered.code_eq, List.take_left]
    exact hentered.passes
  · rw [hentered.code_eq, List.drop_left]
    rfl
  · obtain ⟨q, hq⟩ := List.getElem?_of_mem hw
    obtain ⟨-, hstore⟩ | ⟨p, n, -, -, ⟨-, hstore⟩ | ⟨-, hret⟩⟩ := hentered.stops_of hq rfl
    · cases hstore
    · cases hstore
    · cases hret
      rfl
  · obtain ⟨hat, -⟩ | ⟨p, n, hstops, -, ⟨hat, -⟩ | ⟨-, hret⟩⟩ := hentered.stops_of hq rfl
    · exact .inl hat
    · exact .inr ⟨p, n, hat, hstops⟩
    · cases hret
  · obtain ⟨-, states, rfl, hstates⟩ := hentered.states_of_path hcode.made hgen path
    refine ⟨states, rfl, hstates, Plan.isSome_of_statesSet hcode.made hgen hstates, fun hret => ?_⟩
    obtain ⟨-, hstore⟩ | ⟨p, n, hstops, hlate, ⟨-, hstore⟩ | ⟨hat, -⟩⟩ := hentered.stops_of hret rfl
    · cases hstore
    · cases hstore
    · obtain ⟨-, before, hbefore⟩ := path.stored_of_stopsAt hstops hat
      refine ⟨n, by rw [hbefore, List.getLast?_concat], hstops.label.imp_right ?_⟩
      rintro ⟨l, hl, -⟩
      exact Plan.mem_yields_of_mem_points hcode.made hgen hl

theorem counter_dispatches :
    ∃ d slot start, (counter true).Dispatches (counterCode true).toList [(1, ⟨1⟩)] d slot start :=
  Procedure.exists_dispatches rfl (lowerInto_counter true)

end StackCode
