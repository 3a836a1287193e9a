import StackCode.Proofs.Temps.Coded

/-!
# The temporaries of a procedure

Finished code is the history of a pool that has all its slots back: the views are filled in front, what
follows lends slots, the exit hands the return slot back, and the slots of the views come last.  Main
statement: `Plan.Lowered.manages`.
-/

namespace StackCode

/-! ## Slots that are handed back -/

namespace TempPool

variable {code : List Instr}

/-- The slots of views are handed back, each with the end of its use behind. -/
theorem History.releaseAll {vs : List (Name × TempSlot)} {frame frame' : Frame}
    {ds : List Directive} {u : Unit} (h : frame.temps.History (vs.map Prod.snd) code)
    (hnodup : (vs.map Prod.snd).Nodup)
    (hgives : (vs.forM fun v => Draft.releaseTemp v.2).Gives frame ds frame' u) :
    frame'.temps.History [] (code ++ vs.map fun v => .freeTemp v.2) := by
  induction vs generalizing frame ds code with
  | nil =>
    obtain ⟨-, rfl, -⟩ := Draft.gives_pure_iff.1 hgives
    rw [List.map_nil, List.append_nil]
    exact h
  | cons v vs ih =>
    obtain ⟨_, _, _, _, hfirst, hrest, -⟩ := Draft.gives_bind_iff.1 hgives
    obtain ⟨temps, hrelease, -, rfl⟩ := Draft.gives_releaseTemp_iff.1 hfirst
    obtain ⟨hnot, hnodup⟩ := List.nodup_cons.1 hnodup
    have hothers : frame.temps.History (vs.map Prod.snd) code :=
      ⟨h.declared, h.begins, h.unborn, h.ends, fun s hs => h.filled s (List.mem_cons_of_mem _ hs)⟩
    have hall := ih (hothers.release hrelease hnot) hnodup hrest
    rwa [List.append_assoc] at hall

end TempPool

namespace Plan

open Draft

variable {c : Plan} {frame frame' : Frame} {ds : List Directive} {f g : Flow}
  {code seg : List Instr} {u : Unit}

/-! ## The exit -/

/-- The end of the exit block has no use for temporaries, or fetches the value in the return slot and
hands that back. -/
theorem exit_cases (h : c.exit.Gives frame ds frame' u) :
    c.Lends frame ds frame' ∨ c.procedure.isGenerator = false ∧
      ∃ l slot temps, frame.returnSlot = some slot ∧ frame.temps.tryRelease slot = (.ok (), temps) ∧
        frame'.temps = temps ∧ frame'.debugLocals = frame.debugLocals ∧
        ds = c.defaultCode.map .instr ++ [.returnPoint l slot, .instr (.freeTemp slot)] := by
  unfold exit at h
  split at h
  · obtain ⟨rfl, rfl⟩ := exitGenerator_gives h
    refine .inl (.abstain (.refl _) (List.forall_mem_append.2 ⟨fun d hd => ?_, ?_⟩))
    · obtain ⟨l, -, rfl⟩ := Option.map_eq_some_iff.1 (Option.mem_toList.1 hd)
      rfl
    · exact List.forall_mem_cons.2 ⟨rfl, List.forall_mem_cons.2
        ⟨rfl, List.forall_mem_singleton.2 rfl⟩⟩
  · next hgen =>
    have hdefault : (ofFragment (Fragment.pushDefault c.procedure.returnType)).Abstains :=
      abstains_ofFragment (Fragment.isWork_pushDefault _).isPlain
    have hreturn : (ofFragment (Fragment.pushDefault c.procedure.returnType) >>= fun _ =>
        emit (.ret !c.procedure.returnType.isVoid)).Abstains :=
      hdefault.bind fun _ => abstains_emit rfl
    unfold exitOrdinary at h
    rw [gives_getFrame_bind_iff] at h
    simp only [liftM_eq] at h
    cases hslot : frame.returnSlot with
    | none =>
      rw [hslot] at h
      cases hlabel : frame.returnLabel with
      | none =>
        rw [hlabel] at h
        exact .inl (lends_of_abstains hreturn h)
      | some l =>
        rw [hlabel] at h
        exact .inl (lends_of_abstains ((abstains_mark l .forward).bind fun _ => hreturn) h)
    | some slot =>
      rw [hslot] at h
      obtain ⟨_, _, -, h₁, rfl⟩ := gives_ofFragment_bind_iff.1 h
      obtain ⟨_, h₂, rfl⟩ := gives_emit_bind_iff.1 h₁
      obtain ⟨l, mid, _, _, hl, h₃, rfl⟩ := gives_bind_iff.1 h₂
      obtain ⟨hsame, -⟩ := abstains_returnLabel _ _ _ _ hl
      obtain ⟨rfl, -⟩ := gives_returnLabel_iff.1 hl
      obtain ⟨_, h₄, rfl⟩ := gives_directive_bind_iff.1 h₃
      obtain ⟨temps, hrelease, rfl, rfl⟩ := gives_releaseTemp_iff.1 h₄
      rw [hsame.temps] at hrelease
      refine .inr ⟨Bool.eq_false_iff.2 hgen, l, slot, temps, rfl, hrelease, rfl, hsame.debugLocals, ?_⟩
      simp [defaultCode]

/-- The code that fetches the value in the return slot, if any value has been stored, and the end of the
use of the slot. -/
theorem returnPoint_parts {l : Label} {slot : TempSlot} (ha : Assembles f
      (c.defaultCode.map .instr ++ [.returnPoint l slot, .instr (.freeTemp slot)]) seg g) :
    ∃ front point, seg = front ++ (point ++ [.freeTemp slot]) ∧ (∀ i ∈ front, i.temp? = none) ∧
      (point = [] ∨ point = [.markLabel l] ∨ point = [.markLabel l, .loadTemp slot, .ret true]) := by
  obtain ⟨f₁, front, _, hdefault, hrest, rfl⟩ := Assembles.append_iff.1 ha
  obtain ⟨point, f₂, _, hpoint, hfree, rfl⟩ := Assembles.cons_iff.1 hrest
  obtain ⟨rfl, -⟩ := Flow.step_note rfl (Assembles.singleton_iff.1 hfree)
  obtain ⟨-, hdead, -⟩ := defaultCode_assembles hdefault
  obtain ⟨-, hcases⟩ := returnPoint_assembles hdead hpoint
  refine ⟨front, point, rfl, hdefault.temp?_eq_none fun d hd => ?_, ?_⟩
  · obtain ⟨i, hi, rfl⟩ := List.mem_map.1 hd
    rcases List.mem_append.1 hi with hi | hi
    · exact Instr.temp?_of_isPlain (Fragment.isPlain_pushDefault _ i hi)
    · rw [List.mem_singleton.1 hi]
      rfl
  · rcases hcases with ⟨-, rfl⟩ | ⟨-, ⟨-, rfl⟩ | ⟨-, rfl⟩⟩
    · exact .inl rfl
    · exact .inr (.inr rfl)
    · exact .inr (.inl rfl)

/-- The exit carries the history of the pool on. -/
theorem exit_history (h : c.exit.Gives frame ds frame' u) (htidy : frame.Tidy)
    (ha : Assembles f ds seg g)
    (hcode : frame.temps.History (frame.debugLocals.map Prod.snd) code) :
    frame'.debugLocals = frame.debugLocals ∧
      frame'.temps.History (frame.debugLocals.map Prod.snd) (code ++ seg) := by
  rcases exit_cases h with hlends | ⟨-, l, slot, temps, hslot, hrelease, rfl, hviews, rfl⟩
  · obtain ⟨-, hviews⟩ := hlends.tidy htidy
    exact ⟨hviews, hviews ▸ hlends.history htidy ha hcode⟩
  · refine ⟨hviews, ?_⟩
    obtain ⟨front, point, rfl, hfront, hpoint⟩ := returnPoint_parts ha
    have hnot := htidy.apart slot hslot
    have hdefault := hcode.spares hfront
    have hfetched := hdefault.uses point fun i hi s hs => by
      have hload : i.isAlloc = false ∧ s = slot := by
        rcases hpoint with rfl | rfl | rfl
        · cases hi
        · rw [List.mem_singleton.1 hi] at hs
          cases hs
        · simp only [List.mem_cons, List.not_mem_nil, or_false] at hi
          rcases hi with rfl | rfl | rfl <;> cases hs
          exact ⟨rfl, rfl⟩
      obtain ⟨halloc, rfl⟩ := hload
      exact ⟨halloc, (htidy.inUse_iff s).2 (.inr hslot), hnot⟩
    have hall := hfetched.release hrelease hnot
    simpa only [List.append_assoc] using hall

/-- What the exit loads is returned. -/
theorem exit_fetches (h : c.exit.Gives frame ds frame' u) (ha : Assembles f ds seg g) :
    c.Fetches seg := by
  rcases exit_cases h with hlends | ⟨hgen, l, slot, temps, -, -, -, -, rfl⟩
  · exact hlends.fetches ha
  · obtain ⟨front, point, rfl, hfront, hpoint⟩ := returnPoint_parts ha
    refine (fetches_of_temp? hfront).append (Fetches.append ?_
      (fetches_of_notes (List.forall_mem_singleton.2 rfl)))
    rcases hpoint with rfl | rfl | rfl
    · exact fetches_of_temp? nofun
    · exact fetches_of_temp? (List.forall_mem_singleton.2 rfl)
    · intro k s hk
      match k with
      | 1 =>
        cases hk
        exact .inl ⟨hgen, rfl, rfl⟩
      | 0 | 2 => cases hk
      | k + 3 => cases hk

/-! ## The code as a whole -/

/-- The slots of the debugger's views. -/
def viewSlots (c : Plan) : List TempSlot := (c.procedure.views c.options).map Prod.snd

/-- No two views are in one slot. -/
theorem viewSlots_nodup (c : Plan) : c.viewSlots.Nodup :=
  (debugLocals_tidy (.empty {}) (c.debugLocals_apply {})).nodup

/-- The code that fills the views is the history of a pool with nothing but their slots. -/
theorem prologueCode_history (c : Plan) (labels : LabelTable) :
    (({ labels } : Frame).behind (c.procedure.views c.options)).temps.History c.viewSlots
      c.prologueCode := by
  have hcheck := TempPool.History.empty.spares fun i hi =>
    Instr.temp?_of_isPlain (c.isPlain_checkCode i hi)
  have hsetup := hcheck.spares fun i hi =>
    Instr.temp?_of_isPlain (c.procedure.isWork_setup.isPlain i hi)
  have hviews := hsetup.viewsCode c.procedure c.options labels
  have hall := hviews.spares fun i hi => Instr.temp?_of_isPlain (c.isPlain_braceCode i hi)
  unfold prologueCode openingCode viewSlots
  simpa only [List.append_assoc, List.nil_append] using hall

theorem prologueCode_fetches (c : Plan) : c.Fetches c.prologueCode := by
  have hviews : c.Fetches (c.procedure.viewsCode c.options) := by
    unfold Procedure.viewsCode
    split
    · intro k slot hk
      obtain ⟨view, -, hmem⟩ := List.mem_flatMap.1 (List.mem_of_getElem? hk)
      simp [viewCode, Instr.callIntrinsic] at hmem
    · exact fetches_of_temp? (List.forall_mem_nil _)
  have hplain {is : List Instr} (his : ∀ i ∈ is, i.isPlain = true) : c.Fetches is :=
    fetches_of_temp? fun i hi => Instr.temp?_of_isPlain (his i hi)
  exact (hplain c.isPlain_checkCode).append ((hplain c.procedure.isWork_setup.isPlain).append
    (hviews.append (hplain c.isPlain_braceCode)))

theorem inner_lends {first : Block} {mids : List Block} {last : Block} (hfirst : first.kind = .start)
    (hmids : ∀ b ∈ mids, b.kind = .normal) (hlast : last.kind = .exit)
    (h : (c.inner first (mids ++ [last])).Gives frame ds frame' u) :
    ∃ mid ds₁ ds₂, ds = ds₁ ++ ds₂ ∧ c.Lends frame ds₁ mid ∧ c.exit.Gives mid ds₂ frame' () := by
  rw [inner_eq] at h
  obtain ⟨_, mid₀, ds₀, _, hdispatch, h₁, rfl⟩ := gives_bind_iff.1 h
  obtain ⟨mid₁, ds₁, _, rfl, hbody, h₂⟩ := body_lends h₁
  obtain ⟨_, mid₂, ds₂, _, hend, hrest, rfl⟩ := gives_bind_iff.1 h₂
  obtain ⟨mid, ds₃, ds₄, rfl, hblocks, hexit⟩ := blocksFrom_lends hmids hlast hrest
  have hlends : c.Lends frame ds₀ mid₀ := by
    split at hdispatch
    · next hgen => exact dispatch_lends hgen hdispatch
    · exact lends_of_abstains (abstains_pure _) hdispatch
  unfold blockEnd at hend
  rw [if_neg (by rw [hfirst]; nofun)] at hend
  refine ⟨mid, ds₀ ++ (ds₁ ++ (ds₂ ++ ds₃)), ds₄, by simp only [List.append_assoc], ?_, hexit⟩
  exact hlends.append (hbody.append ((lends_of_abstains (c.edge_abstains first _) hend).append hblocks))

/-- How finished code uses temporaries: it is the history of a pool that has all its slots back, each
slot of a view has been filled once and handed back at the end, and nothing is loaded that has not been
stored for the same. -/
structure Manages (c : Plan) (final : Frame) (code : List Instr) : Prop where
  history : final.temps.History [] code
  idle : ∀ s, final.temps.inUse s = false
  debugLocals : final.debugLocals = c.procedure.views c.options
  code_eq : ∃ front, code = front ++ c.viewSlots.map .freeTemp ∧
    ∀ s ∈ c.viewSlots, usesOf s front = [.allocTemp s .value, .storeTemp s]
  fetches : c.Fetches code

theorem Lowered.manages {labels : LabelTable} {final : Frame} (hmade : c.Made)
    (h : c.Lowered labels ds final code g) : c.Manages final code := by
  obtain ⟨first, mids, last, hopens, hmids, hlast⟩ := hmade.opens_to_exit
  obtain ⟨ds', body, hopened⟩ := h.opened hopens
  obtain ⟨_, mid', ds₁, ds₂, hinner, hfree, rfl⟩ := gives_bind_iff.1 hopened.gives
  obtain ⟨mid, ds₁, dsExit, rfl, hlends, hexit⟩ := inner_lends hopens.start hmids hlast hinner
  obtain ⟨f₂, _, frees, hcode, hfrees, rfl⟩ := Assembles.append_iff.1 hopened.assembles
  obtain ⟨f₁, lent, exit, hlent, hexited, rfl⟩ := Assembles.append_iff.1 hcode
  -- the slots of the views are checked out until the end
  have htidy : (({ labels } : Frame).behind (c.procedure.views c.options)).Tidy :=
    debugLocals_tidy (.empty labels) (c.debugLocals_apply labels)
  obtain ⟨htidy', hviews⟩ := hlends.tidy htidy
  have hhistory := hlends.history htidy hlent (c.prologueCode_history labels)
  obtain ⟨hviews', hhistory'⟩ := exit_history hexit htidy' hexited hhistory
  rw [hviews] at hviews' hhistory'
  have hviews' : mid'.debugLocals = c.procedure.views c.options := hviews'
  unfold releaseDebugLocals at hfree
  rw [gives_getFrame_bind_iff, hviews'] at hfree
  obtain ⟨rfl, -⟩ := releaseAll_code hfree
  obtain ⟨-, hfinal, -⟩ := releaseAll_gives hfree
  have hnotes : frees = c.viewSlots.map .freeTemp := by
    have hfrees := hfrees
    rw [show (c.procedure.views c.options).map (fun v => Directive.instr (.freeTemp v.2)) =
      (c.viewSlots.map Instr.freeTemp).map .instr by simp [viewSlots]] at hfrees
    refine (hfrees.of_notes fun i hi => ?_).1
    obtain ⟨s, -, rfl⟩ := List.mem_map.1 hi
    rfl
  have hcodeEq : code = c.prologueCode ++ lent ++ exit ++ frees := by
    rw [hopened.code_eq, prologueCode]
    simp only [List.append_assoc]
  refine ⟨?_, TempPool.firstLeaked?_eq_none_iff.1 h.unleaked, hfinal.trans hviews',
    ⟨c.prologueCode ++ lent ++ exit, hnotes ▸ hcodeEq, hhistory'.filled⟩, ?_⟩
  · have hall := hhistory'.releaseAll c.viewSlots_nodup hfree
    rw [hcodeEq, hnotes, viewSlots, List.map_map]
    exact hall
  · rw [hcodeEq]
    have hlentOut := c.prologueCode_fetches.append (hlends.fetches hlent)
    refine (hlentOut.append (exit_fetches hexit hexited)).append (fetches_of_notes fun i hi => ?_)
    rw [hnotes] at hi
    obtain ⟨s, -, rfl⟩ := List.mem_map.1 hi
    rfl

end Plan

end StackCode
