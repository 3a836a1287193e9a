import StackCode.Proofs.Plan.Made
import StackCode.Proofs.Refusal.Ledger

/-!
# Labels and slots in order

`c.Keeps todo frame labels staged` is the account that a draft keeps of its labels: every label of the
plan has been placed or is among those still to be placed, `todo`, which are all different; what has
been branched to is one of either, or the return label; and the return label has been branched to only
where a return value is stored.  Allotting, branching and placing keep it up.
-/

namespace StackCode

/-- A slot that has been asked for on top of those of a tidy frame. -/
def Frame.Lends (frame : Frame) (slot : TempSlot) : Prop :=
  ∃ temps, frame.temps.tryRelease slot = (.ok (), temps) ∧ ({ frame with temps } : Frame).Tidy

/-- A slot that is asked for can be handed back. -/
theorem Frame.Tidy.lends {frame : Frame} (h : frame.Tidy) (ty : Ty) :
    ({ frame with temps := (frame.temps.acquire ty).2.2 } : Frame).Lends (frame.temps.acquire ty).1 := by
  have hused := ((frame.temps.acquire_spec ty).2 (frame.temps.acquire ty).1).2 (.inl rfl)
  obtain ⟨temps, hrelease, -⟩ := TempPool.exists_tryRelease hused
  exact ⟨temps, hrelease, h.congr (TempPool.inUse_borrow hrelease) rfl rfl⟩

namespace Plan

/-- What is known of the labels while a draft is assembled. -/
structure Keeps (c : Plan) (todo : List Label) (frame : Frame) (labels : LabelTable)
    (staged : Bool) : Prop where
  fits : frame.Fits c
  nodup : todo.Nodup
  owed : ∀ l ∈ todo, l.index < frame.labels.size ∧ labels.isMarked l = false ∧
    frame.returnLabel ≠ some l
  planned : ∀ l : Label, l.index < c.bound → labels.isMarked l = true ∨ l ∈ todo
  settled : ∀ l, labels.isReferenced l = true →
    labels.isMarked l = true ∨ l ∈ todo ∨ frame.returnLabel = some l
  fresh : ∀ l : Label, frame.labels.size ≤ l.index →
    labels.isMarked l = false ∧ labels.isReferenced l = false
  ret : ∀ l, frame.returnLabel = some l → l.index < frame.labels.size ∧ labels.isMarked l = false ∧
    (labels.isReferenced l = true → c.outline.stages = true → staged = true)
  exit : ∀ l, c.label? c.procedure.graph.exit = some l → labels.isReferenced l = true →
    c.reachesExit = true

/-- A label that may be branched to. -/
structure Refers (c : Plan) (todo : List Label) (frame : Frame) (labels : LabelTable)
    (staged : Bool) (l : Label) : Prop where
  settled : labels.isMarked l = true ∨ l ∈ todo ∨ frame.returnLabel = some l
  ret : frame.returnLabel = some l → c.outline.stages = true → staged = true
  exit : c.label? c.procedure.graph.exit = some l → c.reachesExit = true

variable {c : Plan} {todo : List Label} {frame frame' : Frame} {labels labels' : LabelTable}
  {staged : Bool} {l : Label}

namespace Keeps

/-- A label that may be branched to has been allotted. -/
theorem lt_of_refers (h : c.Keeps todo frame labels staged)
    (hl : c.Refers todo frame labels staged l) : l.index < frame.labels.size := by
  rcases hl.settled with hmarked | howed | hret
  · by_contra hge
    rw [(h.fresh l (Nat.le_of_not_lt hge)).1] at hmarked
    cases hmarked
  · exact (h.owed l howed).1
  · exact (h.ret l hret).1

/-- Branches to labels. -/
theorem refer (h : c.Keeps todo frame labels staged) {refs : List Label}
    (hgrows : labels.Grows labels' [] refs)
    (hrefs : ∀ l ∈ refs, c.Refers todo frame labels staged l) :
    c.Keeps todo frame labels' staged := by
  have hmarked (l : Label) : labels'.isMarked l = labels.isMarked l :=
    Bool.eq_iff_iff.2 ((hgrows.isMarked_iff l).trans (or_iff_left List.not_mem_nil))
  refine ⟨h.fits, h.nodup, fun l hl => ?_, fun l hl => ?_, fun l hl => ?_, fun l hl => ?_,
    fun l hl => ?_, fun l hl href => ?_⟩
  · rw [hmarked]
    exact h.owed l hl
  · rw [hmarked]
    exact h.planned l hl
  · rw [hmarked]
    rcases (hgrows.isReferenced_iff l).1 hl with hl | hl
    · exact h.settled l hl
    · exact (hrefs l hl).settled
  · obtain ⟨hfree, hunreferenced⟩ := h.fresh l hl
    refine ⟨(hmarked l).trans hfree, eq_false_of_ne_true fun href => ?_⟩
    rcases (hgrows.isReferenced_iff l).1 href with href | href
    · rw [hunreferenced] at href
      cases href
    · exact absurd (h.lt_of_refers (hrefs l href)) (Nat.not_lt.2 hl)
  · obtain ⟨hlt, hfree, hstaged⟩ := h.ret l hl
    refine ⟨hlt, (hmarked l).trans hfree, fun href => ?_⟩
    rcases (hgrows.isReferenced_iff l).1 href with href | href
    · exact hstaged href
    · exact (hrefs l href).ret hl
  · rcases (hgrows.isReferenced_iff l).1 href with href | href
    · exact h.exit l hl href
    · exact (hrefs l href).exit hl

/-- The first of the labels to be placed is placed. -/
theorem place (h : c.Keeps (l :: todo) frame labels staged) (hgrows : labels.Grows labels' [l] []) :
    c.Keeps todo frame labels' staged := by
  obtain ⟨hnot, hnodup⟩ := List.nodup_cons.1 h.nodup
  have hother {m : Label} (hm : m ≠ l) : labels'.isMarked m = labels.isMarked m := by
    refine Bool.eq_iff_iff.2 ((hgrows.isMarked_iff m).trans (or_iff_left ?_))
    rwa [List.mem_singleton]
  have hplaced : labels'.isMarked l = true := (hgrows.isMarked_iff l).2 (.inr (List.mem_singleton.2 rfl))
  have href (m : Label) : labels'.isReferenced m = labels.isReferenced m :=
    Bool.eq_iff_iff.2 ((hgrows.isReferenced_iff m).trans (or_iff_left List.not_mem_nil))
  obtain ⟨hlt, -, hne⟩ := h.owed l List.mem_cons_self
  refine ⟨h.fits, hnodup, fun m hm => ?_, fun m hm => ?_, fun m hm => ?_, fun m hm => ?_,
    fun m hm => ?_, fun m hm => ?_⟩
  · obtain ⟨hlt, hfree, hret⟩ := h.owed m (List.mem_cons_of_mem l hm)
    refine ⟨hlt, ?_, hret⟩
    rw [hother fun heq => hnot (heq ▸ hm)]
    exact hfree
  · by_cases heq : m = l
    · exact .inl (heq ▸ hplaced)
    · rw [hother heq]
      exact (h.planned m hm).imp_right fun hmem => (List.mem_cons.1 hmem).resolve_left heq
  · rw [href] at hm
    by_cases heq : m = l
    · exact .inl (heq ▸ hplaced)
    · rw [hother heq]
      exact (h.settled m hm).imp_right (Or.imp_left fun hmem => (List.mem_cons.1 hmem).resolve_left heq)
  · rw [href, hother fun heq => by subst heq; omega]
    exact h.fresh m hm
  · rw [href, hother fun heq => hne (heq ▸ hm)]
    exact h.ret m hm
  · rw [href]
    exact h.exit m hm

/-- The account does not depend on the slots. -/
theorem congr (h : c.Keeps todo frame labels staged) (hlabels : frame'.labels = frame.labels)
    (hlabel : frame'.returnLabel = frame.returnLabel) (hfits : frame'.Fits c) :
    c.Keeps todo frame' labels staged := by
  refine ⟨hfits, h.nodup, ?_, h.planned, ?_, ?_, ?_, h.exit⟩
  · rw [hlabels, hlabel]
    exact h.owed
  · rw [hlabel]
    exact h.settled
  · rw [hlabels]
    exact h.fresh
  · rw [hlabels, hlabel]
    exact h.ret

/-- The store of a return value. -/
theorem stage (h : c.Keeps todo frame labels staged) : c.Keeps todo frame labels true :=
  ⟨h.fits, h.nodup, h.owed, h.planned, h.settled, h.fresh,
    fun l hl => ⟨(h.ret l hl).1, (h.ret l hl).2.1, fun _ _ => rfl⟩, h.exit⟩

theorem size_add (frame : Frame) (name : Option String) :
    (frame.labels.add { name }).2.size = frame.labels.size + 1 := Array.size_push _

/-- A label of its own is to be placed next. -/
theorem add (h : c.Keeps todo frame labels staged) (name : Option String) :
    c.Keeps (⟨frame.labels.size⟩ :: todo) { frame with labels := (frame.labels.add { name }).2 }
      labels staged := by
  have hsize := size_add frame name
  have hret : frame.returnLabel ≠ some ⟨frame.labels.size⟩ := fun hl =>
    absurd (h.ret _ hl).1 (Nat.lt_irrefl _)
  refine ⟨h.fits.mono (Draft.grows_add frame name) rfl rfl, List.nodup_cons.2 ⟨fun hmem => ?_, h.nodup⟩,
    List.forall_mem_cons.2 ⟨⟨?_, (h.fresh _ (Nat.le_refl _)).1, hret⟩, fun m hm => ?_⟩,
    fun m hm => (h.planned m hm).imp_right (List.mem_cons_of_mem _),
    fun m hm => (h.settled m hm).imp_right (Or.imp_left (List.mem_cons_of_mem _)),
    fun m hm => h.fresh m ?_, fun m hm => ?_, h.exit⟩
  · exact absurd (h.owed _ hmem).1 (Nat.lt_irrefl _)
  · simp only [hsize]
    omega
  · obtain ⟨hlt, hrest⟩ := h.owed m hm
    refine ⟨?_, hrest⟩
    simp only [hsize]
    omega
  · simp only [hsize] at hm
    omega
  · obtain ⟨hlt, hrest⟩ := h.ret m hm
    refine ⟨?_, hrest⟩
    simp only [hsize]
    omega

/-- The return label is allotted. -/
theorem returning (h : c.Keeps todo frame labels staged) (hnone : frame.returnLabel = none)
    (hslot : c.outline.stages = true → ∃ s, frame.returnSlot = some s) (name : Option String) :
    c.Keeps todo { frame with
      labels := (frame.labels.add { name }).2
      returnLabel := some ⟨frame.labels.size⟩ } labels staged := by
  have hsize := size_add frame name
  have hnew := h.fresh ⟨frame.labels.size⟩ (Nat.le_refl _)
  have hfits : ({ frame with
      labels := (frame.labels.add { name }).2
      returnLabel := some ⟨frame.labels.size⟩ } : Frame).Fits c := by
    refine ⟨?_, h.fits.slot, fun m hm => ?_⟩
    · have := h.fits.size
      simp only [hsize]
      omega
    · cases hm
      exact ⟨h.fits.size, hslot⟩
  refine ⟨hfits, h.nodup, fun m hm => ?_, h.planned, fun m hm => ?_, fun m hm => ?_, fun m hm => ?_,
    h.exit⟩
  · obtain ⟨hlt, hfree, -⟩ := h.owed m hm
    refine ⟨?_, hfree, fun heq => ?_⟩
    · simp only [hsize]
      omega
    · cases heq
      exact absurd hlt (Nat.lt_irrefl _)
  · rcases h.settled m hm with hmarked | howed | hret
    · exact .inl hmarked
    · exact .inr (.inl howed)
    · rw [hnone] at hret
      cases hret
  · simp only [hsize] at hm
    exact h.fresh m (by omega)
  · cases hm
    refine ⟨?_, hnew.1, fun href => ?_⟩
    · simp only [hsize]
      omega
    · rw [hnew.2] at href
      cases href

end Keeps

/-! ## Drafts that allot -/

/-- The labels are in order, and the slots are as they should be. -/
def Books (c : Plan) (todo : List Label) (L : Frame → Prop) : Account :=
  fun frame labels staged => c.Keeps todo frame labels staged ∧ L frame

variable {R S : Account} {v : Bool} {d m : Nat}

/-- An instruction that branches. -/
theorem branch_meets (todo : List Label) {i : Instr} (hret : i.returnDepth? = none)
    (hpushes : i.pushes = 0)
    (hrefers : ∀ frame labels staged, R frame labels staged →
      c.Keeps todo frame labels staged ∧ S frame labels staged ∧
        (v = true → (∀ l ∈ i.targets, c.Refers todo frame labels staged l) ∧
          ∀ labels', c.Keeps todo frame labels' staged → S frame labels' staged)) :
    (Draft.emit i).Meets c.Permits (c.At R v i.pops) fun _ => c.At S (v && !i.endsFlow) 0 := by
  have hemit := emit_meets (c := c) (R := R) (S := S) (v := v) (d := i.pops) (m := 0) (i := i)
    (fun _ _ _ _ => (Nat.zero_add i.pops).symm) (fun r hr => ?_) (fun _ => by rw [hpushes])
    fun frame labels staged h hsize => ?_
  · rwa [hpushes] at hemit
  · rw [hret] at hr
    cases hr
  · obtain ⟨hkeeps, hR, hrest⟩ := hrefers frame labels staged h
    refine ⟨hR, fun hv => ⟨fun l hl => ?_, fun labels' hlabels => (hrest hv).2 labels' ?_⟩⟩
    · exact Nat.lt_of_lt_of_le (hkeeps.lt_of_refers ((hrest hv).1 l hl)) hsize
    · exact hkeeps.refer (LabelTable.referenceAll_grows hlabels) (hrest hv).1

/-- The next label to be placed is placed. -/
theorem place_meets (arrival : Arrival) {v' : Bool} {L : Frame → Prop}
    (hlive : v = true → arrival ≠ .handler ∧ d = 0) (hv : v = true → v' = true)
    (hR : ∀ frame labels staged, R frame labels staged → c.Books (l :: todo) L frame labels staged ∧
      (arrival ≠ .forward ∨ labels.isReferenced l = true → v' = true)) :
    (Draft.mark l arrival).Meets c.Permits (c.At R v d) fun _ =>
      c.At (c.Books todo L) v' (Flow.entryDepth arrival) := by
  refine mark_meets hlive hv fun frame labels staged h hsize => ?_
  obtain ⟨⟨hkeeps, hL⟩, hreach⟩ := hR frame labels staged h
  obtain ⟨hlt, hfree, -⟩ := hkeeps.owed l List.mem_cons_self
  exact ⟨Nat.lt_of_lt_of_le hlt hsize, hfree, hreach, fun labels' hgrows => ⟨hkeeps.place hgrows, hL⟩⟩

/-- A label that no block has, and that nothing has branched to yet. -/
def Unused (c : Plan) (l : Label) (R : Account) : Account := fun frame labels staged =>
  R frame labels staged ∧ labels.isReferenced l = false ∧ c.bound ≤ l.index

theorem ne_label?_of_bound_le (h : c.bound ≤ l.index) (b : BlockId) : c.label? b ≠ some l := by
  intro hl
  have hlt := label?_lt hl
  unfold bound at h
  omega

theorem freshLabel_meets :
    Draft.freshLabel.Meets c.Permits (c.At (c.Books todo Frame.Tidy) v d) fun l =>
      c.At (c.Unused l (c.Books (l :: todo) Frame.Tidy)) v d := by
  refine .of_gives fun frame => ⟨_, _, _, Draft.gives_freshLabel_iff.2 ⟨rfl, rfl, rfl⟩, fun _ => rfl,
    (Draft.grows_add frame none).extends, fun f hp => ⟨⟨⟨hp.1.1.add none, ?_⟩, ?_⟩, hp.2⟩⟩
  · exact hp.1.2.congr (fun _ => rfl) rfl rfl
  · exact ⟨(hp.1.1.fresh _ (Nat.le_refl _)).2, hp.1.1.fits.size⟩

theorem namedLabel_meets (name : String) :
    (Draft.namedLabel name).Meets c.Permits (c.At (c.Books todo Frame.Tidy) v d) fun l =>
      c.At (fun frame labels staged => c.Books (l :: todo) Frame.Tidy frame labels staged ∧
        c.bound ≤ l.index) v d := by
  refine .of_gives fun frame => ⟨_, _, _, Draft.gives_namedLabel_iff.2 ⟨rfl, rfl, rfl⟩, fun _ => rfl,
    (Draft.grows_add frame (some name)).extends, fun f hp => ⟨⟨⟨hp.1.1.add (some name), ?_⟩, ?_⟩, hp.2⟩⟩
  · exact hp.1.2.congr (fun _ => rfl) rfl rfl
  · exact hp.1.1.fits.size

theorem acquireTemp_meets (ty : Ty) :
    (Draft.acquireTemp ty).Meets c.Permits (c.At (c.Books todo Frame.Tidy) v d) fun slot =>
      c.At (c.Books todo (·.Lends slot)) v d := by
  refine .of_gives fun frame => ⟨_, _, _, Draft.gives_acquireTemp_iff.2 ⟨rfl, rfl, rfl⟩,
    fun f => f.through_allocation _ _ _, .refl _, fun f hp => ⟨⟨?_, hp.1.2.lends ty⟩, hp.2⟩⟩
  exact hp.1.1.congr rfl rfl (hp.1.1.fits.mono (Draft.grows_temps frame _) rfl rfl)

/-- A slot that is in use is handed back. -/
theorem releaseTemp_meets_of {slot : TempSlot}
    (h : ∀ frame labels staged, R frame labels staged →
      ∃ temps, frame.temps.tryRelease slot = (.ok (), temps) ∧ S { frame with temps } labels staged) :
    (Draft.releaseTemp slot).Meets c.Permits (c.At R v d) fun _ => c.At S v d := by
  have hok {frame : Frame} {temps : TempPool} (h : frame.temps.tryRelease slot = (.ok (), temps)) :
      Draft.releaseTemp slot frame =
        { code := [.instr (.freeTemp slot)], frame := { frame with temps }, result := .ok () } :=
    Draft.gives_releaseTemp_iff.2 ⟨temps, h, rfl, rfl⟩
  have hthrough (f : Flow) : f.through [.instr (.freeTemp slot)] = .ok f := by
    rw [Flow.through_singleton, Flow.step_of_isNote rfl]
    rfl
  refine ⟨fun frame => ?_, fun frame f e hp _ hrun => ?_, fun frame f a frame' g hp _ hrun => ?_⟩
  · rcases hrelease : frame.temps.tryRelease slot with ⟨result, temps⟩
    cases result with
    | ok u =>
      rw [hok hrelease]
      exact .refl _
    | error e =>
      have herror : Draft.releaseTemp slot frame =
          { code := [], frame := { frame with temps }, result := .error e } := by
        rw [Draft.releaseTemp, Draft.bind_of_ok (a := frame) rfl]
        simp only [Draft.getFrame, hrelease]
        rfl
      rw [herror]
      exact .refl _
  · obtain ⟨temps, hrelease, -⟩ := h _ _ _ hp.1
    unfold Draft.run at hrun
    rw [hok hrelease, hthrough] at hrun
    cases hrun
  · obtain ⟨temps, hrelease, hR⟩ := h _ _ _ hp.1
    unfold Draft.run at hrun
    rw [hok hrelease, hthrough] at hrun
    cases hrun
    exact ⟨hR, hp.2⟩

/-- A slot that has been asked for is handed back. -/
theorem releaseTemp_meets {slot : TempSlot} :
    (Draft.releaseTemp slot).Meets c.Permits (c.At (c.Books todo (·.Lends slot)) v d) fun _ =>
      c.At (c.Books todo Frame.Tidy) v d :=
  releaseTemp_meets_of fun frame _ _ h => by
    obtain ⟨temps, hrelease, htidy⟩ := h.2
    exact ⟨temps, hrelease,
      h.1.congr rfl rfl (h.1.fits.mono (Draft.grows_temps frame temps) rfl rfl), htidy⟩

/-- The return label, which is allotted where it is asked for first. -/
theorem returnLabel_meets (todo : List Label)
    (h : ∀ frame labels staged, R frame labels staged → c.Keeps todo frame labels staged ∧
      (c.outline.stages = true → ∃ s, frame.returnSlot = some s))
    (hR : ∀ frame labels staged table l, R frame labels staged →
      c.Keeps todo { frame with labels := table, returnLabel := some l } labels staged →
        R { frame with labels := table, returnLabel := some l } labels staged) :
    Draft.returnLabel.Meets c.Permits (c.At R v d) fun l =>
      c.At (fun frame labels staged => R frame labels staged ∧ frame.returnLabel = some l) v d := by
  refine .of_gives fun frame => ?_
  cases hl : frame.returnLabel with
  | some l =>
    refine ⟨[], frame, l, Draft.gives_returnLabel_iff.2 ⟨rfl, ?_⟩, fun _ => rfl, .refl _,
      fun f hp => ⟨⟨hp.1, hl⟩, hp.2⟩⟩
    rw [hl]
    exact ⟨rfl, rfl⟩
  | none =>
    refine ⟨[], { frame with
        labels := (frame.labels.add { name := some "<return>" }).2
        returnLabel := some ⟨frame.labels.size⟩ }, ⟨frame.labels.size⟩,
      Draft.gives_returnLabel_iff.2 ⟨rfl, ?_⟩, fun _ => rfl,
      (Draft.grows_add frame (some "<return>")).extends, fun f hp => ⟨⟨?_, rfl⟩, hp.2⟩⟩
    · rw [hl]
      exact ⟨rfl, rfl⟩
    · obtain ⟨hkeeps, hslot⟩ := h _ _ _ hp.1
      exact hR _ _ _ _ _ hp.1 (hkeeps.returning hl hslot _)

/-- The return slot is there if one is due, and where control gets to, a value is stored in it. -/
def Staged (c : Plan) (todo : List Label) (v : Bool) : Account := fun frame labels staged =>
  c.Books todo Frame.Tidy frame labels staged ∧ (c.outline.stages = true →
    (∃ s, frame.returnSlot = some s) ∧ (v = true → staged = true))

/-- A branch to the return label. -/
theorem returnBranch_meets :
    (Draft.returnLabel >>= fun l => Draft.emit (.branch l)).Meets c.Permits
      (c.At (c.Staged todo v) v 0) fun _ => c.At (c.Books todo Frame.Tidy) false 0 := by
  refine (returnLabel_meets todo (fun frame labels staged h => ⟨h.1.1, fun hs => (h.2 hs).1⟩)
    fun frame labels staged table l h hkeeps =>
      ⟨⟨hkeeps, h.1.2.congr (fun _ => rfl) rfl rfl⟩, h.2⟩).bind fun l => ?_
  rw [← Bool.and_false v]
  refine branch_meets todo (i := .branch l) rfl rfl fun frame labels staged h =>
    ⟨h.1.1.1, h.1.1, fun hv => ⟨List.forall_mem_singleton.2 ⟨.inr (.inr h.2),
      fun _ hstages => (h.1.2 hstages).2 hv, fun hexit => ?_⟩, fun labels' hkeeps => ⟨hkeeps, h.1.1.2⟩⟩⟩
  exact absurd hexit (ne_label?_of_bound_le (h.1.1.1.fits.label l h.2).1 _)

end Plan

end StackCode
