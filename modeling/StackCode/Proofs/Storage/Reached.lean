import StackCode.Proofs.Returns.Layout
import StackCode.Proofs.Returns.Trails
import StackCode.Proofs.Storage.Places

/-!
# From a point in a block on

What the code of a procedure is from a point in a block on, where control gets to it, and what the
machine does from there.  The stack is empty at such a point (`Plan.Lowered.lays_from`).  Code that a
branch guards is skipped or executed as a whole (`Runtime.after_guarded_of_true`,
`Runtime.after_guarded_of_false`).  The code of a value that gets to the right depth has not worked on
what lies below it, so it pushes the same value whatever that is (`Procedure.value_finishes`).
-/

namespace StackCode

variable {V W : Type} {R : Runtime V W}

namespace Plan

variable {c : Plan} {labels : LabelTable} {ds : List Directive} {final : Frame} {code : List Instr}
  {g : Flow} {b : Block} {ss ss' : List Stmt} {q : Nat}

/-- Control gets to the point of the block behind the statements `ss` and in front of the statements
`ss'`; the point is behind `q` instructions. -/
def GetsTo (c : Plan) (labels : LabelTable) (b : Block) (ss ss' : List Stmt) (q : Nat) : Prop :=
  ∃ bs bs' front mid f, c.blocks = bs ++ b :: bs' ∧ b.statements = ss ++ ss' ∧
    (c.upTo bs b ss).Lays { labels } { labels := (c.draft { labels }).frame.labels } front mid f ∧
      f.isLive = true ∧ q = front.length

/-- The code from a point on is the code of the rest of the block and of the blocks behind it, written
where the stack is empty. -/
theorem Lowered.lays_from (hmade : c.Made) (hsize : labels.size = c.bound) (hblank : labels.IsBlank)
    (h : c.Lowered labels ds final code g) (hpoint : c.GetsTo labels b ss ss' q) :
    ∃ bs bs' mid f, c.blocks = bs ++ b :: bs' ∧ f.isLive = true ∧ f.depth = 0 ∧
      (ss'.forM c.statement >>= fun _ => c.blockEnd b (bs'.head?.map (·.id)) >>= fun _ =>
        c.blocksFrom bs' >>= fun _ => releaseDebugLocals).Lays mid f (code.drop q) final g := by
  obtain ⟨bs, bs', front, mid, f, hblocks, hss, hup, hlive, rfl⟩ := hpoint
  have hfinal : (c.draft { labels }).frame = final := by
    have hgives := h.gives
    unfold Draft.Gives at hgives
    rw [hgives]
  rw [hfinal] at hup
  obtain ⟨-, hgrows, -⟩ := h.sound hmade hsize
  have hfits : ({ labels } : Frame).Fits c := ⟨Nat.le_of_eq hsize.symm, nofun, nofun⟩
  have hmem {b' : Block} (hb' : b' ∈ bs ++ b :: bs') : b' ∈ c.blocks := hblocks ▸ hb'
  have hdraft : c.draft.Lays { labels } { labels := final.labels } code final g :=
    ⟨ds, h.gives, h.assembles⟩
  unfold draft at hdraft
  rw [hblocks, blocksFrom_split hss] at hdraft
  simp only [bind_assoc] at hdraft
  obtain ⟨_, _, _, rest, hup', hrest, rfl⟩ := Draft.lays_bind_iff.1 hdraft
  obtain ⟨rfl, rfl, rfl⟩ := hup.unique hup'
  refine ⟨bs, bs', mid, f, hblocks, hlive, ?_, ?_⟩
  · obtain ⟨_, _, _, _, ⟨_, hgives₁, -⟩, hrest, -⟩ := Draft.lays_bind_iff.1 hrest
    obtain ⟨_, _, _, _, hend, hrest, -⟩ := Draft.lays_bind_iff.1 hrest
    obtain ⟨_, _, _, _, ⟨_, hgives₂, -⟩, ⟨_, hfree, -⟩, -⟩ := Draft.lays_bind_iff.1 hrest
    obtain ⟨-, hfits'⟩ := upTo_keeps hmade (fun b' hb' => hmem (List.mem_append_left _ hb')) hfits hup
    have hstatements := statements_render hfits' hgives₁
    obtain ⟨hgrows₂, hfits₂⟩ := blockEnd_keeps hstatements.fits hend
    obtain ⟨hgrows₃, -⟩ := blocksFrom_sound hmade
      (fun b' hb' => hmem (List.mem_append_right _ (List.mem_cons_of_mem _ hb'))) hfits₂ hgives₂
    have hgrows₄ := (releaseDebugLocals_gives hfree).1.grows
    exact upTo_depth hmade hblocks hss hsize (hgrows.isBlank hblank)
      (hstatements.grows.trans (hgrows₂.trans (hgrows₃.trans hgrows₄))).size_le hup hlive
  · rw [List.drop_left]
    exact hrest

end Plan

/-! ## Guarded code -/

namespace Runtime

variable {code is post : List Instr} {s s' : Kept V W} {c c' : Control V}

section
variable {l : Label} {v : V} {st st' : List V}

theorem drop_guarded (hcode : code.drop c.pc = .branchIf true l :: (is ++ .markLabel l :: post)) :
    code.drop (c.pc + 1) = is ++ .markLabel l :: post :=
  drop_add_of_drop (show code.drop c.pc = [.branchIf true l] ++ _ from hcode)

/-- If the condition of a branch holds, control goes straight behind the code that it guards. -/
theorem after_guarded_of_true (hplaced : (placedIn code).Nodup)
    (hcode : code.drop c.pc = .branchIf true l :: (is ++ .markLabel l :: post))
    (hstack : c.stack = v :: st) (hv : R.isTrue v = true) :
    Run.after (R.step code) (.on c s) 2 =
      .on { c with pc := c.pc + (is.length + 2), stack := st } s := by
  have hmark : code[c.pc + 1 + is.length]? = some (.markLabel l) :=
    getElem?_of_drop (drop_add_of_drop (drop_guarded hcode))
  have hgo : R.step code c s = .on { c with pc := c.pc + 1 + is.length, stack := st } s := by
    have hstep : R.step code c s = goTo code { c with stack := st } l s := by
      simp only [step, getElem?_of_drop hcode, hstack]
      exact if_pos hv
    rw [hstep, goTo_eq hplaced hmark]
  have hend : c.pc + 1 + is.length + 1 = c.pc + (is.length + 2) := by omega
  change Run.after (R.step code) (R.step code c s) 1 = _
  rw [hgo, ← hend]
  exact step_label hmark

/-- If it does not hold, the code is executed. -/
theorem after_guarded_of_false
    (hcode : code.drop c.pc = .branchIf true l :: (is ++ .markLabel l :: post))
    (hstack : c.stack = v :: st) (hv : R.isTrue v = false) (his : ∀ i ∈ is, i.isPlain = true)
    {m : Memory V W} (hexec : Instr.execAll R is (st, s.memory) = some (st', m)) :
    Run.after (R.step code) (.on c s) (is.length + 2) =
      .on { c with pc := c.pc + (is.length + 2), stack := st' } { s with memory := m } := by
  have hmark : code[c.pc + 1 + is.length]? = some (.markLabel l) :=
    getElem?_of_drop (drop_add_of_drop (drop_guarded hcode))
  have hpass : R.step code c s = .on (c.pass st) s := by
    simp only [step, getElem?_of_drop hcode, hstack]
    exact if_neg (by rw [hv]; exact Bool.false_ne_true)
  have hrun := through_of_execAll his hexec c.temps code _ (c.pass st) s (drop_guarded hcode) rfl rfl
    rfl
  have hend : c.pc + 1 + is.length + 1 = c.pc + (is.length + 2) := by omega
  change Run.after (R.step code) (R.step code c s) (is.length + 1) = _
  rw [hpass, Run.after_add, hrun, ← hend]
  exact step_label hmark

end

end Runtime

/-! ## What lies below -/

namespace Instr

variable {st st' : List V} {m m' : Memory V W} {is : List Instr}

/-- What a plain instruction does, it does whatever lies below. -/
theorem exec_above {i : Instr} (hi : i.isPlain = true) (h : i.exec R (st, m) = some (st', m'))
    (base : List V) : i.exec R (st ++ base, m) = some (st' ++ base, m') := by
  cases i with
  | storeLocal | pop | dup | convert =>
    cases st with
    | nil => cases h
    | cons v st =>
      cases h
      rfl
  | binary op =>
    match st with
    | [] => cases h
    | [_] => cases h
    | b :: a :: st =>
      cases h
      rfl
  | call callee argc returns =>
    rw [exec] at h
    split at h
    · next hle =>
      cases h
      have htaken : exec R (.call callee argc returns) (st.take argc ++ (st.drop argc ++ base), m) = _ :=
        exec_call (List.length_take_of_le hle) (st.drop argc ++ base) m
      rw [← List.append_assoc, List.take_append_drop, ← List.append_assoc] at htaken
      exact htaken
    · cases h
  | new cls argc =>
    rw [exec] at h
    split at h
    · next hle =>
      cases h
      have htaken : exec R (.new cls argc) (st.take argc ++ (st.drop argc ++ base), m) = _ :=
        exec_new (List.length_take_of_le hle) (st.drop argc ++ base) m
      rw [← List.append_assoc, List.take_append_drop] at htaken
      exact htaken
    · cases h
  | constInt | constFloat | constBool | constStr | constNull | loadLocal | clearLocal | loadContext
  | nop | sequencePoint | hiddenSequencePoint =>
    cases h
    rfl
  | switch table default => exact absurd (endsFlow_of_isPlain hi) Bool.false_ne_true.symm
  | _ => cases hi

theorem execAll_above (his : ∀ i ∈ is, i.isPlain = true)
    (h : execAll R is (st, m) = some (st', m')) (base : List V) :
    execAll R is (st ++ base, m) = some (st' ++ base, m') := by
  induction is generalizing st m with
  | nil =>
    cases h
    rfl
  | cons i is ih =>
    obtain ⟨hi, his⟩ := List.forall_mem_cons.1 his
    rw [execAll_cons] at h ⊢
    obtain ⟨⟨st₁, m₁⟩, hexec, h⟩ := Option.bind_eq_some_iff.1 h
    rw [exec_above hi hexec base]
    exact ih his h

/-- Plain code finds what it takes where its depth is right. -/
theorem exists_execAll (his : ∀ i ∈ is, i.isPlain = true) {after : Nat}
    (hdepth : depthThrough is st.length = .ok after) (m : Memory V W) :
    ∃ st' m', execAll R is (st, m) = some (st', m') ∧ st'.length = after := by
  induction is generalizing st m with
  | nil =>
    cases hdepth
    exact ⟨st, m, rfl, rfl⟩
  | cons i is ih =>
    obtain ⟨hi, his⟩ := List.forall_mem_cons.1 his
    obtain ⟨d, hfirst, hrest⟩ := depthThrough_cons_iff.1 hdepth
    obtain ⟨st₁, m₁, hexec, rfl⟩ := exists_exec (R := R) hi m hfirst
    obtain ⟨st', m', hexecs, hlength⟩ := ih his hrest m₁
    refine ⟨st', m', ?_, hlength⟩
    rw [execAll_cons, hexec]
    exact hexecs

end Instr

/-- A fragment that gets to the right depth pushes the same values whatever lies below. -/
theorem Fragment.Carries.exists_runs {α : Type} {exact : Prop} {x : Fragment α} {φ : α → Nat} {a : α}
    (hcarries : x.Carries exact 0 φ) (hplain : x.IsPlain) (ha : x.result = .ok a) {k : Nat}
    (hdepth : Instr.depthThrough x.code k = .ok (k + φ a)) (m : Memory V W) :
    ∃ vs m', vs.length = φ a ∧ ∀ st, x.Runs R (st, m) (vs ++ st, m') := by
  have hfree : Instr.depthThrough x.code (0 + 0) = .ok (0 + φ a) :=
    hcarries.spares a ha k hdepth 0 (Nat.zero_le k)
  rw [Nat.zero_add, Nat.zero_add] at hfree
  change Instr.depthThrough x.code ([] : List V).length = .ok (φ a) at hfree
  obtain ⟨vs, m', hexec, hlength⟩ := Instr.exists_execAll (R := R) hplain hfree m
  exact ⟨vs, m', hlength, fun st => Instr.execAll_above hplain hexec st⟩

/-- The code of a procedure is that of the plan that is made for it. -/
theorem Procedure.lowered_of_make {p : Procedure} {options : Options} {strategy : LayoutStrategy}
    {out : Array Instr} {sum : Summary} {c : Plan} {labels : LabelTable}
    (h : p.lowerInto options strategy #[] = (out, .ok sum))
    (hmake : Plan.make p options strategy = .ok (c, labels)) :
    c.procedure = p ∧ c.Made ∧ labels.size = c.bound ∧ labels.IsBlank ∧
      ∃ ds final g, c.Lowered labels ds final out.toList g := by
  obtain ⟨_, _, ds, final, g, hmake', hlowered, -⟩ := lowerInto_eq_ok_iff.1 h
  rw [hmake] at hmake'
  cases hmake'
  obtain ⟨-, -, hprocedure, -⟩ := Plan.make_eq_ok hmake
  obtain ⟨hsize, hblank⟩ := Plan.labels_of_make hmake
  exact ⟨hprocedure, Plan.made_of_make hmake, hsize, hblank, ds, final, g, hlowered⟩

/-- The code of a value, where it gets to the right depth, is the code of the expression and a
conversion of what that has pushed. -/
theorem Procedure.value_finishes {p : Procedure} {e : Expr} {target : Ty} {use : ValueUse}
    (hresult : (p.value e target use).result = .ok ()) (htarget : target.isVoid = false) {k : Nat}
    (hdepth : Instr.depthThrough (p.value e target use).code k = .ok (k + 1)) (m : Memory V W) :
    ∃ ty x m', (p.evaluate e).Finishes R ty ([], m) ([x], m') ∧ ty.isVoid = false ∧
      ∀ st, (p.value e target use).Finishes R () (st, m)
        ((m'.coerce R ty target x).1 :: st, (m'.coerce R ty target x).2) := by
  obtain ⟨ty, hty, hvalue, hconvert⟩ := Fragment.convertedTo_eq_ok hresult
  have hwidth : target.width = 1 := by
    unfold Ty.width
    rw [htarget]
    rfl
  -- the code of the expression alone gets to the right depth, too
  have hcarries : (p.value e target use).Carries False 0 fun _ => target.width :=
    value_carries nofun e target use
  rw [← hwidth] at hdepth
  obtain ⟨vs, m₁, hlength, hruns⟩ := hcarries.exists_runs (R := R) (p.isPlain_value e target use)
    hresult hdepth m
  obtain ⟨⟨st', m'⟩, hrequired, hconverted⟩ :=
    Fragment.Runs.of_bind (Fragment.required_of_ok hty hvalue) (hruns [])
  obtain ⟨x, rfl⟩ : ∃ x, st' = [x] := by
    refine List.length_eq_one_iff.1 ?_
    have hthrough := Instr.depthThrough_of_execAll (Fragment.isPlain_convert ty target) hconverted
    have hone := Instr.depthThrough_of_execAll (Fragment.isPlain_convert ty target)
      (Fragment.runs_convert (R := R) hconvert htarget R.context [] m)
    rw [List.append_nil, hlength, hwidth] at hthrough
    exact Instr.depthThrough_inj hthrough hone
  have hevaluate : (p.evaluate e).Runs R ([], m) ([x], m') := by
    unfold Fragment.Runs at hrequired
    rw [Fragment.code_required] at hrequired
    exact hrequired
  refine ⟨ty, x, m', ⟨hty, hevaluate⟩, hvalue, fun st => ⟨hresult, ?_⟩⟩
  have habove : (p.evaluate e).Runs R (st, m) (x :: st, m') :=
    Instr.execAll_above (p.isPlain_evaluate e) hevaluate st
  exact habove.convertedTo hty hvalue hconvert htarget

end StackCode
