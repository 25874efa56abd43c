/-
The analysis of a body and its plan, side by side, one instruction at a time.

`planAt ds k` is the plan before decoded instruction `k`. Along an accepted body the frames of the validator and of the
plan stay matched (`Matched`), every decoded instruction is one the plan accepts (`Matched.accepts`), and a complete
construct leaves the frames around it as they were, up to notes of branches (`steps_flat`).
-/
import Wah.Effects
import Wah.Layout

namespace Wah

/-! ## Steps of the analysis -/

/-- the analysis runs over instructions, none of which is the outermost END -/
inductive Steps (C : FuncCtx) : AState → List Instr → AState → Prop where
  | nil (s : AState) : Steps C s [] s
  | cons {s s' s'' : AState} {i : Instr} {is : List Instr} (hi : ¬(i = .end_ ∧ s.v.ctrl = []))
      (h : s.step C i = .ok s') (hs : Steps C s' is s'') : Steps C s (i :: is) s''

theorem Steps.append {C : FuncCtx} {s s' s'' : AState} {is js : List Instr} (h : Steps C s is s')
    (h' : Steps C s' js s'') : Steps C s (is ++ js) s'' := by
  induction h with
  | nil => exact h'
  | cons hi h hs ih => exact .cons hi h (ih h')

theorem Steps.split {C : FuncCtx} {s s'' : AState} {is js : List Instr} (h : Steps C s (is ++ js) s'') :
    ∃ s', Steps C s is s' ∧ Steps C s' js s'' := by
  induction is generalizing s with
  | nil => exact ⟨s, .nil s, h⟩
  | cons i is ih =>
    cases h with
    | cons hi h hs =>
      obtain ⟨s', h1, h2⟩ := ih hs
      exact ⟨s', .cons hi h h1, h2⟩

/-- an accepted body is a run of steps and the outermost END -/
theorem analyzeFrom_steps {C : FuncCtx} {s : AState} {is : List Instr} {A : Analyzed} (h : analyzeFrom C s is = .ok A) :
    ∃ pre s', is = pre ++ [.end_] ∧ Steps C s pre s' ∧ s'.v.ctrl = [] ∧ s'.finish C = .ok A := by
  induction is generalizing s with
  | nil => simp [analyzeFrom] at h
  | cons i is ih =>
    simp only [analyzeFrom] at h
    split at h
    · rename_i hc
      split at h
      · rename_i hn
        exact ⟨[], s, by simp [hc.1, hn], .nil s, hc.2, h⟩
      · simp at h
    · rename_i hc
      simp only [bind_eq_ok] at h
      obtain ⟨s1, h1, h2⟩ := h
      obtain ⟨pre, s', rfl, h3, h4, h5⟩ := ih h2
      exact ⟨i :: pre, s', rfl, .cons hc h1 h3, h4, h5⟩

/-! ## One step -/

/-- what a step does besides validating: it may capture a ref map and stores at most one instruction -/
structure StepOf (C : FuncCtx) (s s' : AState) (i : Instr) (od : Option DOp) : Prop where
  vstep : VStep C s.v s'.v i od
  instrs : match od with
    | none => s'.instrs = s.instrs
    | some d => ∃ x : DInstr, x.op = d ∧ s'.instrs = s.instrs ++ [x] ∧ (d.isLoop = true → x.poll = true) ∧
        (x.poll = true → d.isLoop = true ∨ s.isFirst = true ∨ s.pollFlag = true ∨ i.isCall = true)
  first : s'.isFirst = false
  flag : s'.pollFlag = true → od = none ∧ (s.isFirst = true ∨ s.pollFlag = true ∨ i.isCall = true)

theorem capture_same (c : Capture) (v : VCtx) : Same v (c.capture v).2 := by
  unfold Capture.capture
  split <;> exact ⟨rfl, rfl, rfl, rfl, rfl⟩

theorem prepare_fields (C : FuncCtx) (s : AState) (i : Instr) :
    Same s.v (s.prepare C i).1.v ∧ (s.prepare C i).1.instrs = s.instrs ∧ (s.prepare C i).1.isFirst = false ∧
      ((s.prepare C i).1.pollFlag = true → s.isFirst = true ∨ s.pollFlag = true ∨ i.isCall = true) := by
  have hc := capture_same s.cap s.v
  unfold AState.prepare
  cases hf : s.isFirst with
  | true => exact ⟨hc, rfl, rfl, fun _ => .inl rfl⟩
  | false =>
    cases hp : s.pollFlag with
    | false =>
      cases hi : i.isCall with
      | true => exact ⟨hc, rfl, rfl, fun _ => .inr (.inr rfl)⟩
      | false =>
        simp only [Bool.not_false, Bool.and_false, Bool.or_false, Bool.false_eq_true, if_false]
        split
        · exact ⟨hc, rfl, hf, fun h => by simp [AState.capture, hp] at h⟩
        · exact ⟨⟨rfl, rfl, rfl, rfl, rfl⟩, rfl, hf, fun h => by simp [hp] at h⟩
    | true =>
      simp only [Bool.not_true, Bool.false_and, Bool.or_false, Bool.false_eq_true, if_false]
      split
      · exact ⟨hc, rfl, hf, fun _ => .inr (.inl trivial)⟩
      · exact ⟨⟨rfl, rfl, rfl, rfl, rfl⟩, rfl, hf, fun _ => .inr (.inl trivial)⟩

theorem emit_fields (s : AState) (cur : Option Nat) (od : Option DOp) :
    Same s.v (s.emit cur od).v ∧ (s.emit cur od).isFirst = s.isFirst ∧
      ((s.emit cur od).pollFlag = true → od = none ∧ s.pollFlag = true) ∧
      match od with
      | none => (s.emit cur od).instrs = s.instrs
      | some d => ∃ x : DInstr, x.op = d ∧ (s.emit cur od).instrs = s.instrs ++ [x] ∧ (d.isLoop = true → x.poll = true) ∧
          (x.poll = true → d.isLoop = true ∨ s.pollFlag = true) := by
  cases od with
  | none => exact ⟨⟨rfl, rfl, rfl, rfl, rfl⟩, rfl, fun h => ⟨rfl, h⟩, rfl⟩
  | some d =>
    have hc := capture_same s.cap s.v
    have hloop : ∀ d : DOp, (∃ bt, d = .loop bt) ∨ d.isLoop = false ∧ (s.emit cur (some d) =
        { { s with pollFlag := false } with instrs := s.instrs ++ [⟨d, s.pollFlag, cur⟩] }) := by
      intro d
      cases d <;> first | exact .inl ⟨_, rfl⟩ | exact .inr ⟨rfl, rfl⟩
    rcases hloop d with ⟨bt, rfl⟩ | ⟨hnl, he⟩
    · unfold AState.emit
      cases hp : s.pollFlag with
      | true =>
        exact ⟨⟨rfl, rfl, rfl, rfl, rfl⟩, rfl, by simp, ⟨_, rfl, rfl, fun _ => rfl, fun _ => .inl rfl⟩⟩
      | false =>
        exact ⟨hc, rfl, by simp [AState.capture], ⟨_, rfl, rfl, fun _ => rfl, fun _ => .inl rfl⟩⟩
    · rw [he]
      exact ⟨⟨rfl, rfl, rfl, rfl, rfl⟩, rfl, by simp, ⟨_, rfl, rfl, by simp [hnl], fun h => .inr h⟩⟩

theorem step_of {C : FuncCtx} {s s' : AState} {i : Instr} (h : s.step C i = .ok s') :
    ∃ od, StepOf C s s' i od := by
  simp only [AState.step, bind_eq_ok, pure_eq_ok] at h
  obtain ⟨⟨w, od⟩, h1, rfl⟩ := h
  obtain ⟨p1, p2, p3, p4⟩ := prepare_fields C s i
  obtain ⟨e1, e2, e3, e4⟩ := emit_fields { (s.prepare C i).1 with v := w } (s.prepare C i).2 od
  have p1' : Same (s.prepare C i).1.v s.v :=
    ⟨p1.stack.symm, p1.ctrl.symm, p1.dead.symm, p1.depth.symm, p1.undo.symm⟩
  refine ⟨od, p1'.vstep e1 (validateOpcode_step h1), ?_, e2.trans p3, fun hf => ⟨(e3 hf).1, p4 (e3 hf).2⟩⟩
  cases od with
  | none => exact e4.trans p2
  | some d =>
    obtain ⟨x, h2, h3, h4, h5⟩ := e4
    refine ⟨x, h2, ?_, h4, fun hx => ?_⟩
    · rw [h3, p2]
    · rcases h5 hx with h | h
      · exact .inl h
      · exact .inr (p4 h)

/-! ## The plan along the analysis -/

/-- the plan before decoded instruction `k` -/
def planAt (metered : Bool) (ds : List DInstr) : Nat → Plan
  | 0 => { emitMeter := metered, needNewChunk := metered }
  | k + 1 =>
    match ds[k]? with
    | none => planAt metered ds k
    | some d => planInstr (planAt metered ds k) k (decide (k ∈ loopHasTry ds)) d (ds[k + 1]?.bind DInstr.refMap)

theorem planAt_succ {metered : Bool} {ds : List DInstr} {k : Nat} {d : DInstr} (h : ds[k]? = some d) :
    planAt metered ds (k + 1) =
      planInstr (planAt metered ds k) k (decide (k ∈ loopHasTry ds)) d (ds[k + 1]?.bind DInstr.refMap) := by
  simp [planAt, h]

theorem planFrom_planAt (metered : Bool) (ds : List DInstr) : ∀ (k : Nat) (es : List DInstr), ds.drop k = es →
    k ≤ ds.length → planFrom (loopHasTry ds) (planAt metered ds k) k es = planAt metered ds ds.length := by
  intro k es
  induction es generalizing k with
  | nil =>
    intro h hk
    have : k = ds.length := by
      have := List.drop_eq_nil_iff.mp h
      omega
    simp [planFrom, this]
  | cons d es ih =>
    intro h hk
    have hd : ds[k]? = some d := by
      have := congrArg List.head? h
      simpa using this
    have hes : ds.drop (k + 1) = es := by
      have := congrArg List.tail h
      simpa using this
    have hlt := (List.getElem?_eq_some_iff.mp hd).1
    have hh : es.head? = ds[k + 1]? := by rw [← hes]; simp
    rw [planFrom, hh, ← planAt_succ hd]
    exact ih (k + 1) hes hlt

theorem planOf_eq (metered : Bool) (ds : List DInstr) : planOf metered ds = planAt metered ds ds.length :=
  planFrom_planAt metered ds 0 ds rfl (Nat.zero_le _)

/-! ## Notes of branches -/

/-- an open construct before and after code inside of it -/
structure MarkRel (g g' : PFrame) : Prop where
  id : g'.id = g.id
  opcode : g'.opcode = g.opcode
  header : g'.header = g.header
  tryDepth : g'.tryDepth = g.tryDepth
  needsTrim : g.needsTrim = true → g'.needsTrim = true

theorem MarkRel.refl (g : PFrame) : MarkRel g g := ⟨rfl, rfl, rfl, rfl, fun h => h⟩

theorem MarkRel.trans {g g' g'' : PFrame} (h : MarkRel g g') (h' : MarkRel g' g'') : MarkRel g g'' :=
  ⟨h'.id.trans h.id, h'.opcode.trans h.opcode, h'.header.trans h.header, h'.tryDepth.trans h.tryDepth,
    fun e => h'.needsTrim (h.needsTrim e)⟩

/-- open constructs before and after complete code -/
def MarkRels (gs gs' : List PFrame) : Prop :=
  gs'.length = gs.length ∧ ∀ (k : Nat) (g g' : PFrame), gs[k]? = some g → gs'[k]? = some g' → MarkRel g g'

theorem MarkRels.refl (gs : List PFrame) : MarkRels gs gs := by
  refine ⟨rfl, fun k g g' h h' => ?_⟩
  rw [h] at h'
  simp only [Option.some.injEq] at h'
  exact h' ▸ MarkRel.refl g

theorem MarkRels.get {gs gs' : List PFrame} (h : MarkRels gs gs') {k : Nat} {g : PFrame} (hg : gs[k]? = some g) :
    ∃ g', gs'[k]? = some g' ∧ MarkRel g g' := by
  have hlt : k < gs'.length := by rw [h.1]; exact (List.getElem?_eq_some_iff.mp hg).1
  exact ⟨gs'[k], List.getElem?_eq_getElem hlt, h.2 k g _ hg (List.getElem?_eq_getElem hlt)⟩

theorem MarkRels.trans {gs gs' gs'' : List PFrame} (h : MarkRels gs gs') (h' : MarkRels gs' gs'') :
    MarkRels gs gs'' := by
  refine ⟨h'.1.trans h.1, fun k g g'' hg hg'' => ?_⟩
  obtain ⟨g', hg', hm⟩ := h.get hg
  exact hm.trans (h'.2 k g' g'' hg' hg'')

theorem MarkRels.tail {g g' : PFrame} {gs gs' : List PFrame} (h : MarkRels (g :: gs) (g' :: gs')) : MarkRels gs gs' := by
  refine ⟨by simpa using h.1, fun k x x' hx hx' => h.2 (k + 1) x x' (by simpa using hx) (by simpa using hx')⟩

theorem MarkRels.head {g g' : PFrame} {gs gs' : List PFrame} (h : MarkRels (g :: gs) (g' :: gs')) : MarkRel g g' :=
  h.2 0 g g' (by simp) (by simp)

theorem MarkRels.drop {gs gs' : List PFrame} (h : MarkRels gs gs') (n : Nat) : MarkRels (gs.drop n) (gs'.drop n) := by
  refine ⟨by simp [h.1], fun k x x' hx hx' => h.2 (n + k) x x' ?_ ?_⟩
  · simpa using hx
  · simpa using hx'

theorem markRels_mark (p : Plan) (l : Nat) : MarkRels p.ctrl (p.mark l).ctrl := by
  refine ⟨by simp, fun k g g' hg hg' => ?_⟩
  simp only [Plan.mark, List.getElem?_modify, hg, Option.map_eq_map, Option.map_some, Option.some.injEq] at hg'
  subst hg'
  split
  · exact ⟨rfl, rfl, rfl, rfl, fun h => by simp [h]⟩
  · exact .refl g

theorem markRels_markAll (p : Plan) (ls : List Nat) : MarkRels p.ctrl (p.markAll ls).ctrl := by
  induction ls generalizing p with
  | nil => exact .refl _
  | cons l ls ih => exact (markRels_mark p l).trans (ih (p.mark l))

/-- a branch out of `try_table`s makes its construct drop handlers -/
theorem mark_needsTrim {p : Plan} {l : Nat} {g : PFrame} (hg : (p.mark l).ctrl[l]? = some g)
    (ht : g.tryDepth < p.tryDepth) : g.needsTrim = true := by
  simp only [Plan.mark, List.getElem?_modify, if_true] at hg
  cases hc : p.ctrl[l]? with
  | none => simp [hc] at hg
  | some g0 =>
    simp only [hc, Option.map_eq_map, Option.map_some, Option.some.injEq] at hg
    subst hg
    simpa using .inr ht

theorem markAll_needsTrim {p : Plan} {ls : List Nat} {l : Nat} (hl : l ∈ ls) {g : PFrame}
    (hg : (p.markAll ls).ctrl[l]? = some g) (ht : g.tryDepth < p.tryDepth) : g.needsTrim = true := by
  induction ls generalizing p with
  | nil => simp at hl
  | cons k ks ih =>
    by_cases hks : l ∈ ks
    · exact ih (p := p.mark k) hks hg ht
    · have hlk : l = k := by simpa [hks] using hl
      subst hlk
      have hm := markRels_markAll (p.mark l) ks
      have hlt : l < (p.mark l).ctrl.length := by rw [← hm.1]; exact (List.getElem?_eq_some_iff.mp hg).1
      have h0 := List.getElem?_eq_getElem hlt
      have hr := hm.2 l _ g h0 hg
      exact hr.needsTrim (mark_needsTrim h0 (by rw [← hr.tryDepth]; exact ht))

/-! ## What an instruction adds to the plan -/

/-- instructions that neither open, switch nor close a construct -/
def DOp.isPlain : DOp → Bool
  | .block _ | .loop _ | .if_ _ | .else_ | .end_ | .tryTable _ _ => false
  | _ => true

/-- a record is added and the rest of the plan changes as given -/
structure Adds (p p' : Plan) (main : Option (LInstr Target)) (ctrl : List PFrame) (tryDepth : Nat)
    (ends : List (Target × Nat)) : Prop where
  records : ∃ rec, p'.records = p.records ++ [rec] ∧ rec.main = main
  ctrl : p'.ctrl = ctrl
  tryDepth : p'.tryDepth = tryDepth
  ends : p'.ends = ends

theorem Adds.size {p p' : Plan} {main : Option (LInstr Target)} {ctrl : List PFrame} {t : Nat}
    {ends : List (Target × Nat)} (h : Adds p p' main ctrl t ends) : p'.size = p.size + 1 := by
  obtain ⟨rec, hr, -⟩ := h.records
  simp [Plan.size, hr]

section PlanStep

variable {p : Plan} {k : Nat} {b : Bool} {d : DInstr} {n : Option Nat}

theorem endPlain_fields (q : Plan) (d : DInstr) :
    (q.endPlain d).records = q.records ∧ (q.endPlain d).ctrl = q.ctrl ∧ (q.endPlain d).tryDepth = q.tryDepth ∧
      (q.endPlain d).ends = q.ends := by
  unfold Plan.endPlain
  repeat' split
  all_goals simp

theorem marks_fields (p : Plan) (d : DOp) :
    (p.marks d).records = p.records ∧ (p.marks d).tryDepth = p.tryDepth ∧ (p.marks d).ends = p.ends := by
  cases d <;> first
    | exact ⟨rfl, rfl, rfl⟩
    | exact ⟨(markAll_fields p _).1, (markAll_fields p _).2.2.2.2.1, (markAll_fields p _).2.2.2.2.2⟩

theorem planInstr_plain (hd : d.op.isPlain = true) :
    Adds p (planInstr p k b d n) (p.mainOf k d) (p.marks d.op).ctrl p.tryDepth p.ends := by
  have hif : ∀ bt, d.op ≠ .if_ bt := by rintro bt h; simp [h, DOp.isPlain] at hd
  have helse : d.op ≠ .else_ := by rintro h; simp [h, DOp.isPlain] at hd
  have he : planInstr p k b d n = p.planPlain k d := by
    unfold planInstr
    split <;> first | rfl | (rename_i h; simp [h, DOp.isPlain] at hd)
  rw [he, Plan.planPlain_eq p k hif helse]
  obtain ⟨e1, e2, e3, e4⟩ := endPlain_fields ((p.marks d.op).add none (Plan.pollOf d) (p.mainOf k d) d.refMap) d
  obtain ⟨m1, m2, m3⟩ := marks_fields p d.op
  refine ⟨⟨_, by rw [e1, add_records, m1], rfl⟩, by simp [e2], by simp [e3, m2], by simp [e4, m3]⟩

theorem planInstr_block {bt : BlockType} (hd : d.op = .block bt) :
    Adds p (planInstr p k b d n) none ({ opcode := .block, id := k, tryDepth := p.tryDepth } :: p.ctrl)
      p.tryDepth p.ends := by
  unfold planInstr
  rw [hd]
  exact ⟨⟨_, by simp [Plan.planBlock, Plan.push, add_records]; rfl, rfl⟩, by simp [Plan.planBlock, Plan.push],
    by simp [Plan.planBlock, Plan.push], by simp [Plan.planBlock, Plan.push]⟩

theorem planInstr_loop {bt : BlockType} (hd : d.op = .loop bt) :
    Adds p (planInstr p k b d n) (if b then some (.trimHandlers p.tryDepth) else none)
      ({ opcode := .loop, id := k, header := p.size, tryDepth := p.tryDepth } :: p.ctrl) p.tryDepth p.ends := by
  unfold planInstr
  rw [hd]
  unfold Plan.planLoop
  dsimp only
  split
  · exact ⟨⟨_, by simp [Plan.push, add_records]; rfl, by simp [newRecord]⟩, by simp [Plan.push], by simp [Plan.push],
      by simp [Plan.push]⟩
  · exact ⟨⟨_, by simp [Plan.push, add_records]; rfl, by simp [newRecord]⟩, by simp [Plan.push], by simp [Plan.push],
      by simp [Plan.push]⟩

theorem planInstr_tryTable {bt : BlockType} {cs : List DCatch} (hd : d.op = .tryTable bt cs) :
    Adds p (planInstr p k b d n)
      (some (.tryTable (cs.map fun c => ⟨c.kind, c.tag, p.target c.label, c.drop⟩)))
      ({ opcode := .tryTable, id := k, tryDepth := p.tryDepth } :: (p.markAll (cs.map DCatch.label)).ctrl)
      (p.tryDepth + 1) p.ends := by
  obtain ⟨f1, -, -, -, f5, f6⟩ := markAll_fields p (cs.map DCatch.label)
  unfold planInstr
  rw [hd]
  exact ⟨⟨_, by simp [Plan.planTryTable, Plan.push, add_records, f1]; rfl, rfl⟩, by simp [Plan.planTryTable, Plan.push],
    by simp [Plan.planTryTable, Plan.push, f5], by simp [Plan.planTryTable, Plan.push, f6]⟩

theorem planInstr_if {bt : BlockType} (hd : d.op = .if_ bt) :
    Adds p (planInstr p k b d n) (some (.if_ (.falseOf k)))
      ({ opcode := .if_, id := k, tryDepth := p.tryDepth } :: p.ctrl) p.tryDepth p.ends := by
  have he : planInstr p k b d n = p.planPlain k d := by
    unfold planInstr
    rw [hd]
  rw [he, Plan.planIf_eq p k hd]
  set q := (p.push { opcode := .if_, id := k, tryDepth := p.tryDepth }).add none (Plan.pollOf d)
    (some (.if_ (.falseOf k))) d.refMap with hq
  obtain ⟨e1, e2, e3, e4⟩ := endPlain_fields q d
  exact ⟨⟨_, by rw [e1, hq, add_records]; rfl, rfl⟩, by rw [e2, hq]; simp [Plan.push], by rw [e3, hq]; simp [Plan.push],
    by rw [e4, hq]; simp [Plan.push]⟩

theorem planInstr_else {g : PFrame} {gs : List PFrame} (hd : d.op = .else_) (hc : p.ctrl = g :: gs) :
    Adds p (planInstr p k b d n) (some (.else_ (.endOf g.id)))
      ({ g with opcode := .else_, isTarget := true } :: gs) p.tryDepth (p.ends ++ [(.falseOf g.id, p.size + 1)]) := by
  have he : planInstr p k b d n = p.planPlain k d := by
    unfold planInstr
    rw [hd]
  rw [he, Plan.planElse_eq p hc hd]
  exact ⟨⟨_, by simp [Plan.switch, add_records]; rfl, rfl⟩, by simp [Plan.switch], by simp [Plan.switch],
    by simp [Plan.switch, Plan.size, add_records]⟩

/-- the function's END -/
theorem planInstr_funcEnd (hd : d.op = .end_) (hc : p.ctrl = []) :
    Adds p (planInstr p k b d n) (some .end_) [] p.tryDepth p.ends := by
  unfold planInstr
  rw [hd, hc]
  exact ⟨⟨_, by simp [Plan.planFuncEnd, add_records]; rfl, rfl⟩, by simp [Plan.planFuncEnd, hc],
    by simp [Plan.planFuncEnd], by simp [Plan.planFuncEnd]⟩

/-- an inner END: its own record, then a TRIM_HANDLERS if a branch may leave handlers behind -/
structure EndAdds (p p' : Plan) (g : PFrame) (gs : List PFrame) : Prop where
  records : ∃ rec rs, p'.records = p.records ++ rec :: rs ∧
    rec.main = (if g.opcode = .tryTable then some .endTryTable else none) ∧
    (if g.needsTrim = true ∧ g.opcode ≠ .loop then ∃ t, rs = [t] ∧ t.main = some (.trimHandlers g.tryDepth) else rs = [])
  ctrl : p'.ctrl = gs
  tryDepth : p'.tryDepth = if g.opcode = .tryTable then p.tryDepth - 1 else p.tryDepth
  ends : p'.ends = p.ends ++ Plan.endNames g (p.size + 1)

theorem endRecord_fields (p : Plan) (g : PFrame) (d : DInstr) :
    (p.endRecord g d).records = p.records ++ [newRecord p none none
        (if decide (g.opcode = .tryTable) then some .endTryTable else none) d.refMap] ∧
      (p.endRecord g d).tryDepth = if g.opcode = .tryTable then p.tryDepth - 1 else p.tryDepth := by
  unfold Plan.endRecord
  dsimp only
  split <;> simp [add_records]

theorem planInstr_end {g : PFrame} {gs : List PFrame} (hd : d.op = .end_) (hc : p.ctrl = g :: gs) :
    EndAdds p (planInstr p k b d n) g gs := by
  obtain ⟨r1, r2⟩ := endRecord_fields p g d
  have he : planInstr p k b d n = p.planEnd g d n := by
    unfold planInstr
    rw [hd, hc]
  rw [he, Plan.planEnd_eq p hc]
  by_cases ht : g.needsTrim = true ∧ g.opcode ≠ .loop
  · rw [if_pos (by simpa using ht)]
    refine ⟨⟨_, _, by rw [add_records]; simp [Plan.leave, r1]; exact ⟨rfl, rfl⟩, ?_, ?_⟩, ?_, ?_, ?_⟩
    · by_cases h : g.opcode = .tryTable <;> simp [newRecord, h]
    · rw [if_pos ht]
      exact ⟨_, rfl, rfl⟩
    · simp [Plan.leave]
    · simp [Plan.leave, r2]
    · simp [Plan.leave]
  · rw [if_neg (by simpa using ht)]
    refine ⟨⟨_, [], by simp only [Plan.leave, r1]; rfl, ?_, ?_⟩, ?_, ?_, ?_⟩
    · by_cases h : g.opcode = .tryTable <;> simp [newRecord, h]
    · rw [if_neg ht]
    · simp [Plan.leave]
    · simp [Plan.leave, r2]
    · simp [Plan.leave]

end PlanStep

/-! ## Frames of the validator and of the plan -/

/-- the opcode the plan keeps for a frame; ELSE replaces IF -/
def CtrlFrame.planOp (f : CtrlFrame) : LFrameOp :=
  match f.opcode with
  | .block => .block
  | .loop => .loop
  | .if_ => if f.elseFound then .else_ else .if_
  | .tryTable => .tryTable

/-- number of `try_table`s among open frames -/
def tryCount (fs : List CtrlFrame) : Nat := fs.countP fun f => decide (f.opcode = .tryTable)

/-- operands below the innermost frame -/
def baseOf : List CtrlFrame → Nat
  | [] => 0
  | f :: _ => f.stackHeight

/-- the open frames of the validator and of the plan, one by one -/
inductive Frames : List CtrlFrame → List PFrame → Prop where
  | nil : Frames [] []
  | cons {f : CtrlFrame} {g : PFrame} {fs : List CtrlFrame} {gs : List PFrame} (hop : g.opcode = f.planOp)
      (ht : g.tryDepth = tryCount fs) (hb : baseOf fs ≤ f.stackHeight) (h : Frames fs gs) : Frames (f :: fs) (g :: gs)

namespace Frames

theorem length {fs : List CtrlFrame} {gs : List PFrame} (h : Frames fs gs) : gs.length = fs.length := by
  induction h with
  | nil => rfl
  | cons _ _ _ _ ih => simp [ih]

theorem cons_left {f : CtrlFrame} {fs : List CtrlFrame} {gs : List PFrame} (h : Frames (f :: fs) gs) :
    ∃ g gs', gs = g :: gs' ∧ g.opcode = f.planOp ∧ g.tryDepth = tryCount fs ∧ baseOf fs ≤ f.stackHeight ∧
      Frames fs gs' := by
  cases h with
  | cons hop ht hb h => exact ⟨_, _, rfl, hop, ht, hb, h⟩

theorem nil_left {gs : List PFrame} (h : Frames [] gs) : gs = [] := by
  cases h
  rfl

theorem marks {fs : List CtrlFrame} {gs gs' : List PFrame} (h : Frames fs gs) (hm : MarkRels gs gs') : Frames fs gs' := by
  induction h generalizing gs' with
  | nil =>
    have : gs' = [] := List.length_eq_zero_iff.mp (by simpa using hm.1)
    exact this ▸ .nil
  | cons hop ht hb _ ih =>
    cases gs' with
    | nil => simpa using hm.1
    | cons g' gs' => exact .cons (hm.head.opcode.trans hop) (hm.head.tryDepth.trans ht) hb (ih hm.tail)

/-- frames further out have lower bases -/
theorem base_le {fs : List CtrlFrame} {gs : List PFrame} (h : Frames fs gs) : ∀ f ∈ fs, f.stackHeight ≤ baseOf fs := by
  induction h with
  | nil => simp
  | @cons f g fs gs hop ht hb _ ih =>
    intro f' hf'
    rcases List.mem_cons.mp hf' with rfl | hf'
    · exact Nat.le_refl _
    · exact Nat.le_trans (ih f' hf') hb

theorem get {fs : List CtrlFrame} {gs : List PFrame} (h : Frames fs gs) {l : Nat} {f : CtrlFrame} {g : PFrame}
    (hf : fs[l]? = some f) (hg : gs[l]? = some g) :
    g.opcode = f.planOp ∧ g.tryDepth = tryCount (fs.drop (l + 1)) := by
  induction h generalizing l with
  | nil => simp at hf
  | cons hop ht _ _ ih =>
    cases l with
    | zero =>
      simp only [List.getElem?_cons_zero, Option.some.injEq] at hf hg
      subst hf hg
      exact ⟨hop, by simpa using ht⟩
    | succ l =>
      simp only [List.getElem?_cons_succ] at hf hg
      simpa using ih hf hg

end Frames

theorem baseHeight_eq (v : VCtx) : v.baseHeight = baseOf v.ctrl := rfl

theorem forall₂_mem_right {α β : Type} {R : α → β → Prop} {xs : List α} {ys : List β} (h : List.Forall₂ R xs ys) :
    ∀ y ∈ ys, ∃ x ∈ xs, R x y := by
  induction h with
  | nil => simp
  | cons hr _ ih =>
    intro y hy
    rcases List.mem_cons.mp hy with rfl | hy
    · exact ⟨_, by simp, hr⟩
    · obtain ⟨x, hx, hxy⟩ := ih y hy
      exact ⟨x, by simp [hx], hxy⟩

/-! ## The analysis and the plan in step -/

section Matched

variable {C : FuncCtx} {metered : Bool} {ds : List DInstr} {a a' : AState} {i : Instr} {od : Option DOp}

/-- the plan before the next instruction of an analysis whose result is `ds` -/
def AState.plan (metered : Bool) (ds : List DInstr) (a : AState) : Plan := planAt metered ds a.instrs.length

/-- the analysis and the plan agree on what is open -/
structure Matched (metered : Bool) (ds : List DInstr) (a : AState) : Prop where
  decoded : a.instrs <+: ds
  frames : Frames a.v.ctrl (a.plan metered ds).ctrl
  tries : (a.plan metered ds).tryDepth = tryCount a.v.ctrl
  base : a.v.baseHeight ≤ a.v.height
  polls : a.isFirst = true ∨ a.pollFlag = true → a.instrs = []
  wf : (a.plan metered ds).WF a.instrs.length

theorem StepOf.plan_none (h : StepOf C a a' i none) : a'.plan metered ds = a.plan metered ds := by
  have hi : a'.instrs = a.instrs := h.instrs
  simp [AState.plan, hi]

theorem StepOf.plan_some (metered : Bool) {d : DOp} (h : StepOf C a a' i (some d)) (hd : a'.instrs <+: ds) :
    ∃ x next, x.op = d ∧ a'.instrs = a.instrs ++ [x] ∧ ds[a.instrs.length]? = some x ∧ (d.isLoop = true → x.poll = true) ∧
      (x.poll = true → d.isLoop = true ∨ a.isFirst = true ∨ a.pollFlag = true ∨ i.isCall = true) ∧
      a'.plan metered ds =
        planInstr (a.plan metered ds) a.instrs.length (decide (a.instrs.length ∈ loopHasTry ds)) x next := by
  obtain ⟨x, h1, h2, h3, h4⟩ := h.instrs
  have hx : ds[a.instrs.length]? = some x := by
    obtain ⟨t, ht⟩ := hd
    rw [← ht, h2]
    simp
  refine ⟨x, ds[a.instrs.length + 1]?.bind DInstr.refMap, h1, h2, hx, h3, h4, ?_⟩
  rw [AState.plan, AState.plan, h2, List.length_append, List.length_singleton]
  exact planAt_succ hx

theorem Matched.accepts (h : Matched metered ds a) {d : DOp} (hs : StepOf C a a' i (some d)) {x : DInstr}
    (hx : x.op = d) (hl : d.isLoop = true → x.poll = true)
    (hp : x.poll = true → d.isLoop = true ∨ a.isFirst = true ∨ a.pollFlag = true ∨ i.isCall = true) :
    (a.plan metered ds).Accepts a.instrs.length x := by
  have hlen := h.frames.length
  have hzero : d.isLoop = false → i.isCall = false → x.poll = true → a.instrs.length = 0 := by
    intro h1 h2 h3
    have hpoll : a.isFirst = true ∨ a.pollFlag = true := by simpa [h1, h2] using hp h3
    simp [h.polls hpoll]
  unfold Plan.Accepts
  rw [hx]
  cases hs.vstep with
  | br hb => exact hlen ▸ hb.label
  | brIf hlab | brTable hlab | brOnNull hlab | brOnNonNull hlab | brOnCast hlab => simpa [hlen] using hlab
  | block => exact hzero rfl rfl
  | loop => exact hl rfl
  | tryTable _ hc =>
    refine ⟨hzero rfl rfl, fun c hc' => ?_⟩
    obtain ⟨c0, -, hok, -⟩ := forall₂_mem_right hc c hc'
    rw [hlen, hok.label]
    exact hok.bound
  | else_ s =>
    obtain ⟨g, gs, hc, hop, -⟩ := (s.was ▸ h.frames).cons_left
    exact ⟨g, gs, hc, by simp [hop, CtrlFrame.planOp, s.opcode, s.first]⟩
  | end_ s =>
    obtain ⟨g, gs, hc, -⟩ := (s.was ▸ h.frames).cons_left
    simp [hc]
  | _ => trivial

theorem tryCount_cons (f : CtrlFrame) (fs : List CtrlFrame) :
    tryCount (f :: fs) = tryCount fs + if f.opcode = .tryTable then 1 else 0 := by
  simp [tryCount, List.countP_cons]

theorem markRels_marks (p : Plan) (d : DOp) : MarkRels p.ctrl (p.marks d).ctrl := by
  cases d <;> first
    | exact markRels_mark p _
    | exact markRels_markAll p _
    | exact .refl _

/-- other instructions leave the frames as they are -/
theorem VStep.plain {v v' : VCtx} (h : VStep C v v' i od) (hd : ∀ d ∈ od, d.isPlain = true) :
    v'.ctrl = v.ctrl ∧ (v.baseHeight ≤ v.height → v'.baseHeight ≤ v'.height) := by
  cases h with
  | skip _ f | data f | localGet _ f | localSet f | localTee f | call f | brIf _ _ f | brOnNull _ _ f | brOnNonNull _ _ f
  | brOnCast _ _ f => exact ⟨f.ctrl, f.base⟩
  | returnCall _ f | unreachable f | return_ f | throw f | throwRef f | br _ f | brTable _ _ f => exact ⟨f.ctrl, f.base⟩
  | block | loop | if_ | tryTable | else_ | end_ => simp [DOp.isPlain] at hd

theorem VStep.isCall_none {v v' : VCtx} (h : VStep C v v' i none) : i.isCall = false := by
  cases h with
  | skip hi => rcases hi with rfl | rfl | rfl <;> rfl

theorem planOp_tryTable {f : CtrlFrame} {g : PFrame} (h : g.opcode = f.planOp) :
    g.opcode = .tryTable ↔ f.opcode = .tryTable := by
  rw [h, CtrlFrame.planOp]
  cases f.opcode <;> simp
  split <;> simp

theorem planOp_loop {f : CtrlFrame} {g : PFrame} (h : g.opcode = f.planOp) : g.opcode = .loop ↔ f.opcode = .loop := by
  rw [h, CtrlFrame.planOp]
  cases f.opcode <;> simp
  split <;> simp

/-- what `Matched` says of frames -/
def FramesOk (v : VCtx) (p : Plan) : Prop :=
  Frames v.ctrl p.ctrl ∧ p.tryDepth = tryCount v.ctrl ∧ v.baseHeight ≤ v.height

/-- a construct is opened in both -/
theorem FramesOk.open_ {v v' : VCtx} {p p' : Plan} (h : FramesOk v p) {M : Module} {op : FrameOp} {bt : BlockType}
    {f : CtrlFrame} (o : Opens M v v' op bt f) {g : PFrame} {gs : List PFrame} (hc : p'.ctrl = g :: gs)
    (hm : MarkRels p.ctrl gs) (hop : g.opcode = f.planOp) (hg : g.tryDepth = p.tryDepth)
    (ht : p'.tryDepth = p.tryDepth + if op = .tryTable then 1 else 0) : FramesOk v' p' := by
  obtain ⟨hf, htr, hb⟩ := h
  refine ⟨?_, ?_, ?_⟩
  · rw [o.ctrl, hc]
    exact .cons hop (hg.trans htr) (o.base hb) (hf.marks hm)
  · rw [ht, o.ctrl, tryCount_cons, o.opcode, htr]
  · rw [o.height, baseHeight_eq, o.ctrl]
    simp [baseOf]

/-- one instruction keeps the two in step -/
theorem Matched.step (h : Matched metered ds a) (hs : StepOf C a a' i od) (hd : a'.instrs <+: ds) :
    Matched metered ds a' := by
  have hpolls : a'.isFirst = true ∨ a'.pollFlag = true → a'.instrs = [] := by
    rintro (hf | hf)
    · simp [hs.first] at hf
    · obtain ⟨rfl, hfl⟩ := hs.flag hf
      have hi : a'.instrs = a.instrs := hs.instrs
      rw [hi]
      apply h.polls
      simpa [hs.vstep.isCall_none] using hfl
  cases od with
  | none =>
    have hi : a'.instrs = a.instrs := hs.instrs
    have hp : a'.plan metered ds = a.plan metered ds := hs.plan_none
    obtain ⟨hc, hb⟩ := hs.vstep.plain (by simp)
    exact ⟨hd, by rw [hp, hc]; exact h.frames, by rw [hp, hc]; exact h.tries, hb h.base, hpolls,
      by rw [hp, hi]; exact h.wf⟩
  | some d =>
    obtain ⟨x, next, hx, hi, hget, hl, hp, hplan⟩ := hs.plan_some metered hd
    have hw : (a'.plan metered ds).WF a'.instrs.length := by
      rw [hplan, hi, List.length_append, List.length_singleton]
      exact planInstr_wf h.wf (h.accepts hs hx hl hp)
    have hok : FramesOk a.v (a.plan metered ds) := ⟨h.frames, h.tries, h.base⟩
    suffices hf : FramesOk a'.v (a'.plan metered ds) from ⟨hd, hf.1, hf.2.1, hf.2.2, hpolls, hw⟩
    rw [hplan]
    by_cases hpl : d.isPlain = true
    · obtain ⟨hc, hb⟩ := hs.vstep.plain (by simpa using hpl)
      have ha := planInstr_plain (p := a.plan metered ds) (k := a.instrs.length)
        (b := decide (a.instrs.length ∈ loopHasTry ds)) (n := next) (hx ▸ hpl)
      exact ⟨by rw [hc, ha.ctrl]; exact h.frames.marks (markRels_marks _ _), by rw [ha.tryDepth, hc]; exact h.tries,
        hb h.base⟩
    · cases hs.vstep with
      | block o =>
        have ha := planInstr_block (p := a.plan metered ds) (k := a.instrs.length)
          (b := decide (a.instrs.length ∈ loopHasTry ds)) (n := next) hx
        exact hok.open_ o ha.ctrl (.refl _) (by simp [CtrlFrame.planOp, o.opcode]) rfl (by simp [ha.tryDepth])
      | loop o =>
        have ha := planInstr_loop (p := a.plan metered ds) (k := a.instrs.length)
          (b := decide (a.instrs.length ∈ loopHasTry ds)) (n := next) hx
        exact hok.open_ o ha.ctrl (.refl _) (by simp [CtrlFrame.planOp, o.opcode]) rfl (by simp [ha.tryDepth])
      | tryTable o hc =>
        have ha := planInstr_tryTable (p := a.plan metered ds) (k := a.instrs.length)
          (b := decide (a.instrs.length ∈ loopHasTry ds)) (n := next) hx
        exact hok.open_ o ha.ctrl (markRels_markAll _ _) (by simp [CtrlFrame.planOp, o.opcode]) rfl (by simp [ha.tryDepth])
      | if_ hpop o =>
        have ha := planInstr_if (p := a.plan metered ds) (k := a.instrs.length)
          (b := decide (a.instrs.length ∈ loopHasTry ds)) (n := next) hx
        have hok' : FramesOk _ (a.plan metered ds) :=
          ⟨hpop.ctrl.symm ▸ h.frames, hpop.ctrl.symm ▸ h.tries, hpop.base h.base⟩
        exact hok'.open_ o ha.ctrl (.refl _) (by simp [CtrlFrame.planOp, o.opcode, o.elseFound]) rfl (by simp [ha.tryDepth])
      | else_ s =>
        obtain ⟨g, gs, hc, hop, ht, hb, hf⟩ := (s.was ▸ h.frames).cons_left
        have ha := planInstr_else (k := a.instrs.length) (b := decide (a.instrs.length ∈ loopHasTry ds))
          (n := next) hx hc
        refine ⟨?_, ?_, ?_⟩
        · rw [s.ctrl, ha.ctrl]
          exact .cons (by simp [CtrlFrame.planOp, s.opcode]) ht hb hf
        · rw [ha.tryDepth, s.ctrl, h.tries, s.was, tryCount_cons, tryCount_cons]
        · rw [s.height, baseHeight_eq, s.ctrl]
          simp [baseOf]
      | end_ s =>
        obtain ⟨g, gs, hc, hop, ht, hb, hf⟩ := (s.was ▸ h.frames).cons_left
        have ha := planInstr_end (k := a.instrs.length) (b := decide (a.instrs.length ∈ loopHasTry ds))
          (n := next) hx hc
        refine ⟨by rw [s.ctrl, ha.ctrl]; exact hf, ?_, by rw [s.height, baseHeight_eq, s.ctrl]; omega⟩
        have htry : g.opcode = .tryTable ↔ _ = FrameOp.tryTable := planOp_tryTable hop
        rw [ha.tryDepth, s.ctrl, h.tries, s.was, tryCount_cons]
        by_cases hg : g.opcode = .tryTable
        · simp [hg, htry.mp hg]
        · simp [hg, mt htry.mpr hg]
      | _ => simp [DOp.isPlain] at hpl

/-! ## Whole bodies -/

theorem StepOf.instrs_prefix (h : StepOf C a a' i od) : a.instrs <+: a'.instrs := by
  cases od with
  | none =>
    have hi : a'.instrs = a.instrs := h.instrs
    rw [hi]
  | some d =>
    obtain ⟨x, -, hx, -⟩ := h.instrs
    rw [hx]
    exact List.prefix_append _ _

theorem Steps.instrs_prefix {is : List Instr} (h : Steps C a is a') : a.instrs <+: a'.instrs := by
  induction h with
  | nil => exact List.prefix_refl _
  | cons _ h _ ih =>
    obtain ⟨od, hs⟩ := step_of h
    exact hs.instrs_prefix.trans ih

theorem Matched.steps {is : List Instr} (h : Matched metered ds a) (hs : Steps C a is a') (hd : a'.instrs <+: ds) :
    Matched metered ds a' := by
  induction hs with
  | nil => exact h
  | cons _ h1 h2 ih =>
    obtain ⟨od, hs⟩ := step_of h1
    exact ih (h.step hs (h2.instrs_prefix.trans hd)) hd

theorem matched_init (metered : Bool) (ds : List DInstr) : Matched metered ds {} := by
  refine ⟨List.nil_prefix, .nil, rfl, Nat.le_refl _, fun _ => rfl, ?_⟩
  refine ⟨?_, ?_, ?_, ?_, ?_, ?_, ?_, ?_, ?_⟩ <;> simp [AState.plan, planAt, layout]

/-- the outermost END is stored without a POLL -/
theorem finish_spec {A : Analyzed} (h : a.finish C = .ok A) :
    ∃ x : DInstr, A.instrs = a.instrs ++ [x] ∧ x.op = .end_ ∧ x.poll = false ∧
      (a.v.isUnreachable = false → a.v.ctrl = [] → a.v.height = C.func.results.length) := by
  simp only [AState.finish, bind_eq_ok, ensure_eq_ok, pure_eq_ok] at h
  obtain ⟨w, hp, -, hh, rfl⟩ := h
  obtain ⟨hsame, hi, -⟩ := prepare_fields C a .end_
  refine ⟨_, by rw [hi], rfl, rfl, fun hl hc => ?_⟩
  have p := popMatches_pops hp
  rw [List.length_reverse] at p
  have hl' := hsame.dead.trans hl
  have hw := p.height hl'
  rw [hsame.height, hh] at hw
  by_cases hn : 0 < C.func.results.length
  · have := (p.live hl').2 hn
    rw [hsame.height] at this
    omega
  · omega

theorem Matched.acceptsFrom {is : List Instr} (hm : Matched metered ds a) (hs : Steps C a is a') (hc : a'.v.ctrl = [])
    {x : DInstr} (hx : x.op = .end_) (hds : ds = a'.instrs ++ [x]) :
    Plan.AcceptsFrom (loopHasTry ds) (a.plan metered ds) a.instrs.length (ds.drop a.instrs.length) := by
  induction hs with
  | nil b =>
    have hctrl : (b.plan metered ds).ctrl = [] := (hc ▸ hm.frames).nil_left
    rw [hds, List.drop_left]
    exact ⟨hx, by rw [← hds]; exact hctrl⟩
  | @cons b b' b'' i is _ h1 h2 ih =>
    obtain ⟨od, hs⟩ := step_of h1
    have hd : b'.instrs <+: ds := hds ▸ h2.instrs_prefix.trans (List.prefix_append _ _)
    have ih := ih (hm.step hs hd) hc hds
    cases od with
    | none =>
      have hi : b'.instrs = b.instrs := hs.instrs
      rw [hs.plan_none, hi] at ih
      exact ih
    | some d =>
      obtain ⟨y, hy, hi, -⟩ := hs.instrs
      obtain ⟨y', next, hy', hi', hget, hl, hp, -⟩ := hs.plan_some metered hd
      have hlt := (List.getElem?_eq_some_iff.mp hget).1
      rw [hi', List.length_append, List.length_singleton] at ih
      have hlen : b.instrs.length + 1 < ds.length := by
        have := h2.instrs_prefix.length_le
        rw [hi', List.length_append, List.length_singleton] at this
        rw [hds, List.length_append, List.length_singleton]
        omega
      have hplan : b'.plan metered ds = planInstr (b.plan metered ds) b.instrs.length
          (decide (b.instrs.length ∈ loopHasTry ds)) y' (ds[b.instrs.length + 1]).refMap := by
        rw [AState.plan, hi', List.length_append, List.length_singleton, planAt_succ hget,
          List.getElem?_eq_getElem hlen]
        rfl
      have hdrop : ds.drop b.instrs.length = y' :: ds[b.instrs.length + 1] :: ds.drop (b.instrs.length + 1 + 1) := by
        rw [List.drop_eq_getElem_cons hlt, List.drop_eq_getElem_cons hlen]
        congr 1
        exact Option.some.inj ((List.getElem?_eq_getElem hlt).symm.trans hget)
      rw [hdrop]
      refine ⟨hm.accepts hs hy' hl hp, ?_⟩
      rw [← hplan]
      rw [List.drop_eq_getElem_cons hlen] at ih
      exact ih

/-- an accepted body, taken apart -/
structure Body (C : FuncCtx) (body : List Instr) (ds : List DInstr) (last : AState) (pre : List Instr) : Prop where
  split : body = pre ++ [.end_]
  steps : Steps C {} pre last
  ctrl : last.v.ctrl = []
  finish : ∃ A, last.finish C = .ok A ∧ A.instrs = ds
  instrs : ∃ x : DInstr, ds = last.instrs ++ [x] ∧ x.op = .end_ ∧ x.poll = false

theorem analyzeStream_body {body : List Instr} {A : Analyzed} (h : analyzeStream C body = .ok A) :
    ∃ last pre, Body C body A.instrs last pre := by
  obtain ⟨pre, last, h1, h2, h3, h4⟩ := analyzeFrom_steps h
  obtain ⟨x, h5, h6, h7, -⟩ := finish_spec h4
  exact ⟨last, pre, h1, h2, h3, ⟨A, h4, rfl⟩, ⟨x, h5, h6, h7⟩⟩

/-- **The plan accepts what the analysis accepts.** -/
theorem analyzeStream_acceptsFrom {body : List Instr} {A : Analyzed} (h : analyzeStream C body = .ok A) :
    Plan.AcceptsFrom (loopHasTry A.instrs) { emitMeter := metered, needNewChunk := metered } 0 A.instrs := by
  obtain ⟨last, pre, b⟩ := analyzeStream_body h
  obtain ⟨x, hx, hop, -⟩ := b.instrs
  exact (matched_init metered A.instrs).acceptsFrom b.steps b.ctrl hop hx

end Matched

end Wah
