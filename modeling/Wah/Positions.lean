/-
Where a structured position stands in the analysis and in the plan.

`Pos a code labels`: the analysis in state `a` has `code` ahead, and after it the constructs of `labels` are left one
by one, down to the function's END. `Pos.target` is what a branch needs: the label's record, the state of the analysis
there, and whether handlers are dropped on the way.
-/
import Wah.Nesting

namespace Wah

/-! ## The end of the body -/

/-- the analysis has arrived at the function's END -/
structure Final (C : FuncCtx) (ds : List DInstr) (last : AState) : Prop where
  ctrl : last.v.ctrl = []
  instrs : ∃ x : DInstr, ds = last.instrs ++ [x] ∧ x.op = .end_
  results : last.v.isUnreachable = false → last.v.height = C.func.results.length

theorem Body.final {C : FuncCtx} {body : List Instr} {ds : List DInstr} {last : AState} {pre : List Instr}
    (h : Body C body ds last pre) : Final C ds last := by
  obtain ⟨A, hf, hA⟩ := h.finish
  obtain ⟨x, h1, h2, -, h3⟩ := finish_spec hf
  exact ⟨h.ctrl, ⟨x, hA ▸ h1, h2⟩, fun hl => h3 hl h.ctrl⟩

section Positions

variable {C : FuncCtx} {metered : Bool} {ds : List DInstr} {last a a' b b' b'' : AState}

/-- the plan of the whole body adds the function's END -/
theorem Final.adds (h : Final C ds last) (hm : Matched metered ds last) :
    Adds (last.plan metered ds) (planOf metered ds) (some .end_) [] (last.plan metered ds).tryDepth
      (last.plan metered ds).ends := by
  obtain ⟨x, hx, hop⟩ := h.instrs
  have hget : ds[last.instrs.length]? = some x := by rw [hx]; simp
  have hlen : ds.length = last.instrs.length + 1 := by rw [hx]; simp
  rw [planOf_eq, hlen, planAt_succ hget]
  exact planInstr_funcEnd hop (h.ctrl ▸ hm.frames).nil_left

/-- a state of the analysis on the way to the function's END -/
structure OnWay (C : FuncCtx) (metered : Bool) (ds : List DInstr) (last a : AState) : Prop where
  matched : Matched metered ds a
  scanned : a.Scanned metered ds
  behind : ∃ is, Steps C {} is a
  ahead : ∃ is, Steps C a is last

theorem Final.decoded (h : Final C ds last) (ha : ∃ is, Steps C a is last) : a.instrs <+: ds := by
  obtain ⟨is, hs⟩ := ha
  obtain ⟨x, hx, -⟩ := h.instrs
  exact hs.instrs_prefix.trans (hx ▸ List.prefix_append _ _)

theorem OnWay.steps {is : List Instr} (h : OnWay C metered ds last a) (hf : Final C ds last) (hs : Steps C a is b)
    (hb : ∃ is, Steps C b is last) : OnWay C metered ds last b := by
  obtain ⟨js, hbehind⟩ := h.behind
  exact ⟨h.matched.steps hs (hf.decoded hb), h.matched.scanned_steps h.scanned hs (hf.decoded hb),
    ⟨js ++ is, hbehind.append hs⟩, hb⟩

theorem OnWay.atLast (h : OnWay C metered ds last a) (hf : Final C ds last) : OnWay C metered ds last last := by
  obtain ⟨is, hs⟩ := h.ahead
  exact h.steps hf hs ⟨[], .nil _⟩

/-- the final plan extends the current one -/
theorem OnWay.extends_ (h : OnWay C metered ds last a) (hf : Final C ds last) :
    Extends (a.plan metered ds) (planOf metered ds) := by
  obtain ⟨is, hs⟩ := h.ahead
  have hl := (h.atLast hf).matched
  exact (h.matched.extends_steps hs hl.decoded).trans ((hf.adds hl).extends_ (List.prefix_refl _))

/-! ## Leaving a construct -/

/-- a branch or a fall-through to `a` arrives at record `r`: at its own record, or at a TRIM_HANDLERS before it -/
def Arrives (metered : Bool) (ds : List DInstr) (r : Nat) (a : AState) : Prop :=
  r = (a.plan metered ds).size ∨
    r + 1 = (a.plan metered ds).size ∧ ∃ rec, (planOf metered ds).records[r]? = some rec ∧
      rec.main = some (.trimHandlers (tryCount a.v.ctrl))

/-- a label of the machine and the frame of the validator it stands for -/
structure LabelOk (lab : SLabel) (f : CtrlFrame) : Prop where
  height : lab.height = f.stackHeight
  arity : lab.arity = if f.opcode = .loop then f.params.length else f.results.length
  handler : lab.handler ≠ none ↔ f.opcode = .tryTable
  entered : f.isUnreachable = false

/-- the end of the innermost construct is left from `b` to `b'`; `r` is where its END leads -/
structure Leave (metered : Bool) (ds : List DInstr) (b b' : AState) (f : CtrlFrame) (g : PFrame) (r : Nat) : Prop where
  was : ∃ fs, b.v.ctrl = f :: fs ∧ b'.v.ctrl = fs
  plan : ∃ gs, (b.plan metered ds).ctrl = g :: gs ∧ MarkRels gs (b'.plan metered ds).ctrl
  outer : b'.v.isUnreachable = f.isUnreachable
  height : b'.v.height = f.stackHeight + f.results.length
  live : b.v.isUnreachable = false → b.v.height = f.stackHeight + f.results.length
  name : (Target.endOf g.id, r) ∈ (b'.plan metered ds).ends
  arrives : Arrives metered ds r b'
  trim : g.needsTrim = true → f.opcode ≠ .loop → r ≠ (b'.plan metered ds).size

/-- the record at the end of a construct: END, END_TRY_TABLE, or the ELSE of an `if` -/
def ExitRecord (metered : Bool) (ds : List DInstr) (b : AState) (f : CtrlFrame) (g : PFrame) (r : Nat) : Prop :=
  ∃ rec, (planOf metered ds).records[(b.plan metered ds).size]? = some rec ∧
    (rec.main = none ∧ f.opcode ≠ .tryTable ∧ r = (b.plan metered ds).size + 1 ∨
      rec.main = some .endTryTable ∧ f.opcode = .tryTable ∧ r = (b.plan metered ds).size + 1 ∨
      rec.main = some (.else_ (.endOf g.id)) ∧ f.opcode = .if_)

theorem endName_mem (g : PFrame) (r : Nat) : (Target.endOf g.id, r) ∈ Plan.endNames g r := by
  unfold Plan.endNames
  split <;> simp

theorem leave_end (hf : Final C ds last) (hb : OnWay C metered ds last b) (h : b.step C .end_ = .ok b')
    (hb' : OnWay C metered ds last b') :
    ∃ f g, Leave metered ds b b' f g ((b.plan metered ds).size + 1) ∧
      ExitRecord metered ds b f g ((b.plan metered ds).size + 1) ∧
      (f.opcode = .if_ → f.elseFound = false → f.params.length = f.results.length) ∧
      (g.opcode = .if_ → (Target.falseOf g.id, (b.plan metered ds).size + 1) ∈ (b'.plan metered ds).ends) := by
  obtain ⟨f, fs, s, ha⟩ := step_end metered h hb'.matched.decoded
  obtain ⟨g, gs, hg, hop, ht, -, -⟩ := (s.was ▸ hb.matched.frames).cons_left
  have e := ha hg
  obtain ⟨rec, rs, hr, hmain, htrim⟩ := e.records
  have hx := (hb'.extends_ hf).records
  obtain ⟨tl, htl⟩ := hx
  have hrec : (planOf metered ds).records[(b.plan metered ds).size]? = some rec := by
    rw [← htl, hr]
    simp [Plan.size]
  refine ⟨f, g, ⟨⟨fs, s.was, s.ctrl⟩, ⟨gs, hg, e.ctrl ▸ .refl _⟩, s.dead, s.height, fun hl => s.live hl hb.matched.base,
    ?_, ?_, fun hn hl => ?_⟩, ⟨rec, hrec, ?_⟩, s.implicitElse, fun hgo => ?_⟩
  · rw [e.ends]
    exact List.mem_append_right _ (endName_mem g _)
  · by_cases hn : g.needsTrim = true ∧ g.opcode ≠ .loop
    · rw [if_pos hn] at htrim
      obtain ⟨t, rfl, htm⟩ := htrim
      refine .inr ⟨by simp [Plan.size, hr], t, ?_, ?_⟩
      · rw [← htl, hr]
        simp [Plan.size]
      · rw [htm, s.ctrl, ht]
    · rw [if_neg hn] at htrim
      exact .inl (by simp [Plan.size, hr, htrim])
  · rw [if_pos ⟨hn, mt (planOp_loop hop).mp hl⟩] at htrim
    obtain ⟨t, rfl, -⟩ := htrim
    simp [Plan.size, hr]
  · have hiff := planOp_tryTable hop
    by_cases hto : g.opcode = .tryTable
    · rw [if_pos hto] at hmain
      exact .inr (.inl ⟨hmain, hiff.mp hto, rfl⟩)
    · rw [if_neg hto] at hmain
      exact .inl ⟨hmain, mt hiff.mpr hto, rfl⟩
  · rw [e.ends]
    apply List.mem_append_right
    simp [Plan.endNames, hgo]

/-- the then branch of an `if` is left through its ELSE -/
theorem leave_else (hf : Final C ds last) (hb : OnWay C metered ds last b) {b1 b2 : AState} {els : Code}
    (h : b.step C .else_ = .ok b1) (hs : Steps C b1 els.flat b2) (hb2 : OnWay C metered ds last b2)
    (h' : b2.step C .end_ = .ok b') (hb' : OnWay C metered ds last b') :
    ∃ f g r, Leave metered ds b b' f g r ∧ ExitRecord metered ds b f g r ∧ f.opcode = .if_ ∧ f.elseFound = false := by
  have hd1 := hs.instrs_prefix.trans hb2.matched.decoded
  obtain ⟨f, fs, s, ha⟩ := step_else metered h hd1
  obtain ⟨g, gs, hg, hop, ht, -, -⟩ := (s.was ▸ hb.matched.frames).cons_left
  have e := ha hg
  have hbal := steps_flat metered els hs hb2.matched.decoded
  obtain ⟨f2, g2, hl, -, -, -⟩ := leave_end hf hb2 h' hb'
  obtain ⟨fs2, hc2, hc2'⟩ := hl.was
  obtain ⟨gs2, hg2, hm2⟩ := hl.plan
  have hfeq : f2 = { f with elseFound := true } ∧ fs2 = fs := by
    have := hc2.symm.trans (hbal.ctrl.trans s.ctrl)
    simpa using this
  have hmarks := hbal.marks
  rw [e.ctrl, hg2] at hmarks
  have hid : g2.id = g.id := hmarks.head.id
  refine ⟨f, g, _, ⟨⟨fs, s.was, hfeq.2 ▸ hc2'⟩, ⟨gs, hg, hmarks.tail.trans hm2⟩, ?_, ?_, fun hlv => s.live hlv hb.matched.base,
    hid ▸ hl.name, hl.arrives, fun hn hlo => hl.trim (hmarks.head.needsTrim hn) (by rw [hfeq.1]; exact hlo)⟩, ?_,
    s.opcode, s.first⟩
  · rw [hl.outer, hfeq.1]
  · rw [hl.height, hfeq.1]
  · have hx : Extends (b1.plan metered ds) (planOf metered ds) := by
      have hm1 : Matched metered ds b1 := by
        obtain ⟨od, hso⟩ := step_of h
        exact hb.matched.step hso hd1
      exact (hm1.extends_steps hs hb2.matched.decoded).trans (hb2.extends_ hf)
    obtain ⟨rec, hrec, hmain⟩ := e.record hx
    exact ⟨rec, hrec, .inr (.inr ⟨hmain, s.opcode⟩)⟩

/-! ## Positions -/

/-- where a branch to a loop starts again: the analysis before the loop -/
structure LoopStart (C : FuncCtx) (metered : Bool) (ds : List DInstr) (last b b' : AState) (lab : SLabel)
    (f : CtrlFrame) (g : PFrame) : Prop where
  start : ∃ (a0 a1 : AState) (bt : BlockType) (body : Code), lab.target = .loop bt body lab.rest ∧
    OnWay C metered ds last a0 ∧ a0.step C (.loop bt) = .ok a1 ∧ Steps C a1 body.flat b ∧ b.step C .end_ = .ok b' ∧
    a0.v.isUnreachable = false ∧ a0.v.height = f.stackHeight + f.params.length ∧ g.header = (a0.plan metered ds).size

/-- the constructs around the end of complete code, left one by one -/
inductive Outer (C : FuncCtx) (metered : Bool) (ds : List DInstr) (last : AState) : AState → List SLabel → Prop where
  | done : Outer C metered ds last last []
  | cons {b b' b'' : AState} {lab : SLabel} {labs : List SLabel} {f : CtrlFrame} {g : PFrame} {r : Nat}
      (hb : OnWay C metered ds last b) (hl : Leave metered ds b b' f g r) (hx : ExitRecord metered ds b f g r)
      (ho : LabelOk lab f) (ht : if f.opcode = .loop then LoopStart C metered ds last b b' lab f g else lab.target = lab.rest)
      (hb' : OnWay C metered ds last b') (hs : Steps C b' lab.rest.flat b'') (h : Outer C metered ds last b'' labs) :
      Outer C metered ds last b (lab :: labs)

/-- a position: `code` is ahead of `a`, then the ends of `labels` -/
structure Pos (C : FuncCtx) (metered : Bool) (ds : List DInstr) (last a : AState) (code : Code) (labels : List SLabel) :
    Prop where
  onWay : OnWay C metered ds last a
  live : a.v.isUnreachable = false
  rest : ∃ b, Steps C a code.flat b ∧ Outer C metered ds last b labels

theorem Outer.decoded {labels : List SLabel} (h : Outer C metered ds last b labels) (hf : Final C ds last) :
    b.instrs <+: ds := by
  cases h with
  | done => exact hf.decoded ⟨[], .nil _⟩
  | cons hb => exact hb.matched.decoded

theorem Outer.ahead {labels : List SLabel} (h : Outer C metered ds last b labels) : ∃ is, Steps C b is last := by
  cases h with
  | done => exact ⟨[], .nil _⟩
  | cons hb => exact hb.ahead

theorem Outer.labels {labels : List SLabel} (h : Outer C metered ds last b labels) (hf : Final C ds last) :
    List.Forall₂ LabelOk labels b.v.ctrl := by
  induction h with
  | done =>
    rw [hf.ctrl]
    exact .nil
  | cons hb hl hx ho ht hb' hs h ih =>
    obtain ⟨fs, hc, hc'⟩ := hl.was
    have hbal := steps_flat metered _ hs (h.decoded hf)
    rw [hc]
    rw [hbal.ctrl, hc'] at ih
    exact .cons ho ih

/-- the construct of a label: how it is left, after branches inside of it have been noted -/
theorem Outer.get {labels : List SLabel} (h : Outer C metered ds last b labels) (hf : Final C ds last) {l : Nat}
    {lab : SLabel} (hl : labels[l]? = some lab) :
    ∃ c, Outer C metered ds last c (lab :: labels.drop (l + 1)) ∧ c.v.ctrl = b.v.ctrl.drop l ∧
      MarkRels ((b.plan metered ds).ctrl.drop l) (c.plan metered ds).ctrl := by
  induction h generalizing l with
  | done => simp at hl
  | @cons b b' b'' lab' labs f g r hb hlv hx ho ht hb' hs h ih =>
    cases l with
    | zero =>
      simp only [List.getElem?_cons_zero, Option.some.injEq] at hl
      subst hl
      exact ⟨b, .cons hb hlv hx ho ht hb' hs h, rfl, .refl _⟩
    | succ l =>
      obtain ⟨c, h1, h2, h3⟩ := ih (by simpa using hl)
      obtain ⟨fs, hc, hc'⟩ := hlv.was
      obtain ⟨gs, hg, hm⟩ := hlv.plan
      have hbal := steps_flat metered _ hs (h.decoded hf)
      refine ⟨c, by simpa using h1, ?_, ?_⟩
      · rw [h2, hbal.ctrl, hc', hc]
        rfl
      · rw [hg]
        refine MarkRels.trans ?_ h3
        exact (hm.trans hbal.marks).drop l

/-- a path to a state from which the body can be completed -/
theorem Outer.ahead_of {labels : List SLabel} {is : List Instr} (h : Outer C metered ds last b labels)
    (hs : Steps C a is b) : ∃ is, Steps C a is last := by
  obtain ⟨js, hj⟩ := h.ahead
  exact ⟨is ++ js, hs.append hj⟩

/-- a construct whose END follows its body -/
theorem Outer.enter {labels : List SLabel} {a1 : AState} {body k : Code} {lab : SLabel} {f : CtrlFrame}
    {fs : List CtrlFrame} (h : Outer C metered ds last b'' labels) (hf : Final C ds last)
    (ha : OnWay C metered ds last a1) (hbody : Steps C a1 body.flat b) (hend : b.step C .end_ = .ok b')
    (hne : b.v.ctrl ≠ []) (hk : Steps C b' k.flat b'') (hc : a1.v.ctrl = f :: fs) (hrest : lab.rest = k)
    (hlab : LabelOk lab f)
    (ht : ∀ g, (b.plan metered ds).ctrl.head? = some g → if f.opcode = .loop then LoopStart C metered ds last b b' lab f g
      else lab.target = lab.rest) :
    Outer C metered ds last b (lab :: labels) := by
  have hsteps : Steps C b (.end_ :: k.flat) b'' := .cons (by simp [hne]) hend hk
  have hb := ha.steps hf hbody (h.ahead_of hsteps)
  have hb' := hb.steps hf (.cons (by simp [hne]) hend (.nil _)) (h.ahead_of hk)
  obtain ⟨f', g, hl, hx, -, -⟩ := leave_end hf hb hend hb'
  have hbal := steps_flat metered body hbody hb.matched.decoded
  have hff : f' = f := by
    obtain ⟨fs', hc', -⟩ := hl.was
    have := hc'.symm.trans (hbal.ctrl.trans hc)
    simp only [List.cons.injEq] at this
    exact this.1
  obtain ⟨gs, hg, -⟩ := hl.plan
  subst hff
  exact .cons hb hl hx hlab (ht g (by simp [hg])) hb' (hrest ▸ hk) h

theorem Steps.cons_inv' {i : Instr} {is : List Instr} (h : Steps C a (i :: is) b) :
    ∃ a', a.step C i = .ok a' ∧ ¬(i = .end_ ∧ a.v.ctrl = []) ∧ Steps C a' is b := by
  cases h with
  | cons hi h hs => exact ⟨_, h, hi, hs⟩

theorem Pos.block (hf : Final C ds last) {bt : BlockType} {body k : Code} {labels : List SLabel}
    (h : Pos C metered ds last a (.block bt body k) labels) :
    ∃ a1 f, Opens C.module a.v a1.v .block bt f ∧
      Adds (a.plan metered ds) (a1.plan metered ds) none
        ({ opcode := .block, id := a.instrs.length, tryDepth := (a.plan metered ds).tryDepth } ::
          (a.plan metered ds).ctrl) (a.plan metered ds).tryDepth (a.plan metered ds).ends ∧
      Pos C metered ds last a1 body (⟨f.results.length, f.stackHeight, k, k, none⟩ :: labels) := by
  obtain ⟨b'', hs, ho⟩ := h.rest
  obtain ⟨a1, h1, h2⟩ := hs.cons_inv
  obtain ⟨b, h3, h4⟩ := h2.split
  obtain ⟨b', h5, hne, h6⟩ := h4.cons_inv'
  have ha1 := h.onWay.steps hf (.cons (by simp) h1 (.nil _)) (ho.ahead_of h2)
  obtain ⟨f, o, ha⟩ := step_block metered h1 ha1.matched.decoded
  refine ⟨a1, f, o, ha, ha1, o.live, b, h3, ?_⟩
  refine ho.enter hf ha1 h3 h5 (by simpa using hne) h6 o.ctrl rfl ?_ fun g _ => ?_
  · exact ⟨rfl, by simp [o.opcode], by simp [o.opcode], o.outer.trans h.live⟩
  · simp [o.opcode]

theorem Pos.loop (hf : Final C ds last) {bt : BlockType} {body k : Code} {labels : List SLabel}
    (h : Pos C metered ds last a (.loop bt body k) labels) :
    ∃ a1 f, Opens C.module a.v a1.v .loop bt f ∧
      Adds (a.plan metered ds) (a1.plan metered ds)
        (if decide (a.instrs.length ∈ loopHasTry ds) then some (.trimHandlers (a.plan metered ds).tryDepth) else none)
        ({ opcode := .loop, id := a.instrs.length, header := (a.plan metered ds).size,
           tryDepth := (a.plan metered ds).tryDepth } :: (a.plan metered ds).ctrl)
        (a.plan metered ds).tryDepth (a.plan metered ds).ends ∧
      Pos C metered ds last a1 body (⟨f.params.length, f.stackHeight, .loop bt body k, k, none⟩ :: labels) := by
  obtain ⟨b'', hs, ho⟩ := h.rest
  obtain ⟨a1, h1, h2⟩ := hs.cons_inv
  obtain ⟨b, h3, h4⟩ := h2.split
  obtain ⟨b', h5, hne, h6⟩ := h4.cons_inv'
  have ha1 := h.onWay.steps hf (.cons (by simp) h1 (.nil _)) (ho.ahead_of h2)
  obtain ⟨f, o, ha⟩ := step_loop metered h1 ha1.matched.decoded
  refine ⟨a1, f, o, ha, ha1, o.live, b, h3, ?_⟩
  refine ho.enter hf ha1 h3 h5 (by simpa using hne) h6 o.ctrl rfl ?_ fun g hg => ?_
  · exact ⟨rfl, by simp [o.opcode], by simp [o.opcode], o.outer.trans h.live⟩
  · rw [if_pos o.opcode]
    have hbal := steps_flat metered body h3 (h4.instrs_prefix.trans (ho.decoded hf))
    obtain ⟨g', hmark, hin⟩ := (inside_loop metered h1 ha1.matched.decoded).balanced hbal
    obtain ⟨gs, hg', -⟩ := hin.plan
    rw [hg', List.head?_cons, Option.some.injEq] at hg
    subst hg
    have hup := o.above h.live h.onWay.matched.base
    exact ⟨a, a1, bt, body, rfl, h.onWay, h1, h3, h5, h.live, hup.2.symm.trans o.height, hmark.header⟩

theorem Pos.tryTable (hf : Final C ds last) {bt : BlockType} {cs : List CatchClause} {body k : Code}
    {labels : List SLabel} (h : Pos C metered ds last a (.tryTable bt cs body k) labels) :
    ∃ a1 f es, Opens C.module a.v a1.v .tryTable bt f ∧
      List.Forall₂ (fun c d => CatchOk C.module a.v C.func f.stackHeight c d ∧
        (∀ ts h, a.v.brTarget C.func c.label = some (ts, h) →
          d.drop = f.stackHeight + f.params.length - h ∧ h + ts.length ≤ a1.v.maxStackDepth)) cs es ∧
      Adds (a.plan metered ds) (a1.plan metered ds)
        (some (.tryTable (es.map fun c => ⟨c.kind, c.tag, (a.plan metered ds).target c.label, c.drop⟩)))
        ({ opcode := .tryTable, id := a.instrs.length, tryDepth := (a.plan metered ds).tryDepth } ::
          ((a.plan metered ds).markAll (es.map DCatch.label)).ctrl)
        ((a.plan metered ds).tryDepth + 1) (a.plan metered ds).ends ∧
      Pos C metered ds last a1 body (⟨f.results.length, f.stackHeight, k, k, some cs⟩ :: labels) := by
  obtain ⟨b'', hs, ho⟩ := h.rest
  obtain ⟨a1, h1, h2⟩ := hs.cons_inv
  obtain ⟨b, h3, h4⟩ := h2.split
  obtain ⟨b', h5, hne, h6⟩ := h4.cons_inv'
  have ha1 := h.onWay.steps hf (.cons (by simp) h1 (.nil _)) (ho.ahead_of h2)
  obtain ⟨f, es, o, hc, ha⟩ := step_tryTable metered h1 ha1.matched.decoded
  refine ⟨a1, f, es, o, hc, ha, ha1, o.live, b, h3, ?_⟩
  refine ho.enter hf ha1 h3 h5 (by simpa using hne) h6 o.ctrl rfl ?_ fun g _ => ?_
  · exact ⟨rfl, by simp [o.opcode], by simp [o.opcode], o.outer.trans h.live⟩
  · simp [o.opcode]

/-- what both edges of an `if` share: the record, and the frame opened for it -/
structure IfOpens (C : FuncCtx) (metered : Bool) (ds : List DInstr) (a a1 : AState) (bt : BlockType) (f : CtrlFrame) :
    Prop where
  pops : ∃ w, Pops a.v w 1 ∧ Opens C.module w a1.v .if_ bt f
  adds : Adds (a.plan metered ds) (a1.plan metered ds) (some (.if_ (.falseOf a.instrs.length)))
    ({ opcode := .if_, id := a.instrs.length, tryDepth := (a.plan metered ds).tryDepth } ::
      (a.plan metered ds).ctrl) (a.plan metered ds).tryDepth (a.plan metered ds).ends

theorem IfOpens.ctrl {a1 : AState} {bt : BlockType} {f : CtrlFrame} (h : IfOpens C metered ds a a1 bt f) :
    a1.v.ctrl = f :: a.v.ctrl := by
  obtain ⟨w, hp, o⟩ := h.pops
  rw [o.ctrl, hp.ctrl]

/-- in live code the condition is popped and the parameters stay -/
theorem IfOpens.live {a1 : AState} {bt : BlockType} {f : CtrlFrame} (h : IfOpens C metered ds a a1 bt f)
    (hl : a.v.isUnreachable = false) (hb : a.v.baseHeight ≤ a.v.height) :
    f.isUnreachable = false ∧ a.v.baseHeight + 1 ≤ a.v.height ∧ a.v.height = f.stackHeight + f.params.length + 1 := by
  obtain ⟨w, hp, o⟩ := h.pops
  have hroom := (hp.live hl).2 (by omega)
  have hh := hp.height hl
  have hup := (o.above (hp.dead.trans hl) (hp.base hb)).2
  have hh' := o.height
  exact ⟨o.outer.trans (hp.dead.trans hl), hroom, by omega⟩

theorem Pos.ifThen (hf : Final C ds last) {bt : BlockType} {thn k : Code} {labels : List SLabel}
    (h : Pos C metered ds last a (.ifThen bt thn k) labels) :
    ∃ a1 f b', IfOpens C metered ds a a1 bt f ∧
      Pos C metered ds last a1 thn (⟨f.results.length, f.stackHeight, k, k, none⟩ :: labels) ∧
      Pos C metered ds last b' k labels ∧ b'.v.height = f.stackHeight + f.params.length ∧ b'.v.ctrl = a.v.ctrl ∧
      MarkRels (a.plan metered ds).ctrl (b'.plan metered ds).ctrl ∧
      ∃ r, (Target.falseOf a.instrs.length, r) ∈ (b'.plan metered ds).ends ∧ Arrives metered ds r b' := by
  obtain ⟨b'', hs, ho⟩ := h.rest
  obtain ⟨a1, h1, h2⟩ := hs.cons_inv
  obtain ⟨b, h3, h4⟩ := h2.split
  obtain ⟨b', h5, hne, h6⟩ := h4.cons_inv'
  have ha1 := h.onWay.steps hf (.cons (by simp) h1 (.nil _)) (ho.ahead_of h2)
  obtain ⟨w, f, hp, o, ha⟩ := step_if metered h1 ha1.matched.decoded
  have hi : IfOpens C metered ds a a1 bt f := ⟨⟨w, hp, o⟩, ha⟩
  obtain ⟨hent, -, -⟩ := hi.live h.live h.onWay.matched.base
  have hlab : LabelOk ⟨f.results.length, f.stackHeight, k, k, none⟩ f :=
    ⟨rfl, by simp [o.opcode], by simp [o.opcode], hent⟩
  have hb := ha1.steps hf h3 (ho.ahead_of h4)
  have hb' := hb.steps hf (.cons hne h5 (.nil _)) (ho.ahead_of h6)
  obtain ⟨f', g, hl, -, himp, hfalse⟩ := leave_end hf hb h5 hb'
  have hbal := steps_flat metered thn h3 hb.matched.decoded
  obtain ⟨g', hmark, hin⟩ := (inside_if h1 ha1.matched.decoded).balanced hbal
  obtain ⟨gs, hg', hmg⟩ := hin.plan
  obtain ⟨gs', hg, hmg'⟩ := hl.plan
  rw [hg', List.cons.injEq] at hg
  obtain ⟨rfl, rfl⟩ := hg
  obtain ⟨fs, hc, hc'⟩ := hl.was
  have hff : f' = f ∧ fs = a.v.ctrl := by
    have := hc.symm.trans (hbal.ctrl.trans hi.ctrl)
    simpa using this
  obtain ⟨rfl, rfl⟩ := hff
  refine ⟨a1, f', b', hi, ⟨ha1, o.live, b, h3, ?_⟩, ⟨hb', hl.outer.trans hent, b'', h6, ho⟩, ?_, hc', hmg.trans hmg', ?_⟩
  · exact ho.enter hf ha1 h3 h5 (by simpa using hne) h6 hi.ctrl rfl hlab fun g _ => by simp [o.opcode]
  · rw [hl.height, himp o.opcode o.elseFound]
  · refine ⟨_, ?_, hl.arrives⟩
    have := hfalse (hmark.opcode.trans rfl)
    rwa [hmark.id] at this

theorem Pos.ifElse (hf : Final C ds last) {bt : BlockType} {thn els k : Code} {labels : List SLabel}
    (h : Pos C metered ds last a (.ifElse bt thn els k) labels) :
    ∃ a1 f b1, IfOpens C metered ds a a1 bt f ∧
      Pos C metered ds last a1 thn (⟨f.results.length, f.stackHeight, k, k, none⟩ :: labels) ∧
      Pos C metered ds last b1 els (⟨f.results.length, f.stackHeight, k, k, none⟩ :: labels) ∧
      b1.v.height = f.stackHeight + f.params.length ∧ (∃ f1, b1.v.ctrl = f1 :: a.v.ctrl) ∧
      (∃ g gs, (b1.plan metered ds).ctrl = g :: gs ∧ MarkRels (a.plan metered ds).ctrl gs) ∧
      (Target.falseOf a.instrs.length, (b1.plan metered ds).size) ∈ (b1.plan metered ds).ends := by
  obtain ⟨b'', hs, ho⟩ := h.rest
  obtain ⟨a1, h1, h2⟩ := hs.cons_inv
  obtain ⟨b, h3, h4⟩ := h2.split
  obtain ⟨b1, h5, hne, h6⟩ := h4.cons_inv'
  obtain ⟨b2, h7, h8⟩ := h6.split
  obtain ⟨b', h9, hne', h10⟩ := h8.cons_inv'
  have ha1 := h.onWay.steps hf (.cons (by simp) h1 (.nil _)) (ho.ahead_of h2)
  obtain ⟨w, f, hp, o, ha⟩ := step_if metered h1 ha1.matched.decoded
  have hi : IfOpens C metered ds a a1 bt f := ⟨⟨w, hp, o⟩, ha⟩
  obtain ⟨hent, -, -⟩ := hi.live h.live h.onWay.matched.base
  have hb := ha1.steps hf h3 (ho.ahead_of h4)
  have hb1 := hb.steps hf (.cons hne h5 (.nil _)) (ho.ahead_of h6)
  have hb2 := hb1.steps hf h7 (ho.ahead_of h8)
  have hb' := hb2.steps hf (.cons hne' h9 (.nil _)) (ho.ahead_of h10)
  have hbal := steps_flat metered thn h3 hb.matched.decoded
  obtain ⟨g, hmark, hin⟩ := (inside_if h1 ha1.matched.decoded).balanced hbal
  obtain ⟨gs, hg, hmg⟩ := hin.plan
  obtain ⟨f0, fs0, s, hadd⟩ := step_else metered h5 hb1.matched.decoded
  have hff : f0 = f ∧ fs0 = a.v.ctrl := by
    have := s.was.symm.trans (hbal.ctrl.trans hi.ctrl)
    simpa using this
  obtain ⟨rfl, rfl⟩ := hff
  have e := hadd hg
  have hlab : ∀ {f1 : CtrlFrame}, f1.stackHeight = f0.stackHeight → f1.results = f0.results → f1.opcode = .if_ →
      f1.isUnreachable = false → LabelOk ⟨f0.results.length, f0.stackHeight, k, k, none⟩ f1 :=
    fun e1 e2 e3 e4 => ⟨e1.symm, by simp [e2, e3], by simp [e3], e4⟩
  obtain ⟨f', g', r, hl, hx, hop', hel'⟩ := leave_else hf hb h5 h7 hb2 h9 hb'
  have hf' : f' = f0 := by
    obtain ⟨fs', hc', -⟩ := hl.was
    have := hc'.symm.trans s.was
    simp only [List.cons.injEq] at this
    exact this.1
  subst hf'
  refine ⟨a1, f', b1, hi, ⟨ha1, o.live, b, h3, ?_⟩, ⟨hb1, s.dead, b2, h7, ?_⟩, s.height, ⟨_, s.ctrl⟩, ⟨_, _, e.ctrl, hmg⟩,
    ?_⟩
  · exact .cons hb hl hx (hlab rfl rfl hop' hent) (by simp [hop']) hb' h10 ho
  · refine ho.enter hf hb1 h7 h9 (by simpa using hne') h10 s.ctrl rfl (hlab rfl rfl s.opcode hent) fun _ _ => ?_
    simp [s.opcode]
  · rw [e.ends, e.size, hmark.id]
    simp

/-- the end of the innermost construct -/
theorem Pos.nil {lab : SLabel} {labels : List SLabel} (h : Pos C metered ds last a .nil (lab :: labels)) :
    ∃ b' f g r, Leave metered ds a b' f g r ∧ ExitRecord metered ds a f g r ∧ LabelOk lab f ∧
      Pos C metered ds last b' lab.rest labels := by
  obtain ⟨b, hs, ho⟩ := h.rest
  cases hs
  cases ho with
  | @cons _ b' b'' _ _ f g r hb hl hx hlab ht hb' hs ho =>
    exact ⟨b', f, g, r, hl, hx, hlab, hb', hl.outer.trans hlab.entered, b'', hs, ho⟩

/-- the end of the body -/
theorem Pos.atEnd (h : Pos C metered ds last a .nil []) : a = last := by
  obtain ⟨b, hs, ho⟩ := h.rest
  cases hs
  cases ho
  rfl

/-- an instruction that leaves the frames alone -/
theorem Pos.op (hf : Final C ds last) {i : Instr} {hi : i.isStructural = false} {k : Code} {labels : List SLabel}
    (h : Pos C metered ds last a (.op i hi k) labels) :
    ∃ a1 od, VStep C a.v a1.v i od ∧ PlainAdds metered ds a a1 od ∧ OnWay C metered ds last a1 ∧
      (∃ b, Steps C a1 k.flat b ∧ Outer C metered ds last b labels) := by
  obtain ⟨b, hs, ho⟩ := h.rest
  obtain ⟨a1, h1, h2⟩ := hs.cons_inv
  have ha1 := h.onWay.steps hf (.cons (by rintro ⟨rfl, -⟩; simp [Instr.isStructural] at hi) h1 (.nil _)) (ho.ahead_of h2)
  obtain ⟨od, hv, hp⟩ := step_plain metered h1 hi ha1.matched.decoded
  exact ⟨a1, od, hv, hp, ha1, b, h2, ho⟩

/-! ## Labels and their records -/

/-- the name a branch to an open construct uses -/
def PFrame.name (g : PFrame) : Target := if g.opcode = .loop then .record g.header else .endOf g.id

theorem Plan.target_eq (p : Plan) (l : Nat) : p.target l = ((p.ctrl.map PFrame.name)[l]?).getD .func := by
  unfold Plan.target
  cases h : p.ctrl[l]? with
  | none => simp [h]
  | some g => simp [h, PFrame.name]

theorem MarkRels.names {gs gs' : List PFrame} (h : MarkRels gs gs') : gs'.map PFrame.name = gs.map PFrame.name := by
  apply List.ext_getElem?
  intro k
  simp only [List.getElem?_map]
  cases hg : gs[k]? with
  | none =>
    have : gs'[k]? = none := by
      rw [List.getElem?_eq_none_iff] at hg ⊢
      have := h.1
      omega
    simp [this]
  | some g =>
    obtain ⟨g', hg', hm⟩ := h.get hg
    simp [hg', PFrame.name, hm.id, hm.opcode, hm.header]

theorem lookup_of_mem {ends : List (Target × Nat)} (hn : (ends.map Prod.fst).Nodup) {t : Target} {r : Nat}
    (h : (t, r) ∈ ends) : ends.lookup t = some r := by
  induction ends with
  | nil => simp at h
  | cons e es ih =>
    obtain ⟨hn1, hn2⟩ := List.nodup_cons.mp hn
    rcases List.mem_cons.mp h with rfl | h
    · simp
    · have hne : t ≠ e.1 := by
        rintro rfl
        exact hn1 (List.mem_map.mpr ⟨_, h, rfl⟩)
      rw [List.lookup_cons, beq_eq_false_iff_ne.mpr hne]
      exact ih hn2 h

/-- resolved names are looked up in the final plan -/
theorem OnWay.lookup (h : OnWay C metered ds last a) (hf : Final C ds last) {t : Target} {r : Nat}
    (hm : (t, r) ∈ (a.plan metered ds).ends) : (planOf metered ds).ends.lookup t = some r := by
  refine lookup_of_mem ?_ ((h.extends_ hf).ends.subset hm)
  rw [(hf.adds (h.atLast hf).matched).ends]
  exact (h.atLast hf).matched.wf.distinct

theorem OnWay.index_endOf (h : OnWay C metered ds last a) (hf : Final C ds last) {id r : Nat}
    (hm : (Target.endOf id, r) ∈ (a.plan metered ds).ends) : (planOf metered ds).index (.endOf id) = r := by
  simp [Plan.index, h.lookup hf hm]

theorem OnWay.index_falseOf (h : OnWay C metered ds last a) (hf : Final C ds last) {id r : Nat}
    (hm : (Target.falseOf id, r) ∈ (a.plan metered ds).ends) : (planOf metered ds).index (.falseOf id) = r := by
  simp [Plan.index, h.lookup hf hm]

/-- a TRIM_HANDLERS stands in a record -/
def TrimAt (metered : Bool) (ds : List DInstr) (r depth : Nat) : Prop :=
  ∃ rec, (planOf metered ds).records[r]? = some rec ∧ rec.main = some (.trimHandlers depth)

/-- where a branch to a label of `c` leads -/
structure Leads (C : FuncCtx) (metered : Bool) (ds : List DInstr) (last c : AState) (l : Nat) (lab : SLabel)
    (labels : List SLabel) (f : CtrlFrame) (g : PFrame) (a' : AState) : Prop where
  frame : c.v.ctrl[l]? = some f
  plan : (c.plan metered ds).ctrl[l]? = some g
  label : LabelOk lab f
  pos : Pos C metered ds last a' lab.target labels
  height : a'.v.height = lab.height + lab.arity
  ctrl : a'.v.ctrl = c.v.ctrl.drop (l + 1)
  names : (a'.plan metered ds).ctrl.map PFrame.name = ((c.plan metered ds).ctrl.map PFrame.name).drop (l + 1)
  arrives : Arrives metered ds ((planOf metered ds).index g.name) a'
  trim : (f.opcode ≠ .loop ∧ g.needsTrim = true) ∨ (f.opcode = .loop ∧ g.id ∈ loopHasTry ds) →
    TrimAt metered ds ((planOf metered ds).index g.name) (tryCount a'.v.ctrl)

theorem Outer.target {c : AState} {code : Code} {labels : List SLabel} (ho : Outer C metered ds last b labels)
    (hf : Final C ds last) (hc : OnWay C metered ds last c) (hs : Steps C c code.flat b) {l : Nat} {lab : SLabel}
    (hl : labels[l]? = some lab) :
    ∃ f g a', Leads C metered ds last c l lab (labels.drop (l + 1)) f g a' := by
  have hb := hc.steps hf hs ho.ahead
  have hbal := steps_flat metered code hs hb.matched.decoded
  obtain ⟨e, hoe, hce, hme⟩ := ho.get hf hl
  rw [hbal.ctrl] at hce
  have hme' := (hbal.marks.drop l).trans hme
  cases hoe with
  | @cons _ e' e'' _ _ f ge r he hlv hx hlab ht he' hse hoe' =>
    obtain ⟨fs, hcf, hcf'⟩ := hlv.was
    obtain ⟨gs, hg, hmg⟩ := hlv.plan
    have hfl : c.v.ctrl[l]? = some f := by
      have := congrArg List.head? (hce.symm.trans hcf)
      simpa using this
    have hfs : c.v.ctrl.drop (l + 1) = fs := by
      have := congrArg List.tail (hce.symm.trans hcf)
      simpa using this
    rw [hg] at hme'
    have hlen : l < (c.plan metered ds).ctrl.length := by
      have := hme'.1
      simp only [List.length_cons, List.length_drop] at this
      omega
    have hgl := List.getElem?_eq_getElem hlen
    set g := (c.plan metered ds).ctrl[l] with hgdef
    have hdrop : (c.plan metered ds).ctrl.drop l = g :: (c.plan metered ds).ctrl.drop (l + 1) :=
      List.drop_eq_getElem_cons hlen
    rw [hdrop] at hme'
    have hmr := hme'.head
    have hop : ge.opcode = f.planOp := by
      obtain ⟨g', gs', hg', hop', -⟩ := (hcf ▸ he.matched.frames).cons_left
      rw [hg, List.cons.injEq] at hg'
      exact hg'.1 ▸ hop'
    by_cases hloop : f.opcode = .loop
    · rw [if_pos hloop] at ht
      obtain ⟨a0, a1, bt, body, htgt, ha0, hstep, hbody, hend, hlive, hheight, hheader⟩ := ht.start
      have hgloop : g.opcode = .loop := hmr.opcode.symm.trans ((planOp_loop hop).mpr hloop)
      have hname : g.name = .record (a0.plan metered ds).size := by
        rw [PFrame.name, if_pos hgloop, ← hmr.header, hheader]
      have hin := inside_loop metered hstep (hbody.instrs_prefix.trans he.matched.decoded)
      have hbody' := steps_flat metered body hbody he.matched.decoded
      obtain ⟨g2, hm2, hin2⟩ := hin.balanced hbody'
      obtain ⟨f2, hf2⟩ := hin2.ctrl
      obtain ⟨gs2, hg2, hm3⟩ := hin2.plan
      rw [hg, List.cons.injEq] at hg2
      obtain ⟨rfl, rfl⟩ := hg2
      have hctrl : a0.v.ctrl = fs := by
        rw [hcf, List.cons.injEq] at hf2
        exact hf2.2.symm
      have hne : e.v.ctrl ≠ [] := by simp [hcf]
      refine ⟨f, g, a0, hfl, hgl, hlab, ⟨ha0, hlive, e'', ?_, hoe'⟩, ?_, hctrl.trans hfs.symm, ?_, ?_, fun htrim => ?_⟩
      · rw [htgt]
        exact .cons (by simp) hstep (hbody.append (.cons (by simp [hne]) hend hse))
      · rw [hheight, hlab.height, hlab.arity, if_pos hloop]
      · rw [← hm3.names, hme'.tail.names, List.map_drop]
      · exact .inl (by rw [hname]; rfl)
      · have hmem : a0.instrs.length ∈ loopHasTry ds := by
          rcases htrim with ⟨h, -⟩ | ⟨-, h⟩
          · exact absurd hloop h
          · rw [← hmr.id, hm2.id] at h
            exact h
        obtain ⟨f3, -, hadd⟩ := step_loop metered hstep (hbody.instrs_prefix.trans he.matched.decoded)
        have ha1 : OnWay C metered ds last a1 := ha0.steps hf (.cons (by simp) hstep (.nil _)) (by
          obtain ⟨js, hj⟩ := he.ahead
          exact ⟨_, hbody.append hj⟩)
        obtain ⟨rec, hrec, hmain⟩ := hadd.record (ha1.extends_ hf)
        refine ⟨rec, by rw [hname]; exact hrec, ?_⟩
        rw [hmain, if_pos (by simpa using hmem), ha0.matched.tries]
    · rw [if_neg hloop] at ht
      have hgl' : g.opcode ≠ .loop := fun h => hloop ((planOp_loop hop).mp (hmr.opcode.trans h))
      have hname : g.name = .endOf ge.id := by rw [PFrame.name, if_neg hgl', hmr.id]
      have hidx : (planOf metered ds).index g.name = r := by
        rw [hname]
        exact he'.index_endOf hf hlv.name
      refine ⟨f, g, e', hfl, hgl, hlab, ⟨he', hlv.outer.trans hlab.entered, e'', ht ▸ hse, hoe'⟩, ?_,
        hcf'.trans hfs.symm, ?_, ?_, fun htrim => ?_⟩
      · rw [hlv.height, hlab.height, hlab.arity, if_neg hloop]
      · rw [hmg.names, hme'.tail.names, List.map_drop]
      · rw [hidx]
        exact hlv.arrives
      · have hneed : g.needsTrim = true := by
          rcases htrim with ⟨-, h⟩ | ⟨h, -⟩
          · exact h
          · exact absurd h hloop
        rw [hidx]
        rcases hlv.arrives with h | ⟨-, rec, h1, h2⟩
        · exact absurd h (hlv.trim (hmr.needsTrim hneed) hloop)
        · exact ⟨rec, h1, h2⟩

theorem exists_try {fs : List CtrlFrame} {n : Nat} (h : tryCount (fs.drop n) < tryCount fs) :
    ∃ j < n, ∃ f, fs[j]? = some f ∧ f.opcode = .tryTable := by
  have hsplit : tryCount fs = tryCount (fs.take n) + tryCount (fs.drop n) := by
    rw [tryCount, tryCount, tryCount, ← List.countP_append, List.take_append_drop]
  have hpos : 0 < tryCount (fs.take n) := by omega
  obtain ⟨f, hf, ht⟩ := List.countP_pos_iff.mp hpos
  obtain ⟨j, hj⟩ := List.mem_iff_getElem?.mp hf
  have hlt : j < n := by
    have := (List.getElem?_eq_some_iff.mp hj).1
    rw [List.length_take] at this
    omega
  rw [List.getElem?_take_of_lt hlt] at hj
  exact ⟨j, hlt, f, hj, by simpa using ht⟩

/-- a branch that leaves a `try_table` finds a TRIM_HANDLERS at its target -/
theorem Leads.trimAt {c a' : AState} {l : Nat} {lab : SLabel} {labels : List SLabel} {f : CtrlFrame} {g : PFrame}
    (h : Leads C metered ds last c l lab labels f g a') (hc : OnWay C metered ds last c)
    (hnoted : g.tryDepth < tryCount c.v.ctrl → g.needsTrim = true)
    (ht : tryCount (c.v.ctrl.drop (l + 1)) < tryCount c.v.ctrl) :
    TrimAt metered ds ((planOf metered ds).index g.name) (tryCount a'.v.ctrl) := by
  obtain ⟨hop, hd⟩ := hc.matched.frames.get h.frame h.plan
  apply h.trim
  by_cases hloop : f.opcode = .loop
  · refine .inr ⟨hloop, ?_⟩
    obtain ⟨j, hj, f', hf', htry⟩ := exists_try ht
    have hjl : j < l := by
      rcases Nat.lt_or_eq_of_le (Nat.le_of_lt_succ hj) with h' | rfl
      · exact h'
      · rw [h.frame, Option.some.injEq] at hf'
        subst hf'
        simp [hloop] at htry
    have hlen := hc.matched.frames.length
    have hjlt : j < (c.plan metered ds).ctrl.length := by
      have := (List.getElem?_eq_some_iff.mp hf').1
      omega
    have hgj := List.getElem?_eq_getElem hjlt
    have hopj := (hc.matched.frames.get hf' hgj).1
    refine hc.scanned.hasTry hc.matched.decoded.length_le hjl (x := PFrame.key _) (y := PFrame.key g)
      (by rw [List.getElem?_map, hgj]; rfl) (by rw [List.getElem?_map, h.plan]; rfl) ?_ ?_
    · simpa [PFrame.key] using (planOp_tryTable hopj).mpr htry
    · simpa [PFrame.key] using (planOp_loop hop).mpr hloop
  · exact .inl ⟨hloop, hnoted (hd ▸ ht)⟩

end Positions

end Wah
