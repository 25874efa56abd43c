/-
Complete constructs in an accepted body.

An accepted body parses (`analyzeStream_parse`), and code between the instruction that opens a construct and its END
leaves the frames around it as they were, up to notes of branches (`steps_flat`). The records of every instruction are
those the plan adds for it, wherever the rest of the body leads.
-/
import Wah.Trace

namespace Wah

variable {C : FuncCtx} {metered : Bool} {ds : List DInstr} {a a' b : AState} {i : Instr}

/-! ## Accepted bodies parse -/

/-- pieces that fit the open frames: only an `if` before its ELSE has one ahead -/
inductive Shaped : List CtrlFrame → List Piece → Prop where
  | nil (c : Code) : Shaped [] [⟨c, none⟩]
  | cons {f : CtrlFrame} {fs : List CtrlFrame} {pc : Piece} {ps : List Piece}
      (h : pc.els ≠ none → f.opcode = .if_ ∧ f.elseFound = false) (hs : Shaped fs ps) : Shaped (f :: fs) (pc :: ps)

theorem Shaped.exists_cons {fs : List CtrlFrame} {ps : List Piece} (h : Shaped fs ps) : ∃ pc ps', ps = pc :: ps' := by
  cases h <;> exact ⟨_, _, rfl⟩

/-- other code for the innermost piece -/
theorem Shaped.setCode {fs : List CtrlFrame} {k k' : Code} {x : Option Code} {ps : List Piece}
    (h : Shaped fs (⟨k, x⟩ :: ps)) : Shaped fs (⟨k', x⟩ :: ps) := by
  cases h with
  | nil => exact .nil k'
  | cons h hs => exact .cons h hs

theorem pieceStep_op (h : i.isStructural = false) (k : Code) (x : Option Code) (ps : List Piece) :
    pieceStep i (⟨k, x⟩ :: ps) = some (⟨.op i h k, x⟩ :: ps) := by
  cases i with
  | block | loop | if_ | else_ | end_ | tryTable => simp [Instr.isStructural] at h
  | _ => rfl

theorem VStep.isStructural {v v' : VCtx} {od : Option DOp} (h : VStep C v v' i od) (hd : ∀ d ∈ od, d.isPlain = true) :
    i.isStructural = false := by
  cases h with
  | skip hi => rcases hi with rfl | rfl | rfl <;> rfl
  | block | loop | if_ | tryTable | else_ | end_ => simp [DOp.isPlain] at hd
  | _ => rfl

theorem VStep.isPlain {v v' : VCtx} {od : Option DOp} (h : VStep C v v' i od) (hi : i.isStructural = false) :
    ∀ d ∈ od, d.isPlain = true := by
  cases h with
  | block | loop | if_ | tryTable | else_ | end_ => simp [Instr.isStructural] at hi
  | _ => simp [DOp.isPlain]

/-- a piece in front of one instruction more -/
theorem Shaped.step {od : Option DOp} {ps : List Piece} (h : VStep C a.v a'.v i od) (hs : Shaped a'.v.ctrl ps) :
    ∃ qs, pieceStep i ps = some qs ∧ Shaped a.v.ctrl qs := by
  by_cases hi : i.isStructural = false
  · obtain ⟨hc, -⟩ := h.plain (h.isPlain hi)
    rw [hc] at hs
    obtain ⟨⟨k, x⟩, ps', rfl⟩ := hs.exists_cons
    exact ⟨_, pieceStep_op hi k x ps', hs.setCode⟩
  · have opens : ∀ {f : CtrlFrame}, a'.v.ctrl = f :: a.v.ctrl → ∃ b e k x ps', ps = ⟨b, e⟩ :: ⟨k, x⟩ :: ps' ∧
        (e ≠ none → f.opcode = .if_) ∧ Shaped a.v.ctrl (⟨k, x⟩ :: ps') := by
      intro f hf
      rw [hf] at hs
      cases hs with
      | @cons _ _ pc ps' hp hs' =>
        obtain ⟨⟨k, x⟩, ps'', rfl⟩ := hs'.exists_cons
        exact ⟨pc.code, pc.els, k, x, ps'', rfl, fun he => (hp he).1, hs'⟩
    cases h with
    | block o =>
      obtain ⟨b, e, k, x, ps', rfl, he, hs'⟩ := opens o.ctrl
      cases e with
      | none => exact ⟨_, rfl, hs'.setCode⟩
      | some e => simp [o.opcode] at he
    | loop o =>
      obtain ⟨b, e, k, x, ps', rfl, he, hs'⟩ := opens o.ctrl
      cases e with
      | none => exact ⟨_, rfl, hs'.setCode⟩
      | some e => simp [o.opcode] at he
    | tryTable o =>
      obtain ⟨b, e, k, x, ps', rfl, he, hs'⟩ := opens o.ctrl
      cases e with
      | none => exact ⟨_, rfl, hs'.setCode⟩
      | some e => simp [o.opcode] at he
    | if_ hp o =>
      obtain ⟨b, e, k, x, ps', rfl, he, hs'⟩ := opens (hp.ctrl ▸ o.ctrl)
      cases e with
      | none => exact ⟨_, rfl, hs'.setCode⟩
      | some e => exact ⟨_, rfl, hs'.setCode⟩
    | else_ s =>
      rw [s.ctrl] at hs
      rw [s.was]
      cases hs with
      | @cons _ _ pc ps' hp hs' =>
        obtain ⟨e, x⟩ := pc
        cases x with
        | none => exact ⟨_, rfl, .cons (fun _ => ⟨s.opcode, s.first⟩) hs'⟩
        | some x => simp at hp
    | end_ s =>
      rw [s.ctrl] at hs
      rw [s.was]
      exact ⟨_, rfl, .cons (by simp) hs⟩
    | skip hi' => exact absurd (by rcases hi' with rfl | rfl | rfl <;> rfl) hi
    | _ => exact absurd rfl hi

theorem Steps.pieces {is : List Instr} (h : Steps C a is b) (hc : b.v.ctrl = []) :
    ∃ ps, pieces (is ++ [.end_]) = some ps ∧ Shaped a.v.ctrl ps := by
  induction h with
  | nil s => exact ⟨_, rfl, hc ▸ .nil .nil⟩
  | cons _ h _ ih =>
    obtain ⟨ps, h1, h2⟩ := ih hc
    obtain ⟨od, hs⟩ := step_of h
    obtain ⟨qs, h3, h4⟩ := h2.step hs.vstep
    exact ⟨qs, by simp [Wah.pieces, h1, h3], h4⟩

/-- **Accepted bodies are well nested.** -/
theorem analyzeStream_parse {body : List Instr} {A : Analyzed} (h : analyzeStream C body = .ok A) :
    ∃ c, parse body = some c := by
  obtain ⟨last, pre, hb⟩ := analyzeStream_body h
  obtain ⟨ps, h1, h2⟩ := hb.steps.pieces hb.ctrl
  have : ∃ c, ps = [⟨c, none⟩] := by
    cases h2 with
    | nil c => exact ⟨c, rfl⟩
  obtain ⟨c, rfl⟩ := this
  exact ⟨c, by rw [parse, hb.split, h1]⟩

/-! ## One instruction of the analysis and its records -/

section Tokens

variable (metered)

theorem step_block {bt : BlockType} (h : a.step C (.block bt) = .ok a') (hd : a'.instrs <+: ds) :
    ∃ f, Opens C.module a.v a'.v .block bt f ∧
      Adds (a.plan metered ds) (a'.plan metered ds) none
        ({ opcode := .block, id := a.instrs.length, tryDepth := (a.plan metered ds).tryDepth } ::
          (a.plan metered ds).ctrl) (a.plan metered ds).tryDepth (a.plan metered ds).ends := by
  obtain ⟨od, hs⟩ := step_of h
  cases hod : hs.vstep with
  | skip hi => simp at hi
  | @block _ f o =>
    obtain ⟨x, next, hx, -, -, -, -, hp⟩ := hs.plan_some metered hd
    exact ⟨f, o, hp ▸ planInstr_block hx⟩

theorem step_loop {bt : BlockType} (h : a.step C (.loop bt) = .ok a') (hd : a'.instrs <+: ds) :
    ∃ f, Opens C.module a.v a'.v .loop bt f ∧
      Adds (a.plan metered ds) (a'.plan metered ds)
        (if decide (a.instrs.length ∈ loopHasTry ds) then some (.trimHandlers (a.plan metered ds).tryDepth) else none)
        ({ opcode := .loop, id := a.instrs.length, header := (a.plan metered ds).size,
           tryDepth := (a.plan metered ds).tryDepth } :: (a.plan metered ds).ctrl)
        (a.plan metered ds).tryDepth (a.plan metered ds).ends := by
  obtain ⟨od, hs⟩ := step_of h
  cases hod : hs.vstep with
  | skip hi => simp at hi
  | @loop _ f o =>
    obtain ⟨x, next, hx, -, -, -, -, hp⟩ := hs.plan_some metered hd
    exact ⟨f, o, hp ▸ planInstr_loop hx⟩

theorem step_if {bt : BlockType} (h : a.step C (.if_ bt) = .ok a') (hd : a'.instrs <+: ds) :
    ∃ w f, Pops a.v w 1 ∧ Opens C.module w a'.v .if_ bt f ∧
      Adds (a.plan metered ds) (a'.plan metered ds) (some (.if_ (.falseOf a.instrs.length)))
        ({ opcode := .if_, id := a.instrs.length, tryDepth := (a.plan metered ds).tryDepth } ::
          (a.plan metered ds).ctrl) (a.plan metered ds).tryDepth (a.plan metered ds).ends := by
  obtain ⟨od, hs⟩ := step_of h
  cases hod : hs.vstep with
  | skip hi => simp at hi
  | @if_ _ w f hp o =>
    obtain ⟨x, next, hx, -, -, -, -, hplan⟩ := hs.plan_some metered hd
    exact ⟨w, f, hp, o, hplan ▸ planInstr_if hx⟩

theorem step_tryTable {bt : BlockType} {cs : List CatchClause} (h : a.step C (.tryTable bt cs) = .ok a')
    (hd : a'.instrs <+: ds) :
    ∃ f es, Opens C.module a.v a'.v .tryTable bt f ∧
      List.Forall₂ (fun c d => CatchOk C.module a.v C.func f.stackHeight c d ∧
        (∀ ts h, a.v.brTarget C.func c.label = some (ts, h) →
          d.drop = f.stackHeight + f.params.length - h ∧ h + ts.length ≤ a'.v.maxStackDepth)) cs es ∧
      Adds (a.plan metered ds) (a'.plan metered ds)
        (some (.tryTable (es.map fun c => ⟨c.kind, c.tag, (a.plan metered ds).target c.label, c.drop⟩)))
        ({ opcode := .tryTable, id := a.instrs.length, tryDepth := (a.plan metered ds).tryDepth } ::
          ((a.plan metered ds).markAll (es.map DCatch.label)).ctrl)
        ((a.plan metered ds).tryDepth + 1) (a.plan metered ds).ends := by
  obtain ⟨od, hs⟩ := step_of h
  cases hod : hs.vstep with
  | skip hi => simp at hi
  | @tryTable _ _ es f o hc =>
    obtain ⟨x, next, hx, -, -, -, -, hp⟩ := hs.plan_some metered hd
    exact ⟨f, es, o, hc, hp ▸ planInstr_tryTable hx⟩

theorem step_else (h : a.step C .else_ = .ok a') (hd : a'.instrs <+: ds) :
    ∃ f fs, Switches a.v a'.v f fs ∧ ∀ {g gs}, (a.plan metered ds).ctrl = g :: gs →
      Adds (a.plan metered ds) (a'.plan metered ds) (some (.else_ (.endOf g.id)))
        ({ g with opcode := .else_, isTarget := true } :: gs) (a.plan metered ds).tryDepth
        ((a.plan metered ds).ends ++ [(.falseOf g.id, (a.plan metered ds).size + 1)]) := by
  obtain ⟨od, hs⟩ := step_of h
  cases hod : hs.vstep with
  | skip hi => simp at hi
  | @else_ f fs s =>
    obtain ⟨x, next, hx, -, -, -, -, hp⟩ := hs.plan_some metered hd
    exact ⟨f, fs, s, fun hg => hp ▸ planInstr_else hx hg⟩

theorem step_end (h : a.step C .end_ = .ok a') (hd : a'.instrs <+: ds) :
    ∃ f fs, Ends a.v a'.v f fs ∧ ∀ {g gs}, (a.plan metered ds).ctrl = g :: gs →
      EndAdds (a.plan metered ds) (a'.plan metered ds) g gs := by
  obtain ⟨od, hs⟩ := step_of h
  cases hod : hs.vstep with
  | skip hi => simp at hi
  | @end_ f fs s =>
    obtain ⟨x, next, hx, -, -, -, -, hp⟩ := hs.plan_some metered hd
    exact ⟨f, fs, s, fun hg => hp ▸ planInstr_end hx hg⟩

/-- the records of an instruction that leaves the frames alone -/
def PlainAdds (ds : List DInstr) (a a' : AState) : Option DOp → Prop
  | none => a'.plan metered ds = a.plan metered ds
  | some d => ∃ x : DInstr, x.op = d ∧ ds[a.instrs.length]? = some x ∧
      Adds (a.plan metered ds) (a'.plan metered ds) ((a.plan metered ds).mainOf a.instrs.length x)
        ((a.plan metered ds).marks d).ctrl (a.plan metered ds).tryDepth (a.plan metered ds).ends

theorem step_plain (h : a.step C i = .ok a') (hi : i.isStructural = false) (hd : a'.instrs <+: ds) :
    ∃ od, VStep C a.v a'.v i od ∧ PlainAdds metered ds a a' od := by
  obtain ⟨od, hs⟩ := step_of h
  refine ⟨od, hs.vstep, ?_⟩
  cases od with
  | none => exact hs.plan_none
  | some d =>
    obtain ⟨x, next, hx, -, hget, -, -, hp⟩ := hs.plan_some metered hd
    have hpl := hs.vstep.isPlain hi d rfl
    have ha := planInstr_plain (p := a.plan metered ds) (k := a.instrs.length)
      (b := decide (a.instrs.length ∈ loopHasTry ds)) (n := next) (hx ▸ hpl)
    rw [hx] at ha
    exact ⟨x, hx, hget, hp ▸ ha⟩

end Tokens

/-! ## Growth -/

/-- later plans have all records and names of earlier ones -/
structure Extends (p q : Plan) : Prop where
  records : p.records <+: q.records
  ends : p.ends <+: q.ends

theorem Extends.refl (p : Plan) : Extends p p := ⟨List.prefix_refl _, List.prefix_refl _⟩

theorem Extends.trans {p q r : Plan} (h : Extends p q) (h' : Extends q r) : Extends p r :=
  ⟨h.records.trans h'.records, h.ends.trans h'.ends⟩

theorem Adds.extends_ {p q : Plan} {main : Option (LInstr Target)} {ctrl : List PFrame} {t : Nat}
    {ends : List (Target × Nat)} (h : Adds p q main ctrl t ends) (he : p.ends <+: ends) : Extends p q := by
  obtain ⟨rec, hr, -⟩ := h.records
  exact ⟨hr ▸ List.prefix_append _ _, h.ends ▸ he⟩

theorem EndAdds.extends_ {p q : Plan} {g : PFrame} {gs : List PFrame} (h : EndAdds p q g gs) : Extends p q := by
  obtain ⟨rec, rs, hr, -⟩ := h.records
  exact ⟨hr ▸ List.prefix_append _ _, h.ends ▸ List.prefix_append _ _⟩

theorem Adds.record {p q r : Plan} {main : Option (LInstr Target)} {ctrl : List PFrame} {t : Nat}
    {ends : List (Target × Nat)} (h : Adds p q main ctrl t ends) (he : Extends q r) :
    ∃ rec, r.records[p.size]? = some rec ∧ rec.main = main := by
  obtain ⟨rec, hr, hm⟩ := h.records
  obtain ⟨t, ht⟩ := he.records
  exact ⟨rec, by rw [← ht, hr]; simp [Plan.size], hm⟩

/-- one instruction extends the plan -/
theorem Matched.extends_ (hm : Matched metered ds a) (h : a.step C i = .ok a') (hd : a'.instrs <+: ds) :
    Extends (a.plan metered ds) (a'.plan metered ds) := by
  by_cases hi : i.isStructural = false
  · obtain ⟨od, -, hp⟩ := step_plain metered h hi hd
    cases od with
    | none => exact (show a'.plan metered ds = a.plan metered ds from hp) ▸ .refl _
    | some d =>
      obtain ⟨x, -, -, ha⟩ := hp
      exact ha.extends_ (List.prefix_refl _)
  · cases i with
    | block bt =>
      obtain ⟨f, -, ha⟩ := step_block metered h hd
      exact ha.extends_ (List.prefix_refl _)
    | loop bt =>
      obtain ⟨f, -, ha⟩ := step_loop metered h hd
      exact ha.extends_ (List.prefix_refl _)
    | if_ bt =>
      obtain ⟨w, f, -, -, ha⟩ := step_if metered h hd
      exact ha.extends_ (List.prefix_refl _)
    | tryTable bt cs =>
      obtain ⟨f, es, -, -, ha⟩ := step_tryTable metered h hd
      exact ha.extends_ (List.prefix_refl _)
    | else_ =>
      obtain ⟨f, fs, s, ha⟩ := step_else metered h hd
      obtain ⟨g, gs, hg, -⟩ := (s.was ▸ hm.frames).cons_left
      exact (ha hg).extends_ (List.prefix_append _ _)
    | end_ =>
      obtain ⟨f, fs, s, ha⟩ := step_end metered h hd
      obtain ⟨g, gs, hg, -⟩ := (s.was ▸ hm.frames).cons_left
      exact (ha hg).extends_
    | _ => exact absurd rfl hi

theorem Matched.extends_steps {is : List Instr} (hm : Matched metered ds a) (h : Steps C a is b) (hd : b.instrs <+: ds) :
    Extends (a.plan metered ds) (b.plan metered ds) := by
  induction h with
  | nil => exact .refl _
  | cons _ h1 h2 ih =>
    obtain ⟨od, hs⟩ := step_of h1
    have hd' := h2.instrs_prefix.trans hd
    exact (hm.extends_ h1 hd').trans (ih (hm.step hs hd') hd)

/-! ## Complete code -/

/-- the same frames, up to notes of branches -/
structure Balanced (metered : Bool) (ds : List DInstr) (a b : AState) : Prop where
  ctrl : b.v.ctrl = a.v.ctrl
  marks : MarkRels (a.plan metered ds).ctrl (b.plan metered ds).ctrl

theorem Balanced.trans {c : AState} (h : Balanced metered ds a b) (h' : Balanced metered ds b c) :
    Balanced metered ds a c := ⟨h'.ctrl.trans h.ctrl, h.marks.trans h'.marks⟩

/-- one construct deeper -/
structure Inside (metered : Bool) (ds : List DInstr) (a b : AState) (g : PFrame) : Prop where
  ctrl : ∃ f, b.v.ctrl = f :: a.v.ctrl
  plan : ∃ gs, (b.plan metered ds).ctrl = g :: gs ∧ MarkRels (a.plan metered ds).ctrl gs

theorem Inside.balanced {a1 : AState} {g : PFrame} (h : Inside metered ds a a1 g) (h' : Balanced metered ds a1 b) :
    ∃ g', MarkRel g g' ∧ Inside metered ds a b g' := by
  obtain ⟨f, hf⟩ := h.ctrl
  obtain ⟨gs, hg, hm⟩ := h.plan
  have hm' := h'.marks
  rw [hg] at hm'
  cases hb : (b.plan metered ds).ctrl with
  | nil => simpa [hb] using hm'.1
  | cons g' gs' =>
    rw [hb] at hm'
    exact ⟨g', hm'.head, ⟨f, h'.ctrl.trans hf⟩, ⟨gs', hb, hm.trans hm'.tail⟩⟩

theorem Inside.end_ {g : PFrame} (h : Inside metered ds a b g) {b' : AState} (hs : b.step C .end_ = .ok b')
    (hd : b'.instrs <+: ds) : Balanced metered ds a b' ∧ ∃ gs, EndAdds (b.plan metered ds) (b'.plan metered ds) g gs := by
  obtain ⟨f, hf⟩ := h.ctrl
  obtain ⟨gs, hg, hm⟩ := h.plan
  obtain ⟨f', fs', s, ha⟩ := step_end metered hs hd
  have e := ha hg
  have : fs' = a.v.ctrl := by
    have := s.was.symm.trans hf
    simp only [List.cons.injEq] at this
    exact this.2
  exact ⟨⟨s.ctrl.trans this, e.ctrl.symm ▸ hm⟩, gs, e⟩

theorem Inside.else_ {g : PFrame} (h : Inside metered ds a b g) {b' : AState} (hs : b.step C .else_ = .ok b')
    (hd : b'.instrs <+: ds) : Inside metered ds a b' { g with opcode := .else_, isTarget := true } := by
  obtain ⟨f, hf⟩ := h.ctrl
  obtain ⟨gs, hg, hm⟩ := h.plan
  obtain ⟨f', fs', s, ha⟩ := step_else metered hs hd
  have : fs' = a.v.ctrl := by
    have := s.was.symm.trans hf
    simp only [List.cons.injEq] at this
    exact this.2
  exact ⟨⟨_, s.ctrl.trans (by rw [this])⟩, ⟨gs, (ha hg).ctrl, hm⟩⟩

theorem inside_block {bt : BlockType} (h : a.step C (.block bt) = .ok a') (hd : a'.instrs <+: ds) :
    Inside metered ds a a'
      { opcode := .block, id := a.instrs.length, tryDepth := (a.plan metered ds).tryDepth } := by
  obtain ⟨f, o, ha⟩ := step_block metered h hd
  exact ⟨⟨f, o.ctrl⟩, ⟨_, ha.ctrl, .refl _⟩⟩

theorem inside_loop (metered : Bool) {bt : BlockType} (h : a.step C (.loop bt) = .ok a') (hd : a'.instrs <+: ds) :
    Inside metered ds a a'
      { opcode := .loop, id := a.instrs.length, header := (a.plan metered ds).size,
        tryDepth := (a.plan metered ds).tryDepth } := by
  obtain ⟨f, o, ha⟩ := step_loop metered h hd
  exact ⟨⟨f, o.ctrl⟩, ⟨_, ha.ctrl, .refl _⟩⟩

theorem inside_if {bt : BlockType} (h : a.step C (.if_ bt) = .ok a') (hd : a'.instrs <+: ds) :
    Inside metered ds a a' { opcode := .if_, id := a.instrs.length, tryDepth := (a.plan metered ds).tryDepth } := by
  obtain ⟨w, f, hp, o, ha⟩ := step_if metered h hd
  exact ⟨⟨f, o.ctrl.trans (by rw [hp.ctrl])⟩, ⟨_, ha.ctrl, .refl _⟩⟩

theorem inside_tryTable {bt : BlockType} {cs : List CatchClause} (h : a.step C (.tryTable bt cs) = .ok a')
    (hd : a'.instrs <+: ds) :
    Inside metered ds a a'
      { opcode := .tryTable, id := a.instrs.length, tryDepth := (a.plan metered ds).tryDepth } := by
  obtain ⟨f, es, o, -, ha⟩ := step_tryTable metered h hd
  exact ⟨⟨f, o.ctrl⟩, ⟨_, ha.ctrl, markRels_markAll _ _⟩⟩

theorem balanced_plain (metered : Bool) (h : a.step C i = .ok a') (hi : i.isStructural = false) (hd : a'.instrs <+: ds) :
    Balanced metered ds a a' := by
  obtain ⟨od, hv, hp⟩ := step_plain metered h hi hd
  refine ⟨(hv.plain (hv.isPlain hi)).1, ?_⟩
  cases od with
  | none => exact (show a'.plan metered ds = a.plan metered ds from hp) ▸ .refl _
  | some d =>
    obtain ⟨x, -, -, ha⟩ := hp
    exact ha.ctrl ▸ markRels_marks _ _

theorem Steps.cons_inv {is : List Instr} (h : Steps C a (i :: is) b) : ∃ a', a.step C i = .ok a' ∧ Steps C a' is b := by
  cases h with
  | cons _ h hs => exact ⟨_, h, hs⟩

/-- the rest of a construct: its body, END, and what follows -/
theorem Inside.rest {a1 : AState} {g : PFrame} {body k : List Instr} (h : Inside metered ds a a1 g)
    (hbody : ∀ b1, Steps C a1 body b1 → b1.instrs <+: ds → Balanced metered ds a1 b1)
    (hk : ∀ b2, Steps C b2 k b → Balanced metered ds b2 b) (hs : Steps C a1 (body ++ .end_ :: k) b) (hd : b.instrs <+: ds) :
    Balanced metered ds a b := by
  obtain ⟨b1, h1, h2⟩ := hs.split
  obtain ⟨b2, h3, h4⟩ := h2.cons_inv
  have hd2 := h4.instrs_prefix.trans hd
  have hd1 := h2.instrs_prefix.trans hd
  obtain ⟨g', -, hin⟩ := h.balanced (hbody b1 h1 hd1)
  exact (hin.end_ h3 hd2).1.trans (hk b2 h4)

/-- **Complete code is balanced.** -/
theorem steps_flat (metered : Bool) (c : Code) (h : Steps C a c.flat b) (hd : b.instrs <+: ds) : Balanced metered ds a b := by
  induction c generalizing a b with
  | nil =>
    cases h
    exact ⟨rfl, .refl _⟩
  | op i hi k ih =>
    obtain ⟨a1, h1, h2⟩ := h.cons_inv
    exact (balanced_plain metered h1 hi (h2.instrs_prefix.trans hd)).trans (ih h2 hd)
  | block bt body k ihb ihk =>
    obtain ⟨a1, h1, h2⟩ := h.cons_inv
    exact (inside_block h1 (h2.instrs_prefix.trans hd)).rest (fun _ => ihb) (fun _ h => ihk h hd) h2 hd
  | loop bt body k ihb ihk =>
    obtain ⟨a1, h1, h2⟩ := h.cons_inv
    exact (inside_loop metered h1 (h2.instrs_prefix.trans hd)).rest (fun _ => ihb) (fun _ h => ihk h hd) h2 hd
  | tryTable bt cs body k ihb ihk =>
    obtain ⟨a1, h1, h2⟩ := h.cons_inv
    exact (inside_tryTable h1 (h2.instrs_prefix.trans hd)).rest (fun _ => ihb) (fun _ h => ihk h hd) h2 hd
  | ifThen bt thn k iht ihk =>
    obtain ⟨a1, h1, h2⟩ := h.cons_inv
    exact (inside_if h1 (h2.instrs_prefix.trans hd)).rest (fun _ => iht) (fun _ h => ihk h hd) h2 hd
  | ifElse bt thn els k iht ihe ihk =>
    obtain ⟨a1, h1, h2⟩ := h.cons_inv
    obtain ⟨b1, h3, h4⟩ := h2.split
    obtain ⟨b2, h5, h6⟩ := h4.cons_inv
    have hd1 := h4.instrs_prefix.trans hd
    have hd2 := h6.instrs_prefix.trans hd
    obtain ⟨g, -, hin⟩ := (inside_if h1 (h2.instrs_prefix.trans hd)).balanced (iht h3 hd1)
    exact (hin.else_ h5 hd2).rest (fun _ => ihe) (fun _ h => ihk h hd) h6 hd

/-! ## Loops around try_tables -/

/-- the scan for `loop_has_try` before instruction `k`: open constructs and marked loops -/
def scanAt (ds : List DInstr) : Nat → List Nat × List Nat
  | 0 => ([], [])
  | k + 1 =>
    match ds[k]? with
    | none => scanAt ds k
    | some d => scanTry ds (scanAt ds k) k d.op

theorem scanAt_succ {k : Nat} {d : DInstr} (h : ds[k]? = some d) : scanAt ds (k + 1) = scanTry ds (scanAt ds k) k d.op := by
  simp [scanAt, h]

theorem foldl_scanTry (ds : List DInstr) (k : Nat) :
    (ds.zipIdx.take k).foldl (fun st d => scanTry ds st d.2 d.1.op) ([], []) = scanAt ds k := by
  induction k with
  | zero => rfl
  | succ k ih =>
    rw [List.take_add_one, List.foldl_append, ih, List.getElem?_zipIdx]
    cases hk : ds[k]? with
    | none => simp [scanAt, hk]
    | some d => simp [scanAt, hk]

theorem loopHasTry_eq (ds : List DInstr) : loopHasTry ds = (scanAt ds ds.length).2 := by
  rw [← foldl_scanTry, List.take_of_length_le (by simp), loopHasTry]

theorem subset_markLoops (isLoop : Nat → Bool) (marked ks : List Nat) : marked ⊆ markLoops isLoop marked ks := by
  induction ks generalizing marked with
  | nil => exact List.Subset.refl _
  | cons k ks ih =>
    simp only [markLoops]
    split
    · exact ih marked
    · split
      · exact List.Subset.refl _
      · exact List.Subset.trans (List.subset_cons_self k marked) (ih (k :: marked))

theorem markLoops_subset (isLoop : Nat → Bool) (marked ks : List Nat) :
    ∀ j ∈ markLoops isLoop marked ks, j ∈ marked ∨ j ∈ ks := by
  induction ks generalizing marked with
  | nil => exact fun j hj => .inl hj
  | cons k ks ih =>
    intro j hj
    simp only [markLoops] at hj
    split at hj
    · exact (ih marked j hj).imp id (by simp +contextual)
    · split at hj
      · exact .inl hj
      · rcases ih (k :: marked) j hj with h | h
        · rcases List.mem_cons.mp h with rfl | h
          · exact .inr (by simp)
          · exact .inl h
        · exact .inr (by simp [h])

/-- marking outwards up to a marked loop marks all, if the loops around a marked one are -/
theorem markLoops_marks {isLoop : Nat → Bool} {marked ks : List Nat} (hn : ks.Nodup)
    (hc : ks.Pairwise fun k j => k ∈ marked → isLoop j = true → j ∈ marked) :
    ∀ j ∈ ks, isLoop j = true → j ∈ markLoops isLoop marked ks := by
  induction ks generalizing marked with
  | nil => simp
  | cons k ks ih =>
    obtain ⟨hc1, hc2⟩ := List.pairwise_cons.mp hc
    obtain ⟨hn1, hn2⟩ := List.nodup_cons.mp hn
    intro j hj hl
    simp only [markLoops]
    split
    · rename_i hk
      rcases List.mem_cons.mp hj with rfl | hj
      · simp [hl] at hk
      · exact ih hn2 hc2 j hj hl
    · split
      · rename_i hk
        rcases List.mem_cons.mp hj with rfl | hj
        · exact hk
        · exact hc1 j hj hk hl
      · rcases List.mem_cons.mp hj with rfl | hj
        · exact subset_markLoops _ _ _ (by simp)
        · refine ih hn2 (hc2.imp_of_mem fun {x y} hx hy h hxm hyl => ?_) j hj hl
          rcases List.mem_cons.mp hxm with rfl | hxm
          · exact absurd hx hn1
          · exact List.mem_cons_of_mem _ (h hxm hyl)

def isLoopAt (ds : List DInstr) (k : Nat) : Bool := ((ds[k]?).map fun d => d.op.isLoop).getD false

/-- what the scan sees of an open construct: its name, and whether it is a loop or a `try_table` -/
def PFrame.key (g : PFrame) : Nat × Bool × Bool := (g.id, decide (g.opcode = .loop), decide (g.opcode = .tryTable))

/-- the scan beside the plan: loops around an open `try_table` are marked -/
structure Scanned (ds : List DInstr) (ks : List (Nat × Bool × Bool)) (k : Nat) : Prop where
  ids : (scanAt ds k).1 = ks.map Prod.fst
  below : ∀ j ∈ (scanAt ds k).2, j < k
  kinds : ∀ x ∈ ks, isLoopAt ds x.1 = x.2.1
  closed : ks.Pairwise fun x y => x.1 ∈ (scanAt ds k).2 → y.2.1 = true → y.1 ∈ (scanAt ds k).2
  tries : ks.Pairwise fun x y => x.2.2 = true → y.2.1 = true → y.1 ∈ (scanAt ds k).2

theorem scanAt_mono (ds : List DInstr) {j k : Nat} (h : j ≤ k) : (scanAt ds j).2 ⊆ (scanAt ds k).2 := by
  induction h with
  | refl => exact List.Subset.refl _
  | @step k h ih =>
    refine List.Subset.trans ih ?_
    simp only [scanAt]
    cases ds[k]? with
    | none => exact List.Subset.refl _
    | some d =>
      simp only [scanTry]
      split <;> first | exact List.Subset.refl _ | exact subset_markLoops _ _ _

/-- a construct other than `try_table` is opened -/
theorem Scanned.push {ks : List (Nat × Bool × Bool)} {k : Nat} {l : Bool} (h : Scanned ds ks k)
    (hl : isLoopAt ds k = l) (hs : scanAt ds (k + 1) = (k :: (scanAt ds k).1, (scanAt ds k).2)) :
    Scanned ds ((k, l, false) :: ks) (k + 1) := by
  refine ⟨by simp [hs, h.ids], fun j hj => ?_, fun x hx => ?_, .cons (fun x hx hk => ?_) ?_, .cons (by simp) ?_⟩
  · rw [hs] at hj
    have := h.below j hj
    omega
  · rcases List.mem_cons.mp hx with rfl | hx
    · exact hl
    · exact h.kinds x hx
  · rw [hs] at hk
    exact absurd (h.below k hk) (Nat.lt_irrefl k)
  · rw [hs]
    exact h.closed
  · rw [hs]
    exact h.tries

/-- a `try_table` is opened -/
theorem Scanned.pushTry {ks : List (Nat × Bool × Bool)} {k : Nat} (h : Scanned ds ks k) (hn : (ks.map Prod.fst).Nodup)
    (hids : ∀ x ∈ ks, x.1 < k) (hl : isLoopAt ds k = false)
    (hs : scanAt ds (k + 1) = (k :: (scanAt ds k).1, markLoops (isLoopAt ds) (scanAt ds k).2 (scanAt ds k).1)) :
    Scanned ds ((k, false, true) :: ks) (k + 1) := by
  have hmarks : ∀ y ∈ ks, y.2.1 = true → y.1 ∈ (scanAt ds (k + 1)).2 := by
    intro y hy hyl
    rw [hs, h.ids]
    refine markLoops_marks hn ?_ y.1 (List.mem_map_of_mem hy) ((h.kinds y hy).trans hyl)
    refine List.pairwise_map.mpr (h.closed.imp_of_mem fun {x y} _ hy hxy hx hl => hxy hx ?_)
    rw [← h.kinds y hy]
    exact hl
  refine ⟨by simp [hs, h.ids], fun j hj => ?_, fun x hx => ?_, .cons (fun y hy _ => hmarks y hy) ?_,
    .cons (fun y hy _ => hmarks y hy) ?_⟩
  · rw [hs] at hj
    rcases markLoops_subset _ _ _ j hj with hj | hj
    · have := h.below j hj
      omega
    · rw [h.ids] at hj
      obtain ⟨x, hx, rfl⟩ := List.mem_map.mp hj
      have := hids x hx
      omega
  · rcases List.mem_cons.mp hx with rfl | hx
    · exact hl
    · exact h.kinds x hx
  · exact h.closed.imp_of_mem fun _ hy _ _ => hmarks _ hy
  · exact h.tries.imp_of_mem fun _ hy _ _ => hmarks _ hy

/-- nothing is opened -/
theorem Scanned.keep {ks : List (Nat × Bool × Bool)} {k : Nat} (h : Scanned ds ks k)
    (hs : scanAt ds (k + 1) = scanAt ds k) : Scanned ds ks (k + 1) := by
  refine ⟨by rw [hs]; exact h.ids, fun j hj => ?_, h.kinds, by rw [hs]; exact h.closed, by rw [hs]; exact h.tries⟩
  rw [hs] at hj
  have := h.below j hj
  omega

/-- the innermost construct is closed -/
theorem Scanned.pop {x : Nat × Bool × Bool} {ks : List (Nat × Bool × Bool)} {k : Nat} (h : Scanned ds (x :: ks) k)
    (hs : scanAt ds (k + 1) = ((scanAt ds k).1.tail, (scanAt ds k).2)) : Scanned ds ks (k + 1) := by
  refine ⟨by simp [hs, h.ids], fun j hj => ?_, fun y hy => h.kinds y (List.mem_cons_of_mem _ hy), ?_, ?_⟩
  · rw [hs] at hj
    have := h.below j hj
    omega
  · rw [hs]
    exact (List.pairwise_cons.mp h.closed).2
  · rw [hs]
    exact (List.pairwise_cons.mp h.tries).2

theorem MarkRels.keys {gs gs' : List PFrame} (h : MarkRels gs gs') : gs'.map PFrame.key = gs.map PFrame.key := by
  apply List.ext_getElem?
  intro k
  simp only [List.getElem?_map]
  cases hg : gs[k]? with
  | none =>
    have : gs'[k]? = none := by
      rw [List.getElem?_eq_none_iff] at hg ⊢
      have := h.1
      omega
    simp [this]
  | some g =>
    obtain ⟨g', hg', hm⟩ := h.get hg
    simp [hg', PFrame.key, hm.id, hm.opcode]

/-- the scan along the analysis -/
def AState.Scanned (metered : Bool) (ds : List DInstr) (a : AState) : Prop :=
  Wah.Scanned ds ((a.plan metered ds).ctrl.map PFrame.key) a.instrs.length

theorem Matched.scanned_step (hm : Matched metered ds a) (hsc : a.Scanned metered ds) (h : a.step C i = .ok a')
    (hd : a'.instrs <+: ds) : a'.Scanned metered ds := by
  obtain ⟨od, hs⟩ := step_of h
  unfold AState.Scanned at hsc ⊢
  cases od with
  | none =>
    have hi : a'.instrs = a.instrs := hs.instrs
    rw [hs.plan_none, hi]
    exact hsc
  | some d =>
    obtain ⟨x, next, hx, hi, hget, -, -, -⟩ := hs.plan_some metered hd
    have hscan := scanAt_succ hget
    have hloop : isLoopAt ds a.instrs.length = d.isLoop := by simp [isLoopAt, hget, hx]
    rw [hi, List.length_append, List.length_singleton]
    rw [hx] at hscan
    cases hv : hs.vstep with
    | block o =>
      obtain ⟨f, -, ha⟩ := step_block metered h hd
      rw [ha.ctrl]
      exact hsc.push hloop hscan
    | loop o =>
      obtain ⟨f, -, ha⟩ := step_loop metered h hd
      rw [ha.ctrl]
      exact hsc.push hloop hscan
    | if_ hp o =>
      obtain ⟨w, f, -, -, ha⟩ := step_if metered h hd
      rw [ha.ctrl]
      exact hsc.push hloop hscan
    | tryTable o hc =>
      obtain ⟨f, es, -, -, ha⟩ := step_tryTable metered h hd
      rw [ha.ctrl, List.map_cons, (markRels_markAll _ _).keys]
      refine hsc.pushTry ?_ ?_ hloop hscan
      · simpa [PFrame.key, Function.comp_def] using hm.wf.nodup
      · simpa [PFrame.key] using hm.wf.ids
    | else_ s =>
      obtain ⟨f, fs, s, ha⟩ := step_else metered h hd
      obtain ⟨g, gs, hg, hop, -⟩ := (s.was ▸ hm.frames).cons_left
      have hif : g.opcode = .if_ := by simp [hop, CtrlFrame.planOp, s.opcode, s.first]
      rw [(ha hg).ctrl]
      rw [hg] at hsc
      refine Scanned.keep ?_ hscan
      simpa [PFrame.key, hif] using hsc
    | end_ s =>
      obtain ⟨f, fs, s, ha⟩ := step_end metered h hd
      obtain ⟨g, gs, hg, -⟩ := (s.was ▸ hm.frames).cons_left
      rw [(ha hg).ctrl]
      rw [hg] at hsc
      exact hsc.pop hscan
    | _ =>
      have hb := balanced_plain metered h rfl hd
      rw [hb.marks.keys]
      exact hsc.keep hscan

theorem Matched.scanned_steps {is : List Instr} (hm : Matched metered ds a) (hsc : a.Scanned metered ds)
    (h : Steps C a is b) (hd : b.instrs <+: ds) : b.Scanned metered ds := by
  induction h with
  | nil => exact hsc
  | cons _ h1 h2 ih =>
    obtain ⟨od, hs⟩ := step_of h1
    have hd' := h2.instrs_prefix.trans hd
    exact ih (hm.step hs hd') (hm.scanned_step hsc h1 hd') hd

/-- a loop around an open `try_table` drops handlers -/
theorem Scanned.hasTry {ks : List (Nat × Bool × Bool)} {k : Nat} (h : Scanned ds ks k) (hk : k ≤ ds.length) {j l : Nat}
    (hjl : j < l) {x y : Nat × Bool × Bool} (hx : ks[j]? = some x) (hy : ks[l]? = some y) (ht : x.2.2 = true)
    (hl : y.2.1 = true) : y.1 ∈ loopHasTry ds := by
  rw [loopHasTry_eq]
  apply scanAt_mono ds hk
  obtain ⟨hj, rfl⟩ := List.getElem?_eq_some_iff.mp hx
  obtain ⟨hl', rfl⟩ := List.getElem?_eq_some_iff.mp hy
  exact List.pairwise_iff_getElem.mp h.tries j l hj hl' hjl ht hl

end Wah
