/-
Every iteration of the lowering pass emits the records of the plan.

`Base` holds between iterations, `Mid` while a record is being emitted. `lowerInstr_refines` goes through the shapes of
instructions; names that the current instruction opens are fresh by `Plan.WF`.
-/
import Wah.LowerCorrect

namespace Wah

variable {off : Nat → Nat} {s : LState} {p : Plan} {ii : Nat}

/-- offsets of records are sizes of the code before them -/
def OffOk (off : Nat → Nat) (p : Plan) : Prop := ∀ k ≤ p.size, off k = codeSize (layout (p.records.take k))

theorem OffOk.of_start {q : Plan} (h : OffOk off q) (hpq : p.records <+: q.records) : OffOk off p := by
  intro k hk
  have hle : p.size ≤ q.size := hpq.length_le
  rw [h k (Nat.le_trans hk hle)]
  obtain ⟨t, ht⟩ := hpq
  rw [← ht, List.take_append_of_le_length hk]

theorem OffOk.last (h : OffOk off p) : off p.size = codeSize (layout p.records) := by
  simpa [Plan.size] using h p.size (Nat.le_refl _)

/-! ## Fresh names -/

theorem Plan.WF.not_known_fresh (h : p.WF ii) : ¬p.Known (.endOf ii) ∧ ¬p.Known (.falseOf ii) := by
  have hends : ∀ t r, (t, r) ∈ p.ends → t.Below ii := fun t r hr => (h.ends _ hr).1
  constructor
  · rintro (⟨g, hg, hid, -⟩ | ⟨r, hr, -⟩)
    · have := h.ids g hg
      omega
    · exact Nat.lt_irrefl _ (hends _ _ hr)
  · rintro (⟨g, hg, hid, -⟩ | ⟨r, hr, -⟩)
    · have := h.ids g hg
      omega
    · exact Nat.lt_irrefl _ (hends _ _ hr)

/-- a name that is not known does not occur -/
theorem Plan.WF.positions_eq_nil (h : p.WF ii) {t : Target} (ht : ¬p.Known t) : positions t (layout p.records) = [] :=
  positionsFrom_eq_nil (fun i hi hm => ht (h.known i hi t hm)) 0

theorem lookup_eq_none {ends : List (Target × Nat)} {t : Target} (h : ∀ e ∈ ends, e.1 ≠ t) : ends.lookup t = none := by
  induction ends with
  | nil => rfl
  | cons e es ih =>
    obtain ⟨t', r⟩ := e
    have hne : t ≠ t' := fun he => h (t', r) (by simp) he.symm
    have hb : (t == t') = false := by simpa using hne
    simpa [List.lookup_cons, hb] using ih fun e he => h e (by simp [he])

theorem lookup_append_of_none {ends : List (Target × Nat)} {t : Target} (h : ends.lookup t = none)
    (es : List (Target × Nat)) : (ends ++ es).lookup t = es.lookup t := by
  rw [List.lookup_append, h, Option.none_or]

theorem Plan.WF.lookup_fresh (h : p.WF ii) : p.ends.lookup (.endOf ii) = none ∧ p.ends.lookup (.falseOf ii) = none := by
  constructor
  · refine lookup_eq_none fun e he heq => ?_
    have := (h.ends e he).1
    rw [heq] at this
    exact Nat.lt_irrefl _ this
  · refine lookup_eq_none fun e he heq => ?_
    have := (h.ends e he).1
    rw [heq] at this
    exact Nat.lt_irrefl _ this

/-- resolving a name changes its value only -/
theorem valuation_snoc {ends : List (Target × Nat)} {t : Target} (h : ends.lookup t = none) (r : Nat)
    (hrec : ∀ k, t ≠ .record k) (hfunc : t ≠ .func) :
    valuation off (ends ++ [(t, r)]) = setName (valuation off ends) t (off r) := by
  funext u
  by_cases hu : u = t
  · subst hu
    have : ((ends ++ [(u, r)]).lookup u) = some r := by rw [lookup_append_of_none h]; simp
    cases u with
    | record k => exact absurd rfl (hrec k)
    | func => exact absurd rfl hfunc
    | endOf id => simp [valuation, setName, this]
    | falseOf id => simp [valuation, setName, this]
  · have hl : (ends ++ [(t, r)]).lookup u = ends.lookup u := by
      have hb : (u == t) = false := by simpa using hu
      rw [List.lookup_append]
      simp [List.lookup_cons, hb]
    cases u <;> simp [valuation, setName, hu, hl]

/-! ## A record in progress -/

/-- the head of the record and the instructions `c` of its content have been emitted; targets `ts` are pending -/
structure Mid (off : Nat → Nat) (s : LState) (p : Plan) (pre : Option Nat) (c : List (LInstr Target))
    (ts : List Target) : Prop where
  code : CodeRel s p.ctrl (valuation off p.ends) (layout p.records ++ headOf p pre ++ c) ts
  meter : MeterRel off s p pre.toList.length
  filling : p.emitMeter = true → s.needNewChunk = false
  tryDepth : s.tryDepth = p.tryDepth

@[simp] theorem startChunk_tryDepth (s : LState) : s.startChunk.tryDepth = s.tryDepth := by
  unfold LState.startChunk; split <;> rfl

@[simp] theorem emitPre_tryDepth (s : LState) (pre : Option Nat) : (emitPre s pre).tryDepth = s.tryDepth := by
  cases pre <;> rfl

theorem startChunk_emitMeter (s : LState) : s.startChunk.emitMeter = s.emitMeter := by
  unfold LState.startChunk; split <;> rfl

theorem Base.begin (h : Base off s p) (pre : Option Nat) (hpre : pre.isSome = true → s.opened = false) :
    Mid off (emitPre s pre).startChunk p pre [] [] where
  code := by simpa using codeRel_begin h.code h.meter hpre
  meter := meterRel_begin h.code h.meter hpre
  filling := by
    intro he
    refine startChunk_need _ ?_
    rw [(meterKeep_emitPre s pre).emit, h.meter.emit, he]
  tryDepth := by simpa using h.tryDepth

namespace Mid

variable {pre : Option Nat} {c : List (LInstr Target)} {ts : List Target}

theorem length_buf (h : Mid off s p pre [] []) : s.buf.length = (layout p.records ++ headOf p pre).length := by
  simpa using h.code.length_buf

theorem bufSize (h : Mid off s p pre c ts) :
    s.bufSize = codeSize (layout p.records ++ headOf p pre) + codeSize c := by
  rw [h.code.bufSize, codeSize_append]

theorem emit (h : Mid off s p pre c ts) (x : LInstr Nat) (y : LInstr Target) (hy : y.targets = ts)
    (hx : x.strip = y.map (valuation off p.ends)) : Mid off (s.emit x) p pre (c ++ [y]) [] := by
  refine ⟨?_, h.meter.keep (.emit_instr s x) rfl rfl rfl rfl, h.filling, h.tryDepth⟩
  have := h.code.emit x y hy hx
  simpa [List.append_assoc] using this

/-- a POLL inside the record -/
theorem emitPoll (h : Mid off s p pre c []) (d : DInstr) :
    Mid off (if d.poll then s.emitPoll d.refMap else s) p pre (c ++ ((Plan.pollOf d).map LInstr.poll).toList) [] := by
  cases hp : d.poll with
  | false => simpa [Plan.pollOf, hp] using h
  | true =>
    have := h.emit (.poll (d.refMap.getD uint32Max)) (.poll (d.refMap.getD uint32Max)) rfl rfl
    simpa [Plan.pollOf, hp, LState.emitPoll] using this

/-- frames change together -/
theorem withCode {t : LState} {q : Plan} {c' : List (LInstr Target)} {ts' : List Target} (h : Mid off s p pre c ts)
    (hk : MeterKeep s t) (hr : q.records = p.records) (he : q.emitMeter = p.emitMeter) (hc : q.cost = p.cost)
    (hn : q.needNewChunk = p.needNewChunk) (ht : t.tryDepth = q.tryDepth)
    (hcode : CodeRel t q.ctrl (valuation off q.ends) (layout p.records ++ headOf p pre ++ c') ts') :
    Mid off t q pre c' ts' := by
  refine ⟨?_, h.meter.keep hk hr he hc hn, fun e => hk.need ▸ h.filling (he ▸ e), ht⟩
  rw [hr]
  simpa [headOf, he, hn] using hcode

/-- the record is complete -/
theorem record (h : Mid off s p pre c []) {q : Plan} (poll : Option Nat) (main : Option (LInstr Target)) {map : Option Nat}
    {start : Nat} (hc : c = (newRecord p pre poll main map).content)
    (hstart : start = (layout p.records ++ headOf p pre).length) (hq : q = p.add pre poll main map)
    (hoff : OffOk off q) : Base off (s.recordEnd start map) q :=
  Base.record (hc ▸ h.code) h.meter h.filling hstart h.tryDepth hq hoff.last

end Mid

theorem content_newRecord (p : Plan) (pre poll : Option Nat) (main : Option (LInstr Target)) (map : Option Nat) :
    (newRecord p pre poll main map).content = (poll.map LInstr.poll).toList ++ main.toList := rfl

/-! ## Opening constructs -/

/-- a frame without branches, named by the current instruction -/
theorem frameRel_fresh (h : p.WF ii) {c : List (LInstr Target)} {op : LFrameOp} {n hd td : Nat}
    (hc : ∀ i ∈ c, ∀ t ∈ i.targets, p.Known t) (hl : op = .loop → n = off hd) (hif : op ≠ .if_) :
    FrameRel (valuation off p.ends) (layout p.records ++ c) []
      { opcode := op, continuation := n, tryDepth := td } { opcode := op, id := ii, header := hd, tryDepth := td } := by
  obtain ⟨h1, -⟩ := h.not_known_fresh
  have hpos : positions (.endOf ii) (layout p.records ++ c) = [] := by
    rw [positions_append, h.positions_eq_nil h1,
      positionsFrom_eq_nil (fun i hi hm => h1 (hc i hi _ hm))]
    rfl
  exact ⟨rfl, rfl, rfl, by simp, by simp [hpos, occursFrom], hl, fun e => absurd e hif,
    by simp [valuation, h.lookup_fresh.1], fun e => absurd e hif⟩

theorem targets_headOf (p : Plan) (pre : Option Nat) : ∀ i ∈ headOf p pre, i.targets = [] := by
  intro i hi
  simp only [headOf, List.mem_append, Option.mem_toList, Option.map_eq_some_iff] at hi
  rcases hi with ⟨m, -, rfl⟩ | hi
  · rfl
  · cases hn : p.emitMeter && p.needNewChunk with
    | false => simp [hn] at hi
    | true =>
      simp only [hn, if_true, List.mem_singleton] at hi
      rw [hi]; rfl

theorem MeterKeep.of_eq {s s' : LState} (hb : s'.buf = s.buf) (he : s'.emitMeter = s.emitMeter)
    (hn : s'.needNewChunk = s.needNewChunk) (hc : s'.cost = s.cost) (hch : s'.chunk = s.chunk)
    (hchs : s'.chunks = s.chunks) (hr : s'.records = s.records) : MeterKeep s s' :=
  ⟨he, hn, hc, hch, hchs, hr, fun _ _ _ h => hb ▸ h⟩

/-- a construct opened in the middle of its record -/
theorem Mid.push {pre : Option Nat} {c : List (LInstr Target)} (h : Mid off s p pre c []) (hw : p.WF ii)
    {f : LFrame} {g : PFrame} (hid : g.id = ii)
    (hfg : FrameRel (valuation off p.ends) (layout p.records ++ (headOf p pre ++ c)) [] f g) :
    Mid off { s with ctrl := f :: s.ctrl } (p.push g) pre c [] := by
  refine h.withCode (MeterKeep.of_eq rfl rfl rfl rfl rfl rfl rfl) rfl rfl rfl rfl h.tryDepth ?_
  refine h.code.push (fun g' hg' he => ?_) ?_
  · have := hw.ids g' hg'
    omega
  · simpa [List.append_assoc] using hfg

theorem pollOf_isSome (d : DInstr) : (Plan.pollOf d).isSome = d.poll := by
  cases h : d.poll <;> simp [Plan.pollOf, h]

theorem emitPre_pollOf (s : LState) (d : DInstr) :
    emitPre s (Plan.pollOf d) = if d.poll then s.emitPoll d.refMap else s := by
  cases h : d.poll <;> simp [Plan.pollOf, h, emitPre, LState.emitPoll]

theorem add_push (p : Plan) (g : PFrame) (pre poll : Option Nat) (main : Option (LInstr Target)) (map : Option Nat) :
    (p.add pre poll main map).push g = (p.push g).add pre poll main map := by
  have h := Plan.add_with p (g :: p.ctrl) p.ends p.tryDepth pre poll main map
  simpa [Plan.push] using h.symm

theorem Base.block (h : Base off s p) (hw : p.WF ii) {d : DInstr} (hpre : d.poll = true → s.opened = false)
    (hasTry : Bool) (hoff : OffOk off (p.planBlock ii d)) : Base off (s.lowerBlock false hasTry d) (p.planBlock ii d) := by
  have hm := h.begin (Plan.pollOf d) (by simpa [pollOf_isSome] using hpre)
  set s1 := (emitPre s (Plan.pollOf d)).startChunk with hs1
  have hlow : s.lowerBlock false hasTry d = (s1.pushFrame .block).recordEnd s1.buf.length d.refMap := by
    rw [hs1, emitPre_pollOf]
    cases hpoll : d.poll <;> simp [LState.lowerBlock, LState.pushFrame, hpoll]
  have hp := hm.push hw (g := { opcode := .block, id := ii, tryDepth := p.tryDepth })
    (f := { opcode := .block, continuation := s1.bufSize, tryDepth := s1.tryDepth }) rfl
    (hm.tryDepth ▸ frameRel_fresh hw (fun i hi t ht => by
      rw [List.append_nil] at hi
      simp [targets_headOf p _ i hi] at ht) (by simp) (by simp))
  unfold Plan.planBlock at hoff ⊢
  rw [add_push] at hoff ⊢
  rw [hlow]
  exact hp.record _ _ rfl hm.length_buf rfl hoff

/-! ## Loops -/

theorem endChunk_need_emitMeter (h : Base off s p) : s.endChunk.needNewChunk = s.endChunk.emitMeter := by
  cases he : s.emitMeter with
  | false =>
    have hn := h.meter.off_need (h.meter.emit ▸ he)
    simp [LState.endChunk, he, hn]
  | true =>
    cases hn : s.needNewChunk with
    | true => simp [LState.endChunk, he]; split <;> simp [he, hn]
    | false => simp [LState.endChunk, he, hn]; split <;> simp

theorem LState.lowerLoop_eq (h : Base off s p) (hasTry : Bool) {d : DInstr} (hpoll : d.poll = true) :
    s.lowerBlock true hasTry d =
      (let s1 := (emitPre s.endChunk (Plan.pollOf d)).startChunk
       let f : LFrame := { opcode := .loop, continuation := s.endChunk.bufSize, tryDepth := s1.tryDepth }
       let s2 : LState := { s1 with ctrl := f :: s1.ctrl }
       (if hasTry then s2.emit (.trimHandlers s1.tryDepth) else s2).recordEnd s1.buf.length d.refMap) := by
  have hn : ({ s.endChunk.emitPoll d.refMap with needNewChunk := (s.endChunk.emitPoll d.refMap).emitMeter } : LState) =
      s.endChunk.emitPoll d.refMap := by
    have := endChunk_need_emitMeter h
    simp only [LState.emitPoll, LState.emit] at this ⊢
    rw [← this]
  rw [emitPre_pollOf]
  simp only [LState.lowerBlock, hpoll, Bool.and_true, if_true, hn]
  rfl

theorem Base.loop (h : Base off s p) (hw : p.WF ii) {d : DInstr} (hpoll : d.poll = true)
    (hasTry : Bool) (hoff : OffOk off (p.planLoop ii hasTry d)) :
    Base off (s.lowerBlock true hasTry d) (p.planLoop ii hasTry d) := by
  have hoffp : OffOk off p := hoff.of_start (by simp [Plan.planLoop, hpoll, Plan.push, add_records])
  have h0 := h.endChunk hoffp.last
  have hm := h0.begin (Plan.pollOf d) fun _ => opened_endChunk s
  rw [LState.lowerLoop_eq h hasTry hpoll]
  unfold Plan.planLoop at hoff ⊢
  simp only [hpoll, if_true] at hoff ⊢
  rw [add_push] at hoff ⊢
  set s1 := (emitPre s.endChunk (Plan.pollOf d)).startChunk with hs1
  have hsize : s.endChunk.bufSize = off p.closeChunk.size := by
    have ho : openMeter s.endChunk = [] := by simp [openMeter, opened_endChunk]
    have := h0.code.bufSize
    rw [ho, List.append_nil] at this
    rw [this, Plan.closeChunk_size, Plan.closeChunk_records, hoffp.last]
  have hp := hm.push hw.closeChunk
    (g := { opcode := .loop, id := ii, header := p.closeChunk.size, tryDepth := p.closeChunk.tryDepth })
    (f := { opcode := .loop, continuation := s.endChunk.bufSize, tryDepth := s1.tryDepth }) rfl
    (hm.tryDepth ▸ frameRel_fresh hw.closeChunk (fun i hi t ht => by
      rw [List.append_nil] at hi
      simp [targets_headOf p.closeChunk _ i hi] at ht) (fun _ => hsize) (by simp))
  cases hasTry with
  | false => exact hp.record _ none rfl hm.length_buf rfl hoff
  | true =>
    have he := hp.emit (.trimHandlers s1.tryDepth) (.trimHandlers s1.tryDepth) rfl rfl
    rw [hm.tryDepth] at he
    rw [hm.tryDepth]
    exact he.record _ (some (.trimHandlers p.closeChunk.tryDepth)) rfl hm.length_buf rfl hoff

/-! ## Branches -/

theorem meterKeep_resolveBranch (s : LState) (slot l : Nat) : MeterKeep s (s.resolveBranch slot l).1 := by
  unfold LState.resolveBranch
  dsimp only
  split
  · exact .of_eq rfl rfl rfl rfl rfl rfl rfl
  · split
    · exact .refl s
    · split <;> exact .of_eq rfl rfl rfl rfl rfl rfl rfl

theorem meterKeep_resolveBranches (s : LState) (slot : Nat) (ls : List Nat) :
    MeterKeep s (s.resolveBranches slot ls).1 := by
  induction ls generalizing s slot with
  | nil => exact .refl s
  | cons l ls ih => exact (meterKeep_resolveBranch s slot l).trans (ih _ _)

theorem resolveBranches_tryDepth (s : LState) (slot : Nat) (ls : List Nat) :
    (s.resolveBranches slot ls).1.tryDepth = s.tryDepth := by
  induction ls generalizing s slot with
  | nil => rfl
  | cons l ls ih =>
    have := ih (s.resolveBranch slot l).1 (slot + 1)
    simpa [LState.resolveBranches] using this

theorem markAll_ctrl (p : Plan) (ls : List Nat) :
    (p.markAll ls).ctrl = ls.foldl (fun gs l => CodeRel.markFrames gs p.tryDepth l) p.ctrl := by
  induction ls generalizing p with
  | nil => rfl
  | cons l ls ih => exact ih (p.mark l)

theorem markAll_fields (p : Plan) (ls : List Nat) :
    (p.markAll ls).records = p.records ∧ (p.markAll ls).emitMeter = p.emitMeter ∧ (p.markAll ls).cost = p.cost ∧
      (p.markAll ls).needNewChunk = p.needNewChunk ∧ (p.markAll ls).tryDepth = p.tryDepth ∧
      (p.markAll ls).ends = p.ends := by
  induction ls generalizing p with
  | nil => simp [Plan.markAll]
  | cons l ls ih => exact ih (p.mark l)

/-- branches resolved in the middle of a record -/
theorem Mid.resolveBranches {pre : Option Nat} {c : List (LInstr Target)} (h : Mid off s p pre c []) (ls : List Nat)
    (hl : ∀ l ∈ ls, l ≤ p.ctrl.length) :
    Mid off (s.resolveBranches 0 ls).1 (p.markAll ls) pre c (ls.map p.target) ∧
      (s.resolveBranches 0 ls).2 = ls.map fun l => valuation off p.ends (p.target l) := by
  obtain ⟨h1, h2⟩ := h.code.resolveBranches hl
  obtain ⟨f1, f2, f3, f4, f5, f6⟩ := markAll_fields p ls
  refine ⟨h.withCode (meterKeep_resolveBranches s 0 ls) f1 f2 f3 f4 ?_ ?_, h2⟩
  · rw [resolveBranches_tryDepth, h.tryDepth, f5]
  · rw [markAll_ctrl, f6, ← h.tryDepth]
    exact h1

theorem Mid.resolveBranch {pre : Option Nat} {c : List (LInstr Target)} (h : Mid off s p pre c []) {l : Nat}
    (hl : l ≤ p.ctrl.length) :
    Mid off (s.resolveBranch 0 l).1 (p.mark l) pre c [p.target l] ∧
      (s.resolveBranch 0 l).2 = valuation off p.ends (p.target l) := by
  obtain ⟨h1, h2⟩ := h.resolveBranches [l] (by simpa using hl)
  simp only [LState.resolveBranches, List.map_cons, List.map_nil, List.cons.injEq, and_true] at h1 h2
  exact ⟨h1, h2⟩

/-! ## try_table -/

theorem Base.tryTable (h : Base off s p) (hw : p.WF ii) {d : DInstr} (hpre : d.poll = true → s.opened = false)
    {cs : List DCatch} (hl : ∀ c ∈ cs, c.label ≤ p.ctrl.length) (hoff : OffOk off (p.planTryTable ii d cs)) :
    Base off (s.lowerTryTable d cs) (p.planTryTable ii d cs) := by
  have hm := h.begin (Plan.pollOf d) (by simpa [pollOf_isSome] using hpre)
  set s1 := (emitPre s (Plan.pollOf d)).startChunk with hs1
  obtain ⟨hr, hts⟩ := hm.resolveBranches (cs.map DCatch.label) (by simpa using hl)
  obtain ⟨f1, f2, f3, f4, f5, f6⟩ := markAll_fields p (cs.map DCatch.label)
  have hw' : (p.markAll (cs.map DCatch.label)).WF ii := hw.markAll
  set q := p.markAll (cs.map DCatch.label) with hq
  let main : LInstr Target := .tryTable (cs.map fun c => ⟨c.kind, c.tag, p.target c.label, c.drop⟩)
  have hmain : ∀ t ∈ main.targets, q.Known t := by
    intro t ht
    simp only [main, LInstr.targets, List.map_map, List.mem_map, Function.comp_apply] at ht
    obtain ⟨c, hc, rfl⟩ := ht
    exact hw.known_markAll _ (List.mem_map_of_mem hc)
  set r := s1.resolveBranches 0 (cs.map DCatch.label) with hrdef
  set s2 := r.1.emit (.tryTable ((cs.zip r.2).map fun p => ⟨p.1.kind, p.1.tag, p.2, p.1.drop⟩)) with hs2
  have he : Mid off s2 q (Plan.pollOf d) [main] [] := by
    refine hr.emit _ main (by simp [main, LInstr.targets, Function.comp_def]) ?_
    rw [hts, f6, List.map_map, zip_map_self]
    simp [main, LInstr.map, LInstr.strip, Function.comp_def]
  have hcode : ∀ i ∈ headOf q (Plan.pollOf d) ++ [main], ∀ t ∈ i.targets, q.Known t := by
    intro i hi t ht
    rcases List.mem_append.mp hi with hi | hi
    · simp [targets_headOf q _ i hi] at ht
    · simp only [List.mem_singleton] at hi
      exact hmain t (hi ▸ ht)
  have hp := he.push hw' (g := { opcode := .tryTable, id := ii, tryDepth := q.tryDepth })
    (f := { opcode := .tryTable, continuation := s2.bufSize, tryDepth := s2.tryDepth }) rfl
    (he.tryDepth ▸ frameRel_fresh hw' hcode (by simp) (by simp))
  have hQ := hp.withCode (q := { q.push { opcode := .tryTable, id := ii, tryDepth := q.tryDepth } with
      tryDepth := q.tryDepth + 1 })
    (t := { s2.pushFrame .tryTable with tryDepth := (s2.pushFrame .tryTable).tryDepth + 1 })
    (MeterKeep.of_eq rfl rfl rfl rfl rfl rfl rfl) rfl rfl rfl rfl (congrArg (· + 1) he.tryDepth)
    (hp.code.congr rfl rfl rfl)
  have hplan : p.planTryTable ii d cs =
      ({ q.push { opcode := .tryTable, id := ii, tryDepth := q.tryDepth } with
          tryDepth := q.tryDepth + 1 } : Plan).add (Plan.pollOf d) none (some main) d.refMap := by
    have hadd := Plan.add_with q ({ opcode := .tryTable, id := ii, tryDepth := q.tryDepth } :: q.ctrl) q.ends
      (q.tryDepth + 1) (Plan.pollOf d) none (some main) d.refMap
    unfold Plan.push
    rw [hadd]
    simp only [Plan.planTryTable, Plan.push, ← hq, f5, Plan.add_ctrl, Plan.add_tryDepth, Plan.add_ends]
    rfl
  rw [hplan] at hoff ⊢
  have hb := hQ.record none (some main) rfl
    (show s1.buf.length = _ by rw [hm.length_buf]; simp [headOf, f1, f2, f4, Plan.push]) rfl hoff
  have hlow : s.lowerTryTable d cs =
      ({ s2.pushFrame .tryTable with tryDepth := (s2.pushFrame .tryTable).tryDepth + 1 } : LState).recordEnd
        s1.buf.length d.refMap := by
    unfold LState.lowerTryTable
    rw [← emitPre_pollOf]
  rw [hlow]
  exact hb

/-! ## Inner ENDs -/

/-- a chunk opened ahead of its first record -/
theorem Base.startChunk (h : Base off s p) : Base off s.startChunk p := by
  have hm := h.begin none (by simp)
  have ho : openMeter s.startChunk = headOf p none := by
    cases he : p.emitMeter with
    | false =>
      have hes : s.emitMeter = false := h.meter.emit.trans he
      simp [openMeter, headOf, he, LState.opened, startChunk_emitMeter, hes]
    | true =>
      have hes : s.emitMeter = true := h.meter.emit.trans he
      have hn := startChunk_need s hes
      have hc : s.startChunk.cost = p.cost := hm.meter.cost he
      simp [openMeter, headOf, he, LState.opened, startChunk_emitMeter, hes, hn, hc, h.meter.need he]
  refine ⟨?_, hm.meter, hm.tryDepth⟩
  rw [ho, ← List.append_nil (layout p.records ++ headOf p none)]
  exact hm.code

theorem Base.opened_false_of_record {start : Nat} {map : Option Nat} : (s.recordEnd start map).opened = false := by
  rw [recordEnd_eq]
  split
  · exact opened_endChunk _
  · exact opened_recordBase s start map

theorem Base.bufSize (h : Base off s p) (hoff : OffOk off p) (ho : s.opened = false) : s.bufSize = off p.size := by
  have := h.code.bufSize
  rw [openMeter, ho] at this
  simpa [hoff.last] using this

/-- where the METER of an eagerly opened chunk stands -/
theorem Base.opened_offset (h : Base off s p) (hoff : OffOk off p) (ho : s.opened = true) :
    codeSize (s.buf.take s.chunk.meter) = off p.size := by
  have hb := congrArg (fun c => codeSize (c.take s.chunk.meter)) h.code.buf
  simp only [← List.map_take, codeSize_strip, codeSize_map] at hb
  rw [hb, h.meter.opened_meter ho, openMeter, if_pos ho, List.take_left', hoff.last]
  rfl

theorem meterKeep_patch (s : LState) (ps : List Patch) (x : Nat) :
    MeterKeep s { s with buf := LState.applyPatches s.buf ps x } :=
  ⟨rfl, rfl, rfl, rfl, rfl, rfl, fun _ _ _ h => getElem?_applyPatches_meter ps x h⟩

/-- leaving a construct patches the branches to its end -/
theorem Base.finishFrame {f : LFrame} {fs : List LFrame} {g : PFrame} {gs : List PFrame} (h : Base off s p)
    (hw : p.WF ii) (hs : s.ctrl = f :: fs) (hc : p.ctrl = g :: gs) :
    Base off (s.finishFrame (off p.size)) (p.leave g gs) := by
  have hcode := h.code
  rw [hc] at hcode
  have hfg := hcode.head hs
  have hnd := hw.nodup
  rw [hc, List.map_cons, List.nodup_cons] at hnd
  have hne : ∀ g' ∈ gs, g.id ≠ g'.id := fun g' hg' he => hnd.1 (by rw [he]; exact List.mem_map_of_mem hg')
  have hun := hw.unresolved g (by simp [hc])
  have hlook : p.ends.lookup (.endOf g.id) = none := lookup_eq_none fun e he => (hun e he).1
  have hpop := hcode.pop hs
  have hpos : positions (.endOf g.id) (layout p.records ++ openMeter s) = f.patches := by
    rw [hfg.patches]; simp [occursFrom]
  have h1 := hpop.patch hpos (off p.size) (fun g' hg' => by simp [hne g' hg']) (by simp) (by simp) (by simp)
  rw [← valuation_snoc hlook p.size (by simp) (by simp)] at h1
  by_cases hif : f.opcode = .if_
  · have hgif : g.opcode = .if_ := hfg.opcode ▸ hif
    obtain ⟨hfalse, -⟩ := hfg.falseEdge hgif
    have hlook' : (p.ends ++ [(Target.endOf g.id, p.size)]).lookup (Target.falseOf g.id) = none := by
      refine lookup_eq_none fun e he => ?_
      rcases List.mem_append.mp he with he | he
      · exact (hun e he).2 hgif
      · simp only [List.mem_singleton] at he
        simp [he]
    have h2 := h1.patch hfalse (off p.size) (by simp) (fun g' hg' _ => by simp [hne g' hg']) (by simp) (by simp)
    rw [← valuation_snoc hlook' p.size (by simp) (by simp)] at h2
    have hfin : s.finishFrame (off p.size) =
        { s with buf := LState.applyPatches (LState.applyPatches s.buf f.patches (off p.size)) [f.ifFalsePatch]
                   (off p.size), ctrl := fs } := by
      simp [LState.finishFrame, hs, hif]
    refine ⟨?_, ?_, ?_⟩
    · rw [hfin]
      simpa [Plan.leave, Plan.endNames, hgif, openMeter, LState.opened] using h2
    · rw [hfin]
      exact h.meter.keep (((meterKeep_patch s _ _).trans (meterKeep_patch _ _ _)).trans
        (.of_eq rfl rfl rfl rfl rfl rfl rfl)) rfl rfl rfl rfl
    · rw [hfin]
      exact h.tryDepth
  · have hgif : g.opcode ≠ .if_ := hfg.opcode ▸ hif
    have hfin : s.finishFrame (off p.size) =
        { s with buf := LState.applyPatches s.buf f.patches (off p.size), ctrl := fs } := by
      simp [LState.finishFrame, hs, hif]
    refine ⟨?_, ?_, ?_⟩
    · rw [hfin]
      simpa [Plan.leave, Plan.endNames, hgif, openMeter, LState.opened] using h1
    · rw [hfin]
      exact h.meter.keep ((meterKeep_patch s _ _).trans (.of_eq rfl rfl rfl rfl rfl rfl rfl)) rfl rfl rfl rfl
    · rw [hfin]
      exact h.tryDepth

/-- END before its chunk is closed -/
def Plan.endBase (p : Plan) (g : PFrame) (d : DInstr) : Plan :=
  let isTry := decide (g.opcode = .tryTable)
  let q := p.add none none (if isTry then some .endTryTable else none) d.refMap
  { q with tryDepth := if isTry then q.tryDepth - 1 else q.tryDepth }

theorem endRecord_eq (p : Plan) (g : PFrame) (d : DInstr) :
    p.endRecord g d = if g.isTarget || decide (g.opcode = .if_) then (p.endBase g d).closeChunk else p.endBase g d := rfl

theorem endRecord_records (p : Plan) (g : PFrame) (d : DInstr) : (p.endRecord g d).records = (p.endBase g d).records := by
  rw [endRecord_eq]; split <;> simp

theorem finishFrame_emitMeter (s : LState) (x : Nat) : (s.finishFrame x).emitMeter = s.emitMeter := by
  unfold LState.finishFrame; split <;> rfl

theorem finishFrame_need (s : LState) (x : Nat) : (s.finishFrame x).needNewChunk = s.needNewChunk := by
  unfold LState.finishFrame; split <;> rfl

/-- the record of END -/
def LState.endBase (s : LState) (isTry : Bool) (d : DInstr) : LState :=
  let s1 := s.startChunk
  let s2 := if isTry then { s1.emit .endTryTable with tryDepth := s1.tryDepth - 1 } else s1
  s2.recordEnd s1.buf.length d.refMap

theorem Base.endBase (h : Base off s p) (g : PFrame) (d : DInstr) (hoff : OffOk off (p.endBase g d)) :
    Base off (s.endBase (decide (g.opcode = .tryTable)) d) (p.endBase g d) := by
  have hm := h.begin none (by simp)
  have hs1 : (emitPre s none).startChunk = s.startChunk := rfl
  rw [hs1] at hm
  unfold LState.endBase Plan.endBase at *
  cases htry : decide (g.opcode = .tryTable) with
  | false =>
    simp only [htry, Bool.false_eq_true, if_false] at hoff ⊢
    exact hm.record none none rfl hm.length_buf rfl hoff
  | true =>
    simp only [htry, if_true] at hoff ⊢
    have he := hm.emit .endTryTable .endTryTable rfl rfl
    have hadd := Plan.add_with p p.ctrl p.ends (p.tryDepth - 1) none none (some .endTryTable) d.refMap
    have hQ := he.withCode (q := { p with tryDepth := p.tryDepth - 1 })
      (t := { s.startChunk.emit .endTryTable with tryDepth := s.startChunk.tryDepth - 1 })
      (MeterKeep.of_eq rfl rfl rfl rfl rfl rfl rfl) rfl rfl rfl rfl (congrArg (· - 1) hm.tryDepth)
      (he.code.congr rfl rfl rfl)
    refine hQ.record none (some .endTryTable) rfl hm.length_buf ?_ hoff
    rw [hadd]
    simp

/-- a branch target ends the chunk and opens the next one at once -/
def LState.endTarget (s : LState) (isTarget : Bool) : LState :=
  if s.emitMeter && isTarget then s.endChunk.startChunk else s

theorem endChunk_emitMeter (s : LState) : s.endChunk.emitMeter = s.emitMeter := by
  unfold LState.endChunk
  repeat' split
  all_goals rfl

theorem endTarget_emitMeter (s : LState) (b : Bool) : (s.endTarget b).emitMeter = s.emitMeter := by
  unfold LState.endTarget
  split
  · rw [startChunk_emitMeter, endChunk_emitMeter]
  · rfl

theorem Base.endTarget (h : Base off s p) (hoff : OffOk off p) (b : Bool) :
    Base off (s.endTarget b) (if b then p.closeChunk else p) := by
  unfold LState.endTarget
  cases b with
  | false => simpa using h
  | true =>
    cases he : s.emitMeter with
    | false =>
      have hp : p.closeChunk = p := by simp [Plan.closeChunk, ← h.meter.emit, he]
      simpa [hp] using h
    | true => simpa using (h.endChunk hoff.last).startChunk

/-- the offset branches to the END are patched with -/
theorem Base.endPos (h : Base off s p) (hoff : OffOk off p) (ho : s.opened = false) (b : Bool) :
    (if (s.endTarget b).emitMeter && b then codeSize ((s.endTarget b).buf.take (s.endTarget b).chunk.meter)
      else s.bufSize) = off p.size := by
  rw [endTarget_emitMeter]
  cases hb : s.emitMeter && b with
  | false => simpa using h.bufSize hoff ho
  | true =>
    simp only [Bool.and_eq_true] at hb
    obtain ⟨he, rfl⟩ := hb
    have h1 := h.endChunk hoff.last
    have hes : s.endChunk.emitMeter = true := by rw [endChunk_emitMeter]; exact he
    have hop : s.endChunk.startChunk.opened = true := by
      have hpe : p.closeChunk.emitMeter = true := h1.meter.emit ▸ hes
      have hcost : s.endChunk.startChunk.cost = 0 := by
        have hc : s.endChunk.startChunk.cost = p.closeChunk.cost := (h1.begin none (by simp)).meter.cost hpe
        rw [Plan.closeChunk_emitMeter] at hpe
        rw [hc, Plan.closeChunk_cost, if_pos hpe]
      simp [LState.opened, startChunk_need _ hes, startChunk_emitMeter, hes, hcost]
    have h2 := h1.startChunk.opened_offset (hoff.of_start (by simp)) hop
    simpa [LState.endTarget, he] using h2

theorem LState.lowerEnd_eq (s : LState) (f : LFrame) (d : DInstr) (next : Option Nat) :
    s.lowerEnd f d next =
      (let isTarget := decide (0 < f.patches.length) || decide (f.opcode = .if_)
       let s3 := s.endBase (decide (f.opcode = .tryTable)) d
       let s4 := s3.endTarget isTarget
       let s5 := s4.finishFrame (if s4.emitMeter && isTarget then codeSize (s4.buf.take s4.chunk.meter) else s3.bufSize)
       if f.needsTrim && decide (f.opcode ≠ .loop) then
         (s5.emit (.trimHandlers f.tryDepth)).recordEnd s5.buf.length next
       else s5) := by
  unfold LState.lowerEnd LState.endBase LState.endTarget
  simp only [decide_eq_true_eq]

theorem Base.end_ {f : LFrame} {fs : List LFrame} {g : PFrame} {gs : List PFrame} (h : Base off s p) (hw : p.WF ii)
    (hs : s.ctrl = f :: fs) (hc : p.ctrl = g :: gs) (d : DInstr) (next : Option Nat)
    (hoff : OffOk off (p.planEnd g d next)) : Base off (s.lowerEnd f d next) (p.planEnd g d next) := by
  have hcode := h.code
  rw [hc] at hcode
  have hfg := hcode.head hs
  have hoffE : OffOk off (p.endBase g d) := by
    refine hoff.of_start ?_
    rw [Plan.planEnd_eq p hc, ← endRecord_records]
    split <;> simp [add_records, Plan.leave]
  rw [LState.lowerEnd_eq, Plan.planEnd_eq p hc]
  dsimp only
  rw [hfg.needsTrim, hfg.opcode, hfg.tryDepth, ← hfg.isTarget]
  have h3 := h.endBase g d hoffE
  set s3 := s.endBase (decide (g.opcode = .tryTable)) d with hs3
  have ho3 : s3.opened = false := Base.opened_false_of_record
  have h4 := h3.endTarget hoffE (g.isTarget || decide (g.opcode = .if_))
  rw [← endRecord_eq] at h4
  rw [h3.endPos hoffE ho3]
  set s4 := s3.endTarget (g.isTarget || decide (g.opcode = .if_)) with hs4
  obtain ⟨f', fs', hs'⟩ : ∃ f' fs', s4.ctrl = f' :: fs' := by
    have := h4.code
    rw [Plan.endRecord_ctrl, hc] at this
    exact this.ctrl_cons
  have hsz : (p.endBase g d).size = (p.endRecord g d).size := by
    simp [Plan.size, endRecord_records]
  rw [hsz]
  have h5 := h4.finishFrame (hw.endRecord g d) hs' (by rw [Plan.endRecord_ctrl, hc])
  set s5 := s4.finishFrame (off (p.endRecord g d).size) with hs5
  rw [Plan.planEnd_eq p hc] at hoff
  cases htrim : g.needsTrim && decide (g.opcode ≠ .loop) with
  | false => exact h5
  | true =>
    rw [htrim, if_pos rfl] at hoff
    simp only [Bool.and_eq_true, decide_eq_true_eq] at htrim
    have htarget := hw.trims g (by simp [hc]) htrim.1 htrim.2
    -- the chunk of the TRIM_HANDLERS is already open
    have hopen : s5.startChunk = s5 := by
      cases he : s3.emitMeter with
      | false =>
        have hf : s5.emitMeter = false := by
          rw [hs5, finishFrame_emitMeter, hs4, endTarget_emitMeter, he]
        simp [LState.startChunk, hf]
      | true =>
        have hn : s5.needNewChunk = false := by
          rw [hs5, finishFrame_need, hs4, LState.endTarget, htarget, he]
          exact startChunk_need _ (by rw [endChunk_emitMeter, he])
        simp [LState.startChunk, hn]
    have hm := h5.begin none (by simp)
    have hs1 : (emitPre s5 none).startChunk = s5 := hopen
    rw [hs1] at hm
    exact (hm.emit (.trimHandlers g.tryDepth) (.trimHandlers g.tryDepth) rfl rfl).record none
      (some (.trimHandlers g.tryDepth)) rfl hm.length_buf rfl hoff

/-! ## Other instructions -/

/-- a branch with one target -/
theorem Mid.branch {pre : Option Nat} {c : List (LInstr Target)} (h : Mid off s p pre c []) {l : Nat}
    (hl : l ≤ p.ctrl.length) {mk : Nat → LInstr Nat} (mk' : Target → LInstr Target) (hmk : ∀ t, (mk' t).targets = [t])
    (hmap : ∀ t, (mk (valuation off p.ends t)).strip = (mk' t).map (valuation off p.ends)) :
    Mid off (s.lowerBranch l mk) (p.mark l) pre (c ++ [mk' (p.target l)]) [] := by
  obtain ⟨h1, h2⟩ := h.resolveBranch hl
  unfold LState.lowerBranch
  dsimp only
  rw [h2]
  exact h1.emit _ _ (hmk _) (hmap _)

theorem Mid.brTable {pre : Option Nat} {c : List (LInstr Target)} (h : Mid off s p pre c []) {imm : BrTableImm}
    (hl : ∀ r ∈ imm.records, r.1 ≤ p.ctrl.length) :
    Mid off (s.lowerBrTable imm) (p.markAll (imm.records.map Prod.fst)) pre
      (c ++ [.brTable imm.keep imm.targets (imm.records.map fun r => (p.target r.1, r.2))]) [] := by
  obtain ⟨h1, h2⟩ := h.resolveBranches (imm.records.map Prod.fst) (by
    intro l hl'
    obtain ⟨r, hr, rfl⟩ := List.mem_map.mp hl'
    exact hl r hr)
  unfold LState.lowerBrTable
  dsimp only
  rw [h2]
  refine h1.emit _ _ (by simp [LInstr.targets, Function.comp_def]) ?_
  obtain ⟨-, -, -, -, -, f6⟩ := markAll_fields p (imm.records.map Prod.fst)
  rw [f6]
  simp [LInstr.strip, LInstr.map, List.zip_map', Function.comp_def]

/-- a pending target that no construct waits for -/
theorem CodeRel.pend {gs : List PFrame} {val : Target → Nat} {c : List (LInstr Target)} (h : CodeRel s gs val c [])
    {t : Target} (hend : ∀ g ∈ gs, t ≠ .endOf g.id) (hfalse : ∀ g ∈ gs, t ≠ .falseOf g.id) (hfunc : t ≠ .func) :
    CodeRel s gs val c [t] := by
  refine ⟨h.buf, h.depth, fun k f g hf hg => ?_, ?_, h.funcVal, h.nodup⟩
  · have hfg := h.frames k f g hf hg
    have hmem := List.mem_of_getElem? hg
    refine ⟨hfg.opcode, hfg.tryDepth, hfg.needsTrim, hfg.isTarget, ?_, hfg.loop, fun hif => ?_, hfg.unresolved,
      hfg.unresolvedFalse⟩
    · rw [hfg.patches]; simp [occursFrom, hend g hmem]
    · exact ⟨(hfg.falseEdge hif).1, by simp [Ne.symm (hfalse g hmem)]⟩
  · rw [h.func]; simp [occursFrom, hfunc]

theorem Mid.if_ {pre : Option Nat} {c : List (LInstr Target)} (h : Mid off s p pre c []) (hw : p.WF ii)
    (hc : ∀ i ∈ c, i.targets = []) :
    Mid off s.lowerIf (p.push { opcode := .if_, id := ii, tryDepth := p.tryDepth }) pre
      (c ++ [.if_ (.falseOf ii)]) [] := by
  obtain ⟨hend, hfalse⟩ := hw.not_known_fresh
  obtain ⟨l1, l2⟩ := hw.lookup_fresh
  have hlen := h.code.length_buf
  have hids : ∀ g ∈ p.ctrl, g.id ≠ ii := fun g hg => Nat.ne_of_lt (hw.ids g hg)
  have hpos : ∀ t, ¬p.Known t → positions t (layout p.records ++ (headOf p pre ++ c)) = [] := by
    intro t ht
    rw [positions_append, hw.positions_eq_nil ht, positionsFrom_eq_nil]
    · rfl
    · intro i hi hm
      rcases List.mem_append.mp hi with hi | hi
      · simp [targets_headOf p _ i hi] at hm
      · simp [hc i hi] at hm
  have hpend : Mid off s p pre c [.falseOf ii] :=
    h.withCode (.refl s) rfl rfl rfl rfl h.tryDepth
      (h.code.pend (by simp) (fun g hg => by simp [Ne.symm (hids g hg)]) (by simp))
  have he := hpend.emit (.if_ 0) (.if_ (.falseOf ii)) rfl (by simp [LInstr.strip, LInstr.map, valuation, l2])
  have hsnoc : layout p.records ++ (headOf p pre ++ (c ++ [.if_ (.falseOf ii)])) =
      (layout p.records ++ (headOf p pre ++ c)) ++ [.if_ (.falseOf ii)] := by simp
  refine he.push hw (g := { opcode := .if_, id := ii, tryDepth := p.tryDepth })
    (f := { opcode := .if_, continuation := (s.emit (.if_ 0)).bufSize, tryDepth := s.tryDepth,
            ifFalsePatch := ⟨s.buf.length, 0⟩ }) rfl ?_
  rw [hsnoc]
  refine ⟨rfl, h.tryDepth, rfl, by simp, ?_, by simp, fun _ => ⟨?_, by simp⟩, by simp [valuation, l1],
    fun _ => by simp [valuation, l2]⟩
  · rw [CodeRel.positions_snoc, hpos _ hend]
    simp [occursFrom, LInstr.targets]
  · rw [CodeRel.positions_snoc, hpos _ hfalse]
    simp [occursFrom, LInstr.targets, hlen]

/-- ELSE: a jump to the end of the `if`, after which its false edge lands -/
theorem Mid.else_ {pre : Option Nat} {c : List (LInstr Target)} {g : PFrame} {gs : List PFrame}
    (h : Mid off s p pre c []) (hw : p.WF ii) (hp : p.ctrl = g :: gs) (hop : g.opcode = .if_) {r : Nat}
    (hr : off r = codeSize (layout p.records ++ headOf p pre) + codeSize (c ++ [.else_ (.endOf g.id)])) :
    Mid off s.lowerElse
      { p with ends := p.ends ++ [(.falseOf g.id, r)], ctrl := { g with opcode := .else_, isTarget := true } :: gs } pre
      (c ++ [.else_ (.endOf g.id)]) [] := by
  have hcode := h.code
  rw [hp] at hcode
  obtain ⟨f, fs, hs⟩ := hcode.ctrl_cons
  have hfg := hcode.head hs
  have hnd := hw.nodup
  rw [hp, List.map_cons, List.nodup_cons] at hnd
  have hne : ∀ g' ∈ gs, g.id ≠ g'.id := fun g' hg' he => hnd.1 (by rw [he]; exact List.mem_map_of_mem hg')
  have hun := hw.unresolved g (by simp [hp])
  have hlook : p.ends.lookup (.falseOf g.id) = none := lookup_eq_none fun e he => (hun e he).2 hop
  set c0 := layout p.records ++ headOf p pre ++ c with hc0
  set f' : LFrame := { f with patches := f.patches ++ [⟨s.buf.length, 0⟩] } with hf'
  -- the jump of ELSE is one more branch to the end
  have h1 : CodeRel { s with ctrl := f' :: fs } ({ g with isTarget := true } :: gs) (valuation off p.ends) c0
      [.endOf g.id] := by
    refine ⟨hcode.buf, by simpa [hs] using hcode.depth, ?_, ?_, hcode.funcVal, hcode.nodup⟩
    · intro k fk gk hfk hgk
      cases k with
      | zero =>
        simp only [List.getElem?_cons_zero, Option.some.injEq] at hfk hgk
        subst hfk hgk
        refine ⟨hfg.opcode, hfg.tryDepth, hfg.needsTrim, by simp [hf'], ?_, hfg.loop, fun hif => ?_, hfg.unresolved,
          hfg.unresolvedFalse⟩
        · rw [hf', hfg.patches, hcode.length_buf]; simp [occursFrom]
        · exact ⟨(hfg.falseEdge hif).1, by simp⟩
      | succ k =>
        simp only [List.getElem?_cons_succ] at hfk hgk
        have hk := hcode.frames (k + 1) fk gk (by simpa [hs] using hfk) (by simpa using hgk)
        have hid := hne gk (List.mem_of_getElem? hgk)
        refine ⟨hk.opcode, hk.tryDepth, hk.needsTrim, hk.isTarget, ?_, hk.loop, fun hif => ?_, hk.unresolved,
          hk.unresolvedFalse⟩
        · rw [hk.patches]; simp [occursFrom, hid]
        · exact ⟨(hk.falseEdge hif).1, by simp⟩
    · rw [hcode.func]; simp [occursFrom]
  have h2 := h1.emit (.else_ 0) (.else_ (.endOf g.id)) rfl (by
    have := hfg.unresolved
    simp [LInstr.strip, LInstr.map, this])
  have hfg2 := h2.head (show LState.ctrl _ = f' :: fs from rfl)
  obtain ⟨hpos, -⟩ := hfg2.falseEdge hop
  -- the frame becomes that of an else branch, and the false edge is patched
  have h3 : CodeRel { s with buf := s.buf ++ [.else_ 0], ctrl := { f' with opcode := .else_, ifFalsePatch := ⟨0, 0⟩ } :: fs }
      ({ g with opcode := .else_, isTarget := true } :: gs) (valuation off p.ends) (c0 ++ [.else_ (.endOf g.id)]) [] := by
    refine ⟨h2.buf, h2.depth, ?_, h2.func, h2.funcVal, h2.nodup⟩
    intro k fk gk hfk hgk
    cases k with
    | zero =>
      simp only [List.getElem?_cons_zero, Option.some.injEq] at hfk hgk
      subst hfk hgk
      exact ⟨rfl, hfg2.tryDepth, hfg2.needsTrim, hfg2.isTarget, hfg2.patches, by simp, by simp, hfg2.unresolved, by simp⟩
    | succ k => exact h2.frames (k + 1) fk gk hfk hgk
  have h4 := h3.patch (n := .falseOf g.id) hpos (off r) (by simp) (by
    intro g' hg' hif
    rcases List.mem_cons.mp hg' with rfl | hg'
    · simp at hif
    · simp [hne g' hg']) (by simp) (by simp)
  rw [← valuation_snoc hlook r (by simp) (by simp)] at h4
  have hlow : s.lowerElse =
      { s with buf := LState.applyPatches (s.buf ++ [.else_ 0]) [f.ifFalsePatch] (off r)
               ctrl := { f' with opcode := .else_, ifFalsePatch := ⟨0, 0⟩ } :: fs } := by
    have hsize : (s.emit (.else_ 0)).bufSize = off r := by
      have := h.bufSize
      simp only [LState.bufSize, LState.emit, codeSize_append] at this ⊢
      rw [hr, codeSize_append, this]
      simp [codeSize, LInstr.size]
      omega
    simp only [LState.lowerElse, hs, hsize]
    rfl
  rw [hlow]
  refine h.withCode ?_ rfl rfl rfl rfl h.tryDepth ?_
  · exact (MeterKeep.emit_instr s (.else_ 0)).trans
      ((meterKeep_patch _ [f.ifFalsePatch] (off r)).trans (.of_eq rfl rfl rfl rfl rfl rfl rfl))
  · simpa [hc0, List.append_assoc] using h4

/-- the last part of `lowerPlain` -/
def LState.endPlain (s : LState) (d : DInstr) : LState :=
  if s.emitMeter && decide (0 < s.cost) then
    if d.op.endsLongChunk then (if meterMaxChunkCost ≤ s.cost then s.endChunk else s)
    else if d.op = .else_ then s.endChunk
    else s
  else s

theorem Base.endPlain (h : Base off s p) (hoff : OffOk off p) (d : DInstr) :
    Base off (s.endPlain d) (p.endPlain d) := by
  have hclose := h.endChunk hoff.last
  unfold LState.endPlain Plan.endPlain
  cases he : s.emitMeter with
  | false =>
    have hp : p.closeChunk = p := by simp [Plan.closeChunk, ← h.meter.emit, he]
    simp only [Bool.false_and, Bool.false_eq_true, if_false, hp, ite_self]
    exact h
  | true =>
    have hpe : p.emitMeter = true := h.meter.emit ▸ he
    have hcost := h.meter.cost hpe
    by_cases h0 : 0 < s.cost
    · rw [if_pos (by simpa using h0), hcost]
      repeat' split
      all_goals first | exact hclose | exact h
    · have hc0 : p.cost = 0 := by omega
      have hp : p.closeChunk = p := by
        have hn := h.meter.need hpe
        rw [hc0] at hn
        unfold Plan.closeChunk
        rw [if_pos hpe]
        cases p
        simp_all
      simp only [h0, decide_false, Bool.and_false, Bool.false_eq_true, if_false, hp, ite_self]
      exact h

theorem LState.lowerPlain_eq (s : LState) (d : DInstr) :
    s.lowerPlain d =
      LState.endPlain (((if d.poll then s.startChunk.emitPoll d.refMap else s.startChunk).lowerOp d).recordEnd
        s.startChunk.buf.length d.refMap) d := rfl

theorem Plan.planPlain_records (p : Plan) (ii : Nat) (d : DInstr) :
    (p.planPlain ii d).records = p.records ++ [newRecord p none (Plan.pollOf d) (p.mainOf ii d) d.refMap] := by
  have hm : (p.marks d.op).records = p.records ∧ (p.marks d.op).emitMeter = p.emitMeter ∧
      (p.marks d.op).needNewChunk = p.needNewChunk := by
    cases d.op <;> first
      | exact ⟨rfl, rfl, rfl⟩
      | exact ⟨(markAll_fields p _).1, (markAll_fields p _).2.1, (markAll_fields p _).2.2.2.1⟩
  have hf : ∀ q : Plan, (q.planFrames ii d.op).records = q.records := by
    intro q
    unfold Plan.planFrames
    split
    · rfl
    · split <;> rfl
    · rfl
  unfold Plan.planPlain
  dsimp only
  repeat' split
  all_goals simp [hf, add_records, hm, newRecord]

/-- targets of the POLL of a record -/
theorem targets_pollOf (d : DInstr) :
    ∀ i ∈ [] ++ ((Plan.pollOf d).map (LInstr.poll (τ := Target))).toList, i.targets = [] := by
  cases h : d.poll <;> simp [Plan.pollOf, h, LInstr.targets]

theorem Base.plain (h : Base off s p) (hw : p.WF ii) {d : DInstr} (ha : p.Accepts ii d)
    (hd : (∀ bt, d.op ≠ .block bt) ∧ (∀ bt, d.op ≠ .loop bt) ∧ (∀ bt cs, d.op ≠ .tryTable bt cs) ∧ d.op ≠ .end_)
    (hoff : OffOk off (p.planPlain ii d)) : Base off (s.lowerPlain d) (p.planPlain ii d) := by
  have hm := h.begin none (by simp)
  have hs1 : (emitPre s none).startChunk = s.startChunk := rfl
  rw [hs1] at hm
  have hp := hm.emitPoll d
  have hlen := hm.length_buf
  rw [LState.lowerPlain_eq]
  set s2 := if d.poll then s.startChunk.emitPoll d.refMap else s.startChunk with hs2
  -- what is left to show of each instruction: its bytes, and the frames after it
  have hfin : ∀ (q : Plan) (main : LInstr Target), p.mainOf ii d = some main → q.records = p.records →
      q.emitMeter = p.emitMeter → q.needNewChunk = p.needNewChunk →
      Mid off (s2.lowerOp d) q none ([] ++ ((Plan.pollOf d).map LInstr.poll).toList ++ [main]) [] →
      p.planPlain ii d = (q.add none (Plan.pollOf d) (some main) d.refMap).endPlain d →
      Base off (LState.endPlain ((s2.lowerOp d).recordEnd s.startChunk.buf.length d.refMap) d) (p.planPlain ii d) := by
    intro q main hmain hr he hn hmid hplan
    have hoffq : OffOk off (q.add none (Plan.pollOf d) (some main) d.refMap) := by
      refine hoff.of_start ?_
      rw [Plan.planPlain_records, add_records]
      simp [hr, hmain, newRecord, he, hn]
    rw [hplan]
    refine Base.endPlain (hmid.record _ _ (by simp [content_newRecord]) ?_ rfl hoffq) hoffq d
    rw [hlen]
    simp [headOf, hr, he, hn]
  cases hop : d.op with
  | block bt => exact absurd hop (hd.1 bt)
  | loop bt => exact absurd hop (hd.2.1 bt)
  | tryTable bt cs => exact absurd hop (hd.2.2.1 bt cs)
  | end_ => exact absurd hop hd.2.2.2
  | op i =>
    refine hfin p (.op i (if i.isResumableBulk then some (d.refMap.getD uint32Max) else none)) (by simp [Plan.mainOf, hop])
      rfl rfl rfl ?_ ?_
    · simp only [LState.lowerOp, hop]
      exact hp.emit _ _ rfl rfl
    · rw [Plan.planPlain_eq p ii (by simp [hop]) (by simp [hop])]
      simp [Plan.marks, Plan.mainOf, hop]
  | if_ bt =>
    refine hfin _ (.if_ (.falseOf ii)) (by simp [Plan.mainOf, hop]) ?_ ?_ ?_ ?_ (Plan.planIf_eq p ii hop)
    · rfl
    · rfl
    · rfl
    · simp only [LState.lowerOp, hop]
      exact hp.if_ hw (targets_pollOf d)
  | else_ =>
    obtain ⟨g, gs, hc, hgop⟩ : ∃ g gs, p.ctrl = g :: gs ∧ g.opcode = .if_ := by simpa [Plan.Accepts, hop] using ha
    let q : Plan := { p with ends := p.ends ++ [(.falseOf g.id, p.size + 1)],
                             ctrl := { g with opcode := .else_, isTarget := true } :: gs }
    have hmain : p.mainOf ii d = some (.else_ (.endOf g.id)) := by simp [Plan.mainOf, hop, hc]
    have hadd := Plan.add_with p ({ g with opcode := .else_, isTarget := true } :: gs)
      (p.ends ++ [(.falseOf g.id, p.size + 1)]) p.tryDepth none (Plan.pollOf d) (some (.else_ (.endOf g.id))) d.refMap
    refine hfin q (.else_ (.endOf g.id)) hmain rfl rfl rfl ?_ ?_
    · simp only [LState.lowerOp, hop]
      refine hp.else_ hw hc hgop (r := p.size + 1) ?_
      have hr := hoff (p.size + 1) (by simp [Plan.size, Plan.planPlain_records])
      rw [Plan.planPlain_records, List.take_of_length_le (by simp [Plan.size]), layout_append, layout_singleton] at hr
      rw [hr, hmain]
      simp only [Record.code, head_newRecord, content_newRecord, codeSize_append, List.nil_append, Option.toList_some]
      omega
    · simp only [q]
      rw [hadd]
      simp [Plan.planPlain, hop, Plan.marks, Plan.mainOf, hc, Plan.planFrames, Plan.resolve, Plan.endPlain, Plan.size,
        add_records, DOp.endsLongChunk]
  | br l keep drop =>
    have hl : l ≤ p.ctrl.length := by simpa [Plan.Accepts, hop] using ha
    refine hfin (p.mark l) (.br (p.target l) keep drop) (by simp [Plan.mainOf, hop]) rfl rfl rfl ?_ ?_
    · simp only [LState.lowerOp, hop]
      exact hp.branch hl (.br · keep drop) (fun _ => rfl) fun _ => rfl
    · rw [Plan.planPlain_eq p ii (by simp [hop]) (by simp [hop])]
      simp [Plan.marks, Plan.mainOf, hop]
  | brIf l keep drop =>
    have hl : l ≤ p.ctrl.length := by simpa [Plan.Accepts, hop] using ha
    refine hfin (p.mark l) (.brIf (p.target l) keep drop) (by simp [Plan.mainOf, hop]) rfl rfl rfl ?_ ?_
    · simp only [LState.lowerOp, hop]
      exact hp.branch hl (.brIf · keep drop) (fun _ => rfl) fun _ => rfl
    · rw [Plan.planPlain_eq p ii (by simp [hop]) (by simp [hop])]
      simp [Plan.marks, Plan.mainOf, hop]
  | brOnNull l keep drop =>
    have hl : l ≤ p.ctrl.length := by simpa [Plan.Accepts, hop] using ha
    refine hfin (p.mark l) (.brOnNull (p.target l) keep drop) (by simp [Plan.mainOf, hop]) rfl rfl rfl ?_ ?_
    · simp only [LState.lowerOp, hop]
      exact hp.branch hl (.brOnNull · keep drop) (fun _ => rfl) fun _ => rfl
    · rw [Plan.planPlain_eq p ii (by simp [hop]) (by simp [hop])]
      simp [Plan.marks, Plan.mainOf, hop]
  | brOnNonNull l keep drop =>
    have hl : l ≤ p.ctrl.length := by simpa [Plan.Accepts, hop] using ha
    refine hfin (p.mark l) (.brOnNonNull (p.target l) keep drop) (by simp [Plan.mainOf, hop]) rfl rfl rfl ?_ ?_
    · simp only [LState.lowerOp, hop]
      exact hp.branch hl (.brOnNonNull · keep drop) (fun _ => rfl) fun _ => rfl
    · rw [Plan.planPlain_eq p ii (by simp [hop]) (by simp [hop])]
      simp [Plan.marks, Plan.mainOf, hop]
  | brOnCast fl dn dst l keep drop =>
    have hl : l ≤ p.ctrl.length := by simpa [Plan.Accepts, hop] using ha
    refine hfin (p.mark l) (.brOnCast fl dn dst (p.target l) keep drop) (by simp [Plan.mainOf, hop]) rfl rfl rfl ?_ ?_
    · simp only [LState.lowerOp, hop]
      exact hp.branch hl (.brOnCast fl dn dst · keep drop) (fun _ => rfl) fun _ => rfl
    · rw [Plan.planPlain_eq p ii (by simp [hop]) (by simp [hop])]
      simp [Plan.marks, Plan.mainOf, hop]
  | brTable imm =>
    have hl : ∀ r ∈ imm.records, r.1 ≤ p.ctrl.length := by simpa [Plan.Accepts, hop] using ha
    obtain ⟨f1, f2, -, f4, -, -⟩ := markAll_fields p (imm.records.map Prod.fst)
    refine hfin (p.markAll (imm.records.map Prod.fst)) _ (by simp [Plan.mainOf, hop]; rfl) f1 f2 f4 ?_ ?_
    · simp only [LState.lowerOp, hop]
      exact hp.brTable hl
    · rw [Plan.planPlain_eq p ii (by simp [hop]) (by simp [hop])]
      simp [Plan.marks, Plan.mainOf, hop]

/-! ## The whole pass -/

/-- the pass has emitted the records of the plan, after `ii` instructions -/
structure Refines (off : Nat → Nat) (ii : Nat) (s : LState) (p : Plan) : Prop where
  base : Base off s p
  wf : p.WF ii
  start : ii = 0 → s.opened = false

/-- **One iteration of the pass** emits the records the plan has for the instruction. -/
theorem lowerInstr_refines (h : Refines off ii s p) {hasTry : Bool} {d : DInstr} {next : Option Nat}
    (ha : p.Accepts ii d) (hoff : OffOk off (planInstr p ii hasTry d next)) :
    Refines off (ii + 1) (lowerInstr s hasTry d next) (planInstr p ii hasTry d next) := by
  refine ⟨?_, planInstr_wf h.wf ha, by simp⟩
  cases hop : d.op with
  | block bt =>
    have h1 : d.poll = true → ii = 0 := by simpa [Plan.Accepts, hop] using ha
    simp only [planInstr, lowerInstr, hop] at hoff ⊢
    exact h.base.block h.wf (fun hp => h.start (h1 hp)) hasTry hoff
  | loop bt =>
    have hpoll : d.poll = true := by simpa [Plan.Accepts, hop] using ha
    simp only [planInstr, lowerInstr, hop] at hoff ⊢
    exact h.base.loop h.wf hpoll hasTry hoff
  | tryTable bt cs =>
    obtain ⟨h1, hl⟩ : (d.poll = true → ii = 0) ∧ ∀ c ∈ cs, c.label ≤ p.ctrl.length := by
      simpa [Plan.Accepts, hop] using ha
    simp only [planInstr, lowerInstr, hop] at hoff ⊢
    exact h.base.tryTable h.wf (fun hp => h.start (h1 hp)) hl hoff
  | end_ =>
    have hne : p.ctrl ≠ [] := by simpa [Plan.Accepts, hop] using ha
    obtain ⟨g, gs, hc⟩ := List.exists_cons_of_ne_nil hne
    obtain ⟨f, fs, hs⟩ : ∃ f fs, s.ctrl = f :: fs := by
      have := h.base.code
      rw [hc] at this
      exact this.ctrl_cons
    simp only [planInstr, lowerInstr, hop, hc, hs] at hoff ⊢
    exact h.base.end_ h.wf hs hc d next hoff
  | op i =>
    simp only [planInstr, lowerInstr, hop] at hoff ⊢
    exact h.base.plain h.wf ha (by simp [hop]) hoff
  | if_ bt =>
    simp only [planInstr, lowerInstr, hop] at hoff ⊢
    exact h.base.plain h.wf ha (by simp [hop]) hoff
  | else_ =>
    simp only [planInstr, lowerInstr, hop] at hoff ⊢
    exact h.base.plain h.wf ha (by simp [hop]) hoff
  | br | brIf | brOnNull | brOnNonNull | brOnCast | brTable =>
    simp only [planInstr, lowerInstr, hop] at hoff ⊢
    exact h.base.plain h.wf ha (by simp [hop]) hoff

/-- the instructions of a function body: the last one is the function's END -/
def Plan.AcceptsFrom (marked : List Nat) (p : Plan) (ii : Nat) : List DInstr → Prop
  | [] => False
  | [d] => d.op = .end_ ∧ p.ctrl = []
  | d :: d' :: ds =>
    p.Accepts ii d ∧
      AcceptsFrom marked (planInstr p ii (decide (ii ∈ marked)) d d'.refMap) (ii + 1) (d' :: ds)

/-- final offsets of names -/
def Plan.offset (off : Nat → Nat) (p : Plan) : Target → Nat
  | .func => codeSize (layout p.records) - 2
  | t => valuation off p.ends t

/-- the pass is over: the buffer is the layout of the plan with offsets for names -/
structure Done (off : Nat → Nat) (s : LState) (p : Plan) : Prop where
  buf : s.buf.map LInstr.strip = (layout p.records).map (LInstr.map (p.offset off))
  meter : MeterRel off s p 0
  cost : p.emitMeter = true → p.cost = 0
  wf : ∃ ii, p.WF ii
  ctrl : p.ctrl = []
  last : ∃ rs r, p.records = rs ++ [r] ∧ r.poll = none ∧ r.main = some .end_

theorem Refines.funcEnd (h : Refines off ii s p) (hc : p.ctrl = []) (d : DInstr) (hoff : OffOk off (p.planFuncEnd d)) :
    Done off (s.lowerFuncEnd d) (p.planFuncEnd d) := by
  have hm := h.base.begin none (by simp)
  have hs1 : (emitPre s none).startChunk = s.startChunk := rfl
  rw [hs1] at hm
  have hoffA : OffOk off (p.add none none (some .end_) d.refMap) := hoff.of_start (by simp [Plan.planFuncEnd])
  have hb := (hm.emit .end_ .end_ rfl rfl).record none (some .end_) rfl hm.length_buf
    rfl hoffA
  have he := hb.endChunk hoffA.last
  set s2 := ((s.startChunk.emit .end_).recordEnd s.startChunk.buf.length d.refMap).endChunk with hs2
  have ho : openMeter s2 = [] := by simp [openMeter, hs2, opened_endChunk]
  have hcode := he.code
  rw [ho, List.append_nil] at hcode
  have hsize := hcode.bufSize
  have hlow : s.lowerFuncEnd d =
      { s2 with buf := LState.applyPatches s2.buf s2.funcEndPatches (s2.bufSize - 2) } := rfl
  rw [hlow]
  refine ⟨?_, ?_, ?_, ?_, ?_, ?_⟩
  · dsimp only
    have hfun := hcode.func
    simp only [occursFrom, List.map_nil, List.append_nil] at hfun
    have := applyPatches_positions (valuation off (p.planFuncEnd d).ends) .func (s2.bufSize - 2)
      (layout (p.planFuncEnd d).records) []
    simp only [List.append_nil] at this
    rw [strip_applyPatches, hcode.buf, hfun]
    refine this.trans ?_
    congr 2
    funext t
    cases t <;> simp [setName, Plan.offset, hsize, Plan.planFuncEnd]
  · exact he.meter.keep (meterKeep_patch s2 _ _) rfl rfl rfl rfl
  · intro hem
    simp only [Plan.planFuncEnd, Plan.closeChunk_emitMeter] at hem
    rw [Plan.planFuncEnd, Plan.closeChunk_cost, if_pos hem]
  · exact ⟨ii, (h.wf.add none none _ d.refMap (by simp [LInstr.targets, LInstr.IsMain])).closeChunk⟩
  · simp [Plan.planFuncEnd, hc]
  · exact ⟨p.records, newRecord p none none (some .end_) d.refMap, by simp [Plan.planFuncEnd, add_records], rfl, rfl⟩

theorem planInstr_records_start (p : Plan) (ii : Nat) (hasTry : Bool) (d : DInstr) (next : Option Nat) :
    p.records <+: (planInstr p ii hasTry d next).records := by
  unfold planInstr
  split
  · simp [Plan.planBlock, Plan.push, add_records]
  · unfold Plan.planLoop
    dsimp only
    split <;> simp [Plan.push, add_records]
  · simp [Plan.planTryTable, Plan.push, add_records, (markAll_fields p _).1]
  · split
    · rename_i g gs hc
      rw [Plan.planEnd_eq p hc]
      have : p.records <+: (p.endRecord g d).records := by
        unfold Plan.endRecord
        dsimp only
        split <;> simp [add_records]
      split
      · rw [add_records]
        exact this.trans (List.prefix_append _ _)
      · exact this
    · simp [Plan.planFuncEnd, add_records]
  · rw [Plan.planPlain_records]
    exact List.prefix_append _ _

theorem planInstr_emitMeter (p : Plan) (ii : Nat) (hasTry : Bool) (d : DInstr) (next : Option Nat) :
    (planInstr p ii hasTry d next).emitMeter = p.emitMeter := by
  have hm : (p.marks d.op).emitMeter = p.emitMeter := by
    cases d.op <;> first | rfl | exact (markAll_fields p _).2.1
  have hf : ∀ q : Plan, (q.planFrames ii d.op).emitMeter = q.emitMeter := by
    intro q
    unfold Plan.planFrames
    split
    · rfl
    · split <;> rfl
    · rfl
  unfold planInstr
  split
  · simp [Plan.planBlock, Plan.push]
  · unfold Plan.planLoop
    dsimp only
    split <;> simp [Plan.push]
  · simp [Plan.planTryTable, Plan.push, (markAll_fields p _).2.1]
  · split
    · rename_i g gs hc
      rw [Plan.planEnd_eq p hc]
      have : (p.endRecord g d).emitMeter = p.emitMeter := by
        unfold Plan.endRecord
        dsimp only
        split <;> simp
      split <;> simp [Plan.leave, this]
    · simp [Plan.planFuncEnd]
  · unfold Plan.planPlain
    dsimp only
    repeat' split
    all_goals simp [hf, hm]

theorem planFrom_emitMeter (marked : List Nat) (ds : List DInstr) :
    ∀ (p : Plan) (ii : Nat), (planFrom marked p ii ds).emitMeter = p.emitMeter := by
  induction ds with
  | nil => exact fun p _ => rfl
  | cons d ds ih => exact fun p ii => (ih _ _).trans (planInstr_emitMeter p ii _ d _)

theorem planOf_emitMeter (fuelMetering : Bool) (ds : List DInstr) : (planOf fuelMetering ds).emitMeter = fuelMetering :=
  planFrom_emitMeter _ ds _ 0

theorem planFrom_records_start (marked : List Nat) (ds : List DInstr) :
    ∀ (p : Plan) (ii : Nat), p.records <+: (planFrom marked p ii ds).records := by
  induction ds with
  | nil => exact fun p _ => List.prefix_refl _
  | cons d ds ih => exact fun p ii => (planInstr_records_start p ii _ d _).trans (ih _ _)

theorem lowerFrom_done {marked : List Nat} {ds : List DInstr} (h : Refines off ii s p)
    (ha : p.AcceptsFrom marked ii ds) (hoff : OffOk off (planFrom marked p ii ds)) :
    Done off (lowerFrom marked s ii ds) (planFrom marked p ii ds) := by
  induction ds generalizing s p ii with
  | nil => exact absurd ha (by simp [Plan.AcceptsFrom])
  | cons d ds ih =>
    cases ds with
    | nil =>
      obtain ⟨hop, hc⟩ := ha
      have hs : s.ctrl = [] := by
        have := h.base.code
        rw [hc] at this
        exact this.ctrl_nil
      simp only [lowerFrom, planFrom, lowerInstr, planInstr, hop, hc, hs] at hoff ⊢
      exact h.funcEnd hc d hoff
    | cons d' ds =>
      obtain ⟨h1, h2⟩ := ha
      have hoff1 : OffOk off (planInstr p ii (decide (ii ∈ marked)) d d'.refMap) :=
        hoff.of_start (planFrom_records_start marked (d' :: ds) _ (ii + 1))
      exact ih (lowerInstr_refines h h1 hoff1) h2 hoff

/-- byte offsets of the records of a plan -/
def Plan.recordOffset (p : Plan) (r : Nat) : Nat := codeSize (layout (p.records.take r))

theorem Plan.offOk_recordOffset (p : Plan) : OffOk p.recordOffset p := fun _ _ => rfl

theorem refines_init (off : Nat → Nat) (fuelMetering : Bool) :
    Refines off 0 { emitMeter := fuelMetering, needNewChunk := fuelMetering }
      { emitMeter := fuelMetering, needNewChunk := fuelMetering } := by
  have ho : ({ emitMeter := fuelMetering, needNewChunk := fuelMetering } : LState).opened = false := by
    cases fuelMetering <;> rfl
  have hm : openMeter { emitMeter := fuelMetering, needNewChunk := fuelMetering } = [] := by simp [openMeter, ho]
  refine ⟨⟨?_, ⟨rfl, fun _ => rfl, fun h => by simpa using h, fun _ _ => rfl, fun h => ?_, fun h => ⟨h, rfl⟩⟩, rfl⟩,
    ⟨by simp [layout], by simp, by simp, by simp, by simp, by simp, by simp, by simp, by simp⟩, fun _ => ho⟩
  · rw [hm]
    exact ⟨rfl, rfl, by simp, rfl, rfl, by simp⟩
  · exact ⟨[], [], ⟨rfl, by simp, by simp, rfl, rfl, rfl, by simp⟩, fun h' => by simp_all⟩

/-- **The pass emits the plan.** For every body whose instructions the plan accepts, the buffer at the end of the pass
is the layout of the plan, every target patched to the offset of its name. -/
theorem lowerFrom_planOf (fuelMetering : Bool) (ds : List DInstr)
    (ha : Plan.AcceptsFrom (loopHasTry ds) { emitMeter := fuelMetering, needNewChunk := fuelMetering } 0 ds) :
    Done (planOf fuelMetering ds).recordOffset
      (lowerFrom (loopHasTry ds) { emitMeter := fuelMetering, needNewChunk := fuelMetering } 0 ds)
      (planOf fuelMetering ds) :=
  lowerFrom_done (refines_init _ fuelMetering) ha (Plan.offOk_recordOffset _)

end Wah
