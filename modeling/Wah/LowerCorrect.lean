/-
The lowering pass emits the records of the plan.

`CodeRel` relates the buffer to a list of instructions with named targets: each frame of the pass holds exactly the
positions of its name. `Refines` adds the chunk being filled; a METER may have been emitted that the plan only
attaches to the next record. Every iteration of the pass keeps it (`lowerInstr_refines`).
-/
import Wah.Patches

namespace Wah

/-! ## Names and frames -/

/-- value of a name, given the offsets of records and the names resolved so far -/
def valuation (off : Nat → Nat) (ends : List (Target × Nat)) : Target → Nat
  | .record r => off r
  | .func => 0
  | t => ((ends.lookup t).map off).getD 0

/-- targets of the instruction being emitted are pending in `ts` -/
structure FrameRel (val : Target → Nat) (c : List (LInstr Target)) (ts : List Target) (f : LFrame) (g : PFrame) :
    Prop where
  opcode : f.opcode = g.opcode
  tryDepth : f.tryDepth = g.tryDepth
  needsTrim : f.needsTrim = g.needsTrim
  isTarget : g.isTarget = decide (0 < f.patches.length)
  patches : f.patches = positions (.endOf g.id) c ++ (occursFrom (.endOf g.id) 0 ts).map (Patch.mk c.length)
  loop : g.opcode = .loop → f.continuation = val (.record g.header)
  falseEdge : g.opcode = .if_ → positions (.falseOf g.id) c = [f.ifFalsePatch] ∧ Target.falseOf g.id ∉ ts
  unresolved : val (.endOf g.id) = 0
  unresolvedFalse : g.opcode = .if_ → val (.falseOf g.id) = 0

/-- the buffer is `c` under the valuation, and the frames hold the positions of their names -/
structure CodeRel (s : LState) (gs : List PFrame) (val : Target → Nat) (c : List (LInstr Target))
    (ts : List Target) : Prop where
  buf : s.buf.map LInstr.strip = c.map (LInstr.map val)
  depth : s.ctrl.length = gs.length
  frames : ∀ (k : Nat) (f : LFrame) (g : PFrame), s.ctrl[k]? = some f → gs[k]? = some g → FrameRel val c ts f g
  func : s.funcEndPatches = positions .func c ++ (occursFrom .func 0 ts).map (Patch.mk c.length)
  funcVal : val .func = 0
  nodup : (gs.map PFrame.id).Nodup

namespace CodeRel

variable {s : LState} {gs : List PFrame} {val : Target → Nat} {c : List (LInstr Target)} {ts : List Target}

theorem length_buf (h : CodeRel s gs val c ts) : s.buf.length = c.length := by
  simpa using congrArg List.length h.buf

theorem bufSize (h : CodeRel s gs val c ts) : s.bufSize = codeSize c := by
  have := congrArg codeSize h.buf
  rwa [codeSize_strip, codeSize_map] at this

/-- only the buffer, the frames and the function's patches matter -/
theorem congr {s' : LState} (h : CodeRel s gs val c ts) (hb : s'.buf.map LInstr.strip = s.buf.map LInstr.strip)
    (hc : s'.ctrl = s.ctrl) (hf : s'.funcEndPatches = s.funcEndPatches) : CodeRel s' gs val c ts :=
  ⟨hb.trans h.buf, hc ▸ h.depth, hc ▸ h.frames, hf ▸ h.func, h.funcVal, h.nodup⟩

theorem positions_snoc (n : Target) (c : List (LInstr Target)) (y : LInstr Target) :
    positions n (c ++ [y]) = positions n c ++ (occursFrom n 0 y.targets).map (Patch.mk c.length) := by
  simp [positions_append, positionsFrom]

/-- emitting the instruction whose targets are pending -/
theorem emit (h : CodeRel s gs val c ts) (x : LInstr Nat) (y : LInstr Target) (hy : y.targets = ts)
    (hx : x.strip = y.map val) : CodeRel (s.emit x) gs val (c ++ [y]) [] where
  buf := by simp [LState.emit, h.buf, hx]
  depth := h.depth
  frames := by
    intro k f g hf hg
    have hfg := h.frames k f g hf hg
    refine ⟨hfg.opcode, hfg.tryDepth, hfg.needsTrim, hfg.isTarget, ?_, hfg.loop, ?_, hfg.unresolved,
      hfg.unresolvedFalse⟩
    · rw [positions_snoc, hy, hfg.patches]
      simp [occursFrom]
    · intro hg
      obtain ⟨h1, h2⟩ := hfg.falseEdge hg
      rw [positions_snoc, hy, h1, occursFrom_eq_nil h2]
      simp
  func := by
    rw [positions_snoc, hy]
    simp [LState.emit, h.func, occursFrom]
  funcVal := h.funcVal
  nodup := h.nodup

theorem occursFrom_snoc (n : Target) (k : Nat) (ts : List Target) (t : Target) :
    occursFrom n k (ts ++ [t]) = occursFrom n k ts ++ (if t = n then [k + ts.length] else []) := by
  induction ts generalizing k with
  | nil => by_cases h : t = n <;> simp [occursFrom, h]
  | cons u us ih =>
    by_cases h : u = n <;> simp [occursFrom, h, ih, Nat.add_assoc, Nat.add_comm 1]

/-- the name of a label among open constructs -/
def labelName (gs : List PFrame) (l : Nat) : Target :=
  match gs[l]? with
  | none => .func
  | some f => if f.opcode = .loop then .record f.header else .endOf f.id

/-- open constructs after a branch at the given `try_table` depth -/
def markFrames (gs : List PFrame) (depth l : Nat) : List PFrame :=
  gs.modify l fun f =>
    { f with needsTrim := f.needsTrim || decide (f.tryDepth < depth)
             isTarget := f.isTarget || decide (f.opcode ≠ .loop) }

theorem map_id_markFrames (gs : List PFrame) (depth l : Nat) :
    (markFrames gs depth l).map PFrame.id = gs.map PFrame.id := by
  apply List.ext_getElem?
  intro k
  simp only [markFrames, List.getElem?_map, List.getElem?_modify]
  cases gs[k]? <;> simp
  split <;> rfl

theorem mark_eq (f : LFrame) (depth : Nat) :
    f.mark depth = { f with needsTrim := f.needsTrim || decide (f.tryDepth < depth) } := by
  by_cases h : f.tryDepth < depth <;> simp [LFrame.mark, h]

/-- the frame a branch leads to, after the branch -/
def branchFrame (f : LFrame) (depth : Nat) (p : Patch) : LFrame :=
  { f with needsTrim := f.needsTrim || decide (f.tryDepth < depth)
           patches := f.patches ++ (if f.opcode = .loop then [] else [p]) }

theorem resolveBranch_frame (s : LState) {slot l : Nat} {f : LFrame} (hf : s.ctrl[l]? = some f) :
    s.resolveBranch slot l =
      ({ s with ctrl := s.ctrl.set l (branchFrame f s.tryDepth ⟨s.buf.length, slot⟩) },
        if f.opcode = .loop then f.continuation else 0) := by
  have hne : l ≠ s.ctrl.length := by
    have := (List.getElem?_eq_some_iff.mp hf).1
    omega
  simp only [LState.resolveBranch, hne, if_false, hf, mark_eq, branchFrame]
  by_cases h : f.opcode = .loop <;> simp [h]

/-- no two open constructs share a name -/
theorem id_ne (h : CodeRel s gs val c ts) {k l : Nat} {g g' : PFrame} (hk : k ≠ l) (hg : gs[k]? = some g)
    (hg' : gs[l]? = some g') : g.id ≠ g'.id := by
  intro hid
  have e := List.nodup_iff_getElem?_ne_getElem?.mp h.nodup
  rcases Nat.lt_or_gt_of_ne hk with hlt | hlt
  · exact e k l hlt (by simpa using (List.getElem?_eq_some_iff.mp hg').1) (by simp [hg, hg', hid])
  · exact e l k hlt (by simpa using (List.getElem?_eq_some_iff.mp hg).1) (by simp [hg, hg', hid])

/-- resolving a branch adds its name to the pending targets -/
theorem resolveBranch (h : CodeRel s gs val c ts) {l : Nat} (hl : l ≤ gs.length) :
    CodeRel (s.resolveBranch ts.length l).1 (markFrames gs s.tryDepth l) val c (ts ++ [labelName gs l]) ∧
      (s.resolveBranch ts.length l).2 = val (labelName gs l) := by
  have hlen := h.length_buf
  rcases Nat.lt_or_eq_of_le hl with hlt | rfl
  · have hlt' : l < s.ctrl.length := h.depth ▸ hlt
    obtain ⟨g, hg⟩ : ∃ g, gs[l]? = some g := ⟨gs[l], List.getElem?_eq_getElem hlt⟩
    obtain ⟨f, hf⟩ : ∃ f, s.ctrl[l]? = some f := ⟨s.ctrl[l], List.getElem?_eq_getElem hlt'⟩
    have hfg := h.frames l f g hf hg
    have hname : labelName gs l = if g.opcode = .loop then .record g.header else .endOf g.id := by
      simp [labelName, hg]
    rw [resolveBranch_frame s hf]
    refine ⟨⟨h.buf, by simp [markFrames, h.depth], ?_, ?_, h.funcVal, ?_⟩, ?_⟩
    · intro k f' g' hf' hg'
      simp only [markFrames, List.getElem?_modify, List.getElem?_set] at hf' hg'
      by_cases hk : l = k
      · subst hk
        simp only [if_true, hlt', hg, Option.map_eq_map, Option.map_some, Option.some.injEq] at hf' hg'
        subst hf' hg'
        refine ⟨hfg.opcode, hfg.tryDepth, by simp [branchFrame, hfg.needsTrim, hfg.tryDepth], ?_, ?_, hfg.loop, ?_,
          hfg.unresolved, hfg.unresolvedFalse⟩
        · by_cases hloop : g.opcode = .loop <;> simp [branchFrame, hfg.opcode, hloop, hfg.isTarget]
        · by_cases hloop : g.opcode = .loop <;>
            simp [branchFrame, hfg.opcode, hloop, hname, occursFrom_snoc, hfg.patches, hlen]
        · intro hif
          have := hfg.falseEdge hif
          exact ⟨this.1, by by_cases hloop : g.opcode = .loop <;> simp [this.2, hname, hloop]⟩
      · simp only [hk, if_false, Option.map_eq_map, Option.map_id'] at hf' hg'
        have hfg' := h.frames k f' g' hf' hg'
        have hid := h.id_ne (Ne.symm hk) hg' hg
        refine ⟨hfg'.opcode, hfg'.tryDepth, hfg'.needsTrim, hfg'.isTarget, ?_, hfg'.loop, ?_, hfg'.unresolved,
          hfg'.unresolvedFalse⟩
        · by_cases hloop : g.opcode = .loop <;>
            simp [hname, hloop, occursFrom_snoc, hfg'.patches, Ne.symm hid]
        · intro hif
          have := hfg'.falseEdge hif
          exact ⟨this.1, by by_cases hloop : g.opcode = .loop <;> simp [this.2, hname, hloop]⟩
    · by_cases hloop : g.opcode = .loop <;> simp [hname, hloop, occursFrom_snoc, h.func]
    · rw [map_id_markFrames]; exact h.nodup
    · by_cases hloop : g.opcode = .loop
      · simp [hname, hfg.opcode, hloop, hfg.loop hloop]
      · simp [hname, hfg.opcode, hloop, hfg.unresolved]
  · have hname : labelName gs gs.length = .func := by simp [labelName]
    have hmark : markFrames gs s.tryDepth gs.length = gs := List.modify_eq_self (Nat.le_refl _)
    have hr : s.resolveBranch ts.length gs.length =
        ({ s with funcEndPatches := s.funcEndPatches ++ [⟨s.buf.length, ts.length⟩] }, 0) := by
      simp [LState.resolveBranch, h.depth]
    rw [hr, hname, hmark]
    refine ⟨⟨h.buf, h.depth, ?_, ?_, h.funcVal, h.nodup⟩, h.funcVal.symm⟩
    · intro k f g hf hg
      have hfg := h.frames k f g hf hg
      refine ⟨hfg.opcode, hfg.tryDepth, hfg.needsTrim, hfg.isTarget, ?_, hfg.loop, ?_, hfg.unresolved,
        hfg.unresolvedFalse⟩
      · simp [occursFrom_snoc, hfg.patches]
      · intro hif
        have := hfg.falseEdge hif
        exact ⟨this.1, by simp [this.2]⟩
    · simp [occursFrom_snoc, h.func, hlen]

@[simp] theorem resolveBranch_tryDepth (s : LState) (slot l : Nat) :
    (s.resolveBranch slot l).1.tryDepth = s.tryDepth := by
  unfold LState.resolveBranch
  dsimp only
  split
  · rfl
  · split
    · rfl
    · split <;> rfl

theorem labelName_markFrames (gs : List PFrame) (depth l k : Nat) :
    labelName (markFrames gs depth l) k = labelName gs k := by
  simp only [labelName, markFrames, List.getElem?_modify]
  cases gs[k]? with
  | none => simp
  | some g => by_cases h : l = k <;> simp [h]

theorem length_markFrames (gs : List PFrame) (depth l : Nat) : (markFrames gs depth l).length = gs.length := by
  simp [markFrames]

/-- a list of labels, as for `br_table` and the clauses of `try_table` -/
theorem resolveBranches {ls : List Nat} (h : CodeRel s gs val c ts) (hl : ∀ l ∈ ls, l ≤ gs.length) :
    CodeRel (s.resolveBranches ts.length ls).1 (ls.foldl (fun gs l => markFrames gs s.tryDepth l) gs) val c
        (ts ++ ls.map (labelName gs)) ∧
      (s.resolveBranches ts.length ls).2 = ls.map fun l => val (labelName gs l) := by
  induction ls generalizing s gs ts with
  | nil => simpa [LState.resolveBranches] using h
  | cons l ls ih =>
    obtain ⟨h1, h2⟩ := h.resolveBranch (hl l (by simp))
    have ih := ih h1 fun l' hl' => by rw [length_markFrames]; exact hl l' (by simp [hl'])
    simp only [List.length_append, List.length_singleton, resolveBranch_tryDepth, labelName_markFrames] at ih
    obtain ⟨h3, h4⟩ := ih
    refine ⟨?_, ?_⟩
    · have : ts ++ (l :: ls).map (labelName gs) = (ts ++ [labelName gs l]) ++ ls.map (labelName gs) := by simp
      rw [this]
      have hfun : labelName (markFrames gs s.tryDepth l) = labelName gs := by
        funext k; exact labelName_markFrames ..
      simpa [LState.resolveBranches, hfun] using h3
    · simp [LState.resolveBranches, h2, h4]

/-! ## Frames -/

/-- a new construct, named by an instruction no target mentions yet -/
theorem push (h : CodeRel s gs val c []) {f : LFrame} {g : PFrame} (hid : ∀ g' ∈ gs, g'.id ≠ g.id)
    (hfg : FrameRel val c [] f g) : CodeRel { s with ctrl := f :: s.ctrl } (g :: gs) val c [] where
  buf := h.buf
  depth := by simp [h.depth]
  frames := by
    intro k f' g' hf' hg'
    cases k with
    | zero =>
      simp only [List.getElem?_cons_zero, Option.some.injEq] at hf' hg'
      exact hf' ▸ hg' ▸ hfg
    | succ k => exact h.frames k f' g' (by simpa using hf') (by simpa using hg')
  func := h.func
  funcVal := h.funcVal
  nodup := by
    refine List.nodup_cons.mpr ⟨?_, h.nodup⟩
    simp only [List.mem_map, not_exists, not_and]
    exact fun g' hg' => hid g' hg'

/-- resolving a name whose positions are patched -/
theorem patch (h : CodeRel s gs val c []) {n : Target} {ps : List Patch} (hps : positions n c = ps) (x : Nat)
    (hend : ∀ g ∈ gs, n ≠ .endOf g.id) (hfalse : ∀ g ∈ gs, g.opcode = .if_ → n ≠ .falseOf g.id)
    (hrec : ∀ r, n ≠ .record r) (hfunc : n ≠ .func) :
    CodeRel { s with buf := LState.applyPatches s.buf ps x } gs (setName val n x) c [] where
  buf := by
    have := applyPatches_positions val n x c []
    simp only [List.append_nil] at this
    rw [strip_applyPatches, h.buf, ← hps, this]
  depth := h.depth
  frames := by
    intro k f g hf hg
    have hfg := h.frames k f g hf hg
    have hmem : g ∈ gs := List.mem_of_getElem? hg
    refine ⟨hfg.opcode, hfg.tryDepth, hfg.needsTrim, hfg.isTarget, hfg.patches, ?_, hfg.falseEdge, ?_, ?_⟩
    · intro hl
      simpa [setName, Ne.symm (hrec g.header)] using hfg.loop hl
    · simpa [setName, Ne.symm (hend g hmem)] using hfg.unresolved
    · intro hif
      simpa [setName, Ne.symm (hfalse g hmem hif)] using hfg.unresolvedFalse hif
  func := h.func
  funcVal := by simpa [setName, Ne.symm hfunc] using h.funcVal
  nodup := h.nodup

/-- the innermost construct is left -/
theorem pop {f : LFrame} {fs : List LFrame} {g : PFrame} (h : CodeRel s (g :: gs) val c []) (hs : s.ctrl = f :: fs) :
    CodeRel { s with ctrl := fs } gs val c [] where
  buf := h.buf
  depth := by
    have := h.depth
    simpa [hs] using this
  frames := by
    intro k f' g' hf' hg'
    exact h.frames (k + 1) f' g' (by simpa [hs] using hf') (by simpa using hg')
  func := h.func
  funcVal := h.funcVal
  nodup := (List.nodup_cons.mp h.nodup).2

theorem head {f : LFrame} {fs : List LFrame} {g : PFrame} (h : CodeRel s (g :: gs) val c ts) (hs : s.ctrl = f :: fs) :
    FrameRel val c ts f g := h.frames 0 f g (by simp [hs]) (by simp)

theorem ctrl_cons {g : PFrame} (h : CodeRel s (g :: gs) val c ts) : ∃ f fs, s.ctrl = f :: fs := by
  have := h.depth
  cases hs : s.ctrl with
  | nil => simp [hs] at this
  | cons f fs => exact ⟨f, fs, rfl⟩

theorem ctrl_nil (h : CodeRel s [] val c ts) : s.ctrl = [] := List.eq_nil_of_length_eq_zero h.depth

end CodeRel

/-! ## Chunks -/

/-- a METER on the first record only -/
def IsChunk (l : List Record) : Prop := ∃ r rs, l = r :: rs ∧ r.meter = true ∧ ∀ r' ∈ rs, r'.meter = false

/-- the record table of a list of records laid out from instruction `idx` on -/
def recTable (idx : Nat) : List Record → List MeterRecord
  | [] => []
  | r :: rs => ⟨idx + r.head.length, r.content.length, r.refMap⟩ :: recTable (idx + r.code.length) rs

/-- length of the POLL before the METER of a chunk -/
def preLen (l : List Record) : Nat := (l.head?.bind Record.pre).toList.length

/-- the chunk table of chunks laid out from record `start` and instruction `idx` on -/
def chunkTable (off : Nat → Nat) (start idx : Nat) : List (List Record) → List MeterChunk
  | [] => []
  | l :: ls =>
    { meter := idx + preLen l, nextFastOffset := off (start + l.length), recordStart := start, cost := l.length,
      recordCount := l.length } :: chunkTable off (start + l.length) (idx + (layout l).length) ls

theorem recTable_append (idx : Nat) (rs rs' : List Record) :
    recTable idx (rs ++ rs') = recTable idx rs ++ recTable (idx + (layout rs).length) rs' := by
  induction rs generalizing idx with
  | nil => simp [recTable, layout]
  | cons r rs ih => simp [recTable, ih, layout, Nat.add_assoc]

theorem chunkTable_append (off : Nat → Nat) (start idx : Nat) (ls ls' : List (List Record)) :
    chunkTable off start idx (ls ++ ls') =
      chunkTable off start idx ls ++ chunkTable off (start + ls.flatten.length) (idx + (layout ls.flatten).length) ls' := by
  induction ls generalizing start idx with
  | nil => simp [chunkTable, layout]
  | cons l ls ih => simp [chunkTable, ih, layout_append, Nat.add_assoc]

theorem IsChunk.ne_nil {l : List Record} (h : IsChunk l) : l ≠ [] := by
  obtain ⟨r, rs, rfl, -, -⟩ := h
  simp

/-- the tables of the pass describe the finished chunks and the records so far -/
structure Tables (off : Nat → Nat) (s : LState) (p : Plan) (closed : List (List Record)) (cur : List Record) :
    Prop where
  split : p.records = closed.flatten ++ cur
  chunks : ∀ l ∈ closed, IsChunk l
  filling : cur ≠ [] → IsChunk cur
  cost : p.cost = cur.length
  records : s.records = recTable 0 p.records
  table : s.chunks = chunkTable off 0 0 closed
  meters : ∀ ch ∈ s.chunks, 0 < ch.cost ∧ s.buf[ch.meter]? = some (.meter ch.cost 0)

/-- the chunk being filled has its METER at instruction `k` and starts with record `start` -/
structure OpenAt (s : LState) (k start : Nat) : Prop where
  meter : s.chunk.meter = k
  start : s.chunk.recordStart = start
  placed : s.buf[k]? = some (.meter 0 0)

/-- where the METER of the chunk being filled stands, if its first record comes after a POLL or not -/
def meterAt (closed : List (List Record)) (cur : List Record) (pre : Nat) : Nat :=
  (layout closed.flatten).length + (if cur = [] then pre else preLen cur)

/-- the metering state of the pass and of the plan; `pre` instructions stand before the record in progress -/
structure MeterRel (off : Nat → Nat) (s : LState) (p : Plan) (pre : Nat) : Prop where
  emit : s.emitMeter = p.emitMeter
  cost : p.emitMeter = true → s.cost = p.cost
  need : p.emitMeter = true → p.needNewChunk = decide (p.cost = 0)
  fresh : p.emitMeter = true → s.needNewChunk = true → s.cost = 0
  tables : p.emitMeter = true → ∃ closed cur, Tables off s p closed cur ∧
    (s.needNewChunk = false → OpenAt s (meterAt closed cur pre) closed.flatten.length)
  off_need : p.emitMeter = false → s.needNewChunk = false ∧ s.cost = 0

/-- a METER has been emitted for a chunk without records -/
def LState.opened (s : LState) : Bool := s.emitMeter && !s.needNewChunk && decide (s.cost = 0)

/-- the metering fields and the METERs of two states agree -/
structure MeterKeep (s s' : LState) : Prop where
  emit : s'.emitMeter = s.emitMeter
  need : s'.needNewChunk = s.needNewChunk
  cost : s'.cost = s.cost
  chunk : s'.chunk = s.chunk
  chunks : s'.chunks = s.chunks
  records : s'.records = s.records
  meters : ∀ k a b : Nat, s.buf[k]? = some (.meter a b) → s'.buf[k]? = some (.meter a b)

theorem MeterKeep.refl (s : LState) : MeterKeep s s := ⟨rfl, rfl, rfl, rfl, rfl, rfl, fun _ _ _ h => h⟩

theorem MeterKeep.trans {s s' s'' : LState} (h : MeterKeep s s') (h' : MeterKeep s' s'') : MeterKeep s s'' :=
  ⟨h'.emit.trans h.emit, h'.need.trans h.need, h'.cost.trans h.cost, h'.chunk.trans h.chunk,
    h'.chunks.trans h.chunks, h'.records.trans h.records, fun k a b hk => h'.meters k a b (h.meters k a b hk)⟩

theorem MeterKeep.emit_instr (s : LState) (x : LInstr Nat) : MeterKeep s (s.emit x) := by
  refine ⟨rfl, rfl, rfl, rfl, rfl, rfl, fun k a b hk => ?_⟩
  have := (List.getElem?_eq_some_iff.mp hk).1
  simp [LState.emit, List.getElem?_append_left this, hk]

theorem getElem?_applyPatches_meter {buf : List (LInstr Nat)} {k a b : Nat} (ps : List Patch) (x : Nat)
    (h : buf[k]? = some (.meter a b)) : (LState.applyPatches buf ps x)[k]? = some (.meter a b) := by
  induction ps generalizing buf with
  | nil => exact h
  | cons p ps ih =>
    refine ih ?_
    simp only [List.getElem?_modify, h]
    split <;> simp [LInstr.setTarget]

theorem MeterRel.keep {off : Nat → Nat} {s s' : LState} {p p' : Plan} {pre : Nat} (h : MeterRel off s p pre)
    (k : MeterKeep s s') (hr : p'.records = p.records) (he : p'.emitMeter = p.emitMeter) (hc : p'.cost = p.cost)
    (hn : p'.needNewChunk = p.needNewChunk) : MeterRel off s' p' pre := by
  refine ⟨by rw [k.emit, he, h.emit], fun e => by rw [k.cost, hc, h.cost (he ▸ e)], ?_, ?_, ?_, ?_⟩
  · intro e; rw [hn, hc]; exact h.need (he ▸ e)
  · intro e hn'; rw [k.cost]; exact h.fresh (he ▸ e) (k.need ▸ hn')
  · intro e
    obtain ⟨closed, cur, ht, ho⟩ := h.tables (he ▸ e)
    refine ⟨closed, cur, ⟨by rw [hr, ht.split], ht.chunks, ht.filling, by rw [hc, ht.cost], by rw [k.records, hr, ht.records],
      by rw [k.chunks, ht.table], ?_⟩, ?_⟩
    · intro ch hch
      rw [k.chunks] at hch
      exact ⟨(ht.meters ch hch).1, k.meters _ _ _ (ht.meters ch hch).2⟩
    · intro hnn
      have ho := ho (k.need ▸ hnn)
      exact ⟨by rw [k.chunk]; exact ho.meter, by rw [k.chunk]; exact ho.start, k.meters _ _ _ ho.placed⟩
  · intro e; rw [k.need, k.cost]; exact h.off_need (he ▸ e)

/-! ## Opening and closing chunks -/

/-- the METER of a chunk without records -/
def openMeter (s : LState) : List (LInstr Target) := if s.opened then [.meter 0 0] else []

section Meter

variable {off : Nat → Nat} {s : LState} {p : Plan} {gs : List PFrame} {val : Target → Nat}
variable {c : List (LInstr Target)}

theorem codeRel_startChunk (h : CodeRel s gs val c []) :
    CodeRel s.startChunk gs val (c ++ if s.emitMeter && s.needNewChunk then [.meter 0 0] else []) [] := by
  unfold LState.startChunk
  split
  · exact (h.emit (.meter 0 0) (.meter 0 0) rfl rfl).congr rfl rfl rfl
  · simpa using h

/-- an emitted METER that is taken back -/
theorem codeRel_retract (h : CodeRel s gs val (c ++ [.meter 0 0]) []) :
    CodeRel { s with buf := s.buf.take c.length, needNewChunk := true } gs val c [] := by
  have hpos : ∀ n, positions n (c ++ [.meter 0 0]) = positions n c := by
    intro n
    simp [CodeRel.positions_snoc, LInstr.targets, occursFrom]
  refine ⟨?_, h.depth, ?_, ?_, h.funcVal, h.nodup⟩
  · have := congrArg (List.take c.length) h.buf
    simpa [List.map_take] using this
  · intro k f g hf hg
    have hfg := h.frames k f g hf hg
    refine ⟨hfg.opcode, hfg.tryDepth, hfg.needsTrim, hfg.isTarget, ?_, hfg.loop, ?_, hfg.unresolved,
      hfg.unresolvedFalse⟩
    · simpa [hpos, occursFrom] using hfg.patches
    · intro hif
      simpa [hpos] using hfg.falseEdge hif
  · simpa [hpos, occursFrom] using h.func

/-- writing the cost of a METER does not change the code -/
theorem strip_modify_meter {buf : List (LInstr Nat)} {k a b cost : Nat} (h : buf[k]? = some (.meter a b)) :
    (buf.modify k fun _ => .meter cost 0).map LInstr.strip = buf.map LInstr.strip := by
  apply List.ext_getElem?
  intro j
  simp only [List.getElem?_map, List.getElem?_modify]
  by_cases hj : k = j
  · subst hj; simp [h, LInstr.strip]
  · simp [hj]

theorem MeterRel.cur_nil {closed : List (List Record)} {cur : List Record} (ht : Tables off s p closed cur)
    (hc : p.cost = 0) : cur = [] := List.eq_nil_of_length_eq_zero (ht.cost ▸ hc)

theorem MeterRel.opened_meter (h : MeterRel off s p 0) (ho : s.opened = true) :
    s.chunk.meter = (layout p.records).length := by
  simp only [LState.opened, Bool.and_eq_true, Bool.not_eq_true', decide_eq_true_eq] at ho
  have he : p.emitMeter = true := h.emit ▸ ho.1.1
  obtain ⟨closed, cur, ht, hopen⟩ := h.tables he
  obtain rfl := MeterRel.cur_nil ht (by rw [← h.cost he]; exact ho.2)
  have := (hopen ho.1.2).meter
  simpa [meterAt, ht.split] using this

/-- the METER of the chunk being filled is in the buffer -/
theorem MeterRel.placed (h : MeterRel off s p 0) (he : s.emitMeter = true) (hc : 0 < s.cost) :
    ∃ a b, s.buf[s.chunk.meter]? = some (.meter a b) := by
  have he' : p.emitMeter = true := h.emit ▸ he
  have hn : s.needNewChunk = false := by
    cases hn : s.needNewChunk with
    | false => rfl
    | true => have := h.fresh he' hn; omega
  obtain ⟨closed, cur, -, hopen⟩ := h.tables he'
  have := hopen hn
  exact ⟨0, 0, by rw [this.meter]; exact this.placed⟩

theorem opened_endChunk (s : LState) : s.endChunk.opened = false := by
  unfold LState.endChunk
  split
  · simp [LState.opened]
  · split
    · simp [LState.opened]
    · rename_i h1 h2
      cases he : s.emitMeter <;> simp_all [LState.opened]

theorem codeRel_endChunk (hc : CodeRel s gs val (layout p.records ++ openMeter s) []) (hm : MeterRel off s p 0) :
    CodeRel s.endChunk gs val (layout p.records) [] := by
  unfold LState.endChunk
  split
  · rename_i h
    simp only [Bool.and_eq_true, decide_eq_true_eq] at h
    obtain ⟨a, b, hab⟩ := hm.placed h.1 h.2
    have ho : openMeter s = [] := by simp [openMeter, LState.opened, Nat.ne_of_gt h.2]
    rw [ho, List.append_nil] at hc
    exact hc.congr (strip_modify_meter hab) rfl rfl
  · split
    · rename_i h1 h2
      have ho : s.opened = true := by
        simp only [Bool.and_eq_true, Bool.not_eq_true', decide_eq_true_eq] at h1 h2
        simp only [LState.opened, h2, Bool.and_true, Bool.not_false, Bool.true_and, decide_eq_true_eq]
        simp only [h2, true_and, Nat.not_lt, Nat.le_zero] at h1
        exact h1
      have hmt := hm.opened_meter ho
      rw [openMeter, if_pos ho] at hc
      rw [hmt]
      exact codeRel_retract hc
    · rename_i h1 h2
      have ho : openMeter s = [] := by
        cases he : s.emitMeter <;> simp_all [openMeter, LState.opened]
      rwa [ho, List.append_nil] at hc

/-- METERs of finished chunks stay when the current one gets its cost -/
theorem Tables.meters_modify {closed : List (List Record)} {cur : List Record} {k cost : Nat}
    (ht : Tables off s p closed cur) (hk : s.buf[k]? = some (.meter 0 0)) :
    ∀ ch ∈ s.chunks, 0 < ch.cost ∧ (s.buf.modify k fun _ => .meter cost 0)[ch.meter]? = some (.meter ch.cost 0) := by
  intro ch hch
  obtain ⟨h0, h1⟩ := ht.meters ch hch
  refine ⟨h0, ?_⟩
  have hne : k ≠ ch.meter := by
    rintro rfl
    rw [hk] at h1
    simp only [Option.some.injEq, LInstr.meter.injEq, and_true] at h1
    omega
  simp [hne, h1]

@[simp] theorem length_recTable (idx : Nat) (rs : List Record) : (recTable idx rs).length = rs.length := by
  induction rs generalizing idx with
  | nil => rfl
  | cons r rs ih => simp [recTable, ih]

theorem length_pre (r : Record) : (r.pre.map (LInstr.poll (τ := Target))).toList.length = r.pre.toList.length := by
  cases r.pre <;> rfl

/-- METERs of the chunk table lie inside the chunks -/
theorem chunkTable_meter_lt (off : Nat → Nat) (ls : List (List Record)) (st idx : Nat) (hls : ∀ l ∈ ls, IsChunk l) :
    ∀ ch ∈ chunkTable off st idx ls, ch.meter < idx + (layout ls.flatten).length := by
  induction ls generalizing st idx with
  | nil => intro ch hch; simp [chunkTable] at hch
  | cons l ls ih =>
    intro ch hch
    simp only [chunkTable, List.mem_cons] at hch
    simp only [List.flatten_cons, layout_append, List.length_append]
    rcases hch with rfl | hch
    · obtain ⟨r, rs, rfl, hm, -⟩ := hls l (by simp)
      have := length_pre r
      have h2 : preLen (r :: rs) = r.pre.toList.length := by simp [preLen]
      have h3 : (layout (r :: rs)).length = r.head.length + r.content.length + (layout rs).length := by
        simp [layout, Record.code, Nat.add_assoc]
      have h4 : r.head.length = r.pre.toList.length + 1 := by simp [Record.head, hm, this]
      simp only [h2, h3, h4]
      omega
    · have := ih (st + l.length) (idx + (layout l).length) (fun l' hl' => hls l' (by simp [hl'])) ch hch
      omega

theorem endChunk_of_cost (hes : s.emitMeter = true) (h0 : 0 < s.cost) :
    s.endChunk =
      { s with
        buf := s.buf.modify s.chunk.meter fun _ => .meter s.cost 0
        chunks := s.chunks ++
          [{ s.chunk with cost := s.cost, recordCount := s.records.length - s.chunk.recordStart,
                          nextFastOffset := s.bufSize }]
        cost := 0, needNewChunk := true } := by
  unfold LState.endChunk
  rw [if_pos (by simp [hes, h0])]

theorem endChunk_of_opened (ho : s.opened = true) :
    s.endChunk = { s with buf := s.buf.take s.chunk.meter, needNewChunk := true } := by
  simp only [LState.opened, Bool.and_eq_true, Bool.not_eq_true', decide_eq_true_eq] at ho
  unfold LState.endChunk
  rw [if_neg (by simp [ho]), if_pos (by simp [ho])]

theorem endChunk_of_not (hc : s.emitMeter = true → s.cost = 0 ∧ s.needNewChunk = true) : s.endChunk = s := by
  unfold LState.endChunk
  cases he : s.emitMeter with
  | false => simp
  | true => simp [hc he]

/-- the chunk being filled is finished -/
theorem Tables.close {closed : List (List Record)} {cur : List Record} (ht : Tables off s p closed cur)
    (ho : OpenAt s (meterAt closed cur 0) closed.flatten.length) (hes : s.emitMeter = true) (h0 : 0 < s.cost)
    (hcost : s.cost = p.cost) (hsize : s.bufSize = off p.size) {q : Plan} (hq : q.records = p.records)
    (hqc : q.cost = 0) : Tables off s.endChunk q (closed ++ [cur]) [] := by
  have hcl : s.cost = cur.length := hcost.trans ht.cost
  have hne : cur ≠ [] := by
    rintro rfl
    simp only [List.length_nil] at hcl
    omega
  have hrl : s.records.length - s.chunk.recordStart = cur.length := by
    rw [ht.records, length_recTable, ht.split, ho.start]
    simp
  have hp : p.size = closed.flatten.length + cur.length := by simp [Plan.size, ht.split]
  have hpl := ho.placed
  rw [← ho.meter] at hpl
  rw [endChunk_of_cost hes h0]
  refine ⟨?_, ?_, by simp, hqc, by rw [hq]; exact ht.records, ?_, ?_⟩
  · simp [hq, ht.split]
  · intro l hl
    simp only [List.mem_append, List.mem_singleton] at hl
    rcases hl with hl | rfl
    · exact ht.chunks l hl
    · exact ht.filling hne
  · rw [chunkTable_append, ← ht.table]
    dsimp only
    rw [hrl, ho.meter, ho.start, hsize, hp, hcl]
    simp [chunkTable, meterAt, hne]
  · intro ch hch
    simp only [List.mem_append, List.mem_singleton] at hch
    rcases hch with hch | rfl
    · exact ht.meters_modify hpl ch hch
    · exact ⟨h0, by simp [hpl]⟩

theorem MeterRel.endChunk (h : MeterRel off s p 0) (hsize : s.emitMeter = true → 0 < s.cost → s.bufSize = off p.size) :
    MeterRel off s.endChunk p.closeChunk 0 := by
  cases he : p.emitMeter with
  | false =>
    have hes : s.emitMeter = false := h.emit.trans he
    simpa [LState.endChunk, Plan.closeChunk, hes, he] using h
  | true =>
    have hes : s.emitMeter = true := h.emit.trans he
    obtain ⟨closed, cur, ht, hopen⟩ := h.tables he
    have hcost := h.cost he
    have hq : p.closeChunk = { p with needNewChunk := true, cost := 0 } := by simp [Plan.closeChunk, he]
    by_cases h0 : 0 < s.cost
    · have hn : s.needNewChunk = false := by
        cases hn : s.needNewChunk with
        | false => rfl
        | true => have := h.fresh he hn; omega
      have ht' := ht.close (hopen hn) hes h0 hcost (hsize hes h0) (q := p.closeChunk) (by rw [hq]) (by rw [hq])
      refine ⟨?_, ?_, ?_, ?_, fun _ => ⟨_, _, ht', ?_⟩, ?_⟩
      · rw [endChunk_of_cost hes h0, hq]; exact hes.trans he.symm
      · intro _; rw [endChunk_of_cost hes h0, hq]
      · intro _; rw [hq]; rfl
      · intro _ _; rw [endChunk_of_cost hes h0]
      · intro e; rw [endChunk_of_cost hes h0] at e; simp at e
      · intro e; rw [hq] at e; simp [he] at e
    · have hc0 : s.cost = 0 := by omega
      obtain rfl := MeterRel.cur_nil ht (by omega)
      have hpc : p.cost = 0 := by omega
      have hp : p.closeChunk = p := by
        have h1 := h.need he
        rw [hpc] at h1
        rw [hq]
        cases p
        simp_all
      rw [hp]
      cases hn : s.needNewChunk with
      | true => rwa [endChunk_of_not fun _ => ⟨hc0, hn⟩]
      | false =>
        have ho := hopen hn
        rw [endChunk_of_opened (by simp [LState.opened, hes, hn, hc0])]
        refine ⟨h.emit, h.cost, h.need, fun _ _ => hc0, fun _ => ⟨closed, [], ?_, by simp⟩, fun e => by simp [he] at e⟩
        refine ⟨ht.split, ht.chunks, ht.filling, ht.cost, ht.records, ht.table, ?_⟩
        intro ch hch
        obtain ⟨h1, h2⟩ := ht.meters ch hch
        have hlt := chunkTable_meter_lt _ closed 0 0 ht.chunks ch (ht.table ▸ hch)
        have hmeter : s.chunk.meter = (layout closed.flatten).length := by simpa [meterAt] using ho.meter
        refine ⟨h1, ?_⟩
        rw [hmeter, List.getElem?_take_of_lt (by simpa using hlt)]
        exact h2

/-! ## One record -/

/-- an optional POLL -/
def emitPre (s : LState) : Option Nat → LState
  | none => s
  | some m => s.emit (.poll m)

/-- what the plan puts before the next record -/
def headOf (p : Plan) (pre : Option Nat) : List (LInstr Target) :=
  (pre.map LInstr.poll).toList ++ (if p.emitMeter && p.needNewChunk then [.meter 0 0] else [])

theorem meterKeep_emitPre (s : LState) (pre : Option Nat) : MeterKeep s (emitPre s pre) := by
  cases pre with
  | none => exact .refl s
  | some m => exact .emit_instr s _

/-- the pass opens a chunk exactly when the plan starts one -/
theorem MeterRel.need_eq (h : MeterRel off s p 0) (ho : s.opened = false) :
    (s.emitMeter && s.needNewChunk) = (p.emitMeter && p.needNewChunk) := by
  cases he : p.emitMeter with
  | false => simp [h.emit.trans he]
  | true =>
    have hes : s.emitMeter = true := h.emit.trans he
    rw [h.need he, ← h.cost he]
    cases hn : s.needNewChunk with
    | true => simp [hes, h.fresh he hn]
    | false =>
      have : s.cost ≠ 0 := by simpa [LState.opened, hes, hn] using ho
      simp [hes, this]

theorem codeRel_begin {pre : Option Nat} (hc : CodeRel s gs val (layout p.records ++ openMeter s) [])
    (hm : MeterRel off s p 0) (hpre : pre.isSome = true → s.opened = false) :
    CodeRel (emitPre s pre).startChunk gs val (layout p.records ++ headOf p pre) [] := by
  cases ho : s.opened with
  | true =>
    obtain rfl : pre = none := by
      cases pre with
      | none => rfl
      | some m => simp [ho] at hpre
    have h' := ho
    simp only [LState.opened, Bool.and_eq_true, Bool.not_eq_true', decide_eq_true_eq] at h'
    have he : p.emitMeter = true := hm.emit ▸ h'.1.1
    have hn : p.needNewChunk = true := by rw [hm.need he, ← hm.cost he]; simp [h'.2]
    have h1 : (emitPre s none).startChunk = s := by simp [emitPre, LState.startChunk, h'.1.2]
    rw [h1]
    simpa [headOf, he, hn, openMeter, ho] using hc
  | false =>
    rw [openMeter, ho] at hc
    simp only [Bool.false_eq_true, if_false, List.append_nil] at hc
    have h1 : CodeRel (emitPre s pre) gs val (layout p.records ++ (pre.map LInstr.poll).toList) [] := by
      cases pre with
      | none => simpa [emitPre] using hc
      | some m => simpa [emitPre] using hc.emit (.poll m) (.poll m) rfl rfl
    have h2 := codeRel_startChunk h1
    have k := meterKeep_emitPre s pre
    rw [k.emit, k.need, hm.need_eq ho] at h2
    simpa [headOf] using h2

theorem startChunk_need (s : LState) (he : s.emitMeter = true) : s.startChunk.needNewChunk = false := by
  unfold LState.startChunk
  split
  · rfl
  · rename_i h
    simpa [he] using h

theorem meterRel_begin {pre : Option Nat} (hc : CodeRel s gs val (layout p.records ++ openMeter s) [])
    (hm : MeterRel off s p 0) (hpre : pre.isSome = true → s.opened = false) :
    MeterRel off (emitPre s pre).startChunk p pre.toList.length := by
  have k := meterKeep_emitPre s pre
  cases he : p.emitMeter with
  | false =>
    have hes : (emitPre s pre).emitMeter = false := k.emit.trans (hm.emit.trans he)
    have h1 : (emitPre s pre).startChunk = emitPre s pre := by simp [LState.startChunk, hes]
    rw [h1]
    have := hm.off_need he
    exact ⟨hes.trans he.symm, by simp [he], by simp [he], by simp [he], by simp [he],
      fun _ => ⟨k.need.trans this.1, k.cost.trans this.2⟩⟩
  | true =>
    have hes : (emitPre s pre).emitMeter = true := k.emit.trans (hm.emit.trans he)
    obtain ⟨closed, cur, ht, hopen⟩ := hm.tables he
    cases hn : s.needNewChunk with
    | true =>
      have hc0 := hm.fresh he hn
      obtain rfl := MeterRel.cur_nil ht (by rw [← hm.cost he]; exact hc0)
      have ho : s.opened = false := by simp [LState.opened, hn]
      rw [openMeter, ho] at hc
      have hlen : (emitPre s pre).buf.length = (layout p.records).length + pre.toList.length := by
        have := hc.length_buf
        cases pre <;> simp [emitPre, LState.emit, this]
      have hsc : (emitPre s pre).startChunk =
          { emitPre s pre with
            chunk := { meter := (emitPre s pre).buf.length, recordStart := (emitPre s pre).records.length },
            buf := (emitPre s pre).buf ++ [.meter 0 0], cost := 0, needNewChunk := false } := by
        unfold LState.startChunk
        rw [if_pos (by simp [hes, k.need, hn])]
      rw [hsc]
      refine ⟨hes.trans he.symm, fun _ => by rw [← hm.cost he, hc0], hm.need, fun _ e => by simp at e,
        fun _ => ⟨closed, [], ?_, fun _ => ?_⟩, fun e => by simp [he] at e⟩
      · refine ⟨ht.split, ht.chunks, ht.filling, ht.cost, k.records.trans ht.records, k.chunks.trans ht.table, ?_⟩
        intro ch hch
        obtain ⟨h1, h2⟩ := ht.meters ch (k.chunks ▸ hch)
        have h3 := k.meters _ _ _ h2
        refine ⟨h1, ?_⟩
        rw [List.getElem?_append_left (List.getElem?_eq_some_iff.mp h3).1]
        exact h3
      · refine ⟨?_, ?_, ?_⟩
        · simp [meterAt, hlen, ht.split]
        · simp [k.records, ht.records, ht.split]
        · have : meterAt closed [] pre.toList.length = (emitPre s pre).buf.length := by
            simp [meterAt, hlen, ht.split]
          rw [this]
          simp
    | false =>
      have h1 : (emitPre s pre).startChunk = emitPre s pre := by simp [LState.startChunk, k.need, hn]
      rw [h1]
      have hk := hm.keep k rfl rfl rfl rfl
      refine ⟨hk.emit, hk.cost, hk.need, hk.fresh, fun _ => ?_, hk.off_need⟩
      obtain ⟨closed, cur, ht, hopen⟩ := hk.tables he
      refine ⟨closed, cur, ht, fun e => ?_⟩
      have ho := hopen e
      -- a chunk without records is never followed by a POLL
      by_cases hcur : cur = []
      · subst hcur
        have hc0 : s.cost = 0 := by rw [hm.cost he, ht.cost]; rfl
        have hop : s.opened = true := by simp [LState.opened, hm.emit.trans he, hn, hc0]
        have : pre = none := by
          cases pre with
          | none => rfl
          | some m => simp [hop] at hpre
        subst this
        exact ho
      · have : meterAt closed cur pre.toList.length = meterAt closed cur 0 := by simp [meterAt, hcur]
        rw [this]
        exact ho

theorem head_newRecord (p : Plan) (pre poll : Option Nat) (main : Option (LInstr Target)) (map : Option Nat) :
    (newRecord p pre poll main map).head = headOf p pre := rfl

/-- a record without the split at the largest cost -/
def addBase (p : Plan) (pre poll : Option Nat) (main : Option (LInstr Target)) (map : Option Nat) : Plan :=
  if p.emitMeter then
    { p with records := p.records ++ [newRecord p pre poll main map], needNewChunk := false,
             cost := (if p.needNewChunk then 0 else p.cost) + 1 }
  else { p with records := p.records ++ [newRecord p pre poll main map] }

theorem add_eq (p : Plan) (pre poll : Option Nat) (main : Option (LInstr Target)) (map : Option Nat) :
    p.add pre poll main map =
      if p.emitMeter = true ∧ (addBase p pre poll main map).cost = uint16Max then
        (addBase p pre poll main map).closeChunk
      else addBase p pre poll main map := by
  unfold Plan.add addBase newRecord Plan.closeChunk
  cases he : p.emitMeter with
  | false => simp
  | true => by_cases hc : (if p.needNewChunk then 0 else p.cost) + 1 = uint16Max <;> simp [hc]

/-- the record of the pass before the split -/
def recordBase (s : LState) (start : Nat) (map : Option Nat) : LState :=
  if s.emitMeter then
    { s with records := s.records ++ [⟨start, s.buf.length - start, map.getD uint32Max⟩], cost := s.cost + 1 }
  else s

theorem recordEnd_eq (s : LState) (start : Nat) (map : Option Nat) :
    s.recordEnd start map =
      if s.emitMeter = true ∧ (recordBase s start map).cost = uint16Max then (recordBase s start map).endChunk
      else recordBase s start map := by
  unfold LState.recordEnd recordBase
  cases he : s.emitMeter <;> simp

theorem meterRel_recordBase {pre poll : Option Nat} {main : Option (LInstr Target)} {map : Option Nat} {start : Nat}
    (hm : MeterRel off s p pre.toList.length) (hopen : p.emitMeter = true → s.needNewChunk = false)
    (hstart : start = (layout p.records ++ headOf p pre).length)
    (hlen : s.buf.length = start + (newRecord p pre poll main map).content.length) :
    MeterRel off (recordBase s start map) (addBase p pre poll main map) 0 := by
  cases he : p.emitMeter with
  | false =>
    have hes := hm.emit.trans he
    have h1 : recordBase s start map = s := by simp [recordBase, hes]
    have h2 : (addBase p pre poll main map).emitMeter = false := by simp [addBase, he]
    rw [h1]
    exact ⟨hes.trans h2.symm, by simp [h2], by simp [h2], by simp [h2], by simp [h2], fun _ => hm.off_need he⟩
  | true =>
    have hes := hm.emit.trans he
    have hn := hopen he
    obtain ⟨closed, cur, ht, ho⟩ := hm.tables he
    have ho := ho hn
    have hneed : p.needNewChunk = decide (cur = []) := by
      rw [hm.need he, ht.cost]
      simp
    have hcost : s.cost = cur.length := (hm.cost he).trans ht.cost
    have hcost' : (if p.needNewChunk then 0 else p.cost) + 1 = cur.length + 1 := by
      rw [hneed]
      by_cases hc : cur = [] <;> simp [hc, ht.cost]
    have h1 : recordBase s start map =
        { s with records := s.records ++ [⟨start, s.buf.length - start, map.getD uint32Max⟩], cost := s.cost + 1 } := by
      simp [recordBase, hes]
    have h2 : addBase p pre poll main map =
        { p with records := p.records ++ [newRecord p pre poll main map], needNewChunk := false,
                 cost := (if p.needNewChunk then 0 else p.cost) + 1 } := by
      simp [addBase, he]
    rw [h1, h2]
    refine ⟨hm.emit, fun _ => ?_, fun _ => by simp, fun _ e => ?_, fun _ => ?_, fun e => ?_⟩
    · simp only [hcost', hcost]
    · simp [hn] at e
    · set r := newRecord p pre poll main map with hr
      refine ⟨closed, cur ++ [r], ⟨?_, ht.chunks, fun _ => ?_, ?_, ?_, ht.table, ht.meters⟩, fun _ => ?_⟩
      · simp [ht.split]
      · by_cases hc : cur = []
        · subst hc
          exact ⟨r, [], rfl, by simp [hr, newRecord, he, hneed], by simp⟩
        · obtain ⟨r0, rs, rfl, hm0, hrs⟩ := ht.filling hc
          refine ⟨r0, rs ++ [r], by simp, hm0, ?_⟩
          intro r' hr'
          simp only [List.mem_append, List.mem_singleton] at hr'
          rcases hr' with hr' | rfl
          · exact hrs r' hr'
          · simp [hr, newRecord, hneed]
      · simp only [hcost', List.length_append, List.length_singleton]
      · rw [recTable_append, ht.records]
        have : (layout p.records ++ headOf p pre).length = (layout p.records).length + r.head.length := by
          rw [hr, head_newRecord]; simp
        simp [recTable, hstart, hlen, this, hr, newRecord]
      · refine ⟨?_, ho.start, ?_⟩
        all_goals
          have : meterAt closed (cur ++ [r]) 0 = meterAt closed cur pre.toList.length := by
            by_cases hc : cur = []
            · simp [meterAt, hc, preLen, hr, newRecord]
            · obtain ⟨r0, rs, rfl, -, -⟩ := ht.filling hc
              simp [meterAt, preLen]
          rw [this]
        · exact ho.meter
        · exact ho.placed
    · simp [he] at e

theorem codeRel_recordBase (h : CodeRel s gs val c []) (start : Nat) (map : Option Nat) :
    CodeRel (recordBase s start map) gs val c [] := by
  unfold recordBase
  split
  · exact h.congr rfl rfl rfl
  · exact h

/-! ## The invariant of the pass -/

/-- the pass has emitted the records of the plan -/
structure Base (off : Nat → Nat) (s : LState) (p : Plan) : Prop where
  code : CodeRel s p.ctrl (valuation off p.ends) (layout p.records ++ openMeter s) []
  meter : MeterRel off s p 0
  tryDepth : s.tryDepth = p.tryDepth

theorem opened_recordBase (s : LState) (start : Nat) (map : Option Nat) : (recordBase s start map).opened = false := by
  unfold recordBase
  cases he : s.emitMeter <;> simp [LState.opened, he]

/-- what `endChunk` and `recordBase` leave alone -/
theorem endChunk_tryDepth (s : LState) : s.endChunk.tryDepth = s.tryDepth := by
  unfold LState.endChunk
  repeat' split
  all_goals rfl

theorem recordBase_tryDepth (s : LState) (start : Nat) (map : Option Nat) :
    (recordBase s start map).tryDepth = s.tryDepth := by
  unfold recordBase
  split <;> rfl

theorem closeChunk_fields (p : Plan) :
    p.closeChunk.records = p.records ∧ p.closeChunk.ctrl = p.ctrl ∧ p.closeChunk.tryDepth = p.tryDepth ∧
      p.closeChunk.ends = p.ends ∧ p.closeChunk.emitMeter = p.emitMeter := by
  unfold Plan.closeChunk
  split <;> simp

theorem Base.endChunk (h : Base off s p) (hoff : off p.size = codeSize (layout p.records)) :
    Base off s.endChunk p.closeChunk := by
  obtain ⟨h1, h2, h3, h4, -⟩ := closeChunk_fields p
  have ho : openMeter s.endChunk = [] := by simp [openMeter, opened_endChunk]
  refine ⟨?_, ?_, ?_⟩
  · rw [h1, h2, h4, ho, List.append_nil]
    exact codeRel_endChunk h.code h.meter
  · refine h.meter.endChunk fun _ hc => ?_
    have : openMeter s = [] := by simp [openMeter, LState.opened, Nat.ne_of_gt hc]
    rw [h.code.bufSize, this, List.append_nil, hoff]
  · rw [endChunk_tryDepth, h3, h.tryDepth]

theorem addBase_fields (p : Plan) (pre poll : Option Nat) (main : Option (LInstr Target)) (map : Option Nat) :
    (addBase p pre poll main map).records = p.records ++ [newRecord p pre poll main map] ∧
      (addBase p pre poll main map).ctrl = p.ctrl ∧ (addBase p pre poll main map).tryDepth = p.tryDepth ∧
      (addBase p pre poll main map).ends = p.ends ∧ (addBase p pre poll main map).emitMeter = p.emitMeter := by
  unfold addBase
  split <;> simp

/-- a record is complete: its bytes are in the buffer, and the frames have changed from those of `q` to those of `p` -/
theorem Base.record {q : Plan} {pre poll : Option Nat} {main : Option (LInstr Target)} {map : Option Nat} {start : Nat}
    (hc : CodeRel s p.ctrl (valuation off p.ends)
      (layout p.records ++ headOf p pre ++ (newRecord p pre poll main map).content) [])
    (hm : MeterRel off s p pre.toList.length) (hopen : p.emitMeter = true → s.needNewChunk = false)
    (hstart : start = (layout p.records ++ headOf p pre).length) (ht : s.tryDepth = p.tryDepth)
    (hq : q = p.add pre poll main map) (hoff : off q.size = codeSize (layout q.records)) :
    Base off (s.recordEnd start map) q := by
  subst hq
  have hlen : s.buf.length = start + (newRecord p pre poll main map).content.length := by
    rw [hc.length_buf, hstart]; simp [Nat.add_assoc]
  obtain ⟨f1, f2, f3, f4, f5⟩ := addBase_fields p pre poll main map
  have hcode : layout (addBase p pre poll main map).records =
      layout p.records ++ headOf p pre ++ (newRecord p pre poll main map).content := by
    rw [f1, layout_append, layout_singleton, Record.code, head_newRecord, List.append_assoc]
  have hbase : Base off (recordBase s start map) (addBase p pre poll main map) := by
    refine ⟨?_, meterRel_recordBase hm hopen hstart hlen, ?_⟩
    · have ho : openMeter (recordBase s start map) = [] := by simp [openMeter, opened_recordBase]
      rw [ho, List.append_nil, f2, f4, hcode]
      exact codeRel_recordBase hc start map
    · rw [recordBase_tryDepth, f3, ht]
  rw [recordEnd_eq, add_eq]
  rw [add_eq] at hoff
  have hcost : s.emitMeter = true → (recordBase s start map).cost = (addBase p pre poll main map).cost := by
    intro he
    exact hbase.meter.cost (by rw [f5, ← hm.emit]; exact he)
  by_cases h : p.emitMeter = true ∧ (addBase p pre poll main map).cost = uint16Max
  · have h' : s.emitMeter = true ∧ (recordBase s start map).cost = uint16Max := by
      have he : s.emitMeter = true := hm.emit.trans h.1
      exact ⟨he, (hcost he).trans h.2⟩
    rw [if_pos h, if_pos h']
    rw [if_pos h] at hoff
    refine hbase.endChunk ?_
    have e := (closeChunk_fields (addBase p pre poll main map)).1
    simpa [Plan.size, e] using hoff
  · have h' : ¬(s.emitMeter = true ∧ (recordBase s start map).cost = uint16Max) := by
      rintro ⟨he, hx⟩
      exact h ⟨hm.emit ▸ he, (hcost he) ▸ hx⟩
    rw [if_neg h, if_neg h']
    exact hbase

end Meter

end Wah
