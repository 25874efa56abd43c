/-
Lowering of analyzed code in one pass with backpatching, and the slow islands of fuel metering.

The growable byte buffer is a list of lowered instructions, each with its size in bytes; offsets are sums of sizes
and jump targets are byte offsets. A patch position is an instruction of the buffer and the number of the target
inside it. `lowerAnalyzedCode` is `wah_lower_analyzed_code` without its stack maps, which only feed the debug checker.

- `LState.startChunk`, `endChunk`, `recordEnd`: the `WAH_METER_*` macros. An empty chunk is retracted.
- `LState.resolveBranch`, `finishFrame`: the `WAH_LOWER_*` macros for labels.
- `lowerInstr`: one iteration of the pass; `islands`: the second phase.
-/
import Wah.Analyze

namespace Wah

/-! ## Lowered instructions -/

/-- a clause in the catch table of a lowered `TRY_TABLE` -/
structure LCatch (τ : Type) where
  kind : CatchKind
  tag : Nat
  target : τ
  drop : Nat
deriving DecidableEq, Repr

/-- lowered instructions over targets `τ`: byte offsets, or names of positions -/
inductive LInstr (τ : Type) where
  | poll (map : Nat)
  | meter (cost slow : Nat)
  | tick (map : Nat)
  /-- bulk operations end with their ref map -/
  | op (i : Instr) (map : Option Nat)
  | if_ (t : τ) | else_ (t : τ)
  | br (t : τ) (keep drop : Nat) | brIf (t : τ) (keep drop : Nat)
  | brOnNull (t : τ) (keep drop : Nat) | brOnNonNull (t : τ) (keep drop : Nat)
  | brOnCast (fail dstNull : Bool) (dst : HeapTy) (t : τ) (keep drop : Nat)
  | brTable (keep : Nat) (targets : List Nat) (records : List (τ × Nat))
  | tryTable (catches : List (LCatch τ))
  | endTryTable
  | trimHandlers (depth : Nat)
  | end_
deriving DecidableEq, Repr

/-- bytes of a data instruction without its ref map, by `wah_opclasses` -/
def PlainOp.size : PlainOp → Nat
  | .numeric _ _ | .f32DemoteF64 | .f64PromoteF32 | .refEq | .refI31 | .i31Get _ => 2
  | .load _ m | .store _ m => if m.memidx = 0 then 10 else 14
  | .loadLane _ m _ | .storeLane _ m _ => if m.memidx = 0 then 11 else 15
  | .extractLane _ _ _ | .replaceLane _ _ => 3
  | .shuffle _ | .v128Const _ => 18
  | .memoryInit _ _ | .memoryCopy _ _ | .tableCopy _ _ | .tableInit _ _ => 10
  | .i64Const _ | .f64Const _ | .arrayNewData _ _ | .arrayNewElem _ _ | .arrayInitData _ _ => 10
  | .arrayGet _ | .arrayGetPacked _ _ | .arraySet _ | .arrayCopy _ _ => 2
  | _ => 6

def DataOp.size : DataOp → Nat
  | .plain p => p.size
  | .structNew _ | .refTest _ _ | .refCast _ _ => 6
  | .arrayNewFixed _ _ => 10
  | _ => 2

def Instr.size : Instr → Nat
  | .data d => d.size
  | .localGet _ | .localSet _ | .localTee _ | .throw _ => 6
  | .call (.indirect _ _) | .returnCall (.indirect _ _) => 10
  | .call _ | .returnCall _ => 6
  | _ => 2

namespace LInstr

variable {τ : Type}

/-- size in bytes -/
def size : LInstr τ → Nat
  | .poll _ | .tick _ | .if_ _ | .else_ _ | .trimHandlers _ => 6
  | .meter _ _ => 8
  | .op i map => i.size + (if map.isSome then 4 else 0)
  | .br _ _ _ | .brIf _ _ _ | .brOnNull _ _ _ | .brOnNonNull _ _ _ => 14
  | .brOnCast _ _ _ _ _ _ => 19
  | .brTable _ targets records => 10 + 2 * targets.length + 8 * records.length
  | .tryTable catches => 6 + 13 * catches.length
  | .endTryTable | .end_ => 2

/-- writes the `k`-th target -/
def setTarget (k : Nat) (t : τ) : LInstr τ → LInstr τ
  | .if_ _ => .if_ t
  | .else_ _ => .else_ t
  | .br _ keep drop => .br t keep drop
  | .brIf _ keep drop => .brIf t keep drop
  | .brOnNull _ keep drop => .brOnNull t keep drop
  | .brOnNonNull _ keep drop => .brOnNonNull t keep drop
  | .brOnCast fail dn dst _ keep drop => .brOnCast fail dn dst t keep drop
  | .brTable keep targets records => .brTable keep targets (records.modify k fun r => (t, r.2))
  | .tryTable catches => .tryTable (catches.modify k fun c => { c with target := t })
  | i => i

/-- control never runs past it -/
def noFallthrough : LInstr τ → Bool
  | .br _ _ _ | .brTable _ _ _ | .end_ => true
  | .op .return_ _ | .op (.returnCall _) _ | .op .unreachable _ | .op (.throw _) _ | .op .throwRef _ => true
  | _ => false

end LInstr

/-- bytes taken by a list of instructions -/
def codeSize {τ : Type} (code : List (LInstr τ)) : Nat := (code.map LInstr.size).sum

/-! ## State of the pass -/

/-- a target of an emitted instruction -/
structure Patch where
  instr : Nat
  slot : Nat
deriving DecidableEq, Repr

/-- `cf->opcode`; ELSE replaces IF when met -/
inductive LFrameOp where
  | block | loop | if_ | else_ | tryTable
deriving DecidableEq, Repr

/-- `wah_lower_cf_t` -/
structure LFrame where
  opcode : LFrameOp
  /-- for loops: offset of the header -/
  continuation : Nat
  /-- for `if`: position of the false edge -/
  ifFalsePatch : Patch := ⟨0, 0⟩
  patches : List Patch := []
  tryDepth : Nat
  needsTrim : Bool := false
deriving DecidableEq, Repr

/-- a branch from inside `depth` try_tables makes the end of the frame drop handlers -/
def LFrame.mark (f : LFrame) (depth : Nat) : LFrame :=
  if f.tryDepth < depth then { f with needsTrim := true } else f

/-- `wah_meter_instr_record_t`, as a range of the buffer -/
structure MeterRecord where
  start : Nat
  count : Nat
  refMap : Nat
deriving DecidableEq, Repr

/-- `wah_meter_chunk_t`; the METER is named by its place in the buffer -/
structure MeterChunk where
  meter : Nat
  nextFastOffset : Nat := 0
  recordStart : Nat
  cost : Nat := 0
  recordCount : Nat := 0
deriving DecidableEq, Repr

structure LState where
  buf : List (LInstr Nat) := []
  ctrl : List LFrame := []
  tryDepth : Nat := 0
  funcEndPatches : List Patch := []
  /-- `emit_meter` -/
  emitMeter : Bool := false
  needNewChunk : Bool := false
  cost : Nat := 0
  chunk : MeterChunk := ⟨0, 0, 0, 0, 0⟩
  chunks : List MeterChunk := []
  records : List MeterRecord := []
deriving DecidableEq, Repr

def meterMaxChunkCost : Nat := 100
def uint16Max : Nat := 65535
def uint32Max : Nat := 4294967295

namespace LState

/-- `buf_size` -/
def bufSize (s : LState) : Nat := codeSize s.buf

def emit (s : LState) (i : LInstr Nat) : LState := { s with buf := s.buf ++ [i] }

/-- `WAH_EMIT_POLL` -/
def emitPoll (s : LState) (map : Option Nat) : LState := s.emit (.poll (map.getD uint32Max))

/-- `WAH_LOWER_APPLY_PATCHES` -/
def applyPatches (buf : List (LInstr Nat)) (ps : List Patch) (target : Nat) : List (LInstr Nat) :=
  ps.foldl (fun b p => b.modify p.instr (LInstr.setTarget p.slot target)) buf

/-- `WAH_METER_START_CHUNK` -/
def startChunk (s : LState) : LState :=
  if s.emitMeter && s.needNewChunk then
    { s with chunk := { meter := s.buf.length, recordStart := s.records.length },
             buf := s.buf ++ [.meter 0 0], cost := 0, needNewChunk := false }
  else s

/-- `WAH_METER_END_CHUNK`: patches the cost, or retracts an empty chunk -/
def endChunk (s : LState) : LState :=
  if s.emitMeter && decide (0 < s.cost) then
    { s with
      buf := s.buf.modify s.chunk.meter fun _ => .meter s.cost 0
      chunks := s.chunks ++
        [{ s.chunk with cost := s.cost, recordCount := s.records.length - s.chunk.recordStart,
                        nextFastOffset := s.bufSize }]
      cost := 0, needNewChunk := true }
  else if s.emitMeter && !s.needNewChunk then
    { s with buf := s.buf.take s.chunk.meter, needNewChunk := true }
  else s

/-- `WAH_METER_RECORD_INSTR_END`, for a record that started at `start` -/
def recordEnd (s : LState) (start : Nat) (map : Option Nat) : LState :=
  if s.emitMeter then
    let s := { s with records := s.records ++ [⟨start, s.buf.length - start, map.getD uint32Max⟩], cost := s.cost + 1 }
    if s.cost = uint16Max then s.endChunk else s
  else s

/-- `WAH_LOWER_PUSH_FRAME` -/
def pushFrame (s : LState) (opcode : LFrameOp) : LState :=
  { s with ctrl := { opcode := opcode, continuation := s.bufSize, tryDepth := s.tryDepth } :: s.ctrl }

/-- `WAH_LOWER_RESOLVE_BRANCH` for target `slot` of the next instruction: the offset written for now -/
def resolveBranch (s : LState) (slot l : Nat) : LState × Nat :=
  let p : Patch := ⟨s.buf.length, slot⟩
  if l = s.ctrl.length then ({ s with funcEndPatches := s.funcEndPatches ++ [p] }, 0)
  else
    match s.ctrl[l]? with
    | none => (s, 0)
    | some f =>
      let f := f.mark s.tryDepth
      if f.opcode = .loop then ({ s with ctrl := s.ctrl.set l f }, f.continuation)
      else ({ s with ctrl := s.ctrl.set l { f with patches := f.patches ++ [p] } }, 0)

/-- resolves a list of labels into consecutive targets -/
def resolveBranches (s : LState) (slot : Nat) : List Nat → LState × List Nat
  | [] => (s, [])
  | l :: ls =>
    let r := s.resolveBranch slot l
    let rs := r.1.resolveBranches (slot + 1) ls
    (rs.1, r.2 :: rs.2)

/-- `WAH_LOWER_FINISH_FRAME` -/
def finishFrame (s : LState) (endPos : Nat) : LState :=
  match s.ctrl with
  | [] => s
  | f :: fs =>
    let buf := applyPatches s.buf f.patches endPos
    let buf := if f.opcode = .if_ then applyPatches buf [f.ifFalsePatch] endPos else buf
    { s with buf := buf, ctrl := fs }

end LState

/-! ## Loops around try_tables -/

/-- marks open loops outwards, up to one that is already marked -/
def markLoops (isLoop : Nat → Bool) (marked : List Nat) : List Nat → List Nat
  | [] => marked
  | k :: ks =>
    if !isLoop k then markLoops isLoop marked ks
    else if k ∈ marked then marked
    else markLoops isLoop (k :: marked) ks

def DOp.isLoop : DOp → Bool
  | .loop _ => true
  | _ => false

/-- one instruction of the scan for `loop_has_try`: open constructs and marked loops -/
def scanTry (ds : List DInstr) (st : List Nat × List Nat) (ii : Nat) (d : DOp) : List Nat × List Nat :=
  match d with
  | .block _ | .loop _ | .if_ _ => (ii :: st.1, st.2)
  | .tryTable _ _ =>
    (ii :: st.1, markLoops (fun k => ((ds[k]?).map fun d => d.op.isLoop).getD false) st.2 st.1)
  | .end_ => (st.1.tail, st.2)
  | _ => st

/-- `loop_has_try`: indices of loops that contain a `try_table` -/
def loopHasTry (ds : List DInstr) : List Nat :=
  ((ds.zipIdx).foldl (fun st d => scanTry ds st d.2 d.1.op) ([], [])).2

/-! ## One instruction -/

/-- branches, calls, returns and throws: a long chunk ends after them -/
def DOp.endsLongChunk : DOp → Bool
  | .br _ _ _ | .brIf _ _ _ | .brOnNull _ _ _ | .brOnNonNull _ _ _ | .brOnCast _ _ _ _ _ _ | .brTable _ | .if_ _ => true
  | .op (.call _) | .op (.returnCall _) | .op .return_ | .op (.throw _) | .op .throwRef => true
  | _ => false

namespace LState

/-- BLOCK and LOOP: a polled loop starts a chunk of its own, at its POLL -/
def lowerBlock (s : LState) (isLoop hasTry : Bool) (d : DInstr) : LState :=
  let s := if d.poll && isLoop then s.endChunk else s
  let continuation := s.bufSize
  let s :=
    if d.poll then
      let s := s.emitPoll d.refMap
      if isLoop then { s with needNewChunk := s.emitMeter } else s
    else s
  let s := s.startChunk
  let start := s.buf.length
  let s := s.pushFrame (if isLoop then .loop else .block)
  let s :=
    if isLoop then
      let s := { s with ctrl := s.ctrl.modify 0 fun f => { f with continuation := continuation } }
      if hasTry then s.emit (.trimHandlers s.tryDepth) else s
    else s
  s.recordEnd start d.refMap

/-- TRY_TABLE: catch targets are resolved outside of its own frame -/
def lowerTryTable (s : LState) (d : DInstr) (cs : List DCatch) : LState :=
  let s := if d.poll then s.emitPoll d.refMap else s
  let s := s.startChunk
  let start := s.buf.length
  let r := s.resolveBranches 0 (cs.map DCatch.label)
  let s := r.1.emit (.tryTable ((cs.zip r.2).map fun p => ⟨p.1.kind, p.1.tag, p.2, p.1.drop⟩))
  let s := s.pushFrame .tryTable
  let s := { s with tryDepth := s.tryDepth + 1 }
  s.recordEnd start d.refMap

/-- an inner END: a branch target starts a new chunk, and drops the handlers branches may have left -/
def lowerEnd (s : LState) (f : LFrame) (d : DInstr) (next : Option Nat) : LState :=
  let trim := f.needsTrim && decide (f.opcode ≠ .loop)
  let isTarget := decide (0 < f.patches.length) || decide (f.opcode = .if_)
  let s := s.startChunk
  let start := s.buf.length
  let s := if f.opcode = .tryTable then { s.emit .endTryTable with tryDepth := s.tryDepth - 1 } else s
  let s := s.recordEnd start d.refMap
  let endPos := s.bufSize
  let s := if s.emitMeter && isTarget then s.endChunk.startChunk else s
  let endPos := if s.emitMeter && isTarget then codeSize (s.buf.take s.chunk.meter) else endPos
  let s := s.finishFrame endPos
  if trim then
    let start := s.buf.length
    (s.emit (.trimHandlers f.tryDepth)).recordEnd start next
  else s

/-- the function's END, on which branches to the function label land -/
def lowerFuncEnd (s : LState) (d : DInstr) : LState :=
  let s := s.startChunk
  let start := s.buf.length
  let s := (s.emit .end_).recordEnd start d.refMap
  let s := s.endChunk
  { s with buf := applyPatches s.buf s.funcEndPatches (s.bufSize - 2) }

/-- a branch with one target -/
def lowerBranch (s : LState) (l : Nat) (mk : Nat → LInstr Nat) : LState :=
  let r := s.resolveBranch 0 l
  r.1.emit (mk r.2)

/-- IF: the false edge is patched at ELSE or END -/
def lowerIf (s : LState) : LState :=
  let p : Patch := ⟨s.buf.length, 0⟩
  let s := (s.emit (.if_ 0)).pushFrame .if_
  { s with ctrl := s.ctrl.modify 0 fun f => { f with ifFalsePatch := p } }

/-- ELSE: jumps to the end, and is where the false edge of its IF lands -/
def lowerElse (s : LState) : LState :=
  match s.ctrl with
  | [] => s
  | f :: fs =>
    let p : Patch := ⟨s.buf.length, 0⟩
    let s := s.emit (.else_ 0)
    { s with buf := applyPatches s.buf [f.ifFalsePatch] s.bufSize,
             ctrl := { f with opcode := .else_, ifFalsePatch := ⟨0, 0⟩, patches := f.patches ++ [p] } :: fs }

/-- BR_TABLE: one offset per record -/
def lowerBrTable (s : LState) (imm : BrTableImm) : LState :=
  let r := s.resolveBranches 0 (imm.records.map Prod.fst)
  r.1.emit (.brTable imm.keep imm.targets (r.2.zip (imm.records.map Prod.snd)))

/-- the opcode and its immediates -/
def lowerOp (s : LState) (d : DInstr) : LState :=
  match d.op with
  | .op i => s.emit (.op i (if i.isResumableBulk then some (d.refMap.getD uint32Max) else none))
  | .if_ _ => s.lowerIf
  | .else_ => s.lowerElse
  | .br l keep drop => s.lowerBranch l (.br · keep drop)
  | .brIf l keep drop => s.lowerBranch l (.brIf · keep drop)
  | .brOnNull l keep drop => s.lowerBranch l (.brOnNull · keep drop)
  | .brOnNonNull l keep drop => s.lowerBranch l (.brOnNonNull · keep drop)
  | .brOnCast fail dn dst l keep drop => s.lowerBranch l (.brOnCast fail dn dst · keep drop)
  | .brTable imm => s.lowerBrTable imm
  | .block _ | .loop _ | .end_ | .tryTable _ _ => s

/-- every other instruction; its POLL belongs to the record, so that slow islands run it too -/
def lowerPlain (s : LState) (d : DInstr) : LState :=
  let s := s.startChunk
  let start := s.buf.length
  let s := if d.poll then s.emitPoll d.refMap else s
  let s := s.lowerOp d
  let s := s.recordEnd start d.refMap
  if s.emitMeter && decide (0 < s.cost) then
    if d.op.endsLongChunk then (if meterMaxChunkCost ≤ s.cost then s.endChunk else s)
    else if d.op = .else_ then s.endChunk
    else s
  else s

end LState

/-- one iteration of the pass; `next` is the ref map of the instruction after this one -/
def lowerInstr (s : LState) (hasTry : Bool) (d : DInstr) (next : Option Nat) : LState :=
  match d.op with
  | .block _ => s.lowerBlock false hasTry d
  | .loop _ => s.lowerBlock true hasTry d
  | .tryTable _ cs => s.lowerTryTable d cs
  | .end_ =>
    match s.ctrl with
    | f :: _ => s.lowerEnd f d next
    | [] => s.lowerFuncEnd d
  | _ => s.lowerPlain d

/-- the pass from instruction `ii` on -/
def lowerFrom (marked : List Nat) (s : LState) (ii : Nat) : List DInstr → LState
  | [] => s
  | d :: ds => lowerFrom marked (lowerInstr s (decide (ii ∈ marked)) d (ds.head?.bind DInstr.refMap)) (ii + 1) ds

/-! ## Slow islands -/

/-- the copy of one chunk: a TICK before every record, then a jump back to the fast code -/
def islandCode (buf : List (LInstr Nat)) (records : List MeterRecord) (c : MeterChunk) : List (LInstr Nat) :=
  let recs := (records.drop c.recordStart).take c.recordCount
  let body := recs.flatMap fun r => .tick r.refMap :: (buf.drop r.start).take r.count
  match recs.getLast? with
  | none => body
  | some r =>
    if ((buf.drop r.start).take r.count).head?.any LInstr.noFallthrough then body
    else body ++ [.else_ c.nextFastOffset]

/-- appends the islands and patches their METERs -/
def islands (records : List MeterRecord) (buf : List (LInstr Nat)) (chunks : List MeterChunk) : List (LInstr Nat) :=
  chunks.foldl
    (fun buf c =>
      let start := codeSize buf
      let buf := buf.modify c.meter fun _ => .meter c.cost start
      buf ++ islandCode buf records c)
    buf

/-- `wah_lower_analyzed_code` for a function body -/
def lowerAnalyzedCode (fuelMetering : Bool) (ds : List DInstr) : List (LInstr Nat) :=
  let s := lowerFrom (loopHasTry ds) { emitMeter := fuelMetering, needNewChunk := fuelMetering } 0 ds
  if fuelMetering then islands s.records s.buf s.chunks else s.buf

end Wah
