/-
Calls and memory operations of native code against the interpreter.

Model:
- operands are slots of the value stack, top first; an i32 is the low half of its slot, and writing it keeps the high
  one;
- the interpreter runs the opcode that the lowering chose (`lower`), whose widths are fixed; native code looks at the
  module when it runs. Both use the loops that work in chunks and stop when the interrupt flag is set;
- an outcome is an error, results, a function to run, or a yield with the operands to resume with. Host functions and
  callees are not run here. Answers of the interrupt flag, of the allocator and of the type checks are given, and what
  other contexts do until an operation is resumed.

Results are in `NativeAgree`, for every reachable context that runs natively.
-/
import Wah.Confined
import Wah.BulkOps

namespace Wah

/-! ## Widths -/

/-- the width of an address, a size or an index -/
inductive Width where
  | w32 | w64
deriving DecidableEq, Repr

/-- the content of a slot, `wah_value_t` without vectors -/
abbrev Value := BitVec 64

namespace Width

/-- read a `uint32_t` or `uint64_t` -/
def read : Width → Value → Value
  | .w32, v => (v.setWidth 32).setWidth 64
  | .w64, v => v

/-- read an `int32_t` or `int64_t` -/
def readInt : Width → Value → Int
  | .w32, v => (v.setWidth 32).toInt
  | .w64, v => v.toInt

/-- write the `i32` or `i64` member of a slot -/
def write : Width → Value → Value → Value
  | .w32, old, v => old.extractLsb' 32 32 ++ v.setWidth 32
  | .w64, _, v => v

end Width

/-- a result by its type -/
inductive Result where
  | i32 (v : BitVec 32)
  | i64 (v : BitVec 64)
deriving DecidableEq, Repr

def Width.result : Width → Value → Result
  | .w32, v => .i32 (v.setWidth 32)
  | .w64, v => .i64 v

/-! ## Bulk loops -/

/-- the content behind every pointer -/
abbrev Bytes := Ptr → Nat → Cell

def memset (p lo : Nat) (v : Cell) (n : Nat) (b : Bytes) : Bytes :=
  Function.update b p fun i => if lo ≤ i ∧ i < lo + n then v else b p i

def memmove (dst dlo src slo n : Nat) (b : Bytes) : Bytes :=
  Function.update b dst fun i => if dlo ≤ i ∧ i < dlo + n then b src (slo + (i - dlo)) else b dst i

/-- `memcpy` from the bytes of a data segment -/
def memload (p lo : Nat) (seg : List Cell) (slo n : Nat) (b : Bytes) : Bytes :=
  Function.update b p fun i => if lo ≤ i ∧ i < lo + n then (seg[slo + (i - lo)]?).getD 0 else b p i

/-- the loop of `wah_memory_fill_internal`, `wah_memory_init_internal` and `wah_memory_copy_internal` without metering:
the content, and what is done when it ends or stops. `stops k` is whether the interrupt flag is set after chunk `k`;
each chunk makes progress, so `size` rounds are enough. -/
def bulkLoop (stops : Nat → Bool) (chunk : Nat → Nat → Bytes → Bytes) (size : Nat) (b : Bytes) : Bytes × Nat :=
  let r := chunkLoop plainChunk 1 chunk stops size (size + 1) 0 0 none b
  (r.state, r.done)

def fillInternal (stops : Nat → Bool) (p : Ptr) (dst : Nat) (v : Cell) (size : Nat) (b : Bytes) : Bytes × Nat :=
  bulkLoop stops (fun done n => memset p (dst + done) v n) size b

def initInternal (stops : Nat → Bool) (p : Ptr) (dst : Nat) (seg : List Cell) (src size : Nat) (b : Bytes) : Bytes × Nat :=
  bulkLoop stops (fun done n => memload p (dst + done) seg (src + done) n) size b

def copyInternal (stops : Nat → Bool) (dp : Ptr) (dst : Nat) (sp : Ptr) (src size : Nat) (backward : Bool) (b : Bytes) :
    Bytes × Nat :=
  bulkLoop stops (fun done n =>
    if backward then memmove dp (dst + (size - done) - n) sp (src + (size - done) - n) n
    else memmove dp (dst + done) sp (src + done) n) size b

/-! ## Outcomes -/

inductive OpError where
  | trap | memoryOutOfBounds | misuse
deriving DecidableEq, Repr

/-- what an instruction comes to; `stuck` is an operand stack that is too short -/
inductive Outcome where
  | error (e : OpError) (W : NativeWorld)
  | results (vs : List Result) (W : NativeWorld)
  | host (f : FuncSlot) (args : List Value) (W : NativeWorld)
  | enter (m : ModuleId) (c : CtxId) (localIdx : Nat) (args : List Value) (W : NativeWorld)
  | yielded (ops : List Value) (W : NativeWorld)
  | stuck

/-- the instructions under comparison -/
inductive HelperOp where
  | call (f : Nat)
  | callIndirect (type table : Nat)
  | memorySize (m : Nat)
  | memoryGrow (m : Nat)
  | memoryFill (m : Nat)
  | memoryInit (data m : Nat)
  | memoryCopy (dst src : Nat)
deriving DecidableEq, Repr

/-- what is asked while an instruction runs -/
structure Polls where
  interrupted : Bool
  stops : Nat → Bool
  alloc : Option Ptr

/-- the context with what its instructions read besides the world: data segments, and the answers of
`wah_host_func_matches` and `wah_cross_module_subtype_cached` -/
structure OpCtx where
  c : CtxId
  segments : Nat → List Cell
  dropped : Nat → Bool
  matched : Function → Nat → Bool

namespace OpCtx
variable (x : OpCtx) (W : NativeWorld)

/-- `memories[m]` -/
def memory (m : Nat) : Slot := (W.shared.slot x.c .memory m).getD {}

/-- `wah_data_seg_data_len` -/
def segmentLength (d : Nat) : Nat := if x.dropped d then 0 else (x.segments d).length

def setBytes (b : Bytes) : NativeWorld := { W with shared := { W.shared with buf := b } }

/-- `wah_memory_grow_internal`: the old size in pages, or -1 -/
def growInternal (m delta : Nat) (alloc : Option Ptr) : Int × NativeWorld :=
  match W.shared.slot x.c .memory m with
  | none => (-1, W)
  | some s =>
    let (o, oi) := World.ownerOf x.c s m
    match W.shared.grow x.c x.c .memory m delta 0 (if W.guarded o oi then alloc.map fun _ => s.data else alloc) with
    | none => (-1, W)
    | some (r, V) => (r, { W with shared := V })

end OpCtx

/-! ## The interpreter -/

/-- the opcodes with fixed widths -/
inductive LoweredOp where
  | call (f : Nat)
  | callIndirect (type table : Nat)
  | callIndirect_i64 (type table : Nat)
  | memorySize (m : Nat) | memorySize_i64 (m : Nat)
  | memoryGrow (m : Nat) | memoryGrow_i64 (m : Nat)
  | memoryFill (m : Nat) | memoryFill_i64 (m : Nat)
  | memoryInit (data m : Nat) | memoryInit_i64 (data m : Nat)
  | memoryCopy (dst src : Nat) | memoryCopy_i32_to_i64 (dst src : Nat) | memoryCopy_i64_to_i32 (dst src : Nat)
  | memoryCopy_i64_to_i64 (dst src : Nat)
deriving DecidableEq, Repr

def Module.memory64 (M : Module) (m : Nat) : Bool := decide (M.memories[m]? = some .i64)

def Module.table64 (M : Module) (t : Nat) : Bool := (M.tables[t]?).any fun t => decide (t.addrType = .i64)

/-- the opcodes `wah_lower` redirects for 64-bit memories and tables -/
def HelperOp.lower (M : Module) : HelperOp → LoweredOp
  | .call f => .call f
  | .callIndirect t tb => if M.table64 tb then .callIndirect_i64 t tb else .callIndirect t tb
  | .memorySize m => if M.memory64 m then .memorySize_i64 m else .memorySize m
  | .memoryGrow m => if M.memory64 m then .memoryGrow_i64 m else .memoryGrow m
  | .memoryFill m => if M.memory64 m then .memoryFill_i64 m else .memoryFill m
  | .memoryInit d m => if M.memory64 m then .memoryInit_i64 d m else .memoryInit d m
  | .memoryCopy dst src =>
    if M.memory64 dst && M.memory64 src then .memoryCopy_i64_to_i64 dst src
    else if M.memory64 dst && !M.memory64 src then .memoryCopy_i32_to_i64 dst src
    else if !M.memory64 dst && M.memory64 src then .memoryCopy_i64_to_i32 dst src
    else .memoryCopy dst src

namespace OpCtx
variable (x : OpCtx) (polls : Polls) (W : NativeWorld)

/-- `WAH_CALL_WASM_INLINE` with `wah_bind_frame_module` -/
def pushFrame (f : FuncSlot) (localIdx : Nat) (args : List Value) : Outcome :=
  let own := (W.modules x.c).id
  match f.fnCtx with
  | some d => .enter (f.fn.fnModule.getD own) d localIdx args W
  | none => if f.fn.fnModule.getD own = own then .enter own x.c localIdx args W else .error .trap W

/-- `CALL` -/
def runCall (f : Nat) (args : List Value) : Outcome :=
  match (W.funcs x.c)[f]? with
  | none => .stuck
  | some fn =>
    match fn.fn.impl with
    | .host _ _ => .host fn args W
    | .wasm localIdx => x.pushFrame W fn localIdx args

/-- `WAH_INDIRECT_BODY` -/
def indirectBody (type t : Nat) (index : Value) (args : List Value) : Outcome :=
  match W.entry x.c t index.toNat with
  | none | some .null | some (.i31 _) | some (.obj _) => .error .trap W
  | some (.func d i) =>
    match (W.funcs d)[i]? with
    | none => .error .trap W
    | some f =>
      match f.fn.impl with
      | .host _ _ => if x.matched f.fn type then .host f args W else .error .trap W
      | .wasm localIdx => if x.matched f.fn type then x.pushFrame W f localIdx args else .error .trap W

/-- `CALL_INDIRECT` and `CALL_INDIRECT_i64` -/
def runCallIndirect (N : Width) (type t : Nat) : List Value → Outcome
  | index :: args => x.indirectBody W type t (N.read index) args
  | [] => .stuck

/-- `WAH_MEMORY_SIZE_IMPL` -/
def runMemorySize (N : Width) (m : Nat) : Outcome :=
  .results [N.result (BitVec.ofNat 64 (x.memory W m).size / BitVec.ofNat 64 pageSize)] W

/-- `WAH_MEMORY_GROW_IMPL` -/
def runMemoryGrow (N : Width) (m : Nat) : List Value → Outcome
  | [pages] =>
    if N.readInt pages < 0 then .results [N.result (-1)] W
    else
      let r := x.growInternal W m (N.readInt pages).toNat polls.alloc
      if r.1 = -1 then .results [N.result (-1)] r.2 else .results [N.result (BitVec.ofInt 64 r.1)] r.2
  | _ => .stuck

/-- `WAH_MEMORY_FILL_IMPL` -/
def runMemoryFill (N : Width) (m : Nat) : List Value → Outcome
  | [size, val, dst] =>
    if polls.interrupted then .yielded [size, val, dst] W
    else
      let s := N.read size
      let v := val.setWidth 8
      let d := N.read dst
      if !u64RangeInBounds d.toNat s.toNat (x.memory W m).size then .error .memoryOutOfBounds W
      else
        let r := fillInternal polls.stops (x.memory W m).data d.toNat v.toNat s.toNat W.shared.buf
        if r.2 < s.toNat then
          .yielded [N.write size (s - BitVec.ofNat 64 r.2), Width.w32.write val (v.setWidth 64),
            N.write dst (d + BitVec.ofNat 64 r.2)] (setBytes W r.1)
        else .results [] (setBytes W r.1)
  | _ => .stuck

/-- `WAH_MEMORY_INIT_IMPL` -/
def runMemoryInit (N : Width) (data m : Nat) : List Value → Outcome
  | [size, src, dst] =>
    if polls.interrupted then .yielded [size, src, dst] W
    else
      let n := Width.w32.read size
      let s := Width.w32.read src
      let d := N.read dst
      let len := x.segmentLength data
      if !u64RangeInBounds d.toNat n.toNat (x.memory W m).size then .error .memoryOutOfBounds W
      else if len < s.toNat + n.toNat then .error .trap W
      else if len < n.toNat then .error .trap W
      else
        let r := initInternal polls.stops (x.memory W m).data d.toNat (x.segments data) s.toNat n.toNat W.shared.buf
        if r.2 < n.toNat then
          .yielded [Width.w32.write size (n - BitVec.ofNat 64 r.2), Width.w32.write src (s + BitVec.ofNat 64 r.2),
            N.write dst (d + BitVec.ofNat 64 r.2)] (setBytes W r.1)
        else .results [] (setBytes W r.1)
  | _ => .stuck

/-- `WAH_MEMORY_COPY_IMPL(N,M,Z)` -/
def runMemoryCopy (N M Z : Width) (di si : Nat) : List Value → Outcome
  | [size, src, dst] =>
    if polls.interrupted then .yielded [size, src, dst] W
    else
      let n := Z.read size
      let s := N.read src
      let d := M.read dst
      let dm := x.memory W di
      let sm := x.memory W si
      if !u64RangeInBounds d.toNat n.toNat dm.size then .error .memoryOutOfBounds W
      else if !u64RangeInBounds s.toNat n.toNat sm.size then .error .memoryOutOfBounds W
      else
        let backward := decide (dm.data = sm.data) && decide (s < d) && decide (d < s + n)
        let r := copyInternal polls.stops dm.data d.toNat sm.data s.toNat n.toNat backward W.shared.buf
        if r.2 < n.toNat then
          if backward then
            .yielded [Z.write size (n - BitVec.ofNat 64 r.2), N.write src s, M.write dst d] (setBytes W r.1)
          else
            .yielded [Z.write size (n - BitVec.ofNat 64 r.2), N.write src (s + BitVec.ofNat 64 r.2),
              M.write dst (d + BitVec.ofNat 64 r.2)] (setBytes W r.1)
        else .results [] (setBytes W r.1)
  | _ => .stuck

/-- the handler of an opcode -/
def interp (ops : List Value) : LoweredOp → Outcome
  | .call f => x.runCall W f ops
  | .callIndirect t tb => x.runCallIndirect W .w32 t tb ops
  | .callIndirect_i64 t tb => x.runCallIndirect W .w64 t tb ops
  | .memorySize m => x.runMemorySize W .w32 m
  | .memorySize_i64 m => x.runMemorySize W .w64 m
  | .memoryGrow m => x.runMemoryGrow polls W .w32 m ops
  | .memoryGrow_i64 m => x.runMemoryGrow polls W .w64 m ops
  | .memoryFill m => x.runMemoryFill polls W .w32 m ops
  | .memoryFill_i64 m => x.runMemoryFill polls W .w64 m ops
  | .memoryInit d m => x.runMemoryInit polls W .w32 d m ops
  | .memoryInit_i64 d m => x.runMemoryInit polls W .w64 d m ops
  | .memoryCopy d s => x.runMemoryCopy polls W .w32 .w32 .w32 d s ops
  | .memoryCopy_i32_to_i64 d s => x.runMemoryCopy polls W .w32 .w64 .w32 d s ops
  | .memoryCopy_i64_to_i32 d s => x.runMemoryCopy polls W .w64 .w32 .w32 d s ops
  | .memoryCopy_i64_to_i64 d s => x.runMemoryCopy polls W .w64 .w64 .w64 d s ops

/-! ## Native code -/

/-- `wah_jit_get_addr` -/
def getAddr (v : Value) (mem64 : Bool) : Value := if mem64 then v else (v.setWidth 32).setWidth 64

/-- `wah_jit_set_addr` -/
def setAddr (v : Value) (mem64 : Bool) (a : Value) : Value :=
  if mem64 then a else v.extractLsb' 32 32 ++ a.setWidth 32

/-- `wah_jit_ctx_mem64` -/
def ctxMem64 (m : Nat) : Bool := decide ((W.modules x.c).decl.memories[m]? = some .i64)

/-- a call compiled by `wah_jit_instr`: imports go through `wah_jit_call_host`, others to the code of the module -/
def nativeCall (f : Nat) (args : List Value) : Outcome :=
  let m := W.modules x.c
  if f < m.importFunctionCount then
    match (W.funcs x.c)[f]? with
    | none => .stuck
    | some fn => .host fn args W
  else .enter m.id x.c (f - m.importFunctionCount) args W

/-- `call_indirect` compiled by `wah_jit_instr`: the index is loaded from its slot with 32 bits (`WAH_JA_SLOT_U32`) -/
def nativeCallIndirect (type t : Nat) : List Value → Outcome
  | index :: args =>
    match W.callIndirect x.c x.matched type t (index.setWidth 32).toNat with
    | .trap => .error .trap W
    | .misuse => .error .misuse W
    | .host f => .host f args W
    | .enter localIdx => .enter (W.modules x.c).id x.c localIdx args W
  | [] => .stuck

/-- `wah_jit_memory_size`: the size of memory 0 is the one cached in the context; the result is a register that is
read with the width of its type -/
def nativeMemorySize (m : Nat) : Outcome :=
  let size := if m = 0 then (W.shared.ctx x.c).memorySize else (x.memory W m).size
  let r : Value := BitVec.ofNat 64 size >>> 16
  .results [if x.ctxMem64 W m then .i64 r else .i32 (r.setWidth 32)] W

/-- `wah_jit_memory_grow` -/
def nativeMemoryGrow (m : Nat) : List Value → Outcome
  | [pages] =>
    let mem64 := x.ctxMem64 W m
    let delta : Int := if mem64 then pages.toInt else (pages.setWidth 32).toInt
    let r := if delta < 0 then (-1, W) else x.growInternal W m delta.toNat polls.alloc
    let old : Value := if r.1 = -1 then BitVec.allOnes 64 else BitVec.ofInt 64 r.1
    .results [if mem64 then .i64 old else .i32 (old.setWidth 32)] r.2
  | _ => .stuck

/-- `wah_jit_memory_fill` -/
def nativeMemoryFill (m : Nat) : List Value → Outcome
  | [size, val, dst] =>
    if polls.interrupted then .yielded [size, val, dst] W
    else
      let mem64 := x.ctxMem64 W m
      let d := getAddr dst mem64
      let s := getAddr size mem64
      let v := val.setWidth 8
      if !u64RangeInBounds d.toNat s.toNat (x.memory W m).size then .error .memoryOutOfBounds W
      else
        let r := fillInternal polls.stops (x.memory W m).data d.toNat v.toNat s.toNat W.shared.buf
        if r.2 = s.toNat then .results [] (setBytes W r.1)
        else
          .yielded [setAddr size mem64 (s - BitVec.ofNat 64 r.2), val, setAddr dst mem64 (d + BitVec.ofNat 64 r.2)]
            (setBytes W r.1)
  | _ => .stuck

/-- `wah_jit_memory_init` -/
def nativeMemoryInit (data m : Nat) : List Value → Outcome
  | [size, src, dst] =>
    if polls.interrupted then .yielded [size, src, dst] W
    else
      let mem64 := x.ctxMem64 W m
      let d := getAddr dst mem64
      let s : Value := (src.setWidth 32).setWidth 64
      let n : Value := (size.setWidth 32).setWidth 64
      if !u64RangeInBounds d.toNat n.toNat (x.memory W m).size then .error .memoryOutOfBounds W
      else if x.segmentLength data < s.toNat + n.toNat then .error .trap W
      else
        let r := initInternal polls.stops (x.memory W m).data d.toNat (x.segments data) s.toNat n.toNat W.shared.buf
        if r.2 = n.toNat then .results [] (setBytes W r.1)
        else
          .yielded [setAddr size false (n - BitVec.ofNat 64 r.2), setAddr src false (s + BitVec.ofNat 64 r.2),
            setAddr dst mem64 (d + BitVec.ofNat 64 r.2)] (setBytes W r.1)
  | _ => .stuck

/-- `wah_jit_memory_copy` -/
def nativeMemoryCopy (di si : Nat) : List Value → Outcome
  | [size, src, dst] =>
    if polls.interrupted then .yielded [size, src, dst] W
    else
      let dst64 := x.ctxMem64 W di
      let src64 := x.ctxMem64 W si
      let d := getAddr dst dst64
      let s := getAddr src src64
      let n := getAddr size (dst64 && src64)
      let dm := x.memory W di
      let sm := x.memory W si
      if !u64RangeInBounds d.toNat n.toNat dm.size then .error .memoryOutOfBounds W
      else if !u64RangeInBounds s.toNat n.toNat sm.size then .error .memoryOutOfBounds W
      else
        let backward := decide (dm.data = sm.data) && decide (s < d) && decide (d < s + n)
        let r := copyInternal polls.stops dm.data d.toNat sm.data s.toNat n.toNat backward W.shared.buf
        if r.2 = n.toNat then .results [] (setBytes W r.1)
        else
          let size' := setAddr size (dst64 && src64) (n - BitVec.ofNat 64 r.2)
          if !backward then
            .yielded [size', setAddr src src64 (s + BitVec.ofNat 64 r.2), setAddr dst dst64 (d + BitVec.ofNat 64 r.2)]
              (setBytes W r.1)
          else .yielded [size', src, dst] (setBytes W r.1)
  | _ => .stuck

/-- the code of an instruction -/
def native (ops : List Value) : HelperOp → Outcome
  | .call f => x.nativeCall W f ops
  | .callIndirect t tb => x.nativeCallIndirect W t tb ops
  | .memorySize m => x.nativeMemorySize W m
  | .memoryGrow m => x.nativeMemoryGrow polls W m ops
  | .memoryFill m => x.nativeMemoryFill polls W m ops
  | .memoryInit d m => x.nativeMemoryInit polls W d m ops
  | .memoryCopy d s => x.nativeMemoryCopy polls W d s ops

end OpCtx

/-! ## Resuming -/

/-- a resumption in context `c`: what other contexts did meanwhile, which leaves `c` its module, and the answers to
what is asked then -/
structure Turn (c : CtxId) where
  others : NativeWorld → NativeWorld
  keeps : ∀ W, (others W).modules c = W.modules c
  polls : Polls

/-- run an instruction, and again with the operands it left as long as it yields and is resumed -/
def resumeRun {c : CtxId} (exec : Polls → NativeWorld → List Value → Outcome) :
    List (Turn c) → Polls → NativeWorld → List Value → Outcome
  | [], polls, W, ops => exec polls W ops
  | t :: ts, polls, W, ops =>
    match exec polls W ops with
    | .yielded ops' W' => resumeRun exec ts t.polls (t.others W') ops'
    | o => o

/-- operands left by a yield mean the same: the value of a fill counts as a byte -/
def SameOperands : HelperOp → List Value → List Value → Prop
  | .memoryFill _, [s, v, d], [s', v', d'] => s = s' ∧ v.setWidth 8 = v'.setWidth 8 ∧ d = d'
  | _, l, l' => l = l'

inductive SameOutcome (op : HelperOp) : Outcome → Outcome → Prop where
  | refl (o : Outcome) : SameOutcome op o o
  | yielded {ops ops' : List Value} (W : NativeWorld) (h : SameOperands op ops ops') :
      SameOutcome op (.yielded ops W) (.yielded ops' W)

namespace OpCtx
variable (x : OpCtx)

/-- the interpreter on the lowered instruction of module `M` -/
def runInterp (M : Module) (op : HelperOp) (turns : List (Turn x.c)) (polls : Polls) (W : NativeWorld) (ops : List Value) :
    Outcome :=
  resumeRun (fun polls W ops => x.interp polls W ops (op.lower M)) turns polls W ops

def runNative (op : HelperOp) (turns : List (Turn x.c)) (polls : Polls) (W : NativeWorld) (ops : List Value) : Outcome :=
  resumeRun (fun polls W ops => x.native polls W ops op) turns polls W ops

/-- the indices of the instruction are inside their spaces, as the validator checks -/
def Valid (W : NativeWorld) : HelperOp → Prop
  | .call f => f < (W.modules x.c).importFunctionCount + (W.modules x.c).code.length
  | .memorySize m => (W.shared.slot x.c .memory m).isSome = true
  | _ => True

/-- the function a call of type `type` through entry `n` leads to, if it does not trap -/
def callee (W : NativeWorld) (type t n : Nat) : Option FuncSlot :=
  match W.entry x.c t n with
  | some (.func d i) => ((W.funcs d)[i]?).filter fun f => x.matched f.fn type
  | _ => none

/-- the index of a `call_indirect` fits in 32 bits, or its low half leads to the same callee -/
def IndexKept (W : NativeWorld) : HelperOp → List Value → Prop
  | .callIndirect type t, index :: _ =>
    (W.modules x.c).decl.table64 t = false ∨ index.toNat < 2 ^ 32 ∨
      x.callee W type t index.toNat = x.callee W type t (index.toNat % 2 ^ 32)
  | _, _ => True

end OpCtx

end Wah
