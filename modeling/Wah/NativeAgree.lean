/-
Native calls and memory operations do what the interpreter does.

- `bulkLoop_le`: the chunked loop never does more than it is asked to;
- `bulk_agree`: one execution of a bulk operation, for operands that mean the same;
- `callIndirect_agree_iff`: one execution of a call through a table;
- `native_ops_agree_iff`: the result for a reachable context that runs natively, over whole runs with resumptions. The
  only difference is a 64-bit table index that native code cuts to 32 bits.
-/
import Wah.NativeOps

namespace Wah

/-! ## Widths -/

/-- the width of a memory or table -/
def Width.of (is64 : Bool) : Width := if is64 then .w64 else .w32

theorem append_low (v : Value) : v.extractLsb' 32 32 ++ v.setWidth 32 = v := by
  apply BitVec.eq_of_getLsbD_eq
  intro i hi
  rw [BitVec.getLsbD_append]
  split_ifs with h
  · simp [h]
  · have : i - 32 < 32 := by omega
    simp [this, show 32 + (i - 32) = i by omega]

/-- writing back what was read changes nothing -/
@[simp] theorem Width.write_read (N : Width) (v : Value) : N.write v (N.read v) = v := by
  cases N with
  | w32 =>
    rw [Width.write, Width.read, BitVec.setWidth_setWidth_of_le _ (by decide)]
    simpa using append_low v
  | w64 => rfl

/-- the value of a fill keeps its byte -/
theorem write_byte (v : Value) : (Width.w32.write v ((v.setWidth 8).setWidth 64)).setWidth 8 = v.setWidth 8 := by
  apply BitVec.eq_of_getLsbD_eq
  intro i hi
  rw [Width.write, BitVec.getLsbD_setWidth, BitVec.getLsbD_append]
  simp [hi, show i < 32 by omega, show i < 64 by omega]

theorem getAddr_eq (v : Value) (b : Bool) : OpCtx.getAddr v b = (Width.of b).read v := by cases b <;> rfl

theorem setAddr_eq (v a : Value) (b : Bool) : OpCtx.setAddr v b a = (Width.of b).write v a := by cases b <;> rfl

theorem result_eq (v : Value) (b : Bool) : (if b then Result.i64 v else .i32 (v.setWidth 32)) = (Width.of b).result v := by
  cases b <;> rfl

theorem w32_read (v : Value) : (v.setWidth 32).setWidth 64 = Width.w32.read v := rfl

theorem readInt_eq (v : Value) (b : Bool) :
    (if b then v.toInt else (v.setWidth 32).toInt) = (Width.of b).readInt v := by cases b <;> rfl

/-! ## The chunked loop -/

/-- what the loop does, whatever its items are -/
theorem bulkLoop_ok (stops : Nat → Bool) (chunk : Nat → Nat → Bytes → Bytes) (size : Nat) (b : Bytes) :
    ∃ r : Looped Unit, r.done = (bulkLoop stops chunk size b).2 ∧
      LoopOk (fun _ _ s => s) stops size itemsPerFuel 0 none () r := by
  have hitems : Resumable.Additive size fun _ _ (s : Unit) => s := ⟨fun _ _ => rfl, fun _ _ _ _ _ => rfl⟩
  refine ⟨_, (chunkLoop_done (fun _ _ s => s) none b ()).symm, ?_⟩
  exact chunkLoop_spec plainChunk_ok hitems stops 0 none () (Nat.zero_le _) (Nat.le_succ _)

theorem bulkLoop_le (stops : Nat → Bool) (chunk : Nat → Nat → Bytes → Bytes) (size : Nat) (b : Bytes) :
    (bulkLoop stops chunk size b).2 ≤ size := by
  obtain ⟨r, hr, hok⟩ := bulkLoop_ok stops chunk size b
  exact hr ▸ hok.le

theorem fillInternal_le (stops : Nat → Bool) (p dst v size : Nat) (b : Bytes) :
    (fillInternal stops p dst v size b).2 ≤ size := bulkLoop_le _ _ _ _

theorem initInternal_le (stops : Nat → Bool) (p dst : Nat) (seg : List Cell) (src size : Nat) (b : Bytes) :
    (initInternal stops p dst seg src size b).2 ≤ size := bulkLoop_le _ _ _ _

theorem copyInternal_le (stops : Nat → Bool) (dp dst sp src size : Nat) (backward : Bool) (b : Bytes) :
    (copyInternal stops dp dst sp src size backward b).2 ≤ size := bulkLoop_le _ _ _ _

/-! ## Memory operations -/

namespace OpCtx
variable {x : OpCtx} {polls : Polls} {W : NativeWorld}

theorem ctxMem64_eq (m : Nat) : x.ctxMem64 W m = (W.modules x.c).decl.memory64 m := rfl

theorem memoryFill_agree {m : Nat} {size v v' dst : Value} (hv : v.setWidth 8 = v'.setWidth 8) :
    SameOutcome (.memoryFill m) (x.runMemoryFill polls W (Width.of ((W.modules x.c).decl.memory64 m)) m [size, v, dst])
      (x.nativeMemoryFill polls W m [size, v', dst]) := by
  simp only [runMemoryFill, nativeMemoryFill, getAddr_eq, setAddr_eq, ctxMem64_eq, ← hv]
  set N := Width.of ((W.modules x.c).decl.memory64 m)
  split_ifs with hi hr h h' h'
  · exact .yielded W ⟨rfl, hv, rfl⟩
  · exact .refl _
  · omega
  · exact .yielded _ ⟨rfl, by rw [write_byte, hv], rfl⟩
  · exact .refl _
  · have := fillInternal_le polls.stops (x.memory W m).data (N.read dst).toNat (v.setWidth 8).toNat (N.read size).toNat
      W.shared.buf
    omega

theorem memoryInit_eq (data m : Nat) (ops : List Value) :
    x.runMemoryInit polls W (Width.of ((W.modules x.c).decl.memory64 m)) data m ops =
      x.nativeMemoryInit polls W data m ops := by
  unfold runMemoryInit nativeMemoryInit
  split
  · rename_i size src dst
    simp only [getAddr_eq, setAddr_eq, ctxMem64_eq, show Width.of false = .w32 from rfl, w32_read]
    set N := Width.of ((W.modules x.c).decl.memory64 m)
    set n := Width.w32.read size
    set s := Width.w32.read src
    have hle := initInternal_le polls.stops (x.memory W m).data (N.read dst).toNat (x.segments data) s.toNat n.toNat
      W.shared.buf
    by_cases hlen : x.segmentLength data < s.toNat + n.toNat
    · simp only [hlen, ↓reduceIte]
    · have hn : ¬x.segmentLength data < n.toNat := by omega
      rw [Nat.le_iff_lt_or_eq] at hle
      simp only [hlen, hn, ↓reduceIte]
      split_ifs <;> first | rfl | omega
  · rfl

theorem memoryCopy_eq (di si : Nat) (ops : List Value) :
    x.runMemoryCopy polls W (Width.of ((W.modules x.c).decl.memory64 si)) (Width.of ((W.modules x.c).decl.memory64 di))
        (Width.of ((W.modules x.c).decl.memory64 di && (W.modules x.c).decl.memory64 si)) di si ops =
      x.nativeMemoryCopy polls W di si ops := by
  unfold runMemoryCopy nativeMemoryCopy
  split
  · rename_i size src dst
    simp only [getAddr_eq, setAddr_eq, ctxMem64_eq]
    set N := Width.of ((W.modules x.c).decl.memory64 si)
    set M := Width.of ((W.modules x.c).decl.memory64 di)
    set Z := Width.of ((W.modules x.c).decl.memory64 di && (W.modules x.c).decl.memory64 si)
    set backward := decide ((x.memory W di).data = (x.memory W si).data) && decide (N.read src < M.read dst) &&
      decide (M.read dst < N.read src + Z.read size)
    have hle := copyInternal_le polls.stops (x.memory W di).data (M.read dst).toNat (x.memory W si).data
      (N.read src).toNat (Z.read size).toNat backward W.shared.buf
    clear_value backward
    cases backward <;> simp only [Width.write_read, Bool.not_true, Bool.not_false, Bool.false_eq_true, ↓reduceIte]
    all_goals split_ifs <;> first | rfl | omega
  · rfl

theorem memoryGrow_eq (m : Nat) (ops : List Value) :
    x.runMemoryGrow polls W (Width.of ((W.modules x.c).decl.memory64 m)) m ops = x.nativeMemoryGrow polls W m ops := by
  rw [← ctxMem64_eq]
  unfold runMemoryGrow nativeMemoryGrow
  split
  · rename_i pages
    simp only [result_eq, readInt_eq]
    set N := Width.of (x.ctxMem64 W m)
    by_cases hneg : N.readInt pages < 0
    · simp only [hneg, ↓reduceIte]
      rfl
    · simp only [hneg, ↓reduceIte]
      split_ifs <;> rfl
  · rfl

/-- the size in pages; memory 0 is cached in the context -/
theorem memorySize_eq {m : Nat} (hC : W.Confined) (hj : W.jit x.c = true) (hv : x.Valid W (.memorySize m)) :
    x.runMemorySize W (Width.of ((W.modules x.c).decl.memory64 m)) m = x.nativeMemorySize W m := by
  obtain ⟨s, hs⟩ := Option.isSome_iff_exists.1 hv
  have hsize : (if m = 0 then (W.shared.ctx x.c).memorySize else (x.memory W m).size) = (x.memory W m).size := by
    split_ifs with hm
    · subst hm
      have hu := hC.native x.c hj
      have hbase := hC.coherent.base x.c (hC.coherent.baseDue_of_shared hu.rootShares)
      rw [(hbase s hs).2, memory, hs]
      rfl
    · rfl
  have hdiv (n : Nat) : BitVec.ofNat 64 n / BitVec.ofNat 64 pageSize = BitVec.ofNat 64 n >>> 16 := by
    apply BitVec.eq_of_toNat_eq
    simp [BitVec.toNat_udiv, pageSize, Nat.shiftRight_eq_div_pow]
  rw [runMemorySize, nativeMemorySize, hsize, hdiv, ← ctxMem64_eq]
  cases x.ctxMem64 W m <;> rfl

/-! ## Calls -/

/-- what a call that found its function comes to, in a context that keeps to its own functions -/
def enterCallee (x : OpCtx) (W : NativeWorld) (args : List Value) : Option FuncSlot → Outcome
  | none => .error .trap W
  | some f =>
    match f.fn.impl with
    | .host _ _ => .host f args W
    | .wasm localIdx => .enter (W.modules x.c).id x.c localIdx args W

theorem pushFrame_of_own {f : FuncSlot} (hm : f.fn.fnModule = some (W.modules x.c).id) (hc : f.fnCtx = some x.c)
    (localIdx : Nat) (args : List Value) :
    x.pushFrame W f localIdx args = .enter (W.modules x.c).id x.c localIdx args W := by
  simp [pushFrame, hm, hc]

theorem local_wasm {f : FuncSlot} {c : CtxId} {m : ModuleId} {localIdx : Nat} (h : f.Local c m)
    (hi : f.fn.impl = .wasm localIdx) : f.fn.fnModule = some m ∧ f.fnCtx = some c := by
  refine h.resolve_left ?_
  rw [FuncSlot.isHost, hi]
  exact Bool.false_ne_true

/-- two functions of the host or of the context are called alike only if they are one -/
theorem enterCallee_injective {args : List Value} {f f' : Option FuncSlot}
    (hf : ∀ g, f = some g → g.Local x.c (W.modules x.c).id) (hf' : ∀ g, f' = some g → g.Local x.c (W.modules x.c).id)
    (h : x.enterCallee W args f = x.enterCallee W args f') : f = f' := by
  have himpl : ∀ g, x.enterCallee W args (some g) ≠ x.enterCallee W args none := by
    intro g
    cases hi : g.fn.impl <;> simp [enterCallee, hi]
  cases f with
  | none =>
    cases f' with
    | none => rfl
    | some g' => exact absurd h.symm (himpl g')
  | some g =>
    cases f' with
    | none => exact absurd h (himpl g)
    | some g' =>
      cases hi : g.fn.impl with
      | host _ _ => cases hi' : g'.fn.impl <;> simp_all [enterCallee]
      | wasm l =>
        cases hi' : g'.fn.impl with
        | host _ _ => simp [enterCallee, hi, hi'] at h
        | wasm l' =>
          simp only [enterCallee, hi, hi', Outcome.enter.injEq, true_and, and_true] at h
          obtain ⟨hm, hc⟩ := local_wasm (hf g rfl) hi
          obtain ⟨hm', hc'⟩ := local_wasm (hf' g' rfl) hi'
          obtain ⟨⟨_, _⟩, _⟩ := g
          obtain ⟨⟨_, _⟩, _⟩ := g'
          simp_all

/-- the function a table entry leads to is one of the host or of the context -/
theorem callee_local (hC : W.Confined) (hj : W.jit x.c = true) {type t n : Nat} {f : FuncSlot}
    (h : x.callee W type t n = some f) : f.Local x.c (W.modules x.c).id := by
  unfold callee at h
  split at h
  · rename_i d i he
    obtain ⟨g, hg, hl⟩ := hC.home hj he
    rw [hg, Option.filter_eq_some_iff] at h
    cases h.1
    exact hl
  · cases h

theorem callee_func {type t n : Nat} {d : CtxId} {i : Nat} {f : FuncSlot} (he : W.entry x.c t n = some (.func d i))
    (hf : (W.funcs d)[i]? = some f) : x.callee W type t n = if x.matched f.fn type then some f else none := by
  simp [callee, he, hf, Option.filter]

theorem indirectBody_eq (hC : W.Confined) (hj : W.jit x.c = true) (type t : Nat) (index : Value) (args : List Value) :
    x.indirectBody W type t index args = x.enterCallee W args (x.callee W type t index.toNat) := by
  unfold indirectBody
  split
  iterate 4
    rename_i he
    simp only [callee, he, enterCallee]
  rename_i d i he
  obtain ⟨f, hf, hl⟩ := hC.home hj he
  rw [callee_func he hf, hf]
  dsimp only
  split
  all_goals
    rename_i hi
    split_ifs
  · rw [enterCallee, hi]
  · rfl
  · obtain ⟨hm, hc⟩ := local_wasm hl hi
    rw [pushFrame_of_own hm hc, enterCallee, hi]
  · rfl

theorem nativeCallIndirect_eq (hC : W.Confined) (hj : W.jit x.c = true) (type t : Nat) (index : Value)
    (args : List Value) :
    x.nativeCallIndirect W type t (index :: args) =
      x.enterCallee W args (x.callee W type t (index.toNat % 2 ^ 32)) := by
  unfold nativeCallIndirect NativeWorld.callIndirect
  simp only [BitVec.toNat_setWidth]
  cases he : W.entry x.c t (index.toNat % 2 ^ 32) with
  | none => simp only [callee, he, enterCallee]
  | some r =>
    cases r with
    | func d i =>
      obtain ⟨f, hf, hl⟩ := hC.home hj he
      rw [callee_func he hf]
      simp only [hf]
      cases hi : f.fn.impl with
      | host a b => cases x.matched f.fn type <;> simp [enterCallee, hi]
      | wasm l =>
        obtain ⟨hm, hc⟩ := local_wasm hl hi
        cases x.matched f.fn type <;> simp [enterCallee, hi, hm, hc]
    | _ => simp only [callee, he, enterCallee]

/-- imported functions are the host's, and the others are those with a body -/
theorem call_eq (hC : W.Confined) (hj : W.jit x.c = true) {f : Nat} (hv : x.Valid W (.call f)) (args : List Value) :
    x.runCall W f args = x.nativeCall W f args := by
  have hu := hC.native x.c hj
  unfold runCall nativeCall
  dsimp only
  split_ifs with hlt
  · obtain ⟨fn, hfn, hh⟩ := hu.hosts f hlt
    simp only [hfn]
    split
    · rfl
    · rename_i himpl
      simp [FuncSlot.isHost, FuncImpl.isHost, himpl] at hh
  · have himpl := hC.impls x.c hu.created f (by omega)
    rw [(W.modules x.c).parsed hu.isolated.compiled, List.getElem?_map, List.getElem?_range (by
      unfold Valid at hv; omega), Option.map_some, Option.map_eq_some_iff] at himpl
    obtain ⟨fn, hfn, hi⟩ := himpl
    obtain ⟨hm, hc⟩ := local_wasm (hC.functions x.c hu.created f fn (by omega) hfn) hi
    rw [hfn]
    simp only [hi]
    exact pushFrame_of_own hm hc _ _

/-! ## The lowering fixes the widths -/

end OpCtx

/-- the operations that can yield -/
def HelperOp.bulk : HelperOp → Bool
  | .memoryFill _ | .memoryInit _ _ | .memoryCopy _ _ => true
  | _ => false

theorem SameOperands.refl (op : HelperOp) (ops : List Value) : SameOperands op ops ops := by
  unfold SameOperands
  split <;> simp_all

theorem sameOperands_iff_eq {op : HelperOp} (hop : ∀ m, op ≠ .memoryFill m) {ops ops' : List Value} :
    SameOperands op ops ops' ↔ ops = ops' := by
  unfold SameOperands
  split
  · exact absurd rfl (hop _)
  · exact Iff.rfl

theorem sameOutcome_iff_eq {op : HelperOp} (hop : ∀ m, op ≠ .memoryFill m) {o o' : Outcome} :
    SameOutcome op o o' ↔ o = o' := by
  constructor
  · rintro (_ | ⟨W, h⟩)
    · rfl
    · rw [(sameOperands_iff_eq hop).1 h]
  · rintro rfl
    exact .refl _

namespace OpCtx
variable {x : OpCtx} {polls : Polls} {W : NativeWorld} {op : HelperOp}

theorem native_final (hop : op.bulk = false) (ops l : List Value) (V : NativeWorld) :
    x.native polls W ops op ≠ .yielded l V := by
  cases op with
  | call f =>
    unfold native nativeCall
    dsimp only
    split_ifs
    · split <;> exact Outcome.noConfusion
    · exact Outcome.noConfusion
  | callIndirect type t =>
    cases ops with
    | nil => exact Outcome.noConfusion
    | cons index args =>
      change x.nativeCallIndirect W type t (index :: args) ≠ _
      unfold nativeCallIndirect
      dsimp only
      split <;> exact Outcome.noConfusion
  | memorySize m => exact Outcome.noConfusion
  | memoryGrow m =>
    unfold native nativeMemoryGrow
    dsimp only
    split <;> exact Outcome.noConfusion
  | _ => cases hop

/-- a yield leaves the modules alone -/
theorem native_modules {ops l : List Value} {V : NativeWorld} (h : x.native polls W ops op = .yielded l V) :
    V.modules = W.modules := by
  cases hop : op.bulk with
  | false => exact absurd h (native_final hop ops l V)
  | true =>
    cases op with
    | memoryFill m =>
      rw [show x.native polls W ops (.memoryFill m) = x.nativeMemoryFill polls W m ops from rfl] at h
      unfold nativeMemoryFill at h
      dsimp only at h
      repeat' split at h
      all_goals cases h
      all_goals rfl
    | memoryInit d m =>
      rw [show x.native polls W ops (.memoryInit d m) = x.nativeMemoryInit polls W d m ops from rfl] at h
      unfold nativeMemoryInit at h
      dsimp only at h
      repeat' split at h
      all_goals cases h
      all_goals rfl
    | memoryCopy dst src =>
      rw [show x.native polls W ops (.memoryCopy dst src) = x.nativeMemoryCopy polls W dst src ops from rfl] at h
      unfold nativeMemoryCopy at h
      dsimp only at h
      repeat' split at h
      all_goals cases h
      all_goals rfl
    | _ => cases hop

theorem interp_callIndirect (M : Module) (type t : Nat) (ops : List Value) :
    x.interp polls W ops ((HelperOp.callIndirect type t).lower M) =
      x.runCallIndirect W (Width.of (M.table64 t)) type t ops := by
  simp only [HelperOp.lower]
  cases M.table64 t <;> rfl

theorem interp_memorySize (M : Module) (m : Nat) (ops : List Value) :
    x.interp polls W ops ((HelperOp.memorySize m).lower M) = x.runMemorySize W (Width.of (M.memory64 m)) m := by
  simp only [HelperOp.lower]
  cases M.memory64 m <;> rfl

theorem interp_memoryGrow (M : Module) (m : Nat) (ops : List Value) :
    x.interp polls W ops ((HelperOp.memoryGrow m).lower M) =
      x.runMemoryGrow polls W (Width.of (M.memory64 m)) m ops := by
  simp only [HelperOp.lower]
  cases M.memory64 m <;> rfl

theorem interp_memoryFill (M : Module) (m : Nat) (ops : List Value) :
    x.interp polls W ops ((HelperOp.memoryFill m).lower M) =
      x.runMemoryFill polls W (Width.of (M.memory64 m)) m ops := by
  simp only [HelperOp.lower]
  cases M.memory64 m <;> rfl

theorem interp_memoryInit (M : Module) (data m : Nat) (ops : List Value) :
    x.interp polls W ops ((HelperOp.memoryInit data m).lower M) =
      x.runMemoryInit polls W (Width.of (M.memory64 m)) data m ops := by
  simp only [HelperOp.lower]
  cases M.memory64 m <;> rfl

theorem interp_memoryCopy (M : Module) (dst src : Nat) (ops : List Value) :
    x.interp polls W ops ((HelperOp.memoryCopy dst src).lower M) =
      x.runMemoryCopy polls W (Width.of (M.memory64 src)) (Width.of (M.memory64 dst))
        (Width.of (M.memory64 dst && M.memory64 src)) dst src ops := by
  simp only [HelperOp.lower]
  cases M.memory64 dst <;> cases M.memory64 src <;> rfl

theorem bulk_agree (hop : op.bulk = true) {ops ops' : List Value} (h : SameOperands op ops ops') :
    SameOutcome op (x.interp polls W ops (op.lower (W.modules x.c).decl)) (x.native polls W ops' op) := by
  cases op with
  | memoryFill m =>
    rw [interp_memoryFill]
    change SameOutcome _ _ (x.nativeMemoryFill polls W m ops')
    unfold SameOperands at h
    split at h
    · rename_i hm
      cases hm
      obtain ⟨rfl, hv, rfl⟩ := h
      exact memoryFill_agree hv
    · rename_i hne
      subst h
      unfold runMemoryFill nativeMemoryFill
      split
      · exact absurd rfl (hne m _ _ _ _ _ _ rfl rfl)
      · exact .refl _
  | memoryInit d m =>
    rw [sameOperands_iff_eq fun _ => HelperOp.noConfusion] at h
    subst h
    rw [interp_memoryInit, memoryInit_eq]
    exact .refl _
  | memoryCopy dst src =>
    rw [sameOperands_iff_eq fun _ => HelperOp.noConfusion] at h
    subst h
    rw [interp_memoryCopy, memoryCopy_eq]
    exact .refl _
  | _ => cases hop

/-- one execution of an instruction other than a call through a table -/
theorem interp_agree (hC : W.Confined) (hj : W.jit x.c = true) (hv : x.Valid W op)
    (hop : ∀ type t, op ≠ .callIndirect type t) (ops : List Value) :
    SameOutcome op (x.interp polls W ops (op.lower (W.modules x.c).decl)) (x.native polls W ops op) := by
  cases op with
  | call f =>
    change SameOutcome _ (x.runCall W f ops) _
    rw [call_eq hC hj hv]
    exact .refl _
  | callIndirect type t => exact absurd rfl (hop type t)
  | memorySize m =>
    rw [interp_memorySize, memorySize_eq hC hj hv]
    exact .refl _
  | memoryGrow m =>
    rw [interp_memoryGrow, memoryGrow_eq]
    exact .refl _
  | _ => exact bulk_agree rfl (.refl _ _)

/-- a call through a table agrees as long as the cut index leads to the same function -/
theorem callIndirect_agree_iff (hC : W.Confined) (hj : W.jit x.c = true) (type t : Nat) (ops : List Value) :
    x.interp polls W ops ((HelperOp.callIndirect type t).lower (W.modules x.c).decl) =
        x.native polls W ops (.callIndirect type t) ↔
      x.IndexKept W (.callIndirect type t) ops := by
  rw [interp_callIndirect]
  cases ops with
  | nil => exact iff_of_true rfl trivial
  | cons index args =>
    change x.indirectBody W type t ((Width.of ((W.modules x.c).decl.table64 t)).read index) args =
      x.nativeCallIndirect W type t (index :: args) ↔ _
    rw [indirectBody_eq hC hj, nativeCallIndirect_eq hC hj, IndexKept]
    cases (W.modules x.c).decl.table64 t with
    | false =>
      rw [show (Width.of false).read index = (index.setWidth 32).setWidth 64 from rfl,
        BitVec.toNat_setWidth_of_le (by decide), BitVec.toNat_setWidth]
      simp
    | true =>
      constructor
      · intro h
        exact .inr (.inr (enterCallee_injective (fun _ => callee_local hC hj) (fun _ => callee_local hC hj) h))
      · rintro (h | h | h)
        · cases h
        · rw [Nat.mod_eq_of_lt h]
          rfl
        · rw [← h]
          rfl

theorem interp_callIndirect_final (hC : W.Confined) (hj : W.jit x.c = true) (type t : Nat) (ops l : List Value)
    (V : NativeWorld) :
    x.interp polls W ops ((HelperOp.callIndirect type t).lower (W.modules x.c).decl) ≠ .yielded l V := by
  rw [interp_callIndirect]
  cases ops with
  | nil => exact Outcome.noConfusion
  | cons index args =>
    rw [runCallIndirect, indirectBody_eq hC hj]
    unfold enterCallee
    split
    · exact Outcome.noConfusion
    · split <;> exact Outcome.noConfusion

/-! ## Runs -/

theorem resumeRun_final {c : CtxId} {exec : Polls → NativeWorld → List Value → Outcome} {ops : List Value}
    (h : ∀ l V, exec polls W ops ≠ .yielded l V) (turns : List (Turn c)) :
    resumeRun exec turns polls W ops = exec polls W ops := by
  cases turns with
  | nil => rfl
  | cons t ts =>
    unfold resumeRun
    split
    · exact absurd ‹_› (h _ _)
    · rfl

/-- operations that agree and leave the module of the context alone agree over every run -/
theorem resumeRun_agree {exec exec' : Polls → NativeWorld → List Value → Outcome} {c : CtxId} {M : LoadedModule}
    (hstep : ∀ polls W ops ops', W.modules c = M → SameOperands op ops ops' →
      SameOutcome op (exec polls W ops) (exec' polls W ops'))
    (hmod : ∀ polls W ops l V, exec' polls W ops = .yielded l V → V.modules = W.modules)
    (turns : List (Turn c)) {ops ops' : List Value} (hW : W.modules c = M) (h : SameOperands op ops ops') :
    SameOutcome op (resumeRun exec turns polls W ops) (resumeRun exec' turns polls W ops') := by
  induction turns generalizing polls W ops ops' with
  | nil => exact hstep polls W ops ops' hW h
  | cons t ts ih =>
    have hs := hstep polls W ops ops' hW h
    have hm := hmod polls W ops'
    unfold resumeRun
    generalize exec polls W ops = o at hs
    generalize exec' polls W ops' = o' at hs hm
    have hnext : ∀ l l' V, o' = .yielded l' V → SameOperands op l l' →
        SameOutcome op (resumeRun exec ts t.polls (t.others V) l) (resumeRun exec' ts t.polls (t.others V) l') := by
      intro l l' V ho hl
      refine ih ?_ hl
      rw [t.keeps, hm l' V ho, hW]
    cases hs with
    | refl =>
      cases o with
      | yielded l V => exact hnext l l V rfl (.refl _ _)
      | _ => exact .refl _
    | yielded V hl => exact hnext _ _ V rfl hl

/-- **Native calls and memory operations agree with the interpreter, up to the width of a table index.** For every
reachable state, every context that runs natively, every operand and every sequence of yields and resumptions, an
instruction has the outcome its handler has, with the same world, unless it calls through a 64-bit table with an index
whose low 32 bits lead elsewhere. -/
theorem native_ops_agree_iff (hW : NativeWorld.Reached W) (hj : W.jit x.c = true) (hv : x.Valid W op)
    (turns : List (Turn x.c)) (ops : List Value) :
    SameOutcome op (x.runInterp (W.modules x.c).decl op turns polls W ops) (x.runNative op turns polls W ops) ↔
      x.IndexKept W op ops := by
  have hC := NativeWorld.confined_empty.leads hW
  unfold runInterp runNative
  by_cases hop : op.bulk = true
  · refine iff_of_true ?_ ?_
    · refine resumeRun_agree (fun polls V ops ops' hV h => ?_) (fun polls V ops l U => native_modules) turns rfl (.refl _ _)
      rw [← hV]
      exact bulk_agree hop h
    · cases op with
      | callIndirect => cases hop
      | _ => trivial
  · have hfinal : ∀ l V, x.native polls W ops op ≠ .yielded l V := native_final (by simpa using hop) ops
    have hn : resumeRun (fun polls W ops => x.native polls W ops op) turns polls W ops = x.native polls W ops op :=
      resumeRun_final hfinal turns
    rw [hn]
    by_cases hi : ∃ type t, op = .callIndirect type t
    · obtain ⟨type, t, rfl⟩ := hi
      rw [resumeRun_final (interp_callIndirect_final hC hj type t ops), sameOutcome_iff_eq fun _ => HelperOp.noConfusion]
      exact callIndirect_agree_iff hC hj type t ops
    · push Not at hi
      have hagree : SameOutcome op (x.interp polls W ops (op.lower (W.modules x.c).decl)) (x.native polls W ops op) :=
        interp_agree hC hj hv hi ops
      rw [resumeRun_final fun l V he => ?_]
      · refine iff_of_true hagree ?_
        cases op with
        | callIndirect type t => exact absurd rfl (hi type t)
        | _ => trivial
      · rw [he] at hagree
        generalize x.native polls W ops op = o at hagree hfinal
        cases hagree <;> exact hfinal _ _ rfl

/-! ## A 64-bit table -/

/-- a function of a 64-bit table of one entry, and one that calls entry 2^32 -/
def wideTable : WasmModule where
  id := 1
  decl := { typeDefs := [{ kind := .func }], funcs := [0, 0], tables := [⟨.ref true (.abs .func), .i64⟩] }
  tableInits := [some (.func 0)]
  code := [⟨0, [], [.end_]⟩, ⟨0, [], [.data (.plain (.i64Const 4294967296)), .call (.indirect 0 0), .end_]⟩]

def wideTableRun : List NativeWorld.Op :=
  [.newContext 0 (wideTable.load false true false true)
      ⟨fun _ => 0, fun | .memory => [] | .table => [⟨1, 1, some 6⟩]⟩ (-1) fun _ => true,
    .shared (.share 0), .initTable 0 0 0 7, .jitInstantiate 0 true, .shared (.finish 0)]

def wideTableWorld : NativeWorld := (NativeWorld.empty.run wideTableRun).get rfl

theorem wideTableWorld_reached : NativeWorld.Reached wideTableWorld :=
  (NativeWorld.Leads.refl NativeWorld.empty).run (Option.some_get (x := NativeWorld.empty.run wideTableRun) rfl).symm

def wideTableCtx : OpCtx := ⟨0, fun _ => [], fun _ => false, fun _ type => decide (type = 0)⟩

def noPolls : Polls := ⟨false, fun _ => false, none⟩

theorem native_ops_agree_sample :
    SameOutcome (.callIndirect 0 0)
      (wideTableCtx.runInterp wideTable.decl (.callIndirect 0 0) [] noPolls wideTableWorld [0])
      (wideTableCtx.runNative (.callIndirect 0 0) [] noPolls wideTableWorld [0]) :=
  have hv : wideTableCtx.Valid wideTableWorld (.callIndirect 0 0) := trivial
  (native_ops_agree_iff wideTableWorld_reached (x := wideTableCtx) rfl hv [] [0]).2 (.inr (.inl (by decide)))

/-- entry 2^32 of the table is entry 0 for native code, and out of bounds for the interpreter -/
theorem native_cuts_table_index : ¬ ∀ (x : OpCtx) (W : NativeWorld) (op : HelperOp) (turns : List (Turn x.c)) (polls : Polls)
    (ops : List Value), NativeWorld.Reached W → W.jit x.c = true → x.Valid W op →
    SameOutcome op (x.runInterp (W.modules x.c).decl op turns polls W ops) (x.runNative op turns polls W ops) := by
  intro h
  have h := h wideTableCtx wideTableWorld (.callIndirect 0 0) [] noPolls [4294967296] wideTableWorld_reached rfl trivial
  rw [sameOutcome_iff_eq fun _ => HelperOp.noConfusion] at h
  have hi : wideTableCtx.runInterp (wideTableWorld.modules wideTableCtx.c).decl (.callIndirect 0 0) [] noPolls
      wideTableWorld [4294967296] = .error .trap wideTableWorld := rfl
  have hn : wideTableCtx.runNative (.callIndirect 0 0) [] noPolls wideTableWorld [4294967296] =
      .enter 1 0 0 [] wideTableWorld := rfl
  exact Outcome.noConfusion (hi.symm.trans (h.trans hn))

end OpCtx

end Wah
