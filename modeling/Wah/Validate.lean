/-
The single-pass validator: type stack, control stack, one opcode at a time.

`validateOpcode` is `wah_validate_opcode` on decoded instructions: it updates the validation context and returns the
decoded instruction to lower, if any. `nop`, `any.convert_extern` and `extern.convert_any` leave nothing behind.
The operand stack is a list with its top first; its length is both `type_stack.sp` and `current_stack_depth`, which
the source moves together. Initialised locals are the entries of the undo list, of which `inits` is the index.
-/
import Wah.Instr

namespace Wah

inductive WahError where
  | validationFailed | tooLarge | malformed
deriving DecidableEq, Repr

/-- `WAH_ENSURE(p, WAH_ERROR_VALIDATION_FAILED)` -/
def ensure (p : Prop) [Decidable p] : Except WahError Unit :=
  if p then .ok () else .error .validationFailed

/-- `WAH_ENSURE(p, WAH_ERROR_TOO_LARGE)` -/
def ensureLimit (p : Prop) [Decidable p] : Except WahError Unit :=
  if p then .ok () else .error .tooLarge

/-- an index check followed by the access -/
def look {α : Type} (o : Option α) : Except WahError α :=
  match o with
  | some a => .ok a
  | none => .error .validationFailed

/-- what opened a control frame -/
inductive FrameOp where
  | block | loop | if_ | tryTable
deriving DecidableEq, Repr

/-- `wah_validation_control_frame_t` -/
structure CtrlFrame where
  opcode : FrameOp
  params : List Ty
  results : List Ty
  elseFound : Bool := false
  /-- `is_unreachable` of the context when the frame was opened -/
  isUnreachable : Bool := false
  stackHeight : Nat := 0
  undoBase : Nat := 0
deriving DecidableEq, Repr

/-- the mutable part of `wah_validation_context_t`; `ctrl` has the innermost frame first -/
structure VCtx where
  stack : List Ty := []
  /-- slots below have not changed since the last ref-map capture -/
  lwm : Nat := 0
  ctrl : List CtrlFrame := []
  isUnreachable : Bool := false
  maxStackDepth : Nat := 0
  /-- locals initialised so far, the last one first -/
  undo : List Nat := []
  minDataSegments : Nat := 0
deriving DecidableEq, Repr

/-- what stays fixed while a function body is validated -/
structure FuncCtx where
  module : Module
  func : FuncType
  /-- declared locals, after the parameters -/
  locals : List Ty
deriving Repr

def maxTypeStackSize : Nat := 1024
def maxControlDepth : Nat := 256

namespace VCtx

/-- `current_stack_depth` -/
def height (v : VCtx) : Nat := v.stack.length

/-- `wah_validation_block_base_height` -/
def baseHeight (v : VCtx) : Nat :=
  match v.ctrl with
  | [] => 0
  | f :: _ => f.stackHeight

/-- `wah_type_stack_truncate` -/
def truncate (v : VCtx) (sp : Nat) : VCtx :=
  { v with stack := v.stack.drop (v.height - sp), lwm := min v.lwm sp }

/-- `wah_validation_push_type` -/
def pushType (v : VCtx) (t : Ty) : Except WahError VCtx :=
  if v.height < maxTypeStackSize then
    .ok { v with stack := t :: v.stack, maxStackDepth := max v.maxStackDepth (v.height + 1) }
  else .error .tooLarge

/-- `wah_validation_pop_type` -/
def popType (v : VCtx) : Except WahError (Ty × VCtx) :=
  if v.height ≤ v.baseHeight then
    if v.isUnreachable then .ok (.bot, v) else .error .validationFailed
  else
    match v.stack with
    | [] => .error .validationFailed
    | t :: ts => .ok (t, { v with stack := ts, lwm := min v.lwm ts.length })

/-- `wah_validation_at_unreachable_base` -/
def atUnreachableBase (v : VCtx) : Bool := v.isUnreachable && decide (v.height ≤ v.baseHeight)

/-- `wah_validation_pop_and_match_type` -/
def popMatch (M : Module) (v : VCtx) (expected : Ty) : Except WahError VCtx := do
  let (actual, v) ← v.popType
  ensure (M.typeMatches actual expected = true)
  return v

/-- pops the given types in order; parameter lists are popped from their end -/
def popMatches (M : Module) (v : VCtx) : List Ty → Except WahError VCtx
  | [] => .ok v
  | t :: ts => do
    let v ← v.popMatch M t
    popMatches M v ts

/-- `wah_validation_push_func_results` and the loops like it -/
def pushTypes (v : VCtx) : List Ty → Except WahError VCtx
  | [] => .ok v
  | t :: ts => do
    let v ← v.pushType t
    pushTypes v ts

/-- `wah_validation_mark_unreachable` -/
def markUnreachable (v : VCtx) : VCtx :=
  { (if v.baseHeight < v.height then v.truncate v.baseHeight else v) with isUnreachable := true }

/-- `wah_local_inits_revert` to a length of the undo list -/
def revertInits (v : VCtx) (undoBase : Nat) : VCtx := { v with undo := v.undo.drop (v.undo.length - undoBase) }

/-- raises `max_stack_depth`, as a catch payload does -/
def noteDepth (v : VCtx) (n : Nat) : VCtx := { v with maxStackDepth := max v.maxStackDepth n }

/-- `min_data_segment_count_required` -/
def noteData (v : VCtx) (n : Nat) : VCtx := { v with minDataSegments := max v.minDataSegments (n + 1) }

/-- `wah_validation_resolve_br_target`: label types and stack height; the label after the frames is the function -/
def brTarget (v : VCtx) (ft : FuncType) (l : Nat) : Option (List Ty × Nat) :=
  if l = v.ctrl.length then some (ft.results, 0)
  else (v.ctrl[l]?).map fun f => (if f.opcode = .loop then f.params else f.results, f.stackHeight)

end VCtx

/-! ## Plain instructions -/

/-- checks shared by loads and stores; returns the address type -/
def checkMemArg (M : Module) (m : MemArg) (maxLgAlign : Nat) : Except WahError Ty := do
  ensure (m.align ≤ maxLgAlign)
  let addr ← look M.memories[m.memidx]?
  ensure (addr = .i32 → m.offset ≤ 0xFFFFFFFF)
  return addr

/-- the smaller of two address types -/
def sizeType (dst src : Ty) : Ty := if dst = .i64 ∧ src = .i64 then .i64 else .i32

/-- a type definition of the given kind -/
def typeDefOf (M : Module) (kind : CompKind) (t : Nat) : Except WahError TypeDef := do
  let td ← look M.typeDefs[t]?
  ensure (td.kind = kind)
  return td

/-- `WAH_TYPE_FROM_IDX(t, null)` -/
def idxRef (null : Bool) (t : Nat) : Ty := .ref null (.idx t)

/-- a decoded reference to a type is in range -/
def heapInRange (M : Module) : HeapTy → Prop
  | .idx n => n < M.typeDefs.length
  | .abs _ => True

instance (M : Module) (h : HeapTy) : Decidable (heapInRange M h) := by
  cases h <;> unfold heapInRange <;> infer_instance

def tyInRange (M : Module) : Ty → Prop
  | .ref _ h => heapInRange M h
  | _ => True

instance (M : Module) (t : Ty) : Decidable (tyInRange M t) := by
  cases t <;> unfold tyInRange <;> infer_instance

/-- operand types in the order they are popped, and pushed types, after the immediates have been checked -/
def plainSig (M : Module) : PlainOp → Except WahError (List Ty × List Ty)
  | .numeric cls _ => return cls.sig
  | .load op m => do let a ← checkMemArg M m op.row.2; return ([a], [op.row.1])
  | .store op m => do let a ← checkMemArg M m op.row.2; return ([op.row.1, a], [])
  | .loadLane w m lane => do
    ensure (lane < 16 >>> w.lg)
    let a ← checkMemArg M m w.lg
    return ([.v128, a], [.v128])
  | .storeLane w m lane => do
    ensure (lane < 16 >>> w.lg)
    let a ← checkMemArg M m w.lg
    return ([.v128, a], [])
  | .extractLane s _ lane => do ensure (lane < s.row.2); return ([.v128], [s.row.1])
  | .replaceLane s lane => do ensure (lane < s.row.2); return ([s.row.1, .v128], [.v128])
  | .shuffle lanes => do ensure (∀ l ∈ lanes, l < 32); return ([.v128, .v128], [.v128])
  | .memorySize m => do let a ← look M.memories[m]?; return ([], [a])
  | .memoryGrow m => do let a ← look M.memories[m]?; return ([a], [a])
  | .memoryFill m => do let a ← look M.memories[m]?; return ([a, .i32, a], [])
  | .memoryInit data m => do
    let a ← look M.memories[m]?
    ensure (data < 0xFFFFFFFF)
    return ([.i32, .i32, a], [])
  | .dataDrop data => do ensure (data < 0xFFFFFFFF); return ([], [])
  | .memoryCopy dst src => do
    let d ← look M.memories[dst]?
    let s ← look M.memories[src]?
    return ([sizeType d s, s, d], [])
  | .globalGet g => do let gt ← look M.globals[g]?; return ([], [gt.type])
  | .globalSet g => do
    let gt ← look M.globals[g]?
    ensure (gt.mutable = true)
    return ([gt.type], [])
  | .tableGet t => do let tt ← look M.tables[t]?; return ([tt.addrType], [tt.elemType])
  | .tableSet t => do let tt ← look M.tables[t]?; return ([tt.elemType, tt.addrType], [])
  | .tableSize t => do let tt ← look M.tables[t]?; return ([], [tt.addrType])
  | .tableGrow t => do let tt ← look M.tables[t]?; return ([tt.addrType, tt.elemType], [tt.addrType])
  | .tableFill t => do
    let tt ← look M.tables[t]?
    return ([tt.addrType, tt.elemType, tt.addrType], [])
  | .tableCopy dst src => do
    let d ← look M.tables[dst]?
    let s ← look M.tables[src]?
    ensure (M.typeMatches s.elemType d.elemType = true)
    return ([sizeType d.addrType s.addrType, s.addrType, d.addrType], [])
  | .tableInit elem t => do
    let seg ← look M.elemSegments[elem]?
    let tt ← look M.tables[t]?
    ensure (M.typeMatches seg tt.elemType = true)
    return ([.i32, .i32, tt.addrType], [])
  | .elemDrop elem => do let _ ← look M.elemSegments[elem]?; return ([], [])
  | .i32Const _ => return ([], [.i32])
  | .i64Const _ => return ([], [.i64])
  | .f32Const _ => return ([], [.f32])
  | .f64Const _ => return ([], [.f64])
  | .v128Const _ => return ([], [.v128])
  | .f32DemoteF64 => return ([.f64], [.f32])
  | .f64PromoteF32 => return ([.f32], [.f64])
  | .selectT ts =>
    match ts with
    | [t] => do ensure (tyInRange M t); return ([.i32, t, t], [t])
    | _ => .error .validationFailed
  | .refNull h => do ensure (heapInRange M h); return ([], [.ref true h])
  | .refFunc f => do
    let t ← look M.funcs[f]?
    ensure (f ∈ M.declaredFuncs)
    return ([], [idxRef false t])
  | .refEq => return ([.ref true (.abs .eq), .ref true (.abs .eq)], [.i32])
  | .refI31 => return ([.i32], [.ref false (.abs .i31)])
  | .i31Get _ => return ([.ref true (.abs .i31)], [.i32])
  | .structNewDefault t => do
    let td ← typeDefOf M .struct t
    ensure (td.nonDefaultable = false)
    return ([], [idxRef false t])
  | .structGet t f => do
    let td ← typeDefOf M .struct t
    let ft ← look td.fieldTypes[f]?
    ensure (ft.isPacked = false)
    return ([idxRef true t], [ft.unpacked])
  | .structGetPacked _ t f => do
    let td ← typeDefOf M .struct t
    let ft ← look td.fieldTypes[f]?
    ensure (ft.isPacked = true)
    return ([idxRef true t], [ft.unpacked])
  | .structSet t f => do
    let td ← typeDefOf M .struct t
    let ft ← look td.fieldTypes[f]?
    ensure (td.fieldMutables[f]? = some true)
    return ([ft.unpacked, idxRef true t], [])
  | .arrayNew t => do
    let td ← typeDefOf M .array t
    let et ← look td.fieldTypes[0]?
    return ([.i32, et.unpacked], [idxRef false t])
  | .arrayNewDefault t => do
    let td ← typeDefOf M .array t
    let et ← look td.fieldTypes[0]?
    ensure (et.isRef = true → et.isNullable = true)
    return ([.i32], [idxRef false t])
  | .arrayGet t => do
    let td ← typeDefOf M .array t
    let et ← look td.fieldTypes[0]?
    ensure (et.isPacked = false)
    return ([.i32, idxRef true t], [et.unpacked])
  | .arrayGetPacked _ t => do
    let td ← typeDefOf M .array t
    let et ← look td.fieldTypes[0]?
    ensure (et.isPacked = true)
    return ([.i32, idxRef true t], [et.unpacked])
  | .arraySet t => do
    let td ← typeDefOf M .array t
    let et ← look td.fieldTypes[0]?
    ensure (td.fieldMutables[0]? = some true)
    return ([et.unpacked, .i32, idxRef true t], [])
  | .arrayNewData t data => do
    let td ← typeDefOf M .array t
    let et ← look td.fieldTypes[0]?
    ensure (et.isRef = false)
    ensure (data < M.dataSegmentCount)
    return ([.i32, .i32], [idxRef false t])
  | .arrayNewElem t elem => do
    let td ← typeDefOf M .array t
    let et ← look td.fieldTypes[0]?
    let seg ← look M.elemSegments[elem]?
    ensure (M.typeMatches seg et = true)
    return ([.i32, .i32], [idxRef false t])
  | .arrayFill t => do
    let td ← typeDefOf M .array t
    let et ← look td.fieldTypes[0]?
    ensure (td.fieldMutables[0]? = some true)
    return ([.i32, et.unpacked, .i32, idxRef true t], [])
  | .arrayCopy dst src => do
    let dtd ← typeDefOf M .array dst
    let det ← look dtd.fieldTypes[0]?
    ensure (dtd.fieldMutables[0]? = some true)
    let std ← typeDefOf M .array src
    let set ← look std.fieldTypes[0]?
    ensure (M.typeMatches set det = true)
    return ([.i32, .i32, idxRef true src, .i32, idxRef true dst], [])
  | .arrayInitData t data => do
    let td ← typeDefOf M .array t
    let et ← look td.fieldTypes[0]?
    ensure (td.fieldMutables[0]? = some true)
    ensure (et.isRef = false)
    ensure (data < M.dataSegmentCount)
    return ([.i32, .i32, .i32, idxRef true t], [])
  | .arrayInitElem t elem => do
    let td ← typeDefOf M .array t
    let et ← look td.fieldTypes[0]?
    ensure (td.fieldMutables[0]? = some true)
    ensure (et.isRef = true)
    let seg ← look M.elemSegments[elem]?
    ensure (M.typeMatches seg et = true)
    return ([.i32, .i32, .i32, idxRef true t], [])

/-- data segment indices are only recorded, and checked against the data section after the code -/
def PlainOp.noteData (v : VCtx) : PlainOp → VCtx
  | .memoryInit data _ | .dataDrop data => v.noteData data
  | _ => v

/-! ## Data instructions -/

/-- `struct.new` and `array.new_fixed` stop popping at the block base, below which everything is bottom -/
def popFields (M : Module) (v : VCtx) (fields : List Ty) : Except WahError VCtx := do
  let avail := v.height - v.baseHeight
  ensure (v.isUnreachable = true ∨ fields.length ≤ avail)
  v.popMatches M ((fields.map Ty.unpacked).take avail)

/-- a reference operand of any hierarchy -/
def popRef (v : VCtx) : Except WahError (Ty × VCtx) := do
  let (t, v) ← v.popType
  ensure (t.isRef = true ∨ t = .bot)
  return (t, v)

/-- `ref.test` and `ref.cast`: the operand shares the hierarchy of the target -/
def popCastOperand (M : Module) (v : VCtx) (h : HeapTy) : Except WahError VCtx := do
  ensure (heapInRange M h)
  let (t, v) ← popRef v
  ensure (t = .bot ∨ (M.hierarchyTop t ≠ none ∧ M.hierarchyTop t = M.typeHierarchyTop h))
  return v

/-- numeric and vector types, the only operands of `select` without annotation -/
def Ty.isNumOrVec : Ty → Bool
  | .i32 | .i64 | .f32 | .f64 | .v128 => true
  | _ => false

/-- the `switch` cases of `wah_validate_opcode` for data instructions -/
def validateData (M : Module) (v : VCtx) : DataOp → Except WahError VCtx
  | .plain p => do
    let (pops, pushes) ← plainSig M p
    let v ← v.popMatches M pops
    (p.noteData v).pushTypes pushes
  | .structNew t => do
    let td ← typeDefOf M .struct t
    let v ← popFields M v td.fieldTypes.reverse
    v.pushType (idxRef false t)
  | .arrayNewFixed t length => do
    let td ← typeDefOf M .array t
    let et ← look td.fieldTypes[0]?
    let v ← popFields M v (List.replicate length et)
    v.pushType (idxRef false t)
  | .drop => do
    let (_, v) ← v.popType
    return v
  | .select => do
    let v ← v.popMatch M .i32
    let (b, v) ← v.popType
    let (a, v) ← v.popType
    ensure (a = b ∨ a = .bot ∨ b = .bot)
    let resolved := if a ≠ .bot then a else b
    ensure (resolved ≠ .bot → resolved.isNumOrVec = true)
    v.pushType resolved
  | .refIsNull => do
    let (_, v) ← popRef v
    v.pushType .i32
  | .arrayLen => do
    let (t, v) ← v.popType
    ensure (t = .bot ∨ M.typeIsSubtype t (.ref true (.abs .array)) = true)
    v.pushType .i32
  | .refAsNonNull => do
    let (t, v) ← popRef v
    v.pushType (if t = .bot then .bot else t.asNonNull)
  | .refTest _ h => do
    let v ← popCastOperand M v h
    v.pushType .i32
  | .refCast null h => do
    let v ← popCastOperand M v h
    v.pushType (.ref null h)

/-! ## Decoded instructions -/

/-- a catch clause with the number of values to drop below the `try_table`'s operands -/
structure DCatch where
  kind : CatchKind
  tag : Nat
  label : Nat
  drop : Nat
deriving DecidableEq, Repr

/-- `wah_br_table_imm_t`: one record per distinct label, and the record of every target, default last -/
structure BrTableImm where
  keep : Nat
  /-- label and drop of every record -/
  records : List (Nat × Nat)
  targets : List Nat
deriving DecidableEq, Repr

/-- opcode and immediates of `wah_decoded_instr_t` -/
inductive DOp where
  /-- an instruction lowered as it is -/
  | op (i : Instr)
  | block (bt : BlockType) | loop (bt : BlockType) | if_ (bt : BlockType) | else_ | end_
  | br (l keep drop : Nat) | brIf (l keep drop : Nat)
  | brOnNull (l keep drop : Nat) | brOnNonNull (l keep drop : Nat)
  | brOnCast (fail : Bool) (dstNull : Bool) (dst : HeapTy) (l keep drop : Nat)
  | brTable (imm : BrTableImm)
  | tryTable (bt : BlockType) (catches : List DCatch)
deriving DecidableEq, Repr

/-! ## Control instructions -/

/-- `wah_validation_decode_block_type` after decoding -/
def blockSig (M : Module) : BlockType → Except WahError (List Ty × List Ty)
  | .empty => return ([], [])
  | .single t => do ensure (tyInRange M t); return ([], [t])
  | .idx n => do
    let td ← typeDefOf M .func n
    return (td.func.params, td.func.results)

/-- opens a frame: parameters are popped against the parent's base and pushed above the new one -/
def openFrame (M : Module) (v : VCtx) (opcode : FrameOp) (bt : BlockType) : Except WahError VCtx := do
  ensureLimit (v.ctrl.length < maxControlDepth)
  let (params, results) ← blockSig M bt
  let outer := v.isUnreachable
  let v ← v.popMatches M params.reverse
  let f : CtrlFrame :=
    { opcode := opcode, params := params, results := results, isUnreachable := outer,
      stackHeight := v.height, undoBase := v.undo.length }
  let v ← { v with ctrl := f :: v.ctrl }.pushTypes params
  return { v with isUnreachable := false }

/-- pops the results of the innermost frame, which must then be empty -/
def closeResults (M : Module) (v : VCtx) (f : CtrlFrame) : Except WahError VCtx := do
  let v ← v.popMatches M f.results.reverse
  ensure (v.height = f.stackHeight)
  return (v.truncate f.stackHeight).revertInits f.undoBase

/-- pairwise `wah_validate_type_match` of two lists of the same length -/
def typesMatch (M : Module) (as es : List Ty) : Prop :=
  as.length = es.length ∧ ∀ p ∈ as.zip es, M.typeMatches p.1 p.2 = true

instance (M : Module) (as es : List Ty) : Decidable (typesMatch M as es) := by
  unfold typesMatch; infer_instance

def validateElse (M : Module) (v : VCtx) : Except WahError VCtx :=
  match v.ctrl with
  | [] => .error .validationFailed
  | f :: fs => do
    ensure (f.opcode = .if_ ∧ f.elseFound = false)
    let v ← closeResults M v f
    let v ← { v with ctrl := { f with elseFound := true } :: fs }.pushTypes f.params
    return { v with isUnreachable := false }

def validateEnd (M : Module) (v : VCtx) : Except WahError VCtx :=
  match v.ctrl with
  | [] => .error .validationFailed
  | f :: fs => do
    -- the implicit else passes the parameters as results
    ensure (f.opcode = .if_ → f.elseFound = false → typesMatch M f.params f.results)
    let v ← closeResults M v f
    { v with ctrl := fs, isUnreachable := f.isUnreachable }.pushTypes f.results

/-- values kept and dropped by a branch with `n` values above `h`, of which `below` are still to be popped;
both are zero in dead code, where heights mean nothing -/
def keepDrop (v : VCtx) (h n below : Nat) : Except WahError (Nat × Nat) :=
  if v.isUnreachable then .ok (0, 0)
  else do
    ensure (h + below ≤ v.height)
    return (n, v.height - h - below)

/-- pops the values of a label; nothing is checked when the frame is empty in dead code -/
def popLabel (M : Module) (v : VCtx) (ts : List Ty) : Except WahError VCtx :=
  if v.atUnreachableBase then .ok v else v.popMatches M ts.reverse

/-- `br_if` pushes the label's values back, `br` goes nowhere else -/
def afterBr (v : VCtx) (ts : List Ty) (isBrIf : Bool) : Except WahError VCtx :=
  if isBrIf then v.pushTypes ts else .ok v.markUnreachable

/-- `br` and `br_if` after the condition -/
def validateBr (M : Module) (ft : FuncType) (v : VCtx) (l : Nat) (isBrIf : Bool) :
    Except WahError (VCtx × Nat × Nat) := do
  let (ts, h) ← look (v.brTarget ft l)
  let (keep, drop) ← keepDrop v h ts.length ts.length
  ensure (v.isUnreachable = false → isBrIf = false → v.baseHeight + ts.length ≤ v.height)
  let v ← popLabel M v ts
  let v ← afterBr v ts isBrIf
  return (v, keep, drop)

/-- the labels of a `br_table` in order of first occurrence -/
def recordLabels (ls : List Nat) : List Nat :=
  ls.foldl (fun acc l => if l ∈ acc then acc else acc ++ [l]) []

/-- pops one operand per type and returns them in the order popped -/
def popTypes (M : Module) (v : VCtx) : List Ty → Except WahError (List Ty × VCtx)
  | [] => .ok ([], v)
  | t :: ts => do
    let (a, v) ← v.popType
    ensure (M.typeMatches a t = true)
    let (as, v) ← popTypes M v ts
    return (a :: as, v)

/-- label types and drop of one record -/
def brTableRecord (v : VCtx) (ft : FuncType) (n : Nat) (l : Nat) : Except WahError (List Ty × Nat × Nat) := do
  let (ts, h) ← look (v.brTarget ft l)
  ensure (ts.length = n)
  ensure (v.isUnreachable = true ∨ h + n ≤ v.height)
  return (ts, l, if v.isUnreachable then 0 else v.height - h - n)

/-- the records of a `br_table` in order -/
def brTableRecords (v : VCtx) (ft : FuncType) (n : Nat) : List Nat → Except WahError (List (List Ty × Nat × Nat))
  | [] => .ok []
  | l :: ls => do
    let r ← brTableRecord v ft n l
    let rs ← brTableRecords v ft n ls
    return r :: rs

/-- pops the values of a `br_table` once, and checks them against every label -/
def popBrTable (M : Module) (v : VCtx) (ts : List Ty) (recs : List (List Ty × Nat × Nat)) : Except WahError VCtx :=
  if ts.length > 0 ∧ v.atUnreachableBase = false then do
    let (as, v) ← popTypes M v ts.reverse
    ensure (∀ r ∈ recs, typesMatch M as.reverse r.1)
    return v
  else .ok v

def validateBrTable (M : Module) (ft : FuncType) (v : VCtx) (ls : List Nat) (default : Nat) :
    Except WahError (VCtx × BrTableImm) := do
  let labels := ls ++ [default]
  let records := recordLabels labels
  ensure (∀ l ∈ labels, l ≤ v.ctrl.length)
  let v ← v.popMatch M .i32
  let (ts, _) ← look (v.brTarget ft default)
  let recs ← brTableRecords v ft ts.length records
  let keep := if v.isUnreachable then 0 else ts.length
  let v ← popBrTable M v ts recs
  return (v.markUnreachable,
    { keep := keep, records := recs.map Prod.snd, targets := labels.map fun l => records.idxOf l })

/-- the last type of the label of `br_on_non_null` takes the reference -/
def checkNonNull (M : Module) (ts : List Ty) (nn : Ty) (nonNull : Bool) : Except WahError Unit :=
  if nonNull then do
    let last ← look ts.getLast?
    ensure (M.typeIsSubtype nn last = true)
  else .ok ()

/-- `br_on_null` and `br_on_non_null`: the operand popped, then the label's prefix as for `br_if` -/
def validateBrOnNull (M : Module) (ft : FuncType) (v : VCtx) (l : Nat) (nonNull : Bool) :
    Except WahError (VCtx × Nat × Nat) := do
  ensure (l ≤ v.ctrl.length)
  let (t, v) ← popRef v
  let (ts, h) ← look (v.brTarget ft l)
  let nn := if t = .bot then .bot else t.asNonNull
  checkNonNull M ts nn nonNull
  let pre := if nonNull then ts.dropLast else ts
  let (keep, drop) ← keepDrop v h ts.length pre.length
  let v ← v.popMatches M pre.reverse
  let v ← v.pushTypes (if nonNull then pre else pre ++ [nn])
  return (v, keep, drop)

/-- the type left after a failed cast: null has been ruled out if it would have succeeded -/
def castDiff (srcNull dstNull : Bool) (src : HeapTy) : Ty := .ref (srcNull && !dstNull) src

def validateBrOnCast (M : Module) (ft : FuncType) (v : VCtx) (fail : Bool) (c : CastArgs) :
    Except WahError (VCtx × Nat × Nat) := do
  ensure (heapInRange M c.src ∧ heapInRange M c.dst)
  ensure (M.heapIsSubtype c.dst c.src = true)
  ensure (c.label ≤ v.ctrl.length)
  ensure (c.dstNull = true → c.srcNull = true)
  let v ← v.popMatch M (.ref c.srcNull c.src)
  let (ts, h) ← look (v.brTarget ft c.label)
  let last ← look ts.getLast?
  let matched := Ty.ref c.dstNull c.dst
  let failed := castDiff c.srcNull c.dstNull c.src
  ensure (M.typeMatches (if fail then failed else matched) last = true)
  let (keep, drop) ← keepDrop v h ts.length (ts.length - 1)
  let v ← v.popMatches M ts.dropLast.reverse
  let v ← v.pushTypes ts.dropLast
  let v ← v.pushType (if fail then matched else failed)
  return (v, keep, drop)

/-- operand types popped before the arguments, and the callee's type -/
def calleeSig (M : Module) : CallKind → Except WahError (List Ty × FuncType)
  | .direct f => do
    let t ← look M.funcs[f]?
    let td ← look M.typeDefs[t]?
    return ([], td.func)
  | .indirect type table => do
    let tt ← look M.tables[table]?
    ensure (M.typeIsSubtype tt.elemType (.ref true (.abs .func)) = true)
    let td ← typeDefOf M .func type
    return ([tt.addrType], td.func)
  | .ref type => do
    let td ← typeDefOf M .func type
    return ([idxRef true type], td.func)

/-- the function type of a tag -/
def tagType (M : Module) (tag : Nat) : Except WahError FuncType := do
  let t ← look M.tags[tag]?
  let td ← look M.typeDefs[t]?
  return td.func

/-- payload types a clause passes to its label, the exception reference aside -/
def catchTagParams (M : Module) (c : CatchClause) : Except WahError (List Ty) :=
  if c.kind.hasTag then (tagType M c.tag).map FuncType.params else .ok []

/-- one clause of a `try_table`, in the context of its frame opened at `base` with `n` parameters -/
def validateCatch (M : Module) (ft : FuncType) (base n : Nat) (v : VCtx) (c : CatchClause) :
    Except WahError (VCtx × DCatch) := do
  let (ts, h) ← look (v.brTarget ft (c.label + 1))
  ensure (h ≤ base)
  let params ← catchTagParams M c
  ensure (ts.length = params.length + (if c.kind.hasExnref then 1 else 0))
  ensure (typesMatch M params (ts.take params.length))
  ensure (c.kind.hasExnref = true → ∀ t ∈ ts.getLast?, M.typeMatches (.ref false (.abs .exn)) t = true)
  return (v.noteDepth (h + ts.length), { kind := c.kind, tag := c.tag, label := c.label, drop := base + n - h })

/-- the clauses in order -/
def validateCatches (M : Module) (ft : FuncType) (base n : Nat) (v : VCtx) :
    List CatchClause → Except WahError (VCtx × List DCatch)
  | [] => .ok (v, [])
  | c :: cs => do
    let (v, d) ← validateCatch M ft base n v c
    let (v, ds) ← validateCatches M ft base n v cs
    return (v, d :: ds)

def validateTryTable (M : Module) (ft : FuncType) (v : VCtx) (bt : BlockType) (cs : List CatchClause) :
    Except WahError (VCtx × List DCatch) := do
  ensureLimit (v.ctrl.length < maxControlDepth)
  let (params, results) ← blockSig M bt
  ensure (∀ c ∈ cs, (c.kind.hasTag = true → c.tag < M.tags.length) ∧ c.label ≤ v.ctrl.length)
  let outer := v.isUnreachable
  let v ← v.popMatches M params.reverse
  let f : CtrlFrame :=
    { opcode := .tryTable, params := params, results := results, isUnreachable := outer,
      stackHeight := v.height, undoBase := v.undo.length }
  let (v, ds) ← validateCatches M ft f.stackHeight params.length { v with ctrl := f :: v.ctrl } cs
  let v ← v.pushTypes params
  return ({ v with isUnreachable := false }, ds)

/-! ## Locals -/

def FuncCtx.localType (C : FuncCtx) (i : Nat) : Option Ty := (C.func.params ++ C.locals)[i]?

/-- `wah_validation_local_needs_init`: non-nullable references other than parameters -/
def FuncCtx.localNeedsInit (C : FuncCtx) (i : Nat) (t : Ty) : Bool :=
  decide (C.func.params.length ≤ i) && t.isRef && !t.isNullable

/-- `wah_validation_init_local` -/
def VCtx.initLocal (C : FuncCtx) (v : VCtx) (i : Nat) (t : Ty) : VCtx :=
  if C.localNeedsInit i t && !decide (i ∈ v.undo) then { v with undo := i :: v.undo } else v

/-! ## One opcode -/

/-- `wah_validate_opcode`: the context after the instruction, and what is left to lower -/
def validateOpcode (C : FuncCtx) (v : VCtx) (i : Instr) : Except WahError (VCtx × Option DOp) :=
  let M := C.module
  match i with
  | .data d => do
    let v ← validateData M v d
    return (v, some (.op i))
  | .nop => return (v, none)
  | .anyConvertExtern => do
    let (t, v) ← v.popType
    ensure (t = .bot ∨ M.hierarchyTop t = some .externRef)
    let v ← v.pushType (.ref t.isNullable (.abs .any))
    return (v, none)
  | .externConvertAny => do
    let (t, v) ← v.popType
    ensure (t = .bot ∨ M.hierarchyTop t = some .any)
    let v ← v.pushType (.ref t.isNullable (.abs .externRef))
    return (v, none)
  | .localGet n => do
    let t ← look (C.localType n)
    ensure (C.localNeedsInit n t = true → n ∈ v.undo)
    let v ← v.pushType t
    return (v, some (.op i))
  | .localSet n => do
    let t ← look (C.localType n)
    let v ← v.popMatch M t
    return (v.initLocal C n t, some (.op i))
  | .localTee n => do
    let t ← look (C.localType n)
    let v ← v.popMatch M t
    let v ← v.pushType t
    return (v.initLocal C n t, some (.op i))
  | .unreachable => return (v.markUnreachable, some (.op i))
  | .block bt => do
    let v ← openFrame M v .block bt
    return (v, some (.block bt))
  | .loop bt => do
    let v ← openFrame M v .loop bt
    return (v, some (.loop bt))
  | .if_ bt => do
    let v ← v.popMatch M .i32
    let v ← openFrame M v .if_ bt
    return (v, some (.if_ bt))
  | .else_ => do
    let v ← validateElse M v
    return (v, some .else_)
  | .end_ => do
    let v ← validateEnd M v
    return (v, some .end_)
  | .tryTable bt cs => do
    let (v, ds) ← validateTryTable M C.func v bt cs
    return (v, some (.tryTable bt ds))
  | .br l => do
    ensure (l ≤ v.ctrl.length)
    let (v, keep, drop) ← validateBr M C.func v l false
    return (v, some (.br l keep drop))
  | .brIf l => do
    ensure (l ≤ v.ctrl.length)
    let v ← v.popMatch M .i32
    let (v, keep, drop) ← validateBr M C.func v l true
    return (v, some (.brIf l keep drop))
  | .brTable ls d => do
    let (v, imm) ← validateBrTable M C.func v ls d
    return (v, some (.brTable imm))
  | .return_ => do
    ensure (v.isUnreachable = false → v.baseHeight + C.func.results.length ≤ v.height)
    let v ← popLabel M v C.func.results
    return (v.markUnreachable, some (.op i))
  | .brOnNull l => do
    let (v, keep, drop) ← validateBrOnNull M C.func v l false
    return (v, some (.brOnNull l keep drop))
  | .brOnNonNull l => do
    let (v, keep, drop) ← validateBrOnNull M C.func v l true
    return (v, some (.brOnNonNull l keep drop))
  | .brOnCast fail c => do
    let (v, keep, drop) ← validateBrOnCast M C.func v fail c
    return (v, some (.brOnCast fail c.dstNull c.dst c.label keep drop))
  | .call c => do
    let (pre, ft) ← calleeSig M c
    let v ← v.popMatches M (pre ++ ft.params.reverse)
    let v ← v.pushTypes ft.results
    return (v, some (.op i))
  | .returnCall c => do
    let (pre, ft) ← calleeSig M c
    let v ← v.popMatches M pre
    ensure (typesMatch M ft.results C.func.results)
    let v ← v.popMatches M ft.params.reverse
    return (v.markUnreachable, some (.op i))
  | .throw tag => do
    let ft ← tagType M tag
    let v ← v.popMatches M ft.params.reverse
    return (v.markUnreachable, some (.op i))
  | .throwRef => do
    let (t, v) ← v.popType
    ensure (t.asNonNull = .ref false (.abs .exn) ∨ t.asNonNull = .ref false (.abs .noexn) ∨ t = .bot)
    return (v.markUnreachable, some (.op i))

end Wah
