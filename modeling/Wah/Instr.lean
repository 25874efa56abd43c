/-
Instructions of a function body, as the byte decoder hands them to the validator.

Instructions whose operands and results are fixed by their immediates are grouped in `PlainOp`; `DataOp` adds the
ones that look at the popped types or at the room on the stack. Everything else touches control: frames, labels,
calls, exceptions or locals.
-/
import Wah.Types

namespace Wah

/-- `wah_opclass_t`: operand and result types of an opcode without immediates -/
inductive OpClass where
  | I_I | I_L | I_F | I_D | I_V | II_I | IV_V
  | L_I | L_L | L_F | L_D | L_V | LL_I | LL_L | LV_V
  | F_I | F_L | F_F | F_V | FF_I | FF_F
  | D_I | D_L | D_D | D_V | DD_I | DD_L | DD_D
  | V_I | V_V | VI_V | VV_V | VVV_V
deriving DecidableEq, Repr

/-- operand types in the order they are popped, then the result type -/
def OpClass.sig : OpClass → List Ty × List Ty
  | I_I => ([.i32], [.i32]) | I_L => ([.i32], [.i64]) | I_F => ([.i32], [.f32]) | I_D => ([.i32], [.f64])
  | I_V => ([.i32], [.v128]) | II_I => ([.i32, .i32], [.i32]) | IV_V => ([.v128, .i32], [.v128])
  | L_I => ([.i64], [.i32]) | L_L => ([.i64], [.i64]) | L_F => ([.i64], [.f32]) | L_D => ([.i64], [.f64])
  | L_V => ([.i64], [.v128]) | LL_I => ([.i64, .i64], [.i32]) | LL_L => ([.i64, .i64], [.i64])
  | LV_V => ([.v128, .i64], [.v128])
  | F_I => ([.f32], [.i32]) | F_L => ([.f32], [.i64]) | F_F => ([.f32], [.f32]) | F_V => ([.f32], [.v128])
  | FF_I => ([.f32, .f32], [.i32]) | FF_F => ([.f32, .f32], [.f32])
  | D_I => ([.f64], [.i32]) | D_L => ([.f64], [.i64]) | D_D => ([.f64], [.f64]) | D_V => ([.f64], [.v128])
  | DD_I => ([.f64, .f64], [.i32]) | DD_L => ([.f64, .f64], [.i64]) | DD_D => ([.f64, .f64], [.f64])
  | V_I => ([.v128], [.i32]) | V_V => ([.v128], [.v128]) | VI_V => ([.i32, .v128], [.v128])
  | VV_V => ([.v128, .v128], [.v128]) | VVV_V => ([.v128, .v128, .v128], [.v128])

/-- `wah_memarg_t`; the alignment is a logarithm -/
structure MemArg where
  align : Nat
  memidx : Nat
  offset : Nat
deriving DecidableEq, Repr

inductive LoadOp where
  | i32Load | i64Load | f32Load | f64Load
  | i32Load8S | i32Load8U | i32Load16S | i32Load16U
  | i64Load8S | i64Load8U | i64Load16S | i64Load16U | i64Load32S | i64Load32U
  | v128Load | v128Load8x8S | v128Load8x8U | v128Load16x4S | v128Load16x4U | v128Load32x2S | v128Load32x2U
  | v128Load8Splat | v128Load16Splat | v128Load32Splat | v128Load64Splat | v128Load32Zero | v128Load64Zero
deriving DecidableEq, Repr

/-- the `LOAD_OP(T, max_lg_align)` rows -/
def LoadOp.row : LoadOp → Ty × Nat
  | i32Load => (.i32, 2) | i64Load => (.i64, 3) | f32Load => (.f32, 2) | f64Load => (.f64, 3)
  | i32Load8S | i32Load8U => (.i32, 0) | i32Load16S | i32Load16U => (.i32, 1)
  | i64Load8S | i64Load8U => (.i64, 0) | i64Load16S | i64Load16U => (.i64, 1)
  | i64Load32S | i64Load32U => (.i64, 2)
  | v128Load => (.v128, 4)
  | v128Load8x8S | v128Load8x8U | v128Load16x4S | v128Load16x4U | v128Load32x2S | v128Load32x2U => (.v128, 3)
  | v128Load8Splat => (.v128, 0) | v128Load16Splat => (.v128, 1) | v128Load32Splat => (.v128, 2)
  | v128Load64Splat => (.v128, 3) | v128Load32Zero => (.v128, 2) | v128Load64Zero => (.v128, 3)

inductive StoreOp where
  | i32Store | i64Store | f32Store | f64Store | i32Store8 | i32Store16 | i64Store8 | i64Store16 | i64Store32
  | v128Store
deriving DecidableEq, Repr

/-- the `STORE_OP(T, max_lg_align)` rows -/
def StoreOp.row : StoreOp → Ty × Nat
  | i32Store => (.i32, 2) | i64Store => (.i64, 3) | f32Store => (.f32, 2) | f64Store => (.f64, 3)
  | i32Store8 => (.i32, 0) | i32Store16 => (.i32, 1)
  | i64Store8 => (.i64, 0) | i64Store16 => (.i64, 1) | i64Store32 => (.i64, 2)
  | v128Store => (.v128, 4)

/-- lane loads and stores by the logarithm of their width -/
inductive LaneWidth where
  | w8 | w16 | w32 | w64
deriving DecidableEq, Repr

def LaneWidth.lg : LaneWidth → Nat
  | w8 => 0 | w16 => 1 | w32 => 2 | w64 => 3

inductive LaneShape where
  | i8x16 | i16x8 | i32x4 | i64x2 | f32x4 | f64x2
deriving DecidableEq, Repr

/-- scalar type and lane count of `EXTRACT_LANE_OP` and `REPLACE_LANE_OP` -/
def LaneShape.row : LaneShape → Ty × Nat
  | i8x16 => (.i32, 16) | i16x8 => (.i32, 8) | i32x4 => (.i32, 4) | i64x2 => (.i64, 2)
  | f32x4 => (.f32, 4) | f64x2 => (.f64, 2)

/-- instructions with operand and result types fixed by the immediates and the module -/
inductive PlainOp where
  | numeric (cls : OpClass) (opcode : Nat)
  | load (op : LoadOp) (m : MemArg)
  | store (op : StoreOp) (m : MemArg)
  | loadLane (w : LaneWidth) (m : MemArg) (lane : Nat)
  | storeLane (w : LaneWidth) (m : MemArg) (lane : Nat)
  | extractLane (s : LaneShape) (signed : Bool) (lane : Nat)
  | replaceLane (s : LaneShape) (lane : Nat)
  | shuffle (lanes : List Nat)
  | memorySize (mem : Nat) | memoryGrow (mem : Nat) | memoryFill (mem : Nat)
  | memoryInit (data mem : Nat) | dataDrop (data : Nat) | memoryCopy (dst src : Nat)
  | globalGet (g : Nat) | globalSet (g : Nat)
  | tableGet (t : Nat) | tableSet (t : Nat) | tableSize (t : Nat) | tableGrow (t : Nat) | tableFill (t : Nat)
  | tableCopy (dst src : Nat) | tableInit (elem t : Nat) | elemDrop (elem : Nat)
  | i32Const (v : Int) | i64Const (v : Int) | f32Const (bits : Nat) | f64Const (bits : Nat) | v128Const (bits : Nat)
  | f32DemoteF64 | f64PromoteF32
  | selectT (ts : List Ty)
  | refNull (h : HeapTy) | refFunc (f : Nat) | refEq | refI31 | i31Get (signed : Bool)
  | structNewDefault (t : Nat) | structGet (t f : Nat) | structGetPacked (signed : Bool) (t f : Nat)
  | structSet (t f : Nat)
  | arrayNew (t : Nat) | arrayNewDefault (t : Nat) | arrayGet (t : Nat) | arrayGetPacked (signed : Bool) (t : Nat)
  | arraySet (t : Nat) | arrayNewData (t data : Nat) | arrayNewElem (t elem : Nat)
  | arrayFill (t : Nat) | arrayCopy (dst src : Nat) | arrayInitData (t data : Nat) | arrayInitElem (t elem : Nat)
deriving DecidableEq, Repr

/-- instructions that only read and write operands and the store -/
inductive DataOp where
  | plain (p : PlainOp)
  | structNew (t : Nat)
  | arrayNewFixed (t length : Nat)
  | drop | select | refIsNull | arrayLen | refAsNonNull
  | refTest (null : Bool) (h : HeapTy)
  | refCast (null : Bool) (h : HeapTy)
deriving DecidableEq, Repr

/-- the three ways to name a callee -/
inductive CallKind where
  | direct (f : Nat)
  | indirect (type table : Nat)
  | ref (type : Nat)
deriving DecidableEq, Repr

/-- block types: empty, one result, or a function type index -/
inductive BlockType where
  | empty
  | single (t : Ty)
  | idx (n : Nat)
deriving DecidableEq, Repr

inductive CatchKind where
  | catch_ | catchRef | catchAll | catchAllRef
deriving DecidableEq, Repr

def CatchKind.hasTag : CatchKind → Bool
  | .catch_ | .catchRef => true
  | _ => false

def CatchKind.hasExnref : CatchKind → Bool
  | .catchRef | .catchAllRef => true
  | _ => false

/-- a clause of a raw `try_table`; the label counts from outside it -/
structure CatchClause where
  kind : CatchKind
  tag : Nat
  label : Nat
deriving DecidableEq, Repr

/-- immediates of `br_on_cast` and `br_on_cast_fail` -/
structure CastArgs where
  srcNull : Bool
  dstNull : Bool
  label : Nat
  src : HeapTy
  dst : HeapTy
deriving DecidableEq, Repr

inductive Instr where
  | data (d : DataOp)
  | nop | anyConvertExtern | externConvertAny
  | localGet (i : Nat) | localSet (i : Nat) | localTee (i : Nat)
  | unreachable
  | block (bt : BlockType) | loop (bt : BlockType) | if_ (bt : BlockType) | else_ | end_
  | tryTable (bt : BlockType) (catches : List CatchClause)
  | br (l : Nat) | brIf (l : Nat) | brTable (ls : List Nat) (default : Nat) | return_
  | brOnNull (l : Nat) | brOnNonNull (l : Nat)
  | brOnCast (fail : Bool) (c : CastArgs)
  | call (c : CallKind) | returnCall (c : CallKind)
  | throw (tag : Nat) | throwRef
deriving DecidableEq, Repr

/-- `wah_opcode_is_call` -/
def Instr.isCall : Instr → Bool
  | .call _ | .returnCall _ => true
  | _ => false

/-- `wah_opcode_is_resumable_bulk` -/
def PlainOp.isResumableBulk : PlainOp → Bool
  | .memoryFill _ | .memoryCopy _ _ | .memoryInit _ _
  | .tableFill _ | .tableCopy _ _ | .tableInit _ _
  | .arrayFill _ | .arrayCopy _ _ | .arrayInitData _ _ | .arrayInitElem _ _ => true
  | _ => false

def DataOp.isResumableBulk : DataOp → Bool
  | .plain p => p.isResumableBulk
  | _ => false

def Instr.isResumableBulk : Instr → Bool
  | .data d => d.isResumableBulk
  | _ => false

end Wah
