/-
The resumable bulk instructions: `memory.fill`, `memory.copy`, `memory.init` and those of tables and arrays.

The element segments of `table.init` and `array.init_elem` hold function indices here. Items that are expressions are
evaluated when they are written, which charges fuel of its own and may fail halfway; `Wah.ElemSegments` is about those.

Instances are named by numbers, so indices that alias name one instance. Operands have the top first; an operand of an
instruction over an instance with `width`-bit indices is read and pushed modulo 2^`width`. `BulkInstr.whole` is what an
instruction means without stops, `BulkInstr.op` what it does.

- `BulkInstr.resumed`: however often an instruction is stopped and resumed, and whichever direction its copies take
  then, it comes to the same.
-/
import Wah.BulkOps

namespace Wah

open Resumable

/-- what bulk instructions do not change: index widths, segments and the sizes of array elements -/
structure BulkEnv where
  memoryWidth : Nat → Nat
  tableWidth : Nat → Nat
  dataAt : Nat → Nat → UInt8
  /-- `wah_data_seg_data_len`, zero once dropped -/
  dataLen : Nat → Nat
  dataLen_lt : ∀ i, dataLen i < 2 ^ 32
  /-- the references of a segment of function indices -/
  elemAt : Nat → Nat → Nat
  elemDropped : Nat → Bool
  numElems : Nat → Nat
  numElems_lt : ∀ i, numElems i < 2 ^ 32
  /-- the size of the elements of an object -/
  esz : Nat → Nat
  esz_pos : ∀ o, 0 < esz o
  esz_le : ∀ o, esz o ≤ 16

/-- contents of memories, tables and arrays; the payload of an array takes at most 2^32 bytes -/
structure BulkStore (E : BulkEnv) where
  memories : Space UInt8 E.memoryWidth
  tables : Space Nat E.tableWidth
  arrays : Space UInt8 fun _ => 32

/-- byte `j` of a value -/
def valueByte (v j : Nat) : UInt8 := UInt8.ofNat (v / 256 ^ j)

section Ops

variable {E : BulkEnv}

namespace BulkStore

variable (s : BulkStore E)

def onMemories (f : Space UInt8 E.memoryWidth → Space UInt8 E.memoryWidth) : BulkStore E :=
  { s with memories := f s.memories }

def onTables (f : Space Nat E.tableWidth → Space Nat E.tableWidth) : BulkStore E := { s with tables := f s.tables }

def onArrays (f : Space UInt8 (fun _ => 32) → Space UInt8 fun _ => 32) : BulkStore E := { s with arrays := f s.arrays }

/-- `wah_gc_array_body_t.length` -/
def length (o : Nat) : Nat := s.arrays.size o / E.esz o

/-- `wah_gc_store_field` of element `i`; offsets are 32-bit -/
def storeField (o i val : Nat) : BulkStore E :=
  s.onArrays fun a => a.write o (i * E.esz o % 2 ^ 32) (E.esz o) (valueByte val)

end BulkStore

/-- segments are empty, elements take 8 bytes -/
def plainEnv : BulkEnv where
  memoryWidth _ := 32
  tableWidth _ := 32
  dataAt _ _ := 0
  dataLen _ := 0
  dataLen_lt _ := by decide
  elemAt _ _ := 0
  elemDropped _ := false
  numElems _ := 0
  numElems_lt _ := by decide
  esz _ := 8
  esz_pos _ := by decide
  esz_le _ := by decide

/-- one page of memory, no tables and no arrays -/
def onePage : BulkStore plainEnv where
  memories := ⟨fun m => if m = 0 then 65536 else 0, fun m => by dsimp only [plainEnv]; split <;> decide, fun _ _ => 0⟩
  tables := ⟨fun _ => 0, fun _ => Nat.zero_le _, fun _ _ => 0⟩
  arrays := ⟨fun _ => 0, fun _ => Nat.zero_le _, fun _ _ => 0⟩

/-! ## Memories -/

/-- `wah_memory_fill_internal`, and the operands of the rest -/
def memoryFillInternal (mem dst : Nat) (val : UInt8) (size : Nat) : Sweep (BulkStore E) where
  size := size
  act done n s := s.onMemories fun m => m.fill mem (dst + done) val n
  rest done := [(size - done) % 2 ^ E.memoryWidth mem, val.toNat, (dst + done) % 2 ^ E.memoryWidth mem]

/-- `MEMORY_FILL` -/
def memoryFill (mem : Nat) : List Nat → BulkStore E → Except BulkFault (Sweep (BulkStore E))
  | [size, val, dst], s =>
    let N := E.memoryWidth mem
    let size := size % 2 ^ N
    let val := UInt8.ofNat val
    let dst := dst % 2 ^ N
    if !u64RangeInBounds dst size (s.memories.size mem) then .error .memoryOutOfBounds
    else .ok (memoryFillInternal mem dst val size)
  | _, _ => .error .invalid

/-- `wah_memory_copy_internal`, and the operands of the rest -/
def memoryCopyInternal (dm dst sm src size : Nat) (backward : Bool) : Sweep (BulkStore E) where
  size := size
  act done n s := s.onMemories fun m =>
    if backward then m.copy dm (dst + (size - done - n)) sm (src + (size - done - n)) n
    else m.copy dm (dst + done) sm (src + done) n
  rest done :=
    let left := (size - done) % 2 ^ min (E.memoryWidth sm) (E.memoryWidth dm)
    if backward then [left, src, dst] else [left, (src + done) % 2 ^ E.memoryWidth sm, (dst + done) % 2 ^ E.memoryWidth dm]

/-- `MEMORY_COPY` -/
def memoryCopy (dm sm : Nat) : List Nat → BulkStore E → Except BulkFault (Sweep (BulkStore E))
  | [size, src, dst], s =>
    let N := E.memoryWidth sm
    let M := E.memoryWidth dm
    let Z := min N M
    let size := size % 2 ^ Z
    let src := src % 2 ^ N
    let dst := dst % 2 ^ M
    if !u64RangeInBounds dst size (s.memories.size dm) then .error .memoryOutOfBounds
    else if !u64RangeInBounds src size (s.memories.size sm) then .error .memoryOutOfBounds
    else .ok (memoryCopyInternal dm dst sm src size (Space.Overlaps dm dst sm src size))
  | _, _ => .error .invalid

/-- `wah_memory_init_internal`, and the operands of the rest -/
def memoryInitInternal (mem dst seg src size : Nat) : Sweep (BulkStore E) where
  size := size
  act done n s := s.onMemories fun m => m.write mem (dst + done) n fun i => E.dataAt seg (src + (done + i))
  rest done := [(size - done) % 2 ^ 32, (src + done) % 2 ^ 32, (dst + done) % 2 ^ E.memoryWidth mem]

/-- `MEMORY_INIT` -/
def memoryInit (seg mem : Nat) : List Nat → BulkStore E → Except BulkFault (Sweep (BulkStore E))
  | [size, src, dst], s =>
    let N := E.memoryWidth mem
    let size := size % 2 ^ 32
    let src := src % 2 ^ 32
    let dst := dst % 2 ^ N
    if !u64RangeInBounds dst size (s.memories.size mem) then .error .memoryOutOfBounds
    else if E.dataLen seg < src + size then .error .trap
    else if E.dataLen seg < size then .error .trap
    else .ok (memoryInitInternal mem dst seg src size)
  | _, _ => .error .invalid

/-! ## Tables -/

/-- nothing is done, nor charged -/
def noSweep : Sweep (BulkStore E) where
  size := 0
  act _ _ s := s
  rest _ := []

/-- `wah_bulk_table_fill`, and the operands of the rest -/
def bulkTableFill (table offset val size : Nat) : Sweep (BulkStore E) where
  size := size
  act := each fun i _ s => s.onTables fun t => t.fill table (offset + i) val 1
  rest done := [(size - done) % 2 ^ E.tableWidth table, val, (offset + done) % 2 ^ E.tableWidth table]

/-- `TABLE_FILL` -/
def tableFill (table : Nat) : List Nat → BulkStore E → Except BulkFault (Sweep (BulkStore E))
  | [size, val, offset], s =>
    let N := E.tableWidth table
    let size := size % 2 ^ N
    let offset := offset % 2 ^ N
    if !u64RangeInBounds offset size (s.tables.size table) then .error .trap
    else .ok (bulkTableFill table offset val size)
  | _, _ => .error .invalid

/-- `wah_bulk_table_copy` of distinct ranges, and the operands of the rest -/
def bulkTableCopy (dt dst st src size : Nat) (backward : Bool) : Sweep (BulkStore E) where
  size := size
  act := each fun i _ s => s.onTables fun t =>
    if backward then t.copy dt (dst + (size - i - 1)) st (src + (size - i - 1)) 1 else t.copy dt (dst + i) st (src + i) 1
  rest done :=
    let left := (size - done) % 2 ^ min (E.tableWidth st) (E.tableWidth dt)
    if backward then [left, src, dst] else [left, (src + done) % 2 ^ E.tableWidth st, (dst + done) % 2 ^ E.tableWidth dt]

/-- `TABLE_COPY` -/
def tableCopy (dt st : Nat) : List Nat → BulkStore E → Except BulkFault (Sweep (BulkStore E))
  | [size, src, dst], s =>
    let N := E.tableWidth st
    let M := E.tableWidth dt
    let Z := min N M
    let size := size % 2 ^ Z
    let src := src % 2 ^ N
    let dst := dst % 2 ^ M
    if !u64RangeInBounds src size (s.tables.size st) then .error .trap
    else if !u64RangeInBounds dst size (s.tables.size dt) then .error .trap
    else if dt = st ∧ dst = src then .ok noSweep
    else .ok (bulkTableCopy dt dst st src size (Space.Overlaps dt dst st src size))
  | _, _ => .error .invalid

/-- `wah_bulk_table_init` from a segment of function indices, and the operands of the rest -/
def bulkTableInit (table dst seg src size : Nat) : Sweep (BulkStore E) where
  size := size
  act := each fun i _ s => s.onTables fun t => t.fill table (dst + i) (E.elemAt seg (src + i)) 1
  rest done := [(size - done) % 2 ^ 32, (src + done) % 2 ^ 32, (dst + done) % 2 ^ E.tableWidth table]

/-- `TABLE_INIT` -/
def tableInit (seg table : Nat) : List Nat → BulkStore E → Except BulkFault (Sweep (BulkStore E))
  | [size, src, dst], s =>
    let N := E.tableWidth table
    let size := size % 2 ^ 32
    let src := src % 2 ^ 32
    let dst := dst % 2 ^ N
    if E.elemDropped seg then
      if ¬ (size = 0 ∧ src = 0) then .error .trap
      else if s.tables.size table < dst then .error .trap
      else .ok noSweep
    else if !u64RangeInBounds src size (E.numElems seg) then .error .trap
    else if !u64RangeInBounds dst size (s.tables.size table) then .error .trap
    else .ok (bulkTableInit table dst seg src size)
  | _, _ => .error .invalid

/-! ## Arrays -/

/-- `wah_bulk_array_fill`, and the operands of the rest -/
def bulkArrayFill (obj offset val size : Nat) : Sweep (BulkStore E) where
  next := fillChunk (E.esz obj)
  unit := E.esz obj
  grain := 1
  size := size
  act := each fun i _ s => s.storeField obj (offset + i) val
  rest done := [(size - done) % 2 ^ 32, val, (offset + done) % 2 ^ 32, obj]

/-- `ARRAY_FILL` -/
def arrayFill : List Nat → BulkStore E → Except BulkFault (Sweep (BulkStore E))
  | [size, val, offset, obj], s =>
    let size := size % 2 ^ 32
    let offset := offset % 2 ^ 32
    if obj = 0 then .error .trap
    else if s.length obj < offset + size then .error .trap
    else .ok (bulkArrayFill obj offset val size)
  | _, _ => .error .invalid

/-- the loop of `ARRAY_COPY`; items are bytes, chunks are whole elements -/
def bulkArrayCopy (esz dstObj dst srcObj src size : Nat) (backward : Bool) : Sweep (BulkStore E) where
  next := arrayChunk esz
  grain := esz
  size := size * esz
  act done n s := s.onArrays fun a =>
    if backward then
      a.copy dstObj (dst * esz + (size * esz - done - n)) srcObj (src * esz + (size * esz - done - n)) n
    else a.copy dstObj (dst * esz + done) srcObj (src * esz + done) n
  rest done :=
    let left := (size - done / esz) % 2 ^ 32
    if backward then [left, src, srcObj, dst, dstObj]
    else [left, (src + done / esz) % 2 ^ 32, srcObj, (dst + done / esz) % 2 ^ 32, dstObj]

/-- `ARRAY_COPY` -/
def arrayCopy : List Nat → BulkStore E → Except BulkFault (Sweep (BulkStore E))
  | [size, src, srcObj, dst, dstObj], s =>
    let size := size % 2 ^ 32
    let src := src % 2 ^ 32
    let dst := dst % 2 ^ 32
    let esz := E.esz srcObj
    if srcObj = 0 ∨ dstObj = 0 then .error .trap
    else if s.length srcObj < src + size then .error .trap
    else if s.length dstObj < dst + size then .error .trap
    else if esz ≠ E.esz dstObj then .error .invalid
    else .ok (bulkArrayCopy esz dstObj dst srcObj src size (Space.Overlaps dstObj dst srcObj src size))
  | _, _ => .error .invalid

/-- the loop of `ARRAY_INIT_DATA`; items are bytes, chunks are whole elements -/
def bulkArrayInitData (esz obj dst seg src size : Nat) : Sweep (BulkStore E) where
  next := arrayChunk esz
  grain := esz
  size := size * esz
  act done n s := s.onArrays fun a => a.write obj (dst * esz + done) n fun i => E.dataAt seg (src + (done + i))
  rest done := [(size - done / esz) % 2 ^ 32, (src + done) % 2 ^ 32, (dst + done / esz) % 2 ^ 32, obj]

/-- `ARRAY_INIT_DATA` of elements of `esz` bytes -/
def arrayInitData (esz seg : Nat) : List Nat → BulkStore E → Except BulkFault (Sweep (BulkStore E))
  | [size, src, dst, obj], s =>
    let size := size % 2 ^ 32
    let src := src % 2 ^ 32
    let dst := dst % 2 ^ 32
    if obj = 0 then .error .trap
    else if s.length obj < dst + size then .error .trap
    else if E.dataLen seg < src + size * esz then .error .trap
    else if esz ≠ E.esz obj then .error .invalid
    else .ok (bulkArrayInitData esz obj dst seg src size)
  | _, _ => .error .invalid

/-- `wah_bulk_array_init_elem` from a segment of function indices, and the operands of the rest; references take
8 bytes -/
def bulkArrayInitElem (obj dst seg src size : Nat) : Sweep (BulkStore E) where
  size := size
  act := each fun i _ s => s.onArrays fun a => a.write obj ((dst + i) * 8) 8 (valueByte (E.elemAt seg (src + i)))
  rest done := [(size - done) % 2 ^ 32, (src + done) % 2 ^ 32, (dst + done) % 2 ^ 32, obj]

/-- `ARRAY_INIT_ELEM` -/
def arrayInitElem (seg : Nat) : List Nat → BulkStore E → Except BulkFault (Sweep (BulkStore E))
  | [size, src, dst, obj], s =>
    let size := size % 2 ^ 32
    let src := src % 2 ^ 32
    let dst := dst % 2 ^ 32
    if obj = 0 then .error .trap
    else if s.length obj < dst + size then .error .trap
    else if (if E.elemDropped seg then 0 else E.numElems seg) < src + size then .error .trap
    else if E.esz obj ≠ 8 then .error .invalid
    else .ok (bulkArrayInitElem obj dst seg src size)
  | _, _ => .error .invalid

/-! ## What they mean -/

inductive BulkInstr where
  | memoryFill (mem : Nat)
  | memoryCopy (dm sm : Nat)
  | memoryInit (seg mem : Nat)
  | tableFill (table : Nat)
  | tableCopy (dt st : Nat)
  | tableInit (seg table : Nat)
  | arrayFill
  | arrayCopy
  | arrayInitData (esz seg : Nat)
  | arrayInitElem (seg : Nat)
deriving DecidableEq, Repr

namespace BulkInstr

/-- what an instruction does -/
def op : BulkInstr → List Nat → BulkStore E → Except BulkFault (Sweep (BulkStore E))
  | .memoryFill mem => Wah.memoryFill mem
  | .memoryCopy dm sm => Wah.memoryCopy dm sm
  | .memoryInit seg mem => Wah.memoryInit seg mem
  | .tableFill table => Wah.tableFill table
  | .tableCopy dt st => Wah.tableCopy dt st
  | .tableInit seg table => Wah.tableInit seg table
  | .arrayFill => Wah.arrayFill
  | .arrayCopy => Wah.arrayCopy
  | .arrayInitData esz seg => Wah.arrayInitData esz seg
  | .arrayInitElem seg => Wah.arrayInitElem seg

/-- what an instruction means: it fails, or does everything at once -/
def whole : BulkInstr → List Nat × BulkStore E → Except BulkFault (BulkStore E)
  | .memoryFill mem, ([size, val, dst], s) =>
    let size := size % 2 ^ E.memoryWidth mem
    let dst := dst % 2 ^ E.memoryWidth mem
    if dst + size ≤ s.memories.size mem then .ok (s.onMemories fun m => m.fill mem dst (UInt8.ofNat val) size)
    else .error .memoryOutOfBounds
  | .memoryCopy dm sm, ([size, src, dst], s) =>
    let size := size % 2 ^ min (E.memoryWidth sm) (E.memoryWidth dm)
    let src := src % 2 ^ E.memoryWidth sm
    let dst := dst % 2 ^ E.memoryWidth dm
    if dst + size ≤ s.memories.size dm ∧ src + size ≤ s.memories.size sm then
      .ok (s.onMemories fun m => m.copy dm dst sm src size)
    else .error .memoryOutOfBounds
  | .memoryInit seg mem, ([size, src, dst], s) =>
    let size := size % 2 ^ 32
    let src := src % 2 ^ 32
    let dst := dst % 2 ^ E.memoryWidth mem
    if ¬ dst + size ≤ s.memories.size mem then .error .memoryOutOfBounds
    else if src + size ≤ E.dataLen seg then
      .ok (s.onMemories fun m => m.write mem dst size fun i => E.dataAt seg (src + i))
    else .error .trap
  | .tableFill table, ([size, val, offset], s) =>
    let size := size % 2 ^ E.tableWidth table
    let offset := offset % 2 ^ E.tableWidth table
    if offset + size ≤ s.tables.size table then .ok (s.onTables fun t => t.fill table offset val size) else .error .trap
  | .tableCopy dt st, ([size, src, dst], s) =>
    let size := size % 2 ^ min (E.tableWidth st) (E.tableWidth dt)
    let src := src % 2 ^ E.tableWidth st
    let dst := dst % 2 ^ E.tableWidth dt
    if dst + size ≤ s.tables.size dt ∧ src + size ≤ s.tables.size st then
      .ok (s.onTables fun t => t.copy dt dst st src size)
    else .error .trap
  | .tableInit seg table, ([size, src, dst], s) =>
    let size := size % 2 ^ 32
    let src := src % 2 ^ 32
    let dst := dst % 2 ^ E.tableWidth table
    if dst + size ≤ s.tables.size table ∧ src + size ≤ (if E.elemDropped seg then 0 else E.numElems seg) then
      .ok (s.onTables fun t => t.write table dst size fun i => E.elemAt seg (src + i))
    else .error .trap
  | .arrayFill, ([size, val, offset, obj], s) =>
    let size := size % 2 ^ 32
    let offset := offset % 2 ^ 32
    if obj ≠ 0 ∧ offset + size ≤ s.length obj then
      .ok (s.onArrays fun a =>
        a.write obj (offset * E.esz obj) (size * E.esz obj) fun i => valueByte val (i % E.esz obj))
    else .error .trap
  | .arrayCopy, ([size, src, srcObj, dst, dstObj], s) =>
    let size := size % 2 ^ 32
    let src := src % 2 ^ 32
    let dst := dst % 2 ^ 32
    let esz := E.esz srcObj
    if ¬ ((srcObj ≠ 0 ∧ dstObj ≠ 0) ∧ src + size ≤ s.length srcObj ∧ dst + size ≤ s.length dstObj) then .error .trap
    else if esz = E.esz dstObj then
      .ok (s.onArrays fun a => a.copy dstObj (dst * esz) srcObj (src * esz) (size * esz))
    else .error .invalid
  | .arrayInitData esz seg, ([size, src, dst, obj], s) =>
    let size := size % 2 ^ 32
    let src := src % 2 ^ 32
    let dst := dst % 2 ^ 32
    if ¬ (obj ≠ 0 ∧ dst + size ≤ s.length obj ∧ src + size * esz ≤ E.dataLen seg) then .error .trap
    else if esz = E.esz obj then
      .ok (s.onArrays fun a => a.write obj (dst * esz) (size * esz) fun i => E.dataAt seg (src + i))
    else .error .invalid
  | .arrayInitElem seg, ([size, src, dst, obj], s) =>
    let size := size % 2 ^ 32
    let src := src % 2 ^ 32
    let dst := dst % 2 ^ 32
    if ¬ (obj ≠ 0 ∧ dst + size ≤ s.length obj ∧ src + size ≤ (if E.elemDropped seg then 0 else E.numElems seg)) then
      .error .trap
    else if E.esz obj = 8 then
      .ok (s.onArrays fun a => a.write obj (dst * 8) (size * 8) fun i => valueByte (E.elemAt seg (src + i / 8)) (i % 8))
    else .error .invalid
  | _, _ => .error .invalid

end BulkInstr

/-! ## Cutting them -/

section Lift

variable {size : Nat}

theorem onMemories_additive {act : Nat → Nat → Space UInt8 E.memoryWidth → Space UInt8 E.memoryWidth}
    (h : Additive size act) : Additive size fun d n (s : BulkStore E) => s.onMemories (act d n) where
  zero d s := by simp only [BulkStore.onMemories, h.zero]
  add d a b s hd := by simp only [BulkStore.onMemories, h.add d a b _ hd]

theorem onTables_additive {act : Nat → Nat → Space Nat E.tableWidth → Space Nat E.tableWidth}
    (h : Additive size act) : Additive size fun d n (s : BulkStore E) => s.onTables (act d n) where
  zero d s := by simp only [BulkStore.onTables, h.zero]
  add d a b s hd := by simp only [BulkStore.onTables, h.add d a b _ hd]

theorem onArrays_additive {act : Nat → Nat → Space UInt8 (fun _ => 32) → Space UInt8 fun _ => 32}
    (h : Additive size act) : Additive size fun d n (s : BulkStore E) => s.onArrays (act d n) where
  zero d s := by simp only [BulkStore.onArrays, h.zero]
  add d a b s hd := by simp only [BulkStore.onArrays, h.add d a b _ hd]

end Lift

theorem wrap_wrap {x n : Nat} (h : x < 2 ^ n) : x % 2 ^ n % 2 ^ n = x := by
  rw [Nat.mod_mod, Nat.mod_eq_of_lt h]

theorem rangeInBounds_neg {offset size limit : Nat} (h : offset + size ≤ limit) :
    ¬ (!u64RangeInBounds offset size limit) = true := by
  rw [Bool.not_eq_true', Bool.not_eq_false, u64RangeInBounds_iff]
  exact h

theorem rangeInBounds_pos {offset size limit : Nat} (h : ¬ offset + size ≤ limit) :
    (!u64RangeInBounds offset size limit) = true := by
  rw [Bool.not_eq_true', ← Bool.not_eq_true, u64RangeInBounds_iff]
  exact h

section Memories

variable {s : BulkStore E} {mem size val dst size' dst' : Nat}

theorem memoryFill_ok (hs : size % 2 ^ E.memoryWidth mem = size') (hd : dst % 2 ^ E.memoryWidth mem = dst')
    (hle : dst' + size' ≤ s.memories.size mem) :
    memoryFill mem [size, val, dst] s = .ok (memoryFillInternal mem dst' (UInt8.ofNat val) size') := by
  subst hs hd
  exact if_neg (rangeInBounds_neg hle)

theorem memoryFill_sweeps (mem : Nat) : Sweeps (memoryFill (E := E) mem) (BulkInstr.whole (.memoryFill mem))
  | [size, val, dst], s => by
    have hlt : size % 2 ^ E.memoryWidth mem < 2 ^ E.memoryWidth mem := Nat.mod_lt _ (by positivity)
    have hbound := s.memories.bound mem
    by_cases hle : dst % 2 ^ E.memoryWidth mem + size % 2 ^ E.memoryWidth mem ≤ s.memories.size mem
    · refine .does (memoryFill_ok rfl rfl hle) (if_pos hle) ?_
      generalize size % 2 ^ E.memoryWidth mem = size at *
      generalize dst % 2 ^ E.memoryWidth mem = dst at *
      have hadd := onMemories_additive (E := E) (Space.fill_additive mem dst (UInt8.ofNat val) size)
      refine ⟨plainChunk_ok, hadd, fun d hd _ => ?_⟩
      dsimp only [memoryFillInternal] at hd
      refine ⟨_, memoryFill_ok (wrap_wrap (by omega)) (wrap_wrap (by omega)) ?_, rfl, ?_⟩
      · simp only [memoryFillInternal, BulkStore.onMemories, Space.fill_size]
        omega
      · simp only [memoryFillInternal, UInt8.ofNat_toNat, BulkStore.onMemories, Nat.add_zero, Space.fill_fill]
        rw [Nat.add_sub_cancel' (Nat.le_of_lt hd)]
    · exact .fails (if_pos (rangeInBounds_pos hle)) (if_neg hle)
  | [], _ | [_], _ | [_, _], _ | _ :: _ :: _ :: _ :: _, _ => rfl

variable {dm sm seg src src' : Nat}

theorem memoryCopy_ok (hs : size % 2 ^ min (E.memoryWidth sm) (E.memoryWidth dm) = size')
    (hsrc : src % 2 ^ E.memoryWidth sm = src') (hdst : dst % 2 ^ E.memoryWidth dm = dst')
    (h1 : dst' + size' ≤ s.memories.size dm) (h2 : src' + size' ≤ s.memories.size sm) :
    memoryCopy dm sm [size, src, dst] s =
      .ok (memoryCopyInternal dm dst' sm src' size' (Space.Overlaps dm dst' sm src' size')) := by
  subst hs hsrc hdst
  exact (if_neg (rangeInBounds_neg h1)).trans (if_neg (rangeInBounds_neg h2))

theorem memoryCopyInternal_all (dm dst sm src size : Nat) (b : Bool) (s : BulkStore E) :
    (memoryCopyInternal dm dst sm src size b).act 0 size s = s.onMemories fun m => m.copy dm dst sm src size := by
  cases b <;> simp [memoryCopyInternal]

theorem memoryCopy_sweeps (dm sm : Nat) : Sweeps (memoryCopy (E := E) dm sm) (BulkInstr.whole (.memoryCopy dm sm))
  | [size, src, dst], s => by
    have hlt : size % 2 ^ min (E.memoryWidth sm) (E.memoryWidth dm) < 2 ^ min (E.memoryWidth sm) (E.memoryWidth dm) :=
      Nat.mod_lt _ (by positivity)
    have hsrc : src % 2 ^ E.memoryWidth sm < 2 ^ E.memoryWidth sm := Nat.mod_lt _ (by positivity)
    have hdst : dst % 2 ^ E.memoryWidth dm < 2 ^ E.memoryWidth dm := Nat.mod_lt _ (by positivity)
    have hbd := s.memories.bound dm
    have hbs := s.memories.bound sm
    by_cases h1 : dst % 2 ^ E.memoryWidth dm + size % 2 ^ min (E.memoryWidth sm) (E.memoryWidth dm) ≤ s.memories.size dm
    · by_cases h2 : src % 2 ^ E.memoryWidth sm + size % 2 ^ min (E.memoryWidth sm) (E.memoryWidth dm) ≤ s.memories.size sm
      · refine .does (memoryCopy_ok rfl rfl rfl h1 h2) ((if_pos ⟨h1, h2⟩).trans ?_) ?_
        · exact congrArg _ (memoryCopyInternal_all ..).symm
        generalize size % 2 ^ min (E.memoryWidth sm) (E.memoryWidth dm) = size at *
        generalize src % 2 ^ E.memoryWidth sm = src at *
        generalize dst % 2 ^ E.memoryWidth dm = dst at *
        refine ⟨plainChunk_ok, onMemories_additive (Space.move_additive ..), fun d hd _ => ?_⟩
        have hd : d < size := hd
        have hrest := s.memories.copy_rest dm dst sm src (Nat.le_of_lt hd)
        by_cases hb : decide (Space.Overlaps dm dst sm src size) = true
        · rw [if_pos hb] at hrest
          simp only [memoryCopyInternal, hb, if_true]
          refine ⟨_, memoryCopy_ok (wrap_wrap (by omega)) (Nat.mod_eq_of_lt hsrc) (Nat.mod_eq_of_lt hdst) ?_ ?_, rfl, ?_⟩
          · simp only [BulkStore.onMemories, Space.copy_size]
            omega
          · simp only [BulkStore.onMemories, Space.copy_size]
            omega
          · refine (memoryCopyInternal_all ..).trans ?_
            simp only [BulkStore.onMemories, Nat.sub_zero, hrest, Nat.sub_self, Nat.add_zero]
        · rw [if_neg hb] at hrest
          rw [Bool.not_eq_true] at hb
          simp only [memoryCopyInternal, hb, Bool.false_eq_true, if_false]
          refine ⟨_, memoryCopy_ok (wrap_wrap (by omega)) (wrap_wrap (by omega)) (wrap_wrap (by omega)) ?_ ?_, rfl, ?_⟩
          · simp only [BulkStore.onMemories, Space.copy_size]
            omega
          · simp only [BulkStore.onMemories, Space.copy_size]
            omega
          · refine (memoryCopyInternal_all ..).trans ?_
            simp only [BulkStore.onMemories, Nat.add_zero, hrest]
      · refine .fails ((if_neg (rangeInBounds_neg h1)).trans (if_pos (rangeInBounds_pos h2))) (if_neg fun h => h2 h.2)
    · exact .fails (if_pos (rangeInBounds_pos h1)) (if_neg fun h => h1 h.1)
  | [], _ | [_], _ | [_, _], _ | _ :: _ :: _ :: _ :: _, _ => rfl

theorem memoryInit_ok (hs : size % 2 ^ 32 = size') (hsrc : src % 2 ^ 32 = src')
    (hdst : dst % 2 ^ E.memoryWidth mem = dst') (h1 : dst' + size' ≤ s.memories.size mem)
    (h2 : src' + size' ≤ E.dataLen seg) :
    memoryInit seg mem [size, src, dst] s = .ok (memoryInitInternal mem dst' seg src' size') := by
  subst hs hsrc hdst
  exact (if_neg (rangeInBounds_neg h1)).trans ((if_neg (by omega)).trans (if_neg (by omega)))

theorem memoryInit_sweeps (seg mem : Nat) : Sweeps (memoryInit (E := E) seg mem) (BulkInstr.whole (.memoryInit seg mem))
  | [size, src, dst], s => by
    have hbound := s.memories.bound mem
    have hlen := E.dataLen_lt seg
    by_cases h1 : dst % 2 ^ E.memoryWidth mem + size % 2 ^ 32 ≤ s.memories.size mem
    · by_cases h2 : src % 2 ^ 32 + size % 2 ^ 32 ≤ E.dataLen seg
      · refine .does (memoryInit_ok rfl rfl rfl h1 h2) ((if_neg (not_not_intro h1)).trans ((if_pos h2).trans ?_)) ?_
        · simp only [memoryInitInternal, Nat.add_zero, Nat.zero_add]
        generalize size % 2 ^ 32 = size at *
        generalize src % 2 ^ 32 = src at *
        generalize dst % 2 ^ E.memoryWidth mem = dst at *
        have hadd := Space.write_additive (w := E.memoryWidth) mem dst (fun i => E.dataAt seg (src + i)) size
        refine ⟨plainChunk_ok, onMemories_additive hadd, fun d hd _ => ?_⟩
        have hd : d < size := hd
        refine ⟨_, memoryInit_ok (wrap_wrap (by omega)) (wrap_wrap (by omega)) (wrap_wrap (by omega)) ?_ (by omega), rfl, ?_⟩
        · simp only [memoryInitInternal, BulkStore.onMemories, Space.write_size]
          omega
        · have hcut := hadd.add 0 d (size - d) s.memories (by omega)
          rw [Nat.add_sub_cancel' (Nat.le_of_lt hd)] at hcut
          simp only [memoryInitInternal, BulkStore.onMemories, Nat.add_zero, Nat.zero_add, Nat.add_assoc] at hcut ⊢
          rw [hcut]
      · refine .fails ((if_neg (rangeInBounds_neg h1)).trans (if_pos (by omega))) ((if_neg (not_not_intro h1)).trans (if_neg h2))
    · exact .fails (if_pos (rangeInBounds_pos h1)) (if_pos h1)
  | [], _ | [_], _ | [_, _], _ | _ :: _ :: _ :: _ :: _, _ => rfl

end Memories

section Tables

variable {s : BulkStore E} {table size val dst size' dst' : Nat}

theorem tableFill_ok (hs : size % 2 ^ E.tableWidth table = size') (hd : dst % 2 ^ E.tableWidth table = dst')
    (hle : dst' + size' ≤ s.tables.size table) :
    tableFill table [size, val, dst] s = .ok (bulkTableFill table dst' val size') := by
  subst hs hd
  exact if_neg (rangeInBounds_neg hle)

theorem bulkTableFill_act {table offset val size d n : Nat} (hn : d + n ≤ size) (s : BulkStore E) :
    (bulkTableFill table offset val size).act d n s = s.onTables fun t => t.fill table (offset + d) val n :=
  (onTables_additive (Space.fill_additive table offset val size)).single s hn

theorem tableFill_sweeps (table : Nat) : Sweeps (tableFill (E := E) table) (BulkInstr.whole (.tableFill table))
  | [size, val, dst], s => by
    have hlt : size % 2 ^ E.tableWidth table < 2 ^ E.tableWidth table := Nat.mod_lt _ (by positivity)
    have hbound := s.tables.bound table
    by_cases hle : dst % 2 ^ E.tableWidth table + size % 2 ^ E.tableWidth table ≤ s.tables.size table
    · refine .does (tableFill_ok rfl rfl hle) ((if_pos hle).trans (congrArg _ ?_)) ?_
      · exact (bulkTableFill_act (Nat.le_of_eq (Nat.zero_add _)) s).symm
      generalize size % 2 ^ E.tableWidth table = size at *
      generalize dst % 2 ^ E.tableWidth table = dst at *
      refine ⟨plainChunk_ok, each_additive _ _, fun d hd _ => ?_⟩
      have hd : d < size := hd
      rw [bulkTableFill_act (by omega)]
      refine ⟨_, tableFill_ok (wrap_wrap (by omega)) (wrap_wrap (by omega)) ?_, rfl, ?_⟩
      · simp only [BulkStore.onTables, Space.fill_size]
        omega
      · refine (bulkTableFill_act (Nat.le_of_eq (Nat.zero_add _)) _).trans
          (Eq.trans ?_ (bulkTableFill_act (Nat.le_of_eq (Nat.zero_add _)) _).symm)
        simp only [BulkStore.onTables, Nat.add_zero, Space.fill_fill]
        rw [Nat.add_sub_cancel' (Nat.le_of_lt hd)]
    · exact .fails (if_pos (rangeInBounds_pos hle)) (if_neg hle)
  | [], _ | [_], _ | [_, _], _ | _ :: _ :: _ :: _ :: _, _ => rfl

variable {dt st seg src src' : Nat}

theorem tableCopy_ok (hs : size % 2 ^ min (E.tableWidth st) (E.tableWidth dt) = size')
    (hsrc : src % 2 ^ E.tableWidth st = src') (hdst : dst % 2 ^ E.tableWidth dt = dst')
    (h1 : dst' + size' ≤ s.tables.size dt) (h2 : src' + size' ≤ s.tables.size st) :
    tableCopy dt st [size, src, dst] s =
      .ok (if dt = st ∧ dst' = src' then noSweep
        else bulkTableCopy dt dst' st src' size' (Space.Overlaps dt dst' st src' size')) := by
  subst hs hsrc hdst
  refine (if_neg (rangeInBounds_neg h2)).trans ((if_neg (rangeInBounds_neg h1)).trans ?_)
  split <;> rfl

theorem bulkTableCopy_act {d n : Nat} (hn : d + n ≤ size) (s : BulkStore E) :
    (bulkTableCopy dt dst st src size (Space.Overlaps dt dst st src size)).act d n s = s.onTables fun t =>
      if decide (Space.Overlaps dt dst st src size) = true then
        t.copy dt (dst + (size - d - n)) st (src + (size - d - n)) n
      else t.copy dt (dst + d) st (src + d) n :=
  (onTables_additive (Space.move_additive dt dst st src size)).single s hn

theorem bulkTableCopy_all (s : BulkStore E) :
    (bulkTableCopy dt dst st src size (Space.Overlaps dt dst st src size)).act 0 size s =
      s.onTables fun t => t.copy dt dst st src size := by
  rw [bulkTableCopy_act (Nat.le_of_eq (Nat.zero_add _))]
  simp

theorem tableCopy_sweeps (dt st : Nat) : Sweeps (tableCopy (E := E) dt st) (BulkInstr.whole (.tableCopy dt st))
  | [size, src, dst], s => by
    have hlt : size % 2 ^ min (E.tableWidth st) (E.tableWidth dt) < 2 ^ min (E.tableWidth st) (E.tableWidth dt) :=
      Nat.mod_lt _ (by positivity)
    have hsrc : src % 2 ^ E.tableWidth st < 2 ^ E.tableWidth st := Nat.mod_lt _ (by positivity)
    have hdst : dst % 2 ^ E.tableWidth dt < 2 ^ E.tableWidth dt := Nat.mod_lt _ (by positivity)
    have hbd := s.tables.bound dt
    have hbs := s.tables.bound st
    by_cases h1 : dst % 2 ^ E.tableWidth dt + size % 2 ^ min (E.tableWidth st) (E.tableWidth dt) ≤ s.tables.size dt
    · by_cases h2 : src % 2 ^ E.tableWidth st + size % 2 ^ min (E.tableWidth st) (E.tableWidth dt) ≤ s.tables.size st
      · have hwhole : BulkInstr.whole (.tableCopy dt st) ([size, src, dst], s) = _ := if_pos ⟨h1, h2⟩
        have hop := tableCopy_ok rfl rfl rfl h1 h2
        generalize size % 2 ^ min (E.tableWidth st) (E.tableWidth dt) = size at *
        generalize src % 2 ^ E.tableWidth st = src at *
        generalize dst % 2 ^ E.tableWidth dt = dst at *
        by_cases hself : dt = st ∧ dst = src
        · rw [if_pos hself] at hop
          obtain ⟨rfl, rfl⟩ := hself
          refine .does hop (hwhole.trans ?_) ?_
          · simp only [noSweep, BulkStore.onTables, Space.copy_self]
          · exact ⟨plainChunk_ok, ⟨fun _ _ => rfl, fun _ _ _ _ _ => rfl⟩, fun d hd _ => absurd hd (Nat.not_lt_zero _)⟩
        rw [if_neg hself] at hop
        refine .does hop (hwhole.trans (congrArg _ (bulkTableCopy_all s).symm)) ?_
        refine ⟨plainChunk_ok, each_additive _ _, fun d hd _ => ?_⟩
        have hd : d < size := hd
        have hrest := s.tables.copy_rest dt dst st src (Nat.le_of_lt hd)
        rw [bulkTableCopy_act (by omega)]
        have hall : (bulkTableCopy dt dst st src size (Space.Overlaps dt dst st src size)).act 0 (bulkTableCopy (E := E) dt
          dst st src size (Space.Overlaps dt dst st src size)).size s = _ := bulkTableCopy_all s
        rw [hall]
        by_cases hb : decide (Space.Overlaps dt dst st src size) = true
        · rw [if_pos hb] at hrest
          simp only [bulkTableCopy, hb, if_true]
          refine ⟨_, (tableCopy_ok (wrap_wrap (by omega)) (Nat.mod_eq_of_lt hsrc) (Nat.mod_eq_of_lt hdst) ?_ ?_).trans
            (congrArg _ (if_neg hself)), rfl, ?_⟩
          · simp only [BulkStore.onTables, Space.copy_size]
            omega
          · simp only [BulkStore.onTables, Space.copy_size]
            omega
          · refine (bulkTableCopy_all _).trans ?_
            simp only [BulkStore.onTables, Nat.sub_zero, hrest]
        · rw [if_neg hb] at hrest
          rw [Bool.not_eq_true] at hb
          simp only [bulkTableCopy, hb, Bool.false_eq_true, if_false]
          have hself' : ¬ (dt = st ∧ dst + d = src + d) := by omega
          refine ⟨_, (tableCopy_ok (wrap_wrap (by omega)) (wrap_wrap (by omega)) (wrap_wrap (by omega)) ?_ ?_).trans
            (congrArg _ (if_neg hself')), rfl, ?_⟩
          · simp only [BulkStore.onTables, Space.copy_size]
            omega
          · simp only [BulkStore.onTables, Space.copy_size]
            omega
          · refine (bulkTableCopy_all _).trans ?_
            simp only [BulkStore.onTables, Nat.add_zero, hrest]
      · exact .fails (if_pos (rangeInBounds_pos h2)) (if_neg fun h => h2 h.2)
    · refine .fails ?_ (if_neg fun h => h1 h.1)
      simp only [tableCopy, rangeInBounds_pos h1, if_true, ite_self]
  | [], _ | [_], _ | [_, _], _ | _ :: _ :: _ :: _ :: _, _ => rfl

theorem tableInit_ok (hdrop : E.elemDropped seg = false) (hs : size % 2 ^ 32 = size') (hsrc : src % 2 ^ 32 = src')
    (hdst : dst % 2 ^ E.tableWidth table = dst') (h1 : dst' + size' ≤ s.tables.size table)
    (h2 : src' + size' ≤ E.numElems seg) :
    tableInit seg table [size, src, dst] s = .ok (bulkTableInit table dst' seg src' size') := by
  subst hs hsrc hdst
  simp only [tableInit, hdrop, Bool.false_eq_true, if_false]
  exact (if_neg (rangeInBounds_neg h2)).trans (if_neg (rangeInBounds_neg h1))

theorem bulkTableInit_act {d n : Nat} (hn : d + n ≤ size) (s : BulkStore E) :
    (bulkTableInit table dst seg src size).act d n s =
      s.onTables fun t => t.write table (dst + d) n fun i => E.elemAt seg (src + (d + i)) := by
  have hadd := onTables_additive (Space.write_additive (w := E.tableWidth) table dst (fun i => E.elemAt seg (src + i)) size)
  refine Eq.trans (each_congr s fun i s _ _ => ?_) (hadd.single s hn)
  refine congrArg (fun t => ({ s with tables := t } : BulkStore E)) (s.tables.write_congr fun j hj => ?_)
  rw [Nat.lt_one_iff.mp hj, Nat.add_zero]

theorem tableInit_sweeps (seg table : Nat) : Sweeps (tableInit (E := E) seg table) (BulkInstr.whole (.tableInit seg table))
  | [size, src, dst], s => by
    have hbound := s.tables.bound table
    have hlen := E.numElems_lt seg
    cases hdrop : E.elemDropped seg with
    | true =>
      simp only [BySweep, tableInit, BulkInstr.whole, hdrop, if_true]
      generalize size % 2 ^ 32 = size at *
      generalize src % 2 ^ 32 = src at *
      generalize dst % 2 ^ E.tableWidth table = dst at *
      by_cases hzero : size = 0 ∧ src = 0
      · obtain ⟨rfl, rfl⟩ := hzero
        by_cases hle : dst ≤ s.tables.size table
        · rw [if_neg (by simp), if_neg (by omega)]
          refine ⟨?_, plainChunk_ok, ⟨fun _ _ => rfl, fun _ _ _ _ _ => rfl⟩,
            fun d hd _ => absurd hd (Nat.not_lt_zero _)⟩
          rw [if_pos (by omega), noSweep]
          simp only [BulkStore.onTables, Space.write_zero]
        · rw [if_neg (by simp), if_pos (by omega)]
          exact if_neg (by omega)
      · rw [if_pos hzero]
        exact if_neg (by omega)
    | false =>
      by_cases h1 : dst % 2 ^ E.tableWidth table + size % 2 ^ 32 ≤ s.tables.size table
      · by_cases h2 : src % 2 ^ 32 + size % 2 ^ 32 ≤ E.numElems seg
        · have hwhole : BulkInstr.whole (.tableInit seg table) ([size, src, dst], s) = _ :=
            if_pos ⟨h1, by rw [hdrop]; exact h2⟩
          refine .does (tableInit_ok hdrop rfl rfl rfl h1 h2) (hwhole.trans (congrArg _ ?_)) ?_
          · refine Eq.trans ?_ (bulkTableInit_act (Nat.le_of_eq (Nat.zero_add _)) s).symm
            simp only [Nat.add_zero, Nat.zero_add]
          generalize size % 2 ^ 32 = size at *
          generalize src % 2 ^ 32 = src at *
          generalize dst % 2 ^ E.tableWidth table = dst at *
          refine ⟨plainChunk_ok, each_additive _ _, fun d hd _ => ?_⟩
          have hd : d < size := hd
          have hcut := (Space.write_additive (w := E.tableWidth) table dst (fun i => E.elemAt seg (src + i)) size).add 0 d
            (size - d) s.tables (by omega)
          rw [Nat.add_sub_cancel' (Nat.le_of_lt hd)] at hcut
          rw [bulkTableInit_act (by omega)]
          refine ⟨_, tableInit_ok hdrop (wrap_wrap (by omega)) (wrap_wrap (by omega)) (wrap_wrap (by omega)) ?_ (by omega),
            rfl, ?_⟩
          · simp only [BulkStore.onTables, Space.write_size]
            omega
          · refine (bulkTableInit_act (Nat.le_of_eq (Nat.zero_add _)) _).trans
              (Eq.trans ?_ (bulkTableInit_act (Nat.le_of_eq (Nat.zero_add _)) _).symm)
            simp only [BulkStore.onTables, Nat.add_zero, Nat.zero_add, Nat.add_assoc] at hcut ⊢
            rw [hcut]
        · refine .fails ?_ (if_neg fun h => h2 (by rw [hdrop] at h; exact h.2))
          simp only [tableInit, hdrop, Bool.false_eq_true, if_false]
          exact if_pos (rangeInBounds_pos h2)
      · refine .fails ?_ (if_neg fun h => h1 h.1)
        simp only [tableInit, hdrop, Bool.false_eq_true, if_false, rangeInBounds_pos h1, if_true, ite_self]
  | [], _ | [_], _ | [_, _], _ | _ :: _ :: _ :: _ :: _, _ => rfl

end Tables

section Arrays

variable {s : BulkStore E} {obj size val dst size' dst' : Nat}

/-- elements within the bounds of an object are within its payload -/
theorem length_mul {n : Nat} (h : n ≤ s.length obj) : n * E.esz obj ≤ s.arrays.size obj :=
  (Nat.le_div_iff_mul_le (E.esz_pos obj)).mp h

theorem arrayFill_ok (hnull : obj ≠ 0) (hs : size % 2 ^ 32 = size') (hd : dst % 2 ^ 32 = dst')
    (hle : dst' + size' ≤ s.length obj) :
    arrayFill [size, val, dst, obj] s = .ok (bulkArrayFill obj dst' val size') := by
  subst hs hd
  exact (if_neg hnull).trans (if_neg (by omega))

theorem bulkArrayFill_act {d n : Nat} (hfit : (dst + size) * E.esz obj ≤ 2 ^ 32) (hn : d + n ≤ size) (s : BulkStore E) :
    (bulkArrayFill obj dst val size).act d n s = s.onArrays fun a =>
      a.write obj ((dst + d) * E.esz obj) (n * E.esz obj) fun i => valueByte val ((d * E.esz obj + i) % E.esz obj) := by
  have hadd := onArrays_additive (E := E)
    (Space.writeCells_additive obj dst (E.esz obj) (fun i => valueByte val (i % E.esz obj)) size)
  refine Eq.trans (each_congr s fun i s hi hlt => ?_) (hadd.single s hn)
  have hpos := E.esz_pos obj
  have hin : (dst + i) * E.esz obj < 2 ^ 32 :=
    Nat.lt_of_lt_of_le (Nat.mul_lt_mul_of_pos_right (by omega : dst + i < dst + size) hpos) hfit
  rw [BulkStore.storeField, Nat.mod_eq_of_lt hin, Nat.one_mul]
  refine congrArg (fun a => ({ s with arrays := a } : BulkStore E)) (s.arrays.write_congr fun j hj => ?_)
  rw [Nat.add_comm (i * E.esz obj), Nat.add_mul_mod_self_right, Nat.mod_eq_of_lt hj]

theorem arrayFill_sweeps : Sweeps (arrayFill (E := E)) (BulkInstr.whole .arrayFill)
  | [size, val, dst, obj], s => by
    by_cases hnull : obj = 0
    · exact .fails (if_pos hnull) (if_neg fun h => h.1 hnull)
    by_cases hle : dst % 2 ^ 32 + size % 2 ^ 32 ≤ s.length obj
    · have hfit := Nat.le_trans (length_mul hle) (s.arrays.bound obj)
      have hlen : s.length obj ≤ 2 ^ 32 := Nat.le_trans (Nat.div_le_self _ _) (s.arrays.bound obj)
      have hmod := Nat.mod_lt size (by decide : 2 ^ 32 > 0)
      refine .does (arrayFill_ok hnull rfl rfl hle) ((if_pos ⟨hnull, hle⟩).trans (congrArg _ ?_)) ?_
      · refine Eq.trans ?_ (bulkArrayFill_act hfit (Nat.le_of_eq (Nat.zero_add _)) s).symm
        simp only [Nat.add_zero, Nat.zero_mul, Nat.zero_add]
      generalize size % 2 ^ 32 = size at *
      generalize dst % 2 ^ 32 = dst at *
      refine ⟨fillChunk_ok (E.esz_pos obj) (Nat.le_trans (E.esz_le obj) (by decide)), each_additive _ _, fun d hd _ => ?_⟩
      have hd : d < size := hd
      have hfit' : (dst + d + (size - d)) * E.esz obj ≤ 2 ^ 32 := by
        rwa [Nat.add_assoc, Nat.add_sub_cancel' (Nat.le_of_lt hd)]
      have hcut := (Space.writeCells_additive (w := fun _ => 32) obj dst (E.esz obj)
        (fun i => valueByte val (i % E.esz obj)) size).add 0 d (size - d) s.arrays (by omega)
      rw [Nat.add_sub_cancel' (Nat.le_of_lt hd)] at hcut
      rw [bulkArrayFill_act hfit (by omega)]
      refine ⟨_, arrayFill_ok hnull (wrap_wrap (by omega)) (wrap_wrap (by omega)) ?_, rfl, ?_⟩
      · simp only [BulkStore.length, BulkStore.onArrays, Space.write_size] at hle ⊢
        omega
      · refine (bulkArrayFill_act hfit' (Nat.le_of_eq (Nat.zero_add _)) _).trans
          (Eq.trans ?_ (bulkArrayFill_act hfit (Nat.le_of_eq (Nat.zero_add _)) _).symm)
        simp only [BulkStore.onArrays, Nat.add_zero, Nat.zero_add, Nat.zero_mul, Nat.mul_add_mod_self_right] at hcut ⊢
        rw [hcut]
    · refine .fails ((if_neg hnull).trans (if_pos (by omega))) (if_neg fun h => hle h.2)
  | [], _ | [_], _ | [_, _], _ | [_, _, _], _ | _ :: _ :: _ :: _ :: _ :: _, _ => rfl

variable {esz src src' srcObj dstObj seg : Nat}

/-- a sweep over bytes stops between elements -/
theorem mul_of_dvd {d n : Nat} (hesz : 0 < esz) (hd : d < n * esz) (hdvd : esz ∣ d) :
    d = d / esz * esz ∧ d / esz < n ∧ (n - d / esz) * esz = n * esz - d := by
  obtain ⟨k, rfl⟩ := hdvd
  rw [Nat.mul_div_cancel_left _ hesz]
  rw [Nat.mul_comm esz k] at hd ⊢
  exact ⟨rfl, Nat.lt_of_mul_lt_mul_right hd, Nat.sub_mul ..⟩

theorem arrayCopy_ok (hnull : ¬ (srcObj = 0 ∨ dstObj = 0)) (hs : size % 2 ^ 32 = size') (hsrc : src % 2 ^ 32 = src')
    (hdst : dst % 2 ^ 32 = dst') (h1 : src' + size' ≤ s.length srcObj) (h2 : dst' + size' ≤ s.length dstObj)
    (hesz : E.esz srcObj = E.esz dstObj) :
    arrayCopy [size, src, srcObj, dst, dstObj] s = .ok (bulkArrayCopy (E.esz srcObj) dstObj dst' srcObj src' size'
      (Space.Overlaps dstObj dst' srcObj src' size')) := by
  subst hs hsrc hdst
  exact (if_neg hnull).trans ((if_neg (by omega)).trans ((if_neg (by omega)).trans (if_neg (not_not_intro hesz))))

theorem bulkArrayCopy_all (b : Bool) (s : BulkStore E) :
    (bulkArrayCopy esz dstObj dst srcObj src size b).act 0 (size * esz) s =
      s.onArrays fun a => a.copy dstObj (dst * esz) srcObj (src * esz) (size * esz) := by
  cases b <;> simp [bulkArrayCopy]

theorem arrayCopy_sweeps : Sweeps (arrayCopy (E := E)) (BulkInstr.whole .arrayCopy)
  | [size, src, srcObj, dst, dstObj], s => by
    by_cases hnull : srcObj = 0 ∨ dstObj = 0
    · exact .fails (if_pos hnull) (if_pos fun h => by omega)
    by_cases h1 : src % 2 ^ 32 + size % 2 ^ 32 ≤ s.length srcObj
    swap
    · exact .fails ((if_neg hnull).trans (if_pos (by omega))) (if_pos fun h => h1 h.2.1)
    by_cases h2 : dst % 2 ^ 32 + size % 2 ^ 32 ≤ s.length dstObj
    swap
    · exact .fails ((if_neg hnull).trans ((if_neg (by omega)).trans (if_pos (by omega)))) (if_pos fun h => h2 h.2.2)
    have hbounds : ¬ ¬ ((srcObj ≠ 0 ∧ dstObj ≠ 0) ∧ src % 2 ^ 32 + size % 2 ^ 32 ≤ s.length srcObj ∧
        dst % 2 ^ 32 + size % 2 ^ 32 ≤ s.length dstObj) := not_not_intro ⟨by omega, h1, h2⟩
    by_cases hesz : E.esz srcObj = E.esz dstObj
    swap
    · exact .fails ((if_neg hnull).trans ((if_neg (by omega)).trans ((if_neg (by omega)).trans (if_pos hesz))))
        ((if_neg hbounds).trans (if_neg hesz))
    have hls : s.length srcObj ≤ 2 ^ 32 := Nat.le_trans (Nat.div_le_self _ _) (s.arrays.bound srcObj)
    have hld : s.length dstObj ≤ 2 ^ 32 := Nat.le_trans (Nat.div_le_self _ _) (s.arrays.bound dstObj)
    have hmod := Nat.mod_lt size (by decide : 2 ^ 32 > 0)
    have hmods := Nat.mod_lt src (by decide : 2 ^ 32 > 0)
    have hmodd := Nat.mod_lt dst (by decide : 2 ^ 32 > 0)
    refine .does (arrayCopy_ok hnull rfl rfl rfl h1 h2 hesz) ((if_neg hbounds).trans ((if_pos hesz).trans ?_)) ?_
    · exact congrArg _ (bulkArrayCopy_all _ s).symm
    have hpos := E.esz_pos srcObj
    have hsmall := Nat.le_trans (E.esz_le srcObj) (by decide : 16 ≤ itemsPerFuel)
    generalize size % 2 ^ 32 = size at *
    generalize src % 2 ^ 32 = src at *
    generalize dst % 2 ^ 32 = dst at *
    have hadd := Space.move_additive (α := UInt8) (w := fun _ => 32) dstObj (dst * E.esz srcObj) srcObj
      (src * E.esz srcObj) (size * E.esz srcObj)
    simp only [Space.overlaps_mul hpos] at hadd
    refine ⟨arrayChunk_ok hpos hsmall, onArrays_additive hadd, fun d hd hdvd => ?_⟩
    obtain ⟨hmul, hlt, hleft⟩ := mul_of_dvd hpos hd hdvd
    have hd : d < size * E.esz srcObj := hd
    generalize d / E.esz srcObj = k at *
    subst hmul
    have hrest := s.arrays.copy_rest dstObj (dst * E.esz srcObj) srcObj (src * E.esz srcObj) (Nat.le_of_lt hd)
    simp only [Space.overlaps_mul hpos] at hrest
    by_cases hb : decide (Space.Overlaps dstObj dst srcObj src size) = true
    · rw [if_pos hb] at hrest
      simp only [bulkArrayCopy, hb, if_true, Nat.mul_div_cancel _ hpos]
      refine ⟨_, arrayCopy_ok hnull (wrap_wrap (by omega)) (Nat.mod_eq_of_lt hmods) (Nat.mod_eq_of_lt hmodd) ?_ ?_ hesz,
        hleft, ?_⟩
      · simp only [BulkStore.length, BulkStore.onArrays, Space.copy_size] at h1 ⊢
        omega
      · simp only [BulkStore.length, BulkStore.onArrays, Space.copy_size] at h2 ⊢
        omega
      · refine (bulkArrayCopy_all _ _).trans ?_
        simp only [BulkStore.onArrays, Nat.sub_zero, hleft, hrest, Nat.sub_self, Nat.add_zero]
    · rw [if_neg hb] at hrest
      rw [Bool.not_eq_true] at hb
      simp only [bulkArrayCopy, hb, Bool.false_eq_true, if_false, Nat.mul_div_cancel _ hpos]
      refine ⟨_, arrayCopy_ok hnull (wrap_wrap (by omega)) (wrap_wrap (by omega)) (wrap_wrap (by omega)) ?_ ?_ hesz,
        hleft, ?_⟩
      · simp only [BulkStore.length, BulkStore.onArrays, Space.copy_size] at h1 ⊢
        omega
      · simp only [BulkStore.length, BulkStore.onArrays, Space.copy_size] at h2 ⊢
        omega
      · refine (bulkArrayCopy_all _ _).trans ?_
        simp only [BulkStore.onArrays, Nat.add_zero, hleft, Nat.add_mul, hrest]
  | [], _ | [_], _ | [_, _], _ | [_, _, _], _ | [_, _, _, _], _ | _ :: _ :: _ :: _ :: _ :: _ :: _, _ => rfl

theorem arrayInitData_ok (hnull : obj ≠ 0) (hs : size % 2 ^ 32 = size') (hsrc : src % 2 ^ 32 = src')
    (hdst : dst % 2 ^ 32 = dst') (h1 : dst' + size' ≤ s.length obj) (h2 : src' + size' * esz ≤ E.dataLen seg)
    (hesz : esz = E.esz obj) :
    arrayInitData esz seg [size, src, dst, obj] s = .ok (bulkArrayInitData esz obj dst' seg src' size') := by
  subst hs hsrc hdst
  exact (if_neg hnull).trans ((if_neg (by omega)).trans ((if_neg (by omega)).trans (if_neg (not_not_intro hesz))))

theorem arrayInitData_sweeps (esz seg : Nat) :
    Sweeps (arrayInitData (E := E) esz seg) (BulkInstr.whole (.arrayInitData esz seg))
  | [size, src, dst, obj], s => by
    by_cases hnull : obj = 0
    · exact .fails (if_pos hnull) (if_pos fun h => h.1 hnull)
    by_cases h1 : dst % 2 ^ 32 + size % 2 ^ 32 ≤ s.length obj
    swap
    · exact .fails ((if_neg hnull).trans (if_pos (by omega))) (if_pos fun h => h1 h.2.1)
    by_cases h2 : src % 2 ^ 32 + size % 2 ^ 32 * esz ≤ E.dataLen seg
    swap
    · exact .fails ((if_neg hnull).trans ((if_neg (by omega)).trans (if_pos (by omega)))) (if_pos fun h => h2 h.2.2)
    have hbounds : ¬ ¬ (obj ≠ 0 ∧ dst % 2 ^ 32 + size % 2 ^ 32 ≤ s.length obj ∧
        src % 2 ^ 32 + size % 2 ^ 32 * esz ≤ E.dataLen seg) := not_not_intro ⟨hnull, h1, h2⟩
    by_cases hesz : esz = E.esz obj
    swap
    · exact .fails ((if_neg hnull).trans ((if_neg (by omega)).trans ((if_neg (by omega)).trans (if_pos hesz))))
        ((if_neg hbounds).trans (if_neg hesz))
    have hlen : s.length obj ≤ 2 ^ 32 := Nat.le_trans (Nat.div_le_self _ _) (s.arrays.bound obj)
    have hdata := E.dataLen_lt seg
    have hmod := Nat.mod_lt size (by decide : 2 ^ 32 > 0)
    refine .does (arrayInitData_ok hnull rfl rfl rfl h1 h2 hesz) ((if_neg hbounds).trans ((if_pos hesz).trans ?_)) ?_
    · simp only [bulkArrayInitData, Nat.add_zero, Nat.zero_add]
    have hpos : 0 < esz := hesz ▸ E.esz_pos obj
    have hsmall : esz ≤ itemsPerFuel := hesz ▸ Nat.le_trans (E.esz_le obj) (by decide)
    generalize size % 2 ^ 32 = size at *
    generalize src % 2 ^ 32 = src at *
    generalize dst % 2 ^ 32 = dst at *
    have hadd := Space.write_additive (w := fun _ => 32) obj (dst * esz) (fun i => E.dataAt seg (src + i)) (size * esz)
    refine ⟨arrayChunk_ok hpos hsmall, onArrays_additive hadd, fun d hd hdvd => ?_⟩
    obtain ⟨hmul, hlt, hleft⟩ := mul_of_dvd hpos hd hdvd
    have hd : d < size * esz := hd
    generalize d / esz = k at *
    subst hmul
    have hcut := hadd.add 0 (k * esz) ((size - k) * esz) s.arrays (by omega)
    rw [hleft, Nat.add_sub_cancel' (Nat.le_of_lt hd)] at hcut
    simp only [bulkArrayInitData, Nat.mul_div_cancel _ hpos]
    refine ⟨_, arrayInitData_ok hnull (wrap_wrap (by omega)) (wrap_wrap (by omega)) (wrap_wrap (by omega)) ?_ (by omega)
      hesz, hleft, ?_⟩
    · simp only [BulkStore.length, BulkStore.onArrays, Space.write_size] at h1 ⊢
      omega
    · simp only [bulkArrayInitData, BulkStore.onArrays, hleft, Nat.add_mul, Nat.add_zero, Nat.zero_add, Nat.add_assoc]
        at hcut ⊢
      rw [hcut]
  | [], _ | [_], _ | [_, _], _ | [_, _, _], _ | _ :: _ :: _ :: _ :: _ :: _, _ => rfl

theorem arrayInitElem_ok (hnull : obj ≠ 0) (hs : size % 2 ^ 32 = size') (hsrc : src % 2 ^ 32 = src')
    (hdst : dst % 2 ^ 32 = dst') (h1 : dst' + size' ≤ s.length obj)
    (h2 : src' + size' ≤ if E.elemDropped seg then 0 else E.numElems seg) (hesz : E.esz obj = 8) :
    arrayInitElem seg [size, src, dst, obj] s = .ok (bulkArrayInitElem obj dst' seg src' size') := by
  subst hs hsrc hdst
  exact (if_neg hnull).trans
    ((if_neg (by omega)).trans ((if_neg (Nat.not_lt.mpr h2)).trans (if_neg (not_not_intro hesz))))

theorem bulkArrayInitElem_act {d n : Nat} (hn : d + n ≤ size) (s : BulkStore E) :
    (bulkArrayInitElem obj dst seg src size).act d n s = s.onArrays fun a =>
      a.write obj ((dst + d) * 8) (n * 8) fun i =>
        valueByte (E.elemAt seg (src + (d * 8 + i) / 8)) ((d * 8 + i) % 8) := by
  have hadd := onArrays_additive (E := E)
    (Space.writeCells_additive obj dst 8 (fun i => valueByte (E.elemAt seg (src + i / 8)) (i % 8)) size)
  refine Eq.trans (each_congr s fun i s hi hlt => ?_) (hadd.single s hn)
  rw [Nat.one_mul]
  refine congrArg (fun a => ({ s with arrays := a } : BulkStore E)) (s.arrays.write_congr fun j hj => ?_)
  have h1 : (i * 8 + j) / 8 = i := by omega
  have h2 : (i * 8 + j) % 8 = j := by omega
  rw [h1, h2]

theorem arrayInitElem_sweeps (seg : Nat) : Sweeps (arrayInitElem (E := E) seg) (BulkInstr.whole (.arrayInitElem seg))
  | [size, src, dst, obj], s => by
    by_cases hnull : obj = 0
    · exact .fails (if_pos hnull) (if_pos fun h => h.1 hnull)
    by_cases h1 : dst % 2 ^ 32 + size % 2 ^ 32 ≤ s.length obj
    swap
    · exact .fails ((if_neg hnull).trans (if_pos (by omega))) (if_pos fun h => h1 h.2.1)
    have hnum : (if E.elemDropped seg then 0 else E.numElems seg) < 2 ^ 32 := by
      have := E.numElems_lt seg
      split <;> omega
    by_cases h2 : src % 2 ^ 32 + size % 2 ^ 32 ≤ if E.elemDropped seg then 0 else E.numElems seg
    swap
    · exact .fails ((if_neg hnull).trans ((if_neg (by omega)).trans (if_pos (Nat.lt_of_not_le h2)))) (if_pos fun h => h2 h.2.2)
    have hbounds : ¬ ¬ (obj ≠ 0 ∧ dst % 2 ^ 32 + size % 2 ^ 32 ≤ s.length obj ∧
        src % 2 ^ 32 + size % 2 ^ 32 ≤ if E.elemDropped seg then 0 else E.numElems seg) :=
      not_not_intro ⟨hnull, h1, h2⟩
    by_cases hesz : E.esz obj = 8
    swap
    · exact .fails ((if_neg hnull).trans ((if_neg (by omega)).trans ((if_neg (Nat.not_lt.mpr h2)).trans (if_pos hesz))))
        ((if_neg hbounds).trans (if_neg hesz))
    have hlen : s.length obj ≤ 2 ^ 32 := Nat.le_trans (Nat.div_le_self _ _) (s.arrays.bound obj)
    have hmod := Nat.mod_lt size (by decide : 2 ^ 32 > 0)
    refine .does (arrayInitElem_ok hnull rfl rfl rfl h1 h2 hesz)
      ((if_neg hbounds).trans ((if_pos hesz).trans (congrArg _ ?_))) ?_
    · refine Eq.trans ?_ (bulkArrayInitElem_act (Nat.le_of_eq (Nat.zero_add _)) s).symm
      simp only [Nat.add_zero, Nat.zero_mul, Nat.zero_add]
    generalize size % 2 ^ 32 = size at *
    generalize src % 2 ^ 32 = src at *
    generalize dst % 2 ^ 32 = dst at *
    refine ⟨plainChunk_ok, each_additive _ _, fun d hd _ => ?_⟩
    have hd : d < size := hd
    have hcut := (Space.writeCells_additive (w := fun _ => 32) obj dst 8
      (fun i => valueByte (E.elemAt seg (src + i / 8)) (i % 8)) size).add 0 d (size - d) s.arrays (by omega)
    rw [Nat.add_sub_cancel' (Nat.le_of_lt hd)] at hcut
    rw [bulkArrayInitElem_act (by omega)]
    refine ⟨_, arrayInitElem_ok hnull (wrap_wrap (by omega)) (wrap_wrap (by omega)) (wrap_wrap (by omega)) ?_ (by omega)
      hesz, rfl, ?_⟩
    · simp only [BulkStore.length, BulkStore.onArrays, Space.write_size] at h1 ⊢
      omega
    · refine (bulkArrayInitElem_act (Nat.le_of_eq (Nat.zero_add _)) _).trans
        (Eq.trans ?_ (bulkArrayInitElem_act (Nat.le_of_eq (Nat.zero_add _)) _).symm)
      simp only [BulkStore.onArrays, Nat.add_zero, Nat.zero_add, Nat.zero_mul] at hcut ⊢
      have hshift : ∀ i, valueByte (E.elemAt seg (src + d + i / 8)) (i % 8) =
          valueByte (E.elemAt seg (src + (d * 8 + i) / 8)) ((d * 8 + i) % 8) := by
        intro i
        have h1 : (d * 8 + i) / 8 = d + i / 8 := by omega
        have h2 : (d * 8 + i) % 8 = i % 8 := by omega
        rw [h1, h2, Nat.add_assoc]
      simp only [hshift]
      rw [hcut]
  | [], _ | [_], _ | [_, _], _ | [_, _, _], _ | _ :: _ :: _ :: _ :: _ :: _, _ => rfl

end Arrays

namespace BulkInstr

theorem sweeps : ∀ i : BulkInstr, Sweeps (i.op (E := E)) i.whole
  | .memoryFill mem => memoryFill_sweeps mem
  | .memoryCopy dm sm => memoryCopy_sweeps dm sm
  | .memoryInit seg mem => memoryInit_sweeps seg mem
  | .tableFill table => tableFill_sweeps table
  | .tableCopy dt st => tableCopy_sweeps dt st
  | .tableInit seg table => tableInit_sweeps seg table
  | .arrayFill => arrayFill_sweeps
  | .arrayCopy => arrayCopy_sweeps
  | .arrayInitData esz seg => arrayInitData_sweeps esz seg
  | .arrayInitElem seg => arrayInitElem_sweeps seg

/-- an instruction until its end or its next stop -/
def visit (i : BulkInstr) : Ration → List Nat × BulkStore E → Visited (List Nat × BulkStore E) (BulkStore E) BulkFault :=
  Wah.sweeps i.op

/-- **Stopping a bulk instruction does not show.** However often it is stopped, by interrupts or for fuel, or paused before
it starts: once it is over, all is as if it had been done at once, and it only fails when nothing was written. -/
theorem resumed (i : BulkInstr) (bs : List (Option Ration)) (x : List Nat × BulkStore E) :
    (resume i.visit bs x).Means i.whole x := i.sweeps.lawful.resume bs x

/-- **Bulk instructions end**: visits that start with some fuel, or without metering, handle an item at least. -/
theorem finishes (i : BulkInstr) (bs : List (Option Ration)) (x x' : List Nat × BulkStore E) (cost : Nat)
    (hgood : ∀ b, some b ∈ bs → Ration.Solvent b.fuel) (hlen : itemsLeft i.op x < bs.reduceOption.length) :
    resume i.visit bs x ≠ .part x' cost :=
  resume_ends (fun b => Ration.Solvent b.fuel) (fun _ _ _ _ hb hv => (i.sweeps.left hv).2 hb) hgood hlen x' cost

theorem finishes_fill :
    resume (memoryFill 0).visit [some ⟨some 1, fun _ => true⟩, none, some ⟨none, fun _ => true⟩, some ⟨some 0, fun _ => true⟩,
      some ⟨some 4, fun _ => false⟩] ([3, 7, 100], onePage) ≠ .part ([1, 7, 102], onePage) 0 :=
  finishes (.memoryFill 0) _ _ _ _ (by simp [Ration.Solvent]) (by decide)

/-- instructions that are charged by whole items; other array instructions charge an element at least -/
def byItems : BulkInstr → Bool
  | .arrayFill | .arrayCopy | .arrayInitData _ _ => false
  | _ => true

theorem byItems_op {i : BulkInstr} (hi : i.byItems = true) {args : List Nat} {s : BulkStore E} {w : Sweep (BulkStore E)}
    (hw : i.op args s = .ok w) : w.unit = 1 ∧ w.grain = itemsPerFuel := by
  cases i <;> simp only [byItems, Bool.false_eq_true] at hi <;>
    simp only [op, Wah.memoryFill, Wah.memoryCopy, Wah.memoryInit, Wah.tableFill, Wah.tableCopy, Wah.tableInit,
      Wah.arrayInitElem] at hw
  all_goals
    repeat' split at hw
    all_goals
      cases hw
      try exact ⟨rfl, rfl⟩

theorem rest_length {i : BulkInstr} {args : List Nat} {s : BulkStore E} {w : Sweep (BulkStore E)}
    (hw : i.op args s = .ok w) {d : Nat} (hd : d < w.size) : (w.rest d).length = args.length := by
  cases i <;>
    simp only [op, Wah.memoryFill, Wah.memoryCopy, Wah.memoryInit, Wah.tableFill, Wah.tableCopy, Wah.tableInit,
      Wah.arrayFill, Wah.arrayCopy, Wah.arrayInitData, Wah.arrayInitElem] at hw
  all_goals
    repeat' split at hw
    all_goals
      cases hw
      try exact absurd hd (Nat.not_lt_zero _)
      try rfl
  all_goals
    simp only [memoryCopyInternal, bulkTableCopy, bulkArrayCopy]
    split <;> rfl

/-- as many operands are pushed as were popped -/
theorem visit_arity {i : BulkInstr} {b : Ration} {x x' : List Nat × BulkStore E} {cost : Nat}
    (h : i.visit b x = .part x' cost) : x'.1.length = x.1.length := by
  have hv := i.sweeps.visit b x
  rw [← visit, h] at hv
  cases hv with
  | part hw hd => exact rest_length hw hd

/-- **The bill of a bulk instruction does not depend on its stops**: a unit for every `itemsPerFuel` items. -/
theorem bill (i : BulkInstr) (hi : i.byItems = true) (bs : List (Option Ration)) (x : List Nat × BulkStore E) :
    (resume i.visit bs x).Pays (itemsPrice i.op) (itemsPrice i.op x) :=
  (i.sweeps.priced fun _ _ _ hw => byItems_op hi hw).resume bs x

theorem bill_fill :
    (resume (memoryFill 0).visit [some ⟨some 1, fun _ => false⟩, none, some ⟨some 2, fun _ => false⟩,
      some ⟨some 9, fun _ => false⟩] ([20000, 7, 100], onePage)).Pays (itemsPrice (memoryFill 0).op)
      (itemsPrice (memoryFill 0).op ([20000, 7, 100], onePage)) :=
  bill (.memoryFill 0) rfl _ _

end BulkInstr

end Ops

end Wah
