/-
Element segments: `table.init`, `array.new_elem` and `array.init_elem` evaluate the expression of an item when they
read it.

Model:
- a segment keeps function indices, or the code of its expressions one after another with the offset of each;
- an object is the number of its allocation, so two references to objects are `ref.eq` when they are the same value;
- a bulk operation stops before an item where `stop` says so (fuel or an interrupt). Its remaining operands are pushed
  back and the instruction runs again, which is one more operation of the run;
- `reads` is a ghost: every item stored by an operation, newest first;
- other code may set mutable globals, write to tables and objects, allocate, add instances, and change how much memory
  is left (`ElemOp`).

Results: an item without an allocating instruction gives in every run what its expression gave at the start; an item
with one gives a new object at every read, so the reads of an item agree iff it does not allocate or it is read at most
once (`elem_reads_exact`).
-/
import Wah.ConstExpr

namespace Wah

/-! ## Segments -/

inductive SegmentMode where
  | passive
  | declarative
  | active (tableIdx : Nat) (offset : List ConstInstr)
deriving DecidableEq, Repr

/-- `u.func_indices`, or `u.expr` -/
inductive SegmentItems where
  | funcIndices (indices : List Nat)
  | exprs (bytecode : List ConstInstr) (offsets : List Nat)
deriving DecidableEq, Repr

/-- `wah_element_segment_t` -/
structure ElementSegment where
  mode : SegmentMode
  items : SegmentItems
deriving DecidableEq, Repr

/-- one item of a segment -/
inductive ElemItem where
  | func (idx : Nat)
  | expr (code : List ConstInstr)
deriving DecidableEq, Repr

namespace ElementSegment

def numElems (seg : ElementSegment) : Nat :=
  match seg.items with
  | .funcIndices indices => indices.length
  | .exprs _ offsets => offsets.length - 1

/-- the code of all expressions -/
def bytecode (seg : ElementSegment) : List ConstInstr :=
  match seg.items with
  | .funcIndices _ => []
  | .exprs code _ => code

/-- the `i`-th item, as `wah_eval_elem_expr` cuts it out -/
def item (seg : ElementSegment) (i : Nat) : Option ElemItem :=
  match seg.items with
  | .funcIndices indices => indices[i]?.map .func
  | .exprs code offsets =>
    match offsets[i]?, offsets[i + 1]? with
    | some start, some stop => some (.expr ((code.drop start).take (stop - start)))
    | _, _ => none

end ElementSegment

/-- the parser appends the code of each expression and its end -/
def appendExpr : List ConstInstr × List Nat → List ConstInstr → List ConstInstr × List Nat
  | (code, offsets), expr => (code ++ expr, offsets ++ [code.length + expr.length])

/-- the expressions of a segment as the parser lays them out -/
def ofExprs (exprs : List (List ConstInstr)) : SegmentItems :=
  let r := exprs.foldl appendExpr ([], [0])
  .exprs r.1 r.2

theorem foldl_appendExpr (exprs : List (List ConstInstr)) (code : List ConstInstr) (offsets : List Nat) :
    exprs.foldl appendExpr (code, offsets) =
      (code ++ exprs.flatten,
        offsets ++ (List.range exprs.length).map fun j => code.length + (exprs.take (j + 1)).flatten.length) := by
  induction exprs generalizing code offsets with
  | nil => simp
  | cons expr exprs ih =>
    rw [List.foldl_cons, appendExpr, ih]
    simp [List.range_succ_eq_map, Function.comp_def, Nat.add_assoc]

/-- what is cut out is what was appended -/
theorem item_ofExprs {mode : SegmentMode} {exprs : List (List ConstInstr)} {i : Nat} {expr : List ConstInstr}
    (h : exprs[i]? = some expr) : ElementSegment.item ⟨mode, ofExprs exprs⟩ i = some (.expr expr) := by
  obtain ⟨hi, rfl⟩ := List.getElem?_eq_some_iff.mp h
  have hoff : ∀ j ≤ exprs.length,
      (0 :: (List.range exprs.length).map fun j => (exprs.take (j + 1)).flatten.length)[j]? =
        some (exprs.take j).flatten.length := by
    intro j hj
    cases j with
    | zero => rfl
    | succ j => simp [List.getElem?_range (Nat.lt_of_succ_le hj)]
  have hsplit : exprs.flatten = (exprs.take i).flatten ++ (exprs[i] ++ (exprs.drop (i + 1)).flatten) := by
    rw [← List.flatten_cons, ← List.drop_eq_getElem_cons hi, ← List.flatten_append, List.take_append_drop]
  have hlen : (exprs.take (i + 1)).flatten.length = (exprs.take i).flatten.length + exprs[i].length := by
    rw [List.take_succ_eq_append_getElem hi, List.flatten_append, List.length_append, List.flatten_singleton]
  simp only [ElementSegment.item, ofExprs, foldl_appendExpr, List.nil_append, List.length_nil, Nat.zero_add,
    List.singleton_append, hoff i (Nat.le_of_lt hi), hoff (i + 1) hi, hlen, Nat.add_sub_cancel_left]
  rw [hsplit, List.drop_left, List.take_left]

def ElemItem.allocates : ElemItem → Bool
  | .func _ => false
  | .expr code => Wah.allocates code

/-- a module: its segments read immutable globals only, which validation has checked -/
structure ElemModule where
  elementSegments : List ElementSegment
  fieldTypes : Nat → List StoreType
  globalMutable : Nat → Bool
  constant : ∀ seg ∈ elementSegments, ∀ g, .globalGet g ∈ seg.bytecode → globalMutable g = false

/-- an instance; `tables` are positions in the store, `dropped` the set bits of `dropped_elem_segments` -/
structure ElemInst where
  module : ElemModule
  globals : Nat → CVal Nat
  tables : List Nat
  dropped : List Nat

/-- a value an operation has read from an element, and the objects allocated for it -/
structure ElemRead where
  ctx : Nat
  seg : Nat
  idx : Nat
  value : CVal Nat
  made : List (CObj Nat)
deriving DecidableEq, Repr

structure ElemWorld where
  insts : List ElemInst
  heap : List (CObj Nat)
  tables : List (List (CVal Nat))
  room : List (CObj Nat) → CObj Nat → Bool
  reads : List ElemRead

namespace ElemWorld

/-! ## Reading an item -/

/-- the context of instance `I`, number `c`; new objects are appended to the heap -/
def env (w : ElemWorld) (c : Nat) (I : ElemInst) : ConstEnv Nat where
  globals := I.globals
  self := c
  fieldTypes := I.module.fieldTypes
  room := fun made o => w.room (w.heap ++ made) o
  name := fun k => w.heap.length + k

/-- `wah_eval_const_expr` -/
def evalConst (w : ElemWorld) (c : Nat) (I : ElemInst) (code : List ConstInstr) :
    Except ConstError (CVal Nat) × ElemWorld :=
  let r := Wah.evalConst (w.env c I) code
  (r.1, { w with heap := w.heap ++ r.2 })

/-- the value of an item, and what is allocated for it -/
def evalItem (w : ElemWorld) (c : Nat) (I : ElemInst) : ElemItem → Except ConstError (CVal Nat) × List (CObj Nat)
  | .func idx => (.ok (.ref (.func c idx)), [])
  | .expr code => Wah.evalConst (w.env c I) code

/-- `wah_materialize_funcref` or `wah_eval_elem_expr` for item `i` of segment `s`, whose value is going to be stored -/
def readElem (w : ElemWorld) (c : Nat) (I : ElemInst) (s : Nat) (seg : ElementSegment) (i : Nat) :
    Except ConstError (CVal Nat) × ElemWorld :=
  match seg.item i with
  | none => (.error .trap, w)
  | some item =>
    let r := w.evalItem c I item
    match r.1 with
    | .ok v => (.ok v, { w with heap := w.heap ++ r.2, reads := ⟨c, s, i, v, r.2⟩ :: w.reads })
    | .error e => (.error e, { w with heap := w.heap ++ r.2 })

/-- how a bulk operation ends; one that is stopped has done so many elements -/
inductive BulkEnd where
  | done
  | stopped (count : Nat)
  | failed (e : ConstError)
deriving DecidableEq, Repr

/-- the loop of `wah_bulk_table_init`, `wah_bulk_array_init_elem` and `array.new_elem`: `n` items are left and `k` are
done. A chunk is as long as the fuel affords, so the loop may stop before any item. -/
def bulkElems (store : Nat → CVal Nat → ElemWorld → ElemWorld) (stop : Nat → Bool) (c : Nat) (I : ElemInst) (s : Nat)
    (seg : ElementSegment) (src : Nat) : Nat → Nat → ElemWorld → BulkEnd × ElemWorld
  | 0, _, w => (.done, w)
  | n + 1, k, w =>
    if stop k then (.stopped k, w)
    else
      match w.readElem c I s seg (src + k) with
      | (.ok v, w') => bulkElems store stop c I s seg src n (k + 1) (store k v w')
      | (.error e, w') => (.failed e, w')

def storeTable (t dst : Nat) (k : Nat) (v : CVal Nat) (w : ElemWorld) : ElemWorld :=
  { w with tables := w.tables.modify t fun entries => entries.set (dst + k) v }

def storeArray (a dst : Nat) (k : Nat) (v : CVal Nat) (w : ElemWorld) : ElemWorld :=
  { w with heap := w.heap.modify a fun o => { o with values := o.values.set (dst + k) v } }

/-! ## The operations -/

/-- `wah_elem_seg_num_elems` -/
def segNumElems (I : ElemInst) (s : Nat) (seg : ElementSegment) : Nat := if s ∈ I.dropped then 0 else seg.numElems

def tableSize (w : ElemWorld) (t : Nat) : Nat := (w.tables[t]?.map List.length).getD 0

/-- `table.init`; a table index is resolved to its position in the store -/
def tableInit (w : ElemWorld) (c : Nat) (I : ElemInst) (t s : Nat) (seg : ElementSegment) (dst src size : Nat)
    (stop : Nat → Bool) : BulkEnd × ElemWorld :=
  if s ∈ I.dropped then
    if size = 0 ∧ src = 0 ∧ dst ≤ w.tableSize t then (.done, w) else (.failed .trap, w)
  else if src + size ≤ seg.numElems ∧ dst + size ≤ w.tableSize t then
    bulkElems (storeTable t dst) stop c I s seg src size 0 w
  else (.failed .trap, w)

/-- `array.new_elem`, which cannot stop; the new array is the object number `heap.length` -/
def arrayNewElem (w : ElemWorld) (c : Nat) (I : ElemInst) (typeidx s : Nat) (seg : ElementSegment) (offset size : Nat) :
    BulkEnd × ElemWorld :=
  if offset + size ≤ segNumElems I s seg then
    let array : CObj Nat := ⟨typeidx, List.replicate size (.ref .null)⟩
    if w.room w.heap array then
      bulkElems (storeArray w.heap.length 0) (fun _ => false) c I s seg offset size 0 { w with heap := w.heap ++ [array] }
    else (.failed .outOfMemory, w)
  else (.failed .trap, w)

/-- `array.init_elem` on the object `a` -/
def arrayInitElem (w : ElemWorld) (c : Nat) (I : ElemInst) (a s : Nat) (seg : ElementSegment) (dst src size : Nat)
    (stop : Nat → Bool) : BulkEnd × ElemWorld :=
  match w.heap[a]? with
  | none => (.failed .trap, w)
  | some o =>
    if dst + size ≤ o.values.length ∧ src + size ≤ segNumElems I s seg then
      bulkElems (storeArray a dst) stop c I s seg src size 0 w
    else (.failed .trap, w)

/-- `wah_elem_seg_mark_dropped` -/
def dropElem (w : ElemWorld) (c s : Nat) : ElemWorld :=
  { w with insts := w.insts.modify c fun I => { I with dropped := s :: I.dropped } }

/-- the offset of an active segment as an unsigned number -/
def offsetOf : CVal Nat → Nat
  | .i32 n => n.toNat
  | .i64 n => n.toNat
  | _ => 0

/-- `wah_init_active_elem_segments` for one segment -/
def initActive (w : ElemWorld) (c : Nat) (I : ElemInst) (s : Nat) (seg : ElementSegment) : BulkEnd × ElemWorld :=
  match seg.mode with
  | .active tableIdx offset =>
    match w.evalConst c I offset, I.tables[tableIdx]? with
    | (.ok v, w'), some t =>
      if offsetOf v + seg.numElems ≤ w'.tableSize t then
        match bulkElems (storeTable t (offsetOf v)) (fun _ => false) c I s seg 0 seg.numElems 0 w' with
        | (.done, w'') => (.done, w''.dropElem c s)
        | r => r
      else (.failed .trap, w')
    | (.ok _, w'), none => (.failed .stuck, w')
    | (.error e, w'), _ => (.failed e, w')
  | _ => (.done, w)

/-- what a run is made of: the operations on segments, and what other code does -/
inductive ElemOp where
  | tableInit (c t s dst src size : Nat) (stop : Nat → Bool)
  | arrayNewElem (c typeidx s offset size : Nat)
  | arrayInitElem (c a s dst src size : Nat) (stop : Nat → Bool)
  | elemDrop (c s : Nat)
  | initActive (c s : Nat)
  | globalSet (c g : Nat) (v : CVal Nat)
  | setTable (t : Nat) (entries : List (CVal Nat))
  | setObject (a : Nat) (values : List (CVal Nat))
  | newObject (o : CObj Nat)
  | newInst (I : ElemInst)
  | setRoom (room : List (CObj Nat) → CObj Nat → Bool)

/-- an operation on segment `s` of instance `c` -/
def onSegment (w : ElemWorld) (c s : Nat) (f : ElemInst → ElementSegment → BulkEnd × ElemWorld) : ElemWorld :=
  match w.insts[c]? with
  | none => w
  | some I =>
    match I.module.elementSegments[s]? with
    | none => w
    | some seg => (f I seg).2

/-- `global.set`; validation rejects it on immutable globals -/
def globalSet (w : ElemWorld) (c g : Nat) (v : CVal Nat) : ElemWorld :=
  { w with
    insts := w.insts.modify c fun I =>
      if I.module.globalMutable g then { I with globals := fun h => if h = g then v else I.globals h } else I }

def step (w : ElemWorld) : ElemOp → ElemWorld
  | .tableInit c t s dst src size stop =>
    w.onSegment c s fun I seg =>
      match I.tables[t]? with
      | some t => w.tableInit c I t s seg dst src size stop
      | none => (.failed .stuck, w)
  | .arrayNewElem c typeidx s offset size => w.onSegment c s fun I seg => w.arrayNewElem c I typeidx s seg offset size
  | .arrayInitElem c a s dst src size stop =>
    w.onSegment c s fun I seg => w.arrayInitElem c I a s seg dst src size stop
  | .elemDrop c s => w.dropElem c s
  | .initActive c s => w.onSegment c s fun I seg => w.initActive c I s seg
  | .globalSet c g v => w.globalSet c g v
  | .setTable t entries => { w with tables := w.tables.set t entries }
  | .setObject a values => { w with heap := w.heap.modify a fun o => { o with values := values } }
  | .newObject o => { w with heap := w.heap ++ [o] }
  | .newInst I => { w with insts := w.insts ++ [I] }
  | .setRoom room => { w with room := room }

def run (w : ElemWorld) (ops : List ElemOp) : ElemWorld := ops.foldl step w

/-- the reads of item `i` of segment `s` of instance `c` -/
def readsOf (w : ElemWorld) (c s i : Nat) : List ElemRead :=
  w.reads.filter fun r => r.ctx == c && r.seg == s && r.idx == i

/-- the start of a run: nothing has been read yet -/
def start (w : ElemWorld) : ElemWorld := { w with reads := [] }

/-- what an item is worth in `w`, with memory for all it allocates -/
def valueNow (w : ElemWorld) (c : Nat) (I : ElemInst) (item : ElemItem) :
    Except ConstError (CVal Nat) × List (CObj Nat) :=
  { w with room := fun _ _ => true }.evalItem c I item

/-- `r` is what the item is worth in `w`, up to the numbers of the objects allocated for it -/
def IsWorth (w : ElemWorld) (c : Nat) (I : ElemInst) (item : ElemItem) (r : ElemRead) : Prop :=
  ∃ n v made, w.valueNow c I item = (.ok v, made) ∧
    SameVal (fun k => n + k) (fun k => w.heap.length + k) r.made.length r.value v ∧
    List.Forall₂ (SameObj (fun k => n + k) (fun k => w.heap.length + k) r.made.length) r.made made

/-- one reference, fixed in `w`: all reads give the same value, which is what the item is worth in `w` -/
def FixedAt (w : ElemWorld) (c : Nat) (I : ElemInst) (item : ElemItem) (rs : List ElemRead) : Prop :=
  (∀ r ∈ rs, ∀ r' ∈ rs, r.value = r'.value) ∧ ∀ r ∈ rs, w.IsWorth c I item r

end ElemWorld

/-! ## What a run keeps -/

section Extends

/-- instances keep their modules and immutable globals, and allocations their numbers -/
structure ElemWorld.Extends (w w' : ElemWorld) : Prop where
  heap : w.heap.length ≤ w'.heap.length
  insts : ∀ (c : Nat) I, w.insts[c]? = some I → ∃ I', w'.insts[c]? = some I' ∧ I'.module = I.module ∧
    ∀ g, I.module.globalMutable g = false → I'.globals g = I.globals g

variable {w w' w'' : ElemWorld}

theorem ElemWorld.Extends.refl (w : ElemWorld) : w.Extends w :=
  ⟨Nat.le_refl _, fun _ I h => ⟨I, h, rfl, fun _ _ => rfl⟩⟩

theorem ElemWorld.Extends.trans (h : w.Extends w') (h' : w'.Extends w'') : w.Extends w'' := by
  refine ⟨Nat.le_trans h.heap h'.heap, fun c I hI => ?_⟩
  obtain ⟨I', hI', hmod, hglob⟩ := h.insts c I hI
  obtain ⟨I'', hI'', hmod', hglob'⟩ := h'.insts c I' hI'
  refine ⟨I'', hI'', hmod'.trans hmod, fun g hg => ?_⟩
  rw [hglob' g (by rwa [hmod]), hglob g hg]

theorem ElemWorld.Extends.of_insts_eq (hheap : w.heap.length ≤ w'.heap.length) (hinsts : w'.insts = w.insts) :
    w.Extends w' :=
  ⟨hheap, fun _ I hI => ⟨I, hinsts ▸ hI, rfl, fun _ _ => rfl⟩⟩

/-- an instance may change in what is neither its module nor an immutable global -/
theorem ElemWorld.Extends.modify {c : Nat} {f : ElemInst → ElemInst} (hheap : w'.heap = w.heap)
    (hinsts : w'.insts = w.insts.modify c f)
    (hf : ∀ I, (f I).module = I.module ∧ ∀ g, I.module.globalMutable g = false → (f I).globals g = I.globals g) :
    w.Extends w' := by
  refine ⟨Nat.le_of_eq (congrArg List.length hheap).symm, fun k I hI => ?_⟩
  rw [hinsts, List.getElem?_modify, hI]
  by_cases hk : c = k
  · exact ⟨f I, by simp [hk], hf I⟩
  · exact ⟨I, by simp [hk], rfl, fun _ _ => rfl⟩

end Extends

/-! ## The reads of one item -/

section Reads

/-- the item as it is in `w₀` -/
structure ItemIn (w₀ : ElemWorld) (c s i : Nat) (I₀ : ElemInst) (seg : ElementSegment) (item : ElemItem) : Prop where
  inst_eq : w₀.insts[c]? = some I₀
  seg_eq : I₀.module.elementSegments[s]? = some seg
  item_eq : seg.item i = some item

/-- what holds of `w`, reached from `w₀`, and the reads so far -/
structure ReadsOk (w₀ : ElemWorld) (c s i : Nat) (I₀ : ElemInst) (item : ElemItem) (w : ElemWorld) : Prop where
  ext : w₀.Extends w
  worth : ∀ r ∈ w.readsOf c s i, w₀.IsWorth c I₀ item r
  pure : item.allocates = false → ∀ r ∈ w.readsOf c s i, w₀.valueNow c I₀ item = (.ok r.value, [])
  new : item.allocates = true → ∀ r ∈ w.readsOf c s i, ∃ k < w.heap.length, r.value = .ref (.obj k)
  distinct : item.allocates = true → (w.readsOf c s i).Pairwise fun r r' => r.value ≠ r'.value

variable {w₀ w w' : ElemWorld} {c s i : Nat} {I₀ I : ElemInst} {seg : ElementSegment} {item : ElemItem}

theorem ReadsOk.keep (h : ReadsOk w₀ c s i I₀ item w) (hext : w.Extends w') (hreads : w'.reads = w.reads) :
    ReadsOk w₀ c s i I₀ item w' := by
  have hof : w'.readsOf c s i = w.readsOf c s i := by rw [ElemWorld.readsOf, hreads, ElemWorld.readsOf]
  refine ⟨h.ext.trans hext, ?_, ?_, fun ha r hr => ?_, ?_⟩
  · rw [hof]; exact h.worth
  · rw [hof]; exact h.pure
  · obtain ⟨k, hk, hv⟩ := h.new ha r (hof ▸ hr)
    exact ⟨k, Nat.lt_of_lt_of_le hk hext.heap, hv⟩
  · rw [hof]; exact h.distinct

/-- the instance `I` is, up to mutable globals, the instance `c` of `w₀` -/
def SameInst (w₀ : ElemWorld) (c : Nat) (I : ElemInst) : Prop :=
  ∀ I₀, w₀.insts[c]? = some I₀ →
    I.module = I₀.module ∧ ∀ g, I₀.module.globalMutable g = false → I.globals g = I₀.globals g

theorem ElemWorld.Extends.sameInst (h : w₀.Extends w) (hI : w.insts[c]? = some I) : SameInst w₀ c I := by
  intro I₀ hI₀
  obtain ⟨I', hI', hmod, hglob⟩ := h.insts c I₀ hI₀
  obtain rfl := Option.some.inj (hI.symm.trans hI')
  exact ⟨hmod, hglob⟩

/-- the code of an item is part of the code of its segment -/
theorem mem_bytecode {code : List ConstInstr} {instr : ConstInstr} (h : seg.item i = some (.expr code))
    (hmem : instr ∈ code) : instr ∈ seg.bytecode := by
  unfold ElementSegment.item at h
  unfold ElementSegment.bytecode
  cases hitems : seg.items with
  | funcIndices indices =>
    rw [hitems] at h
    obtain ⟨idx, -, hidx⟩ := Option.map_eq_some_iff.mp h
    cases hidx
  | exprs all offsets =>
    simp only [hitems] at h
    split at h
    · cases h
      exact List.mem_of_mem_drop (List.mem_of_mem_take hmem)
    · cases h

/-- an item reads only immutable globals, so its environment is the one at the start -/
theorem ItemIn.agrees {code : List ConstInstr} (hin : ItemIn w₀ c s i I₀ seg (.expr code)) (hI : SameInst w₀ c I) :
    Agrees (w.env c I) ({ w₀ with room := fun _ _ => true }.env c I₀) code := by
  obtain ⟨hmod, hglob⟩ := hI I₀ hin.inst_eq
  refine ⟨rfl, ?_, fun g hg => ?_, fun _ _ => rfl⟩
  · show I₀.module.fieldTypes = I.module.fieldTypes
    rw [hmod]
  · have himm := I₀.module.constant seg (List.mem_of_getElem? hin.seg_eq) g (mem_bytecode hin.item_eq hg)
    exact (hglob g himm).symm

/-- what a read of the item gives -/
theorem evalItem_worth {v : CVal Nat} {made : List (CObj Nat)} (hin : ItemIn w₀ c s i I₀ seg item)
    (hI : SameInst w₀ c I) (h : w.evalItem c I item = (.ok v, made)) : w₀.IsWorth c I₀ item ⟨c, s, i, v, made⟩ := by
  cases item with
  | func idx =>
    cases h
    exact ⟨0, _, _, rfl, .refl _ _, .nil⟩
  | expr code =>
    obtain ⟨v', made', h', hv, hmade⟩ := evalConst_names (hin.agrees (w := w) hI) h
    exact ⟨w.heap.length, v', made', h', hv, hmade⟩

theorem evalItem_pure {v : CVal Nat} {made : List (CObj Nat)} (hin : ItemIn w₀ c s i I₀ seg item)
    (hI : SameInst w₀ c I) (ha : item.allocates = false) (h : w.evalItem c I item = (.ok v, made)) :
    w₀.valueNow c I₀ item = (.ok v, []) := by
  cases item with
  | func idx => cases h; rfl
  | expr code => exact (evalConst_pure ha (hin.agrees (w := w) hI) h).2

theorem evalItem_new {v : CVal Nat} {made : List (CObj Nat)} (ha : item.allocates = true)
    (h : w.evalItem c I item = (.ok v, made)) :
    ∃ k < made.length, v = .ref (.obj (w.heap.length + k)) := by
  cases item with
  | func idx => cases ha
  | expr code => exact evalConst_fresh ha h

/-- a read of the item is the newest of its reads -/
theorem ReadsOk.add {v : CVal Nat} {made : List (CObj Nat)} (hin : ItemIn w₀ c s i I₀ seg item)
    (h : ReadsOk w₀ c s i I₀ item w) (hI : SameInst w₀ c I) (hev : w.evalItem c I item = (.ok v, made)) :
    ReadsOk w₀ c s i I₀ item { w with heap := w.heap ++ made, reads := ⟨c, s, i, v, made⟩ :: w.reads } := by
  have hgrow : w.Extends { w with heap := w.heap ++ made, reads := ⟨c, s, i, v, made⟩ :: w.reads } :=
    .of_insts_eq (by simp) rfl
  have hof : { w with heap := w.heap ++ made, reads := ⟨c, s, i, v, made⟩ :: w.reads }.readsOf c s i =
      ⟨c, s, i, v, made⟩ :: w.readsOf c s i := by
    simp [ElemWorld.readsOf]
  refine ⟨h.ext.trans hgrow, ?_, fun ha => ?_, fun ha => ?_, fun ha => ?_⟩
  · rw [hof, List.forall_mem_cons]
    exact ⟨evalItem_worth hin hI hev, h.worth⟩
  · rw [hof, List.forall_mem_cons]
    exact ⟨evalItem_pure hin hI ha hev, h.pure ha⟩
  · obtain ⟨k, hk, hv⟩ := evalItem_new ha hev
    rw [hof, List.forall_mem_cons]
    refine ⟨⟨w.heap.length + k, by simpa using hk, hv⟩, fun r hr => ?_⟩
    obtain ⟨k', hk', hv'⟩ := h.new ha r hr
    exact ⟨k', Nat.lt_of_lt_of_le hk' hgrow.heap, hv'⟩
  · obtain ⟨k, -, hv⟩ := evalItem_new ha hev
    rw [hof, List.pairwise_cons]
    refine ⟨fun r hr heq => ?_, h.distinct ha⟩
    -- older reads gave objects that were there before this evaluation
    obtain ⟨k', hk', hv'⟩ := h.new ha r hr
    rw [hv, hv'] at heq
    injection heq with heq
    injection heq with heq
    omega

/-- other reads do not matter -/
theorem ReadsOk.skip {r : ElemRead} {heap : List (CObj Nat)} (h : ReadsOk w₀ c s i I₀ item w)
    (hr : ¬(r.ctx = c ∧ r.seg = s ∧ r.idx = i)) (hheap : w.heap.length ≤ heap.length) :
    ReadsOk w₀ c s i I₀ item { w with heap := heap, reads := r :: w.reads } := by
  have hgrow : w.Extends { w with heap := heap, reads := r :: w.reads } := .of_insts_eq hheap rfl
  have hof : { w with heap := heap, reads := r :: w.reads }.readsOf c s i = w.readsOf c s i := by
    unfold ElemWorld.readsOf
    rw [List.filter_cons_of_neg]
    simpa [and_assoc] using hr
  have hkeep : ReadsOk w₀ c s i I₀ item { w with heap := heap } := h.keep (.of_insts_eq hheap rfl) rfl
  refine ⟨h.ext.trans hgrow, ?_, ?_, ?_, ?_⟩
  · rw [hof]; exact h.worth
  · rw [hof]; exact h.pure
  · rw [hof]; exact hkeep.new
  · rw [hof]; exact h.distinct

/-- **A read.** Whatever is read, the reads of the item stay as they should be. -/
theorem ReadsOk.read {c' s' i' : Nat} {seg' : ElementSegment} (hin : ItemIn w₀ c s i I₀ seg item)
    (h : ReadsOk w₀ c s i I₀ item w) (hI : SameInst w₀ c' I) (hseg : I.module.elementSegments[s']? = some seg') :
    ReadsOk w₀ c s i I₀ item (w.readElem c' I s' seg' i').2 := by
  unfold ElemWorld.readElem
  cases hitem : seg'.item i' with
  | none => exact h
  | some item' =>
    rcases hev : w.evalItem c' I item' with ⟨_ | v, made⟩
    · simp only [hev]
      exact h.keep (.of_insts_eq (by simp) rfl) rfl
    · simp only [hev]
      by_cases hat : c' = c ∧ s' = s ∧ i' = i
      · obtain ⟨rfl, rfl, rfl⟩ := hat
        rw [(hI I₀ hin.inst_eq).1, hin.seg_eq] at hseg
        obtain rfl := Option.some.inj hseg
        obtain rfl := Option.some.inj (hin.item_eq.symm.trans hitem)
        exact h.add hin hI hev
      · exact h.skip hat (by simp)

/-- an update that leaves instances, reads and the numbers of objects alone -/
def Quiet (w w' : ElemWorld) : Prop :=
  w'.insts = w.insts ∧ w'.reads = w.reads ∧ w.heap.length ≤ w'.heap.length

theorem ReadsOk.quiet (h : ReadsOk w₀ c s i I₀ item w) (hq : Quiet w w') : ReadsOk w₀ c s i I₀ item w' :=
  h.keep (.of_insts_eq hq.2.2 hq.1) hq.2.1

theorem quiet_storeTable (t dst k : Nat) (v : CVal Nat) (w : ElemWorld) : Quiet w (w.storeTable t dst k v) :=
  ⟨rfl, rfl, Nat.le_refl _⟩

theorem quiet_storeArray (a dst k : Nat) (v : CVal Nat) (w : ElemWorld) : Quiet w (w.storeArray a dst k v) :=
  ⟨rfl, rfl, by simp [ElemWorld.storeArray]⟩

theorem quiet_grow (w : ElemWorld) (made : List (CObj Nat)) : Quiet w { w with heap := w.heap ++ made } :=
  ⟨rfl, rfl, by simp⟩

end Reads

/-! ## Runs -/

section Runs

variable {w₀ w : ElemWorld} {c s i c' s' : Nat} {I₀ I : ElemInst} {seg seg' : ElementSegment} {item : ElemItem}

/-- the loop of a bulk operation, by induction on the items left -/
theorem ReadsOk.bulk {store : Nat → CVal Nat → ElemWorld → ElemWorld} {stop : Nat → Bool} {src n k : Nat}
    (hin : ItemIn w₀ c s i I₀ seg item) (h : ReadsOk w₀ c s i I₀ item w) (hI : SameInst w₀ c' I)
    (hseg : I.module.elementSegments[s']? = some seg') (hstore : ∀ k v w, Quiet w (store k v w)) :
    ReadsOk w₀ c s i I₀ item (ElemWorld.bulkElems store stop c' I s' seg' src n k w).2 := by
  induction n generalizing k w with
  | zero => exact h
  | succ n ih =>
    rw [ElemWorld.bulkElems]
    split_ifs with hstop
    · exact h
    · have hread : ReadsOk w₀ c s i I₀ item (w.readElem c' I s' seg' (src + k)).2 := h.read hin hI hseg
      rcases hr : w.readElem c' I s' seg' (src + k) with ⟨_ | v, w₁⟩
      · rw [hr] at hread
        exact hread
      · rw [hr] at hread
        exact ih (hread.quiet (hstore k v w₁))

theorem ReadsOk.tableInit {t dst src size : Nat} {stop : Nat → Bool} (hin : ItemIn w₀ c s i I₀ seg item)
    (h : ReadsOk w₀ c s i I₀ item w) (hI : SameInst w₀ c' I) (hseg : I.module.elementSegments[s']? = some seg') :
    ReadsOk w₀ c s i I₀ item (w.tableInit c' I t s' seg' dst src size stop).2 := by
  unfold ElemWorld.tableInit
  split_ifs
  · exact h
  · exact h
  · exact h.bulk hin hI hseg (quiet_storeTable t dst)
  · exact h

theorem ReadsOk.arrayNewElem {typeidx offset size : Nat} (hin : ItemIn w₀ c s i I₀ seg item)
    (h : ReadsOk w₀ c s i I₀ item w) (hI : SameInst w₀ c' I) (hseg : I.module.elementSegments[s']? = some seg') :
    ReadsOk w₀ c s i I₀ item (w.arrayNewElem c' I typeidx s' seg' offset size).2 := by
  unfold ElemWorld.arrayNewElem
  dsimp only
  split_ifs
  · exact (h.quiet (quiet_grow w _)).bulk hin hI hseg (quiet_storeArray _ 0)
  · exact h
  · exact h

theorem ReadsOk.arrayInitElem {a dst src size : Nat} {stop : Nat → Bool} (hin : ItemIn w₀ c s i I₀ seg item)
    (h : ReadsOk w₀ c s i I₀ item w) (hI : SameInst w₀ c' I) (hseg : I.module.elementSegments[s']? = some seg') :
    ReadsOk w₀ c s i I₀ item (w.arrayInitElem c' I a s' seg' dst src size stop).2 := by
  unfold ElemWorld.arrayInitElem
  split
  · exact h
  · split_ifs
    · exact h.bulk hin hI hseg (quiet_storeArray a dst)
    · exact h

theorem ReadsOk.dropElem (h : ReadsOk w₀ c s i I₀ item w) : ReadsOk w₀ c s i I₀ item (w.dropElem c' s') :=
  h.keep (.modify rfl rfl fun _ => ⟨rfl, fun _ _ => rfl⟩) rfl

theorem ReadsOk.initActive (hin : ItemIn w₀ c s i I₀ seg item) (h : ReadsOk w₀ c s i I₀ item w)
    (hI : SameInst w₀ c' I) (hseg : I.module.elementSegments[s']? = some seg') :
    ReadsOk w₀ c s i I₀ item (w.initActive c' I s' seg').2 := by
  unfold ElemWorld.initActive
  split
  case h_2 => exact h
  case h_1 tableIdx offset hmode =>
    have hoff : ReadsOk w₀ c s i I₀ item (w.evalConst c' I offset).2 := h.quiet (quiet_grow w _)
    split
    · rename_i v w₁ t heval ht
      rw [heval] at hoff
      split_ifs
      · have hbulk : ReadsOk w₀ c s i I₀ item (ElemWorld.bulkElems (ElemWorld.storeTable t (ElemWorld.offsetOf v))
            (fun _ => false) c' I s' seg' 0 seg'.numElems 0 w₁).2 :=
          hoff.bulk hin hI hseg (quiet_storeTable t (ElemWorld.offsetOf v))
        split
        · rename_i w₂ hdone
          rw [hdone] at hbulk
          exact hbulk.dropElem
        · exact hbulk
      · exact hoff
    · rename_i heval _
      rw [heval] at hoff
      exact hoff
    · rename_i heval
      rw [heval] at hoff
      exact hoff

/-- an operation on a segment runs on an instance that is still the one of `w₀` -/
theorem ReadsOk.onSegment {f : ElemInst → ElementSegment → ElemWorld.BulkEnd × ElemWorld}
    (h : ReadsOk w₀ c s i I₀ item w)
    (hf : ∀ I seg', SameInst w₀ c' I → I.module.elementSegments[s']? = some seg' →
      ReadsOk w₀ c s i I₀ item (f I seg').2) :
    ReadsOk w₀ c s i I₀ item (w.onSegment c' s' f) := by
  unfold ElemWorld.onSegment
  split
  · exact h
  · rename_i I hI
    split
    · exact h
    · exact hf I _ (h.ext.sameInst hI) ‹_›

/-- **One step.** Operations on segments read items, other code reads none and changes nothing an item depends on. -/
theorem ReadsOk.step (hin : ItemIn w₀ c s i I₀ seg item) (h : ReadsOk w₀ c s i I₀ item w) (op : ElemWorld.ElemOp) :
    ReadsOk w₀ c s i I₀ item (w.step op) := by
  cases op with
  | tableInit c' t s' dst src size stop =>
    refine h.onSegment fun I seg' hI hseg => ?_
    split
    · exact h.tableInit hin hI hseg
    · exact h
  | arrayNewElem c' typeidx s' offset size => exact h.onSegment fun I seg' hI hseg => h.arrayNewElem hin hI hseg
  | arrayInitElem c' a s' dst src size stop => exact h.onSegment fun I seg' hI hseg => h.arrayInitElem hin hI hseg
  | elemDrop c' s' => exact h.dropElem
  | initActive c' s' => exact h.onSegment fun I seg' hI hseg => h.initActive hin hI hseg
  | globalSet c' g v =>
    refine h.keep (.modify rfl rfl fun I => ?_) rfl
    split_ifs with hmut
    · refine ⟨rfl, fun g' hg' => if_neg ?_⟩
      rintro rfl
      rw [hmut] at hg'
      cases hg'
    · exact ⟨rfl, fun _ _ => rfl⟩
  | setTable t entries => exact h.quiet ⟨rfl, rfl, Nat.le_refl _⟩
  | setObject a values => exact h.quiet ⟨rfl, rfl, by simp [ElemWorld.step]⟩
  | newObject o => exact h.quiet (quiet_grow w [o])
  | newInst I =>
    refine h.keep ⟨Nat.le_refl _, fun k I' hI' => ⟨I', ?_, rfl, fun _ _ => rfl⟩⟩ rfl
    exact (List.getElem?_append_left (List.getElem?_eq_some_iff.mp hI').1).trans hI'
  | setRoom room => exact h.quiet ⟨rfl, rfl, Nat.le_refl _⟩

theorem ReadsOk.run (hin : ItemIn w₀ c s i I₀ seg item) (h : ReadsOk w₀ c s i I₀ item w)
    (ops : List ElemWorld.ElemOp) : ReadsOk w₀ c s i I₀ item (w.run ops) := by
  induction ops generalizing w with
  | nil => exact h
  | cons op ops ih => exact ih (h.step hin op)

theorem readsOk_start (w : ElemWorld) (c s i : Nat) (I : ElemInst) (item : ElemItem) :
    ReadsOk w c s i I item w.start := by
  refine ⟨.of_insts_eq (Nat.le_refl _) rfl, ?_, ?_, ?_, ?_⟩
  · exact fun r hr => absurd hr List.not_mem_nil
  · exact fun _ r hr => absurd hr List.not_mem_nil
  · exact fun _ r hr => absurd hr List.not_mem_nil
  · exact fun _ => .nil

/-- **Reads of an element, exactly.** In every run, the operations that read the item give one reference, which is what
its expression was worth at the start, iff the expression does not allocate or the item is read at most once. Then it
gives exactly that value at every read. -/
theorem elem_reads_exact (w : ElemWorld) (hI : w.insts[c]? = some I)
    (hseg : I.module.elementSegments[s]? = some seg) (hitem : seg.item i = some item) (ops : List ElemWorld.ElemOp) :
    (w.FixedAt c I item ((w.start.run ops).readsOf c s i) ↔
      item.allocates = false ∨ ((w.start.run ops).readsOf c s i).length ≤ 1) ∧
    (item.allocates = false → ∀ r ∈ (w.start.run ops).readsOf c s i, w.valueNow c I item = (.ok r.value, [])) := by
  have hok := (readsOk_start w c s i I item).run ⟨hI, hseg, hitem⟩ ops
  generalize hrs : (w.start.run ops).readsOf c s i = rs
  obtain ⟨-, hworth, hpure, -, hdistinct⟩ := hok
  rw [hrs] at hworth hpure hdistinct
  refine ⟨⟨fun hfixed => ?_, fun hcond => ⟨fun r hr r' hr' => ?_, hworth⟩⟩, hpure⟩
  · cases ha : item.allocates with
    | false => exact .inl rfl
    | true =>
      right
      match rs, hdistinct ha with
      | [], _ => exact Nat.zero_le 1
      | [_], _ => exact Nat.le_refl 1
      | r :: r' :: _, .cons hne _ =>
        exact absurd (hfixed.1 r List.mem_cons_self r' (List.mem_cons_of_mem _ List.mem_cons_self))
          (hne r' List.mem_cons_self)
  · obtain ha | hlen := hcond
    · have heq := (hpure ha r hr).symm.trans (hpure ha r' hr')
      exact Except.ok.inj (congrArg Prod.fst heq)
    · match rs, hlen with
      | [_], _ => rw [List.mem_singleton.mp hr, List.mem_singleton.mp hr']

/-- an instance with a passive segment of the one item `struct.new_default 0` -/
def structInst : ElemInst where
  module :=
    { elementSegments := [⟨.passive, ofExprs [[.structNewDefault 0]]⟩]
      fieldTypes := fun _ => [.i32]
      globalMutable := fun _ => false
      constant := fun _ _ _ _ => rfl }
  globals := fun _ => .i32 0
  tables := [0]
  dropped := []

/-- that instance with a table of two entries -/
def structItem : ElemWorld where
  insts := [structInst]
  heap := []
  tables := [[.ref .null, .ref .null]]
  room := fun _ _ => true
  reads := []

/-- `table.init` of the item into entry `dst` -/
def initEntry (dst : Nat) : ElemWorld.ElemOp := .tableInit 0 0 0 dst 0 1 fun _ => false

theorem elem_reads_exact_once :
    structItem.FixedAt 0 structInst (.expr [.structNewDefault 0])
      ((structItem.start.run [initEntry 0]).readsOf 0 0 0) :=
  (elem_reads_exact structItem rfl rfl (item_ofExprs rfl) [initEntry 0]).1.mpr (.inr (by decide))

/-- two `table.init` of one item give different references -/
theorem table_init_differs :
    ¬structItem.FixedAt 0 structInst (.expr [.structNewDefault 0])
      ((structItem.start.run [initEntry 0, initEntry 1]).readsOf 0 0 0) := by
  have hreads : (structItem.start.run [initEntry 0, initEntry 1]).readsOf 0 0 0 =
      [⟨0, 0, 0, .ref (.obj 1), [⟨0, [.i32 0]⟩]⟩, ⟨0, 0, 0, .ref (.obj 0), [⟨0, [.i32 0]⟩]⟩] := by decide
  rintro ⟨hsame, -⟩
  rw [hreads] at hsame
  exact absurd (hsame _ List.mem_cons_self _ (List.mem_cons_of_mem _ List.mem_cons_self)) (by decide)

end Runs

end Wah
