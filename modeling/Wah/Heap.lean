/-
The garbage-collected heap: objects, the counters of a heap, allocation, the two sweeps and the self-check.

Model:
- an object is an address; its header and payload are in the `Store`, its mark and gray bits in `Bits`;
- a heap (`wah_gc_state_t`) is the list `all_objects` with its counters. Counts are 32-bit and wrap, and so do charges
  to the budget at 64 bits; `allocated_bytes` counts memory that was really allocated, so it is a natural number;
- `sizeof(wah_gc_object_t)` is 24 and an exception has 16 bytes of fields before its values.

Results: allocation and both sweeps keep the counters at what the list contains (`Tallied`), a sweep is a filter of the
list, and `verifyHeap` is decided exactly, with the wrap of `object_count + 1` at its limit.
-/
import Wah.Types

namespace Wah

abbrev Addr := Nat
abbrev ModuleId := Nat

/-! ## Objects -/

/-- a reference as it is stored: null, an integer of 31 bits, or the address of an object or a function -/
inductive Ref where
  | null
  | i31 (value : Nat)
  | obj (a : Addr)
deriving DecidableEq, Repr

/-- `WAH_TYPE_FUNC`, the `repr_id` in the header of every function -/
def reprFunc : Int := -32
/-- `WAH_TYPE_EXN` -/
def reprExn : Int := -46
/-- `WAH_REPR_REF`, the `repr_id` of a field that holds any reference -/
def reprRef : Int := -0x41
/-- `WAH_REPR_HOST` -/
def reprHost : Int := -0x42

/-- `wah_repr_type_t` -/
inductive ReprType where
  | struct | array
deriving DecidableEq, Repr

/-- `wah_repr_field_t` -/
structure ReprField where
  offset : Nat
  reprId : Int
deriving DecidableEq, Repr

/-- `wah_repr_field_is_ref` -/
def ReprField.isRef (f : ReprField) : Bool := f.reprId == reprRef || decide (0 ≤ f.reprId)

/-- `wah_repr_info_t`; `count` is the length of `fields` -/
structure ReprInfo where
  type : ReprType
  size : Nat
  fields : List ReprField
deriving DecidableEq, Repr

/-- the header (`wah_gc_object_t`) and the payload of an object: the values of an exception with their types, the
length of an array, and the reference stored at each payload offset -/
structure Obj where
  reprId : Int
  sizeBytes : Nat
  mod : Option ModuleId := none
  values : List (Ty × Ref) := []
  length : Nat := 0
  word : Nat → Ref := fun _ => .null

def Obj.isExn (o : Obj) : Bool := o.reprId == reprExn

/-- the objects in memory and `repr_infos` of every module -/
structure Store where
  obj : Addr → Obj
  reprInfos : ModuleId → List ReprInfo

/-- `wah_repr_info_get` -/
def Store.reprInfoGet (S : Store) (m : ModuleId) (reprId : Int) : Option ReprInfo :=
  if reprId < 0 then none else (S.reprInfos m)[reprId.toNat]?

/-! ## The budget -/

/-- `max_memory_bytes` (none for `UINT64_MAX`, no limit) and `memory_bytes_committed` -/
structure Budget where
  maxBytes : Option Nat
  committed : Nat
deriving DecidableEq, Repr

/-- `wah_budget_check` -/
def Budget.check (b : Budget) (additional : Nat) : Bool :=
  match b.maxBytes with
  | none => true
  | some m => if b.committed > m then false else decide (additional ≤ m - b.committed)

/-- `wah_budget_charge`, on 64 bits -/
def Budget.charge (b : Budget) (bytes : Nat) : Budget := { b with committed := (b.committed + bytes) % 2 ^ 64 }

/-- `wah_budget_release`, which asserts that so much is committed -/
def Budget.release (b : Budget) (bytes : Nat) : Budget := { b with committed := b.committed - bytes }

/-! ## Heaps -/

/-- `wah_gc_phase_t` -/
inductive GcPhase where
  | idle | mark | sweep
deriving DecidableEq, Repr

def defaultThreshold : Nat := 256 * 1024

/-- `wah_gc_state_t` -/
structure GcState where
  allObjects : List Addr := []
  phase : GcPhase := .idle
  objectCount : UInt32 := 0
  exceptionCount : UInt32 := 0
  allocatedBytes : Nat := 0
  allocationThreshold : Nat := defaultThreshold
  otherHeapBytes : Nat := 0
  gcPending : Bool := false
deriving DecidableEq

/-- the bytes of the objects of a list -/
def bytesOf (S : Store) (l : List Addr) : Nat := (l.map fun a => (S.obj a).sizeBytes).sum

/-- the exceptions among the objects of a list -/
def exnCount (S : Store) (l : List Addr) : Nat := l.countP fun a => (S.obj a).isExn

/-- the counters of a heap are what its list contains, and its owner's budget covers the bytes -/
structure Tallied (S : Store) (g : GcState) (b : Budget) : Prop where
  objects : g.objectCount = UInt32.ofNat g.allObjects.length
  exceptions : g.exceptionCount = UInt32.ofNat (exnCount S g.allObjects)
  bytes : g.allocatedBytes = bytesOf S g.allObjects
  covered : bytesOf S g.allObjects ≤ b.committed

/-- `sizeof(wah_gc_object_t)` -/
def headerSize : Nat := 24

/-- write the header of a fresh object over zeroed memory -/
def Store.put (S : Store) (a : Addr) (mod : Option ModuleId) (reprId : Int) (total : Nat) : Store :=
  { S with obj := Function.update S.obj a { reprId := reprId, sizeBytes := total, mod := mod } }

/-- link a fresh object at the head of `all_objects`, and ask for a collection past the threshold -/
def GcState.link (g : GcState) (a : Addr) (total : Nat) : GcState :=
  { g with
    allObjects := a :: g.allObjects
    objectCount := g.objectCount + 1
    allocatedBytes := g.allocatedBytes + total
    gcPending := g.gcPending || decide (g.allocatedBytes + total ≥ g.allocationThreshold) }

/-- `wah_gc_alloc`, when the allocator answers with the fresh address `fresh`, or fails -/
def gcAlloc (S : Store) (g : GcState) (b : Budget) (mod : Option ModuleId) (reprId : Int) (payloadSize : Nat)
    (fresh : Option Addr) : Option (Addr × Store × GcState × Budget) :=
  if payloadSize > 2 ^ 32 - 1 - headerSize then none
  else
    let total := headerSize + payloadSize
    if !b.check total then none
    else
      match fresh with
      | none => none
      | some a => some (a, S.put a mod reprId total, g.link a total, b.charge total)

/-- the fields of `wah_exception_t` behind the header, and the bytes of one value with its type -/
def exceptionFieldsSize : Nat := 16
def exceptionValueSize : Nat := 20

/-- `wah_gc_alloc_exception` -/
def gcAllocException (S : Store) (g : GcState) (b : Budget) (valueCount : Nat) (fresh : Option Addr) :
    Option (Addr × Store × GcState × Budget) :=
  let payload := exceptionFieldsSize + valueCount * exceptionValueSize
  if payload > 2 ^ 32 - 1 then none
  else
    (gcAlloc S g b none reprExn payload fresh).map fun (a, S', g', b') =>
      (a, S', { g' with exceptionCount := g'.exceptionCount + 1 }, b')

/-! ## Sweeping -/

/-- the counters of a heap and the budget of its owner, as a sweep updates them -/
structure Tally where
  objectCount : UInt32
  exceptionCount : UInt32
  allocatedBytes : Nat
  budget : Budget
deriving DecidableEq

/-- what unlinking one object does to the counters -/
def Tally.drop (t : Tally) (o : Obj) : Tally where
  objectCount := t.objectCount - 1
  exceptionCount := if o.isExn then t.exceptionCount - 1 else t.exceptionCount
  allocatedBytes := t.allocatedBytes - o.sizeBytes
  budget := t.budget.release o.sizeBytes

/-- the walk over `all_objects` of both sweeps: unlink the objects that are `dead` -/
def sweepLoop (S : Store) (dead : Addr → Bool) : List Addr → Tally → List Addr × Tally
  | [], t => ([], t)
  | a :: rest, t =>
    if dead a then sweepLoop S dead rest (t.drop (S.obj a))
    else
      let (kept, t') := sweepLoop S dead rest t
      (a :: kept, t')

/-- store the result of a sweep -/
def GcState.swept (g : GcState) (kept : List Addr) (t : Tally) : GcState :=
  { g with
    allObjects := kept
    objectCount := t.objectCount
    exceptionCount := t.exceptionCount
    allocatedBytes := t.allocatedBytes
    phase := .idle }

def GcState.tally (g : GcState) (b : Budget) : Tally := ⟨g.objectCount, g.exceptionCount, g.allocatedBytes, b⟩

/-- `wah_gc_step_sweep`, given the mark bits -/
def stepSweep (S : Store) (marked : Addr → Bool) (g : GcState) (b : Budget) : GcState × Budget :=
  let (kept, t) := sweepLoop S (fun a => !marked a) g.allObjects (g.tally b)
  ({ g.swept kept t with
      allocationThreshold := max (t.allocatedBytes * 2 + g.otherHeapBytes) defaultThreshold }, t.budget)

/-- the walk of `wah_gc_sweep_unreachable_exceptions`, given the mark bits -/
def sweepExceptions (S : Store) (marked : Addr → Bool) (g : GcState) (b : Budget) : GcState × Budget :=
  let (kept, t) := sweepLoop S (fun a => !marked a && (S.obj a).isExn) g.allObjects (g.tally b)
  (g.swept kept t, t.budget)

/-! ## The self-check -/

/-- the walk of `wah_gc_verify_heap`; none when the list is longer than `object_count` says -/
def verifyLoop (S : Store) (objectCount : UInt32) : List Addr → UInt32 → Nat → Option (UInt32 × Nat)
  | [], counted, bytes => some (counted, bytes)
  | a :: rest, counted, bytes =>
    if counted + 1 > objectCount + 1 then none
    else verifyLoop S objectCount rest (counted + 1) (bytes + (S.obj a).sizeBytes)

/-- `wah_gc_verify_heap` -/
def verifyHeap (S : Store) (g : GcState) : Bool :=
  match verifyLoop S g.objectCount g.allObjects 0 0 with
  | none => false
  | some (counted, bytes) => counted == g.objectCount && bytes == g.allocatedBytes

/-! ## What the operations do -/

section
variable {S : Store} {g : GcState} {b : Budget}

@[simp] theorem bytesOf_nil : bytesOf S [] = 0 := rfl

@[simp] theorem bytesOf_cons (a : Addr) (l : List Addr) :
    bytesOf S (a :: l) = (S.obj a).sizeBytes + bytesOf S l := by
  simp [bytesOf]

@[simp] theorem exnCount_nil : exnCount S [] = 0 := rfl

@[simp] theorem exnCount_cons (a : Addr) (l : List Addr) :
    exnCount S (a :: l) = exnCount S l + (if (S.obj a).isExn then 1 else 0) := by
  simp [exnCount, List.countP_cons]

theorem bytesOf_congr {S' : Store} {l : List Addr} (h : ∀ a ∈ l, S'.obj a = S.obj a) : bytesOf S' l = bytesOf S l := by
  unfold bytesOf
  rw [List.map_congr_left fun a ha => by rw [h a ha]]

theorem exnCount_congr {S' : Store} {l : List Addr} (h : ∀ a ∈ l, S'.obj a = S.obj a) :
    exnCount S' l = exnCount S l := by
  unfold exnCount
  exact List.countP_congr fun a ha => by rw [h a ha]

theorem bytesOf_filter_le (p : Addr → Bool) (l : List Addr) : bytesOf S (l.filter p) ≤ bytesOf S l := by
  induction l with
  | nil => simp
  | cons a rest ih =>
    by_cases hp : p a = true
    · simp [hp, ih]
    · simp [hp]; omega

/-- the counters of a heap that holds `l`, over what is counted elsewhere -/
def Tally.holding (S : Store) (maxBytes : Option Nat) (k e m c : Nat) (l : List Addr) : Tally where
  objectCount := UInt32.ofNat (k + l.length)
  exceptionCount := UInt32.ofNat (e + exnCount S l)
  allocatedBytes := m + bytesOf S l
  budget := ⟨maxBytes, c + bytesOf S l⟩

theorem UInt32.ofNat_succ_sub_one (n : Nat) : UInt32.ofNat (n + 1) - 1 = UInt32.ofNat n := by
  rw [UInt32.ofNat_add]
  simp

/-- keeping the first object counts it elsewhere -/
theorem Tally.holding_cons (maxBytes : Option Nat) (k e m c : Nat) (a : Addr) (l : List Addr) :
    Tally.holding S maxBytes k e m c (a :: l) =
      Tally.holding S maxBytes (k + 1) (e + if (S.obj a).isExn then 1 else 0) (m + (S.obj a).sizeBytes)
        (c + (S.obj a).sizeBytes) l := by
  simp only [Tally.holding, List.length_cons, exnCount_cons, bytesOf_cons, Tally.mk.injEq, Budget.mk.injEq, true_and]
  refine ⟨congrArg _ (by omega), congrArg _ (by omega), by omega, by omega⟩

/-- unlinking the first object leaves the counters of the rest -/
theorem Tally.drop_holding (maxBytes : Option Nat) (k e m c : Nat) (a : Addr) (l : List Addr) :
    (Tally.holding S maxBytes k e m c (a :: l)).drop (S.obj a) = Tally.holding S maxBytes k e m c l := by
  simp only [Tally.holding, Tally.drop, Budget.release, List.length_cons, exnCount_cons, bytesOf_cons, Tally.mk.injEq,
    Budget.mk.injEq, true_and]
  refine ⟨?_, ?_, by omega, by omega⟩
  · exact UInt32.ofNat_succ_sub_one (k + l.length)
  · cases (S.obj a).isExn with
    | false => simp
    | true => exact UInt32.ofNat_succ_sub_one (e + exnCount S l)

/-- a sweep is a filter that keeps the order, and its counters end at what is kept -/
theorem sweepLoop_holding (dead : Addr → Bool) (maxBytes : Option Nat) (l : List Addr) (k e m c : Nat) :
    sweepLoop S dead l (Tally.holding S maxBytes k e m c l) =
      (l.filter fun a => !dead a, Tally.holding S maxBytes k e m c (l.filter fun a => !dead a)) := by
  induction l generalizing k e m c with
  | nil => rfl
  | cons a rest ih =>
    cases hd : dead a with
    | true => simp only [sweepLoop, hd, if_true, Tally.drop_holding, ih, List.filter_cons, Bool.not_true]; rfl
    | false =>
      simp only [sweepLoop, hd, Tally.holding_cons, ih, List.filter_cons, Bool.not_false, if_true]
      rfl

theorem Tallied.holding (h : Tallied S g b) :
    g.tally b = Tally.holding S b.maxBytes 0 0 0 (b.committed - bytesOf S g.allObjects) g.allObjects := by
  have hcov := h.covered
  cases b with
  | mk mb c =>
    simp only [GcState.tally, Tally.holding, h.objects, h.exceptions, h.bytes, Nat.zero_add, Tally.mk.injEq,
      Budget.mk.injEq, true_and]
    dsimp only at hcov
    omega

/-- what a sweep of the objects `dead` leaves -/
structure Swept (S : Store) (dead : Addr → Bool) (g : GcState) (b : Budget) (g' : GcState) (b' : Budget) : Prop where
  objects : g'.allObjects = g.allObjects.filter fun a => !dead a
  tallied : Tallied S g' b'
  committed : b'.committed + bytesOf S g.allObjects = b.committed + bytesOf S g'.allObjects
  maxBytes : b'.maxBytes = b.maxBytes

/-- storing the result of the walk gives a swept heap -/
theorem Tallied.swept (h : Tallied S g b) (dead : Addr → Bool) :
    Swept S dead g b (g.swept (sweepLoop S dead g.allObjects (g.tally b)).1 (sweepLoop S dead g.allObjects (g.tally b)).2)
      (sweepLoop S dead g.allObjects (g.tally b)).2.budget := by
  have hcov := h.covered
  have hle := bytesOf_filter_le (S := S) (fun a => !dead a) g.allObjects
  rw [h.holding, sweepLoop_holding]
  refine ⟨rfl, ⟨?_, ?_, ?_, ?_⟩, ?_, rfl⟩
  · simp [GcState.swept, Tally.holding]
  · simp [GcState.swept, Tally.holding]
  · simp [GcState.swept, Tally.holding]
  · simp only [GcState.swept, Tally.holding]; omega
  · simp only [GcState.swept, Tally.holding]; omega

/-- changing the threshold touches nothing a sweep speaks about -/
theorem Swept.threshold {dead : Addr → Bool} {g' : GcState} {b' : Budget} (h : Swept S dead g b g' b') (n : Nat) :
    Swept S dead g b { g' with allocationThreshold := n } b' :=
  ⟨h.objects, ⟨h.tallied.objects, h.tallied.exceptions, h.tallied.bytes, h.tallied.covered⟩, h.committed, h.maxBytes⟩

theorem stepSweep_swept (marked : Addr → Bool) (h : Tallied S g b) :
    Swept S (fun a => !marked a) g b (stepSweep S marked g b).1 (stepSweep S marked g b).2 :=
  (h.swept _).threshold _

theorem sweepExceptions_swept (marked : Addr → Bool) (h : Tallied S g b) :
    Swept S (fun a => !marked a && (S.obj a).isExn) g b (sweepExceptions S marked g b).1
      (sweepExceptions S marked g b).2 :=
  h.swept _

/-- below the limit of the counter, the walk of the self-check counts the list -/
theorem verifyLoop_spec (count : UInt32) (hc : count.toNat + 1 < 2 ^ 32) (l : List Addr) (n bytes : Nat)
    (hn : n + l.length ≤ count.toNat) :
    verifyLoop S count l (UInt32.ofNat n) bytes = some (UInt32.ofNat (n + l.length), bytes + bytesOf S l) := by
  induction l generalizing n bytes with
  | nil => rfl
  | cons a rest ih =>
    rw [List.length_cons] at hn
    have hnext : UInt32.ofNat n + 1 = UInt32.ofNat (n + 1) := by rw [UInt32.ofNat_add]; rfl
    have hle : ¬ (UInt32.ofNat (n + 1) > count + 1) := by
      have h1 : (UInt32.ofNat (n + 1)).toNat = n + 1 := UInt32.toNat_ofNat_of_lt' (by show n + 1 < 2 ^ 32; omega)
      have h2 : (count + 1).toNat = count.toNat + 1 := by
        rw [UInt32.toNat_add]
        exact Nat.mod_eq_of_lt (by simpa using hc)
      rw [gt_iff_lt, UInt32.lt_iff_toNat_lt, h1, h2]
      omega
    rw [verifyLoop, hnext, if_neg hle, ih (n + 1) _ (by omega), List.length_cons, bytesOf_cons]
    congr 2
    · congr 1; omega
    · omega

/-- **The self-check.** On a heap with exact counters it accepts iff the object count is not the largest one, where
`object_count + 1` wraps to zero and the first object already exceeds it. -/
theorem Tallied.verifyHeap_iff (h : Tallied S g b) (hlen : g.allObjects.length < 2 ^ 32) :
    verifyHeap S g = true ↔ g.allObjects.length + 1 < 2 ^ 32 := by
  have hnat : g.objectCount.toNat = g.allObjects.length := by
    rw [h.objects]
    exact UInt32.toNat_ofNat_of_lt' hlen
  constructor
  · intro hv
    by_contra hge
    have hmax : g.objectCount + 1 = 0 := by
      apply UInt32.toNat_inj.1
      rw [UInt32.toNat_add, hnat, show g.allObjects.length = 2 ^ 32 - 1 by omega]
      rfl
    cases hl : g.allObjects with
    | nil => rw [hl] at hge; simp at hge
    | cons a rest =>
      simp [verifyHeap, hl, verifyLoop, hmax] at hv
  · intro hlt
    have hl := verifyLoop_spec (S := S) g.objectCount (by omega) g.allObjects 0 0 (by omega)
    rw [Nat.zero_add, Nat.zero_add] at hl
    unfold verifyHeap
    rw [show (0 : UInt32) = UInt32.ofNat 0 from rfl, hl]
    simp [h.objects, h.bytes]

/-- a new heap is tallied -/
theorem tallied_start (b : Budget) : Tallied S {} b := ⟨rfl, rfl, rfl, Nat.zero_le _⟩

theorem gcAlloc_cases {mod : Option ModuleId} {reprId : Int} {payload : Nat} {fresh : Option Addr} {a : Addr} {S' : Store}
    {g' : GcState} {b' : Budget} (h : gcAlloc S g b mod reprId payload fresh = some (a, S', g', b')) :
    b.check (headerSize + payload) = true ∧ fresh = some a ∧ S' = S.put a mod reprId (headerSize + payload) ∧
      g' = g.link a (headerSize + payload) ∧ b' = b.charge (headerSize + payload) := by
  unfold gcAlloc at h
  dsimp only at h
  split_ifs at h with _ hb
  cases fresh with
  | none => simp at h
  | some x =>
    simp only [Option.some.injEq, Prod.mk.injEq] at h
    obtain ⟨rfl, rfl, rfl, rfl⟩ := h
    exact ⟨by simpa using hb, rfl, rfl, rfl, rfl⟩

theorem Store.put_of_mem {a : Addr} {l : List Addr} (ha : a ∉ l) (mod : Option ModuleId) (reprId : Int) (total : Nat) :
    ∀ x ∈ l, (S.put a mod reprId total).obj x = S.obj x := by
  intro x hx
  have hne : x ≠ a := fun he => ha (he ▸ hx)
  exact Function.update_of_ne hne _ _

@[simp] theorem Store.put_self (a : Addr) (mod : Option ModuleId) (reprId : Int) (total : Nat) :
    (S.put a mod reprId total).obj a = { reprId := reprId, sizeBytes := total, mod := mod } :=
  Function.update_self a _ _

theorem Budget.charge_committed {n : Nat} (h : b.committed + n < 2 ^ 64) : (b.charge n).committed = b.committed + n :=
  Nat.mod_eq_of_lt h

/-- allocation at an unused address keeps the counters exact, unless the charge wraps -/
theorem Tallied.gcAlloc {mod : Option ModuleId} {reprId : Int} {payload : Nat} {fresh : Option Addr} {a : Addr}
    {S' : Store} {g' : GcState} {b' : Budget} (h : Tallied S g b) (hexn : reprId ≠ reprExn) (hfresh : a ∉ g.allObjects)
    (hfit : b.committed + (headerSize + payload) < 2 ^ 64)
    (hal : gcAlloc S g b mod reprId payload fresh = some (a, S', g', b')) : Tallied S' g' b' := by
  obtain ⟨-, -, rfl, rfl, rfl⟩ := gcAlloc_cases hal
  have hcov := h.covered
  refine ⟨?_, ?_, ?_, ?_⟩
  · simp [GcState.link, h.objects, UInt32.ofNat_add]
  · simp [GcState.link, h.exceptions, exnCount_congr (Store.put_of_mem hfresh _ _ _), Obj.isExn, hexn]
  · simp [GcState.link, h.bytes, bytesOf_congr (Store.put_of_mem hfresh _ _ _), Nat.add_comm]
  · rw [Budget.charge_committed hfit]
    simp [GcState.link, bytesOf_congr (Store.put_of_mem hfresh _ _ _)]
    omega

/-- and so does the allocation of an exception -/
theorem Tallied.gcAllocException {valueCount : Nat} {fresh : Option Addr} {a : Addr} {S' : Store} {g' : GcState}
    {b' : Budget} (h : Tallied S g b) (hfresh : a ∉ g.allObjects)
    (hfit : b.committed + (headerSize + (exceptionFieldsSize + valueCount * exceptionValueSize)) < 2 ^ 64)
    (hal : gcAllocException S g b valueCount fresh = some (a, S', g', b')) : Tallied S' g' b' := by
  unfold Wah.gcAllocException at hal
  dsimp only at hal
  split_ifs at hal
  obtain ⟨⟨x, S₁, g₁, b₁⟩, hal₁, he⟩ := Option.map_eq_some_iff.1 hal
  simp only [Prod.mk.injEq] at he
  obtain ⟨rfl, rfl, rfl, rfl⟩ := he
  obtain ⟨-, -, rfl, rfl, rfl⟩ := gcAlloc_cases hal₁
  have hcov := h.covered
  refine ⟨?_, ?_, ?_, ?_⟩
  · simp [GcState.link, h.objects, UInt32.ofNat_add]
  · simp [GcState.link, h.exceptions, exnCount_congr (Store.put_of_mem hfresh _ _ _), Obj.isExn, UInt32.ofNat_add]
  · simp [GcState.link, h.bytes, bytesOf_congr (Store.put_of_mem hfresh _ _ _), Nat.add_comm]
  · rw [Budget.charge_committed hfit]
    simp [GcState.link, bytesOf_congr (Store.put_of_mem hfresh _ _ _)]
    omega

end

end Wah
