/-
Padded allocation: `wah_malloc`, `wah_realloc` and `wah_free` over an allocator whose blocks need not be aligned.

Model:
- memory is a function of addresses, and `live` is the block the allocator has given out, if any. Reads and writes
  outside of it, and a pointer given back that is not its start, are faults (`none`);
- the answer of the allocator to a call is part of the step: any address, or 0 for failure, and any contents of memory
  which its contract allows (`Honors`). Other code may change memory outside of the block at any time;
- sizes are `size_t` and wrap.

Result: no step of any run faults, the pointer handed out is aligned with its bytes inside the block, a call succeeds
exactly when its size fits and the allocator answers, and each call does to the contents what it promises
(`padded_alloc_exact`).
-/
import Mathlib.Tactic.Common
import Mathlib.Tactic.Ring

namespace Wah

/-- `WAH_BLOCK_ALIGN` -/
def blockAlign : Nat := 16

/-- `wah_alloc_t` after `wah_resolve_alloc`, and the largest `size_t` -/
structure Allocator where
  sizeMax : Nat
  minAlign : Nat
  wide : blockAlign ≤ sizeMax
  powerOfTwo : ∃ k, minAlign = 2 ^ k

/-- `wah_alloc_padded` -/
def Allocator.padded (A : Allocator) : Bool := A.minAlign < blockAlign

def Allocator.mulSize (A : Allocator) (a b : Nat) : Nat := a * b % (A.sizeMax + 1)

def Allocator.addSize (A : Allocator) (a b : Nat) : Nat := (a + b) % (A.sizeMax + 1)

/-! ## Memory -/

structure RawBlock where
  addr : Nat
  size : Nat
deriving DecidableEq, Repr

def RawBlock.covers (b : RawBlock) (a n : Nat) : Bool := b.addr ≤ a ∧ a + n ≤ b.addr + b.size

/-- memory, and the block of the allocator in it -/
structure RawHeap where
  mem : Nat → BitVec 8
  live : Option RawBlock

def RawHeap.covers (h : RawHeap) (a n : Nat) : Bool := h.live.any fun b => b.covers a n

def RawHeap.load (h : RawHeap) (a : Nat) : Option (BitVec 8) := if h.covers a 1 then some (h.mem a) else none

def RawHeap.store (h : RawHeap) (a : Nat) (v : BitVec 8) : Option RawHeap :=
  if h.covers a 1 then some { h with mem := Function.update h.mem a v } else none

/-- memory after `n` bytes went from `src` to `dst`, as if through a copy of them -/
def movedBytes (mem : Nat → BitVec 8) (dst src n : Nat) : Nat → BitVec 8 := fun x =>
  if dst ≤ x ∧ x < dst + n then mem (src + (x - dst)) else mem x

/-- `memmove` -/
def RawHeap.move (h : RawHeap) (dst src n : Nat) : Option RawHeap :=
  if h.covers dst n ∧ h.covers src n then some { h with mem := movedBytes h.mem dst src n } else none

/-! ## The allocator -/

/-- what a call of the allocator returns, and memory after it -/
structure RawAnswer where
  addr : Nat
  mem : Nat → BitVec 8

/-- the allocator answers a request for `size` bytes, with the live block to be moved if there is one -/
structure Honors (A : Allocator) (h : RawHeap) (size : Nat) (ans : RawAnswer) : Prop where
  aligned : ans.addr ≠ 0 → A.minAlign ∣ ans.addr
  fits : ans.addr ≠ 0 → ans.addr + size ≤ A.sizeMax + 1
  kept : ∀ b ∈ h.live, ans.addr ≠ 0 → ∀ k : Nat, k < b.size → k < size → ans.mem (ans.addr + k) = h.mem (b.addr + k)
  untouched : ∀ b ∈ h.live, ans.addr = 0 → ∀ k : Nat, k < b.size → ans.mem (b.addr + k) = h.mem (b.addr + k)

/-- memory and the address after a call that asked for `size` bytes; a failed one leaves the live block -/
def RawHeap.answered (h : RawHeap) (size : Nat) (ans : RawAnswer) : RawHeap × Nat :=
  if ans.addr = 0 then ({ h with mem := ans.mem }, 0) else (⟨ans.mem, some ⟨ans.addr, size⟩⟩, ans.addr)

/-- `a->malloc`, which is never asked for nothing -/
def rawMalloc (h : RawHeap) (size : Nat) (ans : RawAnswer) : Option (RawHeap × Nat) :=
  if size = 0 then none else some (h.answered size ans)

/-- `a->realloc`, which takes the start of the live block -/
def rawRealloc (h : RawHeap) (ptr size : Nat) (ans : RawAnswer) : Option (RawHeap × Nat) :=
  if size = 0 ∨ h.live.map RawBlock.addr ≠ some ptr then none else some (h.answered size ans)

/-- `a->free` -/
def rawFree (h : RawHeap) (ptr : Nat) : Option RawHeap :=
  if h.live.map RawBlock.addr ≠ some ptr then none else some { h with live := none }

/-! ## Padding -/

inductive AllocStatus where
  | ok | outOfMemory
deriving DecidableEq, Repr

/-- `WAH_BLOCK_ALIGN - ((uintptr_t)raw & (WAH_BLOCK_ALIGN - 1))` -/
def padOf (raw : Nat) : Nat := blockAlign - raw % blockAlign

/-- `wah_alloc_pad` -/
def allocPad (h : RawHeap) (raw : Nat) : Option (RawHeap × Nat) :=
  (h.store (raw + padOf raw - 1) (BitVec.ofNat 8 (padOf raw))).map (·, raw + padOf raw)

section Functions

variable (A : Allocator)

def wahFree (h : RawHeap) (ptr : Nat) : Option RawHeap :=
  if ptr = 0 then some h
  else if A.padded then (h.load (ptr - 1)).bind fun pad => rawFree h (ptr - pad.toNat)
  else rawFree h ptr

/-- the status, memory and `*out_ptr` -/
def wahMalloc (h : RawHeap) (count elemsize : Nat) (ans : RawAnswer) : Option (AllocStatus × RawHeap × Nat) :=
  if count = 0 ∨ elemsize = 0 then some (.ok, h, 0)
  else if A.sizeMax / elemsize < count then some (.outOfMemory, h, 0)
  else if A.padded then
    if A.sizeMax - blockAlign < A.mulSize count elemsize then some (.outOfMemory, h, 0)
    else (rawMalloc h (A.addSize (A.mulSize count elemsize) blockAlign) ans).bind fun (h, raw) =>
      if raw = 0 then some (.outOfMemory, h, 0) else (allocPad h raw).map fun (h, p) => (.ok, h, p)
  else (rawMalloc h (A.mulSize count elemsize) ans).map fun (h, p) => (if p = 0 then .outOfMemory else .ok, h, p)

/-- the contents move to their new place before the byte in front of them is written -/
def repad (h : RawHeap) (raw oldPad size : Nat) : Option (RawHeap × Nat) :=
  (if padOf raw ≠ oldPad then h.move (raw + padOf raw) (raw + oldPad) size else some h).bind fun h => allocPad h raw

/-- the status, memory and `*p_ptr` -/
def wahRealloc (h : RawHeap) (ptr count elemsize : Nat) (ans : RawAnswer) : Option (AllocStatus × RawHeap × Nat) :=
  if count = 0 ∨ elemsize = 0 then (wahFree A h ptr).map fun h => (.ok, h, 0)
  else if ptr = 0 then wahMalloc A h count elemsize ans
  else if A.sizeMax / elemsize < count then some (.outOfMemory, h, ptr)
  else if A.padded then
    if A.sizeMax - blockAlign < A.mulSize count elemsize then some (.outOfMemory, h, ptr)
    else (h.load (ptr - 1)).bind fun oldPad =>
      (rawRealloc h (ptr - oldPad.toNat) (A.addSize (A.mulSize count elemsize) blockAlign) ans).bind fun (h, raw) =>
        if raw = 0 then some (.outOfMemory, h, ptr)
        else (repad h raw oldPad.toNat (A.mulSize count elemsize)).map fun (h, p) => (.ok, h, p)
  else (rawRealloc h ptr (A.mulSize count elemsize) ans).map fun (h, p) =>
    if p = 0 then (.outOfMemory, h, ptr) else (.ok, h, p)

end Functions

/-! ## Runs -/

/-- a block of the runtime: its pointer, and how many bytes were asked for -/
structure BlockState where
  heap : RawHeap
  ptr : Nat
  size : Nat

inductive BlockOp where
  | malloc (count elemsize : Nat) (ans : RawAnswer)
  | realloc (count elemsize : Nat) (ans : RawAnswer)
  | free
  | write (i : Nat) (v : BitVec 8)
  | others (mem : Nat → BitVec 8)

/-- how many bytes the block has after a call for `size` bytes -/
def sizeAfter (status : AllocStatus) (old size : Nat) : Nat := if status = .ok then size else old

def BlockState.step (A : Allocator) (s : BlockState) : BlockOp → Option (AllocStatus × BlockState)
  | .malloc count elemsize ans =>
    (wahMalloc A s.heap count elemsize ans).map fun (st, h, p) => (st, ⟨h, p, sizeAfter st 0 (count * elemsize)⟩)
  | .realloc count elemsize ans =>
    (wahRealloc A s.heap s.ptr count elemsize ans).map fun (st, h, p) =>
      (st, ⟨h, p, sizeAfter st s.size (count * elemsize)⟩)
  | .free => (wahFree A s.heap s.ptr).map fun h => (.ok, ⟨h, 0, 0⟩)
  | .write i v => (s.heap.store (s.ptr + i) v).map fun h => (.ok, ⟨h, s.ptr, s.size⟩)
  | .others mem => some (.ok, ⟨{ s.heap with mem }, s.ptr, s.size⟩)

/-- what the raw block has in addition -/
def Allocator.overhead (A : Allocator) : Nat := if A.padded then blockAlign else 0

/-- the size the allocator is asked for -/
def Allocator.request (A : Allocator) (count elemsize : Nat) : Nat :=
  if A.padded then A.addSize (A.mulSize count elemsize) blockAlign else A.mulSize count elemsize

/-- `n` bytes fit with their overhead, and the allocator has a block for them -/
def Allocator.Grants (A : Allocator) (n : Nat) (ans : RawAnswer) : Prop := n + A.overhead ≤ A.sizeMax ∧ ans.addr ≠ 0

/-- which calls succeed: those for nothing, and those the allocator grants -/
def BlockOp.Succeeds (A : Allocator) : BlockOp → Prop
  | .malloc count elemsize ans | .realloc count elemsize ans => count * elemsize = 0 ∨ A.Grants (count * elemsize) ans
  | .free | .write _ _ | .others _ => True

/-- what callers and the allocator keep to -/
def BlockState.Allows (A : Allocator) (s : BlockState) : BlockOp → Prop
  | .malloc count elemsize ans => s.ptr = 0 ∧ Honors A s.heap (A.request count elemsize) ans
  | .realloc count elemsize ans => Honors A s.heap (A.request count elemsize) ans
  | .free => True
  | .write i _ => i < s.size
  | .others mem => ∀ b ∈ s.heap.live, ∀ k : Nat, k < b.size → mem (b.addr + k) = s.heap.mem (b.addr + k)

/-- the states of a block -/
inductive BlockReached (A : Allocator) : BlockState → Prop where
  | start (mem : Nat → BitVec 8) : BlockReached A ⟨⟨mem, none⟩, 0, 0⟩
  | step {s s' : BlockState} {op : BlockOp} {st : AllocStatus} : BlockReached A s → s.Allows A op →
      s.step A op = some (st, s') → BlockReached A s'

/-! ## Padding stays inside the block -/

theorem padOf_bounds (raw : Nat) : 1 ≤ padOf raw ∧ padOf raw ≤ 16 := by
  unfold padOf blockAlign
  omega

theorem padOf_dvd (raw : Nat) : blockAlign ∣ raw + padOf raw := by
  unfold padOf blockAlign
  omega

theorem padOf_toNat (raw : Nat) : (BitVec.ofNat 8 (padOf raw)).toNat = padOf raw := by
  have := padOf_bounds raw
  rw [BitVec.toNat_ofNat]
  omega

theorem RawHeap.covers_of_live {h : RawHeap} {b : RawBlock} (hb : h.live = some b) (a n : Nat) :
    h.covers a n = true ↔ b.addr ≤ a ∧ a + n ≤ b.addr + b.size := by
  rw [RawHeap.covers, hb, Option.any_some, RawBlock.covers, decide_eq_true_iff]

theorem RawHeap.load_of_live {h : RawHeap} {b : RawBlock} (hb : h.live = some b) {a : Nat} (hlo : b.addr ≤ a)
    (hhi : a + 1 ≤ b.addr + b.size) : h.load a = some (h.mem a) := by
  rw [RawHeap.load, if_pos ((RawHeap.covers_of_live hb a 1).2 ⟨hlo, hhi⟩)]

theorem RawHeap.store_of_live {h : RawHeap} {b : RawBlock} (hb : h.live = some b) {a : Nat} (hlo : b.addr ≤ a)
    (hhi : a + 1 ≤ b.addr + b.size) (v : BitVec 8) :
    h.store a v = some ⟨Function.update h.mem a v, h.live⟩ := by
  rw [RawHeap.store, if_pos ((RawHeap.covers_of_live hb a 1).2 ⟨hlo, hhi⟩)]

/-- the byte in front of the pointer says how far the block's start is -/
structure PaddedAt (h : RawHeap) (raw ptr : Nat) : Prop where
  ptr_eq : ptr = raw + padOf raw
  recorded : h.mem (ptr - 1) = BitVec.ofNat 8 (padOf raw)

theorem allocPad_spec {h : RawHeap} {raw size : Nat} (hlive : h.live = some ⟨raw, size + blockAlign⟩) :
    ∃ h', allocPad h raw = some (h', raw + padOf raw) ∧ h'.live = h.live ∧ PaddedAt h' raw (raw + padOf raw) ∧
      ∀ i : Nat, h'.mem (raw + padOf raw + i) = h.mem (raw + padOf raw + i) := by
  have hpad := padOf_bounds raw
  have hstore := RawHeap.store_of_live hlive (a := raw + padOf raw - 1) (by simp only; omega)
    (by simp only [blockAlign]; omega) (BitVec.ofNat 8 (padOf raw))
  refine ⟨⟨Function.update h.mem (raw + padOf raw - 1) (BitVec.ofNat 8 (padOf raw)), h.live⟩, ?_, rfl, ⟨rfl, ?_⟩, ?_⟩
  · rw [allocPad, hstore]
    rfl
  · exact Function.update_self ..
  · exact fun i => Function.update_of_ne (by omega) ..

/-- the contents arrive at their new place whatever the two paddings are: both ranges end inside the new block -/
theorem repad_spec {h : RawHeap} {raw size oldPad : Nat} (hlive : h.live = some ⟨raw, size + blockAlign⟩)
    (hold : oldPad ≤ 16) :
    ∃ h', repad h raw oldPad size = some (h', raw + padOf raw) ∧ h'.live = h.live ∧ PaddedAt h' raw (raw + padOf raw) ∧
      ∀ i : Nat, i < size → h'.mem (raw + padOf raw + i) = h.mem (raw + oldPad + i) := by
  have hpad := padOf_bounds raw
  unfold repad
  by_cases heq : padOf raw = oldPad
  · rw [if_neg (not_not.2 heq), Option.bind_some]
    obtain ⟨h', hpadded, hlive', hat, hmem⟩ := allocPad_spec hlive
    exact ⟨h', hpadded, hlive', hat, fun i _ => heq ▸ hmem i⟩
  · have hdst := (RawHeap.covers_of_live hlive (raw + padOf raw) size).2
      ⟨by simp only; omega, by simp only [blockAlign]; omega⟩
    have hsrc := (RawHeap.covers_of_live hlive (raw + oldPad) size).2
      ⟨by simp only; omega, by simp only [blockAlign]; omega⟩
    rw [if_pos heq, RawHeap.move, if_pos ⟨hdst, hsrc⟩, Option.bind_some]
    have hmoved : (RawHeap.mk (movedBytes h.mem (raw + padOf raw) (raw + oldPad) size) h.live).live =
        some ⟨raw, size + blockAlign⟩ := hlive
    obtain ⟨h', hpadded, hlive', hat, hmem⟩ := allocPad_spec hmoved
    refine ⟨h', hpadded, hlive', hat, fun i hi => ?_⟩
    rw [hmem i]
    simp only [movedBytes]
    rw [if_pos (by omega), Nat.add_sub_cancel_left]

/-! ## Sizes do not wrap -/

section Sizes

variable {A : Allocator} {count elemsize : Nat}

theorem mulSize_eq (hdiv : ¬A.sizeMax / elemsize < count) : A.mulSize count elemsize = count * elemsize :=
  Nat.mod_eq_of_lt (Nat.lt_succ_of_le (Nat.mul_le_of_le_div _ _ _ (Nat.not_lt.1 hdiv)))

theorem addSize_eq {size : Nat} (hroom : ¬A.sizeMax - blockAlign < size) :
    A.addSize size blockAlign = size + blockAlign := by
  have := A.wide
  exact Nat.mod_eq_of_lt (by omega)

theorem request_eq (hdiv : ¬A.sizeMax / elemsize < count)
    (hroom : A.padded = true → ¬A.sizeMax - blockAlign < A.mulSize count elemsize) :
    A.request count elemsize = count * elemsize + A.overhead := by
  unfold Allocator.request Allocator.overhead
  cases hp : A.padded with
  | false => exact mulSize_eq hdiv
  | true => rw [if_pos rfl, if_pos rfl, addSize_eq (hroom hp), mulSize_eq hdiv]

theorem not_grants_of_wraps (hzero : ¬(count = 0 ∨ elemsize = 0)) (hdiv : A.sizeMax / elemsize < count)
    (ans : RawAnswer) : ¬A.Grants (count * elemsize) ans := by
  rintro ⟨hfits, -⟩
  have hpos : 0 < elemsize := Nat.pos_of_ne_zero fun h => hzero (.inr h)
  have := (Nat.div_lt_iff_lt_mul hpos).1 hdiv
  omega

theorem not_grants_of_no_room (hp : A.padded = true) (hdiv : ¬A.sizeMax / elemsize < count)
    (hroom : A.sizeMax - blockAlign < A.mulSize count elemsize) (ans : RawAnswer) :
    ¬A.Grants (count * elemsize) ans := by
  rintro ⟨hfits, -⟩
  rw [mulSize_eq hdiv] at hroom
  rw [Allocator.overhead, if_pos hp] at hfits
  omega

theorem grants_padded (hp : A.padded = true) (hdiv : ¬A.sizeMax / elemsize < count)
    (hroom : ¬A.sizeMax - blockAlign < A.mulSize count elemsize) {ans : RawAnswer} (hraw : ans.addr ≠ 0) :
    A.Grants (count * elemsize) ans := by
  have := A.wide
  rw [mulSize_eq hdiv] at hroom
  refine ⟨?_, hraw⟩
  rw [Allocator.overhead, if_pos hp]
  omega

theorem grants_plain (hp : A.padded = false) (hdiv : ¬A.sizeMax / elemsize < count) {ans : RawAnswer}
    (hraw : ans.addr ≠ 0) : A.Grants (count * elemsize) ans := by
  refine ⟨?_, hraw⟩
  rw [Allocator.overhead, if_neg (hp ▸ by decide)]
  exact Nat.mul_le_of_le_div _ _ _ (Nat.not_lt.1 hdiv)

/-- an allocator that needs no padding aligns its blocks -/
theorem blockAlign_dvd_minAlign (hp : A.padded = false) : blockAlign ∣ A.minAlign := by
  obtain ⟨k, hk⟩ := A.powerOfTwo
  have hle : blockAlign ≤ A.minAlign := by simpa [Allocator.padded] using hp
  rw [hk] at hle ⊢
  exact Nat.pow_dvd_pow 2 ((Nat.pow_le_pow_iff_right (by decide : 1 < 2)).1 (show 2 ^ 4 ≤ 2 ^ k from hle))

end Sizes

/-! ## The invariant -/

/-- where a block that is handed out lies in the raw block -/
structure LaidOut (A : Allocator) (h : RawHeap) (raw ptr size : Nat) : Prop where
  nonnull : raw ≠ 0
  nonempty : 0 < size
  fits : raw + (size + A.overhead) ≤ A.sizeMax + 1
  live : h.live = some ⟨raw, size + A.overhead⟩
  padded : A.padded = true → PaddedAt h raw ptr
  plain : A.padded = false → ptr = raw ∧ blockAlign ∣ raw

/-- no block, or one that is handed out -/
def BlockInv (A : Allocator) (s : BlockState) : Prop :=
  s.ptr = 0 ∧ s.size = 0 ∧ s.heap.live = none ∨ ∃ raw, LaidOut A s.heap raw s.ptr s.size

section Layout

variable {A : Allocator} {h : RawHeap} {raw ptr size : Nat}

theorem LaidOut.inside (hl : LaidOut A h raw ptr size) : raw ≤ ptr ∧ ptr + size ≤ raw + (size + A.overhead) := by
  cases hp : A.padded with
  | false =>
    have := (hl.plain hp).1
    omega
  | true =>
    have := (hl.padded hp).ptr_eq
    have := padOf_bounds raw
    rw [Allocator.overhead, if_pos hp, blockAlign]
    omega

theorem LaidOut.aligned (hl : LaidOut A h raw ptr size) : blockAlign ∣ ptr := by
  cases hp : A.padded with
  | false => exact (hl.plain hp).1 ▸ (hl.plain hp).2
  | true => exact (hl.padded hp).ptr_eq ▸ padOf_dvd raw

theorem LaidOut.ptr_ne (hl : LaidOut A h raw ptr size) : ptr ≠ 0 := by
  have := hl.inside
  have := hl.nonnull
  omega

/-- changes of memory that keep the byte in front of the pointer -/
theorem LaidOut.congr (hl : LaidOut A h raw ptr size) {mem : Nat → BitVec 8}
    (hmem : A.padded = true → mem (ptr - 1) = h.mem (ptr - 1)) : LaidOut A { h with mem } raw ptr size :=
  ⟨hl.nonnull, hl.nonempty, hl.fits, hl.live,
    fun hp => ⟨(hl.padded hp).ptr_eq, (hmem hp).trans (hl.padded hp).recorded⟩, hl.plain⟩

theorem LaidOut.free (hl : LaidOut A h raw ptr size) : wahFree A h ptr = some { h with live := none } := by
  have hstart : h.live.map RawBlock.addr = some raw := by rw [hl.live]; rfl
  rw [wahFree, if_neg hl.ptr_ne]
  cases hp : A.padded with
  | false =>
    rw [if_neg (by decide), rawFree, (hl.plain hp).1, if_neg (not_not.2 hstart)]
  | true =>
    have hat := hl.padded hp
    have hpad := padOf_bounds raw
    have heq := hat.ptr_eq
    have hin := hl.inside
    have hload := RawHeap.load_of_live hl.live (a := ptr - 1) (by simp only; omega) (by simp only; omega)
    rw [if_pos rfl, hload, hat.recorded, Option.bind_some, padOf_toNat, rawFree, hat.ptr_eq, Nat.add_sub_cancel,
      if_neg (not_not.2 hstart)]

end Layout

/-! ## Calls -/

section Calls

variable {A : Allocator} {h : RawHeap} {count elemsize : Nat} {ans : RawAnswer}

theorem answered_null (hnull : ans.addr = 0) (size : Nat) : h.answered size ans = ({ h with mem := ans.mem }, 0) :=
  if_pos hnull

theorem answered_block (hraw : ans.addr ≠ 0) (size : Nat) :
    h.answered size ans = (⟨ans.mem, some ⟨ans.addr, size⟩⟩, ans.addr) := if_neg hraw

/-- a new block of the allocator with its padding is laid out -/
theorem laidOut_of_padded (hp : A.padded = true) {size : Nat} {h' : RawHeap} (hraw : ans.addr ≠ 0) (hsize : 0 < size)
    (hfits : ans.addr + (size + A.overhead) ≤ A.sizeMax + 1) (hlive : h'.live = some ⟨ans.addr, size + blockAlign⟩)
    {ptr : Nat} (hat : PaddedAt h' ans.addr ptr) : LaidOut A h' ans.addr ptr size :=
  ⟨hraw, hsize, hfits, by rw [hlive, Allocator.overhead, if_pos hp], fun _ => hat,
    fun hp' => absurd (hp.symm.trans hp') (by decide)⟩

theorem laidOut_of_plain (hp : A.padded = false) {size : Nat} (hraw : ans.addr ≠ 0) (hsize : 0 < size)
    (hfits : ans.addr + (size + A.overhead) ≤ A.sizeMax + 1) (hdvd : A.minAlign ∣ ans.addr) :
    LaidOut A ⟨ans.mem, some ⟨ans.addr, size⟩⟩ ans.addr ans.addr size :=
  ⟨hraw, hsize, hfits, by rw [Allocator.overhead, if_neg (hp ▸ by decide)]; rfl,
    fun hp' => absurd (hp.symm.trans hp') (by decide), fun _ => ⟨rfl, (blockAlign_dvd_minAlign hp).trans hdvd⟩⟩

/-- what `wah_malloc` leaves where no block was -/
inductive Malloced (A : Allocator) (ans : RawAnswer) (n : Nat) : AllocStatus → RawHeap → Nat → Prop where
  | failed {h : RawHeap} : n ≠ 0 → ¬A.Grants n ans → h.live = none → Malloced A ans n .outOfMemory h 0
  | nothing {h : RawHeap} : n = 0 → h.live = none → Malloced A ans n .ok h 0
  | block {h : RawHeap} {raw ptr : Nat} : A.Grants n ans → LaidOut A h raw ptr n → Malloced A ans n .ok h ptr

theorem wahMalloc_spec (hlive : h.live = none) (hans : Honors A h (A.request count elemsize) ans) :
    ∃ st h' p, wahMalloc A h count elemsize ans = some (st, h', p) ∧ Malloced A ans (count * elemsize) st h' p := by
  unfold wahMalloc
  by_cases hzero : count = 0 ∨ elemsize = 0
  · exact ⟨_, _, _, if_pos hzero, .nothing (Nat.mul_eq_zero.2 hzero) hlive⟩
  have hpos : 0 < count * elemsize := Nat.pos_of_ne_zero fun h => hzero (Nat.mul_eq_zero.1 h)
  by_cases hdiv : A.sizeMax / elemsize < count
  · exact ⟨_, _, _, by rw [if_neg hzero, if_pos hdiv], .failed hpos.ne' (not_grants_of_wraps hzero hdiv ans) hlive⟩
  rw [if_neg hzero, if_neg hdiv]
  cases hp : A.padded with
  | false =>
    have hreq := request_eq hdiv (fun hp' => absurd (hp.symm.trans hp') (by decide))
    rw [if_neg (by decide), mulSize_eq hdiv, rawMalloc, if_neg hpos.ne', Option.map_some]
    by_cases hnull : ans.addr = 0
    · rw [answered_null hnull]
      exact ⟨_, _, _, rfl, .failed hpos.ne' (fun hg => hg.2 hnull) hlive⟩
    · rw [answered_block hnull]
      refine ⟨_, _, _, rfl, ?_⟩
      simp only [if_neg hnull]
      exact .block (grants_plain hp hdiv hnull)
        (laidOut_of_plain hp hnull hpos (hreq ▸ hans.fits hnull) (hans.aligned hnull))
  | true =>
    rw [if_pos rfl]
    by_cases hroom : A.sizeMax - blockAlign < A.mulSize count elemsize
    · exact ⟨_, _, _, if_pos hroom, .failed hpos.ne' (not_grants_of_no_room hp hdiv hroom ans) hlive⟩
    have hreq := request_eq hdiv (fun _ => hroom)
    rw [if_neg hroom, addSize_eq hroom, mulSize_eq hdiv, rawMalloc, if_neg (by omega), Option.bind_some]
    by_cases hnull : ans.addr = 0
    · rw [answered_null hnull]
      exact ⟨_, _, _, rfl, .failed hpos.ne' (fun hg => hg.2 hnull) hlive⟩
    · rw [answered_block hnull]
      obtain ⟨h', hpad, hlive', hat, -⟩ :=
        allocPad_spec (h := ⟨ans.mem, some ⟨ans.addr, count * elemsize + blockAlign⟩⟩) rfl
      refine ⟨.ok, h', ans.addr + padOf ans.addr, ?_, ?_⟩
      · simp only [if_neg hnull, hpad, Option.map_some]
      · exact .block (grants_padded hp hdiv hroom hnull)
          (laidOut_of_padded hp hnull hpos (hreq ▸ hans.fits hnull) hlive' hat)

/-- what `wah_realloc` leaves of a block of `size` bytes at `ptr` -/
inductive Realloced (A : Allocator) (ans : RawAnswer) (h : RawHeap) (ptr size n : Nat) :
    AllocStatus → RawHeap → Nat → Prop where
  | failed {h' : RawHeap} {raw : Nat} : n ≠ 0 → ¬A.Grants n ans → h'.live = h.live → LaidOut A h' raw ptr size →
      (∀ i : Nat, i < size → h'.mem (ptr + i) = h.mem (ptr + i)) → Realloced A ans h ptr size n .outOfMemory h' ptr
  | nothing {h' : RawHeap} : n = 0 → h'.live = none → Realloced A ans h ptr size n .ok h' 0
  | block {h' : RawHeap} {raw ptr' : Nat} : A.Grants n ans → LaidOut A h' raw ptr' n →
      (∀ i : Nat, i < size → i < n → h'.mem (ptr' + i) = h.mem (ptr + i)) → Realloced A ans h ptr size n .ok h' ptr'

/-- a failed call of the allocator leaves the block as it was -/
theorem realloced_of_null {raw ptr size n req : Nat} (hl : LaidOut A h raw ptr size) (hans : Honors A h req ans)
    (hn : n ≠ 0) (hnull : ans.addr = 0) :
    Realloced A ans h ptr size n .outOfMemory { h with mem := ans.mem } ptr := by
  have hin := hl.inside
  have hkeep : ∀ a, raw ≤ a → a < raw + (size + A.overhead) → ans.mem a = h.mem a := fun a hlo hhi => by
    have := hans.untouched _ hl.live hnull (a - raw) (by simp only; omega)
    simpa only [Nat.add_sub_cancel' hlo] using this
  refine .failed hn (fun hg => hg.2 hnull) rfl (hl.congr fun hp => hkeep _ ?_ ?_) (fun i hi => hkeep _ (by omega) (by omega))
  · have := (hl.padded hp).ptr_eq
    have := padOf_bounds raw
    omega
  · have := hl.ptr_ne
    omega

theorem wahRealloc_spec {raw ptr size : Nat} (hl : LaidOut A h raw ptr size)
    (hans : Honors A h (A.request count elemsize) ans) :
    ∃ st h' p, wahRealloc A h ptr count elemsize ans = some (st, h', p) ∧
      Realloced A ans h ptr size (count * elemsize) st h' p := by
  unfold wahRealloc
  by_cases hzero : count = 0 ∨ elemsize = 0
  · rw [if_pos hzero, hl.free]
    exact ⟨_, _, _, rfl, .nothing (Nat.mul_eq_zero.2 hzero) rfl⟩
  have hpos : 0 < count * elemsize := Nat.pos_of_ne_zero fun h => hzero (Nat.mul_eq_zero.1 h)
  by_cases hdiv : A.sizeMax / elemsize < count
  · exact ⟨_, _, _, by rw [if_neg hzero, if_neg hl.ptr_ne, if_pos hdiv],
      .failed hpos.ne' (not_grants_of_wraps hzero hdiv ans) rfl hl (fun _ _ => rfl)⟩
  have hstart : h.live.map RawBlock.addr = some raw := by rw [hl.live]; rfl
  rw [if_neg hzero, if_neg hl.ptr_ne, if_neg hdiv]
  cases hp : A.padded with
  | false =>
    have hreq := request_eq hdiv (fun hp' => absurd (hp.symm.trans hp') (by decide))
    obtain ⟨rfl, -⟩ := hl.plain hp
    rw [if_neg (by decide), mulSize_eq hdiv, rawRealloc, if_neg (by rw [not_or, not_not]; exact ⟨hpos.ne', hstart⟩),
      Option.map_some]
    by_cases hnull : ans.addr = 0
    · rw [answered_null hnull]
      exact ⟨_, _, _, rfl, realloced_of_null hl hans hpos.ne' hnull⟩
    · rw [answered_block hnull]
      refine ⟨.ok, ⟨ans.mem, some ⟨ans.addr, count * elemsize⟩⟩, ans.addr, by simp only [if_neg hnull], ?_⟩
      refine .block (grants_plain hp hdiv hnull)
        (laidOut_of_plain hp hnull hpos (hreq ▸ hans.fits hnull) (hans.aligned hnull)) fun i hi hn => ?_
      exact hans.kept _ hl.live hnull i (by simp only; omega) (by omega)
  | true =>
    rw [if_pos rfl]
    by_cases hroom : A.sizeMax - blockAlign < A.mulSize count elemsize
    · exact ⟨_, _, _, if_pos hroom,
        .failed hpos.ne' (not_grants_of_no_room hp hdiv hroom ans) rfl hl (fun _ _ => rfl)⟩
    have hreq := request_eq hdiv (fun _ => hroom)
    have hat := hl.padded hp
    have hpad := padOf_bounds raw
    have heq := hat.ptr_eq
    have hin := hl.inside
    have hover : A.overhead = 16 := by rw [Allocator.overhead, if_pos hp]; rfl
    have hload := RawHeap.load_of_live hl.live (a := ptr - 1) (by simp only; omega) (by simp only; omega)
    rw [if_neg hroom, addSize_eq hroom, mulSize_eq hdiv, hload, hat.recorded, Option.bind_some, padOf_toNat, rawRealloc,
      if_neg (by rw [not_or, not_not, heq, Nat.add_sub_cancel]; exact ⟨by omega, hstart⟩), Option.bind_some]
    by_cases hnull : ans.addr = 0
    · rw [answered_null hnull]
      exact ⟨_, _, _, rfl, realloced_of_null hl hans hpos.ne' hnull⟩
    · rw [answered_block hnull]
      obtain ⟨h', hrepad, hlive', hat', hmem⟩ :=
        repad_spec (h := ⟨ans.mem, some ⟨ans.addr, count * elemsize + blockAlign⟩⟩) rfl hpad.2
      refine ⟨.ok, h', ans.addr + padOf ans.addr, ?_, ?_⟩
      · simp only [if_neg hnull, hrepad, Option.map_some]
      · refine .block (grants_padded hp hdiv hroom hnull)
          (laidOut_of_padded hp hnull hpos (hreq ▸ hans.fits hnull) hlive' hat') fun i hi hn => ?_
        have hkept := hans.kept _ hl.live hnull (padOf raw + i) (by simp only; omega) (by omega)
        rw [hmem i hn, heq, Nat.add_assoc, Nat.add_assoc]
        exact hkept

end Calls

/-! ## Result -/

/-- the pointer is aligned with its bytes in the raw block, which is as large as what was asked for and the overhead -/
def Handed (A : Allocator) (s : BlockState) : Prop :=
  if s.ptr = 0 then s.heap.live = none
  else blockAlign ∣ s.ptr ∧ ∃ b, s.heap.live = some b ∧ b.size = s.size + A.overhead ∧
    b.addr ≤ s.ptr ∧ s.ptr + s.size ≤ b.addr + b.size ∧ b.addr + b.size ≤ A.sizeMax + 1

/-- the first `n` bytes of the block are what they were -/
def SameBytes (s s' : BlockState) (n : Nat) : Prop :=
  ∀ i : Nat, i < n → s'.heap.mem (s'.ptr + i) = s.heap.mem (s.ptr + i)

/-- what a call promises to its caller -/
def Transparent (s : BlockState) (op : BlockOp) (st : AllocStatus) (s' : BlockState) : Prop :=
  match op, st with
  | .malloc count elemsize _, .ok => s'.size = count * elemsize ∧ (s'.ptr = 0 ↔ s'.size = 0)
  | .malloc _ _ _, .outOfMemory => s'.ptr = 0
  | .realloc count elemsize _, .ok =>
    s'.size = count * elemsize ∧ (s'.ptr = 0 ↔ s'.size = 0) ∧ SameBytes s s' (min s.size s'.size)
  | .realloc _ _ _, .outOfMemory =>
    s'.ptr = s.ptr ∧ s'.size = s.size ∧ s'.heap.live = s.heap.live ∧ SameBytes s s' s.size
  | .free, _ => st = .ok ∧ s'.ptr = 0 ∧ s'.heap.live = none
  | .write i v, _ => s'.ptr = s.ptr ∧ s'.size = s.size ∧
    ∀ j : Nat, j < s.size → s'.heap.mem (s.ptr + j) = if j = i then v else s.heap.mem (s.ptr + j)
  | .others _, _ => s'.ptr = s.ptr ∧ s'.size = s.size ∧ SameBytes s s' s.size

section Runs

variable {A : Allocator} {s : BlockState}

theorem BlockInv.handed (hs : BlockInv A s) : Handed A s := by
  unfold Handed
  rcases hs with ⟨hptr, -, hlive⟩ | ⟨raw, hl⟩
  · rwa [if_pos hptr]
  · rw [if_neg hl.ptr_ne]
    exact ⟨hl.aligned, _, hl.live, rfl, hl.inside.1, hl.inside.2, hl.fits⟩

/-- what a call may rely on and what it leaves -/
def StepSpec (A : Allocator) (s : BlockState) (op : BlockOp) : Prop :=
  ∃ st s', s.step A op = some (st, s') ∧ BlockInv A s' ∧ (st = .ok ↔ op.Succeeds A) ∧ Transparent s op st s'

theorem refused_iff {n : Nat} {ans : RawAnswer} (hn : n ≠ 0) (hgrants : ¬A.Grants n ans) :
    AllocStatus.outOfMemory = .ok ↔ n = 0 ∨ A.Grants n ans :=
  iff_of_false nofun (not_or.2 ⟨hn, hgrants⟩)

theorem step_malloc (hs : BlockInv A s) {count elemsize : Nat} {ans : RawAnswer}
    (hop : s.Allows A (.malloc count elemsize ans)) : StepSpec A s (.malloc count elemsize ans) := by
  obtain ⟨hptr, hans⟩ := hop
  have hlive : s.heap.live = none := by
    rcases hs with ⟨-, -, hlive⟩ | ⟨raw, hl⟩
    · exact hlive
    · exact absurd hptr hl.ptr_ne
  obtain ⟨st, h', p, hcall, hspec⟩ := wahMalloc_spec hlive hans
  refine ⟨st, _, by rw [BlockState.step, hcall]; rfl, ?_⟩
  cases hspec with
  | failed hn hgrants hnone => exact ⟨.inl ⟨rfl, rfl, hnone⟩, refused_iff hn hgrants, rfl⟩
  | nothing hzero hnone =>
    exact ⟨.inl ⟨rfl, hzero, hnone⟩, iff_of_true rfl (.inl hzero), rfl, iff_of_true rfl hzero⟩
  | block hgrants hl =>
    exact ⟨.inr ⟨_, hl⟩, iff_of_true rfl (.inr hgrants), rfl, iff_of_false hl.ptr_ne hl.nonempty.ne'⟩

theorem step_realloc (hs : BlockInv A s) {count elemsize : Nat} {ans : RawAnswer}
    (hop : s.Allows A (.realloc count elemsize ans)) : StepSpec A s (.realloc count elemsize ans) := by
  rcases hs with ⟨hptr, hsize, hlive⟩ | ⟨raw, hl⟩
  · -- nothing to move: the call allocates, or has nothing to free
    have hfree : wahFree A s.heap s.ptr = some s.heap := by rw [wahFree, if_pos hptr]
    obtain ⟨st, h', p, hcall, hspec⟩ := wahMalloc_spec hlive hop
    by_cases hzero : count = 0 ∨ elemsize = 0
    · have hn : count * elemsize = 0 := Nat.mul_eq_zero.2 hzero
      refine ⟨.ok, ⟨s.heap, 0, count * elemsize⟩, by rw [BlockState.step, wahRealloc, if_pos hzero, hfree]; rfl,
        .inl ⟨rfl, hn, hlive⟩, iff_of_true rfl (.inl hn), rfl, iff_of_true rfl hn, fun i hi => absurd hi (by omega)⟩
    · refine ⟨st, _, by rw [BlockState.step, wahRealloc, if_neg hzero, if_pos hptr, hcall]; rfl, ?_⟩
      cases hspec with
      | failed hn hgrants hnone =>
        exact ⟨.inl ⟨rfl, hsize, hnone⟩, refused_iff hn hgrants, hptr.symm, rfl, hnone.trans hlive.symm,
          fun i hi => absurd hi (by omega)⟩
      | nothing hn hnone =>
        exact ⟨.inl ⟨rfl, hn, hnone⟩, iff_of_true rfl (.inl hn), rfl, iff_of_true rfl hn,
          fun i hi => absurd hi (by omega)⟩
      | block hgrants hl =>
        exact ⟨.inr ⟨_, hl⟩, iff_of_true rfl (.inr hgrants), rfl, iff_of_false hl.ptr_ne hl.nonempty.ne',
          fun i hi => absurd hi (by omega)⟩
  · obtain ⟨st, h', p, hcall, hspec⟩ := wahRealloc_spec hl hop
    refine ⟨st, _, by rw [BlockState.step, hcall]; rfl, ?_⟩
    cases hspec with
    | failed hn hgrants hlive hl' hbytes => exact ⟨.inr ⟨_, hl'⟩, refused_iff hn hgrants, rfl, rfl, hlive, hbytes⟩
    | nothing hn hnone =>
      have hmin : min s.size (count * elemsize) = 0 := by rw [hn, Nat.min_zero]
      exact ⟨.inl ⟨rfl, hn, hnone⟩, iff_of_true rfl (.inl hn), rfl, iff_of_true rfl hn,
        fun i hi => absurd (hmin ▸ hi) (Nat.not_lt_zero i)⟩
    | block hgrants hl' hbytes =>
      refine ⟨.inr ⟨_, hl'⟩, iff_of_true rfl (.inr hgrants), rfl, iff_of_false hl'.ptr_ne hl'.nonempty.ne',
        fun i hi => ?_⟩
      exact hbytes i (lt_of_lt_of_le hi (min_le_left _ _)) (lt_of_lt_of_le hi (min_le_right _ _))

theorem step_free (hs : BlockInv A s) : StepSpec A s .free := by
  rcases hs with ⟨hptr, hsize, hlive⟩ | ⟨raw, hl⟩
  · exact ⟨.ok, ⟨s.heap, 0, 0⟩, by rw [BlockState.step, wahFree, if_pos hptr]; rfl, .inl ⟨rfl, rfl, hlive⟩,
      iff_of_true rfl trivial, rfl, rfl, hlive⟩
  · exact ⟨.ok, ⟨{ s.heap with live := none }, 0, 0⟩, by rw [BlockState.step, hl.free]; rfl, .inl ⟨rfl, rfl, rfl⟩,
      iff_of_true rfl trivial, rfl, rfl, rfl⟩

theorem step_write (hs : BlockInv A s) {i : Nat} {v : BitVec 8} (hop : s.Allows A (.write i v)) :
    StepSpec A s (.write i v) := by
  have hi : i < s.size := hop
  rcases hs with ⟨-, hsize, -⟩ | ⟨raw, hl⟩
  · omega
  · have hin := hl.inside
    have hstore := RawHeap.store_of_live hl.live (a := s.ptr + i) (by simp only; omega) (by simp only; omega) v
    refine ⟨.ok, ⟨⟨Function.update s.heap.mem (s.ptr + i) v, s.heap.live⟩, s.ptr, s.size⟩,
      by rw [BlockState.step, hstore]; rfl, .inr ⟨raw, hl.congr fun _ => ?_⟩, iff_of_true rfl trivial, rfl, rfl,
      fun j hj => ?_⟩
    · have := hl.ptr_ne
      exact Function.update_of_ne (by omega) ..
    · simp only [Function.update_apply, Nat.add_left_cancel_iff]

theorem step_others (hs : BlockInv A s) {mem : Nat → BitVec 8} (hop : s.Allows A (.others mem)) :
    StepSpec A s (.others mem) := by
  refine ⟨.ok, _, rfl, ?_⟩
  rcases hs with hnone | ⟨raw, hl⟩
  · exact ⟨.inl hnone, iff_of_true rfl trivial, rfl, rfl, fun i hi => absurd hi (by have := hnone.2.1; omega)⟩
  · have hin := hl.inside
    have hkeep : ∀ a, raw ≤ a → a < raw + (s.size + A.overhead) → mem a = s.heap.mem a := fun a hlo hhi => by
      have := hop _ hl.live (a - raw) (by simp only; omega)
      simpa only [Nat.add_sub_cancel' hlo] using this
    refine ⟨.inr ⟨raw, hl.congr fun hp => ?_⟩, iff_of_true rfl trivial, rfl, rfl,
      fun i hi => hkeep (s.ptr + i) (by omega) (by omega)⟩
    have := (hl.padded hp).ptr_eq
    have := padOf_bounds raw
    have := hl.ptr_ne
    exact hkeep _ (by omega) (by omega)

theorem step_spec (hs : BlockInv A s) {op : BlockOp} (hop : s.Allows A op) : StepSpec A s op := by
  cases op with
  | malloc count elemsize ans => exact step_malloc hs hop
  | realloc count elemsize ans => exact step_realloc hs hop
  | free => exact step_free hs
  | write i v => exact step_write hs hop
  | others mem => exact step_others hs hop

theorem BlockReached.inv (hs : BlockReached A s) : BlockInv A s := by
  induction hs with
  | start mem => exact .inl ⟨rfl, rfl, rfl⟩
  | step _ hop hstep ih =>
    obtain ⟨st, s', hstep', hinv, -⟩ := step_spec ih hop
    have heq := hstep.symm.trans hstep'
    simp only [Option.some.injEq, Prod.mk.injEq] at heq
    exact heq.2 ▸ hinv

end Runs

/-- **Padding is transparent.** In every state of every run over any allocator that keeps its contract, the pointer is
aligned with its bytes inside the raw block, and the next call does not fault, that is, it reads and writes inside of
the raw block and gives the allocator back what it returned, it succeeds exactly when nothing is asked for or the size
fits and the allocator has a block, and it does to the contents what it promises. -/
theorem padded_alloc_exact (A : Allocator) {s : BlockState} (hs : BlockReached A s) {op : BlockOp}
    (hop : s.Allows A op) :
    Handed A s ∧ ∃ st s', s.step A op = some (st, s') ∧ Handed A s' ∧ (st = .ok ↔ op.Succeeds A) ∧
      Transparent s op st s' := by
  obtain ⟨st, s', hstep, hinv, hsucceeds, htransparent⟩ := step_spec hs.inv hop
  exact ⟨hs.inv.handed, st, s', hstep, hinv.handed, hsucceeds, htransparent⟩

/-- blocks of this allocator can be anywhere -/
def byteAllocator : Allocator := ⟨0xFFFFFFFFFFFFFFFF, 1, by decide, 0, rfl⟩

/-- memory after three bytes at a raw address of 5, the last of them written -/
def threeBytes : Nat → BitVec 8 := Function.update (Function.update (fun _ => 0) 15 11) 18 7

def threeByteBlock : BlockState := ⟨⟨threeBytes, some ⟨5, 19⟩⟩, 16, 3⟩

/-- the allocator moves the raw block from 5 to 24, where the padding is shorter -/
def growToFour : BlockOp := .realloc 1 4 ⟨24, fun x => threeBytes (5 + (x - 24))⟩

theorem threeByteBlock_reached : BlockReached byteAllocator threeByteBlock := by
  have hmalloc : BlockState.Allows byteAllocator ⟨⟨fun _ => 0, none⟩, 0, 0⟩ (.malloc 1 3 ⟨5, fun _ => 0⟩) :=
    ⟨rfl, fun _ => one_dvd _, fun _ => by decide, nofun, nofun⟩
  have hwrite : BlockState.Allows byteAllocator ⟨⟨Function.update (fun _ => 0) 15 11, some ⟨5, 19⟩⟩, 16, 3⟩
      (.write 2 7) := Nat.lt_succ_self 2
  exact BlockReached.step (BlockReached.step (.start fun _ => 0) hmalloc rfl) hwrite rfl

theorem growToFour_allowed : threeByteBlock.Allows byteAllocator growToFour := by
  refine ⟨fun _ => one_dvd _, fun _ => by decide, fun b hb _ k _ _ => ?_, fun _ _ h => absurd h (by decide)⟩
  obtain rfl : (⟨5, 19⟩ : RawBlock) = b := Option.some.inj hb
  show threeBytes (5 + (24 + k - 24)) = threeBytes (5 + k)
  rw [Nat.add_sub_cancel_left]

/-- the call succeeds, the pointer moves from 16 to 32, and the last byte goes with it -/
theorem padded_alloc_exact_moved : BlockReached byteAllocator threeByteBlock ∧
    threeByteBlock.Allows byteAllocator growToFour ∧ threeByteBlock.heap.mem 18 = 7 ∧
    ∃ s', threeByteBlock.step byteAllocator growToFour = some (.ok, s') ∧ s'.ptr = 32 ∧ s'.size = 4 ∧
      s'.heap.live = some ⟨24, 20⟩ ∧ s'.heap.mem 34 = 7 ∧ Handed byteAllocator s' := by
  obtain ⟨-, st, s', hstep, hhanded, hsucceeds, htransparent⟩ :=
    padded_alloc_exact byteAllocator threeByteBlock_reached growToFour_allowed
  obtain rfl : st = .ok := hsucceeds.2 (.inr ⟨by decide, by decide⟩)
  obtain ⟨hsize, -, hsame⟩ := htransparent
  have hptr : s'.ptr = 32 ∧ s'.heap.live = some ⟨24, 20⟩ := by
    have hview : (threeByteBlock.step byteAllocator growToFour).map (fun r => (r.2.ptr, r.2.heap.live)) =
        some (32, some ⟨24, 20⟩) := by decide
    rw [hstep] at hview
    exact Prod.mk.inj (Option.some.inj hview)
  refine ⟨threeByteBlock_reached, growToFour_allowed, rfl, s', hstep, hptr.1, hsize, hptr.2, ?_, hhanded⟩
  have hbyte := hsame 2 (by rw [hsize]; decide)
  rwa [hptr.1] at hbyte

end Wah
