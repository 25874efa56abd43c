/-
The pin table over whole runs: what the free list holds, what live handles name, and when a handle comes back.

- `PinRun`: the table with the pins made and not released yet, and the handles released so far, newest first. Pins are
  made of non-null values, as every caller of `wah_pin` checks.
- `FreeChain`: the intrusive list through `next_free`.
- `PinRun.Inv`: the invariant. Slots with a null value are on the free list, the others are live pins; generations count
  releases, and every released handle has the generation its slot had then.
- `pin_table`: the result over all runs.
-/
import Wah.Pins

namespace Wah

/-! ## Runs -/

/-- a pin that was made: its handle, and what was pinned -/
structure LivePin where
  handle : Nat
  value : Ref
  module : Option ModuleId
  type : Ty
deriving DecidableEq, Repr

/-- `wah_pin`, with the answer of the allocator, and `wah_unpin` -/
inductive PinOp where
  | pin (value : Ref) (module : Option ModuleId) (type : Ty) (memory : Bool)
  | unpin (word : Nat)
deriving DecidableEq, Repr

/-- only references that are not null are pinned -/
def PinOp.Valid : PinOp → Prop
  | .pin value _ _ _ => value ≠ .null
  | .unpin _ => True

structure PinRun where
  table : PinTable := {}
  live : List LivePin := []
  released : List Nat := []
deriving DecidableEq, Repr

namespace PinRun

def step (w : PtrWidth) (s : PinRun) : PinOp → PinRun
  | .pin value module type memory =>
    match s.table.pin w value module type memory with
    | .error _ => s
    | .ok (t, h) => { s with table := t, live := ⟨h, value, module, type⟩ :: s.live }
  | .unpin word =>
    if word = 0 then s
    else
      match s.table.unpin w word with
      | none => s
      | some t => ⟨t, s.live.filter fun r => decide (r.handle ≠ word), word :: s.released⟩

def run (w : PtrWidth) (ops : List PinOp) : PinRun := ops.foldl (step w) {}

/-- the table with the released handles -/
def pins (s : PinRun) : Pins := ⟨s.table, s.released⟩

end PinRun

/-- how many of the handles are of one slot -/
def countSlot (w : PtrWidth) (hs : List Nat) (k : Nat) : Nat := hs.countP fun h => decide (slotOf w h = k)

/-- `free` is the list that starts at `head`, an index + 1, and goes on through `next_free` -/
inductive FreeChain (slots : List PinSlot) : Nat → List Nat → Prop where
  | nil : FreeChain slots 0 []
  | cons {k : Nat} {s : PinSlot} {free : List Nat} (hs : slots[k]? = some s) (h : FreeChain slots s.nextFree free) :
      FreeChain slots (k + 1) (k :: free)

namespace FreeChain
variable {slots slots' : List PinSlot} {head : Nat} {free : List Nat}

/-- a chain only depends on the slots it visits -/
theorem congr (h : FreeChain slots head free) (hs : ∀ k ∈ free, slots'[k]? = slots[k]?) :
    FreeChain slots' head free := by
  induction h with
  | nil => exact .nil
  | @cons k s free hk _ ih =>
    refine .cons ((hs k List.mem_cons_self).trans hk) (ih fun j hj => hs j (List.mem_cons_of_mem _ hj))

end FreeChain

/-! ## The invariant -/

namespace PinRun

/-- slot `k`, holding `s`, is free -/
def IsFree (s : PinRun) (k : Nat) : Prop := ∃ sl, s.table.slots[k]? = some sl ∧ sl.value = .null

structure Inv (w : PtrWidth) (s : PinRun) : Prop where
  pins : s.pins.Inv w
  free : ∃ free, FreeChain s.table.slots s.table.freeHead free ∧ free.Nodup ∧ ∀ k, k ∈ free ↔ s.IsFree k
  live : ∀ r, r ∈ s.live ↔ ∃ k sl, s.table.slots[k]? = some sl ∧ sl.value ≠ .null ∧
    r = ⟨handle w k sl.generation, sl.value, sl.module, sl.type⟩
  nodup : (s.live.map LivePin.handle).Nodup
  history : ∀ i h, s.released[i]? = some h →
    h = handle w (slotOf w h) (countSlot w (s.released.drop (i + 1)) (slotOf w h) % w.generations)

variable {w : PtrWidth} {s s' : PinRun} {word : Nat}

theorem Inv.slot_lt (h : s.Inv w) {k : Nat} {sl : PinSlot} (hk : s.table.slots[k]? = some sl) :
    k < 2 ^ w.slotBits :=
  (List.getElem?_eq_some_iff.1 hk).1.trans_le h.pins.size

/-- a handle is live exactly when it names a slot -/
theorem Inv.pinnedSlot_iff (h : s.Inv w) (word : Nat) (value : Ref) (module : Option ModuleId) (type : Ty) :
    (∃ k sl, s.table.pinnedSlot w word = some (k, sl) ∧ sl.value = value ∧ sl.module = module ∧ sl.type = type) ↔
      ⟨word, value, module, type⟩ ∈ s.live := by
  rw [h.live]
  constructor
  · rintro ⟨k, sl, hp, rfl, rfl, rfl⟩
    obtain ⟨rfl, -, hk, hv⟩ := PinTable.pinnedSlot_eq_some.1 hp
    exact ⟨k, sl, hk, hv, rfl⟩
  · rintro ⟨k, sl, hk, hv, heq⟩
    obtain ⟨rfl, rfl, rfl, rfl⟩ := LivePin.mk.inj heq
    exact ⟨k, sl, PinTable.pinnedSlot_eq_some.2 ⟨rfl, h.slot_lt hk, hk, hv⟩, rfl, rfl, rfl⟩

theorem Inv.not_pinned (h : s.Inv w) (hw : ∀ r ∈ s.live, r.handle ≠ word) : s.table.pinnedSlot w word = none := by
  rw [Option.eq_none_iff_forall_not_mem]
  rintro ⟨k, sl⟩ hp
  exact hw _ ((h.pinnedSlot_iff word sl.value sl.module sl.type).1 ⟨k, sl, hp, rfl, rfl, rfl⟩) rfl

/-- a free slot is one that no live pin has -/
theorem Inv.isFree_iff (h : s.Inv w) (k : Nat) :
    s.IsFree k ↔ k < s.table.slots.length ∧ ∀ r ∈ s.live, slotOf w r.handle ≠ k := by
  constructor
  · rintro ⟨sl, hk, hv⟩
    refine ⟨(List.getElem?_eq_some_iff.1 hk).1, fun r hr heq => ?_⟩
    obtain ⟨j, sl', hj, hv', rfl⟩ := (h.live r).1 hr
    rw [slotOf_handle (h.slot_lt hj)] at heq
    subst heq
    rw [hj] at hk
    cases hk
    exact hv' hv
  · rintro ⟨hlt, hno⟩
    refine ⟨s.table.slots[k], List.getElem?_eq_getElem hlt, ?_⟩
    by_contra hv
    have hk := List.getElem?_eq_getElem hlt
    refine hno _ ((h.live _).2 ⟨k, _, hk, hv, rfl⟩) ?_
    exact slotOf_handle (h.slot_lt hk) _

theorem Inv.empty : ({} : PinRun).Inv w where
  pins := Pins.Inv.empty
  free := ⟨[], .nil, List.nodup_nil, fun k => by simp [IsFree]⟩
  live r := by simp
  nodup := List.nodup_nil
  history i h hi := by simp at hi

/-! ## One step -/

/-- the slot a pin takes is new, or was the first of the free list -/
theorem pin_free {t t' : PinTable} {head : Nat} {free : List Nat} (hchain : FreeChain t.slots head free)
    (hhead : t.freeHead = head) (hnd : free.Nodup)
    (hnull : ∀ k ∈ free, ∃ sl, t.slots[k]? = some sl ∧ sl.value = .null) {value : Ref} {module : Option ModuleId}
    {type : Ty} {memory : Bool} {hd : Nat} (hp : t.pin w value module type memory = .ok (t', hd)) :
    ∃ rest, FreeChain t.slots t'.freeHead rest ∧ rest.Nodup ∧ t.nextSlot ∉ rest ∧
      (∀ k, k ∈ rest ↔ k ∈ free ∧ k ≠ t.nextSlot) ∧
      ∀ sl, t.slots[t.nextSlot]? = some sl → sl.value = .null := by
  cases hchain with
  | nil =>
    have hn : t.nextSlot = t.slots.length := by simp [PinTable.nextSlot, hhead]
    have ht : t'.freeHead = 0 := by
      simp only [PinTable.pin, hhead, ne_eq, not_true_eq_false, if_false] at hp
      split_ifs at hp
      rw [← (Prod.mk.inj (Except.ok.inj hp)).1]
    refine ⟨[], ht ▸ .nil, List.nodup_nil, by simp, by simp, fun sl hsl => ?_⟩
    rw [hn] at hsl
    simp at hsl
  | @cons k sl rest hk hrest =>
    have hn : t.nextSlot = k := by simp [PinTable.nextSlot, hhead]
    have ht : t'.freeHead = sl.nextFree := by
      simp only [PinTable.pin, hhead, ne_eq, Nat.add_eq_zero_iff, one_ne_zero, and_false, not_false_eq_true, if_true,
        Nat.add_sub_cancel, hk, Option.getD_some] at hp
      rw [← (Prod.mk.inj (Except.ok.inj hp)).1]
    obtain ⟨hnot, hnd'⟩ := List.nodup_cons.1 hnd
    rw [hn, ht]
    refine ⟨rest, hrest, hnd', hnot, fun j => ?_, fun sl' hsl' => ?_⟩
    · rw [List.mem_cons]
      constructor
      · exact fun hj => ⟨Or.inr hj, fun heq => hnot (heq ▸ hj)⟩
      · rintro ⟨rfl | hj, hne⟩
        · exact absurd rfl hne
        · exact hj
    · obtain ⟨sl'', hsl'', hz⟩ := hnull k List.mem_cons_self
      rw [hsl''] at hsl'
      cases hsl'
      exact hz

/-- the slot a pin takes becomes a live pin, and leaves the free list if it was on it -/
theorem Inv.pin (h : s.Inv w) {value : Ref} {module : Option ModuleId} {type : Ty} {memory : Bool}
    (hv : value ≠ .null) : (s.step w (.pin value module type memory)).Inv w := by
  cases hp : s.table.pin w value module type memory with
  | error e => simpa only [step, hp] using h
  | ok r =>
    obtain ⟨t, hd⟩ := r
    simp only [step, hp]
    have hhead : s.table.freeHead ≤ s.table.slots.length := h.pins.freeHead
    obtain ⟨rfl, hslots, hlen, hnew, -⟩ := PinTable.pin_spec hhead hp
    obtain ⟨free, hchain, hnd, hfree⟩ := h.free
    have hpins : (⟨t, s.released⟩ : Pins).Inv w := h.pins.pin (Pins.pin_eq_ok.2 ⟨hp, rfl⟩)
    obtain ⟨rest, hrest, hnd', hnot, hmem, hnull⟩ := pin_free hchain rfl hnd (fun k => (hfree k).1) hp
    set g := ((s.table.slots[s.table.nextSlot]?).getD {}).generation with hg
    have hlt : s.table.nextSlot < 2 ^ w.slotBits := by
      have := hpins.size
      simp only at this
      omega
    refine ⟨hpins, ⟨rest, hrest.congr fun k hk => ?_, hnd', fun k => ?_⟩, fun r => ?_, ?_, h.history⟩
    · rw [hslots, if_neg fun heq => hnot (by rwa [← heq])]
    · rw [hmem, hfree]
      simp only [IsFree, hslots]
      by_cases hk : k = s.table.nextSlot
      · subst hk
        simp [hv]
      · simp [hk]
    · simp only [List.mem_cons, h.live, hslots]
      constructor
      · rintro (rfl | ⟨k, sl, hk, hsv, rfl⟩)
        · exact ⟨_, _, if_pos rfl, hv, rfl⟩
        · refine ⟨k, sl, ?_, hsv, rfl⟩
          rw [if_neg, hk]
          rintro rfl
          exact hsv (hnull sl hk)
      · rintro ⟨k, sl, hk, hsv, rfl⟩
        split_ifs at hk with hkn
        · subst hkn
          cases hk
          exact Or.inl rfl
        · exact Or.inr ⟨k, sl, hk, hsv, rfl⟩
    · simp only [List.map_cons, List.nodup_cons]
      refine ⟨fun hin => ?_, h.nodup⟩
      obtain ⟨r, hr, heq⟩ := List.mem_map.1 hin
      obtain ⟨k, sl, hk, hsv, rfl⟩ := (h.live r).1 hr
      have hslot := congrArg (slotOf w) heq
      rw [slotOf_handle (h.slot_lt hk), slotOf_handle hlt] at hslot
      subst hslot
      exact hsv (hnull sl hk)

/-- a released slot becomes the first of the free list, and its handle is the newest one released -/
theorem Inv.unpin (h : s.Inv w) (word : Nat) : (s.step w (.unpin word)).Inv w := by
  by_cases hzero : word = 0
  · simpa only [step, hzero, if_true] using h
  cases hu : s.table.unpin w word with
  | none => simpa only [step, hzero, if_false, hu] using h
  | some t =>
    simp only [step, hzero, if_false, hu]
    rcases PinTable.unpin_spec hu with ⟨hz, -⟩ | ⟨k, sl, hp, -, rfl⟩
    · exact absurd hz hzero
    obtain ⟨rfl, hk, hget, hvalue⟩ := PinTable.pinnedSlot_eq_some.1 hp
    have hpu : s.pins.unpin w (handle w k sl.generation) =
        some ⟨⟨s.table.slots.set k (PinTable.freed w sl s.table.freeHead), k + 1⟩,
          handle w k sl.generation :: s.released⟩ := by
      simp [Pins.unpin, PinRun.pins, hu, hzero]
    obtain ⟨free, hchain, hnd, hfree⟩ := h.free
    have hklt : k < s.table.slots.length := (List.getElem?_eq_some_iff.1 hget).1
    have hnot : k ∉ free := by
      rw [hfree]
      rintro ⟨sl', hsl', hnull⟩
      rw [hget] at hsl'
      cases hsl'
      exact hvalue hnull
    have hset : ∀ j, (s.table.slots.set k (PinTable.freed w sl s.table.freeHead))[j]? =
        if j = k then some (PinTable.freed w sl s.table.freeHead) else s.table.slots[j]? := by
      intro j
      rw [List.getElem?_set]
      by_cases hj : j = k
      · simp [hj, hklt]
      · simp [hj, Ne.symm hj]
    refine ⟨h.pins.unpin hpu, ⟨k :: free, .cons ((hset k).trans (if_pos rfl)) (hchain.congr fun j hj => ?_),
      List.nodup_cons.2 ⟨hnot, hnd⟩, fun j => ?_⟩, fun r => ?_, ?_, fun i word hi => ?_⟩
    · rw [hset, if_neg]
      rintro rfl
      exact hnot hj
    · simp only [List.mem_cons, hfree, IsFree, hset]
      by_cases hj : j = k
      · simp [hj, PinTable.freed]
      · simp [hj]
    · simp only [List.mem_filter, h.live, hset, decide_eq_true_eq]
      constructor
      · rintro ⟨⟨j, sl', hj, hv', rfl⟩, hne⟩
        refine ⟨j, sl', ?_, hv', rfl⟩
        rw [if_neg, hj]
        rintro rfl
        rw [hget] at hj
        cases hj
        exact hne rfl
      · rintro ⟨j, sl', hj, hv', rfl⟩
        split_ifs at hj with hjk
        · cases hj
          exact absurd rfl hv'
        · refine ⟨⟨j, sl', hj, hv', rfl⟩, fun heq => hjk ?_⟩
          have hslot := congrArg (slotOf w) heq
          rwa [slotOf_handle (h.slot_lt hj), slotOf_handle hk] at hslot
    · exact h.nodup.sublist (List.Sublist.map _ List.filter_sublist)
    · cases i with
      | zero =>
        simp only [List.getElem?_cons_zero, Option.some.injEq] at hi
        subst hi
        rw [slotOf_handle hk, h.pins.generation k sl hget]
        rfl
      | succ i =>
        simp only [List.getElem?_cons_succ] at hi
        exact h.history i word hi

theorem Inv.step (h : s.Inv w) {o : PinOp} (ho : o.Valid) : (s.step w o).Inv w := by
  cases o with
  | pin value module type memory => exact h.pin ho
  | unpin word => exact h.unpin word

theorem Inv.run {ops : List PinOp} (h : ∀ o ∈ ops, o.Valid) : (run w ops).Inv w := by
  suffices ∀ s : PinRun, s.Inv w → (ops.foldl (PinRun.step w) s).Inv w from this _ .empty
  induction ops with
  | nil => exact fun s hs => hs
  | cons o ops ih =>
    intro s hs
    exact ih (fun o' ho' => h o' (List.mem_cons_of_mem _ ho')) _ (hs.step (h o List.mem_cons_self))

/-- a released handle that is accepted again has seen a whole round of generations: its slot was released at least as
often as there are generations, from its own release on -/
theorem Inv.accepted_again (h : s.Inv w) {i : Nat} (hi : s.released[i]? = some word)
    (ha : (s.table.pinnedSlot w word).isSome) :
    w.generations ≤ countSlot w (s.released.take (i + 1)) (slotOf w word) := by
  obtain ⟨⟨k, sl⟩, hp⟩ := Option.isSome_iff_exists.1 ha
  obtain ⟨hword, hk, hget, -⟩ := PinTable.pinnedSlot_eq_some.1 hp
  have hslot : slotOf w word = k := hword ▸ slotOf_handle hk _
  have hold := h.history i word hi
  rw [hslot] at hold ⊢
  -- the generation now and then agree, so the releases in between are a multiple of the generations
  have hgen : sl.generation = countSlot w (s.released.drop (i + 1)) k % w.generations := by
    have := congrArg (generationOf w) (hword.symm.trans hold)
    rwa [generationOf_handle hk, generationOf_handle hk] at this
  have hnow : sl.generation = countSlot w s.released k % w.generations := h.pins.generation k sl hget
  have hsplit : countSlot w s.released k =
      countSlot w (s.released.take (i + 1)) k + countSlot w (s.released.drop (i + 1)) k := by
    rw [countSlot, countSlot, countSlot, ← List.countP_append, List.take_append_drop]
  have hmod : (countSlot w (s.released.take (i + 1)) k + countSlot w (s.released.drop (i + 1)) k) % w.generations =
      (0 + countSlot w (s.released.drop (i + 1)) k) % w.generations := by
    rw [← hsplit, ← hnow, hgen, Nat.zero_add]
  have hdvd : w.generations ∣ countSlot w (s.released.take (i + 1)) k :=
    Nat.modEq_zero_iff_dvd.1 (Nat.ModEq.add_right_cancel' _ hmod)
  have hpos : 0 < countSlot w (s.released.take (i + 1)) k := by
    refine List.countP_pos_iff.2 ⟨word, ?_, by simp [hslot]⟩
    exact List.mem_of_getElem? (List.getElem?_take_of_lt (Nat.lt_succ_self i) ▸ hi)
  exact Nat.le_of_dvd hpos hdvd

/-- **Pin table.** After any sequence of pins and releases from no table, with any words released and any allocation
failing: the free list goes through every slot without a live pin once, and through no other; live handles are
different; a word names a slot exactly when it is a live handle, with the value, module and type that were pinned; a
released handle is accepted again only after its slot was released as often as there are generations; and a pin that
fails and a release of a word that is not live change nothing. -/
theorem pin_table (w : PtrWidth) (ops : List PinOp) (hv : ∀ o ∈ ops, o.Valid) :
    let s := run w ops
    (∃ free, FreeChain s.table.slots s.table.freeHead free ∧ free.Nodup ∧
      ∀ k, k ∈ free ↔ k < s.table.slots.length ∧ ∀ r ∈ s.live, slotOf w r.handle ≠ k) ∧
    (s.live.map LivePin.handle).Nodup ∧
    (∀ word value module type,
      (∃ k sl, s.table.pinnedSlot w word = some (k, sl) ∧ sl.value = value ∧ sl.module = module ∧ sl.type = type) ↔
        ⟨word, value, module, type⟩ ∈ s.live) ∧
    (∀ i word, s.released[i]? = some word → (s.table.pinnedSlot w word).isSome →
      w.generations ≤ countSlot w (s.released.take (i + 1)) (slotOf w word)) ∧
    (∀ value module type memory e, s.table.pin w value module type memory = .error e →
      s.step w (.pin value module type memory) = s) ∧
    ∀ word, (∀ r ∈ s.live, r.handle ≠ word) → s.step w (.unpin word) = s := by
  intro s
  have h : s.Inv w := .run hv
  refine ⟨?_, h.nodup, h.pinnedSlot_iff, fun i word => h.accepted_again, fun value module type memory e he => ?_,
    fun word hw => ?_⟩
  · obtain ⟨free, hchain, hnd, hfree⟩ := h.free
    exact ⟨free, hchain, hnd, fun k => (hfree k).trans (h.isFree_iff k)⟩
  · simp only [step, he]
  · by_cases hz : word = 0 <;> simp [step, PinTable.unpin, h.not_pinned hw, hz]

/-- two pins, a release of the first, of its stale handle, and a new pin of the same slot -/
theorem pin_table_sample :
    let ops := [PinOp.pin (.obj 1) none .i32 true, .pin (.obj 2) none .i32 true, .unpin (handle .w64 0 0),
      .unpin (handle .w64 0 0), .pin (.obj 3) (some 0) .i64 true]
    (run .w64 ops).live = [⟨handle .w64 0 1, .obj 3, some 0, .i64⟩, ⟨handle .w64 1 0, .obj 2, none, .i32⟩] ∧
      ((run .w64 ops).live.map LivePin.handle).Nodup :=
  ⟨by decide, (pin_table .w64 _ (by simp [PinOp.Valid])).2.1⟩

end PinRun

end Wah
