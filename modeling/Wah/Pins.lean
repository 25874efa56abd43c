/-
Pinned references: the table of slots behind the handles a host keeps, and the handles it rejects.

Model:
- a handle is a word with the tag `WAH_PIN_TAG` in its lowest bits, then the index of a slot and the generation of that
  slot. On 64-bit targets indices have 32 bits and generations 30, on 32-bit targets 20 and 10;
- releasing a handle frees its slot and bumps the generation, which wraps at the width above;
- `Pins` is a table with the handles released so far, which the source does not keep.

Results, for every table that pins and releases leave behind (`Pins.Inv`):
- `released_rejected_iff`: every released handle is rejected exactly when no slot in use was released as many times as
  there are generations.
-/
import Wah.Heap
import Wah.Lifecycle

namespace Wah

/-! ## Words and handles -/

/-- `UINTPTR_MAX`, by the target -/
inductive PtrWidth where
  | w32 | w64
deriving DecidableEq, Repr

/-- `WAH_PIN_SLOT_BITS` -/
def PtrWidth.slotBits : PtrWidth → Nat
  | .w32 => 20
  | .w64 => 32

/-- the bits of `WAH_PIN_GEN_MASK` -/
def PtrWidth.genBits : PtrWidth → Nat
  | .w32 => 10
  | .w64 => 30

/-- the number of generations of a slot -/
abbrev PtrWidth.generations (w : PtrWidth) : Nat := 2 ^ w.genBits

/-- `WAH_PIN_TAG` -/
def pinTag : Nat := 2

/-- the reference of a slot and a generation: shifts and disjoint bits, as sums -/
def handle (w : PtrWidth) (slot generation : Nat) : Nat := (generation * 2 ^ w.slotBits + slot) * 4 + pinTag

/-- the index of the slot in a handle -/
def slotOf (w : PtrWidth) (word : Nat) : Nat := word / 4 % 2 ^ w.slotBits

/-- the generation in a handle -/
def generationOf (w : PtrWidth) (word : Nat) : Nat := word / 4 / 2 ^ w.slotBits

/-! ## The table -/

/-- `wah_pin_slot_t` -/
structure PinSlot where
  value : Ref := .null
  module : Option ModuleId := none
  type : Ty := .ref false (.abs .any)
  generation : Nat := 0
  nextFree : Nat := 0
deriving DecidableEq, Repr

/-- `wah_pin_table_t`; `slot_count` is the length of `slots`, and no table is an empty one -/
structure PinTable where
  slots : List PinSlot := []
  freeHead : Nat := 0
deriving DecidableEq, Repr

namespace PinTable

/-- `wah_pinned_slot`, with the index of the slot -/
def pinnedSlot (w : PtrWidth) (t : PinTable) (word : Nat) : Option (Nat × PinSlot) :=
  if word % 4 ≠ pinTag then none
  else
    match t.slots[slotOf w word]? with
    | none => none
    | some s => if s.value ≠ .null ∧ s.generation = generationOf w word then some (slotOf w word, s) else none

/-- the slot the next pin takes -/
def nextSlot (t : PinTable) : Nat := if t.freeHead ≠ 0 then t.freeHead - 1 else t.slots.length

/-- `wah_pin`; `memory` is whether the table can grow. `wah_grow_array` stops at 2^31 slots. -/
def pin (w : PtrWidth) (t : PinTable) (value : Ref) (module : Option ModuleId) (type : Ty) (memory : Bool) :
    Except ApiError (PinTable × Nat) :=
  if t.freeHead ≠ 0 then
    let slot := t.freeHead - 1
    let old := (t.slots[slot]?).getD {}
    .ok (⟨t.slots.set slot ⟨value, module, type, old.generation, 0⟩, old.nextFree⟩, handle w slot old.generation)
  else if t.slots.length ≥ 2 ^ w.slotBits ∨ t.slots.length ≥ 2 ^ 31 then .error .tooLarge
  else if !memory then .error .outOfMemory
  else .ok (⟨t.slots ++ [⟨value, module, type, 0, 0⟩], 0⟩, handle w t.slots.length 0)

/-- a slot that is released -/
def freed (w : PtrWidth) (s : PinSlot) (freeHead : Nat) : PinSlot :=
  { s with value := .null, generation := (s.generation + 1) % w.generations, nextFree := freeHead }

/-- `wah_unpin`; none when the reference is not pinned -/
def unpin (w : PtrWidth) (t : PinTable) (word : Nat) : Option PinTable :=
  if word = 0 then some t
  else
    match t.pinnedSlot w word with
    | none => none
    | some (k, s) => some ⟨t.slots.set k (freed w s t.freeHead), k + 1⟩

end PinTable

/-! ## Handles released so far -/

/-- the pins of a context, with every handle released so far -/
structure Pins where
  table : PinTable := {}
  released : List Nat := []
deriving DecidableEq, Repr

namespace Pins

def pin (w : PtrWidth) (p : Pins) (value : Ref) (module : Option ModuleId) (type : Ty) (memory : Bool) :
    Except ApiError (Pins × Nat) :=
  (p.table.pin w value module type memory).map fun (t, h) => ({ p with table := t }, h)

def unpin (w : PtrWidth) (p : Pins) (word : Nat) : Option Pins :=
  (p.table.unpin w word).map fun t => ⟨t, if word = 0 then p.released else word :: p.released⟩

/-- how often a slot was released -/
def releases (w : PtrWidth) (p : Pins) (k : Nat) : Nat := p.released.countP fun h => decide (slotOf w h = k)

/-- no slot in use was released as many times as there are generations -/
def Fresh (w : PtrWidth) (p : Pins) : Prop :=
  ∀ k s, p.table.slots[k]? = some s → s.value ≠ .null → p.releases w k < w.generations

/-- what pins and releases keep: links stay in the table, and generations count releases -/
structure Inv (w : PtrWidth) (p : Pins) : Prop where
  size : p.table.slots.length ≤ 2 ^ w.slotBits
  freeHead : p.table.freeHead ≤ p.table.slots.length
  nextFree : ∀ s ∈ p.table.slots, s.nextFree ≤ p.table.slots.length
  generation : ∀ k s, p.table.slots[k]? = some s → s.generation = p.releases w k % w.generations
  unused : ∀ k, p.table.slots.length ≤ k → p.releases w k = 0
  stale : ∀ h ∈ p.released, ∃ r < p.releases w (slotOf w h), h = handle w (slotOf w h) (r % w.generations)
  complete : ∀ k, ∀ r < p.releases w k, handle w k (r % w.generations) ∈ p.released

end Pins

/-! ## Handles and what they name -/

section
variable {w : PtrWidth}

theorem PtrWidth.generations_pos (w : PtrWidth) : 0 < w.generations := Nat.two_pow_pos _

@[simp] theorem handle_mod_four (slot generation : Nat) : handle w slot generation % 4 = pinTag := by
  unfold handle pinTag
  omega

theorem handle_div_four (slot generation : Nat) :
    handle w slot generation / 4 = generation * 2 ^ w.slotBits + slot := by
  unfold handle pinTag
  omega

theorem slotOf_handle {slot : Nat} (h : slot < 2 ^ w.slotBits) (generation : Nat) :
    slotOf w (handle w slot generation) = slot := by
  rw [slotOf, handle_div_four, Nat.add_comm, Nat.add_mul_mod_self_right, Nat.mod_eq_of_lt h]

theorem generationOf_handle {slot : Nat} (h : slot < 2 ^ w.slotBits) (generation : Nat) :
    generationOf w (handle w slot generation) = generation := by
  rw [generationOf, handle_div_four, Nat.add_comm, Nat.add_mul_div_right _ _ (Nat.two_pow_pos _),
    Nat.div_eq_of_lt h, Nat.zero_add]

theorem slotOf_lt (word : Nat) : slotOf w word < 2 ^ w.slotBits := Nat.mod_lt _ (Nat.two_pow_pos _)

/-- a tagged word is the handle of its slot and generation -/
theorem eq_handle {word : Nat} (h : word % 4 = pinTag) : word = handle w (slotOf w word) (generationOf w word) := by
  have hdiv : word / 4 = word / 4 / 2 ^ w.slotBits * 2 ^ w.slotBits + word / 4 % 2 ^ w.slotBits :=
    (Nat.div_add_mod' _ _).symm
  unfold handle slotOf generationOf
  rw [← hdiv, ← h]
  omega

/-! ## What the operations on the table do -/

variable {t t' : PinTable} {word : Nat}

namespace PinTable

theorem pinnedSlot_eq_some {k : Nat} {s : PinSlot} : t.pinnedSlot w word = some (k, s) ↔
    word = handle w k s.generation ∧ k < 2 ^ w.slotBits ∧ t.slots[k]? = some s ∧ s.value ≠ .null := by
  unfold pinnedSlot
  constructor
  · intro h
    split_ifs at h with htag
    split at h
    · simp at h
    · rename_i s' hs
      split_ifs at h with hlive
      obtain ⟨rfl, rfl⟩ : slotOf w word = k ∧ s' = s := by simpa using h
      refine ⟨?_, slotOf_lt word, hs, hlive.1⟩
      rw [hlive.2]
      exact eq_handle (not_not.1 htag)
  · rintro ⟨rfl, hk, hs, hvalue⟩
    rw [if_neg (by simp), slotOf_handle hk, hs]
    simp [hvalue, generationOf_handle hk]

/-- a pin writes one slot, at the generation it has, and answers with its handle -/
theorem pin_spec {value : Ref} {module : Option ModuleId} {type : Ty} {memory : Bool} {h : Nat}
    (hfree : t.freeHead ≤ t.slots.length) (hpin : t.pin w value module type memory = .ok (t', h)) :
    let generation := ((t.slots[t.nextSlot]?).getD {}).generation
    h = handle w t.nextSlot generation ∧
      (∀ k, t'.slots[k]? = if k = t.nextSlot then some ⟨value, module, type, generation, 0⟩ else t.slots[k]?) ∧
      t'.slots.length = max t.slots.length (t.nextSlot + 1) ∧
      (t.slots.length ≤ t.nextSlot → t.nextSlot = t.slots.length ∧ t.slots.length < 2 ^ w.slotBits) ∧
      (t'.freeHead = 0 ∨ ∃ s ∈ t.slots, t'.freeHead = s.nextFree) := by
  by_cases hf : t.freeHead = 0
  · have hnext : t.nextSlot = t.slots.length := by simp [nextSlot, hf]
    unfold pin at hpin
    rw [if_neg (by simpa using hf)] at hpin
    split_ifs at hpin with hlarge hmem
    obtain ⟨rfl, rfl⟩ := Prod.mk.inj (Except.ok.inj hpin)
    rw [hnext]
    refine ⟨by simp, fun k => ?_, by simp, fun _ => ⟨rfl, by omega⟩, Or.inl rfl⟩
    rcases Nat.lt_trichotomy k t.slots.length with hk | rfl | hk
    · rw [List.getElem?_append_left hk, if_neg (by omega)]
    · simp
    · rw [List.getElem?_eq_none (by simpa using hk), List.getElem?_eq_none hk.le, if_neg (by omega)]
  · have hnext : t.nextSlot = t.freeHead - 1 := by simp [nextSlot, hf]
    have hlt : t.freeHead - 1 < t.slots.length := by omega
    unfold pin at hpin
    rw [if_pos hf] at hpin
    obtain ⟨rfl, rfl⟩ := Prod.mk.inj (Except.ok.inj hpin)
    rw [hnext]
    refine ⟨rfl, fun k => ?_, ?_, fun hge => by omega, Or.inr ⟨t.slots[t.freeHead - 1], List.getElem_mem hlt, ?_⟩⟩
    · rw [List.getElem?_set]
      by_cases hk : k = t.freeHead - 1
      · simp [hk, hlt]
      · simp [hk, Ne.symm hk]
    · simp only [List.length_set]
      omega
    · simp [List.getElem?_eq_getElem hlt]

/-- a release that changes the table frees the slot of the handle -/
theorem unpin_spec (hunpin : t.unpin w word = some t') :
    (word = 0 ∧ t' = t) ∨ ∃ k s, t.pinnedSlot w word = some (k, s) ∧ word ≠ 0 ∧
      t' = ⟨t.slots.set k (freed w s t.freeHead), k + 1⟩ := by
  unfold unpin at hunpin
  split_ifs at hunpin with hzero
  · exact Or.inl ⟨hzero, (Option.some.inj hunpin).symm⟩
  · split at hunpin
    · simp at hunpin
    · rename_i k s hs
      exact Or.inr ⟨k, s, hs, hzero, (Option.some.inj hunpin).symm⟩

end PinTable

/-! ## Runs of pins and releases -/

namespace Pins
variable {p p' : Pins} {value : Ref} {module : Option ModuleId} {type : Ty} {memory : Bool} {h : Nat}

theorem pin_eq_ok : p.pin w value module type memory = .ok (p', h) ↔
    p.table.pin w value module type memory = .ok (p'.table, h) ∧ p'.released = p.released := by
  unfold pin
  cases p.table.pin w value module type memory with
  | error e => simp [Except.map]
  | ok r =>
    simp only [Except.map, Except.ok.injEq, Prod.mk.injEq]
    constructor
    · rintro ⟨rfl, rfl⟩
      exact ⟨rfl, rfl⟩
    · rintro ⟨hr, hrel⟩
      obtain ⟨t', rel'⟩ := p'
      cases hr
      cases hrel
      exact ⟨rfl, rfl⟩

theorem unpin_spec (hunpin : p.unpin w word = some p') :
    (word = 0 ∧ p' = p) ∨ ∃ k s, p.table.pinnedSlot w word = some (k, s) ∧
      p' = ⟨⟨p.table.slots.set k (PinTable.freed w s p.table.freeHead), k + 1⟩, word :: p.released⟩ := by
  unfold unpin at hunpin
  obtain ⟨t', ht', rfl⟩ := Option.map_eq_some_iff.1 hunpin
  rcases PinTable.unpin_spec ht' with ⟨rfl, rfl⟩ | ⟨k, s, hs, hzero, rfl⟩
  · exact Or.inl ⟨rfl, rfl⟩
  · exact Or.inr ⟨k, s, hs, by simp [hzero]⟩

theorem Inv.pin (hp : p.Inv w) (hpin : p.pin w value module type memory = .ok (p', h)) : p'.Inv w := by
  obtain ⟨hpin, hrel⟩ := pin_eq_ok.1 hpin
  obtain ⟨-, hslots, hlen, hnew, hhead⟩ := PinTable.pin_spec hp.freeHead hpin
  have hreleases : ∀ k, p'.releases w k = p.releases w k := fun k => by rw [releases, releases, hrel]
  have hle : p.table.slots.length ≤ p'.table.slots.length := by omega
  refine ⟨?_, ?_, fun s hs => ?_, fun k s hs => ?_, fun k hk => ?_, ?_, ?_⟩
  · have := hp.size
    by_cases hge : p.table.slots.length ≤ p.table.nextSlot
    · obtain ⟨heq, hlt⟩ := hnew hge
      omega
    · omega
  · rcases hhead with hzero | ⟨s, hs, heq⟩
    · omega
    · have := hp.nextFree s hs
      omega
  · obtain ⟨k, hk⟩ := List.mem_iff_getElem?.1 hs
    rw [hslots k] at hk
    split_ifs at hk with hkn
    · cases hk
      exact Nat.zero_le _
    · exact (hp.nextFree s (List.mem_iff_getElem?.2 ⟨k, hk⟩)).trans hle
  · rw [hreleases]
    rw [hslots k] at hs
    split_ifs at hs with hkn
    · cases hs
      subst hkn
      -- a reused slot has its generation, a new one starts at zero and was never released
      cases hold : p.table.slots[p.table.nextSlot]? with
      | some old => exact hp.generation _ old hold
      | none => simp [hp.unused _ (List.getElem?_eq_none_iff.1 hold)]
    · exact hp.generation k s hs
  · rw [hreleases]
    exact hp.unused k (hle.trans hk)
  · intro h' hh'
    rw [hrel] at hh'
    simpa only [hreleases] using hp.stale h' hh'
  · intro k r hr
    rw [hreleases] at hr
    rw [hrel]
    exact hp.complete k r hr

theorem Inv.unpin (hp : p.Inv w) (hunpin : p.unpin w word = some p') : p'.Inv w := by
  rcases unpin_spec hunpin with ⟨-, rfl⟩ | ⟨k, s, hs, rfl⟩
  · exact hp
  obtain ⟨rfl, hk, hget, hvalue⟩ := PinTable.pinnedSlot_eq_some.1 hs
  have hklt : k < p.table.slots.length := (List.getElem?_eq_some_iff.1 hget).1
  have hgen := hp.generation k s hget
  have hreleases : ∀ j, releases w ⟨⟨p.table.slots.set k (PinTable.freed w s p.table.freeHead), k + 1⟩,
      handle w k s.generation :: p.released⟩ j = p.releases w j + if j = k then 1 else 0 := by
    intro j
    simp only [releases, List.countP_cons, slotOf_handle hk, decide_eq_true_eq]
    congr 1
    simp only [eq_comm]
  refine ⟨by simpa using hp.size, by simpa using hklt, fun s' hs' => ?_, fun j s' hs' => ?_, fun j hj => ?_, ?_, ?_⟩
  · simp only [List.length_set]
    rcases List.mem_or_eq_of_mem_set hs' with hs' | rfl
    · exact hp.nextFree s' hs'
    · exact hp.freeHead
  · rw [hreleases]
    dsimp only at hs'
    rw [List.getElem?_set] at hs'
    split_ifs at hs' with hkj
    · cases hs'
      subst hkj
      simp [PinTable.freed, hgen, Nat.add_mod]
    · rw [if_neg (Ne.symm hkj), Nat.add_zero]
      exact hp.generation j s' hs'
  · simp only [List.length_set] at hj
    rw [hreleases, if_neg (by omega), hp.unused j hj]
  · intro h' hh'
    rw [hreleases]
    rcases List.mem_cons.1 hh' with rfl | hh'
    · refine ⟨p.releases w k, by simp [slotOf_handle hk], ?_⟩
      rw [slotOf_handle hk, hgen]
    · obtain ⟨r, hr, heq⟩ := hp.stale h' hh'
      exact ⟨r, by omega, heq⟩
  · intro j r hr
    rw [hreleases] at hr
    by_cases hold : r < p.releases w j
    · exact List.mem_cons_of_mem _ (hp.complete j r hold)
    · split_ifs at hr with hjk
      · subst hjk
        obtain rfl : r = p.releases w j := by omega
        rw [← hgen]
        exact List.mem_cons_self
      · omega

theorem Inv.empty : Inv w {} := by
  refine ⟨by simp, by simp, by simp, by simp, by simp [releases], by simp, by simp [releases]⟩

theorem Fresh.pin (hf : p.Fresh w) (hp : p.Inv w) (hnext : p.releases w p.table.nextSlot < w.generations)
    (hpin : p.pin w value module type memory = .ok (p', h)) : p'.Fresh w := by
  obtain ⟨hpin, hrel⟩ := pin_eq_ok.1 hpin
  obtain ⟨-, hslots, -⟩ := PinTable.pin_spec hp.freeHead hpin
  intro k s hs hvalue
  rw [releases, hrel, ← releases]
  rw [hslots k] at hs
  split_ifs at hs with hk
  · exact hk ▸ hnext
  · exact hf k s hs hvalue

theorem Fresh.unpin (hf : p.Fresh w) (hunpin : p.unpin w word = some p') : p'.Fresh w := by
  rcases unpin_spec hunpin with ⟨-, rfl⟩ | ⟨k, s, hs, rfl⟩
  · exact hf
  obtain ⟨rfl, hk, -⟩ := PinTable.pinnedSlot_eq_some.1 hs
  intro j s' hs' hvalue
  dsimp only at hs'
  rw [List.getElem?_set] at hs'
  split_ifs at hs' with hkj
  · cases hs'
    exact absurd rfl hvalue
  · have hj := hf j s' hs' hvalue
    rw [releases, List.countP_cons, slotOf_handle hk]
    simpa [hkj, releases] using hj

/-- **Which released handles are rejected.** All of them, as long as no slot in use was released as many times as there
are generations; past that the generation repeats one that a released handle has. -/
theorem released_rejected_iff (hp : p.Inv w) :
    (∀ h ∈ p.released, p.table.pinnedSlot w h = none) ↔ p.Fresh w := by
  constructor
  · intro hrej k s hs hvalue
    by_contra hge
    push Not at hge
    have hk : k < 2 ^ w.slotBits := ((List.getElem?_eq_some_iff.1 hs).1).trans_le hp.size
    have hpos := w.generations_pos
    -- the release one whole round of generations ago
    have hmem := hp.complete k (p.releases w k - w.generations) (by omega)
    have hgen : (p.releases w k - w.generations) % w.generations = s.generation := by
      rw [hp.generation k s hs]
      exact (Nat.mod_eq_sub_mod hge).symm
    rw [hgen] at hmem
    have hsome : p.table.pinnedSlot w (handle w k s.generation) = some (k, s) :=
      PinTable.pinnedSlot_eq_some.2 ⟨rfl, hk, hs, hvalue⟩
    rw [hrej _ hmem] at hsome
    cases hsome
  · intro hf h hh
    rw [Option.eq_none_iff_forall_not_mem]
    rintro ⟨k, s⟩ hks
    obtain ⟨heq, hk, hs, hvalue⟩ := PinTable.pinnedSlot_eq_some.1 hks
    have hlt := hf k s hs hvalue
    obtain ⟨r, hr, hhr⟩ := hp.stale h hh
    have hslot : slotOf w h = k := heq ▸ slotOf_handle hk _
    rw [hslot] at hr hhr
    have hgen : s.generation = r % w.generations := by
      have := congrArg (generationOf w) (heq.symm.trans hhr)
      rwa [generationOf_handle hk, generationOf_handle hk] at this
    rw [hp.generation k s hs, Nat.mod_eq_of_lt hlt, Nat.mod_eq_of_lt (hr.trans hlt)] at hgen
    omega

end Pins

end

end Wah
