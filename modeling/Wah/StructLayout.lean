/-
Struct layouts: the offsets of the fields of a struct type, allocated out of free slots.

Model:
- the function and its helpers are those of the source. The four slot lists are a function of the size class, and the
  slots an iteration pushes after its pop are a list, so that every point of an iteration can be spoken of;
- failing allocations only reject, and are left out, as are the `WAH_ERROR_MISUSE` checks of arguments that the only
  caller passes. `debug` is whether the layout is checked at the end.

Results:
- `build_struct_repr_info_layout`: fields are aligned, apart and inside; at most 15 bytes are wasted; at any point of
  the loop a size class has at most one free slot, and the free slots lie apart from each other and from the fields;
- `buildStructReprInfo_debug`: the debug check never fails.
-/
import Wah.Blocks
import Wah.Effects
import Wah.Pins
import Wah.TypeSection
import Mathlib.Data.List.DropRight

namespace Wah

/-! ## Field types -/

/-- `sizeof(void *)` -/
def PtrWidth.bytes : PtrWidth → Nat
  | .w32 => 4
  | .w64 => 8

/-- `SIZE_MAX` -/
def PtrWidth.sizeMax (w : PtrWidth) : Nat := 2 ^ (8 * w.bytes) - 1

/-- `wah_field_type_layout`: the size of a field and its `wah_repr_t` -/
def fieldTypeLayout (w : PtrWidth) : Ty → Except WahError (Nat × Int)
  | .packedI8 => .ok (1, reprNone)
  | .packedI16 => .ok (2, reprNone)
  | .i32 | .f32 => .ok (4, reprNone)
  | .i64 | .f64 => .ok (8, reprNone)
  | .v128 => .ok (16, reprNone)
  | .ref _ _ => .ok (w.bytes, reprRef)
  | .bot => .error .validationFailed

/-- the bytes a field takes -/
def fieldSize (w : PtrWidth) (ft : Ty) : Nat :=
  match fieldTypeLayout w ft with
  | .ok (size, _) => size
  | .error _ => 0

/-! ## Free slots -/

/-- `wah_layout_slot_list_t slots[4]`: the free offsets of each size class in order -/
abbrev Slots := Fin 4 → List Nat

/-- `wah_layout_slot_index`, which only knows the sizes 1, 2, 4 and 8 -/
def slotIndex : Nat → Fin 4
  | 1 => 0
  | 2 => 1
  | 4 => 2
  | 8 => 3
  | _ => 0

/-- `wah_layout_slot_push`: larger offsets at the end move up -/
def slotPush (slots : Slots) (size offset : Nat) : Slots :=
  let list := slots (slotIndex size)
  Function.update slots (slotIndex size)
    (list.rdropWhile (fun o => decide (offset < o)) ++ offset :: list.rtakeWhile fun o => decide (offset < o))

/-- `wah_layout_slot_pop` -/
def slotPop (slots : Slots) (size : Nat) : Option (Nat × Slots) :=
  match slots (slotIndex size) with
  | [] => none
  | offset :: rest => some (offset, Function.update slots (slotIndex size) rest)

/-- the pushes of `wah_layout_split_slot`: the upper half of what is left, while the field fits in the lower half -/
def splitSlot (fuel offset fromSize usedSize : Nat) : List (Nat × Nat) :=
  match fuel with
  | 0 => []
  | fuel + 1 =>
    if usedSize ≤ fromSize / 2 then
      (fromSize / 2, offset + fromSize / 2) :: splitSlot fuel offset (fromSize / 2) usedSize
    else []

/-- the pushes of `wah_layout_record_tail_slots` -/
def recordTailSlots (base usedSize : Nat) : List (Nat × Nat) :=
  ([8, 4, 2, 1].takeWhile fun size => decide (usedSize ≤ size)).map fun size => (size, base + size)

/-- the loop over `slot_size`: the first free slot of the given size or a larger one, with its size -/
def popLarger (fuel : Nat) (slots : Slots) (slotSize : Nat) : Option (Nat × Nat × Slots) :=
  match fuel with
  | 0 => none
  | fuel + 1 =>
    if slotSize ≤ 8 then
      match slotPop slots slotSize with
      | some (offset, slots') => some (offset, slotSize, slots')
      | none => popLarger fuel slots (slotSize * 2)
    else none

/-- slots of the given sizes pushed one after another -/
def pushAll (slots : Slots) (pushes : List (Nat × Nat)) : Slots :=
  pushes.foldl (fun slots p => slotPush slots p.1 p.2) slots

/-! ## The loop over the fields -/

/-- where an iteration puts its field: the slots after the pop, and those it pushes then -/
structure Placement where
  offset : Nat
  frontier : Nat
  slots : Slots
  pushes : List (Nat × Nat) := []

/-- the branches of an iteration: a slot of the size, a larger slot to be split, or 16 more bytes -/
def findPlace (slots : Slots) (frontier size : Nat) : Except WahError Placement :=
  if size = 16 then do
    ensureLimit (frontier ≤ uint32Max - 16)
    .ok { offset := frontier, frontier := frontier + 16, slots }
  else
    match slotPop slots size with
    | some (offset, slots') => .ok { offset, frontier, slots := slots' }
    | none =>
      match popLarger 4 slots (size * 2) with
      | some (offset, slotSize, slots') =>
        .ok { offset, frontier, slots := slots', pushes := splitSlot slotSize offset slotSize size }
      | none => do
        ensureLimit (frontier ≤ uint32Max - 16)
        .ok { offset := frontier, frontier := frontier + 16, slots, pushes := recordTailSlots frontier size }

/-- the locals of the loop -/
structure LayoutState where
  slots : Slots := fun _ => []
  frontier : Nat := 0
  liveEnd : Nat := 0
  fields : List ReprField := []

/-- one iteration -/
def placeField (w : PtrWidth) (s : LayoutState) (ft : Ty) : Except WahError LayoutState := do
  let (size, repr) ← fieldTypeLayout w ft
  ensure (0 < size ∧ size ≤ 16 ∧ size &&& (size - 1) = 0)
  let p ← findPlace s.slots s.frontier size
  ensureLimit (p.offset ≤ uint32Max - size)
  .ok { slots := pushAll p.slots p.pushes
        frontier := p.frontier
        liveEnd := if s.liveEnd < p.offset + size then p.offset + size else s.liveEnd
        fields := s.fields ++ [⟨p.offset, repr⟩] }

def placeFields (w : PtrWidth) (s : LayoutState) (fieldTypes : List Ty) : Except WahError LayoutState :=
  fieldTypes.foldlM (placeField w) s

/-- the state of the debug check: the bytes seen, and how many -/
structure FieldCheck where
  used : List Bool
  fieldBytes : Nat := 0

/-- the bytes of a field are marked -/
def FieldCheck.mark (c : FieldCheck) (offset size : Nat) : FieldCheck where
  used := c.used.mapIdx fun k u => u || decide (offset ≤ k ∧ k < offset + size)
  fieldBytes := c.fieldBytes + size

/-- one iteration of the debug check -/
def validateField (w : PtrWidth) (info : ReprInfo) (c : FieldCheck) (p : Ty × ReprField) :
    Except WahError FieldCheck := do
  let (size, repr) ← fieldTypeLayout w p.1
  ensure (0 < size ∧ size ≤ 16 ∧ size &&& (size - 1) = 0)
  ensure (p.2.offset &&& (size - 1) = 0)
  ensure (p.2.offset ≤ info.size ∧ size ≤ info.size - p.2.offset)
  ensure (p.2.reprId = repr)
  -- `used` is only there for structs of 1 to 4096 bytes
  ensure (c.used ≠ [] → ∀ j < size, c.used[p.2.offset + j]? ≠ some true)
  .ok (c.mark p.2.offset size)

/-- `wah_validate_struct_repr_info` in a debug build -/
def validateStructReprInfo (w : PtrWidth) (fieldTypes : List Ty) (info : ReprInfo) : Except WahError Unit := do
  let used := if 0 < info.size ∧ info.size ≤ 4096 then List.replicate info.size false else []
  let c ← (fieldTypes.zip info.fields).foldlM (validateField w info) { used }
  ensure (c.fieldBytes ≤ info.size ∧ info.size - c.fieldBytes ≤ 15)

/-- `wah_build_struct_repr_info` -/
def buildStructReprInfo (w : PtrWidth) (debug : Bool) (fieldTypes : List Ty) : Except WahError ReprInfo := do
  let s ← placeFields w {} fieldTypes
  let maxFields := (w.sizeMax - 16) / 8
  ensureLimit (¬ (maxFields < uint32Max ∧ maxFields < fieldTypes.length))
  let info : ReprInfo := ⟨.struct, s.liveEnd, s.fields⟩
  if debug then validateStructReprInfo w fieldTypes info
  .ok info

/-! ## Free slots as blocks -/

/-- the free bytes of the slot lists -/
def freeBlocks (slots : Slots) : List Block :=
  (List.finRange 4).flatMap fun i => (slots i).map fun o => ⟨o, 2 ^ i.val⟩

/-- a list that gains an element in one place of a concatenation -/
theorem flatMap_gain {ι α : Type*} {is : List ι} {i : ι} {f g : ι → List α} {x : α} (hi : i ∈ is) (hnodup : is.Nodup)
    (hgain : (g i).Perm (x :: f i)) (hsame : ∀ j ≠ i, g j = f j) : (is.flatMap g).Perm (x :: is.flatMap f) := by
  induction is with
  | nil => simp at hi
  | cons j is ih =>
    obtain ⟨hj, hnodup'⟩ := List.nodup_cons.mp hnodup
    rw [List.flatMap_cons, List.flatMap_cons]
    by_cases hij : j = i
    · subst hij
      have hrest : is.flatMap g = is.flatMap f :=
        List.flatMap_congr fun k hk => hsame k (ne_of_mem_of_not_mem hk hj)
      rw [hrest]
      exact hgain.append_right _
    · rw [hsame j hij]
      have hi' : i ∈ is := (List.mem_cons.mp hi).resolve_left (Ne.symm hij)
      exact ((ih hi' hnodup').append_left (f j)).trans List.perm_middle

theorem freeBlocks_gain {slots slots' : Slots} {i : Fin 4} {o : Nat} (hgain : (slots' i).Perm (o :: slots i))
    (hsame : ∀ j ≠ i, slots' j = slots j) : (freeBlocks slots').Perm (⟨o, 2 ^ i.val⟩ :: freeBlocks slots) :=
  flatMap_gain (List.mem_finRange i) (List.nodup_finRange 4) (hgain.map _) fun j hj => by rw [hsame j hj]

theorem slotIndex_pow (i : Fin 4) : slotIndex (2 ^ i.val) = i := by fin_cases i <;> rfl

@[simp] theorem slotPush_other {slots : Slots} {i j : Fin 4} {o : Nat} (hj : j ≠ i) :
    slotPush slots (2 ^ i.val) o j = slots j := by
  rw [slotPush, slotIndex_pow]
  exact Function.update_of_ne hj _ _

theorem slotPush_perm (slots : Slots) (i : Fin 4) (o : Nat) :
    (slotPush slots (2 ^ i.val) o i).Perm (o :: slots i) := by
  rw [slotPush, slotIndex_pow, Function.update_self]
  refine List.perm_middle.trans ?_
  rw [List.rdropWhile_append_rtakeWhile]

theorem slotPush_gain (slots : Slots) (i : Fin 4) (o : Nat) :
    (freeBlocks (slotPush slots (2 ^ i.val) o)).Perm (⟨o, 2 ^ i.val⟩ :: freeBlocks slots) :=
  freeBlocks_gain (slotPush_perm slots i o) fun _ hj => slotPush_other hj

/-- what a successful pop does -/
theorem slotPop_some {slots slots' : Slots} {i : Fin 4} {o : Nat} (h : slotPop slots (2 ^ i.val) = some (o, slots')) :
    slots i = o :: slots' i ∧ ∀ j ≠ i, slots' j = slots j := by
  rw [slotPop, slotIndex_pow] at h
  split at h
  · simp at h
  · rename_i o' rest hlist
    obtain ⟨rfl, rfl⟩ : o' = o ∧ Function.update slots i rest = slots' := by simpa using h
    exact ⟨by rw [hlist, Function.update_self], fun j hj => Function.update_of_ne hj _ _⟩

theorem slotPop_none {slots : Slots} {i : Fin 4} (h : slotPop slots (2 ^ i.val) = none) : slots i = [] := by
  rw [slotPop, slotIndex_pow] at h
  split at h
  · assumption
  · simp at h

theorem slotPop_loss {slots slots' : Slots} {i : Fin 4} {o : Nat} (h : slotPop slots (2 ^ i.val) = some (o, slots')) :
    (freeBlocks slots).Perm (⟨o, 2 ^ i.val⟩ :: freeBlocks slots') := by
  obtain ⟨hi, hother⟩ := slotPop_some h
  exact freeBlocks_gain (by rw [hi]) fun j hj => (hother j hj).symm

/-- no size class has two free slots -/
def Single (slots : Slots) : Prop := ∀ i, (slots i).length ≤ 1

theorem Single.push {slots : Slots} (h : Single slots) {i : Fin 4} (hi : slots i = []) (o : Nat) :
    Single (slotPush slots (2 ^ i.val) o) := by
  intro j
  by_cases hj : j = i
  · subst hj
    rw [(slotPush_perm slots j o).length_eq, hi]
    rfl
  · rw [slotPush_other hj]
    exact h j

theorem Single.pop {slots slots' : Slots} (h : Single slots) {i : Fin 4} {o : Nat}
    (hpop : slotPop slots (2 ^ i.val) = some (o, slots')) : Single slots' ∧ slots' i = [] := by
  obtain ⟨hi, hother⟩ := slotPop_some hpop
  have hlen := h i
  rw [hi, List.length_cons] at hlen
  have hempty : slots' i = [] := List.length_eq_zero_iff.mp (by omega)
  refine ⟨fun j => ?_, hempty⟩
  by_cases hj : j = i
  · rw [hj, hempty]; exact Nat.zero_le 1
  · rw [hother j hj]; exact h j

/-- one slot a size class: at most 15 free bytes -/
theorem Single.total_le {slots : Slots} (h : Single slots) : Block.total (freeBlocks slots) ≤ 15 := by
  have hclass : ∀ i : Fin 4, Block.total ((slots i).map fun o => ⟨o, 2 ^ i.val⟩) = (slots i).length * 2 ^ i.val := by
    intro i
    simp [Block.total, Function.comp_def]
  have h0 := h 0
  have h1 := h 1
  have h2 := h 2
  have h3 := h 3
  simp only [freeBlocks, List.finRange_succ, List.finRange_zero, List.map_cons, List.map_nil, List.flatMap_cons,
    List.flatMap_nil, Block.total_append, hclass, Block.total_nil]
  simp at *
  omega

/-! ## Splitting -/

/-- the lower part of a block split down to the size `2 ^ j`, and the slots pushed so far -/
structure Carved (n : Nat) (placed : List Block) (offset j m : Nat) (slots : Slots) : Prop where
  le : j ≤ m
  tiles : Block.Tiles n (⟨offset, 2 ^ m⟩ :: (placed ++ freeBlocks slots))
  single : Single slots
  /-- the classes of the halves to come -/
  empty : ∀ i : Fin 4, j ≤ i.val → i.val < m → slots i = []

theorem splitSlot_succ {fuel offset j m : Nat} (hj : j ≤ m) :
    splitSlot (fuel + 1) offset (2 ^ (m + 1)) (2 ^ j) =
      (2 ^ m, offset + 2 ^ m) :: splitSlot fuel offset (2 ^ m) (2 ^ j) := by
  have hhalf : 2 ^ (m + 1) / 2 = 2 ^ m := by rw [pow_succ]; exact Nat.mul_div_cancel _ (by decide)
  rw [splitSlot, hhalf, if_pos (Nat.pow_le_pow_right (by decide) hj)]

theorem splitSlot_self (fuel offset j : Nat) : splitSlot fuel offset (2 ^ j) (2 ^ j) = [] := by
  cases fuel with
  | zero => rfl
  | succ fuel =>
    have hhalf : ¬ 2 ^ j ≤ 2 ^ j / 2 := by
      have := Nat.two_pow_pos j
      omega
    rw [splitSlot, if_neg hhalf]

theorem Carved.halve {n : Nat} {placed : List Block} {offset j m : Nat} {slots : Slots}
    (h : Carved n placed offset j (m + 1) slots) (hj : j ≤ m) (hm : m < 4) :
    Carved n placed offset j m (slotPush slots (2 ^ m) (offset + 2 ^ m)) := by
  have hempty : slots ⟨m, hm⟩ = [] := h.empty ⟨m, hm⟩ hj (Nat.lt_succ_self m)
  have htiles := h.tiles
  rw [pow_succ, mul_comm] at htiles
  refine ⟨hj, htiles.halve.perm ?_, h.single.push (i := ⟨m, hm⟩) hempty _, fun i hi hi' => ?_⟩
  · have hpush := slotPush_gain slots ⟨m, hm⟩ (offset + 2 ^ m)
    refine List.Perm.cons _ ?_
    exact List.perm_middle.symm.trans (hpush.symm.append_left placed)
  · have hne : i ≠ ⟨m, hm⟩ := fun he => by simp [he] at hi'
    rw [slotPush_other (i := ⟨m, hm⟩) hne]
    exact h.empty i hi (by omega)

/-- every point of the pushes of a split, and its end -/
theorem Carved.split {n : Nat} {placed : List Block} {offset j m : Nat} {slots : Slots}
    (h : Carved n placed offset j m slots) (hm : m ≤ 4) {fuel : Nat} (hfuel : m ≤ fuel) (k : Nat) :
    ∃ m', Carved n placed offset j m' (pushAll slots ((splitSlot fuel offset (2 ^ m) (2 ^ j)).take k)) ∧
      ((splitSlot fuel offset (2 ^ m) (2 ^ j)).length ≤ k → m' = j) := by
  induction m generalizing slots k fuel with
  | zero =>
    obtain rfl : j = 0 := Nat.le_zero.mp h.le
    rw [splitSlot_self]
    exact ⟨0, by simpa [pushAll] using h, fun _ => rfl⟩
  | succ m ih =>
    rcases Nat.lt_or_ge m j with hj | hj
    · obtain rfl : j = m + 1 := Nat.le_antisymm h.le hj
      rw [splitSlot_self]
      exact ⟨m + 1, by simpa [pushAll] using h, fun _ => rfl⟩
    · obtain ⟨fuel, rfl⟩ : ∃ f, fuel = f + 1 := ⟨fuel - 1, by omega⟩
      rw [splitSlot_succ hj]
      cases k with
      | zero => exact ⟨m + 1, by simpa [pushAll] using h, fun hk => by simp at hk⟩
      | succ k =>
        have hfuel' : m ≤ fuel := by omega
        obtain ⟨m', hm', hend⟩ := ih (h.halve hj (by omega)) (by omega) hfuel' k
        exact ⟨m', hm', fun hk => hend (by simpa using hk)⟩

/-- a fresh block of 16 bytes is split like a slot -/
theorem recordTailSlots_eq {j : Nat} (hj : j ≤ 4) (offset : Nat) :
    recordTailSlots offset (2 ^ j) = splitSlot 16 offset (2 ^ 4) (2 ^ j) := by
  interval_cases j <;> rfl

/-! ## Places -/

theorem two_pow_le_eight {m : Nat} : 2 ^ m ≤ 8 ↔ m < 4 := by
  rw [show (8 : Nat) = 2 ^ 3 from rfl, Nat.pow_le_pow_iff_right (by decide)]
  omega

/-- the slot found by the loop: all smaller classes are empty -/
theorem popLarger_some {fuel m₀ : Nat} {slots slots' : Slots} {o size : Nat}
    (h : popLarger fuel slots (2 ^ m₀) = some (o, size, slots')) :
    ∃ i : Fin 4, m₀ ≤ i.val ∧ size = 2 ^ i.val ∧ slotPop slots (2 ^ i.val) = some (o, slots') ∧
      ∀ k : Fin 4, m₀ ≤ k.val → k.val < i.val → slots k = [] := by
  induction fuel generalizing m₀ with
  | zero => simp [popLarger] at h
  | succ fuel ih =>
    rw [popLarger] at h
    split_ifs at h with hle
    let i : Fin 4 := ⟨m₀, two_pow_le_eight.mp hle⟩
    split at h
    · rename_i o' slots'' hpop
      obtain ⟨rfl, rfl, rfl⟩ : o' = o ∧ 2 ^ m₀ = size ∧ slots'' = slots' := by simpa using h
      exact ⟨i, le_rfl, rfl, hpop, fun k hk hk' => absurd hk' (Nat.not_lt.mpr hk)⟩
    · rename_i hpop
      rw [← pow_succ] at h
      obtain ⟨i', hi', hsize, hpop', hempty⟩ := ih h
      refine ⟨i', by omega, hsize, hpop', fun k hk hk' => ?_⟩
      rcases Nat.eq_or_lt_of_le hk with heq | hlt
      · obtain rfl : k = i := Fin.ext heq.symm
        exact slotPop_none hpop
      · exact hempty k hlt hk'

theorem popLarger_none {fuel m₀ : Nat} {slots : Slots} (h : popLarger fuel slots (2 ^ m₀) = none)
    (hfuel : 4 ≤ fuel + m₀) (k : Fin 4) (hk : m₀ ≤ k.val) : slots k = [] := by
  induction fuel generalizing m₀ with
  | zero => omega
  | succ fuel ih =>
    rw [popLarger, if_pos (two_pow_le_eight.mpr (by omega))] at h
    split at h
    · simp at h
    · rename_i hpop
      rcases Nat.eq_or_lt_of_le hk with heq | hlt
      · subst heq
        exact slotPop_none hpop
      · rw [← pow_succ] at h
        exact ih h (by omega) hlt

/-- a slot popped off a tiling is the block to be split -/
theorem carved_of_pop {n : Nat} {placed : List Block} {slots slots' : Slots} {j : Nat} {i : Fin 4} {o : Nat}
    (htiles : Block.Tiles n (placed ++ freeBlocks slots)) (hsingle : Single slots) (hj : j ≤ i.val)
    (hpop : slotPop slots (2 ^ i.val) = some (o, slots'))
    (hempty : ∀ k : Fin 4, j ≤ k.val → k.val < i.val → slots k = []) : Carved n placed o j i.val slots' where
  le := hj
  tiles := htiles.perm (((slotPop_loss hpop).append_left placed).trans List.perm_middle)
  single := (hsingle.pop hpop).1
  empty k hk hk' := by
    rw [(slotPop_some hpop).2 k fun he => by simp [he] at hk']
    exact hempty k hk hk'

/-- 16 more bytes are a block to be split -/
theorem carved_of_frontier {n : Nat} {placed : List Block} {slots : Slots} {j : Nat}
    (htiles : Block.Tiles n (placed ++ freeBlocks slots)) (hsingle : Single slots) (hn : 16 ∣ n) (hj : j ≤ 4)
    (hempty : ∀ k : Fin 4, j ≤ k.val → slots k = []) : Carved (n + 16) placed n j 4 slots where
  le := hj
  tiles := htiles.extend hn
  single := hsingle
  empty k hk _ := hempty k hk

/-- every branch of an iteration splits a block down to the size of the field -/
theorem findPlace_carved {frontier j : Nat} {placed : List Block} {slots : Slots} {p : Placement}
    (htiles : Block.Tiles frontier (placed ++ freeBlocks slots)) (hsingle : Single slots) (hn : 16 ∣ frontier)
    (hj : j ≤ 4) (h : findPlace slots frontier (2 ^ j) = .ok p) :
    frontier ≤ p.frontier ∧ 16 ∣ p.frontier ∧ ∃ m ≤ 4, ∃ fuel, m ≤ fuel ∧
      p.pushes = splitSlot fuel p.offset (2 ^ m) (2 ^ j) ∧ Carved p.frontier placed p.offset j m p.slots := by
  have hn' : 16 ∣ frontier + 16 := hn.add (dvd_refl 16)
  rw [findPlace] at h
  split_ifs at h with hsixteen
  · obtain rfl : j = 4 := Nat.pow_right_injective le_rfl hsixteen
    obtain ⟨-, rfl⟩ : frontier ≤ uint32Max - 16 ∧ _ = p := by simpa using h
    refine ⟨Nat.le_add_right _ 16, hn', 4, le_rfl, 4, le_rfl, (splitSlot_self 4 frontier 4).symm, ?_⟩
    exact carved_of_frontier htiles hsingle hn le_rfl fun k hk => absurd k.isLt (by omega)
  · have hj' : j < 4 := lt_of_le_of_ne hj fun he => hsixteen (by rw [he]; rfl)
    split at h
    · rename_i o slots' hpop
      obtain rfl : _ = p := by simpa using h
      refine ⟨le_rfl, hn, j, hj, j, le_rfl, (splitSlot_self j o j).symm, ?_⟩
      exact carved_of_pop (i := ⟨j, hj'⟩) htiles hsingle le_rfl hpop fun k hk hk' => absurd hk' (Nat.not_lt.mpr hk)
    · rename_i hnone
      have hself : slots ⟨j, hj'⟩ = [] := slotPop_none (i := ⟨j, hj'⟩) hnone
      rw [← pow_succ] at h
      split at h
      · rename_i o size slots' hlarger
        obtain rfl : _ = p := by simpa using h
        obtain ⟨i, hi, rfl, hpop, hempty⟩ := popLarger_some hlarger
        have hfuel : i.val ≤ 2 ^ i.val := Nat.lt_two_pow_self.le
        refine ⟨le_rfl, hn, i.val, by omega, 2 ^ i.val, hfuel, rfl, carved_of_pop htiles hsingle (by omega) hpop ?_⟩
        intro k hk hk'
        rcases Nat.eq_or_lt_of_le hk with heq | hlt
        · obtain rfl : k = ⟨j, hj'⟩ := Fin.ext heq.symm
          exact hself
        · exact hempty k hlt hk'
      · rename_i hlarger
        obtain ⟨-, rfl⟩ : frontier ≤ uint32Max - 16 ∧ _ = p := by simpa using h
        refine ⟨Nat.le_add_right _ 16, hn', 4, le_rfl, 16, by decide, recordTailSlots_eq hj frontier, ?_⟩
        refine carved_of_frontier htiles hsingle hn hj fun k hk => ?_
        rcases Nat.eq_or_lt_of_le hk with heq | hlt
        · obtain rfl : k = ⟨j, hj'⟩ := Fin.ext heq.symm
          exact hself
        · exact popLarger_none hlarger (by omega) k hlt

/-! ## The loop -/

/-- the fields as blocks -/
def fieldBlocks (w : PtrWidth) (fieldTypes : List Ty) (fields : List ReprField) : List Block :=
  List.zipWith (fun ft f => ⟨f.offset, fieldSize w ft⟩) fieldTypes fields

theorem fieldTypeLayout_pow {w : PtrWidth} {ft : Ty} {size : Nat} {repr : Int}
    (h : fieldTypeLayout w ft = .ok (size, repr)) : ∃ j ≤ 4, size = 2 ^ j := by
  have hbytes : ∃ j ≤ 4, w.bytes = 2 ^ j := by
    cases w
    · exact ⟨2, by decide, rfl⟩
    · exact ⟨3, by decide, rfl⟩
  cases ft with
  | packedI8 => exact ⟨0, by decide, by simp_all [fieldTypeLayout]⟩
  | packedI16 => exact ⟨1, by decide, by simp_all [fieldTypeLayout]⟩
  | i32 | f32 => exact ⟨2, by decide, by simp_all [fieldTypeLayout]⟩
  | i64 | f64 => exact ⟨3, by decide, by simp_all [fieldTypeLayout]⟩
  | v128 => exact ⟨4, by decide, by simp_all [fieldTypeLayout]⟩
  | ref null heap =>
    obtain ⟨rfl, -⟩ : w.bytes = size ∧ reprRef = repr := by simpa [fieldTypeLayout] using h
    exact hbytes
  | bot => simp [fieldTypeLayout] at h

theorem fieldSize_eq {w : PtrWidth} {ft : Ty} {size : Nat} {repr : Int} (h : fieldTypeLayout w ft = .ok (size, repr)) :
    fieldSize w ft = size := by
  rw [fieldSize, h]

/-- the loop after some fields -/
structure LayoutInv (w : PtrWidth) (fieldTypes : List Ty) (s : LayoutState) : Prop where
  reprs : List.Forall₂ (fun ft f => ∃ size, fieldTypeLayout w ft = .ok (size, f.reprId)) fieldTypes s.fields
  tiles : Block.Tiles s.frontier (fieldBlocks w fieldTypes s.fields ++ freeBlocks s.slots)
  frontier : 16 ∣ s.frontier
  single : Single s.slots
  within : ∀ b ∈ fieldBlocks w fieldTypes s.fields, b.stop ≤ s.liveEnd
  liveEnd : s.liveEnd ≤ s.frontier

theorem layoutInv_nil (w : PtrWidth) : LayoutInv w [] {} where
  reprs := .nil
  tiles := .nil
  frontier := dvd_zero 16
  single _ := Nat.zero_le 1
  within := by simp [fieldBlocks]
  liveEnd := le_rfl

section
variable {w : PtrWidth} {fieldTypes : List Ty} {s s' : LayoutState} {ft : Ty}

theorem LayoutInv.length_eq (h : LayoutInv w fieldTypes s) : fieldTypes.length = s.fields.length := h.reprs.length_eq

theorem fieldBlocks_concat {fields : List ReprField} (h : fieldTypes.length = fields.length) (f : ReprField) :
    fieldBlocks w (fieldTypes ++ [ft]) (fields ++ [f]) =
      fieldBlocks w fieldTypes fields ++ [⟨f.offset, fieldSize w ft⟩] := by
  rw [fieldBlocks, List.zipWith_append h]
  rfl

theorem total_fieldBlocks {fields : List ReprField} (h : fieldTypes.length = fields.length) :
    Block.total (fieldBlocks w fieldTypes fields) = (fieldTypes.map (fieldSize w)).sum := by
  induction fieldTypes generalizing fields with
  | nil => rfl
  | cons ft fieldTypes ih =>
    cases fields with
    | nil => simp at h
    | cons f fields =>
      have hrest := ih (by simpa using h)
      simpa [fieldBlocks] using hrest

/-- one iteration, opened -/
theorem placeField_ok (h : placeField w s ft = .ok s') : ∃ size repr p, fieldTypeLayout w ft = .ok (size, repr) ∧
    findPlace s.slots s.frontier size = .ok p ∧
    s' = ⟨pushAll p.slots p.pushes, p.frontier, max s.liveEnd (p.offset + size), s.fields ++ [⟨p.offset, repr⟩]⟩ := by
  simp only [placeField, bind_eq_ok, ensure_eq_ok, ensureLimit_eq_ok, Prod.exists, exists_const] at h
  obtain ⟨size, repr, hlayout, -, p, hp, -, hs'⟩ := h
  refine ⟨size, repr, p, hlayout, hp, ?_⟩
  have hmax : (if s.liveEnd < p.offset + size then p.offset + size else s.liveEnd) =
      max s.liveEnd (p.offset + size) := by
    split_ifs <;> omega
  rw [hmax] at hs'
  exact (Except.ok.inj hs').symm

/-- every point of an iteration -/
theorem LayoutInv.findPlace (h : LayoutInv w fieldTypes s) {size : Nat} {repr : Int} {p : Placement}
    (hft : fieldTypeLayout w ft = .ok (size, repr)) (hp : Wah.findPlace s.slots s.frontier size = .ok p) :
    s.frontier ≤ p.frontier ∧ 16 ∣ p.frontier ∧ ∃ j, size = 2 ^ j ∧ ∀ k, ∃ m,
      Carved p.frontier (fieldBlocks w fieldTypes s.fields) p.offset j m (pushAll p.slots (p.pushes.take k)) ∧
      (p.pushes.length ≤ k → m = j) := by
  obtain ⟨j, hj, rfl⟩ := fieldTypeLayout_pow hft
  obtain ⟨hle, hfrontier, m, hm, fuel, hfuel, hpushes, hcarved⟩ := findPlace_carved h.tiles h.single h.frontier hj hp
  refine ⟨hle, hfrontier, j, rfl, fun k => ?_⟩
  rw [hpushes]
  exact hcarved.split hm hfuel k

theorem LayoutInv.step (h : LayoutInv w fieldTypes s) (hs' : placeField w s ft = .ok s') :
    LayoutInv w (fieldTypes ++ [ft]) s' := by
  obtain ⟨size, repr, p, hft, hp, rfl⟩ := placeField_ok hs'
  obtain ⟨hle, hfrontier, j, rfl, hpoints⟩ := h.findPlace hft hp
  obtain ⟨m, hcarved, hm⟩ := hpoints p.pushes.length
  obtain rfl := hm le_rfl
  rw [List.take_length] at hcarved
  have hblocks : fieldBlocks w (fieldTypes ++ [ft]) (s.fields ++ [⟨p.offset, repr⟩]) = _ :=
    fieldBlocks_concat h.length_eq ⟨p.offset, repr⟩
  rw [fieldSize_eq hft] at hblocks
  have hnew : (⟨p.offset, 2 ^ m⟩ : Block).stop ≤ p.frontier := hcarved.tiles.within _ (by simp)
  refine ⟨?_, ?_, hfrontier, hcarved.single, ?_, ?_⟩
  · exact List.rel_append h.reprs (.cons ⟨_, hft⟩ .nil)
  · rw [hblocks, List.append_assoc]
    exact hcarved.tiles.perm List.perm_middle.symm
  · intro b hb
    rw [hblocks] at hb
    rcases List.mem_append.mp hb with hb | hb
    · exact (h.within b hb).trans (le_max_left _ _)
    · obtain rfl := List.mem_singleton.mp hb
      exact le_max_right _ _
  · exact max_le (h.liveEnd.trans hle) hnew

theorem LayoutInv.run {more : List Ty} (h : LayoutInv w fieldTypes s) (hs' : placeFields w s more = .ok s') :
    LayoutInv w (fieldTypes ++ more) s' := by
  induction more generalizing fieldTypes s with
  | nil =>
    obtain rfl : s = s' := Except.ok.inj hs'
    simpa using h
  | cons ft more ih =>
    simp only [placeFields, List.foldlM_cons, bind_eq_ok] at hs'
    obtain ⟨s₁, hs₁, hrest⟩ := hs'
    simpa using ih (h.step hs₁) hrest

end

/-! ## The debug check -/

section
variable {w : PtrWidth} {info : ReprInfo}

/-- what the debug check has seen: only bytes of the fields so far are marked -/
structure Checked (c : FieldCheck) (seen : List Block) : Prop where
  used : ∀ k : Nat, c.used[k]? = some true → k ∈ Block.bytes seen
  fieldBytes : c.fieldBytes = Block.total seen

theorem pow_mask (j : Nat) : 2 ^ j &&& (2 ^ j - 1) = 0 := by
  rw [Nat.and_two_pow_sub_one_eq_mod, Nat.mod_self]

theorem Checked.mark {c : FieldCheck} {seen : List Block} (hc : Checked c seen) (b : Block) :
    Checked (c.mark b.offset b.size) (b :: seen) where
  used k hk := by
    simp only [FieldCheck.mark, List.getElem?_mapIdx, Option.map_eq_some_iff, Bool.or_eq_true, decide_eq_true_eq] at hk
    obtain ⟨u, hu, hor⟩ := hk
    rw [Block.bytes_cons, Finset.mem_union, Finset.mem_Ico]
    rcases hor with rfl | hin
    · exact .inr (hc.used k hu)
    · exact .inl hin
  fieldBytes := (congrArg (· + b.size) hc.fieldBytes).trans (Nat.add_comm _ _)

theorem validateField_ok {c : FieldCheck} {seen : List Block} {p : Ty × ReprField} {size : Nat} (hc : Checked c seen)
    (hft : fieldTypeLayout w p.1 = .ok (size, p.2.reprId)) (haligned : Block.Aligned ⟨p.2.offset, size⟩)
    (hstop : p.2.offset + size ≤ info.size) (hapart : ∀ b ∈ seen, b.Apart ⟨p.2.offset, size⟩) :
    validateField w info c p = .ok (c.mark p.2.offset size) := by
  obtain ⟨j, hj, rfl⟩ := fieldTypeLayout_pow hft
  have hpos := Nat.two_pow_pos j
  have hle : 2 ^ j ≤ 16 := Nat.pow_le_pow_right (n := 2) (by decide) hj
  have hfresh : ∀ k < 2 ^ j, c.used[p.2.offset + k]? ≠ some true := by
    intro k hk hused
    obtain ⟨b, hb, hin⟩ := Block.mem_bytes.mp (hc.used _ hused)
    exact (hapart b hb).not_mem hin ⟨Nat.le_add_right _ _, by simp only [Block.stop_mk]; omega⟩
  have hmask : p.2.offset &&& (2 ^ j - 1) = 0 :=
    (Nat.and_two_pow_sub_one_eq_mod p.2.offset j).trans (Nat.mod_eq_zero_of_dvd haligned)
  have hroom : p.2.offset ≤ info.size ∧ 2 ^ j ≤ info.size - p.2.offset := ⟨by omega, by omega⟩
  simp only [validateField, bind_eq_ok, ensure_eq_ok, Prod.exists, exists_const]
  exact ⟨2 ^ j, p.2.reprId, hft, ⟨hpos, hle, pow_mask j⟩, hmask, hroom, rfl, fun _ => hfresh, rfl⟩

theorem validateFields_ok {fieldTypes : List Ty} {fields : List ReprField} {c : FieldCheck} {seen : List Block}
    (info : ReprInfo) (hc : Checked c seen)
    (hreprs : List.Forall₂ (fun ft f => ∃ size, fieldTypeLayout w ft = .ok (size, f.reprId)) fieldTypes fields)
    (haligned : ∀ b ∈ fieldBlocks w fieldTypes fields, b.Aligned)
    (hstop : ∀ b ∈ fieldBlocks w fieldTypes fields, b.stop ≤ info.size)
    (hapart : (seen ++ fieldBlocks w fieldTypes fields).Pairwise Block.Apart) :
    ∃ c', (fieldTypes.zip fields).foldlM (validateField w info) c = .ok c' ∧
      c'.fieldBytes = Block.total seen + Block.total (fieldBlocks w fieldTypes fields) := by
  induction hreprs generalizing c seen with
  | nil => exact ⟨c, rfl, hc.fieldBytes⟩
  | @cons ft f fieldTypes fields hft hrest ih =>
    obtain ⟨size, hft⟩ := hft
    have hblocks : fieldBlocks w (ft :: fieldTypes) (f :: fields) =
        ⟨f.offset, size⟩ :: fieldBlocks w fieldTypes fields := by
      rw [← fieldSize_eq hft]; rfl
    rw [hblocks] at haligned hstop hapart ⊢
    have hperm : (⟨f.offset, size⟩ :: seen ++ fieldBlocks w fieldTypes fields).Pairwise Block.Apart :=
      List.perm_middle.pairwise hapart fun h => h.symm
    have hseen : ∀ b ∈ seen, b.Apart ⟨f.offset, size⟩ := fun b hb =>
      (List.pairwise_append.mp hapart).2.2 b hb _ (List.mem_cons_self)
    have hstep := validateField_ok (p := (ft, f)) hc hft (haligned _ List.mem_cons_self)
      (hstop _ List.mem_cons_self) hseen
    obtain ⟨c', hc', hbytes⟩ := ih (hc.mark ⟨f.offset, size⟩) (fun b hb => haligned b (List.mem_cons_of_mem _ hb))
      (fun b hb => hstop b (List.mem_cons_of_mem _ hb)) hperm
    refine ⟨c', ?_, ?_⟩
    · rw [List.zip_cons_cons, List.foldlM_cons, hstep]
      exact hc'
    · simp only [Block.total_cons] at hbytes ⊢
      omega

/-- what is known of a layout after the loop -/
theorem LayoutInv.size_bounds {fieldTypes : List Ty} {s : LayoutState} (h : LayoutInv w fieldTypes s) :
    Block.total (fieldBlocks w fieldTypes s.fields) ≤ s.liveEnd ∧
      s.liveEnd ≤ Block.total (fieldBlocks w fieldTypes s.fields) + 15 := by
  have htotal := h.tiles.total
  have hfree := h.single.total_le
  have hlive := h.liveEnd
  rw [Block.total_append] at htotal
  exact ⟨Block.total_le (List.pairwise_append.mp h.tiles.apart).1 h.within, by omega⟩

theorem validateStructReprInfo_ok {fieldTypes : List Ty} {s : LayoutState} (h : LayoutInv w fieldTypes s) :
    validateStructReprInfo w fieldTypes ⟨.struct, s.liveEnd, s.fields⟩ = .ok () := by
  have hbounds := h.size_bounds
  have hmarked (n : Nat) : Checked ⟨if 0 < n ∧ n ≤ 4096 then List.replicate n false else [], 0⟩ [] := by
    refine ⟨fun k hk => ?_, rfl⟩
    split_ifs at hk
    · simp [List.getElem?_replicate] at hk
    · simp at hk
  obtain ⟨c, hc, hbytes⟩ := validateFields_ok ⟨.struct, s.liveEnd, s.fields⟩ (hmarked s.liveEnd) h.reprs
    (fun b hb => h.tiles.aligned b (List.mem_append_left _ hb)) h.within
    (by simpa using (List.pairwise_append.mp h.tiles.apart).1)
  simp only [validateStructReprInfo, bind_eq_ok, ensure_eq_ok]
  refine ⟨c, hc, ?_⟩
  simp only [Block.total_nil] at hbytes
  omega

end

/-! ## Main results -/

/-- a point of the loop: the fields placed so far, with the one an iteration is placing, and the free slots -/
inductive LayoutPoint (w : PtrWidth) (fieldTypes : List Ty) : List Block → Slots → Prop
  | between {done rest : List Ty} {s : LayoutState} :
    fieldTypes = done ++ rest → placeFields w {} done = .ok s →
    LayoutPoint w fieldTypes (fieldBlocks w done s.fields) s.slots
  /-- after the pop and `k` pushes -/
  | within {done rest : List Ty} {ft : Ty} {s : LayoutState} {size : Nat} {repr : Int} {p : Placement} (k : Nat) :
    fieldTypes = done ++ ft :: rest → placeFields w {} done = .ok s → fieldTypeLayout w ft = .ok (size, repr) →
    findPlace s.slots s.frontier size = .ok p →
    LayoutPoint w fieldTypes (fieldBlocks w done s.fields ++ [⟨p.offset, size⟩]) (pushAll p.slots (p.pushes.take k))

section
variable {w : PtrWidth} {fieldTypes : List Ty}

theorem layoutInv_of_placeFields {s : LayoutState} (h : placeFields w {} fieldTypes = .ok s) :
    LayoutInv w fieldTypes s := by
  simpa using (layoutInv_nil w).run h

/-- the debug check never changes the outcome -/
theorem buildStructReprInfo_debug (w : PtrWidth) (debug : Bool) (fieldTypes : List Ty) :
    buildStructReprInfo w debug fieldTypes = buildStructReprInfo w false fieldTypes := by
  unfold buildStructReprInfo
  cases hs : placeFields w {} fieldTypes with
  | error e => rfl
  | ok s =>
    have hvalid := validateStructReprInfo_ok (layoutInv_of_placeFields hs)
    cases debug with
    | false => rfl
    | true => simp only [bind, Except.bind, hvalid, if_true, Bool.false_eq_true, if_false]

theorem buildStructReprInfo_ok {debug : Bool} {info : ReprInfo}
    (h : buildStructReprInfo w debug fieldTypes = .ok info) :
    ∃ s, placeFields w {} fieldTypes = .ok s ∧ info = ⟨.struct, s.liveEnd, s.fields⟩ := by
  rw [buildStructReprInfo_debug] at h
  simp only [buildStructReprInfo, Bool.false_eq_true, if_false, bind_eq_ok, ensureLimit_eq_ok, exists_const] at h
  obtain ⟨s, hs, -, hinfo⟩ := h
  exact ⟨s, hs, (Except.ok.inj hinfo).symm⟩

/-- at a point inside an iteration the block of the field is the lower end of the block being split -/
theorem Carved.point {n offset j m : Nat} {placed : List Block} {slots : Slots} (h : Carved n placed offset j m slots) :
    Single slots ∧ (placed ++ [Block.mk offset (2 ^ j)] ++ freeBlocks slots).Pairwise Block.Apart := by
  refine ⟨h.single, ?_⟩
  obtain ⟨hapart, hrest⟩ := List.pairwise_cons.mp h.tiles.apart
  have hle : 2 ^ j ≤ 2 ^ m := Nat.pow_le_pow_right (by decide) h.le
  have hfield : List.Pairwise Block.Apart (Block.mk offset (2 ^ j) :: (placed ++ freeBlocks slots)) := by
    refine .cons (fun b hb => ?_) hrest
    have hpart : b.Apart ⟨offset, 2 ^ j⟩ :=
      (hapart b hb).symm.part le_rfl (by simp only [Block.stop_mk]; omega)
    exact hpart.symm
  rw [List.append_assoc]
  exact List.perm_middle.symm.pairwise hfield fun h => h.symm

theorem LayoutPoint.apart {placed : List Block} {slots : Slots} (h : LayoutPoint w fieldTypes placed slots) :
    Single slots ∧ (placed ++ freeBlocks slots).Pairwise Block.Apart := by
  cases h with
  | between _ hs =>
    have hinv := layoutInv_of_placeFields hs
    exact ⟨hinv.single, hinv.tiles.apart⟩
  | within k _ hs hft hp =>
    obtain ⟨-, -, j, rfl, hpoints⟩ := (layoutInv_of_placeFields hs).findPlace hft hp
    obtain ⟨m, hcarved, -⟩ := hpoints k
    exact hcarved.point

end

/-- **Struct layout.** For any list of field types: in a layout that is built, every field is at a multiple of its size,
the fields lie apart and inside, and at most 15 bytes belong to none; at any point of the loop no size class has two
free slots, and the free slots lie apart from each other and from the fields. -/
theorem build_struct_repr_info_layout (w : PtrWidth) (debug : Bool) (fieldTypes : List Ty) :
    (∀ info, buildStructReprInfo w debug fieldTypes = .ok info →
      info.fields.length = fieldTypes.length ∧
      (∀ b ∈ fieldBlocks w fieldTypes info.fields, b.size ∣ b.offset ∧ b.offset + b.size ≤ info.size) ∧
      (fieldBlocks w fieldTypes info.fields).Pairwise Block.Apart ∧
      (fieldTypes.map (fieldSize w)).sum ≤ info.size ∧ info.size ≤ (fieldTypes.map (fieldSize w)).sum + 15) ∧
    ∀ placed slots, LayoutPoint w fieldTypes placed slots →
      (∀ i, (slots i).length ≤ 1) ∧ (placed ++ freeBlocks slots).Pairwise Block.Apart := by
  refine ⟨fun info h => ?_, fun placed slots h => h.apart⟩
  obtain ⟨s, hs, rfl⟩ := buildStructReprInfo_ok h
  have hinv := layoutInv_of_placeFields hs
  have hbounds := hinv.size_bounds
  rw [total_fieldBlocks hinv.length_eq] at hbounds
  refine ⟨hinv.length_eq.symm, fun b hb => ⟨?_, hinv.within b hb⟩, ?_, hbounds⟩
  · exact hinv.tiles.aligned b (List.mem_append_left _ hb)
  · exact (List.pairwise_append.mp hinv.tiles.apart).1

theorem build_struct_repr_info_layout_mixed :
    ∃ info, buildStructReprInfo .w64 true [.packedI8, .v128, .i64, .packedI16, .i32] = .ok info ∧ info.size = 32 ∧
      (fieldBlocks .w64 [.packedI8, .v128, .i64, .packedI16, .i32] info.fields).Pairwise Block.Apart ∧
      31 ≤ info.size ∧ info.size ≤ 31 + 15 :=
  have hlayout := (build_struct_repr_info_layout .w64 true [.packedI8, .v128, .i64, .packedI16, .i32]).1 _ rfl
  ⟨_, rfl, rfl, hlayout.2.2⟩

end Wah
