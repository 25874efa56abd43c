/-
The table of rec groups already known to be equal, during one check of types across modules.

Model:
- a pair of groups, given by their start indices, is packed into a key of 64 bits. `TypeEqMemo` is the table of keys, by
  open addressing: it starts without slots, doubles before it is more than half full, and its allocations may fail;
- `PairMemo` says what the table is for: the pairs recorded, with the capacity and the allocations asked for.

Results: over pairs of type indices that the parser accepts the table refines the pairs (`Stores`). The walk to the slot
of a key ends, a pair is found exactly when it was recorded, and recording fails exactly when the abstract one does.
-/
import Wah.OpenAddressing
import Wah.Types

namespace Wah

/-! ## The table -/

/-- `wah_type_eq_memo_key` of two groups, given by their start indices -/
def typeEqMemoKey (p : Nat × Nat) : UInt64 := ((UInt64.ofNat p.1 <<< 32) ||| UInt64.ofNat p.2) + 1

/-- the 32 bits of a key that choose its first slot -/
def typeEqMemoHash (key : UInt64) : Nat := ((key * 0x9e3779b97f4a7c15) >>> 32).toNat

/-- the walk of `wah_type_eq_memo_slot` from the slot `i`, for at most `steps` slots -/
def typeEqMemoWalk (keys : List UInt64) (key : UInt64) : Nat → Nat → Nat
  | 0, i => i
  | steps + 1, i =>
    if (keys[i]?).getD 0 ≠ 0 ∧ (keys[i]?).getD 0 ≠ key then
      typeEqMemoWalk keys key steps ((i + 1) &&& (keys.length - 1))
    else i

/-- `wah_type_eq_memo_slot` -/
def typeEqMemoSlot (keys : List UInt64) (key : UInt64) : Nat :=
  typeEqMemoWalk keys key keys.length (typeEqMemoHash key &&& (keys.length - 1))

/-- `wah_type_eq_memo_t`; `cap` is the number of keys -/
structure TypeEqMemo where
  /-- 0 = empty -/
  keys : List UInt64 := []
  count : Nat := 0
  oom : Bool := false
  /-- allocations asked for so far -/
  requests : Nat := 0
deriving DecidableEq, Repr

namespace TypeEqMemo

/-- `wah_type_eq_memo_has` -/
def has (p : Nat × Nat) (m : TypeEqMemo) : Bool :=
  let key := typeEqMemoKey p
  decide (0 < m.keys.length) && decide ((m.keys[typeEqMemoSlot m.keys key]?).getD 0 = key)

/-- the keys of `old`, into a table of `cap` slots -/
def grownKeys (old : List UInt64) (cap : Nat) : List UInt64 :=
  old.foldl (fun keys k => if k ≠ 0 then keys.set (typeEqMemoSlot keys k) k else keys) (List.replicate cap 0)

/-- the end of `wah_type_eq_memo_add`, when there is room -/
def store (key : UInt64) (m : TypeEqMemo) : TypeEqMemo :=
  let i := typeEqMemoSlot m.keys key
  if (m.keys[i]?).getD 0 = 0 then { m with keys := m.keys.set i key, count := m.count + 1 } else m

/-- the next capacity, of 32 bits -/
def nextCap (cap : Nat) : Nat := if cap ≠ 0 then cap * 2 % 0x100000000 else 64

/-- `wah_type_eq_memo_add`; `grants n` is whether the allocation `n` of the check succeeds -/
def add (grants : Nat → Bool) (p : Nat × Nat) (m : TypeEqMemo) : Bool × TypeEqMemo :=
  let key := typeEqMemoKey p
  let cap := m.keys.length
  if (m.count + 1) * 2 > cap then
    if nextCap cap < cap then (false, { m with oom := true })
    else if grants m.requests then
      (true, store key { m with keys := grownKeys m.keys (nextCap cap), requests := m.requests + 1 })
    else (false, { m with oom := true, requests := m.requests + 1 })
  else (true, store key m)

end TypeEqMemo

/-! ## What the table is for -/

/-- the pairs recorded, with the capacity of the table and the allocations asked for -/
structure PairMemo where
  pairs : List (Nat × Nat) := []
  cap : Nat := 0
  oom : Bool := false
  requests : Nat := 0
deriving DecidableEq, Repr

namespace PairMemo

def has (p : Nat × Nat) (a : PairMemo) : Bool := a.pairs.contains p

def record (p : Nat × Nat) (a : PairMemo) : PairMemo := if a.has p then a else { a with pairs := p :: a.pairs }

/-- record a pair, unless the table is half full and cannot grow -/
def add (grants : Nat → Bool) (p : Nat × Nat) (a : PairMemo) : Bool × PairMemo :=
  if (a.pairs.length + 1) * 2 > a.cap then
    if TypeEqMemo.nextCap a.cap < a.cap then (false, { a with oom := true })
    else if grants a.requests then
      (true, record p { a with cap := TypeEqMemo.nextCap a.cap, requests := a.requests + 1 })
    else (false, { a with oom := true, requests := a.requests + 1 })
  else (true, record p a)

/-- the pairs the other way round -/
def swap (a : PairMemo) : PairMemo := { a with pairs := a.pairs.map Prod.swap }

@[simp] theorem swap_length (a : PairMemo) : a.swap.pairs.length = a.pairs.length := List.length_map _

@[simp] theorem swap_cap (a : PairMemo) : a.swap.cap = a.cap := rfl

@[simp] theorem swap_requests (a : PairMemo) : a.swap.requests = a.requests := rfl

theorem mem_swap {p : Nat × Nat} {a : PairMemo} : p.swap ∈ a.swap.pairs ↔ p ∈ a.pairs := by
  rw [swap, List.mem_map]
  constructor
  · rintro ⟨q, hq, hqp⟩
    rwa [← Prod.swap_injective hqp]
  · exact fun hp => ⟨p, hp, rfl⟩

theorem has_iff {p : Nat × Nat} {a : PairMemo} : a.has p = true ↔ p ∈ a.pairs := by
  rw [has, List.contains_iff_mem]

theorem record_pairs (p : Nat × Nat) (a : PairMemo) :
    (a.record p).pairs = if p ∈ a.pairs then a.pairs else p :: a.pairs := by
  unfold record
  by_cases h : p ∈ a.pairs
  · rw [if_pos (has_iff.2 h), if_pos h]
  · rw [if_neg (mt has_iff.1 h), if_neg h]

theorem has_swap (p : Nat × Nat) (a : PairMemo) : a.swap.has p.swap = a.has p := by
  rw [Bool.eq_iff_iff, has_iff, has_iff, mem_swap]

theorem record_swap (p : Nat × Nat) (a : PairMemo) : a.swap.record p.swap = (a.record p).swap := by
  unfold record
  rw [has_swap]
  split_ifs <;> rfl

/-- the order of the sides does not matter to the memo -/
theorem add_swap (grants : Nat → Bool) (p : Nat × Nat) (a : PairMemo) :
    a.swap.add grants p.swap = ((a.add grants p).1, (a.add grants p).2.swap) := by
  by_cases hfull : (a.pairs.length + 1) * 2 > a.cap
  · by_cases hwrap : TypeEqMemo.nextCap a.cap < a.cap
    · simp only [add, swap_length, swap_cap, hfull, hwrap, if_true]
      rfl
    · cases hgrant : grants a.requests with
      | true =>
        simp only [add, swap_length, swap_cap, swap_requests, hfull, hwrap, hgrant, if_true, if_false]
        exact congrArg (Prod.mk true)
          (record_swap p { a with cap := TypeEqMemo.nextCap a.cap, requests := a.requests + 1 })
      | false =>
        simp only [add, swap_length, swap_cap, swap_requests, hfull, hwrap, hgrant, if_true, if_false, Bool.false_eq_true]
        rfl
  · simp only [add, swap_length, swap_cap, hfull, if_false]
    exact congrArg (Prod.mk true) (record_swap p a)

end PairMemo

/-! ## Keys -/

/-- a pair of type indices of accepted modules -/
def Keyable (p : Nat × Nat) : Prop := p.1 ≤ maxTypeIndex ∧ p.2 ≤ maxTypeIndex

theorem Keyable.swap {p : Nat × Nat} (h : Keyable p) : Keyable p.swap := ⟨h.2, h.1⟩

theorem typeEqMemoKey_toNat {p : Nat × Nat} (h : Keyable p) :
    (typeEqMemoKey p).toNat = p.1 * 0x100000000 + p.2 + 1 := by
  obtain ⟨h1, h2⟩ := h
  unfold maxTypeIndex at h1 h2
  have hshift : (UInt64.ofNat p.1 <<< 32).toNat = p.1 * 0x100000000 := by
    rw [UInt64.toNat_shiftLeft, UInt64.toNat_ofNat_of_lt' (by norm_num; omega)]
    have hbits : (UInt64.toNat 32 % 64) = 32 := rfl
    rw [hbits, Nat.shiftLeft_eq]
    omega
  have hlow : (UInt64.ofNat p.2).toNat = p.2 := UInt64.toNat_ofNat_of_lt' (by norm_num; omega)
  have hor : (UInt64.ofNat p.1 <<< 32 ||| UInt64.ofNat p.2).toNat = p.1 * 0x100000000 + p.2 := by
    rw [UInt64.toNat_or, hshift, hlow, Nat.mul_comm]
    exact (Nat.two_pow_add_eq_or_of_lt (i := 32) (by norm_num; omega) p.1).symm
  have hone : UInt64.toNat 1 = 1 := rfl
  rw [typeEqMemoKey, UInt64.toNat_add, hor, hone]
  omega

theorem typeEqMemoKey_ne_zero {p : Nat × Nat} (h : Keyable p) : typeEqMemoKey p ≠ 0 := by
  intro hzero
  have hnat := typeEqMemoKey_toNat h
  rw [hzero] at hnat
  simp at hnat

theorem typeEqMemoKey_injective {p q : Nat × Nat} (hp : Keyable p) (hq : Keyable q)
    (h : typeEqMemoKey p = typeEqMemoKey q) : p = q := by
  have hnat := congrArg UInt64.toNat h
  rw [typeEqMemoKey_toNat hp, typeEqMemoKey_toNat hq] at hnat
  obtain ⟨h1, h2⟩ := hp
  obtain ⟨h3, h4⟩ := hq
  unfold maxTypeIndex at h1 h2 h3 h4
  exact Prod.ext (by omega) (by omega)

/-! ## The table refines the pairs -/

theorem typeEqMemoWalk_eq {keys : List UInt64} {k : Nat} (hcap : keys.length = 2 ^ k) (key : UInt64) (steps i : Nat) :
    typeEqMemoWalk keys key steps i = OpenAddressing.probe 0 keys key steps i := by
  induction steps generalizing i with
  | zero => rfl
  | succ steps ih =>
    rw [typeEqMemoWalk, OpenAddressing.probe, ih, hcap, Nat.and_two_pow_sub_one_eq_mod]
    rfl

/-- a table of 2^k slots is probed from the hash on -/
theorem typeEqMemoSlot_eq {keys : List UInt64} {k : Nat} (hcap : keys.length = 2 ^ k) (key : UInt64) :
    typeEqMemoSlot keys key = OpenAddressing.find 0 typeEqMemoHash keys key := by
  rw [typeEqMemoSlot, typeEqMemoWalk_eq hcap, OpenAddressing.find]
  congr 1
  rw [hcap, Nat.and_two_pow_sub_one_eq_mod]

theorem grownKeys_eq {old : List UInt64} {k : Nat} :
    TypeEqMemo.grownKeys old (2 ^ k) = OpenAddressing.rehash 0 typeEqMemoHash old (List.replicate (2 ^ k) 0) := by
  unfold TypeEqMemo.grownKeys OpenAddressing.rehash
  have hcap : (List.replicate (2 ^ k) (0 : UInt64)).length = 2 ^ k := List.length_replicate
  generalize List.replicate (2 ^ k) (0 : UInt64) = t at hcap
  induction old generalizing t with
  | nil => rfl
  | cons key old ih =>
    rw [List.foldl_cons, List.foldl_cons]
    have hset : t.set (typeEqMemoSlot t key) key = OpenAddressing.insert 0 typeEqMemoHash t key := by
      rw [typeEqMemoSlot_eq hcap, OpenAddressing.insert]
    rw [hset]
    apply ih
    split_ifs
    · rwa [OpenAddressing.insert_length]
    · exact hcap

/-- the table stores the pairs: it has no slots or a power of two, at least half of them empty, and its keys are those
of the pairs -/
structure TypeEqMemo.Stores (m : TypeEqMemo) (a : PairMemo) : Prop where
  cap_eq : m.keys.length = a.cap
  cap : a.cap = 0 ∨ ∃ k ≤ 31, a.cap = 2 ^ k
  placed : OpenAddressing.Placed 0 typeEqMemoHash m.keys
  mem : ∀ p, Keyable p → (typeEqMemoKey p ∈ m.keys ↔ p ∈ a.pairs)
  keyable : ∀ p ∈ a.pairs, Keyable p
  count : m.count = a.pairs.length
  occupied : OpenAddressing.occupied 0 m.keys ≤ m.count
  load : m.count * 2 ≤ m.keys.length
  oom : m.oom = a.oom
  requests : m.requests = a.requests

theorem TypeEqMemo.stores_empty : Stores {} {} := by
  refine ⟨rfl, Or.inl rfl, ?_, by simp, by simp, rfl, by simp [OpenAddressing.occupied], le_rfl, rfl, rfl⟩
  intro i hi
  simp at hi

namespace TypeEqMemo
variable {m : TypeEqMemo} {a : PairMemo} {p : Nat × Nat}

/-- the capacity of a table that has slots -/
theorem Stores.pow (h : m.Stores a) (hpos : 0 < m.keys.length) : ∃ k ≤ 31, m.keys.length = 2 ^ k := by
  rcases h.cap with hcap | ⟨k, hk, hcap⟩
  · rw [h.cap_eq, hcap] at hpos
    exact absurd hpos (lt_irrefl 0)
  · exact ⟨k, hk, h.cap_eq.trans hcap⟩

/-- a pair is found exactly when it was recorded -/
theorem Stores.has_eq (h : m.Stores a) (hp : Keyable p) : m.has p = a.has p := by
  unfold has
  by_cases hpos : 0 < m.keys.length
  · obtain ⟨k, -, hcap⟩ := h.pow hpos
    have hfound := OpenAddressing.has_iff h.placed (typeEqMemoKey_ne_zero hp)
    rw [OpenAddressing.has, decide_eq_true_iff, h.mem p hp] at hfound
    dsimp only
    rw [typeEqMemoSlot_eq hcap, decide_eq_true hpos, Bool.true_and, Bool.eq_iff_iff, decide_eq_true_iff]
    exact hfound.trans PairMemo.has_iff.symm
  · have hnil : m.keys = [] := List.eq_nil_of_length_eq_zero (Nat.eq_zero_of_not_pos hpos)
    have hno : p ∉ a.pairs := by
      intro hmem
      have hkey := (h.mem p hp).2 hmem
      rw [hnil] at hkey
      exact List.not_mem_nil hkey
    simp [hpos, PairMemo.has, hno]

/-- a table with room for one more key -/
theorem Stores.store (h : m.Stores a) (hp : Keyable p) (hroom : (m.count + 1) * 2 ≤ m.keys.length) :
    (store (typeEqMemoKey p) m).Stores (a.record p) := by
  obtain ⟨k, hk, hcap⟩ := h.pow (by omega)
  have hne := typeEqMemoKey_ne_zero hp
  have hfree : 0 ∈ m.keys := OpenAddressing.empty_mem_of_lt (by have := h.occupied; omega)
  have hslot := typeEqMemoSlot_eq hcap (typeEqMemoKey p)
  have hfound := OpenAddressing.has_iff h.placed hne
  obtain ⟨-, -, -, -, hstop⟩ := OpenAddressing.find_stops typeEqMemoHash hfree (typeEqMemoKey p)
  rw [OpenAddressing.has, decide_eq_true_iff, h.mem p hp] at hfound
  unfold TypeEqMemo.store PairMemo.record
  dsimp only
  rw [hslot]
  by_cases hnew : p ∈ a.pairs
  · have hkey := hfound.2 hnew
    rw [if_pos (PairMemo.has_iff.2 hnew), if_neg]
    · exact h
    · intro hzero
      exact hne (hkey.symm.trans hzero)
  · have hzero := hstop.resolve_right fun hkey => hnew (hfound.1 hkey)
    rw [if_neg (mt PairMemo.has_iff.1 hnew)]
    unfold OpenAddressing.slotAt at hzero
    rw [if_pos hzero]
    have hins : m.keys.set (OpenAddressing.find 0 typeEqMemoHash m.keys (typeEqMemoKey p)) (typeEqMemoKey p) =
        OpenAddressing.insert 0 typeEqMemoHash m.keys (typeEqMemoKey p) := rfl
    refine ⟨?_, h.cap, ?_, fun q hq => ?_, fun q hq => ?_, ?_, ?_, ?_, h.oom, h.requests⟩
    · exact (List.length_set ..).trans h.cap_eq
    · exact hins ▸ h.placed.insert hfree _
    · change typeEqMemoKey q ∈ m.keys.set _ _ ↔ _
      rw [hins, OpenAddressing.mem_insert_iff hfree hne (typeEqMemoKey_ne_zero hq), h.mem q hq, List.mem_cons, or_comm]
      exact or_congr_left ⟨typeEqMemoKey_injective hq hp, congrArg typeEqMemoKey⟩
    · rcases List.mem_cons.1 hq with rfl | hq
      · exact hp
      · exact h.keyable q hq
    · exact congrArg (· + 1) h.count
    · have hle := OpenAddressing.occupied_insert_le 0 typeEqMemoHash m.keys (typeEqMemoKey p)
      exact (hins ▸ hle).trans (Nat.add_le_add_right h.occupied 1)
    · exact hroom.trans_eq (List.length_set ..).symm

/-- the next capacity is a larger power of two, unless it does not fit 32 bits -/
theorem nextCap_pow {cap : Nat} (h : cap = 0 ∨ ∃ k ≤ 31, cap = 2 ^ k) (hfits : ¬ nextCap cap < cap) :
    ∃ k ≤ 31, nextCap cap = 2 ^ k ∧ 2 * cap ≤ 2 ^ k ∧ 2 ≤ 2 ^ k := by
  rcases h with rfl | ⟨k, hk, rfl⟩
  · exact ⟨6, by norm_num, rfl, by norm_num, by norm_num⟩
  · have hpos : 2 ^ k ≠ 0 := by positivity
    unfold nextCap at hfits ⊢
    rw [if_pos hpos] at hfits ⊢
    by_cases htop : k = 31
    · subst htop
      norm_num at hfits
    · have hle : 2 ^ (k + 1) ≤ 2 ^ 31 := Nat.pow_le_pow_right (by norm_num) (by omega)
      rw [← pow_succ] at hfits ⊢
      refine ⟨k + 1, by omega, Nat.mod_eq_of_lt (by omega), ?_, ?_⟩
      · rw [pow_succ, Nat.mul_comm]
      · rw [pow_succ]
        omega

/-- the keys of a table that has grown -/
theorem Stores.grow (h : m.Stores a) (hfits : ¬ nextCap a.cap < a.cap) (n : Nat) :
    Stores { m with keys := grownKeys m.keys (nextCap a.cap), requests := n }
        { a with cap := nextCap a.cap, requests := n } ∧
      (m.count + 1) * 2 ≤ (grownKeys m.keys (nextCap a.cap)).length := by
  obtain ⟨k, hk, hcap, hdouble, htwo⟩ := nextCap_pow h.cap hfits
  have hload := h.load
  have hoccupied := h.occupied
  have hsize := h.cap_eq
  rw [hcap, grownKeys_eq]
  have hroom : OpenAddressing.occupied 0 (List.replicate (2 ^ k) (0 : UInt64)) + OpenAddressing.occupied 0 m.keys <
      (List.replicate (2 ^ k) (0 : UInt64)).length := by
    rw [OpenAddressing.occupied_replicate, List.length_replicate]
    omega
  obtain ⟨hlen, hplaced, hmem, hle⟩ := OpenAddressing.rehash_spec
    (OpenAddressing.placed_replicate 0 typeEqMemoHash (2 ^ k)) hroom
  rw [List.length_replicate] at hlen
  rw [OpenAddressing.occupied_replicate, Nat.zero_add] at hle
  rw [hlen]
  refine ⟨⟨hlen, Or.inr ⟨k, hk, rfl⟩, hplaced, fun p hp => ?_, h.keyable, h.count, hle.trans hoccupied, ?_, h.oom,
    rfl⟩, by omega⟩
  · rw [hmem _ (typeEqMemoKey_ne_zero hp), ← h.mem p hp]
    simp [typeEqMemoKey_ne_zero hp]
  · change m.count * 2 ≤ _
    rw [hlen]
    omega

/-- **Recording a pair.** The table takes a pair exactly when the abstract memo does, and stores what it has then. -/
theorem Stores.add (h : m.Stores a) (hp : Keyable p) (grants : Nat → Bool) :
    (m.add grants p).1 = (a.add grants p).1 ∧ (m.add grants p).2.Stores (a.add grants p).2 := by
  have hstep : m.add grants p =
      if (a.pairs.length + 1) * 2 > a.cap then
        if nextCap a.cap < a.cap then (false, { m with oom := true })
        else if grants a.requests then
          (true, TypeEqMemo.store (typeEqMemoKey p)
            { m with keys := grownKeys m.keys (nextCap a.cap), requests := a.requests + 1 })
        else (false, { m with oom := true, requests := a.requests + 1 })
      else (true, TypeEqMemo.store (typeEqMemoKey p) m) := by
    rw [← h.count, ← h.cap_eq, ← h.requests]
    rfl
  rw [hstep, PairMemo.add]
  split_ifs with hfull hwrap hgrant
  · exact ⟨rfl, { h with oom := rfl }⟩
  · obtain ⟨hgrown, hroom⟩ := h.grow hwrap (a.requests + 1)
    exact ⟨rfl, hgrown.store hp hroom⟩
  · exact ⟨rfl, { h with oom := rfl, requests := rfl }⟩
  · refine ⟨rfl, h.store hp ?_⟩
    rw [h.count, h.cap_eq]
    omega

end TypeEqMemo

end Wah
