/-
Maps that are emptied without touching their entries.

Model: a map over indices keeps a value and a stamp for each, and a serial number; an index is in the map when its stamp
is the serial. Emptying the map takes the next serial, and clears the stamps only when the serial wraps around.

Results: the stamps never run ahead of the serial (`Stamped.WF`), so an emptied map is empty also after a wrap
(`find?_next`), and an insertion is found and changes nothing else (`find?_insert`).
-/
import Mathlib.Tactic.Common

namespace Wah

/-- a value and a stamp for each index -/
structure Stamped (β : Type) where
  stamps : List UInt32
  values : List β
  serial : UInt32 := 0
deriving DecidableEq, Repr

namespace Stamped

variable {β : Type}

/-- all zero, as allocated -/
def zero (n : Nat) (b : β) : Stamped β := { stamps := List.replicate n 0, values := List.replicate n b }

/-- the index is in the map -/
def Has (s : Stamped β) (k : Nat) : Prop := s.stamps[k]? = some s.serial

instance (s : Stamped β) (k : Nat) : Decidable (s.Has k) := inferInstanceAs (Decidable (_ = _))

/-- the value of an index in the map -/
def find? (s : Stamped β) (k : Nat) : Option β := if s.Has k then s.values[k]? else none

/-- empties the map -/
def next (s : Stamped β) : Stamped β :=
  if s.serial + 1 = 0 then { s with stamps := List.replicate s.stamps.length 0, serial := 1 }
  else { s with serial := s.serial + 1 }

def insert (s : Stamped β) (k : Nat) (b : β) : Stamped β :=
  { s with stamps := s.stamps.set k s.serial, values := s.values.set k b }

/-- `n` entries, none of which is stamped in the future -/
structure WF (s : Stamped β) (n : Nat) : Prop where
  stamps : s.stamps.length = n
  values : s.values.length = n
  past : ∀ (k : Nat) (stamp : UInt32), s.stamps[k]? = some stamp → stamp ≤ s.serial

variable {s : Stamped β} {n k : Nat} {b : β}

theorem wf_zero (n : Nat) (b : β) : (zero n b).WF n where
  stamps := List.length_replicate
  values := List.length_replicate
  past k stamp h := by
    obtain rfl := List.eq_of_mem_replicate (List.mem_of_getElem? h)
    exact UInt32.le_refl _

/-- a serial that has not wrapped around is past every stamp -/
theorem lt_succ_of_le {a m : UInt32} (h : a ≤ m) (hm : m + 1 ≠ 0) : a < m + 1 := by
  rw [UInt32.lt_iff_toNat_lt, UInt32.toNat_add]
  rw [UInt32.le_iff_toNat_le] at h
  rw [Ne, ← UInt32.toNat_inj, UInt32.toNat_add] at hm
  have hlt := m.toNat_lt
  have hone : (1 : UInt32).toNat = 1 := rfl
  have hzero : (0 : UInt32).toNat = 0 := rfl
  omega

theorem WF.next (h : s.WF n) : s.next.WF n := by
  unfold Stamped.next
  split_ifs with hwrap
  · refine ⟨by rw [List.length_replicate, h.stamps], h.values, fun k stamp hk => ?_⟩
    obtain rfl := List.eq_of_mem_replicate (List.mem_of_getElem? hk)
    show (0 : UInt32) ≤ 1
    decide
  · exact ⟨h.stamps, h.values, fun k stamp hk => UInt32.le_of_lt (lt_succ_of_le (h.past k stamp hk) hwrap)⟩

/-- an emptied map is empty, whether or not the serial wraps around -/
theorem not_has_next (h : s.WF n) (k : Nat) : ¬s.next.Has k := by
  unfold Stamped.next Has
  split_ifs with hwrap
  · intro hk
    have hzero : (1 : UInt32) = 0 := List.eq_of_mem_replicate (List.mem_of_getElem? hk)
    exact absurd hzero (by decide)
  · intro hk
    exact UInt32.lt_irrefl _ (lt_succ_of_le (h.past k _ hk) hwrap)

theorem find?_next (h : s.WF n) (k : Nat) : s.next.find? k = none := if_neg (not_has_next h k)

theorem WF.insert (h : s.WF n) (k : Nat) (b : β) : (s.insert k b).WF n where
  stamps := List.length_set.trans h.stamps
  values := List.length_set.trans h.values
  past j stamp hj := by
    simp only [Stamped.insert, List.getElem?_set] at hj
    split_ifs at hj
    · rw [← Option.some.inj hj]
      exact UInt32.le_refl _
    · exact h.past j stamp hj

theorem find?_insert (h : s.WF n) (hk : k < n) (b : β) (j : Nat) :
    (s.insert k b).find? j = if k = j then some b else s.find? j := by
  have hstamps : k < s.stamps.length := h.stamps.symm ▸ hk
  have hvalues : k < s.values.length := h.values.symm ▸ hk
  unfold find? Has Stamped.insert
  simp only [List.getElem?_set]
  by_cases hj : k = j
  · simp [← hj, hstamps, hvalues]
  · simp only [if_neg hj]
    rfl

/-- whether an index is in the map is whether it has a value -/
theorem has_iff (h : s.WF n) : s.Has k ↔ (s.find? k).isSome := by
  unfold find?
  by_cases hk : s.Has k
  · have hlt : k < s.values.length := by
      rw [h.values, ← h.stamps]
      exact (List.getElem?_eq_some_iff.mp hk).1
    simp [hk, hlt]
  · simp [hk]

end Stamped

end Wah
