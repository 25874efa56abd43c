/-
Instances of indexed cells, and block writes on them.

An instance is named by a number, so two names of one instance are equal. `copy` reads everything before it writes, as
`memmove`. It may be cut into parts: from the first item on unless the destination follows the source closely, from the
last item on unless it precedes it (`copy_forward`, `copy_backward`).
-/
import Wah.Resumable

namespace Wah

open Resumable

/-- cells of instances; indices of an instance have `width` bits -/
@[ext] structure Space (α : Type) (width : Nat → Nat) where
  size : Nat → Nat
  bound : ∀ m, size m ≤ 2 ^ width m
  get : Nat → Nat → α

namespace Space

variable {α : Type} {w : Nat → Nat} (s : Space α w)

/-- `n` cells from `at_` on -/
def write (m at_ n : Nat) (f : Nat → α) : Space α w :=
  { s with get := fun m' i => if m' = m ∧ at_ ≤ i ∧ i < at_ + n then f (i - at_) else s.get m' i }

/-- `memset` -/
def fill (m at_ : Nat) (v : α) (n : Nat) : Space α w := s.write m at_ n fun _ => v

/-- `memmove` -/
def copy (dm dst sm src n : Nat) : Space α w := s.write dm dst n fun i => s.get sm (src + i)

@[simp] theorem write_size (m at_ n : Nat) (f : Nat → α) : (s.write m at_ n f).size = s.size := rfl
@[simp] theorem fill_size (m at_ : Nat) (v : α) (n : Nat) : (s.fill m at_ v n).size = s.size := rfl
@[simp] theorem copy_size (dm dst sm src n : Nat) : (s.copy dm dst sm src n).size = s.size := rfl

/-- cells outside the range are left alone -/
theorem write_frame {m at_ n : Nat} {f : Nat → α} {m' i : Nat} (h : ¬ (m' = m ∧ at_ ≤ i ∧ i < at_ + n)) :
    (s.write m at_ n f).get m' i = s.get m' i := if_neg h

theorem write_inside {m at_ n : Nat} {f : Nat → α} {i : Nat} (h : i < n) :
    (s.write m at_ n f).get m (at_ + i) = f i := by
  refine (if_pos ⟨rfl, Nat.le_add_right _ _, by omega⟩).trans ?_
  rw [Nat.add_sub_cancel_left]

@[simp] theorem write_zero (m at_ : Nat) (f : Nat → α) : s.write m at_ 0 f = s := by
  ext m' i
  · rfl
  · exact s.write_frame (by omega)

theorem write_congr {m at_ n : Nat} {f g : Nat → α} (h : ∀ i, i < n → f i = g i) :
    s.write m at_ n f = s.write m at_ n g := by
  ext m' i
  · rfl
  by_cases hm : m' = m ∧ at_ ≤ i ∧ i < at_ + n
  · obtain ⟨rfl, hlo, hhi⟩ := hm
    obtain ⟨j, rfl⟩ := Nat.exists_eq_add_of_le hlo
    rw [write_inside _ (by omega), write_inside _ (by omega), h j (by omega)]
  · rw [write_frame _ hm, write_frame _ hm]

/-- adjacent ranges are one range, the lower one first -/
theorem write_write {m at_ n k : Nat} {f g h : Nat → α} (hf : ∀ i, i < n → f i = h i)
    (hg : ∀ i, i < k → g i = h (n + i)) : (s.write m at_ n f).write m (at_ + n) k g = s.write m at_ (n + k) h := by
  ext m' i
  · rfl
  by_cases hm : m' = m ∧ at_ ≤ i ∧ i < at_ + (n + k)
  · obtain ⟨rfl, hlo, hhi⟩ := hm
    obtain ⟨j, rfl⟩ := Nat.exists_eq_add_of_le hlo
    rw [write_inside _ (by omega : j < n + k)]
    by_cases hj : j < n
    · rw [write_frame _ (by omega), write_inside _ hj, hf j hj]
    · obtain ⟨l, rfl⟩ := Nat.exists_eq_add_of_le (Nat.le_of_not_lt hj)
      rw [← Nat.add_assoc, write_inside _ (by omega : l < k), hg l (by omega)]
  · rw [write_frame _ (by omega), write_frame _ (by omega), write_frame _ hm]

/-- adjacent ranges are one range, the upper one first -/
theorem write_write_down {m at_ n k : Nat} {f g h : Nat → α} (hf : ∀ i, i < n → f i = h i)
    (hg : ∀ i, i < k → g i = h (n + i)) : (s.write m (at_ + n) k g).write m at_ n f = s.write m at_ (n + k) h := by
  ext m' i
  · rfl
  by_cases hm : m' = m ∧ at_ ≤ i ∧ i < at_ + (n + k)
  · obtain ⟨rfl, hlo, hhi⟩ := hm
    obtain ⟨j, rfl⟩ := Nat.exists_eq_add_of_le hlo
    rw [write_inside _ (by omega : j < n + k)]
    by_cases hj : j < n
    · rw [write_inside _ hj, hf j hj]
    · obtain ⟨l, rfl⟩ := Nat.exists_eq_add_of_le (Nat.le_of_not_lt hj)
      rw [write_frame _ (by omega), ← Nat.add_assoc, write_inside _ (by omega : l < k), hg l (by omega)]
  · rw [write_frame _ (by omega), write_frame _ (by omega), write_frame _ hm]

theorem fill_fill (m at_ : Nat) (v : α) (a b : Nat) : (s.fill m at_ v a).fill m (at_ + a) v b = s.fill m at_ v (a + b) :=
  s.write_write (fun _ _ => rfl) fun _ _ => rfl

/-- the destination starts inside the source, behind its start -/
def Overlaps (dm dst sm src n : Nat) : Prop := dm = sm ∧ src < dst ∧ dst < src + n

instance (dm dst sm src n : Nat) : Decidable (Overlaps dm dst sm src n) := inferInstanceAs (Decidable (_ ∧ _ ∧ _))

/-- elements of `k` cells overlap as their cells do -/
theorem overlaps_mul {k : Nat} (hk : 0 < k) (dm dst sm src n : Nat) :
    Overlaps dm (dst * k) sm (src * k) (n * k) ↔ Overlaps dm dst sm src n := by
  unfold Overlaps
  rw [← Nat.add_mul, Nat.mul_lt_mul_right hk, Nat.mul_lt_mul_right hk]

theorem copy_forward {dm dst sm src a b : Nat} (h : ¬ Overlaps dm dst sm src (a + b)) :
    (s.copy dm dst sm src a).copy dm (dst + a) sm (src + a) b = s.copy dm dst sm src (a + b) := by
  refine s.write_write (fun _ _ => rfl) fun i hi => ?_
  unfold Overlaps at h
  rw [copy, write_frame _ (by omega), Nat.add_assoc]

theorem copy_backward {dm dst sm src a b : Nat} (h : dm = sm → src ≤ dst) :
    (s.copy dm (dst + a) sm (src + a) b).copy dm dst sm src a = s.copy dm dst sm src (a + b) := by
  refine s.write_write_down (fun i hi => ?_) fun i _ => by rw [Nat.add_assoc]
  rw [copy, write_frame _ (by omega)]

theorem copy_self (m at_ n : Nat) : s.copy m at_ m at_ n = s := by
  ext m' i
  · rfl
  by_cases hm : m' = m ∧ at_ ≤ i ∧ i < at_ + n
  · obtain ⟨rfl, hlo, hhi⟩ := hm
    obtain ⟨j, rfl⟩ := Nat.exists_eq_add_of_le hlo
    rw [copy, write_inside _ (by omega)]
  · rw [copy, write_frame _ hm]

@[simp] theorem copy_zero (dm dst sm src : Nat) : s.copy dm dst sm src 0 = s := s.write_zero _ _ _

theorem fill_additive (m at_ : Nat) (v : α) (size : Nat) :
    Additive size fun d n (s : Space α w) => s.fill m (at_ + d) v n where
  zero d s := s.write_zero _ _ _
  add d a b s _ := by rw [← Nat.add_assoc, fill_fill]

theorem write_additive (m at_ : Nat) (f : Nat → α) (size : Nat) :
    Additive size fun d n (s : Space α w) => s.write m (at_ + d) n fun i => f (d + i) where
  zero d s := s.write_zero _ _ _
  add d a b s _ := by
    rw [← Nat.add_assoc]
    exact s.write_write (fun _ _ => rfl) fun i _ => by rw [Nat.add_assoc]

/-- elements of `k` cells -/
theorem writeCells_additive (m at_ k : Nat) (f : Nat → α) (size : Nat) :
    Additive size fun d n (s : Space α w) => s.write m ((at_ + d) * k) (n * k) fun i => f (d * k + i) where
  zero d s := by rw [Nat.zero_mul, write_zero]
  add d a b s _ := by
    rw [← Nat.add_assoc, Nat.add_mul _ a, Nat.add_mul a b]
    exact s.write_write (fun _ _ => rfl) fun i _ => by rw [Nat.add_mul, Nat.add_assoc]

/-- copying from the first item on -/
theorem copy_additive {dm dst sm src size : Nat} (h : ¬ Overlaps dm dst sm src size) :
    Additive size fun d n (s : Space α w) => s.copy dm (dst + d) sm (src + d) n where
  zero d s := s.copy_zero _ _ _ _
  add d a b s hd := by
    rw [← Nat.add_assoc, ← Nat.add_assoc]
    refine s.copy_forward ?_
    unfold Overlaps at *
    omega

/-- copying from the last item on -/
theorem copyDown_additive {dm dst sm src size : Nat} (h : dm = sm → src ≤ dst) :
    Additive size fun d n (s : Space α w) => s.copy dm (dst + (size - d - n)) sm (src + (size - d - n)) n where
  zero d s := s.copy_zero _ _ _ _
  add d a b s hd := by
    have h1 : size - d - a = size - d - (a + b) + b := by omega
    have h2 : size - (d + a) - b = size - d - (a + b) := by omega
    rw [h1, h2, ← Nat.add_assoc, ← Nat.add_assoc, Nat.add_comm a b]
    exact s.copy_backward fun e => Nat.add_le_add_right (h e) _

/-- copying from the end that is read before it is written -/
theorem move_additive (dm dst sm src size : Nat) :
    Additive size fun d n (s : Space α w) =>
      if decide (Overlaps dm dst sm src size) = true then
        s.copy dm (dst + (size - d - n)) sm (src + (size - d - n)) n
      else s.copy dm (dst + d) sm (src + d) n := by
  by_cases h : Overlaps dm dst sm src size
  · simp only [h, decide_true, if_true]
    exact copyDown_additive fun _ => Nat.le_of_lt h.2.1
  · simp only [h, decide_false, Bool.false_eq_true, if_false]
    exact copy_additive h

/-- the rest of a copy, after `d` items from either end -/
theorem copy_rest (dm dst sm src : Nat) {size d : Nat} (hd : d ≤ size) :
    (if decide (Overlaps dm dst sm src size) = true then
      (s.copy dm (dst + (size - d)) sm (src + (size - d)) d).copy dm dst sm src (size - d)
    else (s.copy dm dst sm src d).copy dm (dst + d) sm (src + d) (size - d)) = s.copy dm dst sm src size := by
  have hsum : size - d + d = size := by omega
  by_cases h : Overlaps dm dst sm src size
  · rw [if_pos (by simpa using h), s.copy_backward fun _ => Nat.le_of_lt h.2.1, hsum]
  · rw [if_neg (by simpa using h), s.copy_forward (by rwa [Nat.add_comm, hsum]), Nat.add_comm, hsum]

end Space

end Wah
