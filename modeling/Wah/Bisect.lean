/-
Binary search for the first position of a sorted range that satisfies a predicate, and the runs of a sorted list.

`after i` reads whether the position `i` is at or after the one looked for, and is `none` outside the data, so that a
search which finishes has read nothing else.

Results: the search finds the boundary of a predicate that is false below it and true from it on (`bisect_eq`), which
in a list is the first element that satisfies the predicate (`bisect_findIdx`). From there on are the elements that
satisfy it (`mem_drop_findIdx`), and the run at the front of a list has all elements that pass a test which only the
elements behind it fail (`mem_takeWhile_of_pairwise`).
-/
import Mathlib.Tactic.Common
import Mathlib.Order.Nat

namespace Wah

/-- the loop on the half-open interval from `lo` to `hi`, which ends before its fuel does -/
def bisectLoop (after : Nat → Option Bool) : Nat → Nat → Nat → Option Nat
  | 0, lo, _ => some lo
  | fuel + 1, lo, hi =>
    if lo < hi then
      let mid := lo + (hi - lo) / 2
      match after mid with
      | none => none
      | some true => bisectLoop after fuel lo mid
      | some false => bisectLoop after fuel (mid + 1) hi
    else some lo

def bisect (after : Nat → Option Bool) (lo hi : Nat) : Option Nat := bisectLoop after (hi - lo) lo hi

/-- the boundary stays between `lo` and `hi`, by induction on the fuel -/
theorem bisectLoop_eq {after : Nat → Option Bool} {fuel lo hi k : Nat} (hfuel : hi - lo ≤ fuel) (hlo : lo ≤ k)
    (hhi : k ≤ hi) (hafter : ∀ i : Nat, lo ≤ i → i < hi → after i = some (decide (k ≤ i))) :
    bisectLoop after fuel lo hi = some k := by
  induction fuel generalizing lo hi with
  | zero => exact congrArg some (by omega)
  | succ fuel ih =>
    rw [bisectLoop]
    by_cases hlt : lo < hi
    · have hmid : lo ≤ lo + (hi - lo) / 2 ∧ lo + (hi - lo) / 2 < hi := by omega
      simp only [if_pos hlt, hafter _ hmid.1 hmid.2]
      by_cases hk : k ≤ lo + (hi - lo) / 2
      · rw [decide_eq_true hk]
        exact ih (by omega) hlo hk fun i h1 h2 => hafter i h1 (h2.trans hmid.2)
      · rw [decide_eq_false hk]
        exact ih (by omega) (by omega) hhi fun i h1 h2 => hafter i (by omega) h2
    · rw [if_neg hlt]
      exact congrArg some (by omega)

theorem bisect_eq {after : Nat → Option Bool} {lo hi k : Nat} (hlo : lo ≤ k) (hhi : k ≤ hi)
    (hafter : ∀ i : Nat, lo ≤ i → i < hi → after i = some (decide (k ≤ i))) : bisect after lo hi = some k :=
  bisectLoop_eq le_rfl hlo hhi hafter

section
variable {α : Type} {xs : List α} {p : α → Bool} {x : α}

/-- in a list where the predicate stays true, the search finds the first element that satisfies it -/
theorem bisect_findIdx (hmono : xs.Pairwise fun a b => p a → p b) (hi : Nat) (hfirst : xs.findIdx p ≤ hi)
    (hhi : hi ≤ xs.length) : bisect (fun i => xs[i]?.map p) 0 hi = some (xs.findIdx p) := by
  refine bisect_eq (Nat.zero_le _) hfirst fun i _ hi' => ?_
  have hlt : i < xs.length := hi'.trans_le hhi
  rw [List.getElem?_eq_getElem hlt, Option.map_some]
  congr 1
  by_cases hk : xs.findIdx p ≤ i
  · rw [decide_eq_true hk]
    have hfound : xs.findIdx p < xs.length := hk.trans_lt hlt
    have hp : p xs[xs.findIdx p] = true := List.findIdx_getElem
    rcases Nat.lt_or_eq_of_le hk with hk | hk
    · exact List.pairwise_iff_getElem.1 hmono _ _ hfound hlt hk hp
    · simpa only [hk] using hp
  · rw [decide_eq_false hk]
    simpa using List.not_of_lt_findIdx (Nat.not_le.1 hk)

/-- from the found position on there are the elements that satisfy the predicate, and no others -/
theorem mem_drop_findIdx (hmono : xs.Pairwise fun a b => p a → p b) :
    x ∈ xs.drop (xs.findIdx p) ↔ x ∈ xs ∧ p x = true := by
  induction xs with
  | nil => simp
  | cons a xs ih =>
    obtain ⟨ha, htail⟩ := List.pairwise_cons.1 hmono
    rw [List.findIdx_cons]
    cases hp : p a with
    | true =>
      simp only [cond_true, List.drop_zero, iff_self_and]
      intro hx
      rcases List.mem_cons.1 hx with rfl | hx
      · exact hp
      · exact ha x hx hp
    | false =>
      simp only [cond_false, List.drop_succ_cons, ih htail, List.mem_cons]
      refine ⟨fun ⟨hx, hpx⟩ => ⟨.inr hx, hpx⟩, fun ⟨hx, hpx⟩ => ⟨hx.resolve_left ?_, hpx⟩⟩
      rintro rfl
      simp [hp] at hpx

/-- the run at the front has all elements that pass, when what is before an element that passes does too -/
theorem mem_takeWhile_of_pairwise (h : xs.Pairwise fun a b => p b → p a) :
    x ∈ xs.takeWhile p ↔ x ∈ xs ∧ p x = true := by
  induction xs with
  | nil => simp
  | cons a xs ih =>
    obtain ⟨ha, htail⟩ := List.pairwise_cons.1 h
    rw [List.takeWhile_cons]
    split_ifs with hp
    · simp only [List.mem_cons, ih htail]
      constructor
      · rintro (rfl | ⟨hx, hpx⟩)
        · exact ⟨.inl rfl, hp⟩
        · exact ⟨.inr hx, hpx⟩
      · rintro ⟨rfl | hx, hpx⟩
        · exact .inl rfl
        · exact .inr ⟨hx, hpx⟩
    · simp only [List.not_mem_nil, List.mem_cons, false_iff, not_and]
      rintro (rfl | hx) hpx
      · exact hp hpx
      · exact hp (ha x hx hpx)

end

end Wah
