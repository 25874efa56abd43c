/-
Tracing a graph, in general: what a set of marked nodes has to satisfy to be the reachable set.

- `Reach E R`: the nodes reachable from the roots `R` along the edges `E`.
- `Tricolour E R M P`: roots are marked, marked nodes are reachable, and a marked node that is not pending has all its
  successors marked. With nothing pending the marked nodes are the reachable ones (`Tricolour.marked_iff`).
- `unmarked U M`: how many nodes of a finite universe are not marked, the measure tracing decreases.
-/
import Mathlib.Tactic

namespace Wah

variable {α : Type*}

/-- the nodes reachable from `R` along `E` -/
inductive Reach (E : α → α → Prop) (R : α → Prop) : α → Prop where
  | root {a : α} (h : R a) : Reach E R a
  | step {a b : α} (ha : Reach E R a) (h : E a b) : Reach E R b

/-- the tri-colour invariant: black nodes (marked, not pending) point to marked nodes only -/
structure Tricolour (E : α → α → Prop) (R M P : α → Prop) : Prop where
  roots : ∀ a, R a → M a
  sound : ∀ a, M a → Reach E R a
  black : ∀ a, M a → P a ∨ ∀ b, E a b → M b

/-- **Tracing.** When nothing is pending, the marked nodes are the reachable ones. -/
theorem Tricolour.marked_iff {E : α → α → Prop} {R M P : α → Prop} (h : Tricolour E R M P) (hP : ∀ a, M a → ¬ P a)
    (a : α) : M a ↔ Reach E R a := by
  refine ⟨h.sound a, fun ha => ?_⟩
  induction ha with
  | root hr => exact h.roots _ hr
  | step _ hE ih =>
    rcases h.black _ ih with hp | hs
    · exact absurd hp (hP _ ih)
    · exact hs _ hE

/-- the nodes of `U` that are not marked -/
def unmarked [DecidableEq α] (U : Finset α) (M : α → Bool) : Nat := (U.filter fun a => M a = false).card

theorem unmarked_mono [DecidableEq α] (U : Finset α) {M M' : α → Bool} (h : ∀ a, M a = true → M' a = true) :
    unmarked U M' ≤ unmarked U M := by
  apply Finset.card_le_card
  intro a ha
  simp only [Finset.mem_filter] at ha ⊢
  refine ⟨ha.1, ?_⟩
  by_contra hM
  simp [h a (by simpa using hM)] at ha

/-- marking one more node of the universe decreases the measure by one -/
theorem unmarked_update [DecidableEq α] (U : Finset α) (M : α → Bool) {a : α} (ha : a ∈ U) (hM : M a = false) :
    unmarked U (Function.update M a true) + 1 = unmarked U M := by
  have hset : (U.filter fun b => Function.update M a true b = false) = (U.filter fun b => M b = false).erase a := by
    ext b
    by_cases hb : b = a
    · subst hb; simp
    · simp [hb]
  have hmem : a ∈ U.filter fun b => M b = false := by simp [ha, hM]
  rw [unmarked, hset, unmarked]
  exact Finset.card_erase_add_one hmem

end Wah
