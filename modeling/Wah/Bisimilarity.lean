/-
Bisimilarity of the nodes of a graph that may be infinite, for any notion of one-step comparison.

Model:
- a `Relator` compares two nodes in one step, given the relation their successors must be in. It is monotone in that
  relation, compares every node to itself when successors are equal, and can be reversed and composed;
- `Bisimilar` is the largest relation whose pairs pass the comparison.

Results: bisimilarity is an equivalence that unfolds and folds by one comparison.
-/
import Mathlib.Tactic
import Mathlib.Logic.Relation

namespace Wah

/-- a one-step comparison of nodes, given a relation for their successors -/
structure Relator (N : Type*) where
  rel : (N → N → Prop) → N → N → Prop
  mono : ∀ {R S : N → N → Prop}, (∀ x y, R x y → S x y) → ∀ {x y}, rel R x y → rel S x y
  refl : ∀ x, rel Eq x x
  symm : ∀ {R : N → N → Prop} {x y}, rel R x y → rel (flip R) y x
  comp : ∀ {R S : N → N → Prop} {x y z}, rel R x y → rel S y z → rel (Relation.Comp R S) x z

namespace Relator
variable {N : Type*} (Φ : Relator N)

/-- every pair of the relation passes the comparison -/
def IsBisimulation (R : N → N → Prop) : Prop := ∀ x y, R x y → Φ.rel R x y

/-- the nodes no finite number of comparisons tells apart -/
def Bisimilar (x y : N) : Prop := ∃ R, Φ.IsBisimulation R ∧ R x y

variable {Φ} {x y z : N}

theorem Bisimilar.unfold (h : Φ.Bisimilar x y) : Φ.rel Φ.Bisimilar x y := by
  obtain ⟨R, hR, hxy⟩ := h
  exact Φ.mono (fun a b hab => ⟨R, hR, hab⟩) (hR x y hxy)

theorem Bisimilar.refl (x : N) : Φ.Bisimilar x x :=
  ⟨Eq, fun a _ hab => hab ▸ Φ.refl a, rfl⟩

theorem Bisimilar.symm (h : Φ.Bisimilar x y) : Φ.Bisimilar y x := by
  obtain ⟨R, hR, hxy⟩ := h
  exact ⟨flip R, fun a b hab => Φ.symm (hR b a hab), hxy⟩

theorem Bisimilar.trans (h : Φ.Bisimilar x y) (h' : Φ.Bisimilar y z) : Φ.Bisimilar x z := by
  obtain ⟨R, hR, hxy⟩ := h
  obtain ⟨S, hS, hyz⟩ := h'
  refine ⟨Relation.Comp R S, fun a c hac => ?_, y, hxy, hyz⟩
  obtain ⟨b, hab, hbc⟩ := hac
  exact Φ.comp (hR a b hab) (hS b c hbc)

/-- nodes that pass the comparison with bisimilar successors are bisimilar -/
theorem Bisimilar.fold (h : Φ.rel Φ.Bisimilar x y) : Φ.Bisimilar x y := by
  refine ⟨fun a b => Φ.Bisimilar a b ∨ (a = x ∧ b = y), fun a b hab => ?_, Or.inr ⟨rfl, rfl⟩⟩
  have hle : ∀ c d, Φ.Bisimilar c d → Φ.Bisimilar c d ∨ (c = x ∧ d = y) := fun _ _ => Or.inl
  rcases hab with hab | ⟨rfl, rfl⟩
  · exact Φ.mono hle hab.unfold
  · exact Φ.mono hle h

end Relator

end Wah
