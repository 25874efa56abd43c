/-
A direct-mapped cache of a function, in general.

A cache has one entry per slot; a query looks at the slot of its key, and on a miss computes the answer and replaces the
entry. `Sound f` says every entry holds an answer of `f`; queries keep it, and under it every query answers as `f` does
(`query_fst`), whatever was asked before.
-/
import Mathlib.Tactic

namespace Wah

/-- one optional entry per slot -/
structure DirectMapped (n : Nat) (K V : Type*) where
  entries : Fin n → Option (K × V)

namespace DirectMapped
variable {n : Nat} {K V : Type*}

def empty : DirectMapped n K V := ⟨fun _ => none⟩

/-- every entry holds the answer of `f` to its key -/
def Sound (f : K → V) (c : DirectMapped n K V) : Prop := ∀ i k v, c.entries i = some (k, v) → v = f k

theorem sound_empty (f : K → V) : Sound f (empty : DirectMapped n K V) := by
  intro i k v h
  simp [empty] at h

variable [DecidableEq K]

/-- the stored answer for a key, if its slot holds that key -/
def lookup (c : DirectMapped n K V) (slot : K → Fin n) (k : K) : Option V :=
  match c.entries (slot k) with
  | some (k', v) => if k' = k then some v else none
  | none => none

/-- answer from the slot, or compute, store and answer -/
def query (c : DirectMapped n K V) (slot : K → Fin n) (f : K → V) (k : K) : V × DirectMapped n K V :=
  match c.lookup slot k with
  | some v => (v, c)
  | none => (f k, ⟨Function.update c.entries (slot k) (some (k, f k))⟩)

theorem Sound.lookup {f : K → V} {c : DirectMapped n K V} (h : Sound f c) {slot : K → Fin n} {k : K} {v : V}
    (hl : c.lookup slot k = some v) : v = f k := by
  unfold DirectMapped.lookup at hl
  split at hl
  · rename_i k' v' he
    split_ifs at hl with hk
    cases hl
    rw [h _ _ _ he, hk]
  · cases hl

/-- a query answers as `f` does -/
theorem Sound.query_fst {f : K → V} {c : DirectMapped n K V} (h : Sound f c) (slot : K → Fin n) (k : K) :
    (c.query slot f k).1 = f k := by
  unfold DirectMapped.query
  cases hl : c.lookup slot k with
  | some v => exact h.lookup hl
  | none => rfl

/-- and keeps the cache sound -/
theorem Sound.query_snd {f : K → V} {c : DirectMapped n K V} (h : Sound f c) (slot : K → Fin n) (k : K) :
    Sound f (c.query slot f k).2 := by
  unfold DirectMapped.query
  cases hl : c.lookup slot k with
  | some v => exact h
  | none =>
    intro i k' v hi
    by_cases he : i = slot k
    · subst he
      simp only [Function.update_self, Option.some.injEq, Prod.mk.injEq] at hi
      rw [← hi.2, hi.1]
    · exact h i k' v (by simpa [Function.update_of_ne he] using hi)

end DirectMapped

end Wah
