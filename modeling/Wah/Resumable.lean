/-
Operations that may stop halfway and are visited again.

A visit of an operation, on some budget, ends it, leaves a state that stands for the rest, or fails. `Lawful` says that
the rest always comes to the same as the whole. Then any number of visits does (`Lawful.resume`), visits on good
budgets end the operation (`resume_ends`), and what they cost together does not depend on the budgets
(`Priced.resume`). A pause is a visit that does nothing.

`Additive` is about an action on a range of items that may be cut anywhere; `each` does one item after the other.
-/
import Mathlib.Data.List.ReduceOption
import Mathlib.Tactic

namespace Wah.Resumable

variable {σ ρ ε β : Type}

/-- what a visit comes to, and its cost -/
inductive Visited (σ ρ ε : Type) where
  | done (r : ρ) (cost : Nat)
  | part (s : σ) (cost : Nat)
  | fail (e : ε) (s : σ)

def Visited.plus (n : Nat) : Visited σ ρ ε → Visited σ ρ ε
  | .done r cost => .done r (n + cost)
  | .part s cost => .part s (n + cost)
  | .fail e s => .fail e s

@[simp] theorem Visited.plus_zero (v : Visited σ ρ ε) : v.plus 0 = v := by
  cases v <;> simp [Visited.plus]

/-- visits one after the other, as long as the operation is not over; the pauses are left out -/
def resume (visit : β → σ → Visited σ ρ ε) : List (Option β) → σ → Visited σ ρ ε
  | [], s => .part s 0
  | none :: bs, s => resume visit bs s
  | some b :: bs, s =>
    match visit b s with
    | .part s' cost => (resume visit bs s').plus cost
    | r => r

/-- the rest comes to the same as the whole, and nothing fails halfway -/
structure Lawful (whole : σ → Except ε ρ) (visit : β → σ → Visited σ ρ ε) : Prop where
  done : ∀ b s r cost, visit b s = .done r cost → whole s = .ok r
  part : ∀ b s s' cost, visit b s = .part s' cost → ∃ r, whole s = .ok r ∧ whole s' = .ok r
  fail : ∀ b s e s', visit b s = .fail e s' → whole s = .error e ∧ s' = s

/-- what a result says about the state that was set out from -/
def Visited.Means (whole : σ → Except ε ρ) (s : σ) : Visited σ ρ ε → Prop
  | .done r _ => whole s = .ok r
  | .part s' _ => whole s' = whole s
  | .fail e s' => whole s = .error e ∧ s' = s

section Lawful

variable {whole : σ → Except ε ρ} {visit : β → σ → Visited σ ρ ε} {bs : List (Option β)} {s : σ}

/-- any number of visits comes to the same as the whole -/
theorem Lawful.resume (h : Lawful whole visit) (bs : List (Option β)) (s : σ) :
    (Resumable.resume visit bs s).Means whole s := by
  induction bs generalizing s with
  | nil => exact rfl
  | cons b bs ih =>
    cases b with
    | none => exact ih s
    | some b =>
      rw [Resumable.resume]
      cases hv : visit b s with
      | done r cost => exact h.done b s r cost hv
      | fail e s' => exact h.fail b s e s' hv
      | part s' cost =>
        obtain ⟨r, h1, h2⟩ := h.part b s s' cost hv
        have hrest := ih s'
        dsimp only
        cases hr : Resumable.resume visit bs s' with
        | done r' cost' =>
          rw [hr] at hrest
          exact h1.trans (h2.symm.trans hrest)
        | part s'' cost' =>
          rw [hr] at hrest
          exact Eq.trans hrest (h2.trans h1.symm)
        | fail e s'' =>
          rw [hr] at hrest
          exact absurd (h2.symm.trans hrest.1) (by simp)

/-- good visits end an operation that has fewer items left than there are visits -/
theorem resume_ends (Good : β → Prop) {left : σ → Nat}
    (hleft : ∀ b s s' cost, Good b → visit b s = .part s' cost → left s' < left s)
    (hgood : ∀ b, some b ∈ bs → Good b) (hs : left s < bs.reduceOption.length) (s' : σ) (cost : Nat) :
    Resumable.resume visit bs s ≠ .part s' cost := by
  induction bs generalizing s cost with
  | nil => exact absurd hs (Nat.not_lt_zero _)
  | cons b bs ih =>
    have hgood' : ∀ b, some b ∈ bs → Good b := fun b hb => hgood b (List.mem_cons_of_mem _ hb)
    cases b with
    | none => exact ih hgood' (by simpa using hs) cost
    | some b =>
      rw [List.reduceOption_cons_of_some, List.length_cons] at hs
      rw [Resumable.resume]
      cases hv : visit b s with
      | done r cost | fail e s' => simp
      | part s1 cost1 =>
        have hlt := hleft b s s1 cost1 (hgood b List.mem_cons_self) hv
        have hrest := ih (s := s1) hgood' (by omega)
        dsimp only
        cases hr : Resumable.resume visit bs s1 with
        | done r cost | fail e s2 => simp [Visited.plus]
        | part s2 cost2 =>
          intro h
          simp only [Visited.plus, Visited.part.injEq] at h
          exact hrest cost2 (h.1 ▸ hr)

/-- a visit pays for what it does -/
structure Priced (price : σ → Nat) (visit : β → σ → Visited σ ρ ε) : Prop where
  done : ∀ b s r cost, visit b s = .done r cost → cost = price s
  part : ∀ b s s' cost, visit b s = .part s' cost → cost + price s' = price s

/-- what has been paid for, and what has not -/
def Visited.Pays (price : σ → Nat) (total : Nat) : Visited σ ρ ε → Prop
  | .done _ cost => cost = total
  | .part s cost => cost + price s = total
  | .fail _ _ => True

theorem Visited.Pays.plus {price : σ → Nat} {v : Visited σ ρ ε} {n total : Nat} (h : v.Pays price total) :
    (v.plus n).Pays price (n + total) := by
  cases v with
  | done r cost => exact congrArg (n + ·) h
  | part s cost => exact (Nat.add_assoc ..).trans (congrArg (n + ·) h)
  | fail e s => exact trivial

/-- together, visits pay for the whole -/
theorem Priced.resume {price : σ → Nat} (h : Priced price visit) (bs : List (Option β)) (s : σ) :
    (Resumable.resume visit bs s).Pays price (price s) := by
  induction bs generalizing s with
  | nil => exact Nat.zero_add _
  | cons b bs ih =>
    cases b with
    | none => exact ih s
    | some b =>
      rw [Resumable.resume]
      cases hv : visit b s with
      | done r cost => exact h.done b s r cost hv
      | fail e s' => exact trivial
      | part s' cost =>
        rw [← h.part b s s' cost hv]
        exact (ih s').plus

end Lawful

/-! ## Ranges of items -/

/-- an action on `n` items from the `d`-th, out of `size`, that may be cut into ranges -/
structure Additive (size : Nat) (act : Nat → Nat → σ → σ) : Prop where
  zero : ∀ d s, act d 0 s = s
  add : ∀ d a b s, d + a + b ≤ size → act (d + a) b (act d a s) = act d (a + b) s

/-- one item after the other -/
def each (act : Nat → Nat → σ → σ) : Nat → Nat → σ → σ
  | _, 0, s => s
  | d, n + 1, s => each act (d + 1) n (act d 1 s)

theorem Additive.each {size : Nat} {act : Nat → Nat → σ → σ} (h : Additive size act) {d n : Nat} (s : σ)
    (hn : d + n ≤ size) : Resumable.each act d n s = act d n s := by
  induction n generalizing d s with
  | zero => exact (h.zero d s).symm
  | succ n ih =>
    rw [Resumable.each, ih _ (by omega), h.add d 1 n s (by omega), Nat.add_comm 1 n]

theorem each_append (act : Nat → Nat → σ → σ) (d a b : Nat) (s : σ) :
    Resumable.each act (d + a) b (Resumable.each act d a s) = Resumable.each act d (a + b) s := by
  induction a generalizing d s with
  | zero => rw [Nat.zero_add]; rfl
  | succ a ih =>
    have := ih (d + 1) (act d 1 s)
    rw [Nat.add_assoc, Nat.add_comm 1 a] at this
    rw [Nat.add_right_comm a 1 b]
    exact this

/-- one item after the other may always be cut -/
theorem each_additive (size : Nat) (act : Nat → Nat → σ → σ) : Additive size (Resumable.each act) where
  zero _ _ := rfl
  add d a b s _ := each_append act d a b s

/-- actions that agree on single items agree one item after the other -/
theorem each_congr {act act' : Nat → Nat → σ → σ} {d n : Nat} (s : σ)
    (h : ∀ i s, d ≤ i → i < d + n → act i 1 s = act' i 1 s) : Resumable.each act d n s = Resumable.each act' d n s := by
  induction n generalizing d s with
  | zero => rfl
  | succ n ih =>
    rw [Resumable.each, Resumable.each, h d s (Nat.le_refl _) (by omega)]
    exact ih _ fun i s hi hlt => h i s (by omega) (by omega)

/-- an action that may be cut is that on one item after the other -/
theorem Additive.single {size : Nat} {act : Nat → Nat → σ → σ} (h : Additive size act) {d n : Nat} (s : σ)
    (hn : d + n ≤ size) : Resumable.each (fun i _ => act i 1) d n s = act d n s := by
  have hsame : Resumable.each (fun i _ => act i 1) d n s = Resumable.each act d n s := each_congr s fun _ _ _ _ => rfl
  rw [hsame, h.each s hn]

end Wah.Resumable
