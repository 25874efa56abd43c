/-
Computations behind gates.

A value carries the set of gates that are open, and a record of the gates that have been asked for. A computation is gated
when it looks at the open gates only by asking for them: from one run that succeeds it is known what happens under any other
set of open gates.

- `Gated.bind`, `Gated.look`, `Gated.foldlM`: sequences of gated computations are gated.
- `Gated.reopened`: a run repeated with other gates open succeeds exactly when all gates in its record are open.
-/
import Mathlib.Data.List.Basic
import Mathlib.Tactic

namespace Wah.Gating

/-- values with a set of open gates and a record of those asked for, latest first -/
class Carrier (G : outParam Type) (σ : Type) where
  withOpen : σ → (G → Bool) → σ
  asked : σ → List G

export Carrier (withOpen asked)

/-- the record of a pair is the one of its second component -/
instance {G α σ : Type} [Carrier G σ] : Carrier G (α × σ) where
  withOpen p gates := (p.1, withOpen p.2 gates)
  asked p := asked p.2

variable {G σ ρ μ α β ε δ : Type} [Carrier G σ] [Carrier G ρ] [Carrier G μ]

/-- one run that succeeds tells all others: `refused` is the answer at a gate that is closed -/
def Gated (refused : ε) (f : σ → Except ε ρ) : Prop :=
  ∀ s r, f s = .ok r → ∃ new, asked r = new ++ asked s ∧
    ∀ gates, f (withOpen s gates) = if ∀ g ∈ new, gates g = true then .ok (withOpen r gates) else .error refused

namespace Gated

variable {refused : ε}

theorem pure {f : σ → ρ} (hasked : ∀ s, asked (f s) = asked s)
    (hopen : ∀ s gates, f (withOpen s gates) = withOpen (f s) gates) : Gated refused fun s => .ok (f s) := by
  intro s r h
  beta_reduce at h ⊢
  obtain rfl := Except.ok.inj h
  refine ⟨[], hasked s, fun gates => ?_⟩
  rw [if_pos (fun g hg => absurd hg List.not_mem_nil), hopen]

theorem fail {e : ε} : Gated refused fun _ : σ => (.error e : Except ε ρ) := by
  intro s r h
  cases h

theorem bind {f : σ → Except ε ρ} {k : ρ → Except ε μ} (hf : Gated refused f) (hk : Gated refused k) :
    Gated refused fun s => f s >>= k := by
  intro s t h
  beta_reduce at h ⊢
  cases hr : f s with
  | error e =>
    rw [hr] at h
    cases h
  | ok r =>
    rw [hr] at h
    obtain ⟨new, hnew, hfirst⟩ := hf s r hr
    obtain ⟨new', hnew', hsecond⟩ := hk r t h
    refine ⟨new' ++ new, by rw [hnew', hnew, List.append_assoc], fun gates => ?_⟩
    rw [hfirst gates]
    by_cases hopen : ∀ g ∈ new, gates g = true
    · have hboth : (∀ g ∈ new' ++ new, gates g = true) ↔ ∀ g ∈ new', gates g = true := by
        rw [List.forall_mem_append]
        exact and_iff_left hopen
      rw [if_pos hopen]
      simp only [hboth]
      exact hsecond gates
    · have hboth : ¬ ∀ g ∈ new' ++ new, gates g = true := fun h => hopen (List.forall_mem_append.1 h).2
      rw [if_neg hopen, if_neg hboth]
      rfl

/-- a look at the value that has nothing to do with the gates -/
theorem look {x : σ → Except ε α} {k : α → σ → Except ε ρ} (hx : ∀ s gates, x (withOpen s gates) = x s)
    (hk : ∀ a, Gated refused (k a)) : Gated refused fun s => x s >>= fun a => k a s := by
  intro s r h
  beta_reduce at h ⊢
  cases ha : x s with
  | error e =>
    rw [ha] at h
    cases h
  | ok a =>
    rw [ha] at h
    obtain ⟨new, hnew, hgates⟩ := hk a s r h
    refine ⟨new, hnew, fun gates => ?_⟩
    rw [hx, ha]
    exact hgates gates

theorem onSnd {f : α × σ → Except ε ρ} (hf : ∀ a, Gated refused fun s => f (a, s)) : Gated refused f := by
  rintro ⟨a, s⟩ r h
  exact hf a s r h

theorem atFst {f : α × σ → Except ε ρ} (hf : Gated refused f) (a : α) : Gated refused fun s => f (a, s) := by
  intro s r h
  exact hf (a, s) r h

theorem foldlM {step : σ → β → Except ε σ} (hstep : ∀ b, Gated refused fun s => step s b) (l : List β) :
    Gated refused fun s => l.foldlM step s := by
  induction l with
  | nil => exact pure (fun _ => rfl) fun _ _ => rfl
  | cons b l ih =>
    simp only [List.foldlM_cons]
    exact bind (hstep b) ih

theorem mapError {f : σ → Except ε ρ} (hf : Gated refused f) (m : ε → δ) :
    Gated (m refused) fun s => (f s).mapError m := by
  intro s r h
  beta_reduce at h ⊢
  cases hr : f s with
  | error e =>
    rw [hr] at h
    cases h
  | ok r' =>
    rw [hr] at h
    obtain rfl := Except.ok.inj h
    obtain ⟨new, hnew, hgates⟩ := hf s _ hr
    refine ⟨new, hnew, fun gates => ?_⟩
    rw [hgates]
    split <;> rfl

/-- **Other gates.** A run that started without a record has recorded all that it needs. -/
theorem reopened {f : σ → Except ε ρ} (hf : Gated refused f) {s : σ} {r : ρ} (hs : asked s = []) (h : f s = .ok r)
    (gates : G → Bool) :
    f (withOpen s gates) = if ∀ g ∈ asked r, gates g = true then .ok (withOpen r gates) else .error refused := by
  obtain ⟨new, hnew, hgates⟩ := hf s r h
  rw [hs, List.append_nil] at hnew
  rw [hnew]
  exact hgates gates

end Gated

end Wah.Gating
