/-
Weights of positions, and what one instruction does to them.

Positions of the code have weights, such as the visits that have been paid for before control comes to them. An
activation weighs what the positions of its frames do. If branches, clauses and functions lead to positions of no
weight, no instruction makes the activation heavier than going on at the next position would (`execInstr_within`).
-/
import Wah.Successors

namespace Wah

section Weights

variable {ι Val Store Exn τ π : Type} {P : ι → Func} (N : Nav ι τ π) (W : ι → π → Nat → Prop)

/-- what the positions of frames weigh -/
inductive Weigh : List (Frame ι Val π) → Nat → Prop where
  | nil : Weigh [] 0
  | cons {fr : Frame ι Val π} {rest : List (Frame ι Val π)} {n k : Nat} (h : W fr.fid fr.pc n) (hr : Weigh rest k) :
      Weigh (fr :: rest) (n + k)

/-- a target of no weight -/
def Light (f : ι) (t : τ) : Prop := ∀ p, W f (N.goto f t p) 0

/-- an activation of some weight, with handlers of none -/
structure Core.Weighs (c : Core ι Val Store τ π) (k : Nat) : Prop where
  frames : Weigh W c.frames k
  handlers : ∀ h ∈ c.handlers, ∀ lc ∈ h.catches, Light N W h.fid lc.target

/-- an outcome that weighs at most `b` -/
def Res.Within (b : Nat) : Res ι Val Store τ π → Prop
  | .run c _ => ∃ k ≤ b, c.Weighs N W k
  | _ => True

variable {N W} {S : Sem ι Val Store Exn P} {fr : Frame ι Val π} {rest : List (Frame ι Val π)} {c : Core ι Val Store τ π}
  {i : LInstr τ} {n k : Nat}

/-- outer frames weigh no more -/
theorem Weigh.suffix {fs gs : List (Frame ι Val π)} (h : Weigh W fs k) (hs : gs <:+ fs) : ∃ k' ≤ k, Weigh W gs k' := by
  induction h with
  | nil =>
    rw [List.suffix_nil.mp hs]
    exact ⟨0, Nat.le_refl _, .nil⟩
  | cons h hr ih =>
    rcases List.suffix_cons_iff.mp hs with rfl | hs
    · exact ⟨_, Nat.le_refl _, .cons h hr⟩
    · obtain ⟨k', hle, hk⟩ := ih hs
      exact ⟨k', by omega, hk⟩

section Exec

variable (hrest : Weigh W rest k) (hh : ∀ h ∈ c.handlers, ∀ lc ∈ h.catches, Light N W h.fid lc.target)
include hrest hh

theorem jump_within {t : τ} (ht : Light N W fr.fid t) (vs : List Val) : (c.jump N fr rest t vs).Within N W (n + k) :=
  ⟨0 + k, by omega, .cons (ht fr.pc) hrest, hh⟩

variable (hentry : ∀ g, W g (N.entry g) 0) (ht : ∀ t ∈ i.targets, Light N W fr.fid t)
include ht

omit hrest in
/-- handlers lead to targets of no weight -/
theorem Inherits.light {hs : List (Handler ι τ)} (h : Inherits c fr i hs) :
    ∀ h ∈ hs, ∀ lc ∈ h.catches, Light N W h.fid lc.target := by
  intro h' hm lc hlc
  rcases h h' hm with hm | ⟨hfid, hm⟩
  · exact hh h' hm lc hlc
  · rw [hfid]
    exact ht lc.target (hm lc hlc)

include hentry

/-- **No instruction makes the activation heavier.** -/
theorem execInstr_within (hown : Owned (fr.fid :: rest.map Frame.fid) c.handlers)
    (hpos : i.noFallthrough = false → W fr.fid fr.pc n) :
    (execInstr S N c fr rest i).Within N W (n + k) := by
  have hgoes := execInstr_goes (S := S) (N := N) (i := i) hown
  cases hres : execInstr S N c fr rest i with
  | run c' z =>
    rw [hres] at hgoes
    simp only [Res.Goes] at hgoes
    cases hgoes with
    | @stay fr' hs st hfid hlocals hpc hin =>
      rcases hpc with ⟨hpc, hi⟩ | ⟨t, hm, hpc⟩
      · have h : W fr'.fid fr'.pc n := by
          rw [hfid, hpc]
          exact hpos hi
        exact ⟨n + k, Nat.le_refl _, .cons h hrest, hin.light hh ht⟩
      · have h : W fr'.fid fr'.pc 0 := by
          rw [hfid, hpc]
          exact ht t hm fr.pc
        exact ⟨0 + k, by omega, .cons h hrest, hin.light hh ht⟩
    | call hi hargs hroom hin => exact ⟨0 + (n + k), by omega, .cons (hentry _) (.cons (hpos hi) hrest), hin.light hh ht⟩
    | tailCall hargs hroom hin => exact ⟨0 + k, by omega, .cons (hentry _) hrest, hin.light hh ht⟩
    | return_ hr hin =>
      subst hr
      cases hrest with
      | @cons caller rest' n' k' h hr => exact ⟨n' + k', by omega, .cons h hr, hin.light hh ht⟩
    | @catch_ g gs h lc vs hs st hg hmem hfid hlc hin =>
      -- what lies below the frame that catches, lies below the frame that throws
      have hgs : gs <:+ rest := by
        rcases List.suffix_cons_iff.mp hg with heq | hg
        · exact (List.cons.inj heq).2 ▸ List.suffix_rfl
        · exact (List.suffix_cons _ _).trans hg
      obtain ⟨k', hk, hgs⟩ := hrest.suffix hgs
      have hlight : W g.fid (N.goto h.fid lc.target g.pc) 0 := by
        rw [hfid]
        exact hh h hmem lc hlc g.pc
      exact ⟨0 + k', by omega, .cons hlight hgs, hin.light hh ht⟩
  | _ => trivial

end Exec

end Weights

end Wah
