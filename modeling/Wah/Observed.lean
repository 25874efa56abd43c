/-
Machines with observable steps, and simulation up to stuttering.

A machine takes an input at every step, may show something, and goes on or stops with an outcome (`Move`). A
specification is a machine without inputs. `Simulates` relates them by a relation with a rank: a step of the
implementation is answered by any number of steps of the specification that show the same, and if there are none, on a
good input, the rank drops. An implementation may also give up, with an outcome that `Aborts` allows in the state of the
specification.

- `Simulates.sound`: whatever the inputs, a run of the implementation shows what the specification shows, and ends as it
  does unless it gives up.
- `Simulates.complete`: on good inputs the implementation gets past any number of steps of the specification, or gives
  up.
- `Simulates.sound_through`, `Simulates.complete_through`: the same with a machine in the middle.
- `run_afforded`: if every step uses up what it shows of a potential, a run shows no more than the potential it starts
  with and what it is granted.
-/
import Mathlib.Data.List.Basic
import Mathlib.Tactic

namespace Wah.Observed

variable {σ τ ε ω ι : Type}

/-- a step: what it shows, then the next state or the outcome -/
inductive Move (σ ε ω : Type) where
  | go (shown : Option ε) (s : σ)
  | stop (shown : Option ε) (out : ω)

/-- what a run on the given inputs shows, and where it ends: in a state, or with an outcome -/
def run (step : ι → σ → Move σ ε ω) : List ι → σ → List ε × Except ω σ
  | [], s => ([], .ok s)
  | i :: is, s =>
    match step i s with
    | .go e s' => (e.toList ++ (run step is s').1, (run step is s').2)
    | .stop e o => (e.toList, .error o)

/-- the first `n` steps of a machine without inputs -/
def steps (next : σ → Move σ ε ω) : Nat → σ → List ε × Except ω σ
  | 0, s => ([], .ok s)
  | n + 1, s =>
    match next s with
    | .go e s' => (e.toList ++ (steps next n s').1, (steps next n s').2)
    | .stop e o => (e.toList, .error o)

section Steps

variable {next : σ → Move σ ε ω} {s s' : σ} {es : List ε} {k n : Nat}

theorem steps_go {e : Option ε} (h : next s = .go e s') (n : Nat) :
    steps next (n + 1) s = (e.toList ++ (steps next n s').1, (steps next n s').2) := by
  simp only [steps, h]

theorem steps_stop {e : Option ε} {o : ω} (h : next s = .stop e o) (n : Nat) :
    steps next (n + 1) s = (e.toList, .error o) := by
  simp only [steps, h]

theorem steps_one {e : Option ε} (h : next s = .go e s') : steps next 1 s = (e.toList, .ok s') := by
  rw [steps_go h, steps, List.append_nil]

theorem steps_one_stop {e : Option ε} {o : ω} (h : next s = .stop e o) : steps next 1 s = (e.toList, .error o) :=
  steps_stop h 0

/-- steps one after the other -/
theorem steps_add (h : steps next k s = (es, .ok s')) (n : Nat) :
    steps next (k + n) s = (es ++ (steps next n s').1, (steps next n s').2) := by
  induction k generalizing s es with
  | zero =>
    simp only [steps, Prod.mk.injEq, Except.ok.injEq] at h
    obtain ⟨rfl, rfl⟩ := h
    rw [Nat.zero_add, List.nil_append]
  | succ k ih =>
    rw [Nat.add_right_comm]
    cases hn : next s with
    | stop e o =>
      rw [steps_stop hn, Prod.mk.injEq] at h
      exact absurd h.2 (by simp)
    | go e s1 =>
      rw [steps_go hn, Prod.mk.injEq] at h
      obtain ⟨rfl, h2⟩ := h
      have hk : steps next k s1 = ((steps next k s1).1, .ok s') := Prod.ext rfl h2
      rw [steps_go hn, ih hk, List.append_assoc]

/-- nothing comes after a stop -/
theorem steps_stopped {o : ω} (h : steps next k s = (es, .error o)) (hkn : k ≤ n) : steps next n s = (es, .error o) := by
  induction k generalizing s es n with
  | zero => simp [steps] at h
  | succ k ih =>
    obtain ⟨n, rfl⟩ : ∃ n', n = n' + 1 := ⟨n - 1, by omega⟩
    cases hn : next s with
    | stop e o' =>
      rw [steps_stop hn] at h ⊢
      exact h
    | go e s1 =>
      rw [steps_go hn, Prod.mk.injEq] at h
      obtain ⟨rfl, h2⟩ := h
      have hk : steps next k s1 = ((steps next k s1).1, .error o) := Prod.ext rfl h2
      rw [steps_go hn, ih hk (by omega)]

/-- a run shows what a longer one shows first -/
theorem steps_prefix (hkn : k ≤ n) : (steps next k s).1 <+: (steps next n s).1 := by
  obtain ⟨d, rfl⟩ := Nat.exists_eq_add_of_le hkn
  cases h : (steps next k s).2 with
  | error o =>
    have hk : steps next k s = ((steps next k s).1, .error o) := Prod.ext rfl h
    rw [steps_stopped hk hkn]
  | ok s' =>
    have hk : steps next k s = ((steps next k s).1, .ok s') := Prod.ext rfl h
    rw [steps_add hk]
    exact List.prefix_append _ _

/-- a machine without inputs ends in one way -/
theorem steps_end {es' : List ε} {o o' : ω} (h : steps next k s = (es, .error o)) (h' : steps next n s = (es', .error o')) :
    es = es' ∧ o = o' := by
  have h1 := steps_stopped h (Nat.le_max_left k n)
  have h2 := steps_stopped h' (Nat.le_max_right k n)
  rw [h1] at h2
  simpa using h2

end Steps

/-! ## Simulation -/

/-- how the specification, in state `s`, answers a step of the implementation -/
inductive Answer (next : σ → Move σ ε ω) (Aborts : σ → ω → Prop) (R : Nat → σ → τ → Prop) (good : Prop) (n : Nat) (s : σ) :
    Move τ ε ω → Prop where
  | go {e : Option ε} {t : τ} {k n' : Nat} {s' : σ} (hs : steps next k s = (e.toList, .ok s')) (hr : R n' s' t)
      (hk : good → k = 0 → n' < n) : Answer next Aborts R good n s (.go e t)
  | stop {e : Option ε} {o : ω} {k : Nat} (hs : steps next k s = (e.toList, .error o)) :
      Answer next Aborts R good n s (.stop e o)
  | abort {e : Option ε} {o : ω} {k : Nat} {s' : σ} (hs : steps next k s = (e.toList, .ok s')) (ho : Aborts s' o) :
      Answer next Aborts R good n s (.stop e o)

/-- the specification comes first: `k` steps that show nothing -/
theorem Answer.after {next : σ → Move σ ε ω} {Aborts : σ → ω → Prop} {R : Nat → σ → τ → Prop} {good : Prop} {n n' k : Nat}
    {s s' : σ} {mv : Move τ ε ω} (h : Answer next Aborts R good n' s' mv) (hs : steps next k s = ([], .ok s'))
    (hk : k = 0 → n' ≤ n) : Answer next Aborts R good n s mv := by
  cases h with
  | @go e t j n'' s'' hj hr hlt =>
    have hkj : steps next (k + j) s = (e.toList, .ok s'') := by rw [steps_add hs, hj, List.nil_append]
    refine .go hkj hr fun hg h0 => ?_
    have h1 : k = 0 := by omega
    have h2 : j = 0 := by omega
    exact Nat.lt_of_lt_of_le (hlt hg h2) (hk h1)
  | @stop e o j hj =>
    have hkj : steps next (k + j) s = (e.toList, .error o) := by rw [steps_add hs, hj, List.nil_append]
    exact .stop hkj
  | @abort e o j s'' hj ho =>
    have hkj : steps next (k + j) s = (e.toList, .ok s'') := by rw [steps_add hs, hj, List.nil_append]
    exact .abort hkj ho

/-- a simulation up to stuttering -/
def Simulates (next : σ → Move σ ε ω) (step : ι → τ → Move τ ε ω) (Aborts : σ → ω → Prop) (Good : ι → Prop)
    (R : Nat → σ → τ → Prop) : Prop :=
  ∀ n s t i, R n s t → Answer next Aborts R (Good i) n s (step i t)

section Simulates

variable {next : σ → Move σ ε ω} {step : ι → τ → Move τ ε ω} {Aborts : σ → ω → Prop} {Good : ι → Prop}
  {R : Nat → σ → τ → Prop} {n : Nat} {s : σ} {t : τ}

/-- where the two machines are: in related states, or at the same end, unless the implementation gave up -/
inductive Ends (Aborts : σ → ω → Prop) (R : Nat → σ → τ → Prop) : Except ω σ → Except ω τ → Prop where
  | running {n : Nat} {s : σ} {t : τ} (h : R n s t) : Ends Aborts R (.ok s) (.ok t)
  | stopped (o : ω) : Ends Aborts R (.error o) (.error o)
  | aborted {s : σ} {o : ω} (ho : Aborts s o) : Ends Aborts R (.ok s) (.error o)

/-- **Soundness.** A run of the implementation shows what the specification shows in some number of steps. -/
theorem Simulates.sound (h : Simulates next step Aborts Good R) (hr : R n s t) (is : List ι) :
    ∃ k, (steps next k s).1 = (run step is t).1 ∧ Ends Aborts R (steps next k s).2 (run step is t).2 := by
  induction is generalizing n s t with
  | nil => exact ⟨0, rfl, .running hr⟩
  | cons i is ih =>
    have ha := h n s t i hr
    cases hmv : step i t with
    | go e t' =>
      rw [hmv] at ha
      cases ha with
      | @go _ _ k n' s' hs hr' _ =>
        obtain ⟨j, h1, h2⟩ := ih hr'
        refine ⟨k + j, ?_, ?_⟩
        · simp only [run, hmv, steps_add hs, h1]
        · simpa only [run, hmv, steps_add hs] using h2
    | stop e o =>
      rw [hmv] at ha
      cases ha with
      | @stop _ _ k hs =>
        refine ⟨k, ?_, ?_⟩
        · simp only [run, hmv, hs]
        · simpa only [run, hmv, hs] using .stopped o
      | @abort _ _ k s' hs ho =>
        refine ⟨k, ?_, ?_⟩
        · simp only [run, hmv, hs]
        · simpa only [run, hmv, hs] using .aborted ho

/-- **Completeness.** On good inputs the implementation gets past any number of steps of the specification, or gives
up. -/
theorem Simulates.complete (h : Simulates next step Aborts Good R) (k : Nat) (hr : R n s t) {f : Nat → ι}
    (hf : ∀ j, Good (f j)) :
    ∃ j k', (steps next k' s).1 = (run step ((List.range j).map f) t).1 ∧
      Ends Aborts R (steps next k' s).2 (run step ((List.range j).map f) t).2 ∧
      (k ≤ k' ∨ ∃ s' o, Aborts s' o ∧ (steps next k' s).2 = .ok s' ∧
        (run step ((List.range j).map f) t).2 = .error o) := by
  induction k using Nat.strong_induction_on generalizing n s t f with
  | _ k ihk =>
    induction n using Nat.strong_induction_on generalizing t f with
    | _ n ihn =>
      by_cases hk0 : k = 0
      · exact ⟨0, 0, rfl, .running hr, .inl (by omega)⟩
      · have hrange : ∀ j, (List.range (j + 1)).map f = f 0 :: (List.range j).map fun x => f (x + 1) := by
          intro j
          rw [List.range_succ_eq_map, List.map_cons, List.map_map]
          rfl
        have hshift : ∀ j, Good (f (j + 1)) := fun j => hf (j + 1)
        have ha := h n s t (f 0) hr
        cases hmv : step (f 0) t with
        | go e t' =>
          rw [hmv] at ha
          cases ha with
          | @go _ _ l n' s' hs hr' hl =>
            -- a silent answer lowers the rank, any other one leaves fewer steps to get past
            obtain ⟨j, k', h1, h2, h3⟩ : ∃ j k',
                (steps next k' s').1 = (run step ((List.range j).map fun x => f (x + 1)) t').1 ∧
                Ends Aborts R (steps next k' s').2 (run step ((List.range j).map fun x => f (x + 1)) t').2 ∧
                (k - l ≤ k' ∨ ∃ s'' o, Aborts s'' o ∧ (steps next k' s').2 = .ok s'' ∧
                  (run step ((List.range j).map fun x => f (x + 1)) t').2 = .error o) := by
              by_cases hl0 : l = 0
              · subst hl0
                simp only [steps, Prod.mk.injEq, Except.ok.injEq] at hs
                obtain ⟨-, rfl⟩ := hs
                exact ihn n' (hl (hf 0) rfl) hr' hshift
              · exact ihk (k - l) (by omega) hr' hshift
            refine ⟨j + 1, l + k', ?_, ?_, ?_⟩
            · simp only [hrange, run, hmv, steps_add hs, h1]
            · simpa only [hrange, run, hmv, steps_add hs] using h2
            · rcases h3 with h3 | ⟨s'', o, ho, h4, h5⟩
              · exact .inl (by omega)
              · refine .inr ⟨s'', o, ho, ?_, ?_⟩
                · simpa only [steps_add hs] using h4
                · simpa only [hrange, run, hmv] using h5
        | stop e o =>
          rw [hmv] at ha
          have hone : run step ((List.range 1).map f) t = (e.toList, .error o) := by
            simp only [hrange, run, hmv]
          cases ha with
          | @stop _ _ l hs =>
            have hlater := steps_stopped hs (Nat.le_add_left l k)
            exact ⟨1, k + l, by rw [hlater, hone], by rw [hlater, hone]; exact .stopped o, .inl (by omega)⟩
          | @abort _ _ l s' hs ho =>
            exact ⟨1, l, by rw [hs, hone], by rw [hs, hone]; exact .aborted ho, .inr ⟨s', o, ho, by rw [hs], by rw [hone]⟩⟩

end Simulates

/-! ## Two simulations, one over the other -/

section Compose

variable {υ κ : Type} {next : σ → Move σ ε ω} {mid : τ → Move τ ε ω} {step : κ → υ → Move υ ε ω}
  {A : σ → ω → Prop} {B : τ → ω → Prop}
  {Good : κ → Prop} {R : Nat → σ → τ → Prop} {Q : Nat → τ → υ → Prop} {n l : Nat} {s : σ} {t : τ} {u : υ}

/-- related through a state in between, whatever the ranks -/
def Through (R : Nat → σ → τ → Prop) (Q : Nat → τ → υ → Prop) (_ : Nat) (s : σ) (u : υ) : Prop :=
  ∃ t n l, R n s t ∧ Q l t u

/-- where either implementation gives up, through a state in between for the second -/
def AbortsThrough (A : σ → ω → Prop) (B : τ → ω → Prop) (R : Nat → σ → τ → Prop) (s : σ) (o : ω) : Prop :=
  A s o ∨ ∃ t n, R n s t ∧ B t o

/-- a machine without inputs, as one that ignores them -/
theorem run_replicate (k : Nat) (t : τ) : run (fun _ : Unit => mid) (List.replicate k ()) t = steps mid k t := by
  induction k generalizing t with
  | zero => rfl
  | succ k ih =>
    rw [List.replicate_succ, run, steps]
    cases mid t with
    | go e t' => simp only [ih]
    | stop e o => rfl

theorem Simulates.sound_steps (h : Simulates next (fun _ : Unit => mid) A (fun _ => True) R) (hr : R n s t) (k : Nat) :
    ∃ j, (steps next j s).1 = (steps mid k t).1 ∧ Ends A R (steps next j s).2 (steps mid k t).2 := by
  simpa only [run_replicate] using h.sound hr (List.replicate k ())

theorem Simulates.complete_steps (h : Simulates next (fun _ : Unit => mid) A (fun _ => True) R) (hr : R n s t) (k : Nat) :
    ∃ j k', (steps next k' s).1 = (steps mid j t).1 ∧ Ends A R (steps next k' s).2 (steps mid j t).2 ∧
      (k ≤ k' ∨ ∃ s' o, A s' o ∧ (steps next k' s).2 = .ok s' ∧ (steps mid j t).2 = .error o) := by
  obtain ⟨j, k', h1, h2, h3⟩ := h.complete k hr (fun _ => trivial : ∀ _ : Nat, True)
  have hj : (List.range j).map (fun _ : Nat => ()) = List.replicate j () := by
    rw [List.map_const', List.length_range]
  rw [hj, run_replicate] at h1 h2 h3
  exact ⟨j, k', h1, h2, h3⟩

/-- ends of the outer machines, from those of the two simulations -/
theorem Ends.through {x : Except ω σ} {y : Except ω τ} {z : Except ω υ} (h : Ends A R x y) (h' : Ends B Q y z) :
    Ends (AbortsThrough A B R) (Through R Q) x z := by
  cases h with
  | running hr =>
    cases h' with
    | running hq => exact .running (n := 0) ⟨_, _, _, hr, hq⟩
    | aborted ho => exact .aborted (.inr ⟨_, _, hr, ho⟩)
  | stopped o =>
    cases h' with
    | stopped => exact .stopped o
  | aborted ho =>
    cases h' with
    | stopped => exact .aborted (.inl ho)

/-- more steps in the middle answer to no fewer steps of the specification, and to none after an end -/
theorem Simulates.extend (h : Simulates next (fun _ : Unit => mid) A (fun _ => True) R) {j j' k : Nat} (hj : j ≤ j')
    (h1 : (steps next k s).1 = (steps mid j t).1) (h2 : Ends A R (steps next k s).2 (steps mid j t).2) :
    ∃ k', k ≤ k' ∧ (∀ o, (steps mid j t).2 = .error o → k' = k) ∧ (steps next k' s).1 = (steps mid j' t).1 ∧
      Ends A R (steps next k' s).2 (steps mid j' t).2 := by
  obtain ⟨d, rfl⟩ := Nat.exists_eq_add_of_le hj
  cases hm : (steps mid j t).2 with
  | error o =>
    have hmid : steps mid (j + d) t = steps mid j t := by
      have h3 : steps mid j t = ((steps mid j t).1, .error o) := Prod.ext rfl hm
      rw [steps_stopped h3 (Nat.le_add_right j d), ← h3]
    exact ⟨k, Nat.le_refl k, fun _ _ => rfl, by rw [hmid, h1], by rw [hmid]; exact h2⟩
  | ok t' =>
    have hmid : steps mid j t = ((steps mid j t).1, .ok t') := Prod.ext rfl hm
    rw [hm] at h2
    cases hs : (steps next k s).2 with
    | error o =>
      rw [hs] at h2
      cases h2
    | ok s' =>
      rw [hs] at h2
      cases h2 with
      | running hr =>
        obtain ⟨i, h3, h4⟩ := h.sound_steps hr d
        have hnext : steps next k s = ((steps next k s).1, .ok s') := Prod.ext rfl hs
        refine ⟨k + i, Nat.le_add_right k i, fun o ho => (by simp at ho), ?_, ?_⟩
        · rw [steps_add hnext, steps_add hmid, h1, h3]
        · rw [steps_add hnext, steps_add hmid]
          exact h4

/-- **Soundness through a machine in the middle.** -/
theorem Simulates.sound_through (h : Simulates next (fun _ : Unit => mid) A (fun _ => True) R)
    (h' : Simulates mid step B Good Q) (hr : R n s t) (hq : Q l t u) (is : List κ) :
    ∃ k, (steps next k s).1 = (run step is u).1 ∧
      Ends (AbortsThrough A B R) (Through R Q) (steps next k s).2 (run step is u).2 := by
  obtain ⟨j, h1, h2⟩ := h'.sound hq is
  obtain ⟨k, h3, h4⟩ := h.sound_steps hr j
  exact ⟨k, h3.trans h1, h4.through h2⟩

/-- **Completeness through a machine in the middle.** -/
theorem Simulates.complete_through (h : Simulates next (fun _ : Unit => mid) A (fun _ => True) R)
    (h' : Simulates mid step B Good Q) (hr : R n s t) (hq : Q l t u) (k : Nat) {f : Nat → κ} (hf : ∀ j, Good (f j)) :
    ∃ j k', (steps next k' s).1 = (run step ((List.range j).map f) u).1 ∧
      Ends (AbortsThrough A B R) (Through R Q) (steps next k' s).2 (run step ((List.range j).map f) u).2 ∧
      (k ≤ k' ∨ ∃ s' o, AbortsThrough A B R s' o ∧ (steps next k' s).2 = .ok s' ∧
        (run step ((List.range j).map f) u).2 = .error o) := by
  obtain ⟨i, k1, h1, h2, h3⟩ := h.complete_steps hr k
  obtain ⟨j, i', h4, h5, h6⟩ := h'.complete i hq hf
  rcases h6 with h6 | ⟨t', o, ho, hstop, h6⟩
  · obtain ⟨k', hk, hsame, h7, h8⟩ := h.extend h6 h1 h2
    refine ⟨j, k', h7.trans h4, h8.through h5, ?_⟩
    rcases h3 with h3 | ⟨s', o, ho, hstop, h3⟩
    · exact .inl (h3.trans hk)
    · -- the machine in the middle gave up, and both stay where they are
      have hmid : (steps mid i' t).2 = .error o := by
        have hi : steps mid i t = ((steps mid i t).1, .error o) := Prod.ext rfl h3
        rw [steps_stopped hi h6]
      rw [hmid] at h5
      cases hu : (run step ((List.range j).map f) u).2 with
      | ok u' =>
        rw [hu] at h5
        cases h5
      | error o' =>
        rw [hu] at h5
        cases h5
        exact .inr ⟨s', o, .inl ho, by rw [hsame o h3, hstop], rfl⟩
  · obtain ⟨k', h7, h8⟩ := h.sound_steps hr i'
    refine ⟨j, k', h7.trans h4, h8.through h5, .inr ?_⟩
    rw [hstop] at h8
    generalize (steps next k' s).2 = y at h8 ⊢
    cases h8 with
    | running hr' => exact ⟨_, o, .inr ⟨t', _, hr', ho⟩, rfl, h6⟩

end Compose

/-! ## Invariants -/

/-- what every step keeps, a run keeps -/
theorem run_keeps {step : ι → σ → Move σ ε ω} {Inv : σ → Prop}
    (hstep : ∀ s i e s', Inv s → step i s = .go e s' → Inv s') {s s' : σ} (h : Inv s) {is : List ι}
    (hrun : (run step is s).2 = .ok s') : Inv s' := by
  induction is generalizing s with
  | nil =>
    simp only [run, Except.ok.injEq] at hrun
    exact hrun ▸ h
  | cons i is ih =>
    simp only [run] at hrun
    cases hm : step i s with
    | stop e o => simp [hm] at hrun
    | go e s1 => exact ih (hstep s i e s1 h hm) (by simpa only [hm] using hrun)

/-! ## Potentials -/

section Potential

variable {step : ι → σ → Move σ ε ω} {grant : ι → σ → Nat} {W : Nat → σ → Prop}

/-- what a run is granted -/
def granted (step : ι → σ → Move σ ε ω) (grant : ι → σ → Nat) : List ι → σ → Nat
  | [], _ => 0
  | i :: is, s =>
    match step i s with
    | .go _ s' => grant i s + granted step grant is s'
    | .stop _ _ => grant i s

/-- a step that shows no more than it uses up of the potential `b` -/
inductive Afforded (W : Nat → σ → Prop) (b : Nat) : Move σ ε ω → Prop where
  | go {e : Option ε} {s : σ} {n : Nat} (hw : W n s) (hle : e.toList.length + n ≤ b) : Afforded W b (.go e s)
  | stop {e : Option ε} {o : ω} (hle : e.toList.length ≤ b) : Afforded W b (.stop e o)

/-- **A run shows no more than its potential and what it is granted.** -/
theorem run_afforded (hstep : ∀ n s i, W n s → Afforded W (n + grant i s) (step i s)) {n : Nat} {s : σ} (h : W n s)
    (is : List ι) :
    (run step is s).1.length ≤ n + granted step grant is s ∧
      ∀ s', (run step is s).2 = .ok s' →
        ∃ n', W n' s' ∧ (run step is s).1.length + n' ≤ n + granted step grant is s := by
  induction is generalizing n s with
  | nil =>
    refine ⟨Nat.zero_le _, fun s' hs => ?_⟩
    simp only [run, Except.ok.injEq] at hs
    exact ⟨n, hs ▸ h, by simp [run, granted]⟩
  | cons i is ih =>
    have hi := hstep n s i h
    simp only [run, granted]
    cases hm : step i s with
    | stop e o =>
      rw [hm] at hi
      cases hi with
      | stop hle => exact ⟨hle, fun s' hs => by simp at hs⟩
    | go e s1 =>
      rw [hm] at hi
      cases hi with
      | go hw hle =>
        obtain ⟨hshown, hlast⟩ := ih hw
        simp only [List.length_append]
        refine ⟨by omega, fun s' hs => ?_⟩
        obtain ⟨n', hw', hle'⟩ := hlast s' hs
        exact ⟨n', hw', by omega⟩

end Potential

end Wah.Observed
