/-
A metered run visits no more instructions than its fuel.

A METER takes the fuel of a whole chunk before any record of it, a TICK the fuel of one record, and no branch gets
around them (`Place.stands`, `Place.of_target`). The potential of a context is what it has paid for in every frame,
callers included, and the fuel it has left; a visit uses it up, and only resumptions add to it.

- `iStep_pays`: one instruction uses up the potential of what it visits.
- `fuel_bounds_visits`: the visits of a run, and the fuel left at its end, are within the fuel it was given.
-/
import Wah.Transparency
import Wah.Weights

namespace Wah

open Observed

section Fuel

variable {ι Val Store Exn : Type} {P : ι → Func} {S : Sem ι Val Store Exn P} {K : Costs S} {slow : ι → Nat → Nat}

/-- a position of metered code where `n` visits have been paid for -/
def Paid (P : ι → Func) (slow : ι → Nat → Nat) (f : ι) (o n : Nat) : Prop :=
  ∃ l r, Place ((P f).plan true) (codeOf P true f) (slow f) l n r o

/-- `wah_set_fuel` before a suspended context is resumed -/
def refuelled (K : Costs S) (code : ι → List (LInstr Nat)) (sig : Signal) (x : ICtx ι Val Store) : Nat :=
  match iStep K true code sig x with
  | .suspended _ _ => sig.refill.getD 0
  | _ => 0

/-- an instruction that visits `shown` instructions within the potential `b` -/
inductive Pays (P : ι → Func) (slow : ι → Nat → Nat) (shown b : Nat) : IRes ι Val Store → Prop where
  | run {y : ICtx ι Val Store} {k : Nat} (hw : y.core.Weighs iNav (Paid P slow) k)
      (hle : shown + (k + y.fuel.toNat) ≤ b) : Pays P slow shown b (.run y)
  | suspended {why : Suspension} {y : ICtx ι Val Store} {k : Nat} (hw : y.core.Weighs iNav (Paid P slow) k)
      (hle : k + y.fuel.toNat ≤ b) : Pays P slow shown b (.suspended why y)
  | finished {vs : List Val} {st : Store} (hle : shown ≤ b) : Pays P slow shown b (.finished vs st)
  | failed {e : Fault} {st : Store} (hle : shown ≤ b) : Pays P slow shown b (.failed e st)
  | stuck (hle : shown ≤ b) : Pays P slow shown b .stuck

theorem Pays.mono {shown b b' : Nat} {r : IRes ι Val Store} (h : Pays P slow shown b r) (hb : b ≤ b') :
    Pays P slow shown b' r := by
  cases h with
  | run hw hle => exact .run hw (hle.trans hb)
  | suspended hw hle => exact .suspended hw (hle.trans hb)
  | finished hle => exact .finished (hle.trans hb)
  | failed hle => exact .failed (hle.trans hb)
  | stuck hle => exact .stuck (hle.trans hb)

/-- charges do not add fuel -/
theorem chargeFuel_le (m : Bool) (fuel : Int) (n : Nat) : (chargeFuel m fuel n).toNat ≤ fuel.toNat := by
  unfold chargeFuel
  split <;> omega

/-- an instruction that leaves frames of some weight -/
theorem Res.Within.pays {r : Res ι Val Store Nat Nat} {shown n b : Nat} (h : r.Within iNav (Paid P slow) n)
    (i : LInstr Nat) (charge : Nat) (x : ICtx ι Val Store) (hle : shown + (n + x.fuel.toNat) ≤ b) :
    Pays P slow shown b (x.after true i charge r) := by
  cases r with
  | run c zeroed =>
    obtain ⟨k, hk, hw⟩ := h
    have hfuel := chargeFuel_le true x.fuel (charge + localsCharge zeroed)
    refine .run (k := k) hw ?_
    simp only
    omega
  | finished vs st => exact .finished (by omega)
  | failed e st => exact .failed (by omega)
  | stuck => exact .stuck (by omega)

section Step

variable {fr : Frame ι Val Nat} {rest : List (Frame ι Val Nat)} {hs : List (Handler ι Nat)} {st : Store} {fuel : Int}
  {pollIdx : List Nat} {began : Option (List Val × Store)} {sig : Signal} {k : Nat}

/-- the visits of an instruction and those of its record -/
theorem length_iVisit {rec : Record} {i : LInstr Target} {val : Target → Nat} (hi : rec.main = some i)
    (hf : fetch (codeOf P true fr.fid) fr.pc = some (i.map val)) :
    (iVisit (codeOf P true) ⟨⟨fr :: rest, hs, st⟩, fuel, pollIdx, began⟩).toList.length = rec.visits := by
  simp only [iVisit, hf, Option.bind_some, LInstr.visit_map, Record.visits, hi]
  cases i.visit <;> rfl

theorem length_iVisit_none {i : LInstr Nat} (hf : fetch (codeOf P true fr.fid) fr.pc = some i) (hi : i.visit = none) :
    (iVisit (codeOf P true) ⟨⟨fr :: rest, hs, st⟩, fuel, pollIdx, began⟩).toList.length = 0 := by
  rw [iVisit_none hf hi]
  rfl

variable (hrest : Weigh (Paid P slow) rest k) (hh : ∀ h ∈ hs, ∀ lc ∈ h.catches, Light iNav (Paid P slow) h.fid lc.target)
include hrest hh

/-- a bulk operation pays for its visit when it is done -/
theorem bulkStep_pays {d : DataOp} {map : Option Nat} {n n' shown b : Nat} {past : Frame ι Val Nat}
    (hfid : past.fid = fr.fid) (hpos : Paid P slow fr.fid fr.pc n) (hpast : Paid P slow fr.fid past.pc n')
    (hn : n + k + fuel.toNat ≤ b) (hn' : shown + (n' + k + fuel.toNat) ≤ b) :
    Pays P slow shown b (bulkStep K true sig ⟨⟨fr :: rest, hs, st⟩, fuel, pollIdx, began⟩ fr past rest d map) := by
  unfold bulkStep
  dsimp only
  split
  · exact .suspended (k := n + k) ⟨.cons hpos hrest, hh⟩ hn
  · split
    · exact .failed (by omega)
    · rename_i charge _
      have hfuel := chargeFuel_le true fuel charge
      exact .run (k := n' + k) ⟨.cons (by simpa only [hfid] using hpast) hrest, hh⟩ (by simp only; omega)
    · rename_i charge _
      have hfuel := chargeFuel_le true fuel charge
      exact .suspended (k := n + k) ⟨.cons hpos hrest, hh⟩ (by simp only; omega)

variable (hacc : ∀ f, (P f).Accepted true)
  (hplaced : ∀ f, Placed ((P f).plan true) (codeOf P true f) (slow f))
include hacc hplaced

omit hplaced hrest hh in
/-- branches lead to METERs, or past the last visit -/
theorem target_light {rec : Record} {i : LInstr Target}
    (hr : rec ∈ ((P fr.fid).plan true).records) (hi : rec.main = some i) :
    ∀ t ∈ (i.map (((P fr.fid).plan true).offset ((P fr.fid).plan true).recordOffset)).targets,
      Light iNav (Paid P slow) fr.fid t := by
  intro t ht p
  rw [LInstr.targets_map] at ht
  obtain ⟨t0, ht0, rfl⟩ := List.mem_map.mp ht
  obtain ⟨l, n, h, hn⟩ := Place.of_target (codeOf P true fr.fid) (slow fr.fid) (hacc fr.fid).closed hr hi ht0
  exact ⟨l, _, hn (planOf_emitMeter true _) ▸ h⟩

omit hrest hh in
/-- functions start with a METER -/
theorem paid_entry (g : ι) : Paid P slow g (iNav.entry g) 0 := by
  obtain ⟨rs, last, hrs, -⟩ := (hacc g).closed.last
  have hlt : 0 < ((P g).plan true).records.length := by simp [hrs]
  have hr := List.getElem?_eq_getElem hlt
  obtain ⟨l, n, h, -, hn⟩ := Place.start (codeOf P true g) (slow g) hr
  rw [hn ((hplaced g).first (planOf_emitMeter true _) _ hr), Plan.recordOffset_zero] at h
  exact ⟨l, 0, h⟩

/-- the instruction of a record pays for its visit -/
theorem iStep_main_pays {l n r : Nat} {rec : Record} {i : LInstr Target}
    (hr : ((P fr.fid).plan true).records[r]? = some rec) (hi : rec.main = some i)
    (hf : fetch (codeOf P true fr.fid) fr.pc =
      some (i.map (((P fr.fid).plan true).offset ((P fr.fid).plan true).recordOffset)))
    (hn : rec.visits ≤ n)
    (hnext : i.noFallthrough = false → ∃ l n', Place ((P fr.fid).plan true) (codeOf P true fr.fid) (slow fr.fid) l n'
      (r + 1) (fr.pc + i.size) ∧ rec.visits + n' ≤ n)
    (hplace : Place ((P fr.fid).plan true) (codeOf P true fr.fid) (slow fr.fid) l n r fr.pc)
    (hown : Owned (fr.fid :: rest.map Frame.fid) hs) :
    Pays P slow (iVisit (codeOf P true) ⟨⟨fr :: rest, hs, st⟩, fuel, pollIdx, began⟩).toList.length (n + k + fuel.toNat)
      (iStep K true (codeOf P true) sig ⟨⟨fr :: rest, hs, st⟩, fuel, pollIdx, began⟩) := by
  rw [length_iVisit hi hf]
  by_cases hbulk : ∃ d map, i = .op (.data d) map ∧ d.isResumableBulk = true
  · obtain ⟨d, map, rfl, hbulk⟩ := hbulk
    obtain ⟨l', n', hpast, hle⟩ := hnext rfl
    have hstep : iStep K true (codeOf P true) sig ⟨⟨fr :: rest, hs, st⟩, fuel, pollIdx, began⟩ =
        bulkStep K true sig ⟨⟨fr :: rest, hs, st⟩, fuel, pollIdx, began⟩ fr
          { fr with pc := fr.pc + (LInstr.op (.data d) map : LInstr Nat).size } rest d map := by
      simp only [iStep, hf, LInstr.map, hbulk, if_true]
    rw [hstep]
    exact bulkStep_pays hrest hh rfl ⟨l, r, hplace⟩ ⟨l', r + 1, hpast⟩ (by omega) (by omega)
  · have hplain : ∀ d map, i = .op (.data d) map → d.isResumableBulk = false := by
      intro d map hd
      by_contra hne
      exact hbulk ⟨d, map, hd, by simpa using hne⟩
    have hmain := (hacc fr.fid).closed.mains rec (List.mem_of_getElem? hr) i hi
    have hframes : (⟨⟨fr :: rest, hs, st⟩, fuel, pollIdx, began⟩ : ICtx ι Val Store).core.frames = fr :: rest := rfl
    obtain ⟨charge, hstep⟩ := iStep_main (K := K) (m := true) hframes hf hmain hplain
    -- instructions that do not go on weigh nothing after them
    obtain ⟨n', hpast, hle⟩ : ∃ n', (i.noFallthrough = false → Paid P slow fr.fid (fr.pc + i.size) n') ∧
        rec.visits + n' ≤ n := by
      cases hfall : i.noFallthrough with
      | true => exact ⟨0, by simp, by omega⟩
      | false =>
        obtain ⟨l', n', h, hle⟩ := hnext hfall
        exact ⟨n', fun _ => ⟨l', r + 1, h⟩, hle⟩
    have hwithin : (execInstr S iNav ⟨fr :: rest, hs, st⟩ { fr with pc := fr.pc + i.size } rest
        (i.map (((P fr.fid).plan true).offset ((P fr.fid).plan true).recordOffset))).Within iNav (Paid P slow) (n' + k) :=
      execInstr_within hrest hh (paid_entry hacc hplaced) (target_light hacc (List.mem_of_getElem? hr) hi) hown
        fun hfall => hpast (noFallthrough_map _ i ▸ hfall)
    rw [hstep]
    exact hwithin.pays _ charge _ (by simp only; omega)

/-- **One instruction** uses up the potential of what it visits. -/
theorem iStep_pays {l n r : Nat} (hplace : Place ((P fr.fid).plan true) (codeOf P true fr.fid) (slow fr.fid) l n r fr.pc)
    (hown : Owned (fr.fid :: rest.map Frame.fid) hs) :
    Pays P slow (iVisit (codeOf P true) ⟨⟨fr :: rest, hs, st⟩, fuel, pollIdx, began⟩).toList.length (n + k + fuel.toNat)
      (iStep K true (codeOf P true) sig ⟨⟨fr :: rest, hs, st⟩, fuel, pollIdx, began⟩) := by
  -- records without bytes are passed first
  induction hk : ((P fr.fid).plan true).size - r using Nat.strong_induction_on generalizing l n r with
  | _ j ih =>
  cases hplace.stands (hplaced fr.fid) (hacc fr.fid).closed with
  | @poll map l' hf hl hnext =>
    rw [length_iVisit_none hf rfl]
    simp only [iStep, hf]
    split
    · exact .suspended (k := n + k) ⟨.cons ⟨l', r, hnext⟩ hrest, hh⟩ (Nat.le_refl _)
    · exact .run (k := n + k) ⟨.cons ⟨l', r, hnext⟩ hrest, hh⟩ (Nat.le_of_eq (Nat.zero_add _))
  | @meter cost l' n' hf he hl hn' hnext l'' hl'' hslow =>
    rw [length_iVisit_none hf rfl]
    simp only [iStep, hf]
    split
    · exact .run (k := 0 + k) ⟨.cons ⟨l'', r, hslow⟩ hrest, hh⟩ (by simp only [ICtx.at_]; omega)
    · exact .run (k := n' + k) ⟨.cons ⟨l', r, hnext⟩ hrest, hh⟩ (by simp only; omega)
  | @tick map l' n' hf hl hn' hnext =>
    rw [length_iVisit_none hf rfl]
    simp only [iStep, hf]
    split
    · exact .suspended (k := n + k) ⟨.cons ⟨l, r, hplace⟩ hrest, hh⟩ (by simp only [ICtx.setPollIdx]; omega)
    · split
      · exact .suspended (k := n + k) ⟨.cons ⟨l, r, hplace⟩ hrest, hh⟩ (Nat.le_refl _)
      · exact .run (k := n' + k) ⟨.cons ⟨l', r, hnext⟩ hrest, hh⟩ (by simp only; omega)
  | @exit l' hf hl hnext =>
    rw [length_iVisit_none hf rfl]
    simp only [iStep, hf]
    have hwithin : (execInstr S iNav ⟨fr :: rest, hs, st⟩ { fr with pc := fr.pc + (LInstr.else_ 0 : LInstr Nat).size }
        rest (.else_ (((P fr.fid).plan true).recordOffset r))).Within iNav (Paid P slow) (0 + k) :=
      jump_within hrest hh (fun _ => ⟨l', r, hnext⟩) _
    exact hwithin.pays _ _ _ (by simp only; omega)
  | @main rec i hr hi hf hn hnext => exact iStep_main_pays hrest hh hacc hplaced hr hi hf hn hnext hplace hown
  | @none rec hr hi hnext =>
    obtain ⟨l', n', hnext, hn'⟩ := hnext
    have hlt : r < ((P fr.fid).plan true).size := (List.getElem?_eq_some_iff.mp hr).1
    exact (ih _ (by omega) hnext rfl).mono (by omega)

end Step

/-! ## Runs -/

/-- the potential of a context: visits paid for, and fuel left -/
def Affords (K : Costs S) (slow : ι → Nat → Nat) (b : Nat) (x : ICtx ι Val Store) : Prop :=
  ∃ n c k, Copies K true slow n c x ∧ x.core.Weighs iNav (Paid P slow) k ∧ k + x.fuel.toNat = b

theorem Affords.step (hacc : ∀ f, (P f).Accepted true)
    (hplaced : ∀ f, Placed ((P f).plan true) (codeOf P true f) (slow f)) {b : Nat} {x : ICtx ι Val Store}
    (h : Affords K slow b x) (sig : Signal) :
    Afforded (Affords K slow) (b + refuelled K (codeOf P true) sig x) (iMove K true (codeOf P true) sig x) := by
  obtain ⟨n, c, k, hcopy, hweighs, rfl⟩ := h
  have hown := hcopy.owned
  have hpays : Pays P slow (iVisit (codeOf P true) x).toList.length (k + x.fuel.toNat)
      (iStep K true (codeOf P true) sig x) := by
    obtain ⟨⟨frames, hs, st⟩, fuel, pollIdx, began⟩ := x
    obtain ⟨hframes, hh⟩ := hweighs
    cases hframes with
    | nil => exact absurd hcopy (by rintro ⟨⟩)
    | cons h hrest =>
      obtain ⟨l, r, hplace⟩ := h
      exact iStep_pays hrest hh hacc hplaced hplace hown
  have hnext : ∀ {e : Option (Seen ι Val Store)} {y : ICtx ι Val Store},
      iMove K true (codeOf P true) sig x = .go e y → ∃ n' c', Copies K true slow n' c' y :=
    fun hmove => hcopy.step hacc hplaced hmove
  rw [iMove] at hnext ⊢
  rw [refuelled]
  generalize iVisit (codeOf P true) x = shown at hpays hnext ⊢
  generalize iStep K true (codeOf P true) sig x = res at hpays hnext ⊢
  cases hpays with
  | run hw hle =>
    obtain ⟨n', c', hcopy'⟩ := hnext rfl
    exact .go ⟨n', c', _, hcopy', hw, rfl⟩ hle
  | @suspended why y k' hw hle =>
    obtain ⟨n', c', hcopy'⟩ := hnext rfl
    refine .go ⟨n', c', _, hcopy', hw, rfl⟩ ?_
    cases sig.refill with
    | none => simpa using hle
    | some j => simp; omega
  | finished hle | failed hle | stuck hle => exact .stop hle

/-- **Fuel bounds visits.** A metered run visits at most as many instructions as the fuel it starts with and the fuel set
on resumptions; if it goes on, less what it has left. -/
theorem fuel_bounds_visits (hacc : ∀ f, (P f).Accepted true) {g : ι} {args : List Val}
    (hargs : args.length = (P g).nparams) (st : Store) (fuel : Int) (sigs : List Signal) :
    (run (iMove K true (codeOf P true)) sigs (iStart S g args st fuel)).1.length ≤
        fuel.toNat + granted (iMove K true (codeOf P true)) (refuelled K (codeOf P true)) sigs (iStart S g args st fuel) ∧
      ∀ x, (run (iMove K true (codeOf P true)) sigs (iStart S g args st fuel)).2 = .ok x →
        (run (iMove K true (codeOf P true)) sigs (iStart S g args st fuel)).1.length + x.fuel.toNat ≤
          fuel.toNat + granted (iMove K true (codeOf P true)) (refuelled K (codeOf P true)) sigs
            (iStart S g args st fuel) := by
  obtain ⟨slow, n, hplaced, hcopy⟩ := copies_start (S := S) (K := K) hacc hargs st fuel
  have hstart : Affords K slow fuel.toNat (iStart S g args st fuel) := by
    have hentry : Paid P slow g 0 0 := paid_entry hacc hplaced g
    have hweighs : (iStart S g args st fuel).core.Weighs iNav (Paid P slow) (0 + 0) :=
      ⟨.cons hentry .nil, by simp [iStart]⟩
    exact ⟨n, _, 0, hcopy, hweighs, Nat.zero_add _⟩
  obtain ⟨hshown, hlast⟩ := run_afforded (fun n x sig h => h.step hacc hplaced sig) hstart sigs
  refine ⟨hshown, fun x hx => ?_⟩
  obtain ⟨b, ⟨-, -, k, -, -, rfl⟩, hle⟩ := hlast x hx
  omega

end Fuel

theorem fuel_bounds_visits_fill :
    (fillRun true 1 5 ((List.range 30).map sparingly)).1.length ≤
        (5 : Int).toNat + granted (iMove fillCosts true (codeOf fillProgram true))
          (refuelled fillCosts (codeOf fillProgram true)) ((List.range 30).map sparingly)
          (iStart (bulkSem fillProgram) () [1] onePage 5) ∧
      ∀ x, (fillRun true 1 5 ((List.range 30).map sparingly)).2 = .ok x →
        (fillRun true 1 5 ((List.range 30).map sparingly)).1.length + x.fuel.toNat ≤
          (5 : Int).toNat + granted (iMove fillCosts true (codeOf fillProgram true))
            (refuelled fillCosts (codeOf fillProgram true)) ((List.range 30).map sparingly)
            (iStart (bulkSem fillProgram) () [1] onePage 5) :=
  fuel_bounds_visits (fillProgram_accepted true) (by rfl) onePage 5 _

end Wah
