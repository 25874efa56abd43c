/-
What a run of the lowered code has to do with the structured body it comes from.

A run of the interpreter is given by the fuel it starts with and by what it meets (`Signal`): interrupts, and the fuel
set before every resumption. It shows the instructions it visits, with the operands, the locals and the store they find.

- `lowering_sound`: whatever it meets, a run visits what the structured body visits, in the same order and with the same
  operands and store, is never stuck, and ends as the body does unless there is no room for an exception handler.
- `lowering_complete`: a host that sets some fuel on every resumption and does not interrupt gets past any step.
- `suspension_transparent`: two runs differ at most in how far they got, with metering or without.
-/
import Wah.BulkCosts
import Wah.InterpRuns

namespace Wah

open Observed

section Transparency

variable {ι Val Store Exn : Type} {P : ι → Func} {m : Bool} {S : Sem ι Val Store Exn P} {K : Costs S} {g : ι}
  {args : List Val}

/-- a call of a function from outside -/
def iStart (S : Sem ι Val Store Exn P) (g : ι) (args : List Val) (st : Store) (fuel : Int) : ICtx ι Val Store :=
  ⟨⟨[⟨g, 0, newLocals S g args, []⟩], [], st⟩, fuel, [0], none⟩

/-- where the structured body is when the interpreter is at the second place; it may have entered a `try_table` whose handler
has no room in the interpreter -/
inductive Lands (S : Sem ι Val Store Exn P) :
    Except (Ending Val Store) (SCore ι Val Store) → Except (Ending Val Store) (ICtx ι Val Store) → Prop where
  | running (c : SCore ι Val Store) (x : ICtx ι Val Store) : Lands S (.ok c) (.ok x)
  | ended {o : Ending Val Store} (h : o ≠ .stuck) : Lands S (.error o) (.error o)
  | overflowed {c c1 : SCore ι Val Store} (h : NoRoom S c c1) : Lands S (.ok c1) (.error (.failed .stackOverflow c1.store))

/-- the interpreter starts as a copy of the records -/
theorem copies_start (hacc : ∀ f, (P f).Accepted m) (hargs : args.length = (P g).nparams) (st : Store) (fuel : Int) :
    ∃ (slow : ι → Nat → Nat) (n : Nat), (∀ f, Placed ((P f).plan m) (codeOf P m f) (slow f)) ∧
      Copies K m slow n (rStart S g args st) (iStart S g args st fuel) := by
  choose slow hplaced using fun f => (hacc f).placed
  have hclosed : ∀ f, ((P f).plan m).Closed := fun f => (hacc f).closed
  have hentry : Located P m slow g 0 0 := (located_relocates hclosed).entry g
  have hmoved : Core.Moved (LeadsTo P m slow) (Located P m slow) (rStart S g args st) (iStart S g args st fuel).core :=
    ⟨.cons ⟨⟨rfl, rfl, rfl⟩, hentry⟩ .nil, .nil, rfl⟩
  obtain ⟨n, hcopy⟩ := Copies.of_moved (K := K) (rel_start (hacc g) hargs st) hmoved fuel [0]
  exact ⟨slow, n, hplaced, hcopy⟩

theorem lands_of_ends {R : Nat → SCore ι Val Store → ICtx ι Val Store → Prop}
    {Q : Nat → SCore ι Val Store → RCore ι Val Store → Prop} {x : Except (Ending Val Store) (SCore ι Val Store)}
    {y : Except (Ending Val Store) (ICtx ι Val Store)}
    (h : Observed.Ends (AbortsThrough (GivesUp S) (fun _ _ => False) Q) R x y) (hstuck : y ≠ .error .stuck) :
    Lands S x y := by
  cases h with
  | running _ => exact .running _ _
  | stopped o => exact .ended fun h => hstuck (h ▸ rfl)
  | @aborted s o ho =>
    rcases ho with ⟨c, hno, rfl⟩ | ⟨t, n, -, ho⟩
    · exact .overflowed hno
    · exact ho.elim

/-- the interpreter is never stuck -/
theorem iMove_not_stuck (hacc : ∀ f, (P f).Accepted m) (hargs : args.length = (P g).nparams) (st : Store) (fuel : Int)
    (sigs : List Signal) :
    (run (iMove K m (codeOf P m)) sigs (iStart S g args st fuel)).2 ≠ .error .stuck := by
  obtain ⟨slow, n, hplaced, hcopy⟩ := copies_start (S := S) (K := K) hacc hargs st fuel
  obtain ⟨k, -, hends⟩ := (bytes_simulate hacc hplaced).sound hcopy sigs
  have hrec := (rel_start (S := S) (hacc g) hargs st).not_stuck (S := S) hacc k
  intro h
  rw [h] at hends
  generalize (steps (rMove S m) k (rStart S g args st)).2 = y at hends hrec
  cases hends with
  | stopped => exact hrec rfl
  | aborted ho => exact ho

/-- **Lowering is sound.** Whatever the fuel and the interrupts, and however the context is resumed, the lowered code visits
what the structured body visits, with the same operands, locals and store, and ends as the body does. -/
theorem lowering_sound (hacc : ∀ f, (P f).Accepted m) (hargs : args.length = (P g).nparams) (st : Store) (fuel : Int)
    (sigs : List Signal) :
    ∃ k, (steps (sMove S) k (sStart S g args st)).1 = (run (iMove K m (codeOf P m)) sigs (iStart S g args st fuel)).1 ∧
      Lands S (steps (sMove S) k (sStart S g args st)).2 (run (iMove K m (codeOf P m)) sigs (iStart S g args st fuel)).2 := by
  obtain ⟨slow, n, hplaced, hcopy⟩ := copies_start (S := S) (K := K) hacc hargs st fuel
  have hrank : Ranked S m 1 (sStart S g args st) (rStart S g args st) :=
    ⟨rel_start (hacc g) hargs st, fun h => absurd h Nat.one_ne_zero⟩
  obtain ⟨k, hshown, hends⟩ := (records_simulate hacc).sound_through (bytes_simulate hacc hplaced) hrank hcopy sigs
  exact ⟨k, hshown, lands_of_ends hends (iMove_not_stuck hacc hargs st fuel sigs)⟩

/-- **Lowering is complete.** With some fuel on every resumption and no interrupts, the lowered code gets past any step of the
structured body, unless there is no room for an exception handler. -/
theorem lowering_complete (hacc : ∀ f, (P f).Accepted m) (hargs : args.length = (P g).nparams) (st : Store) (fuel : Int)
    (k : Nat) (host : Nat → Signal) (hgood : ∀ j, (host j).Good) :
    ∃ j k', (steps (sMove S) k' (sStart S g args st)).1 =
        (run (iMove K m (codeOf P m)) ((List.range j).map host) (iStart S g args st fuel)).1 ∧
      Lands S (steps (sMove S) k' (sStart S g args st)).2
        (run (iMove K m (codeOf P m)) ((List.range j).map host) (iStart S g args st fuel)).2 ∧
      (k ≤ k' ∨ ∃ c c1, NoRoom S c c1 ∧ (steps (sMove S) k' (sStart S g args st)).2 = .ok c1 ∧
        (run (iMove K m (codeOf P m)) ((List.range j).map host) (iStart S g args st fuel)).2 =
          .error (.failed .stackOverflow c1.store)) := by
  obtain ⟨slow, n, hplaced, hcopy⟩ := copies_start (S := S) (K := K) hacc hargs st fuel
  have hrank : Ranked S m 1 (sStart S g args st) (rStart S g args st) :=
    ⟨rel_start (hacc g) hargs st, fun h => absurd h Nat.one_ne_zero⟩
  obtain ⟨j, k', hshown, hends, hfar⟩ :=
    (records_simulate hacc).complete_through (bytes_simulate hacc hplaced) hrank hcopy k hgood
  have hlands := lands_of_ends hends (iMove_not_stuck hacc hargs st fuel _)
  refine ⟨j, k', hshown, hlands, hfar.imp_right ?_⟩
  rintro ⟨c1, o, ⟨c, hno, rfl⟩ | ⟨t, n, -, ho⟩, hstop, hend⟩
  · exact ⟨c, c1, hno, hstop, hend⟩
  · exact ho.elim

/-- **Suspension is transparent.** Of two runs, metered or not, one visits what the other visits first; and if both end, and not
for lack of room, they end with the same results or the same trap, and the same store. -/
theorem suspension_transparent {m' : Bool} {K' : Costs S} (hacc : ∀ f, (P f).Accepted m) (hacc' : ∀ f, (P f).Accepted m')
    (hargs : args.length = (P g).nparams) (st : Store) (fuel fuel' : Int) (sigs sigs' : List Signal) :
    ((run (iMove K m (codeOf P m)) sigs (iStart S g args st fuel)).1 <+:
        (run (iMove K' m' (codeOf P m')) sigs' (iStart S g args st fuel')).1 ∨
      (run (iMove K' m' (codeOf P m')) sigs' (iStart S g args st fuel')).1 <+:
        (run (iMove K m (codeOf P m)) sigs (iStart S g args st fuel)).1) ∧
    ∀ o o', (run (iMove K m (codeOf P m)) sigs (iStart S g args st fuel)).2 = .error o →
      (run (iMove K' m' (codeOf P m')) sigs' (iStart S g args st fuel')).2 = .error o' →
      ¬ o.Overflows → ¬ o'.Overflows →
      (run (iMove K m (codeOf P m)) sigs (iStart S g args st fuel)).1 =
        (run (iMove K' m' (codeOf P m')) sigs' (iStart S g args st fuel')).1 ∧ o = o' := by
  obtain ⟨k, hshown, hlands⟩ := lowering_sound (K := K) hacc hargs st fuel sigs
  obtain ⟨k', hshown', hlands'⟩ := lowering_sound (K := K') hacc' hargs st fuel' sigs'
  rw [← hshown, ← hshown']
  refine ⟨(Nat.le_total k k').imp steps_prefix steps_prefix, fun o o' ho ho' hroom hroom' => ?_⟩
  have hend : ∀ {k : Nat} {y : Except (Ending Val Store) (ICtx ι Val Store)} {o : Ending Val Store},
      Lands S (steps (sMove S) k (sStart S g args st)).2 y → y = .error o → ¬ o.Overflows →
      steps (sMove S) k (sStart S g args st) = ((steps (sMove S) k (sStart S g args st)).1, .error o) := by
    intro k y o hl hy hroom
    refine Prod.ext rfl ?_
    subst hy
    generalize (steps (sMove S) k (sStart S g args st)).2 = x at hl
    cases hl with
    | ended _ => rfl
    | overflowed _ => exact absurd trivial hroom
  exact steps_end (hend hlands ho hroom) (hend hlands' ho' hroom')

end Transparency

/-! ## The small program -/

/-- interrupted at every other step, and given two units of fuel whenever it suspends -/
def sparingly (j : Nat) : Signal := ⟨j % 2 == 1, fun _ => false, some 2⟩

/-- given a hundred units whenever it suspends -/
def amply (_ : Nat) : Signal := ⟨false, fun _ => false, some 100⟩

theorem Func.Accepted.of_isOk {m : Bool} {F : Func} (h : (analyzeStream (F.context m) F.body).isOk = true) :
    F.Accepted m := by
  cases hA : analyzeStream (F.context m) F.body with
  | ok A => exact ⟨A, hA⟩
  | error e =>
    rw [hA] at h
    cases h

theorem fillProgram_accepted (m : Bool) (f : Unit) : (fillProgram f).Accepted m := by
  cases f
  cases m <;> exact .of_isOk (by decide +kernel)

/-- a run of the small program -/
abbrev fillRun (m : Bool) (arg : Nat) (fuel : Int) (sigs : List Signal) :=
  run (iMove fillCosts m (codeOf fillProgram m)) sigs (iStart (bulkSem fillProgram) () [arg] onePage fuel)

/-- its structured body -/
abbrev fillSteps (arg : Nat) (k : Nat) := steps (sMove (bulkSem fillProgram)) k (sStart (bulkSem fillProgram) () [arg] onePage)

theorem lowering_sound_fill : ∃ k, (fillSteps 0 k).1 = (fillRun true 0 1 ((List.range 30).map sparingly)).1 ∧
    Lands (bulkSem fillProgram) (fillSteps 0 k).2 (fillRun true 0 1 ((List.range 30).map sparingly)).2 :=
  lowering_sound (fillProgram_accepted true) (by rfl) onePage 1 _

theorem lowering_complete_fill : ∃ j k', (fillSteps 1 k').1 = (fillRun true 1 1 ((List.range j).map amply)).1 ∧
    Lands (bulkSem fillProgram) (fillSteps 1 k').2 (fillRun true 1 1 ((List.range j).map amply)).2 ∧
    (1000 ≤ k' ∨ ∃ c c1, NoRoom (bulkSem fillProgram) c c1 ∧ (fillSteps 1 k').2 = .ok c1 ∧
      (fillRun true 1 1 ((List.range j).map amply)).2 = .error (.failed .stackOverflow c1.store)) :=
  lowering_complete (fillProgram_accepted true) (by rfl) onePage 1 1000 amply fun _ => ⟨rfl, 100, rfl, by decide⟩

theorem suspension_transparent_fill :
    ((fillRun true 0 1 ((List.range 30).map sparingly)).1 <+: (fillRun false 0 0 ((List.range 30).map amply)).1 ∨
      (fillRun false 0 0 ((List.range 30).map amply)).1 <+: (fillRun true 0 1 ((List.range 30).map sparingly)).1) ∧
    ∀ o o', (fillRun true 0 1 ((List.range 30).map sparingly)).2 = .error o →
      (fillRun false 0 0 ((List.range 30).map amply)).2 = .error o' → ¬ o.Overflows → ¬ o'.Overflows →
      (fillRun true 0 1 ((List.range 30).map sparingly)).1 = (fillRun false 0 0 ((List.range 30).map amply)).1 ∧ o = o' :=
  suspension_transparent (fillProgram_accepted true) (fillProgram_accepted false) (by rfl) onePage 1 0 _ _

end Wah
