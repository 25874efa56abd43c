/-
Interrupt requests, the poll flag, and the deadline timer, under any interleaving of the threads.

Model:
- the running thread, any number of threads in `wah_request_interrupt`, and the timer thread take turns; each step is
  one access to `interrupt_flag`, `poll_flag` or `gc_pending`, or a change of timer fields under its lock;
- the running thread has a program counter inside `wah_poll_handler`, `wah_recompute_poll_flag` and
  `wah_timer_set_armed`. Which of POLL, TICK, bulk operations, allocations that ask for a collection, `wah_resume`,
  `wah_cancel` and `wah_instantiate` come next is up to the run. A stop for want of fuel changes no flag;
- `wah_resume` arms the timer if there is a deadline, runs until it yields or ends, and disarms;
- `gen` is a `uint32_t` and wraps. When a wait of the timer thread ends is up to the run, too: there is no clock;
- a run has a trace of what happened to requests and firings (`Occurrence`), and which request is outstanding, or which
  arming a firing belongs to, is read off the trace.

Results, in every state of every run:
- `poll_flag_in_step`: while no call is between its stores, a pending interrupt or collection has the poll flag set,
  so the next POLL enters the handler; `interrupt_flag` is cleared for a yield, a cancel, an instantiation, or the
  disarming, at the end of `wah_resume`, of a timer that has fired, and for nothing else;
- `requests_survive`: a request stays pending until it makes an activation yield, or a cancel or an instantiation
  withdraws it, exactly if no disarming comes while the timer has fired and a request is outstanding. An activation
  yields for a request or a firing of its own only, and a firing belongs to the last arming exactly if fewer than 2^32
  armings came since the timer thread began to wait for it.
-/
import Mathlib.Tactic

namespace Wah

/-! ## Threads -/

/-- which call of `wah_timer_set_armed` it is: at the start or end of `wah_resume`, or in `wah_cancel` -/
inductive TimerUse where
  | arm | disarm | cancel
deriving DecidableEq, Repr

/-- what `interrupt_flag` is cleared for -/
inductive Clear where
  | yield | cancel | instantiate
  | timer (u : TimerUse)
deriving DecidableEq, Repr

/-- where the running thread is; `recompute` and the next three are `wah_recompute_poll_flag`, with what it was called
for: none is the end of `wah_poll_handler` -/
inductive RunnerPc where
  | idle | poll | handler | gcTest | tick | bulk | alloc | allocPoll | yielded
  | clear (why : Clear)
  | recompute (why : Option Clear)
  | clearPoll (why : Option Clear)
  | recheck (why : Option Clear)
  | setPoll (why : Option Clear)
  | acquire (u : TimerUse)
  | update (u : TimerUse)
  | timerTest (u : TimerUse)
  | clearFired (u : TimerUse)
deriving DecidableEq, Repr

/-- what the running thread can do next -/
inductive RunnerCall where
  | poll | tick | bulk | allocate
  | resume (deadline : Bool)
  | finish | cancel | instantiate | newTimer
deriving DecidableEq, Repr

/-- the timer thread: waiting to be armed, waiting for the deadline of an arming, or in `wah_timer_fire` before its two
stores or between them -/
inductive TimerPc where
  | waiting
  | timing (gen : BitVec 32)
  | storing (gen : BitVec 32)
  | stored (gen : BitVec 32)
deriving DecidableEq, Repr

inductive LockOwner where
  | free | runner | timer
deriving DecidableEq, Repr

structure Intr where
  interrupt : Bool := false
  poll : Bool := false
  gcPending : Bool := false
  hasTimer : Bool := false
  armed : Bool := false
  fired : Bool := false
  gen : BitVec 32 := 0
  lock : LockOwner := .free
  timer : TimerPc := .waiting
  /-- the threads between the two stores of `wah_request_interrupt` -/
  between : Nat → Bool := fun _ => false
  pc : RunnerPc := .idle
  active : Bool := false
  stopped : Bool := false

/-- a step of one thread -/
inductive IntrEvent where
  | requestInterrupt (t : Nat)
  | requestPoll (t : Nat)
  | timerWait | timerWake | timerBegin | timerInterrupt | timerPoll
  | call (op : RunnerCall)
  | run
deriving DecidableEq, Repr

namespace Intr

/-- where `wah_recompute_poll_flag` returns to -/
def after : Option Clear → RunnerPc
  | some .yield => .yielded
  | some (.timer u) => .clearFired u
  | _ => .idle

/-- the running thread begins something -/
def issue (s : Intr) : RunnerCall → Option Intr
  | .poll => if s.active ∧ !s.stopped then some { s with pc := .poll } else none
  | .tick => if s.active ∧ !s.stopped then some { s with pc := .tick } else none
  | .bulk => if s.active ∧ !s.stopped then some { s with pc := .bulk } else none
  | .allocate => some { s with pc := .alloc }
  | .resume deadline =>
    if s.active then none
    else
      some { s with
        active := true
        stopped := false
        pc := if s.hasTimer ∧ deadline then .acquire .arm else .idle }
  | .finish =>
    if !s.active then none
    else if s.hasTimer then some { s with pc := .acquire .disarm }
    else some { s with active := false }
  | .cancel =>
    if s.active then none else some { s with pc := if s.hasTimer then .acquire .cancel else .clear .cancel }
  | .instantiate => if s.active then none else some { s with pc := .clear .instantiate }
  | .newTimer => if s.active then none else some { s with hasTimer := true }

/-- the next access of the running thread -/
def runStep (s : Intr) : Option Intr :=
  match s.pc with
  | .idle => none
  | .poll => some { s with pc := if s.poll then .handler else .idle }
  | .handler => some { s with pc := if s.interrupt then .clear .yield else .gcTest }
  | .gcTest => some { s with gcPending := false, pc := .recompute none }
  | .tick => some { s with pc := if s.interrupt then .clear .yield else .idle }
  | .bulk => some { s with pc := if s.interrupt then .clear .yield else .idle }
  | .alloc => some { s with gcPending := true, pc := .allocPoll }
  | .allocPoll => some { s with poll := true, pc := .idle }
  | .yielded => some { s with stopped := true, pc := .idle }
  | .clear why => some { s with interrupt := false, pc := .recompute (some why) }
  | .recompute why =>
    if s.gcPending then some { s with poll := true, pc := after why } else some { s with pc := .clearPoll why }
  | .clearPoll why => some { s with poll := false, pc := .recheck why }
  | .recheck why => some { s with pc := if s.interrupt then .setPoll why else after why }
  | .setPoll why => some { s with poll := true, pc := after why }
  | .acquire u => if s.lock = .free then some { s with lock := .runner, pc := .update u } else none
  | .update u =>
    some { s with
      armed := decide (u = .arm)
      gen := if u = .arm then s.gen + 1 else s.gen
      pc := .timerTest u }
  | .timerTest u => some { s with pc := if s.fired ∧ s.interrupt then .clear (.timer u) else .clearFired u }
  | .clearFired u =>
    some { s with
      fired := false
      lock := .free
      active := if u = .disarm then false else s.active
      pc := if u = .cancel then .clear .cancel else .idle }

/-- one step; none when the thread cannot take it -/
def step (s : Intr) : IntrEvent → Option Intr
  | .requestInterrupt t =>
    if s.between t then none
    else some { s with interrupt := true, between := Function.update s.between t true }
  | .requestPoll t =>
    if s.between t then some { s with poll := true, between := Function.update s.between t false } else none
  | .timerWait =>
    if s.timer = .waiting ∧ s.armed ∧ s.lock = .free then some { s with timer := .timing s.gen } else none
  | .timerWake =>
    match s.timer with
    | .timing _ => some { s with timer := .waiting }
    | _ => none
  | .timerBegin =>
    match s.timer with
    | .timing g =>
      if s.lock ≠ .free then none
      else if s.armed ∧ s.gen = g then
        some { s with armed := false, fired := true, lock := .timer, timer := .storing g }
      else some { s with timer := .waiting }
    | _ => none
  | .timerInterrupt =>
    match s.timer with
    | .storing g => some { s with interrupt := true, timer := .stored g }
    | _ => none
  | .timerPoll =>
    match s.timer with
    | .stored _ => some { s with poll := true, timer := .waiting, lock := .free }
    | _ => none
  | .call op => if s.pc = .idle then s.issue op else none
  | .run => s.runStep

/-- the states of runs -/
inductive Reached : Intr → Prop where
  | start : Reached {}
  | step {s s' : Intr} {e : IntrEvent} (h : Reached s) (hs : s.step e = some s') : Reached s'

end Intr

/-! ## The invariant -/

/-- between the clear and the set of `wah_recompute_poll_flag` -/
def RunnerPc.rechecking : RunnerPc → Bool
  | .recheck _ | .setPoll _ => true
  | _ => false

/-- past the test of `gc_pending` in `wah_recompute_poll_flag` -/
def RunnerPc.noCollection : RunnerPc → Bool
  | .clearPoll _ | .recheck _ | .setPoll _ => true
  | _ => false

/-- the call of `wah_timer_set_armed` that `wah_recompute_poll_flag` was called from -/
def Clear.use : Option Clear → Option TimerUse
  | some (.timer u) => some u
  | _ => none

/-- inside `wah_timer_set_armed_locked`, past its update of `armed` -/
def RunnerPc.updated : RunnerPc → Option TimerUse
  | .timerTest u | .clearFired u => some u
  | .clear why => Clear.use (some why)
  | .recompute why | .clearPoll why | .recheck why | .setPoll why => Clear.use why
  | _ => none

/-- inside `wah_timer_set_armed` -/
def RunnerPc.use : RunnerPc → Option TimerUse
  | .acquire u | .update u => some u
  | pc => pc.updated

/-- the lock is held -/
def RunnerPc.locked : RunnerPc → Bool
  | .update _ => true
  | pc => pc.updated.isSome

/-- past the test of `fired` in `wah_timer_set_armed_locked` -/
def RunnerPc.tested : RunnerPc → Bool
  | .timerTest _ | .clear _ => false
  | pc => pc.updated.isSome

/-- on the way to return `WAH_STATUS_YIELDED` -/
def RunnerPc.yielding : RunnerPc → Bool
  | .clear why => decide (why = .yield)
  | .recompute why | .clearPoll why | .recheck why | .setPoll why => decide (why = some .yield)
  | .yielded => true
  | _ => false

/-- only while an activation runs -/
def RunnerPc.running : RunnerPc → Bool
  | .poll | .handler | .gcTest | .tick | .bulk => true
  | .recompute why | .clearPoll why | .recheck why | .setPoll why => why.isNone || decide (why = some .yield)
  | pc => pc.yielding

namespace Intr

/-- the flags and the program counter -/
structure FlagInv (s : Intr) : Prop where
  pending : s.interrupt = true → s.poll = false →
    (∃ t, s.between t = true) ∨ (∃ g, s.timer = .stored g) ∨ s.pc.rechecking = true
  collect : s.gcPending = true → s.poll = false → s.pc = .allocPoll
  noCollection : s.pc.noCollection = true → s.gcPending = false

/-- the timer, its lock, and the activation -/
structure TimerInv (s : Intr) : Prop where
  lockTimer : s.lock = .timer ↔ ∃ g, s.timer = .storing g ∨ s.timer = .stored g
  lockRunner : s.lock = .runner ↔ s.pc.locked = true
  storing : ∀ g, s.timer = .storing g ∨ s.timer = .stored g → g = s.gen ∧ s.fired = true
  armed : s.armed = true → s.active = true ∧ s.fired = false ∧ s.pc.updated ≠ some .disarm
  fired : s.fired = true → s.active = true ∧ s.pc.use ≠ some .arm
  arming : s.pc.use = some .arm → s.active = true
  unarmed : s.pc = .acquire .arm ∨ s.pc = .update .arm → s.armed = false
  cancelling : s.pc.use = some .cancel → s.active = false
  owned : s.pc.use.isSome = true ∨ s.armed = true ∨ s.fired = true → s.hasTimer = true
  running : s.pc.running = true → s.active = true

/-- what the running thread has tested before it clears the flag -/
structure ClearInv (s : Intr) : Prop where
  yields : s.pc = .clear .yield → s.interrupt = true
  erases : ∀ u, s.pc = .clear (.timer u) → s.interrupt = true ∧ s.fired = true

end Intr

/-! ## What one step does -/

/-- a move of the running thread that stays on the same side of every access to the timer -/
structure PcFrame (p p' : RunnerPc) : Prop where
  use : p'.use = p.use
  updated : p'.updated = p.updated
  locked : p'.locked = p.locked
  outside : ∀ u, p' ≠ .acquire u ∧ p' ≠ .update u
  running : p'.running = true → p.running = true

section PcFrame

attribute [local simp] RunnerPc.updated RunnerPc.use RunnerPc.locked RunnerPc.running RunnerPc.yielding Clear.use

theorem PcFrame.after (why : Option Clear) (p : RunnerPc) (hp : p = .recompute why ∨ p = .recheck why ∨ p = .setPoll why) :
    PcFrame p (Intr.after why) := by
  cases why with
  | none => rcases hp with rfl | rfl | rfl <;> exact ⟨rfl, rfl, rfl, by simp [Intr.after], by simp⟩
  | some c =>
    cases c <;> rcases hp with rfl | rfl | rfl <;> exact ⟨rfl, rfl, rfl, by simp [Intr.after], by simp [Intr.after]⟩

end PcFrame

namespace Intr

/-- where `wah_recompute_poll_flag` returns to -/
theorem after_spec (why : Option Clear) :
    (after why).rechecking = false ∧ (after why).noCollection = false ∧ (after why).tested = (Clear.use why).isSome ∧
      after why ≠ .allocPoll ∧ ∀ c, after why ≠ .clear c := by
  cases why with
  | none => exact ⟨rfl, rfl, rfl, by simp [after], by simp [after]⟩
  | some c => cases c <;> exact ⟨rfl, rfl, rfl, by simp [after], by simp [after]⟩

/-- a step of the running thread that leaves the timer alone -/
structure TimerFrame (s s' : Intr) : Prop where
  hasTimer : s'.hasTimer = s.hasTimer
  armed : s'.armed = s.armed
  fired : s'.fired = s.fired
  gen : s'.gen = s.gen
  lock : s'.lock = s.lock
  timer : s'.timer = s.timer
  active : s'.active = s.active
  pc : PcFrame s.pc s'.pc

theorem runStep_timer {s s' : Intr} (hs : s.runStep = some s') :
    s.TimerFrame s' ∨
      (∃ u, s.pc = .acquire u ∧ s.lock = .free ∧ s' = { s with lock := .runner, pc := .update u }) ∨
      (∃ u, s.pc = .update u ∧
        s' = { s with
          armed := decide (u = .arm)
          gen := if u = .arm then s.gen + 1 else s.gen
          pc := .timerTest u }) ∨
      ∃ u, s.pc = .clearFired u ∧
        s' = { s with
          fired := false
          lock := .free
          active := if u = .disarm then false else s.active
          pc := if u = .cancel then .clear .cancel else .idle } := by
  -- a frame from the move of the program counter alone
  have frame : ∀ {p p' : RunnerPc}, s.pc = p → PcFrame p p' → PcFrame s.pc p' := fun h hf => h ▸ hf
  cases hpc : s.pc with
  | idle => simp [runStep, hpc] at hs
  | acquire u =>
    refine .inr (.inl ⟨u, rfl, ?_⟩)
    simpa [runStep, hpc, eq_comm] using hs
  | update u =>
    refine .inr (.inr (.inl ⟨u, rfl, ?_⟩))
    simpa [runStep, hpc, eq_comm] using hs
  | clearFired u =>
    refine .inr (.inr (.inr ⟨u, rfl, ?_⟩))
    simpa [runStep, hpc, eq_comm] using hs
  | recompute why =>
    left
    simp only [runStep, hpc] at hs
    split at hs <;> cases hs
    · exact ⟨rfl, rfl, rfl, rfl, rfl, rfl, rfl, frame hpc (.after why _ (.inl rfl))⟩
    · exact ⟨rfl, rfl, rfl, rfl, rfl, rfl, rfl, frame hpc ⟨rfl, rfl, rfl, by simp, id⟩⟩
  | recheck why =>
    left
    simp only [runStep, hpc] at hs
    cases hs
    refine ⟨rfl, rfl, rfl, rfl, rfl, rfl, rfl, frame hpc ?_⟩
    dsimp only
    split
    · exact ⟨rfl, rfl, rfl, by simp, id⟩
    · exact .after why _ (.inr (.inl rfl))
  | setPoll why =>
    left
    simp only [runStep, hpc] at hs
    cases hs
    exact ⟨rfl, rfl, rfl, rfl, rfl, rfl, rfl, frame hpc (.after why _ (.inr (.inr rfl)))⟩
  | clear why =>
    left
    simp only [runStep, hpc] at hs
    cases hs
    exact ⟨rfl, rfl, rfl, rfl, rfl, rfl, rfl, frame hpc ⟨rfl, rfl, rfl, by simp, by
      simp [RunnerPc.running, RunnerPc.yielding]⟩⟩
  | _ =>
    left
    simp only [runStep, hpc] at hs
    cases hs
    refine ⟨rfl, rfl, rfl, rfl, rfl, rfl, rfl, frame hpc ?_⟩
    dsimp only
    try split
    all_goals constructor <;>
    simp [RunnerPc.updated, RunnerPc.use, RunnerPc.locked, RunnerPc.running, RunnerPc.yielding, Clear.use]

/-! ## The timer -/

theorem TimerInv.frame {s s' : Intr} (h : s.TimerInv) (hf : s.TimerFrame s') : s'.TimerInv where
  lockTimer := by rw [hf.lock, hf.timer]; exact h.lockTimer
  lockRunner := by rw [hf.lock, hf.pc.locked]; exact h.lockRunner
  storing := by rw [hf.timer, hf.gen, hf.fired]; exact h.storing
  armed := by rw [hf.armed, hf.active, hf.fired, hf.pc.updated]; exact h.armed
  fired := by rw [hf.fired, hf.active, hf.pc.use]; exact h.fired
  arming := by rw [hf.pc.use, hf.active]; exact h.arming
  unarmed := by
    rintro (hp | hp)
    · exact absurd hp (hf.pc.outside .arm).1
    · exact absurd hp (hf.pc.outside .arm).2
  cancelling := by rw [hf.pc.use, hf.active]; exact h.cancelling
  owned := by rw [hf.pc.use, hf.armed, hf.fired, hf.hasTimer]; exact h.owned
  running := by rw [hf.active]; exact fun hr => h.running (hf.pc.running hr)

theorem TimerInv.acquire {s : Intr} (h : s.TimerInv) {u : TimerUse} (hpc : s.pc = .acquire u) (hl : s.lock = .free) :
    TimerInv { s with lock := .runner, pc := .update u } := by
  obtain ⟨h1, h2, h3, h4, h5, h6, h7, h8, h9, h10⟩ := h
  have huse : (RunnerPc.update u).use = s.pc.use := by rw [hpc]; rfl
  refine ⟨?_, by simp [RunnerPc.locked], h3, ?_, ?_, ?_, ?_, ?_, ?_, by simp [RunnerPc.running, RunnerPc.yielding]⟩
  · have := h1.not.mp (by simp [hl])
    simpa using this
  · intro ha
    obtain ⟨ha1, ha2, -⟩ := h4 ha
    exact ⟨ha1, ha2, by simp [RunnerPc.updated]⟩
  · simpa only [huse] using h5
  · simpa only [huse] using h6
  · intro hp
    apply h7
    left
    simp only [reduceCtorEq, RunnerPc.update.injEq, false_or] at hp
    rw [hpc, hp]
  · simpa only [huse] using h8
  · simpa only [huse] using h9

theorem TimerInv.update {s : Intr} (h : s.TimerInv) {u : TimerUse} (hpc : s.pc = .update u) :
    TimerInv { s with
      armed := decide (u = .arm)
      gen := if u = .arm then s.gen + 1 else s.gen
      pc := .timerTest u } := by
  have huse : (RunnerPc.timerTest u).use = s.pc.use := by rw [hpc]; rfl
  have hlock : s.lock = .runner := h.lockRunner.mpr (by rw [hpc]; rfl)
  have hnot : ¬ ∃ g, s.timer = .storing g ∨ s.timer = .stored g := h.lockTimer.not.mp (by simp [hlock])
  have hfired : u = .arm → s.fired = false := by
    rintro rfl
    by_contra hf
    exact (h.fired (by simpa using hf)).2 (by rw [hpc]; rfl)
  refine ⟨h.lockTimer, ?_, ?_, ?_, ?_, ?_, ?_, ?_, ?_, ?_⟩
  · simp [RunnerPc.locked, RunnerPc.updated, hlock]
  · exact fun g hg => absurd ⟨g, hg⟩ hnot
  · intro ha
    simp only [decide_eq_true_eq] at ha
    subst ha
    exact ⟨h.arming (by rw [hpc]; rfl), hfired rfl, by simp [RunnerPc.updated]⟩
  · intro hf
    obtain ⟨hf1, hf2⟩ := h.fired hf
    exact ⟨hf1, by simpa only [huse] using hf2⟩
  · simpa only [huse] using h.arming
  · simp
  · simpa only [huse] using h.cancelling
  · intro _
    exact h.owned (.inl (by rw [hpc]; rfl))
  · simp [RunnerPc.running, RunnerPc.yielding]

theorem TimerInv.clearFired {s : Intr} (h : s.TimerInv) {u : TimerUse} (hpc : s.pc = .clearFired u) :
    TimerInv { s with
      fired := false
      lock := .free
      active := if u = .disarm then false else s.active
      pc := if u = .cancel then .clear .cancel else .idle } := by
  have hlock : s.lock = .runner := h.lockRunner.mpr (by rw [hpc]; rfl)
  have hnot : ¬ ∃ g, s.timer = .storing g ∨ s.timer = .stored g := h.lockTimer.not.mp (by simp [hlock])
  have hpc' : ∀ p : RunnerPc, p = (if u = .cancel then RunnerPc.clear .cancel else .idle) →
      p.use = none ∧ p.updated = none ∧ p.locked = false ∧ p.running = false := by
    rintro _ rfl
    split <;> exact ⟨rfl, rfl, rfl, rfl⟩
  obtain ⟨p1, p2, p3, p4⟩ := hpc' _ rfl
  refine ⟨?_, ?_, ?_, ?_, by simp, by simp [p1], ?_, by simp [p1], ?_, by simp [p4]⟩
  · simpa using hnot
  · simp [p3]
  · exact fun g hg => absurd ⟨g, hg⟩ hnot
  · intro ha
    obtain ⟨ha1, -, ha3⟩ := h.armed ha
    have hu : u ≠ .disarm := by
      rintro rfl
      exact ha3 (by rw [hpc]; rfl)
    exact ⟨by simp [hu, ha1], rfl, by simp [p2]⟩
  · dsimp only
    split <;> simp
  · intro _
    exact h.owned (.inl (by rw [hpc]; rfl))

/-- `wah_poll_handler`, the bulk operations and `wah_recompute_poll_flag` leave the timer to `wah_timer_set_armed` -/
theorem TimerInv.runStep {s s' : Intr} (h : s.TimerInv) (hs : s.runStep = some s') : s'.TimerInv := by
  rcases runStep_timer hs with hf | ⟨u, hpc, hl, rfl⟩ | ⟨u, hpc, rfl⟩ | ⟨u, hpc, rfl⟩
  · exact h.frame hf
  · exact h.acquire hpc hl
  · exact h.update hpc
  · exact h.clearFired hpc

theorem TimerInv.issue {s s' : Intr} {op : RunnerCall} (h : s.TimerInv) (hpc : s.pc = .idle)
    (hs : s.issue op = some s') : s'.TimerInv := by
  have harmed : s.active = false → s.armed = false := fun ha => by
    by_contra hc
    simp [(h.armed (by simpa using hc)).1] at ha
  have hfired : s.active = false → s.fired = false := fun ha => by
    by_contra hc
    simp [(h.fired (by simpa using hc)).1] at ha
  obtain ⟨h1, h2, h3, h4, h5, h6, h7, h8, h9, h10⟩ := h
  rw [hpc] at h2 h4 h5 h6 h7 h8 h9 h10
  have e1 : RunnerPc.idle.updated = none := rfl
  have e2 : RunnerPc.idle.use = none := rfl
  have e3 : RunnerPc.idle.locked = false := rfl
  cases op with
  | poll | tick | bulk =>
    simp only [Intr.issue] at hs
    split at hs
    · rename_i hact
      cases hs
      exact ⟨h1, h2, h3, h4, h5, h6, by simp, h8, h9, fun _ => hact.1⟩
    · cases hs
  | allocate =>
    cases hs
    exact ⟨h1, h2, h3, h4, h5, h6, by simp, h8, h9, by simp [RunnerPc.running, RunnerPc.yielding]⟩
  | resume deadline =>
    simp only [Intr.issue] at hs
    split at hs
    · cases hs
    · rename_i hact
      simp only [Bool.not_eq_true] at hact
      cases hs
      have ha := harmed hact
      have hf := hfired hact
      split
      · rename_i ht
        exact ⟨h1, h2, h3, by simp [ha], by simp [hf], by simp, fun _ => ha, by simp [RunnerPc.use], fun _ => ht.1,
          by simp [RunnerPc.running, RunnerPc.yielding]⟩
      · exact ⟨h1, h2, h3, by simp [ha], by simp [hf], by simp, by simp, by simp [e2], h9, by simp⟩
  | finish =>
    simp only [Intr.issue] at hs
    split at hs
    · cases hs
    · rename_i hact
      simp only [Bool.not_eq_true] at hact
      split at hs <;> cases hs
      · rename_i ht
        refine ⟨h1, h2, h3, h4, ?_, by simp [RunnerPc.use], by simp, by simp [RunnerPc.use], fun _ => ht,
          by simp [RunnerPc.running, RunnerPc.yielding]⟩
        exact fun hf => ⟨(h5 hf).1, by simp [RunnerPc.use]⟩
      · rename_i ht
        have ha : s.armed = false := by by_contra hc; exact ht (h9 (.inr (.inl (by simpa using hc))))
        have hf : s.fired = false := by by_contra hc; exact ht (h9 (.inr (.inr (by simpa using hc))))
        exact ⟨h1, by simpa [hpc] using h2, h3, by simp [ha], by simp [hf], by simp [hpc, e2], by simp [ha],
          by simp [hpc, e2], by simp [hpc, ha, hf, e2], by simp [hpc, RunnerPc.running, RunnerPc.yielding]⟩
  | cancel =>
    simp only [Intr.issue] at hs
    split at hs
    · cases hs
    · rename_i hact
      simp only [Bool.not_eq_true] at hact
      have ha := harmed hact
      have hf := hfired hact
      cases hs
      split
      · rename_i ht
        exact ⟨h1, h2, h3, by simp [ha], by simp [hf], by simp [RunnerPc.use], fun _ => ha, fun _ => hact, fun _ => ht,
          by simp [RunnerPc.running, RunnerPc.yielding]⟩
      · exact ⟨h1, h2, h3, by simp [ha], by simp [hf], h6, by simp, h8, h9,
          by simp [RunnerPc.running, RunnerPc.yielding]⟩
  | instantiate =>
    simp only [Intr.issue] at hs
    split at hs
    · cases hs
    · rename_i hact
      simp only [Bool.not_eq_true] at hact
      have ha := harmed hact
      have hf := hfired hact
      cases hs
      exact ⟨h1, h2, h3, by simp [ha], by simp [hf], h6, by simp, h8, h9, by simp [RunnerPc.running, RunnerPc.yielding]⟩
  | newTimer =>
    simp only [Intr.issue] at hs
    split at hs
    · cases hs
    · rename_i hact
      cases hs
      exact ⟨h1, by simpa [hpc] using h2, h3, by simpa [hpc] using h4, by simpa [hpc] using h5, by simp [hpc, e2],
        by simp [hpc], by simp [hpc, e2], by simp, by simp [hpc, RunnerPc.running, RunnerPc.yielding]⟩

/-- the threads that request interrupts leave the timer alone, and the timer thread fires under the lock, once an
arming -/
theorem TimerInv.step {s s' : Intr} {e : IntrEvent} (h : s.TimerInv) (hs : s.step e = some s') : s'.TimerInv := by
  cases e with
  | run => exact h.runStep hs
  | call op =>
    simp only [Intr.step] at hs
    split at hs
    · rename_i hpc
      exact h.issue hpc hs
    · cases hs
  | requestInterrupt t =>
    simp only [Intr.step] at hs
    split at hs <;> cases hs
    exact ⟨h.1, h.2, h.3, h.4, h.5, h.6, h.7, h.8, h.9, h.10⟩
  | requestPoll t =>
    simp only [Intr.step] at hs
    split at hs <;> cases hs
    exact ⟨h.1, h.2, h.3, h.4, h.5, h.6, h.7, h.8, h.9, h.10⟩
  | timerWait =>
    simp only [Intr.step] at hs
    split at hs
    · rename_i hw
      cases hs
      exact ⟨by simp [hw.2.2], h.2, by simp, h.4, h.5, h.6, h.7, h.8, h.9, h.10⟩
    · cases hs
  | timerWake =>
    simp only [Intr.step] at hs
    split at hs
    · rename_i g ht
      cases hs
      have hl := h.lockTimer
      rw [ht] at hl
      exact ⟨by simpa using hl, h.2, by simp, h.4, h.5, h.6, h.7, h.8, h.9, h.10⟩
    · cases hs
  | timerBegin =>
    simp only [Intr.step] at hs
    split at hs
    case h_2 => cases hs
    case h_1 g ht =>
    have hl := h.lockTimer
    rw [ht] at hl
    split at hs
    · cases hs
    rename_i hfree
    simp only [ne_eq, not_not] at hfree
    have hpc := h.lockRunner.not.mp (by simp [hfree])
    split at hs <;> cases hs
    · rename_i harm
      obtain ⟨ha1, ha2, -⟩ := h.armed harm.1
      refine ⟨by simp, by simpa using hpc, ?_, by simp, ?_, h.6, by simp, h.8, ?_, h.10⟩
      · intro g' hg'
        simp only [TimerPc.storing.injEq, reduceCtorEq, or_false] at hg'
        exact ⟨by rw [← hg', harm.2], rfl⟩
      · intro _
        refine ⟨ha1, fun hu => ?_⟩
        -- an arming call past its update holds the lock; before it, the timer is not armed
        have hun := h.unarmed
        cases hp : s.pc <;> simp_all [RunnerPc.use, RunnerPc.updated, RunnerPc.locked]
      · exact fun _ => h.owned (.inr (.inl harm.1))
    · exact ⟨by simpa using hl, h.2, by simp, h.4, h.5, h.6, h.7, h.8, h.9, h.10⟩
  | timerInterrupt =>
    simp only [Intr.step] at hs
    split at hs
    · rename_i g ht
      cases hs
      have hl := h.lockTimer
      have hg := h.storing
      rw [ht] at hl hg
      exact ⟨by simpa using hl, h.2, by simpa using hg, h.4, h.5, h.6, h.7, h.8, h.9, h.10⟩
    · cases hs
  | timerPoll =>
    simp only [Intr.step] at hs
    split at hs
    · rename_i g ht
      cases hs
      have hl := h.lockTimer.mpr ⟨g, .inr ht⟩
      have hpc := h.lockRunner.not.mp (by simp [hl])
      exact ⟨by simp, by simpa using hpc, by simp, h.4, h.5, h.6, h.7, h.8, h.9, h.10⟩
    · cases hs

/-! ## The flags -/

theorem issue_flags {s s' : Intr} {op : RunnerCall} (hs : s.issue op = some s') :
    s'.interrupt = s.interrupt ∧ s'.poll = s.poll ∧ s'.gcPending = s.gcPending ∧ s'.between = s.between ∧
      s'.timer = s.timer ∧ s'.fired = s.fired ∧ s'.gen = s.gen := by
  cases op <;> simp only [issue] at hs <;> repeat' split at hs
  all_goals cases hs
  all_goals exact ⟨rfl, rfl, rfl, rfl, rfl, rfl, rfl⟩

theorem issue_pc {s s' : Intr} {op : RunnerCall} (hpc : s.pc = .idle) (hs : s.issue op = some s') :
    s'.pc.rechecking = false ∧ s'.pc.noCollection = false ∧ s'.pc.tested = false ∧ s'.pc ≠ .clear .yield ∧
      ∀ u, s'.pc ≠ .clear (.timer u) := by
  cases op <;> simp only [issue] at hs <;> repeat' split at hs
  all_goals cases hs
  all_goals
    simp [hpc, RunnerPc.rechecking, RunnerPc.noCollection, RunnerPc.tested, RunnerPc.updated]

/-- a step that leaves `poll_flag` set or alone, and starts no recomputation -/
theorem FlagInv.frame {s s' : Intr} (h : s.FlagInv) (hi : s'.interrupt = true → s.interrupt = true)
    (hg : s'.gcPending = true → s.gcPending = true) (hp : s'.poll = s.poll) (hb : s'.between = s.between)
    (ht : s'.timer = s.timer) (hr : s.pc.rechecking = true → s'.pc.rechecking = true) (ha : s.pc ≠ .allocPoll)
    (hn : s'.pc.noCollection = true → s'.gcPending = false) : s'.FlagInv := by
  refine ⟨fun hi' hp' => ?_, fun hg' hp' => ?_, hn⟩
  · rw [hp] at hp'
    rw [hb, ht]
    exact (h.pending (hi hi') hp').imp_right (Or.imp_right hr)
  · rw [hp] at hp'
    exact absurd (h.collect (hg hg') hp') ha

theorem FlagInv.of_poll {s : Intr} (hp : s.poll = true) (hn : s.pc.noCollection = true → s.gcPending = false) :
    s.FlagInv := ⟨by simp [hp], by simp [hp], hn⟩

theorem FlagInv.runStep {s s' : Intr} (h : s.FlagInv) (hs : s.runStep = some s') : s'.FlagInv := by
  cases hpc : s.pc with
  | idle => simp [Intr.runStep, hpc] at hs
  | recompute why =>
    simp only [Intr.runStep, hpc] at hs
    split at hs <;> cases hs
    · exact .of_poll rfl (by simp [after_spec])
    · rename_i hg
      exact h.frame id id rfl rfl rfl (by simp [hpc, RunnerPc.rechecking]) (by simp [hpc]) fun _ => by simpa using hg
  | clearPoll why =>
    have hg := h.noCollection (by rw [hpc]; rfl)
    simp only [Intr.runStep, hpc] at hs
    cases hs
    exact ⟨fun _ _ => .inr (.inr rfl), by simp [hg], fun _ => hg⟩
  | recheck why =>
    have hg := h.noCollection (by rw [hpc]; rfl)
    simp only [Intr.runStep, hpc] at hs
    cases hs
    cases hi : s.interrupt with
    | true => exact h.frame (fun _ => hi) id rfl rfl rfl (by simp [RunnerPc.rechecking]) (by simp [hpc]) fun _ => hg
    | false => exact ⟨by simp, by simp [hg], fun _ => hg⟩
  | setPoll why =>
    simp only [Intr.runStep, hpc] at hs
    cases hs
    exact .of_poll rfl (by simp [after_spec])
  | allocPoll =>
    simp only [Intr.runStep, hpc] at hs
    cases hs
    exact .of_poll rfl (by simp [RunnerPc.noCollection])
  | alloc =>
    have hp := h.pending
    rw [hpc] at hp
    simp only [Intr.runStep, hpc] at hs
    cases hs
    exact ⟨hp, fun _ _ => rfl, by simp [RunnerPc.noCollection]⟩
  | acquire u =>
    simp only [Intr.runStep, hpc] at hs
    split at hs <;> cases hs
    exact h.frame id id rfl rfl rfl (by simp [hpc, RunnerPc.rechecking]) (by simp [hpc]) (by simp [RunnerPc.noCollection])
  | poll | handler | gcTest | tick | bulk | yielded | clear _ | update _ | timerTest _ | clearFired _ =>
    simp only [Intr.runStep, hpc] at hs
    cases hs
    refine h.frame (by simp) (by simp) rfl rfl rfl (by simp [hpc, RunnerPc.rechecking]) (by simp [hpc]) ?_
    dsimp only
    first | simp [RunnerPc.noCollection]; done | (split <;> simp [RunnerPc.noCollection])

theorem FlagInv.step {s s' : Intr} {e : IntrEvent} (h : s.FlagInv) (hs : s.step e = some s') : s'.FlagInv := by
  have ⟨h1, h2, h3⟩ := h
  cases e with
  | requestInterrupt t =>
    simp only [Intr.step] at hs
    split at hs
    · cases hs
    · cases hs
      exact ⟨fun _ _ => .inl ⟨t, by simp⟩, h2, h3⟩
  | requestPoll t =>
    simp only [Intr.step] at hs
    split at hs
    · cases hs
      exact ⟨by simp, by simp, h3⟩
    · cases hs
  | call op =>
    simp only [Intr.step] at hs
    split at hs
    · rename_i hpc
      obtain ⟨e1, e2, e3, e4, e5, -⟩ := issue_flags hs
      obtain ⟨p1, p2, -⟩ := issue_pc hpc hs
      refine ⟨?_, ?_, by simp [p2]⟩
      · rw [e1, e2, e4, e5, p1]
        rw [hpc] at h1
        exact h1
      · rw [e2, e3]
        exact fun hg hp => absurd (hpc.symm.trans (h2 hg hp)) (by simp)
    · cases hs
  | run => exact h.runStep hs
  | _ =>
    simp only [Intr.step] at hs
    (repeat' split at hs) <;> cases hs <;> constructor <;> grind

/-- the flag is tested before it is cleared, and only the running thread clears it -/
theorem ClearInv.runStep {s s' : Intr} (hs : s.runStep = some s') : s'.ClearInv := by
  have none : ∀ {t : Intr}, (∀ c, t.pc ≠ .clear c) → t.ClearInv := fun hc =>
    ⟨fun hp => absurd hp (hc _), fun u hp => absurd hp (hc _)⟩
  cases hpc : s.pc with
  | idle => simp [Intr.runStep, hpc] at hs
  | handler | tick | bulk =>
    simp only [Intr.runStep, hpc] at hs
    cases hs
    refine ⟨?_, ?_⟩ <;> dsimp only <;> split <;> simp_all
  | timerTest u =>
    simp only [Intr.runStep, hpc] at hs
    cases hs
    by_cases hfi : s.fired = true ∧ s.interrupt = true
    · exact ⟨by simp [hfi], by simp [hfi]⟩
    · exact ⟨by simp [hfi], by simp [hfi]⟩
  | clearFired u =>
    simp only [Intr.runStep, hpc] at hs
    cases hs
    refine ⟨?_, ?_⟩ <;> dsimp only <;> split <;> simp
  | recompute why =>
    simp only [Intr.runStep, hpc] at hs
    split at hs <;> cases hs
    · exact none (after_spec why).2.2.2.2
    · exact none (by simp)
  | recheck why =>
    simp only [Intr.runStep, hpc] at hs
    cases hs
    refine none fun c => ?_
    dsimp only
    split
    · simp
    · exact (after_spec why).2.2.2.2 c
  | setPoll why =>
    simp only [Intr.runStep, hpc] at hs
    cases hs
    exact none (after_spec why).2.2.2.2
  | acquire u =>
    simp only [Intr.runStep, hpc] at hs
    split at hs <;> cases hs
    exact none (by simp)
  | poll =>
    simp only [Intr.runStep, hpc] at hs
    cases hs
    refine none fun c => ?_
    dsimp only
    split <;> simp
  | gcTest | alloc | allocPoll | yielded | update _ | clear _ | clearPoll _ =>
    simp only [Intr.runStep, hpc] at hs
    cases hs
    exact none (by simp)

theorem ClearInv.step {s s' : Intr} {e : IntrEvent} (h : s.ClearInv) (hs : s.step e = some s') : s'.ClearInv := by
  have ⟨h1, h2⟩ := h
  cases e with
  | call op =>
    simp only [Intr.step] at hs
    split at hs
    · rename_i hpc
      obtain ⟨-, -, -, p4, p5⟩ := issue_pc hpc hs
      exact ⟨fun hc => absurd hc p4, fun u hc => absurd hc (p5 u)⟩
    · cases hs
  | run => exact ClearInv.runStep hs
  | _ =>
    simp only [Intr.step] at hs
    (repeat' split at hs) <;> cases hs <;> constructor <;> grind

/-! ## Runs -/

/-- the three invariants hold at the start of every run and are kept by every step -/
theorem Reached.invariants {s : Intr} (h : Reached s) : s.FlagInv ∧ s.TimerInv ∧ s.ClearInv := by
  induction h with
  | start =>
    refine ⟨⟨by simp, by simp, by simp [RunnerPc.noCollection]⟩, ⟨by simp, ?_, by simp, by simp, by simp, ?_, by simp, ?_,
      ?_, ?_⟩, ⟨by simp, by simp⟩⟩
    · simp [RunnerPc.locked, RunnerPc.updated]
    · simp [RunnerPc.use, RunnerPc.updated]
    · simp [RunnerPc.use, RunnerPc.updated]
    · simp [RunnerPc.use, RunnerPc.updated]
    · simp [RunnerPc.running, RunnerPc.yielding]
  | step _ hs ih =>
    obtain ⟨hf, ht, hc⟩ := ih
    exact ⟨hf.step hs, ht.step hs, hc.step hs⟩

/-- no request, firing, allocation or recomputation is between its stores -/
def Quiet (s : Intr) : Prop :=
  (∀ t, s.between t = false) ∧ (∀ g, s.timer ≠ .stored g) ∧ s.pc.rechecking = false ∧ s.pc ≠ .allocPoll

theorem FlagInv.poll_set {s : Intr} (h : s.FlagInv) (hq : s.Quiet) :
    (s.interrupt = true → s.poll = true) ∧ (s.gcPending = true → s.poll = true) := by
  obtain ⟨hb, ht, hr, ha⟩ := hq
  constructor
  · intro hi
    by_contra hp
    rcases h.pending hi (by simpa using hp) with ⟨t, h'⟩ | ⟨g, h'⟩ | h'
    · simp [hb t] at h'
    · exact ht g h'
    · simp [hr] at h'
  · intro hg
    by_contra hp
    exact ha (h.collect hg (by simpa using hp))

/-- `interrupt_flag` is cleared by the running thread only, in the clears of the source -/
theorem step_clears {s s' : Intr} {e : IntrEvent} (hs : s.step e = some s') (hi : s.interrupt = true)
    (hc : s'.interrupt = false) : e = .run ∧ ∃ why, s.pc = .clear why := by
  cases e with
  | run =>
    refine ⟨rfl, ?_⟩
    simp only [step, runStep] at hs
    cases hpc : s.pc <;> simp only [hpc] at hs <;> (try split at hs) <;> cases hs
    all_goals first | exact ⟨_, rfl⟩ | simp [hi] at hc
  | call op =>
    simp only [step] at hs
    split at hs
    · rw [(issue_flags hs).1, hi] at hc
      cases hc
    · cases hs
  | _ =>
    simp only [step] at hs
    (repeat' split at hs) <;> cases hs <;> simp [hi] at hc

/-- every clear of `interrupt_flag` is for one of the `allowed` reasons -/
def ClearedOnly (allowed : Intr → Clear → Prop) : Prop :=
  ∀ (s s' : Intr) (e : IntrEvent), Reached s → s.step e = some s' → s.interrupt = true →
    s'.interrupt = false → e = .run ∧ ∃ why, s.pc = .clear why ∧ allowed s why

/-- a timer that has fired is about to be disarmed: an arming call finds it disarmed, a cancel between activations too -/
theorem TimerInv.clears_disarming {s : Intr} (h : s.TimerInv) {u : TimerUse} (hpc : s.pc = .clear (.timer u))
    (hf : s.fired = true) : u = .disarm := by
  have huse : s.pc.use = some u := by rw [hpc]; rfl
  cases u with
  | disarm => rfl
  | arm => exact absurd huse (h.fired hf).2
  | cancel => exact absurd (h.fired hf).1 (by simp [h.cancelling huse])

/-- the thread that has cleared the flag for a yield returns `WAH_STATUS_YIELDED`: its own next accesses lead there -/
theorem yielding_step {s s' : Intr} (hy : s.pc.yielding = true) (hs : s.runStep = some s') :
    s'.pc.yielding = true ∨ s'.stopped = true ∧ s'.pc = .idle := by
  cases hpc : s.pc <;> simp only [hpc, RunnerPc.yielding, decide_eq_true_eq, Bool.false_eq_true] at hy
  all_goals
    simp only [runStep, hpc] at hs
    (try split at hs) <;> cases hs
  all_goals simp_all [RunnerPc.yielding, after]

/-! ## Traces -/

end Intr

/-- what a step does to requests and firings. A `taken` request or firing is about to yield; a request is `withdrawn` by
a cancel or an instantiation; `disarm` stands where `wah_timer_set_armed_locked` clears `interrupt_flag`, or finds that
it does not have to -/
inductive Occurrence where
  | request | resume | wait | arm | fire | taken | withdrawn | disarm
deriving DecidableEq, Repr

section Traces

variable (starts ends : Occurrence → Bool)

/-- something of the first kind came after everything of the second; traces have the last occurrence first -/
def since : List Occurrence → Bool
  | [] => false
  | o :: tr => starts o || !ends o && since tr

/-- `P` held before each occurrence -/
def AlongTrace (P : Occurrence → List Occurrence → Prop) : List Occurrence → Prop
  | [] => True
  | o :: tr => P o tr ∧ AlongTrace P tr

instance AlongTrace.decidable (P : Occurrence → List Occurrence → Prop) [∀ o tr, Decidable (P o tr)] :
    ∀ tr, Decidable (AlongTrace P tr)
  | [] => .isTrue trivial
  | o :: tr =>
    have := AlongTrace.decidable P tr
    inferInstanceAs (Decidable (P o tr ∧ AlongTrace P tr))

theorem alongTrace_append {P : Occurrence → List Occurrence → Prop} {o : Option Occurrence} {tr : List Occurrence} :
    AlongTrace P (o.toList ++ tr) ↔ (∀ a, o = some a → P a tr) ∧ AlongTrace P tr := by
  cases o <;> simp [AlongTrace]

end Traces

/-- a request is outstanding: no poll, TICK or bulk operation has taken it, and nothing has withdrawn it -/
def outstanding : List Occurrence → Bool := since (· = .request) (fun o => o = .taken ∨ o = .withdrawn)

/-- the timer has fired since it was armed -/
def firedSinceArm : List Occurrence → Bool := since (· = .fire) (fun o => o = .arm ∨ o = .disarm)

/-- the timer has fired in the last activation -/
def firedSinceResume : List Occurrence → Bool := since (· = .fire) (· = .resume)

@[simp] theorem outstanding_cons (o : Occurrence) (tr : List Occurrence) :
    outstanding (o :: tr) = (decide (o = .request) || !decide (o = .taken ∨ o = .withdrawn) && outstanding tr) := rfl

@[simp] theorem firedSinceArm_cons (o : Occurrence) (tr : List Occurrence) :
    firedSinceArm (o :: tr) = (decide (o = .fire) || !decide (o = .arm ∨ o = .disarm) && firedSinceArm tr) := rfl

@[simp] theorem firedSinceResume_cons (o : Occurrence) (tr : List Occurrence) :
    firedSinceResume (o :: tr) = (decide (o = .fire) || !decide (o = .resume) && firedSinceResume tr) := rfl

/-- how often the timer was armed since its thread began the wait it is in -/
def armsSinceWait : List Occurrence → Nat
  | [] => 0
  | .wait :: _ => 0
  | .arm :: tr => armsSinceWait tr + 1
  | _ :: tr => armsSinceWait tr

/-- a request whose store in `interrupt_flag` no clear has come after: a disarming clears it if the timer has fired -/
def standing : List Occurrence → Bool
  | [] => false
  | .request :: _ => true
  | .taken :: _ | .withdrawn :: _ => false
  | .disarm :: tr => !firedSinceArm tr && standing tr
  | _ :: tr => standing tr

/-- no disarming comes while the timer has fired and a request is outstanding -/
def KeepsRequests : List Occurrence → Prop :=
  AlongTrace fun o tr => o = .disarm → firedSinceArm tr = true → outstanding tr = false

instance (tr : List Occurrence) : Decidable (KeepsRequests tr) := inferInstanceAs (Decidable (AlongTrace _ tr))

/-- the timer is armed less than 2^32 times during a wait that ends in a firing -/
def FiresInTime : List Occurrence → Prop := AlongTrace fun o tr => o = .fire → armsSinceWait tr < 2 ^ 32

instance (tr : List Occurrence) : Decidable (FiresInTime tr) := inferInstanceAs (Decidable (AlongTrace _ tr))

/-- every firing is for the last arming -/
def FiresForLastArm : List Occurrence → Prop := AlongTrace fun o tr => o = .fire → armsSinceWait tr = 0

namespace Intr

/-- what happens in a step -/
def occurs (s : Intr) : IntrEvent → Option Occurrence
  | .requestInterrupt _ => some .request
  | .timerWait => some .wait
  | .timerBegin =>
    match s.timer with
    | .timing g => if s.armed ∧ s.gen = g then some .fire else none
    | _ => none
  | .call (.resume _) => some .resume
  | .run =>
    match s.pc with
    | .update .arm => some .arm
    | .clear .yield => some .taken
    | .clear .cancel | .clear .instantiate => some .withdrawn
    | .clear (.timer _) => some .disarm
    | .timerTest u => if u = .arm ∨ s.fired ∧ s.interrupt then none else some .disarm
    | _ => none
  | _ => none

/-- a step of a run, with the trace up to it -/
def stepTraced (r : Intr × List Occurrence) (e : IntrEvent) : Option (Intr × List Occurrence) :=
  (r.1.step e).map fun s' => (s', (r.1.occurs e).toList ++ r.2)

/-- a run from the start, with its trace -/
def traced (es : List IntrEvent) : Option (Intr × List Occurrence) := es.foldlM stepTraced ({}, [])

theorem traced_concat {es : List IntrEvent} {e : IntrEvent} {s' : Intr} {tr' : List Occurrence} :
    traced (es ++ [e]) = some (s', tr') ↔
      ∃ s tr, traced es = some (s, tr) ∧ s.step e = some s' ∧ tr' = (s.occurs e).toList ++ tr := by
  rw [traced, List.foldlM_append]
  simp only [List.foldlM_cons, List.foldlM_nil, Option.bind_eq_bind, Option.bind_eq_some_iff, stepTraced,
    Option.map_eq_some_iff, Prod.exists, Option.pure_def, Option.some.injEq, Prod.mk.injEq, traced]
  constructor
  · rintro ⟨s, tr, hes, _, _, ⟨t, ht, rfl, rfl⟩, rfl, rfl⟩
    exact ⟨s, tr, hes, ht, rfl⟩
  · rintro ⟨s, tr, hes, ht, rfl⟩
    exact ⟨s, tr, hes, s', _, ⟨s', ht, rfl, rfl⟩, rfl, rfl⟩

theorem Reached.of_traced {es : List IntrEvent} {s : Intr} {tr : List Occurrence} (h : traced es = some (s, tr)) :
    Reached s := by
  induction es using List.reverseRecOn generalizing s tr with
  | nil =>
    cases h
    exact .start
  | append_singleton es e ih =>
    obtain ⟨t, tr', hes, hs, -⟩ := traced_concat.1 h
    exact .step (ih hes) hs

/-- what the trace says of the state -/
structure TraceInv (s : Intr) (tr : List Occurrence) : Prop where
  fired : firedSinceArm tr = (s.fired && !s.pc.tested)
  own : s.fired = true → firedSinceResume tr = true
  timing : ∀ g, s.timer = .timing g → s.gen = g + BitVec.ofNat 32 (armsSinceWait tr)
  cause : s.interrupt = true → standing tr = true ∨ s.fired = true
  tested : s.pc.tested = true → s.interrupt = true → standing tr = true

/-- a step that leaves the flag and its causes alone -/
theorem TraceInv.frame {s s' : Intr} {tr : List Occurrence} (h : s.TraceInv tr) (hi : s'.interrupt = s.interrupt)
    (hf : s'.fired = s.fired) (hg : s'.gen = s.gen) (ht : s'.timer = s.timer) (hp : s'.pc.tested = s.pc.tested) :
    s'.TraceInv tr where
  fired := by rw [hf, hp]; exact h.fired
  own := by rw [hf]; exact h.own
  timing := by rw [ht, hg]; exact h.timing
  cause := by rw [hi, hf]; exact h.cause
  tested := by rw [hi, hp]; exact h.tested

/-- outside of the lock of the running thread nothing has been tested -/
theorem TimerInv.not_tested {s : Intr} (ht : s.TimerInv) (hl : s.lock ≠ .runner) : s.pc.tested = false := by
  have hlocked := ht.lockRunner.not.mp hl
  cases hpc : s.pc <;> simp_all [RunnerPc.locked, RunnerPc.tested]

/-- an arming does not find that the timer has fired -/
theorem TimerInv.not_fired {s : Intr} (ht : s.TimerInv) (hu : s.pc.use = some .arm) : s.fired = false := by
  by_contra hf
  exact (ht.fired (by simpa using hf)).2 hu

/-- the test for a firing: without one, a disarming is over here -/
theorem TraceInv.timerTest {s s' : Intr} {tr : List Occurrence} {u : TimerUse} (h : s.TraceInv tr) (ht : s.TimerInv)
    (hpc : s.pc = .timerTest u) (hs : s.runStep = some s') : s'.TraceInv ((s.occurs .run).toList ++ tr) := by
  simp only [Intr.runStep, hpc] at hs
  cases hs
  by_cases hfi : s.fired = true ∧ s.interrupt = true
  · simp only [occurs, hpc, hfi, and_self, or_true, if_true, Option.toList_none, List.nil_append]
    exact h.frame hfi.2.symm hfi.1.symm rfl rfl (by rw [hpc]; rfl)
  · have hstands : s.interrupt = true → standing tr = true := fun hi =>
      (h.cause hi).resolve_right fun hf => hfi ⟨hf, hi⟩
    by_cases hu : u = .arm
    · simp only [occurs, hpc, hu, true_or, if_true, Option.toList_none, List.nil_append]
      refine ⟨?_, h.own, h.timing, h.cause, fun _ => hstands⟩
      rw [h.fired, ht.not_fired (by rw [hpc, hu]; rfl)]
      rfl
    · have hnone : s.interrupt = true → firedSinceArm tr = false := by
        intro hi
        have hf : s.fired = false := by
          by_contra hf
          exact hfi ⟨by simpa using hf, hi⟩
        rw [h.fired, hf, Bool.false_and]
      simp only [occurs, hpc, hu, hfi, or_self, if_false, Option.toList_some, List.singleton_append]
      refine ⟨?_, by simpa using h.own, by simpa [armsSinceWait] using h.timing, fun hi => ?_, fun _ hi => ?_⟩
      · simp [RunnerPc.tested, RunnerPc.updated]
      · simp [standing, hnone hi, hstands hi]
      · simp [standing, hnone hi, hstands hi]

theorem TraceInv.runStep {s s' : Intr} {tr : List Occurrence} (h : s.TraceInv tr) (ht : s.TimerInv)
    (hs : s.runStep = some s') : s'.TraceInv ((s.occurs .run).toList ++ tr) := by
  cases hpc : s.pc with
  | idle => simp [Intr.runStep, hpc] at hs
  | handler | tick | bulk =>
    simp only [Intr.runStep, hpc] at hs
    cases hs
    simp only [occurs, hpc, Option.toList_none, List.nil_append]
    refine h.frame rfl rfl rfl rfl ?_
    rw [hpc]
    dsimp only
    split <;> rfl
  | clear why =>
    simp only [Intr.runStep, hpc] at hs
    cases hs
    have hfired := h.fired
    have howns := h.own
    cases why with
    | timer u =>
      simp only [occurs, hpc, Option.toList_some, List.singleton_append]
      exact ⟨by simp [RunnerPc.tested, RunnerPc.updated, Clear.use],
        by simpa using howns, by simpa [armsSinceWait] using h.timing, by simp, by simp⟩
    | yield | cancel | instantiate =>
      simp only [occurs, hpc, Option.toList_some, List.singleton_append]
      refine ⟨?_, by simpa using howns, by simpa [armsSinceWait] using h.timing, by simp, by simp⟩
      rw [hpc] at hfired
      simpa [RunnerPc.tested, RunnerPc.updated, Clear.use] using hfired
  | recompute why =>
    simp only [Intr.runStep, hpc] at hs
    simp only [occurs, hpc, Option.toList_none, List.nil_append]
    split at hs <;> cases hs
    · exact h.frame rfl rfl rfl rfl (by rw [hpc]; exact (after_spec why).2.2.1)
    · exact h.frame rfl rfl rfl rfl (by rw [hpc]; rfl)
  | recheck why =>
    simp only [Intr.runStep, hpc] at hs
    simp only [occurs, hpc, Option.toList_none, List.nil_append]
    cases hs
    refine h.frame rfl rfl rfl rfl ?_
    rw [hpc]
    dsimp only
    split
    · rfl
    · exact (after_spec why).2.2.1
  | setPoll why =>
    simp only [Intr.runStep, hpc] at hs
    simp only [occurs, hpc, Option.toList_none, List.nil_append]
    cases hs
    exact h.frame rfl rfl rfl rfl (by rw [hpc]; exact (after_spec why).2.2.1)
  | timerTest u => exact h.timerTest ht hpc hs
  | clearFired u =>
    have htested : s.pc.tested = true := by rw [hpc]; rfl
    simp only [Intr.runStep, hpc] at hs
    simp only [occurs, hpc, Option.toList_none, List.nil_append]
    cases hs
    refine ⟨?_, by simp, h.timing, fun hi => .inl (h.tested htested hi), fun _ => h.tested htested⟩
    rw [h.fired, htested]
    simp
  | acquire u =>
    simp only [Intr.runStep, hpc] at hs
    simp only [occurs, hpc, Option.toList_none, List.nil_append]
    split at hs <;> cases hs
    exact h.frame rfl rfl rfl rfl (by rw [hpc]; rfl)
  | update u =>
    simp only [Intr.runStep, hpc] at hs
    cases hs
    have hfired := h.fired
    rw [hpc] at hfired
    cases u with
    | arm =>
      have hf := ht.not_fired (by rw [hpc]; rfl)
      simp only [occurs, hpc, Option.toList_some, List.singleton_append]
      refine ⟨by simp [hf], by simp [hf], fun g hg => ?_, fun hi => ?_,
        by simp [RunnerPc.tested]⟩
      · simp only [if_true, h.timing g hg, armsSinceWait, BitVec.ofNat_add, BitVec.add_assoc, BitVec.ofNat_eq_ofNat]
      · simpa [standing] using h.cause hi
    | disarm | cancel =>
      simp only [occurs, hpc, Option.toList_none, List.nil_append]
      exact ⟨hfired, h.own, h.timing, h.cause, by simp [RunnerPc.tested]⟩
  | poll =>
    simp only [Intr.runStep, hpc] at hs
    simp only [occurs, hpc, Option.toList_none, List.nil_append]
    cases hs
    refine h.frame rfl rfl rfl rfl ?_
    rw [hpc]
    dsimp only
    split <;> rfl
  | gcTest | alloc | allocPoll | yielded | clearPoll _ =>
    simp only [Intr.runStep, hpc] at hs
    simp only [occurs, hpc, Option.toList_none, List.nil_append]
    cases hs
    exact h.frame rfl rfl rfl rfl (by rw [hpc]; rfl)

theorem TraceInv.step {s s' : Intr} {tr : List Occurrence} {e : IntrEvent} (h : s.TraceInv tr) (ht : s.TimerInv)
    (hs : s.step e = some s') : s'.TraceInv ((s.occurs e).toList ++ tr) := by
  -- under the lock of the timer thread the running thread is outside of `wah_timer_set_armed_locked`
  have hlock : s.lock = .timer → s.pc.tested = false := fun hl => ht.not_tested (by simp [hl])
  cases e with
  | run => exact h.runStep ht hs
  | call op =>
    simp only [Intr.step] at hs
    split at hs
    case isFalse => cases hs
    rename_i hpc
    obtain ⟨hi, -, -, -, htimer, hfired, hgen⟩ := issue_flags hs
    have htested : s'.pc.tested = s.pc.tested := by rw [(issue_pc hpc hs).2.2.1, hpc]; rfl
    have hframe := h.frame hi hfired hgen htimer htested
    cases op with
    | resume deadline =>
      have hidle : s.fired = false := by
        by_contra hf
        simp [Intr.issue, (ht.fired (by simpa using hf)).1] at hs
      simp only [occurs, Option.toList_some, List.singleton_append]
      refine ⟨?_, by simp [hfired, hidle], by simpa [armsSinceWait] using hframe.timing,
        by simpa [standing] using hframe.cause, by simpa [standing] using hframe.tested⟩
      simpa using hframe.fired
    | _ => exact hframe
  | requestInterrupt t =>
    simp only [Intr.step] at hs
    split at hs <;> cases hs
    simp only [occurs, Option.toList_some, List.singleton_append]
    refine ⟨by simpa using h.fired, by simpa using h.own,
      by simpa [armsSinceWait] using h.timing, by simp [standing], by simp [standing]⟩
  | timerWait =>
    simp only [Intr.step] at hs
    split at hs <;> cases hs
    simp only [occurs, Option.toList_some, List.singleton_append]
    refine ⟨by simpa using h.fired, by simpa using h.own,
      fun g hg => ?_, by simpa [standing] using h.cause, by simpa [standing] using h.tested⟩
    simp only [TimerPc.timing.injEq] at hg
    simp [armsSinceWait, hg]
  | timerBegin =>
    simp only [Intr.step] at hs
    split at hs
    case h_2 => cases hs
    case h_1 g hg =>
    split at hs
    · cases hs
    rename_i hfree
    split at hs <;> cases hs
    · rename_i harm
      have hnot := ht.not_tested fun hl => hfree (by simp [hl])
      simp only [occurs, hg, harm, and_self, if_true, Option.toList_some, List.singleton_append]
      exact ⟨by simp [hnot], by simp, by simp, by simp, by simp [hnot]⟩
    · rename_i harm
      simp only [occurs, hg, harm, if_false, Option.toList_none, List.nil_append]
      exact ⟨h.fired, h.own, by simp, h.cause, h.tested⟩
  | timerInterrupt =>
    simp only [Intr.step] at hs
    split at hs
    case h_2 => cases hs
    case h_1 g hg =>
    cases hs
    have hfired := (ht.storing g (.inl hg)).2
    have hnot := hlock (ht.lockTimer.mpr ⟨g, .inl hg⟩)
    exact ⟨h.fired, h.own, by simp, fun _ => .inr hfired, by simp [hnot]⟩
  | requestPoll t =>
    simp only [Intr.step] at hs
    split at hs <;> cases hs
    exact ⟨h.fired, h.own, h.timing, h.cause, h.tested⟩
  | timerWake | timerPoll =>
    simp only [Intr.step] at hs
    split at hs <;> cases hs
    exact ⟨h.fired, h.own, by simp, h.cause, h.tested⟩

theorem TraceInv.of_traced {es : List IntrEvent} {s : Intr} {tr : List Occurrence} (h : traced es = some (s, tr)) :
    s.TraceInv tr := by
  induction es using List.reverseRecOn generalizing s tr with
  | nil =>
    cases h
    exact ⟨rfl, by simp, by simp, by simp, by simp⟩
  | append_singleton es e ih =>
    obtain ⟨t, tr', hes, hs, rfl⟩ := traced_concat.1 h
    exact (ih hes).step (Reached.of_traced hes).invariants.2.1 hs

/-! ## Requests and firings along a run -/

/-- in every state of the run, an outstanding request is pending -/
def StaysPending (es : List IntrEvent) : Prop :=
  ∀ p s tr, p <+: es → traced p = some (s, tr) → outstanding tr = true → s.interrupt = true

theorem occurs_request {s s' : Intr} {e : IntrEvent} (ho : s.occurs e = some .request) (hs : s.step e = some s') :
    s'.interrupt = true := by
  cases e with
  | requestInterrupt t =>
    simp only [Intr.step] at hs
    split at hs <;> cases hs
    rfl
  | call op => cases op <;> simp [occurs] at ho
  | run =>
    simp only [occurs] at ho
    (repeat' split at ho) <;> cases ho
  | timerBegin =>
    simp only [occurs] at ho
    (repeat' split at ho) <;> cases ho
  | _ => simp [occurs] at ho

/-- only a request begins one -/
theorem outstanding_new {o : Option Occurrence} {tr : List Occurrence} (h : outstanding (o.toList ++ tr) = true)
    (hold : outstanding tr = false) : o = some .request := by
  cases o with
  | none => simp [hold] at h
  | some o =>
    simpa [hold] using h

/-- a disarming after a firing leaves `interrupt_flag` clear -/
theorem disarm_clears {s s' : Intr} {tr : List Occurrence} {e : IntrEvent} (h : s.TraceInv tr)
    (ho : s.occurs e = some .disarm) (hf : firedSinceArm tr = true) (hs : s.step e = some s') :
    s'.interrupt = false := by
  have hfired : s.fired = true := by
    rw [h.fired, Bool.and_eq_true] at hf
    exact hf.1
  cases e with
  | run =>
    simp only [Intr.step, Intr.runStep] at hs
    simp only [occurs] at ho
    split at ho
    case h_5 u hpc =>
      simp only [hpc] at hs
      cases hs
      rfl
    case h_6 u hpc =>
      simp only [hpc] at hs
      cases hs
      split at ho
      · cases ho
      · rename_i hnot
        simpa [hfired] using fun hi => hnot (.inr ⟨hfired, hi⟩)
    all_goals cases ho
  | call op => cases op <;> simp [occurs] at ho
  | timerBegin =>
    simp only [occurs] at ho
    (repeat' split at ho) <;> cases ho
  | _ => simp [occurs] at ho

/-- the step that could erase an outstanding request is a disarming after a firing -/
theorem outstanding_step {s s' : Intr} {tr : List Occurrence} {e : IntrEvent} (h : s.TraceInv tr) (hc : s.ClearInv)
    (hpending : outstanding tr = true → s.interrupt = true)
    (hkeeps : KeepsRequests ((s.occurs e).toList ++ tr)) (hs : s.step e = some s')
    (ho : outstanding ((s.occurs e).toList ++ tr) = true) : s'.interrupt = true := by
  by_contra hi
  have hi : s'.interrupt = false := by simpa using hi
  cases hold : s.interrupt with
  | false =>
    have hnone : outstanding tr = false := by
      by_contra hcon
      simp [hpending (by simpa using hcon)] at hold
    rw [occurs_request (outstanding_new ho hnone) hs] at hi
    cases hi
  | true =>
    obtain ⟨rfl, why, hpc⟩ := step_clears hs hold hi
    cases why with
    | timer u =>
      have hfired : firedSinceArm tr = true := by rw [h.fired, (hc.erases u hpc).2, hpc]; rfl
      simp only [occurs, hpc, Option.toList_some, List.singleton_append] at ho hkeeps
      simp [hkeeps.1 rfl hfired] at ho
    | _ => simp [occurs, hpc] at ho

theorem outstanding_pending {es : List IntrEvent} {s : Intr} {tr : List Occurrence} (h : traced es = some (s, tr))
    (hkeeps : KeepsRequests tr) (ho : outstanding tr = true) : s.interrupt = true := by
  induction es using List.reverseRecOn generalizing s tr with
  | nil =>
    cases h
    cases ho
  | append_singleton es e ih =>
    obtain ⟨t, tr', hes, hs, rfl⟩ := traced_concat.1 h
    have hc := (Reached.of_traced hes).invariants.2.2
    exact outstanding_step (.of_traced hes) hc (ih hes (alongTrace_append.1 hkeeps).2) hkeeps hs ho

/-- a condition along the trace of a run is one along that of every beginning of it -/
theorem alongTrace_before {P : Occurrence → List Occurrence → Prop} {es p : List IntrEvent} {s t : Intr}
    {tr tr' : List Occurrence} (h : traced es = some (s, tr)) (hp : p <+: es) (ht : traced p = some (t, tr'))
    (hP : AlongTrace P tr) : AlongTrace P tr' := by
  induction es using List.reverseRecOn generalizing s tr with
  | nil =>
    rw [List.prefix_nil.1 hp, h] at ht
    cases ht
    exact hP
  | append_singleton es e ih =>
    rcases List.prefix_concat_iff.1 hp with rfl | hp
    · rw [h] at ht
      cases ht
      exact hP
    · obtain ⟨t', tr', hes, -, rfl⟩ := traced_concat.1 h
      exact ih hes hp (alongTrace_append.1 hP).2

theorem keepsRequests_iff {es : List IntrEvent} {s : Intr} {tr : List Occurrence} (h : traced es = some (s, tr)) :
    StaysPending es ↔ KeepsRequests tr := by
  constructor
  · intro hstays
    induction es using List.reverseRecOn generalizing s tr with
    | nil =>
      cases h
      trivial
    | append_singleton es e ih =>
      obtain ⟨t, tr', hes, hs, rfl⟩ := traced_concat.1 h
      have hbefore := ih hes fun p s' tr' hp => hstays p s' tr' (hp.trans (List.prefix_append es [e]))
      refine alongTrace_append.2 ⟨fun o ho hdisarm hfired => ?_, hbefore⟩
      subst hdisarm
      by_contra hout
      have hout : outstanding tr' = true := by simpa using hout
      have hpending := hstays _ _ _ (List.prefix_refl _) h (by simpa [ho] using hout)
      rw [disarm_clears (.of_traced hes) ho hfired hs] at hpending
      cases hpending
  · exact fun hkeeps p s' tr' hp ht => outstanding_pending ht (alongTrace_before h hp ht hkeeps)

/-- the generations of a firing and of the last arming are the same -/
theorem fire_arms {s : Intr} {tr : List Occurrence} {e : IntrEvent} (h : s.TraceInv tr)
    (ho : s.occurs e = some .fire) : 2 ^ 32 ∣ armsSinceWait tr := by
  cases e with
  | timerBegin =>
    simp only [occurs] at ho
    split at ho
    case h_2 => cases ho
    case h_1 g hg =>
    split at ho
    case isFalse => cases ho
    rename_i harm
    have hgen := h.timing g hg
    rw [harm.2] at hgen
    have hzero := congrArg BitVec.toNat (BitVec.self_eq_add_right.1 hgen)
    simpa [Nat.dvd_iff_mod_eq_zero] using hzero
  | call op => cases op <;> simp [occurs] at ho
  | run =>
    simp only [occurs] at ho
    (repeat' split at ho) <;> cases ho
  | _ => simp [occurs] at ho

theorem firesInTime_iff {es : List IntrEvent} {s : Intr} {tr : List Occurrence} (h : traced es = some (s, tr)) :
    FiresForLastArm tr ↔ FiresInTime tr := by
  induction es using List.reverseRecOn generalizing s tr with
  | nil =>
    cases h
    exact Iff.rfl
  | append_singleton es e ih =>
    obtain ⟨t, tr', hes, hs, rfl⟩ := traced_concat.1 h
    have hiff : ∀ o, t.occurs e = some o →
        ((o = .fire → armsSinceWait tr' = 0) ↔ (o = .fire → armsSinceWait tr' < 2 ^ 32)) := by
      intro o ho
      refine imp_congr_right fun hfire => ?_
      obtain ⟨k, hk⟩ := fire_arms (.of_traced hes) (hfire ▸ ho)
      constructor
      · omega
      · intro hlt
        rw [hk] at hlt ⊢
        have : k = 0 := by omega
        rw [this, Nat.mul_zero]
    rw [FiresForLastArm, FiresInTime, alongTrace_append, alongTrace_append]
    exact and_congr (forall_congr' fun o => forall_congr' fun ho => hiff o ho) (ih hes)

/-- an activation with a deadline that passes, up to the disarming of the timer -/
def deadlinePasses : List IntrEvent :=
  [.call .newTimer, .call (.resume true), .run, .run, .run, .run, .timerWait, .timerBegin, .timerInterrupt, .timerPoll]

/-- the end of that activation, up to the clear in `wah_timer_set_armed_locked` -/
def disarms : List IntrEvent := [.call .finish, .run, .run, .run]

/-! ## Results -/

/-- **The poll flag in step.** While no call is between its stores, a pending interrupt and a pending collection have
the poll flag set and the next POLL enters the handler; the flag is cleared by the running thread only, for a yield, a
cancel, an instantiation, or when the end of `wah_resume` disarms a timer that has fired; and the clear for a yield goes
on to return it. -/
theorem poll_flag_in_step :
    (∀ s, Reached s → s.Quiet →
      (s.interrupt = true → s.poll = true) ∧ (s.gcPending = true → s.poll = true) ∧
      (s.pc = .poll → s.interrupt = true ∨ s.gcPending = true → ∃ s', s.step .run = some s' ∧ s'.pc = .handler)) ∧
    ClearedOnly (fun s why =>
      why = .yield ∨ why = .cancel ∨ why = .instantiate ∨ why = .timer .disarm ∧ s.fired = true) ∧
    ∀ s s', Reached s → s.pc.yielding = true → s.step .run = some s' →
      s'.pc.yielding = true ∨ s'.stopped = true ∧ s'.pc = .idle := by
  refine ⟨fun s h hq => ?_, fun s s' e h hs hi hc => ?_, fun s s' _ hy hs => yielding_step hy hs⟩
  · obtain ⟨hi, hg⟩ := h.invariants.1.poll_set hq
    refine ⟨hi, hg, fun hpc hor => ⟨{ s with pc := .handler }, ?_, rfl⟩⟩
    have hp : s.poll = true := hor.elim hi hg
    simp [step, runStep, hpc, hp]
  · obtain ⟨rfl, why, hpc⟩ := step_clears hs hi hc
    refine ⟨rfl, why, hpc, ?_⟩
    cases why with
    | yield => exact .inl rfl
    | cancel => exact .inr (.inl rfl)
    | instantiate => exact .inr (.inr (.inl rfl))
    | timer u =>
      obtain ⟨-, ht, hclear⟩ := h.invariants
      have hfired := (hclear.erases u hpc).2
      exact .inr (.inr (.inr ⟨by rw [ht.clears_disarming hpc hfired], hfired⟩))

/-- the disarming of a timer that has fired clears the flag without a yield, a cancel or an instantiation -/
theorem poll_flag_disarm_clears :
    ¬ ClearedOnly (fun _ why => why = .yield ∨ why = .cancel ∨ why = .instantiate) := by
  intro h
  have hs : ∃ s tr, traced (deadlinePasses ++ disarms) = some (s, tr) ∧ s.interrupt = true ∧
      s.pc = .clear (.timer .disarm) ∧ ∃ s', s.step .run = some s' ∧ s'.interrupt = false :=
    ⟨_, _, rfl, rfl, rfl, _, rfl, rfl⟩
  obtain ⟨s, tr, hr, hi, hpc, s', hs', hc⟩ := hs
  obtain ⟨-, why, hw, hor⟩ := h s s' .run (.of_traced hr) hs' hi hc
  rw [hpc] at hw
  cases hw
  simp at hor

/-- **Requests and the deadline timer.** Along every run: every outstanding request is pending in every state, and every
firing is for the last arming, exactly if no disarming comes while the timer has fired and a request is outstanding, and
every firing comes within 2^32 armings of the wait for it. A pending request has the poll flag set once it is complete,
makes the next POLL enter the handler, and the next handler, TICK or bulk operation yield. An activation yields for a
request that no clear came after, or a firing of its own; between activations only such a request is pending; and
the timer thread stores an interrupt only in an activation, before it is disarmed or armed again. -/
theorem requests_survive {es : List IntrEvent} {s : Intr} {tr : List Occurrence} (h : traced es = some (s, tr)) :
    (StaysPending es ∧ FiresForLastArm tr ↔ KeepsRequests tr ∧ FiresInTime tr) ∧
    (s.interrupt = true →
      (s.Quiet → s.poll = true ∧ (s.pc = .poll → ∃ s', s.step .run = some s' ∧ s'.pc = .handler)) ∧
      (s.pc = .handler ∨ s.pc = .tick ∨ s.pc = .bulk → ∃ s', s.step .run = some s' ∧ s'.pc = .clear .yield)) ∧
    (s.pc = .clear .yield → standing tr = true ∨ s.active = true ∧ firedSinceResume tr = true) ∧
    (s.active = false → s.interrupt = true → standing tr = true) ∧
    (∀ g, s.timer = .storing g ∨ s.timer = .stored g → s.active = true ∧ firedSinceArm tr = true) := by
  obtain ⟨hf, ht, hc⟩ := (Reached.of_traced h).invariants
  have htr := TraceInv.of_traced h
  refine ⟨and_congr (keepsRequests_iff h) (firesInTime_iff h), fun hi => ⟨fun hq => ?_, fun hpc => ?_⟩, fun hpc => ?_,
    fun ha hi => ?_, fun g hg => ?_⟩
  · have hp := (hf.poll_set hq).1 hi
    exact ⟨hp, fun hpc => ⟨{ s with pc := .handler }, by simp [step, runStep, hpc, hp], rfl⟩⟩
  · refine ⟨{ s with pc := .clear .yield }, ?_, rfl⟩
    rcases hpc with hpc | hpc | hpc <;> simp [step, runStep, hpc, hi]
  · exact (htr.cause (hc.yields hpc)).imp_right fun hfired => ⟨(ht.fired hfired).1, htr.own hfired⟩
  · refine (htr.cause hi).resolve_right fun hfired => ?_
    simp [(ht.fired hfired).1] at ha
  · have hfired := (ht.storing g hg).2
    have hlock := ht.lockTimer.mpr ⟨g, hg⟩
    have hnot := ht.not_tested (by simp [hlock])
    exact ⟨(ht.fired hfired).1, by rw [htr.fired, hfired, hnot]; rfl⟩

/-- the deadline passes and a request comes, then a TICK takes both before the timer is disarmed -/
def requestTaken : List IntrEvent :=
  deadlinePasses ++ [.requestInterrupt 0, .requestPoll 0, .call .tick] ++ List.replicate 6 .run ++
    [.call .finish] ++ List.replicate 4 .run

theorem requests_survive_taken : ∃ s tr, traced requestTaken = some (s, tr) ∧
    tr = [.disarm, .taken, .request, .fire, .wait, .arm, .resume] ∧
    StaysPending requestTaken ∧ FiresForLastArm tr := by
  have h : ∃ s, traced requestTaken = some (s, [.disarm, .taken, .request, .fire, .wait, .arm, .resume]) := ⟨_, rfl⟩
  obtain ⟨s, h⟩ := h
  exact ⟨s, _, h, rfl, (requests_survive h).1.2 (by decide)⟩

/-- a request that comes after the deadline passed is gone when `wah_resume` returns -/
theorem requests_lost_to_timer :
    ¬ ∀ es s tr, traced es = some (s, tr) → s.pc = .idle → s.active = false → outstanding tr = true →
      s.interrupt = true := by
  intro h
  have hs : ∃ s, traced (deadlinePasses ++ [.requestInterrupt 0, .requestPoll 0] ++ disarms ++
      [.run, .run, .run, .run, .run]) = some (s, [.disarm, .request, .fire, .wait, .arm, .resume]) ∧ s.pc = .idle ∧
      s.active = false ∧ s.interrupt = false := ⟨_, rfl, rfl, rfl, rfl⟩
  obtain ⟨s, hr, hpc, ha, hi⟩ := hs
  simp [h _ s _ hr hpc ha (by decide)] at hi

end Intr

end Wah
