/-
Reading the limits of a context and writing them back.

Model:
- the limits, the activation and `wah_set_limits` are those of the lifecycle; here a run says what it uses (`Usage`):
  the fuel of METER and TICK records and of bulk operations, memory that is charged and released, and time;
- code runs in the primary module or in a linked one, each parsed with or without metering. A METER or TICK record is
  only there in a module with metering, and charges the context that runs it.

Result: in every READY or SUSPENDED state of every run, writing back what was read succeeds and changes nothing, unless
metered code of a linked module ran on a context without metering (`limits_round_trip`).
-/
import Wah.Lifecycle
import Wah.Heap
import Wah.BulkOps

namespace Wah

/-! ## What code uses -/

/-- the module of a piece of code -/
inductive CodeHome where
  | primary
  | linked (metered : Bool)
deriving DecidableEq, Repr

/-- a use of fuel or memory, by code or by the host -/
inductive Usage where
  /-- METER with the cost of its chunk -/
  | meter (home : CodeHome) (cost : Nat)
  /-- TICK, which may find an interrupt -/
  | tick (home : CodeHome) (interrupted : Bool)
  | bulk (items : Nat)
  | locals (count : Nat)
  /-- an allocation of a constant expression, which runs on a context of its own module -/
  | constBulk (home : CodeHome) (items : Nat)
  | setFuel (fuel : Int)
  | alloc (bytes : Nat)
  | release (bytes : Nat)
deriving DecidableEq, Repr

namespace ECtx

variable (K : Sizes)

/-- `fuel_metering` of the module of the code -/
def metered (c : ECtx) : CodeHome → Bool
  | .primary => c.fuelMetering
  | .linked metered => metered

def withFuel (c : ECtx) (fuel : Int) : ECtx := { c with limits := { c.limits with fuel } }

/-- METER gives the cost back before the slow path -/
def chargeMeter (c : ECtx) (cost : Nat) : ECtx :=
  let fuel := c.limits.fuel - cost
  c.withFuel (if fuel < 0 then fuel + cost else fuel)

/-- TICK is charged again when it is retried after an interrupt -/
def chargeTick (c : ECtx) (interrupted : Bool) : ECtx :=
  let fuel := c.limits.fuel - 1
  c.withFuel (if fuel < 0 then fuel else if interrupted then fuel + 1 else fuel)

/-- `wah_bulk_fuel_charge`, in a module with or without metering -/
def chargeBulk (c : ECtx) (metered : Bool) (items : Nat) : ECtx :=
  if metered = true ∧ 0 < items then
    c.withFuel (c.limits.fuel - (bulkFuelUnits items : Nat))
  else c

/-- `wah_locals_fuel_charge` -/
def chargeLocals (c : ECtx) (count : Nat) : ECtx :=
  if c.fuelMetering then c.withFuel (c.limits.fuel - (K.value * count / itemsPerFuel : Nat)) else c

/-- `wah_set_fuel` on a context that is not poisoned, with a fuel of 64 bits -/
def setFuel (c : ECtx) (fuel : Int) : ECtx :=
  if c.fuelMetering = true ∧ 0 ≤ fuel ∧ fuel ≤ int64Max then c.withFuel fuel else c

/-- the memory budget, without a limit for `UINT64_MAX` -/
def budget (c : ECtx) : Budget :=
  ⟨if c.limits.maxMemoryBytes = uint64Max then none else some c.limits.maxMemoryBytes, c.memoryBytesCommitted⟩

/-- `wah_budget_charge` after its check -/
def chargeMemory (c : ECtx) (bytes : Nat) : ECtx :=
  if c.budget.check bytes then { c with memoryBytesCommitted := (c.budget.charge bytes).committed } else c

def releaseMemory (c : ECtx) (bytes : Nat) : ECtx :=
  { c with memoryBytesCommitted := (c.budget.release bytes).committed }

def use (c : ECtx) : Usage → ECtx
  | .meter home cost => if c.metered home then c.chargeMeter cost else c
  | .tick home interrupted => if c.metered home then c.chargeTick interrupted else c
  | .bulk items => c.chargeBulk c.fuelMetering items
  | .locals count => c.chargeLocals K count
  | .constBulk home items => c.chargeBulk (c.metered home) items
  | .setFuel fuel => c.setFuel fuel
  | .alloc bytes => c.chargeMemory bytes
  | .release bytes => c.releaseMemory bytes

def useAll (c : ECtx) (us : List Usage) : ECtx := us.foldl (use K) c

/-- `wah_get_limits` -/
def getLimits (c : ECtx) : Limits where
  maxStackBytes := c.limits.stackBufferSize
  maxMemoryBytes := if c.limits.maxMemoryBytes = uint64Max then 0 else c.limits.maxMemoryBytes
  noMemoryBytes := decide (c.limits.maxMemoryBytes = 0)
  fuel := if 0 ≤ c.limits.fuel ∧ c.limits.fuel < int64Max then c.limits.fuel.toNat else 0
  deadlineUs := c.limits.deadlineUs

end ECtx

/-! ## Runs -/

/-- a context with its timer, which is created with the first deadline -/
structure LimCtx where
  ctx : ECtx
  hasTimer : Bool

/-- a deadline that the timer counts down -/
def isDeadline (us : Nat) : Bool := decide (us ≠ 0) && decide (us ≠ uint64Max)

/-- the deadline after an activation that took `elapsed`, clamped to 1us -/
def chargedDeadline (us elapsed : Nat) (fired : Bool) : Nat :=
  if fired = true ∨ us ≤ elapsed then 1 else us - elapsed

/-- what is outside: how a run ended, what it used, and how long it took -/
structure RunUse where
  usage : List Usage
  status : Status
  stack : StackPos
  elapsed : Nat
  fired : Bool

/-- the steps of the functions of the interface; `wah_call` is a start, a resume and a finish or cancel -/
inductive LimOp where
  | start (fn : EntryFn) (e : StartEnv)
  | resume (r : RunUse)
  | finish (pin : Option ApiError)
  | cancel
  | setLimits (l : Limits) (timer : Option ApiError) (buf : Except ApiError Nat)
  /-- between activations: the host allocates, collects or sets the fuel, or an instantiation runs its expressions -/
  | between (us : List Usage)

namespace LimCtx

variable (K : Sizes)

/-- what `wah_new_timer` answers; an existing timer is kept -/
def newTimer (x : LimCtx) (timer : Option ApiError) : Option ApiError := if x.hasTimer then none else timer

/-- `wah_set_limits` -/
def setLimits (x : LimCtx) (l : Limits) (timer : Option ApiError) (buf : Except ApiError Nat) : LimCtx × Status :=
  let r := x.ctx.setLimits K l (x.newTimer timer) buf
  -- the timer is created after the checks, and stays if the stack cannot be allocated then
  let made := isDeadline l.deadlineUs && timer.isNone && decide ((x.ctx.setLimits K l none (.ok 0)).2 = .ok)
  (⟨r.1, x.hasTimer || made⟩, r.2)

/-- `wah_resume_internal`, with the timer armed around the run -/
def resume (x : LimCtx) (r : RunUse) : LimCtx :=
  let used := x.ctx.useAll K r.usage
  let c := (x.ctx.resumeInternal K ⟨r.status, r.stack, used.limits.fuel, used.memoryBytesCommitted⟩).1
  if x.ctx.lifecycle.state = .suspended ∧ x.hasTimer = true ∧ isDeadline x.ctx.limits.deadlineUs = true then
    ⟨{ c with limits := { c.limits with deadlineUs := chargedDeadline c.limits.deadlineUs r.elapsed r.fired } }, true⟩
  else ⟨c, x.hasTimer⟩

def exec (x : LimCtx) : LimOp → LimCtx
  | .start fn e => ⟨(x.ctx.startFunctionInternal K fn e).1, x.hasTimer⟩
  | .resume r => x.resume K r
  | .finish pin => ⟨(x.ctx.finishInternal pin).1, x.hasTimer⟩
  | .cancel => ⟨x.ctx.cancelInternal, x.hasTimer⟩
  | .setLimits l timer buf => (x.setLimits K l timer buf).1
  | .between us => ⟨x.ctx.useAll K us, x.hasTimer⟩

def run (x : LimCtx) (ops : List LimOp) : LimCtx := ops.foldl (exec K) x

/-- `WAH_DEFAULT_STACK_BYTES` is a parameter -/
def create (metered : Bool) (defaultStack : Nat) (l : Limits) (timer : Option ApiError) (buf : Nat) : Option LimCtx :=
  if l.noMemoryBytes = true ∧ 0 < l.maxMemoryBytes then none
  else if l.fuel ≠ 0 ∧ metered = false then none
  else if isDeadline l.deadlineUs = true ∧ timer.isSome = true then none
  else
    let size := if l.maxStackBytes = 0 then defaultStack else l.maxStackBytes
    some {
      ctx :=
        { fuelMetering := metered
          limits :=
            { maxMemoryBytes :=
                if l.noMemoryBytes then 0 else if 0 < l.maxMemoryBytes then l.maxMemoryBytes else uint64Max
              fuel := if l.fuel ≠ 0 then (if l.fuel ≤ int64Max then (l.fuel : Int) else int64Max) else int64Max
              deadlineUs := if isDeadline l.deadlineUs then l.deadlineUs else 0
              stackBuffer := buf
              stackBufferSize := size }
          stack := ⟨buf, 0, buf + size - (buf + size) % K.frameAlign, 0⟩ }
      hasTimer := isDeadline l.deadlineUs }

/-- writing back what was read -/
def writeBack (x : LimCtx) (timer : Option ApiError) (buf : Except ApiError Nat) : LimCtx × Status :=
  x.setLimits K x.ctx.getLimits timer buf

end LimCtx

/-! ## The invariant -/

/-- the fields of a context that the limits are read from, but for the activation -/
structure KeepsLimits (c c' : ECtx) : Prop where
  poisoned : c'.poisoned = c.poisoned
  metering : c'.fuelMetering = c.fuelMetering
  committed : c'.memoryBytesCommitted = c.memoryBytesCommitted
  limits : c'.limits = c.limits

/-- the limits can be written back, the fuel aside -/
structure LimitsOk (c : ECtx) (hasTimer : Bool) : Prop where
  poisoned : c.poisoned = false
  committed : c.limits.maxMemoryBytes = uint64Max ∨ c.memoryBytesCommitted ≤ c.limits.maxMemoryBytes
  fuel : c.limits.fuel ≤ int64Max
  deadline : isDeadline c.limits.deadlineUs = true → hasTimer = true

/-- without metering the fuel is unlimited -/
def FuelUntouched (c : ECtx) : Prop := c.fuelMetering = false → c.limits.fuel = int64Max

/-- metered code runs on metered contexts only -/
def Usage.Fits (metering : Bool) : Usage → Prop
  | .meter home _ | .tick home _ | .constBulk home _ => metering = true ∨ home ≠ .linked true
  | _ => True

section Invariant

variable {K : Sizes} {c c' : ECtx} {t : Bool}

theorem KeepsLimits.refl (c : ECtx) : KeepsLimits c c := ⟨rfl, rfl, rfl, rfl⟩

theorem LimitsOk.keep (h : LimitsOk c t) (hk : KeepsLimits c c') : LimitsOk c' t where
  poisoned := hk.poisoned.trans h.poisoned
  committed := by rw [hk.limits, hk.committed]; exact h.committed
  fuel := by rw [hk.limits]; exact h.fuel
  deadline := by rw [hk.limits]; exact h.deadline

theorem FuelUntouched.keep (h : FuelUntouched c) (hk : KeepsLimits c c') : FuelUntouched c' := by
  intro hm
  rw [hk.limits]
  exact h (hk.metering ▸ hm)

theorem startFunctionInternal_keeps (fn : EntryFn) (e : StartEnv) :
    KeepsLimits c (c.startFunctionInternal K fn e).1 := by
  unfold ECtx.startFunctionInternal
  by_cases hs : c.lifecycle.state = .ready
  · rw [if_neg (not_not.2 hs)]
    cases fn with
    | host np nr =>
      simp only [ECtx.startHost]
      split_ifs
      · exact ⟨rfl, rfl, rfl, rfl⟩
      · exact ⟨rfl, rfl, rfl, rfl⟩
      · cases e.load <;> exact ⟨rfl, rfl, rfl, rfl⟩
    | wasm np nr slots locals =>
      simp only [ECtx.startWasm]
      split_ifs
      · exact ⟨rfl, rfl, rfl, rfl⟩
      · exact ⟨rfl, rfl, rfl, rfl⟩
      · cases e.load with
        | some err => exact ⟨rfl, rfl, rfl, rfl⟩
        | none => cases e.bind <;> exact ⟨rfl, rfl, rfl, rfl⟩
  · rw [if_pos hs]
    exact .refl c

theorem finishInternal_keeps (pin : Option ApiError) : KeepsLimits c (c.finishInternal pin).1 := by
  unfold ECtx.finishInternal
  split_ifs
  · exact .refl c
  · exact ⟨rfl, rfl, rfl, rfl⟩

theorem cancelInternal_keeps : KeepsLimits c c.cancelInternal := by
  unfold ECtx.cancelInternal
  split_ifs
  · exact .refl c
  · exact ⟨rfl, rfl, rfl, rfl⟩

theorem LimitsOk.withFuel (h : LimitsOk c t) {fuel : Int} (hf : fuel ≤ int64Max) : LimitsOk (c.withFuel fuel) t :=
  ⟨h.poisoned, h.committed, hf, h.deadline⟩

theorem LimitsOk.lessFuel (h : LimitsOk c t) (n : Nat) : LimitsOk (c.withFuel (c.limits.fuel - n)) t :=
  h.withFuel ((Int.sub_le_self _ (Int.natCast_nonneg n)).trans h.fuel)

/-- what a use of resources leaves as it was -/
structure UseSpec (c c' : ECtx) : Prop where
  metering : c'.fuelMetering = c.fuelMetering
  lifecycle : c'.lifecycle = c.lifecycle
  deadline : c'.limits.deadlineUs = c.limits.deadlineUs
  maxMemory : c'.limits.maxMemoryBytes = c.limits.maxMemoryBytes

theorem use_spec (c : ECtx) (u : Usage) : UseSpec c (c.use K u) := by
  cases u with
  | meter home cost => simp only [ECtx.use]; split_ifs <;> exact ⟨rfl, rfl, rfl, rfl⟩
  | tick home interrupted => simp only [ECtx.use]; split_ifs <;> exact ⟨rfl, rfl, rfl, rfl⟩
  | bulk items => simp only [ECtx.use, ECtx.chargeBulk]; split_ifs <;> exact ⟨rfl, rfl, rfl, rfl⟩
  | locals count => simp only [ECtx.use, ECtx.chargeLocals]; split_ifs <;> exact ⟨rfl, rfl, rfl, rfl⟩
  | constBulk home items => simp only [ECtx.use, ECtx.chargeBulk]; split_ifs <;> exact ⟨rfl, rfl, rfl, rfl⟩
  | setFuel fuel => simp only [ECtx.use, ECtx.setFuel]; split_ifs <;> exact ⟨rfl, rfl, rfl, rfl⟩
  | alloc bytes => simp only [ECtx.use, ECtx.chargeMemory]; split_ifs <;> exact ⟨rfl, rfl, rfl, rfl⟩
  | release bytes => exact ⟨rfl, rfl, rfl, rfl⟩

theorem LimitsOk.chargeBulk (h : LimitsOk c t) (metered : Bool) (items : Nat) :
    LimitsOk (c.chargeBulk metered items) t := by
  unfold ECtx.chargeBulk
  split_ifs
  · exact h.lessFuel _
  · exact h

/-- a use of resources keeps the limits in order -/
theorem LimitsOk.use (h : LimitsOk c t) (u : Usage) : LimitsOk (c.use K u) t := by
  have hfuel := h.fuel
  cases u with
  | meter home cost =>
    simp only [ECtx.use]
    split_ifs
    · refine h.withFuel ?_
      split_ifs <;> omega
    · exact h
  | tick home interrupted =>
    simp only [ECtx.use]
    split_ifs
    · refine h.withFuel ?_
      split_ifs <;> omega
    · exact h
  | bulk items => exact h.chargeBulk _ _
  | constBulk home items => exact h.chargeBulk _ _
  | locals count =>
    simp only [ECtx.use, ECtx.chargeLocals]
    split_ifs
    · exact h.lessFuel _
    · exact h
  | setFuel fuel =>
    simp only [ECtx.use, ECtx.setFuel]
    split_ifs with hset
    · exact h.withFuel hset.2.2
    · exact h
  | alloc bytes =>
    simp only [ECtx.use, ECtx.chargeMemory]
    split_ifs with hcheck
    · refine ⟨h.poisoned, ?_, h.fuel, h.deadline⟩
      refine or_iff_not_imp_left.2 fun hlimit => ?_
      have hroom : c.memoryBytesCommitted + bytes ≤ c.limits.maxMemoryBytes := by
        simp only [Budget.check, ECtx.budget, if_neg hlimit] at hcheck
        split_ifs at hcheck
        have hroom := of_decide_eq_true hcheck
        omega
      exact (Nat.mod_le _ _).trans hroom
    · exact h
  | release bytes => exact ⟨h.poisoned, h.committed.imp id fun hle => (Nat.sub_le _ _).trans hle, h.fuel, h.deadline⟩

theorem useAll_spec (c : ECtx) (us : List Usage) : UseSpec c (c.useAll K us) := by
  induction us generalizing c with
  | nil => exact ⟨rfl, rfl, rfl, rfl⟩
  | cons u us ih =>
    have hu := use_spec (K := K) c u
    have hus := ih (c.use K u)
    exact ⟨hus.metering.trans hu.metering, hus.lifecycle.trans hu.lifecycle, hus.deadline.trans hu.deadline,
      hus.maxMemory.trans hu.maxMemory⟩

theorem LimitsOk.useAll (h : LimitsOk c t) (us : List Usage) : LimitsOk (c.useAll K us) t := by
  induction us generalizing c with
  | nil => exact h
  | cons u us ih => exact ih (h.use u)

/-- what fits does not touch the fuel of a context without metering -/
theorem use_fuel (hoff : c.fuelMetering = false) {u : Usage} (hu : u.Fits false) :
    (c.use K u).limits.fuel = c.limits.fuel := by
  have hhome : ∀ home : CodeHome, false = true ∨ home ≠ .linked true → c.metered home = false := by
    intro home hfits
    cases home with
    | primary => exact hoff
    | linked metered =>
      cases metered with
      | false => rfl
      | true => exact (hfits.resolve_left (by decide) rfl).elim
  cases u with
  | meter home cost => rw [ECtx.use, hhome home hu]; rfl
  | tick home interrupted => rw [ECtx.use, hhome home hu]; rfl
  | constBulk home items => rw [ECtx.use, hhome home hu, ECtx.chargeBulk, if_neg (by simp)]
  | bulk items => rw [ECtx.use, hoff, ECtx.chargeBulk, if_neg (by simp)]
  | locals count => rw [ECtx.use, ECtx.chargeLocals, hoff]; rfl
  | setFuel fuel => rw [ECtx.use, ECtx.setFuel, hoff, if_neg (by simp)]
  | alloc bytes => simp only [ECtx.use, ECtx.chargeMemory]; split_ifs <;> rfl
  | release bytes => rfl

theorem FuelUntouched.useAll (h : FuelUntouched c) {us : List Usage} (hus : ∀ u ∈ us, u.Fits c.fuelMetering) :
    FuelUntouched (c.useAll K us) := by
  induction us generalizing c with
  | nil => exact h
  | cons u us ih =>
    have hmetering := (use_spec (K := K) c u).metering
    refine ih (c := c.use K u) (fun hoff => ?_) fun v hv => ?_
    · rw [hmetering] at hoff
      rw [use_fuel hoff (hoff ▸ hus u (List.mem_cons_self))]
      exact h hoff
    · rw [hmetering]
      exact hus v (List.mem_cons_of_mem _ hv)

/-- a call of `wah_set_limits` changes nothing, or stores the limits after its checks -/
theorem setLimits_cases (c : ECtx) (l : Limits) (timer : Option ApiError) (buf : Except ApiError Nat) :
    ((c.setLimits K l timer buf).1 = c ∧ (c.setLimits K l timer buf).2 ≠ .ok) ∨
      ((c.setLimits K l timer buf).2 = .ok ∧ (ECtx.setsMaxMem l = true → c.memoryBytesCommitted ≤ ECtx.newMaxMem l) ∧
        (l.fuel ≠ 0 → c.fuelMetering = true) ∧ (isDeadline l.deadlineUs = true → timer = none) ∧
        ∃ d, (d = c ∨ ∃ buf, d = c.newStack K l buf) ∧ (c.setLimits K l timer buf).1 = d.storeLimits l) := by
  unfold ECtx.setLimits
  simp only
  split_ifs with h1 h2 h3 h4 h5 h6
  any_goals exact .inl ⟨rfl, nofun⟩
  unfold ECtx.commitLimits
  cases hans : (if l.deadlineUs ≠ 0 ∧ l.deadlineUs ≠ uint64Max then timer else none) with
  | some err => exact .inl ⟨rfl, nofun⟩
  | none =>
    have htimer : isDeadline l.deadlineUs = true → timer = none := by
      intro h
      rw [if_pos (by simpa [isDeadline] using h)] at hans
      exact hans
    have hmem : ECtx.setsMaxMem l = true → c.memoryBytesCommitted ≤ ECtx.newMaxMem l := fun h => by
      by_contra hlt
      exact h5 ⟨h, Nat.lt_of_not_le hlt⟩
    have hfuel : l.fuel ≠ 0 → c.fuelMetering = true := fun h => by
      by_contra hoff
      exact h6 ⟨h, Bool.eq_false_iff.2 hoff⟩
    simp only
    split_ifs
    · exact .inl ⟨rfl, nofun⟩
    · cases buf with
      | error err => exact .inl ⟨rfl, nofun⟩
      | ok buf => exact .inr ⟨rfl, hmem, hfuel, htimer, _, .inr ⟨buf, rfl⟩, rfl⟩
    · exact .inr ⟨rfl, hmem, hfuel, htimer, c, .inl rfl, rfl⟩

/-- the checks that come before the timer and the stack do not depend on their answers -/
theorem setLimits_checks {l : Limits} {timer : Option ApiError} {buf : Except ApiError Nat}
    (h : (c.setLimits K l timer buf).2 = .ok) : (c.setLimits K l none (.ok 0)).2 = .ok := by
  unfold ECtx.setLimits at h ⊢
  simp only at h ⊢
  split_ifs at h ⊢
  unfold ECtx.commitLimits at h ⊢
  cases hans : (if l.deadlineUs ≠ 0 ∧ l.deadlineUs ≠ uint64Max then timer else none) with
  | some err =>
    rw [hans] at h
    cases h
  | none =>
    rw [hans] at h
    rw [ite_self]
    simp only at h ⊢
    split_ifs at h ⊢ <;> rfl

theorem LimitsOk.store (h : LimitsOk c t) {l : Limits} {d : ECtx} (hd : d = c ∨ ∃ buf, d = c.newStack K l buf)
    (hmem : ECtx.setsMaxMem l = true → c.memoryBytesCommitted ≤ ECtx.newMaxMem l) {t' : Bool}
    (ht : t = true → t' = true) (hl : isDeadline l.deadlineUs = true → t' = true) : LimitsOk (d.storeLimits l) t' := by
  have hkept : d.poisoned = c.poisoned ∧ d.memoryBytesCommitted = c.memoryBytesCommitted ∧
      d.limits.maxMemoryBytes = c.limits.maxMemoryBytes ∧ d.limits.fuel = c.limits.fuel ∧
      d.limits.deadlineUs = c.limits.deadlineUs := by
    rcases hd with rfl | ⟨buf, rfl⟩ <;> exact ⟨rfl, rfl, rfl, rfl, rfl⟩
  obtain ⟨hpoisoned, hcommitted, hmax, hfuel, hdeadline⟩ := hkept
  refine ⟨hpoisoned.trans h.poisoned, ?_, ?_, ?_⟩
  · simp only [ECtx.storeLimits, hcommitted, hmax]
    split_ifs with hset
    · exact .inr (hmem hset)
    · exact h.committed
  · simp only [ECtx.storeLimits, hfuel]
    have hle := h.fuel
    split_ifs <;> omega
  · simp only [ECtx.storeLimits, hdeadline]
    split_ifs
    · exact hl
    · exact fun hc => ht (h.deadline hc)

end Invariant

namespace LimCtx

variable {K : Sizes} {x : LimCtx}

theorem setLimits_ok (h : LimitsOk x.ctx x.hasTimer) (l : Limits) (timer : Option ApiError)
    (buf : Except ApiError Nat) :
    LimitsOk (x.setLimits K l timer buf).1.ctx (x.setLimits K l timer buf).1.hasTimer := by
  rcases setLimits_cases (K := K) x.ctx l (x.newTimer timer) buf with ⟨hsame, -⟩ | ⟨hok, hmem, -, htimer, d, hd, hstore⟩
  · simp only [setLimits, hsame]
    exact ⟨h.poisoned, h.committed, h.fuel, fun hc => by rw [h.deadline hc]; rfl⟩
  · simp only [setLimits, hstore]
    refine h.store hd hmem (fun ht => by rw [ht]; rfl) fun hdeadline => ?_
    have hchecks := setLimits_checks hok
    have hans := htimer hdeadline
    cases hhas : x.hasTimer with
    | true => rfl
    | false =>
      rw [newTimer, hhas, if_neg Bool.false_ne_true] at hans
      simp [hdeadline, hans, hchecks]

theorem setLimits_fuel (h : FuelUntouched x.ctx) (l : Limits) (timer : Option ApiError) (buf : Except ApiError Nat) :
    FuelUntouched (x.setLimits K l timer buf).1.ctx := by
  rcases setLimits_cases (K := K) x.ctx l (x.newTimer timer) buf with ⟨hsame, -⟩ | ⟨-, -, hfuel, -, d, hd, hstore⟩
  · simp only [setLimits, hsame]
    exact h
  · simp only [setLimits, hstore]
    have hkept : d.fuelMetering = x.ctx.fuelMetering ∧ d.limits.fuel = x.ctx.limits.fuel := by
      rcases hd with rfl | ⟨buf, rfl⟩ <;> exact ⟨rfl, rfl⟩
    intro hoff
    have hoff : x.ctx.fuelMetering = false := hkept.1.symm.trans hoff
    have hzero : ¬ l.fuel ≠ 0 := fun hne => by rw [hfuel hne] at hoff; cases hoff
    simp only [ECtx.storeLimits, if_neg hzero, hkept.2]
    exact h hoff

/-- the effect of a resume: the fuel and the memory that were used, and the time -/
theorem resume_spec (r : RunUse) :
    (x.resume K r = x ∧ x.ctx.lifecycle.state ≠ .suspended) ∨
      ((x.resume K r).ctx.poisoned = x.ctx.poisoned ∧ (x.resume K r).ctx.fuelMetering = x.ctx.fuelMetering ∧
        (x.resume K r).ctx.memoryBytesCommitted = (x.ctx.useAll K r.usage).memoryBytesCommitted ∧
        (x.resume K r).ctx.limits.fuel = (x.ctx.useAll K r.usage).limits.fuel ∧
        (x.resume K r).ctx.limits.maxMemoryBytes = x.ctx.limits.maxMemoryBytes ∧
        (x.resume K r).hasTimer = x.hasTimer ∧
        (x.hasTimer = false → (x.resume K r).ctx.limits.deadlineUs = x.ctx.limits.deadlineUs)) := by
  by_cases hs : x.ctx.lifecycle.state = .suspended
  · right
    unfold resume
    simp only [ECtx.resumeInternal, if_neg (not_not.2 hs)]
    by_cases harm : x.ctx.lifecycle.state = .suspended ∧ x.hasTimer = true ∧ isDeadline x.ctx.limits.deadlineUs = true
    · rw [if_pos harm]
      exact ⟨rfl, rfl, rfl, rfl, rfl, harm.2.1.symm, fun hno => absurd (harm.2.1.symm.trans hno) (by decide)⟩
    · rw [if_neg harm]
      exact ⟨rfl, rfl, rfl, rfl, rfl, rfl, fun _ => rfl⟩
  · left
    refine ⟨?_, hs⟩
    unfold resume
    rw [if_neg fun h => hs h.1]
    simp only [ECtx.resumeInternal, if_pos hs]

theorem resume_ok (h : LimitsOk x.ctx x.hasTimer) (r : RunUse) :
    LimitsOk (x.resume K r).ctx (x.resume K r).hasTimer := by
  rcases resume_spec (K := K) (x := x) r with ⟨hsame, -⟩ | ⟨hpoisoned, -, hcommitted, hfuel, hmax, htimer, hdeadline⟩
  · rw [hsame]
    exact h
  · have hused := h.useAll (K := K) r.usage
    have hspec := useAll_spec (K := K) x.ctx r.usage
    refine ⟨hpoisoned.trans h.poisoned, ?_, hfuel ▸ hused.fuel, fun hd => ?_⟩
    · rw [hmax, hcommitted, ← hspec.maxMemory]
      exact hused.committed
    · rw [htimer]
      cases hhas : x.hasTimer with
      | true => rfl
      | false =>
        rw [hdeadline hhas] at hd
        exact hhas ▸ h.deadline hd

theorem resume_fuel (h : FuelUntouched x.ctx) {r : RunUse} (hr : ∀ u ∈ r.usage, u.Fits x.ctx.fuelMetering) :
    FuelUntouched (x.resume K r).ctx := by
  rcases resume_spec (K := K) (x := x) r with ⟨hsame, -⟩ | ⟨-, hmetering, -, hfuel, -, -, -⟩
  · rw [hsame]
    exact h
  · intro hoff
    rw [hfuel]
    exact h.useAll (K := K) hr ((useAll_spec (K := K) x.ctx r.usage).metering.trans (hmetering.symm.trans hoff))

theorem resume_metering (r : RunUse) : (x.resume K r).ctx.fuelMetering = x.ctx.fuelMetering := by
  rcases resume_spec (K := K) (x := x) r with ⟨hsame, -⟩ | ⟨-, hmetering, -⟩
  · rw [hsame]
  · exact hmetering

end LimCtx

/-- an operation runs metered code on a metered context only -/
def LimOp.Fits (metering : Bool) : LimOp → Prop
  | .resume r => ∀ u ∈ r.usage, u.Fits metering
  | .between us => ∀ u ∈ us, u.Fits metering
  | _ => True

namespace LimCtx

variable {K : Sizes} {x : LimCtx}

/-- one operation keeps the limits in order -/
theorem exec_ok (h : LimitsOk x.ctx x.hasTimer) (op : LimOp) : LimitsOk (x.exec K op).ctx (x.exec K op).hasTimer := by
  cases op with
  | start fn e => exact h.keep (startFunctionInternal_keeps fn e)
  | resume r => exact resume_ok h r
  | finish pin => exact h.keep (finishInternal_keeps pin)
  | cancel => exact h.keep cancelInternal_keeps
  | setLimits l timer buf => exact setLimits_ok h l timer buf
  | between us => exact h.useAll us

theorem exec_metering (op : LimOp) : (x.exec K op).ctx.fuelMetering = x.ctx.fuelMetering := by
  cases op with
  | start fn e => exact (startFunctionInternal_keeps fn e).metering
  | resume r => exact resume_metering r
  | finish pin => exact (finishInternal_keeps pin).metering
  | cancel => exact cancelInternal_keeps.metering
  | setLimits l timer buf =>
    rcases setLimits_cases (K := K) x.ctx l (x.newTimer timer) buf with ⟨hsame, -⟩ | ⟨-, -, -, -, d, hd, hstore⟩
    · simp only [exec, setLimits, hsame]
    · simp only [exec, setLimits, hstore]
      rcases hd with rfl | ⟨buf, rfl⟩ <;> rfl
  | between us => exact (useAll_spec x.ctx us).metering

theorem exec_fuel (h : FuelUntouched x.ctx) {op : LimOp} (hop : op.Fits x.ctx.fuelMetering) :
    FuelUntouched (x.exec K op).ctx := by
  cases op with
  | start fn e => exact h.keep (startFunctionInternal_keeps fn e)
  | resume r => exact resume_fuel h hop
  | finish pin => exact h.keep (finishInternal_keeps pin)
  | cancel => exact h.keep cancelInternal_keeps
  | setLimits l timer buf => exact setLimits_fuel h l timer buf
  | between us => exact h.useAll hop

theorem run_ok (h : LimitsOk x.ctx x.hasTimer) (ops : List LimOp) :
    LimitsOk (x.run K ops).ctx (x.run K ops).hasTimer := by
  induction ops generalizing x with
  | nil => exact h
  | cons op ops ih => exact ih (exec_ok h op)

theorem run_fuel (h : FuelUntouched x.ctx) {ops : List LimOp} (hops : ∀ op ∈ ops, op.Fits x.ctx.fuelMetering) :
    FuelUntouched (x.run K ops).ctx := by
  induction ops generalizing x with
  | nil => exact h
  | cons op ops ih =>
    refine ih (x := x.exec K op) (exec_fuel h (hops op List.mem_cons_self)) fun o ho => ?_
    rw [exec_metering]
    exact hops o (List.mem_cons_of_mem _ ho)

theorem run_metering (ops : List LimOp) : (x.run K ops).ctx.fuelMetering = x.ctx.fuelMetering := by
  induction ops generalizing x with
  | nil => rfl
  | cons op ops ih =>
    calc ((x.exec K op).run K ops).ctx.fuelMetering
      _ = (x.exec K op).ctx.fuelMetering := ih
      _ = x.ctx.fuelMetering := exec_metering op

/-- a new context has its limits in order -/
theorem create_ok {metered : Bool} {defaultStack buf : Nat} {l : Limits} {timer : Option ApiError}
    (h : create K metered defaultStack l timer buf = some x) :
    LimitsOk x.ctx x.hasTimer ∧ FuelUntouched x.ctx ∧ x.ctx.fuelMetering = metered := by
  unfold create at h
  by_cases h1 : l.noMemoryBytes = true ∧ 0 < l.maxMemoryBytes
  · rw [if_pos h1] at h
    cases h
  rw [if_neg h1] at h
  by_cases h2 : l.fuel ≠ 0 ∧ metered = false
  · rw [if_pos h2] at h
    cases h
  rw [if_neg h2] at h
  by_cases h3 : isDeadline l.deadlineUs = true ∧ timer.isSome = true
  · rw [if_pos h3] at h
    cases h
  rw [if_neg h3] at h
  cases h
  refine ⟨⟨rfl, .inr (Nat.zero_le _), ?_, ?_⟩, fun hoff => ?_, rfl⟩
  · simp only
    split_ifs <;> omega
  · simp only
    split_ifs with hd
    · exact fun _ => hd
    · exact fun hzero => absurd hzero (by decide)
  · have hzero : ¬ l.fuel ≠ 0 := fun hne => h2 ⟨hne, hoff⟩
    simp only [if_neg hzero]

/-! ## Writing back -/

/-- what was read is written back with success, and leaves the context as it was -/
def RoundTrips (K : Sizes) (x : LimCtx) : Prop := ∀ timer buf, x.writeBack K timer buf = (x, .ok)

theorem newMaxMem_getLimits (c : ECtx) (h : ECtx.setsMaxMem c.getLimits = true) :
    ECtx.newMaxMem c.getLimits = c.limits.maxMemoryBytes := by
  by_cases hzero : c.limits.maxMemoryBytes = 0
  · simp [ECtx.newMaxMem, ECtx.getLimits, hzero]
  · by_cases hmax : c.limits.maxMemoryBytes = uint64Max
    · simp [ECtx.setsMaxMem, ECtx.getLimits, hmax, uint64Max] at h
    · simp [ECtx.newMaxMem, ECtx.getLimits, hzero, hmax]

/-- what was read does not set both memory limits -/
theorem getLimits_memory (c : ECtx) : ¬(c.getLimits.noMemoryBytes = true ∧ 0 < c.getLimits.maxMemoryBytes) := by
  rintro ⟨hno, hpos⟩
  have hzero : c.limits.maxMemoryBytes = 0 := of_decide_eq_true hno
  simp [ECtx.getLimits, hzero] at hpos

theorem storeLimits_getLimits (c : ECtx) : c.storeLimits c.getLimits = c := by
  have hmem : (if ECtx.setsMaxMem c.getLimits then ECtx.newMaxMem c.getLimits else c.limits.maxMemoryBytes) =
      c.limits.maxMemoryBytes := by
    split_ifs with h
    · exact newMaxMem_getLimits c h
    · rfl
  have hfuel : (if c.getLimits.fuel ≠ 0 then
      (if c.getLimits.fuel ≤ int64Max then (c.getLimits.fuel : Int) else int64Max) else c.limits.fuel) =
      c.limits.fuel := by
    by_cases hread : 0 ≤ c.limits.fuel ∧ c.limits.fuel < int64Max
    · have hval : c.getLimits.fuel = c.limits.fuel.toNat := if_pos hread
      rw [hval]
      split_ifs <;> omega
    · have hval : c.getLimits.fuel = 0 := if_neg hread
      rw [hval, if_neg (not_not.2 rfl)]
  have hdeadline : (if c.getLimits.deadlineUs ≠ 0 then c.getLimits.deadlineUs else c.limits.deadlineUs) =
      c.limits.deadlineUs := ite_self _
  unfold ECtx.storeLimits
  rw [hmem, hfuel, hdeadline]

/-- between runs, only fuel that a context without metering has lost cannot be written back -/
theorem roundTrips_iff (h : LimitsOk x.ctx x.hasTimer)
    (hs : x.ctx.lifecycle.state = .ready ∨ x.ctx.lifecycle.state = .suspended) :
    x.RoundTrips K ↔ x.ctx.fuelMetering = true ∨ x.ctx.limits.fuel ≤ 0 ∨ x.ctx.limits.fuel = int64Max := by
  have hfuelMax := h.fuel
  constructor
  · intro hround
    by_contra hne
    push Not at hne
    have hread : x.ctx.getLimits.fuel ≠ 0 := by
      simp only [ECtx.getLimits]
      rw [if_pos (by omega)]
      omega
    have hok : (x.ctx.setLimits K x.ctx.getLimits (x.newTimer none) (.ok 0)).2 = .ok :=
      congrArg Prod.snd (hround none (.ok 0))
    rcases setLimits_cases (K := K) x.ctx x.ctx.getLimits (x.newTimer none) (.ok 0) with
      ⟨-, hfail⟩ | ⟨-, -, hmetered, -⟩
    · exact hfail hok
    · exact hne.1 (hmetered hread)
  · intro hfuel timer buf
    have hset : ∀ t b, (isDeadline x.ctx.limits.deadlineUs = true → t = none) →
        x.ctx.setLimits K x.ctx.getLimits t b = (x.ctx, .ok) := by
      intro t b ht
      have hstack : x.ctx.setsStack x.ctx.getLimits = false := by simp [ECtx.setsStack, ECtx.getLimits]
      have hstate : ¬(x.ctx.lifecycle.state ≠ .ready ∧ x.ctx.lifecycle.state ≠ .suspended) := fun hne =>
        hs.elim hne.1 hne.2
      have hmem : ¬(ECtx.setsMaxMem x.ctx.getLimits = true ∧
          ECtx.newMaxMem x.ctx.getLimits < x.ctx.memoryBytesCommitted) := by
        rintro ⟨hsets, hlt⟩
        rw [newMaxMem_getLimits _ hsets] at hlt
        rcases h.committed with hmax | hle
        · simp [ECtx.setsMaxMem, ECtx.getLimits, hmax, uint64Max] at hsets
        · exact absurd hlt (Nat.not_lt.2 hle)
      have hread : ¬(x.ctx.getLimits.fuel ≠ 0 ∧ x.ctx.fuelMetering = false) := by
        rintro ⟨hne, hoff⟩
        refine hne ?_
        simp only [ECtx.getLimits]
        split_ifs
        · have hlast := hfuel.resolve_left (by rw [hoff]; decide)
          omega
        · rfl
      have htimer : (if x.ctx.getLimits.deadlineUs ≠ 0 ∧ x.ctx.getLimits.deadlineUs ≠ uint64Max then t else none) =
          none := by
        split_ifs with hd
        · exact ht (by simpa [isDeadline, ECtx.getLimits] using hd)
        · rfl
      simp only [ECtx.setLimits, h.poisoned, Bool.false_eq_true, if_false, if_neg hstate, hstack, false_and,
        if_neg (getLimits_memory x.ctx), if_neg hmem, if_neg hread, ECtx.commitLimits, htimer, storeLimits_getLimits]
    have hnew : isDeadline x.ctx.limits.deadlineUs = true → x.newTimer timer = none := fun hd => if_pos (h.deadline hd)
    have hmade : (x.hasTimer || (isDeadline x.ctx.getLimits.deadlineUs && timer.isNone &&
        decide ((x.ctx.setLimits K x.ctx.getLimits none (.ok 0)).2 = .ok))) = x.hasTimer := by
      cases hhas : x.hasTimer with
      | true => rfl
      | false =>
        have hno : isDeadline x.ctx.limits.deadlineUs = false := by
          by_contra hd
          exact absurd (h.deadline (Bool.eq_true_of_not_eq_false hd)) (by rw [hhas]; decide)
        rw [show x.ctx.getLimits.deadlineUs = x.ctx.limits.deadlineUs from rfl, hno]
        rfl
    unfold writeBack setLimits
    simp only [hset _ _ hnew, hmade]

/-- **Limits can be read and written back.** In every READY or SUSPENDED state of every run of a new context, writing
back what was read succeeds and changes nothing, if and only if the context is metered, or its fuel is unlimited or used
up; and that is so in every run without metered code on a context without metering. -/
theorem limits_round_trip {metered : Bool} {defaultStack buf : Nat} {l : Limits} {timer : Option ApiError} {x₀ : LimCtx}
    (h : create K metered defaultStack l timer buf = some x₀) (ops : List LimOp)
    (hs : (x₀.run K ops).ctx.lifecycle.state = .ready ∨ (x₀.run K ops).ctx.lifecycle.state = .suspended) :
    ((∀ op ∈ ops, op.Fits metered) → (x₀.run K ops).RoundTrips K) ∧
    ((x₀.run K ops).RoundTrips K ↔ metered = true ∨ (x₀.run K ops).ctx.limits.fuel ≤ 0 ∨
      (x₀.run K ops).ctx.limits.fuel = int64Max) := by
  obtain ⟨hok, huntouched, hmetered⟩ := create_ok h
  have hround := roundTrips_iff (K := K) (run_ok hok ops) hs
  rw [run_metering, hmetered] at hround
  refine ⟨fun hops => hround.2 ?_, hround⟩
  cases metered with
  | true => exact .inl rfl
  | false =>
    have hfuel := run_fuel (K := K) huntouched (fun op hop => hmetered ▸ hops op hop)
    exact .inr (.inr (hfuel ((run_metering ops).trans hmetered)))

/-- a context without metering -/
def unmetered : LimCtx where
  ctx :=
    { limits := ⟨uint64Max, int64Max, 0, 4096, 65536⟩
      stack := ⟨4096, 0, 69632, 0⟩ }
  hasTimer := false

/-- a call of a function of a linked module with metering, whose first chunk costs 3 -/
def meteredCall : List LimOp :=
  [.start (.wasm 0 0 1 0) ⟨0, none, none⟩,
    .resume ⟨[.meter (.linked true) 3], .ok, ⟨4096, 0, 69632, 0⟩, 0, false⟩,
    .finish none]

theorem unmetered_created : create ⟨16, 96, 8⟩ false 65536 {} none 4096 = some unmetered := rfl

/-- calls of functions without metering do no harm -/
theorem limits_round_trip_unmetered : RoundTrips ⟨16, 96, 8⟩ (unmetered.run ⟨16, 96, 8⟩
    [.start (.wasm 0 0 1 0) ⟨0, none, none⟩,
      .resume ⟨[.meter (.linked false) 3, .alloc 64], .ok, ⟨4096, 0, 69632, 0⟩, 0, false⟩, .finish none]) := by
  refine (limits_round_trip unmetered_created _ (.inl rfl)).1 fun op hop => ?_
  simp only [List.mem_cons, List.not_mem_nil, or_false] at hop
  rcases hop with rfl | rfl | rfl
  · trivial
  · intro u hu
    simp only [List.mem_cons, List.not_mem_nil, or_false] at hu
    rcases hu with rfl | rfl
    · exact .inr (by decide)
    · trivial
  · trivial

/-- after the metered call the limits cannot be written back -/
theorem limits_lost_to_metering : ((unmetered.run ⟨16, 96, 8⟩ meteredCall).ctx.lifecycle.state = .ready) ∧
    (unmetered.run ⟨16, 96, 8⟩ meteredCall).ctx.getLimits.fuel = int64Max - 3 ∧
    ((unmetered.run ⟨16, 96, 8⟩ meteredCall).writeBack ⟨16, 96, 8⟩ none (.ok 0)).2 = .error .disabledFeature :=
  ⟨rfl, rfl, rfl⟩

end LimCtx

end Wah
