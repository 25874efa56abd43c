/-
The lifecycle of an activation: start, resume, finish, cancel, calls and limits on one context.

Model (`wah_exec_context_t` as far as these functions read or write it):
- four stack positions (`StackPos`), saved in `lifecycle.base_*` when an activation starts and restored on every exit;
- the interpreter, the loading of parameters, pinning, allocation and the parts of instantiation that run no code are
  outside: each operation carries what they answer, and every answer is possible.

Results, for every sequence of operations on a context that starts out READY (`activation_lifecycle`):
- the state moves as the diagram of `wah_exec_state_t` says, and what the call returns says along which arrow;
- a call that the state does not allow, and a rejected start, return an error and change neither state nor stacks;
- whenever the context is READY again, the stacks are those from before the activation;
- a failing `wah_set_limits` changes nothing.
-/
import Wah.Types

namespace Wah

/-- the `WAH_ERROR_*` codes these functions and what they call return -/
inductive ApiError where
  | malformed | tooLarge | outOfMemory | validationFailed | trap | stackOverflow | memoryOutOfBounds | notFound | misuse
  | linkFailed | exception | disabledFeature | multiReturn | unsupported
deriving DecidableEq, Repr

/-- `wah_error_t`: errors are negative, the two statuses positive -/
inductive Status where
  | ok | fuelExhausted | yielded
  | error (e : ApiError)
deriving DecidableEq, Repr

def Status.isError : Status → Bool
  | .error _ => true
  | _ => false

/-- `wah_exec_state_t` -/
inductive ExecState where
  | ready | running | suspended | finished | trapped
deriving DecidableEq, Repr

/-- `sp`, `call_depth`, `frame_ptr` and `exception_handler_depth`; pointers are byte addresses -/
structure StackPos where
  sp : Nat
  callDepth : Nat
  framePtr : Nat
  handlerDepth : Nat
deriving DecidableEq, Repr

/-- `wah_function_t`, as far as starting it needs -/
inductive EntryFn where
  | host (nparams nresults : Nat)
  | wasm (nparams nresults maxFrameSlots localCount : Nat)
deriving DecidableEq, Repr

def EntryFn.nresults : EntryFn → Nat
  | .host _ n | .wasm _ n _ _ => n

/-- `struct wah_exec_lifecycle_s` -/
structure LifeState where
  state : ExecState := .ready
  stopReason : Status := .ok
  entryResultCount : Nat := 0
  entryParamCount : Nat := 0
  entryFn : Option EntryFn := none
  base : StackPos := ⟨0, 0, 0, 0⟩
deriving DecidableEq, Repr

/-- what `wah_set_limits` may change, with the stack buffer -/
structure LimitState where
  maxMemoryBytes : Nat
  fuel : Int
  deadlineUs : Nat
  stackBuffer : Nat
  stackBufferSize : Nat
deriving DecidableEq, Repr

structure ECtx where
  poisoned : Bool := false
  isInstantiated : Bool := true
  instantiateFailed : Bool := false
  /-- `module->fuel_metering` -/
  fuelMetering : Bool := false
  functionTable : List EntryFn := []
  /-- `start_function_idx` of the module, if it has one -/
  startFunction : Option Nat := none
  memoryBytesCommitted : Nat := 0
  limits : LimitState
  stack : StackPos
  lifecycle : LifeState := {}
deriving DecidableEq, Repr

/-- `sizeof(wah_value_t)`, `sizeof(wah_call_frame_t)` and its alignment -/
structure Sizes where
  value : Nat
  frame : Nat
  frameAlign : Nat

def uint32Limit : Nat := 4294967296
def int64Max : Nat := 9223372036854775807

/-! ## Answers from outside -/

/-- `wah_load_host_params` on the arguments, and `wah_bind_frame_module` -/
structure StartEnv where
  paramCount : Nat
  load : Option ApiError := none
  bind : Option ApiError := none
deriving DecidableEq, Repr

/-- what a run of the interpreter or a host function leaves behind -/
structure RunEnv where
  status : Status
  stack : StackPos
  fuel : Int
  committed : Nat
deriving DecidableEq, Repr

/-- one call: its start, its run, and pinning of its results -/
structure CallEnv where
  start : StartEnv
  run : RunEnv
  pin : Option ApiError := none
deriving DecidableEq, Repr

/-- a step of `wah_instantiate`: work that runs no code, or the start function of an owned linked module -/
inductive InstStep where
  | work (result : Option ApiError)
  | linkedStart (fn : EntryFn) (call : CallEnv)
deriving DecidableEq, Repr

/-- instantiation on the first entry -/
structure InstEnv where
  features : Bool := true
  steps : List InstStep := []
  start : CallEnv
deriving DecidableEq, Repr

/-- `wah_limits_t` -/
structure Limits where
  maxStackBytes : Nat := 0
  maxMemoryBytes : Nat := 0
  noMemoryBytes : Bool := false
  fuel : Nat := 0
  deadlineUs : Nat := 0
deriving DecidableEq, Repr

/-! ## The functions -/

namespace ECtx

variable (K : Sizes)

/-- forgets the activation -/
def reset (c : ECtx) : ECtx := { c with stack := c.lifecycle.base, lifecycle := {} }

/-- `wah_cancel_internal` -/
def cancelInternal (c : ECtx) : ECtx := if c.lifecycle.state = .ready then c else c.reset

/-- the host branch of `wah_start_function_internal` -/
def startHost (c : ECtx) (nparams nresults : Nat) (e : StartEnv) : ECtx × Status :=
  if e.paramCount ≠ nparams then (c, .error .validationFailed)
  else if c.stack.framePtr < c.stack.sp + (e.paramCount + nresults) * K.value then (c, .error .stackOverflow)
  else
    match e.load with
    | some err => (c, .error err)
    | none =>
      ({ c with
          stack := { c.stack with sp := c.stack.sp + (e.paramCount + nresults) * K.value }
          lifecycle := { c.lifecycle with entryParamCount := e.paramCount, entryResultCount := nresults,
                                          entryFn := some (.host nparams nresults), state := .suspended,
                                          stopReason := .ok } }, .ok)

/-- the wasm branch: one frame, the parameters and `max_frame_slots` must fit -/
def startWasm (c : ECtx) (nparams nresults maxFrameSlots localCount : Nat) (e : StartEnv) : ECtx × Status :=
  if e.paramCount ≠ nparams then (c, .error .validationFailed)
  else
    let c := { c with lifecycle := { c.lifecycle with entryResultCount := nresults,
                                                      entryFn := some (.wasm nparams nresults maxFrameSlots localCount) } }
    let top := c.stack.sp + (e.paramCount + maxFrameSlots) * K.value
    if c.stack.framePtr < top + K.frame then (c, .error .stackOverflow)
    else
      match e.load with
      | some err => (c, .error err)
      | none =>
        let sp := c.stack.sp + e.paramCount * K.value
        let pushed := { c.stack with sp := sp, framePtr := c.stack.framePtr - K.frame, callDepth := c.stack.callDepth + 1 }
        match e.bind with
        | some err =>
          -- `wah_init_wasm_frame` may fail after the frame was pushed; the handler depth is not restored here
          ({ c with stack := { pushed with sp := c.lifecycle.base.sp, callDepth := c.lifecycle.base.callDepth,
                                            framePtr := c.lifecycle.base.framePtr }, lifecycle := {} }, .error err)
        | none =>
          ({ c with stack := { pushed with sp := sp + localCount * K.value }
                    lifecycle := { c.lifecycle with state := .suspended, stopReason := .ok } }, .ok)

/-- `wah_start_function_internal` -/
def startFunctionInternal (c : ECtx) (fn : EntryFn) (e : StartEnv) : ECtx × Status :=
  if c.lifecycle.state ≠ .ready then (c, .error .misuse)
  else
    let c := { c with lifecycle := { c.lifecycle with base := c.stack } }
    match fn with
    | .host nparams nresults => c.startHost K nparams nresults e
    | .wasm nparams nresults slots locals => c.startWasm K nparams nresults slots locals e

/-- `wah_start_internal` -/
def startInternal (c : ECtx) (idx : Nat) (e : StartEnv) : ECtx × Status :=
  if c.lifecycle.state ≠ .ready then (c, .error .misuse)
  else
    match c.functionTable[idx]? with
    | none => (c, .error .notFound)
    | some fn => c.startFunctionInternal K fn e

/-- the state after a run -/
def stateAfter : Status → ExecState
  | .ok => .finished
  | .fuelExhausted | .yielded => .suspended
  | .error _ => .trapped

/-- `wah_resume_internal`: RUNNING is left again before it returns -/
def resumeInternal (c : ECtx) (e : RunEnv) : ECtx × Status :=
  if c.lifecycle.state ≠ .suspended then (c, .error .misuse)
  else
    let stack :=
      match c.lifecycle.entryFn with
      | some (.host _ _) =>
        if e.status = .ok then
          { e.stack with sp := c.lifecycle.base.sp + (c.lifecycle.entryParamCount + c.lifecycle.entryResultCount) * K.value }
        else e.stack
      | _ => e.stack
    ({ c with stack := stack, limits := { c.limits with fuel := e.fuel }, memoryBytesCommitted := e.committed,
              lifecycle := { c.lifecycle with state := stateAfter e.status, stopReason := e.status } }, e.status)

/-- `wah_finish_internal`: results that cannot be pinned are an error, but the activation is over -/
def finishInternal (c : ECtx) (pin : Option ApiError) : ECtx × Status :=
  if c.lifecycle.state ≠ .finished then (c, .error .misuse)
  else (c.reset, match pin with | some err => .error err | none => .ok)

/-- `wah_call_module_multi` -/
def callModuleMulti (c : ECtx) (idx : Nat) (e : CallEnv) : ECtx × Status :=
  match c.startInternal K idx e.start with
  | (c, .ok) =>
    match c.resumeInternal K e.run with
    | (c, .ok) => c.finishInternal e.pin
    | (c, err) => (c.cancelInternal, err)
  | (c, err) => (c, err)

/-- `wah_call_module` -/
def callModule (c : ECtx) (idx : Nat) (e : CallEnv) : ECtx × Status :=
  match c.functionTable[idx]? with
  | none => (c, .error .notFound)
  | some fn => if 1 < fn.nresults then (c, .error .multiReturn) else c.callModuleMulti K idx e

/-- one start function of `wah_call_linked_start_functions`, on the primary context -/
def linkedStart (c : ECtx) (fn : EntryFn) (e : CallEnv) : ECtx × Status :=
  match c.startFunctionInternal K fn e.start with
  | (c, .ok) =>
    match c.resumeInternal K e.run with
    | (c, .ok) => c.finishInternal none
    | (c, err) => (c.cancelInternal, err)
  | (c, err) => (c, err)

/-- the steps of `wah_instantiate` in order, up to the first that fails -/
def instSteps (c : ECtx) : List InstStep → ECtx × Status
  | [] => (c, .ok)
  | .work none :: ss => c.instSteps ss
  | .work (some err) :: _ => (c, .error err)
  | .linkedStart fn e :: ss =>
    match c.linkedStart K fn e with
    | (c, .ok) => c.instSteps ss
    | (c, err) => (c, err)

/-- `wah_instantiate` -/
def instantiate (c : ECtx) (e : InstEnv) : ECtx × Status :=
  if c.poisoned || c.isInstantiated || c.instantiateFailed || decide (c.lifecycle.state ≠ .ready) then (c, .error .misuse)
  else if !e.features then (c, .error .disabledFeature)
  else
    match c.instSteps K e.steps with
    | (c, .ok) =>
      match c.startFunction with
      | none => ({ c with isInstantiated := true }, .ok)
      | some idx =>
        match c.callModule K idx e.start with
        | (c, .ok) => ({ c with isInstantiated := true }, .ok)
        | (c, err) => ({ c with instantiateFailed := true }, err)
    | (c, err) => ({ c with instantiateFailed := true }, err)

/-- `wah_instantiate_on_entry` -/
def instantiateOnEntry (c : ECtx) (e : InstEnv) : ECtx × Status :=
  if c.isInstantiated then (c, .ok) else c.instantiate K e

/-- `wah_start` -/
def start (c : ECtx) (idx : Nat) (i : InstEnv) (e : StartEnv) : ECtx × Status :=
  if c.poisoned then (c, .error .misuse)
  else
    match c.instantiateOnEntry K i with
    | (c, .ok) => if uint32Limit ≤ idx then (c, .error .notFound) else c.startInternal K idx e
    | (c, err) => (c, err)

/-- `wah_resume` -/
def resume (c : ECtx) (e : RunEnv) : ECtx × Status :=
  if c.poisoned then (c, .error .misuse) else c.resumeInternal K e

/-- `wah_finish` and `wah_finish_pin` -/
def finish (c : ECtx) (pin : Option ApiError) : ECtx × Status :=
  if c.poisoned then (c, .error .misuse) else c.finishInternal pin

/-- `wah_cancel` -/
def cancel (c : ECtx) : ECtx :=
  if c.poisoned || decide (c.lifecycle.state = .running) then c else c.cancelInternal

/-- the functions that call and finish at once -/
inductive CallForm where
  | call | callPin | callMulti
  /-- `wah_call_by_name` with what the name resolves to -/
  | callByName (idx : Option Nat)
deriving DecidableEq, Repr

/-- `wah_call`, `wah_call_pin`, `wah_call_multi` and `wah_call_by_name` -/
def callIdx (c : ECtx) (multi : Bool) (idx : Nat) (i : InstEnv) (e : CallEnv) : ECtx × Status :=
  if c.poisoned then (c, .error .misuse)
  else if uint32Limit ≤ idx then (c, .error .notFound)
  else
    match c.instantiateOnEntry K i with
    | (c, .ok) => if multi then c.callModuleMulti K idx e else c.callModule K idx e
    | (c, err) => (c, err)

def call (c : ECtx) (form : CallForm) (idx : Nat) (i : InstEnv) (e : CallEnv) : ECtx × Status :=
  match form with
  | .call | .callPin => c.callIdx K false idx i e
  | .callMulti => c.callIdx K true idx i e
  | .callByName none => if c.poisoned then (c, .error .misuse) else (c, .error .notFound)
  | .callByName (some idx) => c.callIdx K false idx i e

/-- whether the stack buffer is replaced -/
def setsStack (c : ECtx) (l : Limits) : Bool :=
  decide (l.maxStackBytes ≠ 0) && decide (l.maxStackBytes ≠ c.limits.stackBufferSize)

def setsMaxMem (l : Limits) : Bool := l.noMemoryBytes || decide (0 < l.maxMemoryBytes)

def newMaxMem (l : Limits) : Nat := if l.noMemoryBytes then 0 else l.maxMemoryBytes

/-- a new, aligned stack in the given buffer -/
def newStack (c : ECtx) (l : Limits) (buf : Nat) : ECtx :=
  let bufEnd := buf + l.maxStackBytes
  { c with limits := { c.limits with stackBuffer := buf, stackBufferSize := l.maxStackBytes }
           stack := { c.stack with sp := buf, framePtr := bufEnd - bufEnd % K.frameAlign } }

/-- the limits that cannot fail -/
def storeLimits (c : ECtx) (l : Limits) : ECtx :=
  { c with limits := { c.limits with
      maxMemoryBytes := if setsMaxMem l then newMaxMem l else c.limits.maxMemoryBytes
      fuel := if l.fuel ≠ 0 then (if l.fuel ≤ int64Max then (l.fuel : Int) else int64Max) else c.limits.fuel
      deadlineUs := if l.deadlineUs ≠ 0 then l.deadlineUs else c.limits.deadlineUs } }

/-- everything is allocated before anything changes; a timer stays idle until a deadline is set -/
def commitLimits (c : ECtx) (l : Limits) (timer : Option ApiError) (buf : Except ApiError Nat) : ECtx × Status :=
  match (if l.deadlineUs ≠ 0 ∧ l.deadlineUs ≠ uint64Max then timer else none) with
  | some err => (c, .error err)
  | none =>
    if c.setsStack l then
      if uint64Max < l.maxStackBytes then (c, .error .tooLarge)
      else
        match buf with
        | .error err => (c, .error err)
        | .ok buf => ((c.newStack K l buf).storeLimits l, .ok)
    else (c.storeLimits l, .ok)

/-- `wah_set_limits`; `timer` and `buf` are what creating a timer and allocating a buffer answer -/
def setLimits (c : ECtx) (l : Limits) (timer : Option ApiError) (buf : Except ApiError Nat) : ECtx × Status :=
  let st := c.lifecycle.state
  if c.poisoned then (c, .error .misuse)
  else if st ≠ .ready ∧ st ≠ .suspended then (c, .error .misuse)
  else if c.setsStack l = true ∧
      ¬(st = .ready ∧ c.stack.callDepth = 0 ∧ c.stack.sp = c.limits.stackBuffer) then (c, .error .misuse)
  else if l.noMemoryBytes = true ∧ 0 < l.maxMemoryBytes then (c, .error .misuse)
  else if setsMaxMem l = true ∧ newMaxMem l < c.memoryBytesCommitted then (c, .error .tooLarge)
  else if l.fuel ≠ 0 ∧ c.fuelMetering = false then (c, .error .disabledFeature)
  else c.commitLimits K l timer buf

/-! ## What each function does to the activation -/

variable {K} {c : ECtx}

/-- state and stack positions are the same -/
structure Idle (c c' : ECtx) : Prop where
  state : c'.lifecycle.state = c.lifecycle.state
  stack : c'.stack = c.stack

theorem Idle.refl (c : ECtx) : Idle c c := ⟨rfl, rfl⟩

theorem Idle.trans {c' c'' : ECtx} (h : Idle c c') (h' : Idle c' c'') : Idle c c'' :=
  ⟨h'.state.trans h.state, h'.stack.trans h.stack⟩

/-- an activation has begun, and remembers where the stacks were -/
structure Began (c c' : ECtx) : Prop where
  ready : c.lifecycle.state = .ready
  state : c'.lifecycle.state = .suspended
  base : c'.lifecycle.base = c.stack

/-- a start that returns, with what it returns -/
def StartSpec (c : ECtx) (r : ECtx × Status) : Prop :=
  (∃ e, r.2 = .error e) ∧ Idle c r.1 ∨ r.2 = .ok ∧ Began c r.1

theorem startHost_spec (hs : c.lifecycle.state = .ready) (hb : c.lifecycle.base = c.stack) (np nr : Nat) (e : StartEnv) :
    StartSpec c (c.startHost K np nr e) := by
  unfold startHost
  split
  · exact .inl ⟨⟨_, rfl⟩, .refl c⟩
  · split
    · exact .inl ⟨⟨_, rfl⟩, .refl c⟩
    · split
      · exact .inl ⟨⟨_, rfl⟩, .refl c⟩
      · exact .inr ⟨rfl, hs, rfl, hb⟩

theorem startWasm_spec (hs : c.lifecycle.state = .ready) (hb : c.lifecycle.base = c.stack) (np nr slots locals : Nat)
    (e : StartEnv) : StartSpec c (c.startWasm K np nr slots locals e) := by
  unfold startWasm
  split
  · exact .inl ⟨⟨_, rfl⟩, .refl c⟩
  · dsimp only
    split
    · exact .inl ⟨⟨_, rfl⟩, rfl, rfl⟩
    · split
      · exact .inl ⟨⟨_, rfl⟩, rfl, rfl⟩
      · split
        · refine .inl ⟨⟨_, rfl⟩, hs.symm, ?_⟩
          simp [hb]
        · exact .inr ⟨rfl, hs, rfl, hb⟩

theorem startFunctionInternal_spec (c : ECtx) (fn : EntryFn) (e : StartEnv) :
    StartSpec c (c.startFunctionInternal K fn e) := by
  unfold startFunctionInternal
  split
  · exact .inl ⟨⟨_, rfl⟩, .refl c⟩
  · rename_i hs
    have hs : c.lifecycle.state = .ready := by simpa using hs
    set d := { c with lifecycle := { c.lifecycle with base := c.stack } } with hd
    have hspec : StartSpec d (match fn with
        | .host nparams nresults => d.startHost K nparams nresults e
        | .wasm nparams nresults slots locals => d.startWasm K nparams nresults slots locals e) := by
      cases fn with
      | host np nr => exact startHost_spec (c := d) hs rfl np nr e
      | wasm np nr sl lo => exact startWasm_spec (c := d) hs rfl np nr sl lo e
    rcases hspec with ⟨he, hi⟩ | ⟨ho, hb⟩
    · exact .inl ⟨he, hi.state, hi.stack⟩
    · exact .inr ⟨ho, hb.ready, hb.state, hb.base⟩

theorem startInternal_spec (c : ECtx) (idx : Nat) (e : StartEnv) : StartSpec c (c.startInternal K idx e) := by
  unfold startInternal
  split
  · exact .inl ⟨⟨_, rfl⟩, .refl c⟩
  · split
    · exact .inl ⟨⟨_, rfl⟩, .refl c⟩
    · exact startFunctionInternal_spec c _ e

/-- a run keeps what the activation remembers -/
theorem resumeInternal_spec (c : ECtx) (e : RunEnv) :
    (c.lifecycle.state ≠ .suspended ∧ c.resumeInternal K e = (c, .error .misuse)) ∨
      (c.lifecycle.state = .suspended ∧ (c.resumeInternal K e).1.lifecycle.state = stateAfter e.status ∧
        (c.resumeInternal K e).1.lifecycle.base = c.lifecycle.base ∧ (c.resumeInternal K e).2 = e.status) := by
  unfold resumeInternal
  split
  · rename_i h
    exact .inl ⟨h, rfl⟩
  · rename_i h
    exact .inr ⟨by simpa using h, rfl, rfl, rfl⟩

theorem stateAfter_ne_ready (s : Status) : stateAfter s ≠ .ready := by cases s <;> simp [stateAfter]

theorem stateAfter_ne_running (s : Status) : stateAfter s ≠ .running := by cases s <;> simp [stateAfter]

theorem cancelInternal_of_ne (h : c.lifecycle.state ≠ .ready) : c.cancelInternal = c.reset := by
  simp [cancelInternal, h]

/-- starting, running and leaving at once ends where it began -/
theorem started_spec {d : ECtx} (hb : Began c d) (run : RunEnv) (pin : Option ApiError) :
    Idle c (match d.resumeInternal K run with
      | (d, .ok) => d.finishInternal pin
      | (d, err) => (d.cancelInternal, err)).1 := by
  rcases resumeInternal_spec (K := K) d run with ⟨hn, -⟩ | ⟨-, hst, hbase, hstat⟩
  · exact absurd hb.state hn
  · generalize hr : d.resumeInternal K run = r at hst hbase hstat
    obtain ⟨d', st⟩ := r
    dsimp only at hst hbase hstat
    have hreset : Idle c d'.reset := ⟨hb.ready.symm, hbase.trans hb.base⟩
    cases st with
    | ok =>
      have hfin : d'.lifecycle.state = .finished := by rw [hst, ← hstat]; rfl
      simpa [finishInternal, hfin] using hreset
    | _ =>
      have hne : d'.lifecycle.state ≠ .ready := by rw [hst]; exact stateAfter_ne_ready _
      simpa [cancelInternal_of_ne hne] using hreset

theorem callModuleMulti_idle (c : ECtx) (idx : Nat) (e : CallEnv) : Idle c (c.callModuleMulti K idx e).1 := by
  have hs := startInternal_spec (K := K) c idx e.start
  unfold callModuleMulti
  generalize c.startInternal K idx e.start = r at hs
  obtain ⟨d, st⟩ := r
  rcases hs with ⟨⟨err, he⟩, hi⟩ | ⟨ho, hb⟩
  · dsimp only at he hi
    subst he
    exact hi
  · dsimp only at ho hb
    subst ho
    exact started_spec hb e.run e.pin

theorem callModule_idle (c : ECtx) (idx : Nat) (e : CallEnv) : Idle c (c.callModule K idx e).1 := by
  unfold callModule
  split
  · exact .refl c
  · split
    · exact .refl c
    · exact callModuleMulti_idle c idx e

theorem linkedStart_idle (c : ECtx) (fn : EntryFn) (e : CallEnv) : Idle c (c.linkedStart K fn e).1 := by
  have hs := startFunctionInternal_spec (K := K) c fn e.start
  unfold linkedStart
  generalize c.startFunctionInternal K fn e.start = r at hs
  obtain ⟨d, st⟩ := r
  rcases hs with ⟨⟨err, he⟩, hi⟩ | ⟨ho, hb⟩
  · dsimp only at he hi
    subst he
    exact hi
  · dsimp only at ho hb
    subst ho
    exact started_spec hb e.run none

theorem instSteps_idle (c : ECtx) (ss : List InstStep) : Idle c (c.instSteps K ss).1 := by
  induction ss generalizing c with
  | nil => exact .refl c
  | cons s ss ih =>
    cases s with
    | work r =>
      cases r with
      | none => exact ih c
      | some err => exact .refl c
    | linkedStart fn e =>
      have hl := linkedStart_idle (K := K) c fn e
      simp only [instSteps]
      generalize c.linkedStart K fn e = r at hl
      obtain ⟨d, st⟩ := r
      cases st with
      | ok => exact hl.trans (ih d)
      | _ => exact hl

theorem instantiate_idle (c : ECtx) (e : InstEnv) : Idle c (c.instantiate K e).1 := by
  unfold instantiate
  split
  · exact .refl c
  · split
    · exact .refl c
    · have hi := instSteps_idle (K := K) c e.steps
      generalize c.instSteps K e.steps = r at hi
      obtain ⟨d, st⟩ := r
      cases st with
      | ok =>
        dsimp only at hi ⊢
        cases d.startFunction with
        | none => exact ⟨hi.state, hi.stack⟩
        | some idx =>
          have hc := callModule_idle (K := K) d idx e.start
          dsimp only
          generalize d.callModule K idx e.start = r at hc
          obtain ⟨d', st⟩ := r
          have := hi.trans hc
          cases st <;> exact ⟨this.state, this.stack⟩
      | _ => exact ⟨hi.state, hi.stack⟩

theorem instantiateOnEntry_idle (c : ECtx) (e : InstEnv) : Idle c (c.instantiateOnEntry K e).1 := by
  unfold instantiateOnEntry
  split
  · exact .refl c
  · exact instantiate_idle c e

/-! ## Refused calls -/

/-- an error that changes nothing -/
def Refused (c : ECtx) (r : ECtx × Status) : Prop := ∃ e, r = (c, .error e)

theorem instantiateOnEntry_refused (h : c.lifecycle.state ≠ .ready) (e : InstEnv) :
    c.instantiateOnEntry K e = (c, .ok) ∨ c.instantiateOnEntry K e = (c, .error .misuse) := by
  unfold instantiateOnEntry
  split
  · exact .inl rfl
  · exact .inr (by simp [instantiate, h])

theorem startInternal_refused (h : c.lifecycle.state ≠ .ready) (idx : Nat) (e : StartEnv) :
    c.startInternal K idx e = (c, .error .misuse) := by
  simp [startInternal, h]

theorem start_refused (h : c.lifecycle.state ≠ .ready) (idx : Nat) (i : InstEnv) (e : StartEnv) :
    Refused c (c.start K idx i e) := by
  unfold start
  split
  · exact ⟨_, rfl⟩
  · rcases instantiateOnEntry_refused (K := K) h i with hi | hi
    · rw [hi]
      dsimp only
      split
      · exact ⟨_, rfl⟩
      · rw [startInternal_refused h]
        exact ⟨_, rfl⟩
    · rw [hi]
      exact ⟨_, rfl⟩

theorem callModuleMulti_refused (h : c.lifecycle.state ≠ .ready) (idx : Nat) (e : CallEnv) :
    Refused c (c.callModuleMulti K idx e) := by
  unfold callModuleMulti
  rw [startInternal_refused h]
  exact ⟨_, rfl⟩

theorem callModule_refused (h : c.lifecycle.state ≠ .ready) (idx : Nat) (e : CallEnv) :
    Refused c (c.callModule K idx e) := by
  unfold callModule
  split
  · exact ⟨_, rfl⟩
  · split
    · exact ⟨_, rfl⟩
    · exact callModuleMulti_refused h idx e

theorem callIdx_refused (h : c.lifecycle.state ≠ .ready) (multi : Bool) (idx : Nat) (i : InstEnv) (e : CallEnv) :
    Refused c (c.callIdx K multi idx i e) := by
  unfold callIdx
  split
  · exact ⟨_, rfl⟩
  · split
    · exact ⟨_, rfl⟩
    · rcases instantiateOnEntry_refused (K := K) h i with hi | hi
      · rw [hi]
        dsimp only
        split
        · exact callModuleMulti_refused h idx e
        · exact callModule_refused h idx e
      · rw [hi]
        exact ⟨_, rfl⟩

theorem call_refused (h : c.lifecycle.state ≠ .ready) (form : CallForm) (idx : Nat) (i : InstEnv) (e : CallEnv) :
    Refused c (c.call K form idx i e) := by
  unfold call
  split
  · exact callIdx_refused h _ _ i e
  · exact callIdx_refused h _ _ i e
  · exact callIdx_refused h _ _ i e
  · split
    · exact ⟨_, rfl⟩
    · exact ⟨_, rfl⟩
  · exact callIdx_refused h _ _ i e

theorem callIdx_idle (c : ECtx) (multi : Bool) (idx : Nat) (i : InstEnv) (e : CallEnv) :
    Idle c (c.callIdx K multi idx i e).1 := by
  unfold callIdx
  split
  · exact .refl c
  · split
    · exact .refl c
    · have hi := instantiateOnEntry_idle (K := K) c i
      generalize c.instantiateOnEntry K i = r at hi
      obtain ⟨d, st⟩ := r
      cases st with
      | ok =>
        dsimp only
        split
        · exact hi.trans (callModuleMulti_idle d idx e)
        · exact hi.trans (callModule_idle d idx e)
      | _ => exact hi

theorem call_idle (c : ECtx) (form : CallForm) (idx : Nat) (i : InstEnv) (e : CallEnv) :
    Idle c (c.call K form idx i e).1 := by
  unfold call
  split
  · exact callIdx_idle c _ _ i e
  · exact callIdx_idle c _ _ i e
  · exact callIdx_idle c _ _ i e
  · split <;> exact .refl c
  · exact callIdx_idle c _ _ i e

/-- a start goes through, or nothing has changed -/
theorem start_spec (c : ECtx) (idx : Nat) (i : InstEnv) (e : StartEnv) :
    (c.start K idx i e).2 ≠ .ok ∧ Idle c (c.start K idx i e).1 ∨
      (c.start K idx i e).2 = .ok ∧ Began c (c.start K idx i e).1 := by
  unfold start
  split
  · exact .inl ⟨by simp, .refl c⟩
  · have hi := instantiateOnEntry_idle (K := K) c i
    generalize c.instantiateOnEntry K i = r at hi
    obtain ⟨d, st⟩ := r
    dsimp only at hi
    cases st with
    | ok =>
      dsimp only
      split
      · exact .inl ⟨by simp, hi⟩
      · rcases startInternal_spec (K := K) d idx e with ⟨⟨err, he⟩, hd⟩ | ⟨ho, hb⟩
        · exact .inl ⟨by simp [he], hi.trans hd⟩
        · exact .inr ⟨ho, hi.state ▸ hb.ready, hb.state, hb.base.trans hi.stack⟩
    | _ => exact .inl ⟨by simp, hi⟩

theorem start_error (h : c.isInstantiated = true) (idx : Nat) (i : InstEnv) (e : StartEnv)
    (hne : (c.start K idx i e).2 ≠ .ok) : ∃ err, (c.start K idx i e).2 = .error err := by
  revert hne
  unfold start
  split
  · exact fun _ => ⟨_, rfl⟩
  · rw [instantiateOnEntry, if_pos h]
    dsimp only
    split
    · exact fun _ => ⟨_, rfl⟩
    · intro hne
      rcases startInternal_spec (K := K) c idx e with ⟨he, -⟩ | ⟨hok, -⟩
      · exact he
      · exact absurd hok hne

/-! ## Limits -/

/-- an error that changes nothing, or new limits, with a new stack only between activations -/
def LimitSpec (c : ECtx) (r : ECtx × Status) : Prop :=
  (∃ e, r.2 = .error e) ∧ r.1 = c ∨
    r.2 = .ok ∧ r.1.lifecycle = c.lifecycle ∧ (c.lifecycle.state ≠ .ready → r.1.stack = c.stack)

theorem commitLimits_spec (l : Limits) (timer : Option ApiError) (buf : Except ApiError Nat)
    (h : c.setsStack l = true → c.lifecycle.state = .ready) : LimitSpec c (c.commitLimits K l timer buf) := by
  unfold commitLimits
  generalize (if l.deadlineUs ≠ 0 ∧ l.deadlineUs ≠ uint64Max then timer else none) = t
  cases t with
  | some err => exact .inl ⟨⟨_, rfl⟩, rfl⟩
  | none =>
    dsimp only
    split
    · rename_i hs
      split
      · exact .inl ⟨⟨_, rfl⟩, rfl⟩
      · cases buf with
        | error err => exact .inl ⟨⟨_, rfl⟩, rfl⟩
        | ok buf => exact .inr ⟨rfl, rfl, fun hne => absurd (h hs) hne⟩
    · exact .inr ⟨rfl, rfl, fun _ => rfl⟩

theorem setLimits_spec (c : ECtx) (l : Limits) (timer : Option ApiError) (buf : Except ApiError Nat) :
    LimitSpec c (c.setLimits K l timer buf) ∧
      (c.lifecycle.state ≠ .ready → c.lifecycle.state ≠ .suspended → ∃ e, (c.setLimits K l timer buf).2 = .error e) := by
  unfold setLimits
  dsimp only
  split
  · exact ⟨.inl ⟨⟨_, rfl⟩, rfl⟩, fun _ _ => ⟨_, rfl⟩⟩
  split
  · exact ⟨.inl ⟨⟨_, rfl⟩, rfl⟩, fun _ _ => ⟨_, rfl⟩⟩
  rename_i hst
  split
  · exact ⟨.inl ⟨⟨_, rfl⟩, rfl⟩, fun _ _ => ⟨_, rfl⟩⟩
  rename_i hstack
  split
  · exact ⟨.inl ⟨⟨_, rfl⟩, rfl⟩, fun _ _ => ⟨_, rfl⟩⟩
  split
  · exact ⟨.inl ⟨⟨_, rfl⟩, rfl⟩, fun _ _ => ⟨_, rfl⟩⟩
  split
  · exact ⟨.inl ⟨⟨_, rfl⟩, rfl⟩, fun _ _ => ⟨_, rfl⟩⟩
  refine ⟨commitLimits_spec l timer buf fun hs => ?_, fun h1 h2 => absurd ⟨h1, h2⟩ hst⟩
  by_contra hne
  exact hstack ⟨hs, fun h => hne h.1⟩

end ECtx

/-! ## Sequences of operations -/

/-- an operation on the context, with the answers it gets from outside -/
inductive LifeOp where
  | start (idx : Nat) (inst : InstEnv) (env : StartEnv)
  | resume (env : RunEnv)
  | finish (pin : Option ApiError)
  | cancel
  | call (form : ECtx.CallForm) (idx : Nat) (inst : InstEnv) (env : CallEnv)
  | setLimits (limits : Limits) (timer : Option ApiError) (buf : Except ApiError Nat)

namespace LifeOp

/-- the operation and what it returns; `wah_cancel` returns nothing -/
def exec (K : Sizes) (c : ECtx) : LifeOp → ECtx × Status
  | .start idx i e => c.start K idx i e
  | .resume e => c.resume K e
  | .finish pin => c.finish pin
  | .cancel => (c.cancel, .ok)
  | .call form idx i e => c.call K form idx i e
  | .setLimits l t b => c.setLimits K l t b

def run (K : Sizes) (c : ECtx) (ops : List LifeOp) : ECtx := ops.foldl (fun c op => (op.exec K c).1) c

/-- calls that the state permits -/
def allowed (s : ExecState) : LifeOp → Bool
  | .start _ _ _ | .call _ _ _ _ => decide (s = .ready)
  | .resume _ => decide (s = .suspended)
  | .finish _ => decide (s = .finished)
  | .cancel => true
  | .setLimits _ _ _ => decide (s = .ready) || decide (s = .suspended)

/-- the arrows of the state diagram, RUNNING aside, with what the operation returns there. The state stays as it is only
for a call that is refused, a start that fails, a call that starts and finishes at once, and new limits. -/
inductive Follows : (poisoned : Bool) → LifeOp → Status → ExecState → ExecState → Prop where
  | start {idx : Nat} {i : InstEnv} {e : StartEnv} : Follows false (.start idx i e) .ok .ready .suspended
  | startFailed {idx : Nat} {i : InstEnv} {e : StartEnv} {st : Status} :
      st ≠ .ok → Follows false (.start idx i e) st .ready .ready
  | resume {e : RunEnv} : Follows false (.resume e) e.status .suspended (ECtx.stateAfter e.status)
  | finish : Follows false (.finish none) .ok .finished .ready
  | finishUnpinned {e : ApiError} : Follows false (.finish (some e)) (.error e) .finished .ready
  | cancel (s : ExecState) : Follows false .cancel .ok s .ready
  | call {form : ECtx.CallForm} {idx : Nat} {i : InstEnv} {e : CallEnv} {st : Status} :
      Follows false (.call form idx i e) st .ready .ready
  | setLimits {l : Limits} {t : Option ApiError} {b : Except ApiError Nat} {st : Status} {s : ExecState} :
      s = .ready ∨ s = .suspended → Follows false (.setLimits l t b) st s s
  | refused {op : LifeOp} {e : ApiError} {s : ExecState} : op.allowed s = false → Follows false op (.error e) s s
  | poisoned {op : LifeOp} {e : ApiError} {s : ExecState} : Follows true op (.error e) s s
  | poisonedCancel {s : ExecState} : Follows true .cancel .ok s s

def isStart : LifeOp → Bool
  | .start _ _ _ => true
  | _ => false

def isSetLimits : LifeOp → Bool
  | .setLimits _ _ _ => true
  | _ => false

/-! ## The invariant -/

variable {K : Sizes} {c : ECtx}

/-- positions that hold between activations, and are remembered during one -/
def home (c : ECtx) : StackPos := if c.lifecycle.state = .ready then c.stack else c.lifecycle.base

theorem home_ready (h : c.lifecycle.state = .ready) : home c = c.stack := by simp [home, h]

/-- between activations the home moves only with the stack -/
theorem home_of_idle {c' : ECtx} (hr : c.lifecycle.state = .ready) (h : ECtx.Idle c c') : home c' = home c := by
  rw [home_ready hr, home_ready (h.state.trans hr), h.stack]

/-- **One operation.** The home stays, unless `wah_set_limits` replaces the stack of a READY context. -/
theorem home_exec (c : ECtx) (op : LifeOp) (h : c.lifecycle.state = .ready → op.isSetLimits = false) :
    home (op.exec K c).1 = home c := by
  cases op with
  | start idx i e =>
    by_cases hr : c.lifecycle.state = .ready
    · rcases ECtx.start_spec (K := K) c idx i e with ⟨-, hi⟩ | ⟨-, hb⟩
      · exact home_of_idle hr hi
      · rw [home_ready hr]
        simp [home, exec, hb.state, hb.base]
    · obtain ⟨err, he⟩ := ECtx.start_refused (K := K) hr idx i e
      simp [exec, he]
  | resume e =>
    simp only [exec, ECtx.resume]
    split
    · rfl
    · rcases ECtx.resumeInternal_spec (K := K) c e with ⟨-, he⟩ | ⟨hs, hst, hb, -⟩
      · rw [he]
      · simp [home, hst, hb, hs, ECtx.stateAfter_ne_ready]
  | finish pin =>
    simp only [exec, ECtx.finish, ECtx.finishInternal]
    split
    · rfl
    · split
      · rfl
      · rename_i hf
        have hf : c.lifecycle.state = .finished := by simpa using hf
        simp [home, ECtx.reset, hf]
  | cancel =>
    simp only [exec, ECtx.cancel, ECtx.cancelInternal]
    split
    · rfl
    · split
      · rfl
      · rename_i hne
        simp [home, ECtx.reset, hne]
  | call form idx i e =>
    by_cases hr : c.lifecycle.state = .ready
    · exact home_of_idle hr (ECtx.call_idle c form idx i e)
    · obtain ⟨err, he⟩ := ECtx.call_refused (K := K) hr form idx i e
      simp [exec, he]
  | setLimits l t b =>
    have hr : c.lifecycle.state ≠ .ready := fun hr => by simpa [isSetLimits] using h hr
    rcases (ECtx.setLimits_spec (K := K) c l t b).1 with ⟨-, he⟩ | ⟨-, hl, hst⟩
    · simp [exec, he]
    · simp [home, exec, hl, hst hr]

/-- a call that the state does not permit returns an error and the same context -/
theorem exec_refused (c : ECtx) (op : LifeOp) (h : op.allowed c.lifecycle.state = false) :
    ECtx.Refused c (op.exec K c) := by
  cases op with
  | start idx i e => exact ECtx.start_refused (by simpa [allowed] using h) idx i e
  | resume e =>
    have hs : c.lifecycle.state ≠ .suspended := by simpa [allowed] using h
    simp only [exec, ECtx.resume, ECtx.resumeInternal, if_pos hs]
    split <;> exact ⟨_, rfl⟩
  | finish pin =>
    have hs : c.lifecycle.state ≠ .finished := by simpa [allowed] using h
    simp only [exec, ECtx.finish, ECtx.finishInternal, if_pos hs]
    split <;> exact ⟨_, rfl⟩
  | cancel => simp [allowed] at h
  | call form idx i e => exact ECtx.call_refused (by simpa [allowed] using h) form idx i e
  | setLimits l t b =>
    obtain ⟨hspec, herr⟩ := ECtx.setLimits_spec (K := K) c l t b
    simp only [allowed, Bool.or_eq_false_iff, decide_eq_false_iff_not] at h
    obtain ⟨e, he⟩ := herr h.1 h.2
    rcases hspec with ⟨-, hc⟩ | ⟨ho, -⟩
    · exact ⟨e, Prod.ext hc he⟩
    · simp [ho] at he

theorem exec_poisoned (c : ECtx) (op : LifeOp) (h : c.poisoned = true) :
    ECtx.Refused c (op.exec K c) ∨ op = .cancel ∧ op.exec K c = (c, .ok) := by
  cases op with
  | start | resume | finish | setLimits => exact .inl ⟨.misuse, if_pos h⟩
  | cancel => exact .inr ⟨rfl, by simp [exec, ECtx.cancel, h]⟩
  | call form idx i e =>
    refine .inl ⟨.misuse, ?_⟩
    cases form with
    | callByName idx =>
      cases idx with
      | none => exact if_pos h
      | some idx => exact if_pos h
    | _ => exact if_pos h

/-- an operation that is allowed moves the state along its arrow -/
theorem follows_allowed (c : ECtx) (op : LifeOp) (hp : c.poisoned = false) (hrun : c.lifecycle.state ≠ .running)
    (h : op.allowed c.lifecycle.state = true) :
    Follows false op (op.exec K c).2 c.lifecycle.state (op.exec K c).1.lifecycle.state := by
  cases op with
  | start idx i e =>
    have hr : c.lifecycle.state = .ready := by simpa [allowed] using h
    rcases ECtx.start_spec (K := K) c idx i e with ⟨hne, hi⟩ | ⟨hok, hb⟩
    · simp only [exec, hi.state, hr]
      exact .startFailed hne
    · simp only [exec, hok, hb.state, hr]
      exact .start
  | resume e =>
    have hs : c.lifecycle.state = .suspended := by simpa [allowed] using h
    rcases ECtx.resumeInternal_spec (K := K) c e with ⟨hn, -⟩ | ⟨-, hst, -, hstatus⟩
    · exact absurd hs hn
    · simp only [exec, ECtx.resume, hp, Bool.false_eq_true, if_false, hst, hstatus, hs]
      exact .resume
  | finish pin =>
    have hf : c.lifecycle.state = .finished := by simpa [allowed] using h
    simp only [exec, ECtx.finish, hp, Bool.false_eq_true, if_false, ECtx.finishInternal, hf, ne_eq, not_true_eq_false]
    cases pin with
    | none => exact .finish
    | some err => exact .finishUnpinned
  | cancel =>
    have hcancel : c.cancel.lifecycle.state = .ready := by
      by_cases hr : c.lifecycle.state = .ready
      · simp [ECtx.cancel, ECtx.cancelInternal, hp, hr]
      · simp [ECtx.cancel, ECtx.cancelInternal, hp, hr, hrun, ECtx.reset]
    simp only [exec, hcancel]
    exact .cancel _
  | call form idx i e =>
    have hr : c.lifecycle.state = .ready := by simpa [allowed] using h
    simp only [exec, (ECtx.call_idle c form idx i e).state, hr]
    exact .call
  | setLimits l t b =>
    have hs : c.lifecycle.state = .ready ∨ c.lifecycle.state = .suspended := by simpa [allowed] using h
    rcases (ECtx.setLimits_spec (K := K) c l t b).1 with ⟨-, he⟩ | ⟨-, hl, -⟩
    · simp only [exec, he]
      exact .setLimits hs
    · simp only [exec, hl]
      exact .setLimits hs

/-- the state moves along the diagram -/
theorem follows_exec (c : ECtx) (op : LifeOp) (hrun : c.lifecycle.state ≠ .running) :
    Follows c.poisoned op (op.exec K c).2 c.lifecycle.state (op.exec K c).1.lifecycle.state := by
  cases hp : c.poisoned with
  | true =>
    rcases exec_poisoned (K := K) c op hp with ⟨e, he⟩ | ⟨rfl, he⟩
    · rw [he]
      exact .poisoned
    · rw [he]
      exact .poisonedCancel
  | false =>
    cases h : op.allowed c.lifecycle.state with
    | true => exact follows_allowed c op hp hrun h
    | false =>
      obtain ⟨e, he⟩ := exec_refused (K := K) c op h
      rw [he]
      exact .refused h

/-- a start that is not accepted leaves state and stacks alone; what the start functions of an instantiation on entry
return need not be an error -/
theorem start_rejected (c : ECtx) (op : LifeOp) (h : op.isStart = true) (hr : (op.exec K c).2 ≠ .ok) :
    ECtx.Idle c (op.exec K c).1 ∧ (c.isInstantiated = true → (op.exec K c).2.isError = true) := by
  cases op with
  | start idx i e =>
    rcases ECtx.start_spec (K := K) c idx i e with ⟨-, hi⟩ | ⟨ho, -⟩
    · refine ⟨hi, fun hinst => ?_⟩
      obtain ⟨err, he⟩ := ECtx.start_error (K := K) hinst idx i e hr
      simp only [exec, he, Status.isError]
    · exact absurd ho hr
  | _ => simp [isStart] at h

theorem setLimits_rejected (c : ECtx) (op : LifeOp) (h : op.isSetLimits = true) (hr : (op.exec K c).2 ≠ .ok) :
    (op.exec K c).1 = c := by
  cases op with
  | setLimits l t b =>
    rcases (ECtx.setLimits_spec (K := K) c l t b).1 with ⟨-, he⟩ | ⟨ho, -⟩
    · exact he
    · exact absurd ho hr
  | _ => simp [isSetLimits] at h

/-- READY again for the first time: the operations of one activation -/
structure Activation (K : Sizes) (c : ECtx) (ops : List LifeOp) : Prop where
  ready : c.lifecycle.state = .ready
  /-- the first operation is not `wah_set_limits`, which may replace the stack of a READY context -/
  first : ∀ op ∈ ops.head?, op.isSetLimits = false
  busy : ∀ i, 0 < i → i < ops.length → (run K c (ops.take i)).lifecycle.state ≠ .ready
  back : (run K c ops).lifecycle.state = .ready

theorem home_run {ops : List LifeOp} (hfirst : c.lifecycle.state = .ready → ∀ op ∈ ops.head?, op.isSetLimits = false)
    (hbusy : ∀ i, 0 < i → i < ops.length → (run K c (ops.take i)).lifecycle.state ≠ .ready) :
    home (run K c ops) = home c := by
  induction ops generalizing c with
  | nil => rfl
  | cons op ops ih =>
    have h1 : home (op.exec K c).1 = home c := home_exec c op fun hr => hfirst hr op (by simp)
    rw [← h1]
    refine ih (fun hr => ?_) fun i hi hl => ?_
    · intro op' hop'
      have hlen : 0 < ops.length := by
        cases ops with
        | nil => simp at hop'
        | cons _ _ => simp
      exact absurd hr (hbusy 1 (by omega) (by simpa using hlen))
    · exact hbusy (i + 1) (by omega) (by simpa using hl)

/-- **Activations do not leak stack.** -/
theorem Activation.stack {ops : List LifeOp} (h : Activation K c ops) : (run K c ops).stack = c.stack := by
  have := home_run (fun _ => h.first) h.busy
  rwa [home_ready h.back, home_ready h.ready] at this

theorem run_append (c : ECtx) (xs ys : List LifeOp) : run K c (xs ++ ys) = run K (run K c xs) ys := by
  simp [run]

theorem Follows.not_running {poisoned : Bool} {op : LifeOp} {st : Status} {s s' : ExecState}
    (h : Follows poisoned op st s s') (hs : s ≠ .running) : s' ≠ .running := by
  cases h with
  | resume => exact ECtx.stateAfter_ne_running _
  | setLimits | refused | poisoned | poisonedCancel => exact hs
  | _ => decide

/-- RUNNING is never seen between operations -/
theorem run_not_running (ops : List LifeOp) (h : c.lifecycle.state ≠ .running) :
    (run K c ops).lifecycle.state ≠ .running := by
  induction ops generalizing c with
  | nil => exact h
  | cons op ops ih => exact ih ((follows_exec c op h).not_running h)

/-- **Activation lifecycle.** After any operations on a context that starts out READY, the next one moves the state
along the arrow of the diagram that belongs to it and to what it returns; refused calls and rejected starts change
neither state nor stacks; a failing `wah_set_limits` changes nothing; and every activation ends with the stacks it
started with. -/
theorem activation_lifecycle (K : Sizes) (c₀ : ECtx) (h₀ : c₀.lifecycle.state = .ready) (before : List LifeOp) :
    (run K c₀ before).lifecycle.state ≠ .running ∧
    (∀ op : LifeOp, Follows (run K c₀ before).poisoned op (op.exec K (run K c₀ before)).2
      (run K c₀ before).lifecycle.state (run K c₀ (before ++ [op])).lifecycle.state) ∧
    (∀ op : LifeOp, op.allowed (run K c₀ before).lifecycle.state = false →
      (op.exec K (run K c₀ before)).2.isError = true ∧
      (run K c₀ (before ++ [op])).lifecycle.state = (run K c₀ before).lifecycle.state ∧
      (run K c₀ (before ++ [op])).stack = (run K c₀ before).stack) ∧
    (∀ op : LifeOp, op.isStart = true → (op.exec K (run K c₀ before)).2 ≠ .ok →
      ((run K c₀ before).isInstantiated = true → (op.exec K (run K c₀ before)).2.isError = true) ∧
      (run K c₀ (before ++ [op])).lifecycle.state = (run K c₀ before).lifecycle.state ∧
      (run K c₀ (before ++ [op])).stack = (run K c₀ before).stack) ∧
    (∀ op : LifeOp, op.isSetLimits = true → (op.exec K (run K c₀ before)).2 ≠ .ok →
      (run K c₀ (before ++ [op])).limits = (run K c₀ before).limits ∧
      (run K c₀ (before ++ [op])).stack = (run K c₀ before).stack) ∧
    (∀ ops : List LifeOp, Activation K (run K c₀ before) ops →
      (run K c₀ (before ++ ops)).stack = (run K c₀ before).stack) := by
  have hrun : ∀ op : LifeOp, run K c₀ (before ++ [op]) = (op.exec K (run K c₀ before)).1 := fun op => by
    rw [run_append]
    rfl
  have hbusy := run_not_running (K := K) before (c := c₀) (by simp [h₀])
  refine ⟨hbusy, fun op => ?_, fun op h => ?_, fun op h hr => ?_, fun op h hr => ?_, fun ops h => ?_⟩
  · rw [hrun]
    exact follows_exec _ op hbusy
  · obtain ⟨e, he⟩ := exec_refused (K := K) _ op h
    rw [hrun, he]
    exact ⟨rfl, rfl, rfl⟩
  · rw [hrun]
    obtain ⟨hi, herror⟩ := start_rejected _ op h hr
    exact ⟨herror, hi.state, hi.stack⟩
  · rw [hrun, setLimits_rejected _ op h hr]
    exact ⟨rfl, rfl⟩
  · rw [run_append]
    exact h.stack

/-- a context with one function, ready to run -/
def sampleCtx : ECtx :=
  { functionTable := [.wasm 1 1 4 2], limits := ⟨uint64Max, 0, 0, 1000, 4096⟩, stack := ⟨1000, 0, 5096, 0⟩ }

/-- nothing is left to instantiate -/
def sampleInst : InstEnv := ⟨true, [], ⟨⟨0, none, none⟩, ⟨.ok, ⟨0, 0, 0, 0⟩, 0, 0⟩, none⟩⟩

/-- an activation that yields once and finishes -/
def finishedOps : List LifeOp :=
  [.start 0 sampleInst ⟨1, none, none⟩, .resume ⟨.yielded, ⟨1064, 1, 5000, 0⟩, 0, 0⟩, .setLimits {} none (.ok 0),
    .resume ⟨.ok, ⟨1016, 0, 5096, 0⟩, 0, 0⟩, .finish none]

/-- an activation that traps two frames deep, with a handler, and is cancelled -/
def cancelledOps : List LifeOp :=
  [.start 0 sampleInst ⟨1, none, none⟩, .resume ⟨.error .trap, ⟨1128, 2, 4904, 1⟩, 0, 0⟩, .cancel]

def sampleSizes : Sizes := ⟨16, 96, 8⟩

/-- after the first activation, the second one traps; its cancelling leads from TRAPPED to READY and to the stacks from
before -/
theorem activation_lifecycle_sample :
    Activation sampleSizes (run sampleSizes sampleCtx finishedOps) cancelledOps ∧
    (run sampleSizes sampleCtx (finishedOps ++ cancelledOps.take 2)).lifecycle.state = .trapped ∧
    (run sampleSizes sampleCtx (finishedOps ++ cancelledOps.take 2)).stack = ⟨1128, 2, 4904, 1⟩ ∧
    Follows false .cancel .ok .trapped
      (run sampleSizes sampleCtx (finishedOps ++ cancelledOps.take 2 ++ [.cancel])).lifecycle.state ∧
    (run sampleSizes sampleCtx (finishedOps ++ cancelledOps)).lifecycle.state = .ready ∧
    (run sampleSizes sampleCtx (finishedOps ++ cancelledOps)).stack = sampleCtx.stack := by
  have ha : Activation sampleSizes (run sampleSizes sampleCtx finishedOps) cancelledOps := by
    refine ⟨by decide, by decide, fun i h0 hi => ?_, by decide⟩
    have hi3 : i < 3 := hi
    interval_cases i <;> decide
  have hfirst : (run sampleSizes sampleCtx finishedOps).stack = sampleCtx.stack := by decide
  have hcancel := (activation_lifecycle sampleSizes sampleCtx rfl (finishedOps ++ cancelledOps.take 2)).2.1 .cancel
  refine ⟨ha, by decide, by decide, hcancel, by decide, ?_⟩
  rw [← hfirst]
  exact (activation_lifecycle sampleSizes sampleCtx rfl finishedOps).2.2.2.2.2 cancelledOps ha

end LifeOp

end Wah
