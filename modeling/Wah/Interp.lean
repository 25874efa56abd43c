/-
The interpreter over lowered code, with fuel, interrupts and suspension.

`iStep` is one instruction of `wah_run_interpreter` at a byte offset. POLLs look at `interrupt_flag`; METERs pay for a
whole chunk, or go to its slow copy, where TICKs pay for each instruction and suspend once there is no fuel left; bulk
operations may stop halfway, with the operands of the rest on the stack. `iMove` is the interpreter under a host that
resumes it whenever it suspends, with more fuel or not (`wah_set_fuel`, `wah_resume`).

What the interpreter meets is its input: the interrupt flag whenever it looks at it, and the fuel on resumption. What
bulk operations do by chunks, and what data instructions cost, are parameters (`Costs`). Left out are the collections of
POLLs, with the allocations whose success depends on them, host functions that call `wah_set_fuel` while they run, and
bulk operations on segments of expressions, whose items may fail when others have been written.
-/
import Wah.BulkOps
import Wah.RecordRuns

namespace Wah

open Observed Resumable

/-- `WAH_STATUS_YIELDED` and `WAH_STATUS_FUEL_EXHAUSTED` -/
inductive Suspension where
  | yielded | fuelExhausted
deriving DecidableEq, Repr

/-- what the outside does while an instruction runs -/
structure Signal where
  /-- `interrupt_flag` when the instruction starts -/
  interrupt : Bool
  /-- `interrupt_flag` after every `WAH_BULK_CHECK_INTERVAL` items of a bulk operation -/
  later : Nat → Bool
  /-- `wah_set_fuel` before the context is resumed, if it suspends -/
  refill : Option Nat

section Interp

variable {ι Val Store Exn : Type} {P : ι → Func}

/-- a data instruction done at once -/
def Sem.whole (S : Sem ι Val Store Exn P) (f : ι) (d : DataOp) (x : List Val × Store) : Except Unit (List Val × Store) :=
  match S.data f d x.1 x.2 with
  | none => .error ()
  | some r => .ok r

/-- the costs of data instructions, and the visits of bulk operations -/
structure Costs (S : Sem ι Val Store Exn P) where
  /-- `wah_bulk_fuel_charge` of instructions that cannot be resumed -/
  charge : ι → DataOp → List Val → Store → Nat
  bulk : ι → DataOp → Ration → List Val × Store → Visited (List Val × Store) (List Val × Store) Unit
  /-- items still to be handled -/
  left : ι → DataOp → List Val × Store → Nat
  bulk_lawful : ∀ f d, Lawful (S.whole f d) (bulk f d)
  bulk_arity : ∀ f d b x x' n, bulk f d b x = .part x' n → x'.1.length = x.1.length
  /-- some items are handled, unless the fuel was overdrawn before -/
  bulk_left : ∀ f d b x x' n, bulk f d b x = .part x' n →
    left f d x' ≤ left f d x ∧ (Ration.Solvent b.fuel → left f d x' < left f d x)

abbrev ICore (ι Val Store : Type) := Core ι Val Store Nat Nat

/-- the parts of `wah_exec_context_t` the interpreter works on -/
structure ICtx (ι Val Store : Type) where
  core : ICore ι Val Store
  fuel : Int
  /-- `poll_idx` of every frame, innermost first -/
  pollIdx : List Nat
  /-- the operands and the store a suspended bulk operation began with; no step depends on it -/
  began : Option (List Val × Store) := none

/-- what an instruction comes to -/
inductive IRes (ι Val Store : Type) where
  | run (x : ICtx ι Val Store)
  | suspended (why : Suspension) (x : ICtx ι Val Store)
  | finished (vals : List Val) (store : Store)
  | failed (e : Fault) (store : Store)
  | stuck

/-- positions are byte offsets -/
def iNav : Nav ι Nat Nat where
  goto := fun _ t _ => t
  entry := fun _ => 0

/-- `wah_bulk_fuel_charge` and `wah_locals_fuel_charge`: nothing is charged without metering -/
def chargeFuel (m : Bool) (fuel : Int) (n : Nat) : Int := if m then fuel - n else fuel

def localsCharge (zeroed : Nat) : Nat := valueSize * zeroed / itemsPerFuel

/-- the status of `WAH_BULK_YIELD` -/
def bulkSuspension (m : Bool) (fuel : Int) : Suspension := if m && decide (fuel < 0) then .fuelExhausted else .yielded

namespace ICtx

variable (x : ICtx ι Val Store)

/-- goes on with another innermost frame -/
def at_ (fr : Frame ι Val Nat) (rest : List (Frame ι Val Nat)) : ICtx ι Val Store :=
  { x with core := { x.core with frames := fr :: rest } }

/-- `frame->poll_idx` of the innermost frame -/
def setPollIdx (map : Nat) : ICtx ι Val Store := { x with pollIdx := map :: x.pollIdx.tail }

end ICtx

/-- `poll_idx` when there are `n` frames: new frames start with zero, also the one of a tail call -/
def pollIdxAfter {τ : Type} (i : LInstr τ) (pollIdx : List Nat) (n : Nat) : List Nat :=
  if pollIdx.length < n then 0 :: pollIdx
  else
    match i with
    | .op (.returnCall _) _ => if pollIdx.length = n then 0 :: pollIdx.tail else pollIdx.drop (pollIdx.length - n)
    | _ => pollIdx.drop (pollIdx.length - n)

section Step

variable {S : Sem ι Val Store Exn P} (K : Costs S) (m : Bool) (code : ι → List (LInstr Nat)) (sig : Signal)
  (x : ICtx ι Val Store)

/-- the context after an instruction that leaves the frames as `r` says -/
def ICtx.after (i : LInstr Nat) (charge : Nat) : Res ι Val Store Nat Nat → IRes ι Val Store
  | .run c zeroed =>
    .run ⟨c, chargeFuel m x.fuel (charge + localsCharge zeroed), pollIdxAfter i x.pollIdx c.frames.length, none⟩
  | .finished vs st => .finished vs st
  | .failed e st => .failed e st
  | .stuck => .stuck

/-- a resumable bulk operation: it starts over at itself when resumed, with the operands of the rest -/
def bulkStep (fr past : Frame ι Val Nat) (rest : List (Frame ι Val Nat)) (d : DataOp) (map : Option Nat) :
    IRes ι Val Store :=
  let n := (d.arity (P fr.fid).module).1
  let y := x.setPollIdx (map.getD uint32Max)
  if sig.interrupt then .suspended (bulkSuspension m x.fuel) y
  else
    match K.bulk fr.fid d ⟨if m then some x.fuel else none, sig.later⟩ (fr.opnds.take n, x.core.store) with
    | .fail _ x => .failed .trap x.2
    | .done (vs, st) charge =>
      .run ⟨⟨{ past with opnds := vs ++ fr.opnds.drop n } :: rest, x.core.handlers, st⟩,
        chargeFuel m x.fuel charge, x.pollIdx, none⟩
    | .part (args, st) charge =>
      let fuel := chargeFuel m x.fuel charge
      .suspended (bulkSuspension m fuel)
        ⟨⟨{ fr with opnds := args ++ fr.opnds.drop n } :: rest, x.core.handlers, st⟩, fuel, y.pollIdx,
          some (x.began.getD (fr.opnds, x.core.store))⟩

/-- one instruction of `wah_run_interpreter` -/
def iStep : IRes ι Val Store :=
  match x.core.frames with
  | [] => .stuck
  | fr :: rest =>
    match fetch (code fr.fid) fr.pc with
    | none => .stuck
    | some i =>
      let past := { fr with pc := fr.pc + i.size }
      match i with
      | .poll map =>
        let y := (x.at_ past rest).setPollIdx map
        if sig.interrupt then .suspended .yielded y else .run y
      | .meter cost slow =>
        if x.fuel - cost < 0 then .run (x.at_ { fr with pc := slow } rest)
        else .run { x.at_ past rest with fuel := x.fuel - cost }
      | .tick map =>
        if x.fuel - 1 < 0 then .suspended .fuelExhausted ({ x with fuel := x.fuel - 1 }.setPollIdx map)
        -- the unit is charged again when the TICK is retried
        else if sig.interrupt then .suspended .yielded (x.setPollIdx map)
        else .run { x.at_ past rest with fuel := x.fuel - 1 }
      | .op (.data d) map =>
        if d.isResumableBulk then bulkStep K m sig x fr past rest d map
        else
          x.after m i (K.charge fr.fid d (fr.opnds.take (d.arity (P fr.fid).module).1) x.core.store)
            (execInstr S iNav x.core past rest i)
      | i => x.after m i 0 (execInstr S iNav x.core past rest i)

/-- what the next instruction visits; a bulk operation that was suspended is the one that began -/
def iVisit : Option (Seen ι Val Store) :=
  match x.core.frames with
  | [] => none
  | fr :: _ =>
    ((fetch (code fr.fid) fr.pc).bind LInstr.visit).map fun v =>
      let start := x.began.getD (fr.opnds, x.core.store)
      ⟨fr.fid, v, fr.locals, start.1, start.2⟩

/-- an instruction as a step that shows what it visited, and `wah_resume` if it suspends the context -/
def IRes.move (refill : Option Nat) (shown : Option (Seen ι Val Store)) :
    IRes ι Val Store → Move (ICtx ι Val Store) (Seen ι Val Store) (Ending Val Store)
  | .run y => .go shown y
  | .suspended _ y => .go none { y with fuel := (refill.map Int.ofNat).getD y.fuel }
  | .finished vs st => .stop shown (.finished vs st)
  | .failed e st => .stop shown (.failed e st)
  | .stuck => .stop shown .stuck

/-- a step of the interpreter under a host that resumes it -/
def iMove : Move (ICtx ι Val Store) (Seen ι Val Store) (Ending Val Store) :=
  (iStep K m code sig x).move sig.refill (iVisit code x)

end Step

end Interp

end Wah
