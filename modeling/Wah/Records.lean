/-
The records a lowering pass emits, with names instead of offsets.

`planInstr` follows `lowerInstr` but keeps one `Record` per decoded instruction (and one per TRIM_HANDLERS at an END),
names jump targets by the construct they belong to, and attaches a METER to the record that starts a chunk instead
of emitting and retracting it. `Plan.ends` says which record each name stands for. Blocks, ENDs and loops have records
without bytes.
-/
import Wah.Lower

namespace Wah

/-- positions of the code by name: a record, what follows the END of a construct, the false edge of an `if`, or the
function's END; constructs are named by the instruction that opened them -/
inductive Target where
  | record (r : Nat)
  | endOf (id : Nat)
  | falseOf (id : Nat)
  | func
deriving DecidableEq, Repr

/-- an instruction record: what stands before it in the fast code, and its own bytes -/
structure Record where
  /-- a POLL outside of the record -/
  pre : Option Nat := none
  /-- a METER stands before the record -/
  meter : Bool := false
  /-- a POLL inside the record -/
  poll : Option Nat := none
  main : Option (LInstr Target) := none
  refMap : Nat := uint32Max
deriving DecidableEq, Repr

namespace LInstr

variable {τ υ : Type}

/-- renames the targets -/
def map (f : τ → υ) : LInstr τ → LInstr υ
  | .poll m => .poll m
  | .meter c s => .meter c s
  | .tick m => .tick m
  | .op i m => .op i m
  | .if_ t => .if_ (f t)
  | .else_ t => .else_ (f t)
  | .br t k d => .br (f t) k d
  | .brIf t k d => .brIf (f t) k d
  | .brOnNull t k d => .brOnNull (f t) k d
  | .brOnNonNull t k d => .brOnNonNull (f t) k d
  | .brOnCast fl dn dst t k d => .brOnCast fl dn dst (f t) k d
  | .brTable k ts rs => .brTable k ts (rs.map fun r => (f r.1, r.2))
  | .tryTable cs => .tryTable (cs.map fun c => ⟨c.kind, c.tag, f c.target, c.drop⟩)
  | .endTryTable => .endTryTable
  | .trimHandlers d => .trimHandlers d
  | .end_ => .end_

/-- the targets in order -/
def targets : LInstr τ → List τ
  | .if_ t | .else_ t | .br t _ _ | .brIf t _ _ | .brOnNull t _ _ | .brOnNonNull t _ _ | .brOnCast _ _ _ t _ _ => [t]
  | .brTable _ _ rs => rs.map Prod.fst
  | .tryTable cs => cs.map LCatch.target
  | _ => []

/-- forgets the operands of METERs -/
def strip : LInstr τ → LInstr τ
  | .meter _ _ => .meter 0 0
  | i => i

@[simp] theorem size_map (f : τ → υ) (i : LInstr τ) : (i.map f).size = i.size := by
  cases i <;> simp [map, size]

@[simp] theorem size_strip (i : LInstr τ) : i.strip.size = i.size := by cases i <;> rfl

@[simp] theorem size_setTarget (k : Nat) (t : τ) (i : LInstr τ) : (i.setTarget k t).size = i.size := by
  cases i <;> simp [setTarget, size]

theorem strip_setTarget (k : Nat) (t : τ) (i : LInstr τ) : (i.setTarget k t).strip = i.strip.setTarget k t := by
  cases i <;> rfl

@[simp] theorem targets_map (f : τ → υ) (i : LInstr τ) : (i.map f).targets = i.targets.map f := by
  cases i <;> simp [map, targets, Function.comp_def]

theorem size_pos (i : LInstr τ) : 0 < i.size := by
  cases i <;> simp only [size] <;> try omega
  rename_i i m
  have : 0 < i.size := by
    rcases i with d | _ | _ | _ | _ | _ | _ | _ | _ | _ | _ | _ | _ | _ | _ | _ | _ | _ | _ | _ | _ | c | c | _ | _ <;>
      simp only [Instr.size] <;> try omega
    · cases d <;> simp only [DataOp.size] <;> try omega
      rename_i p
      cases p <;> simp only [PlainOp.size] <;> first | omega | (split <;> omega)
    · cases c <;> simp
    · cases c <;> simp
  omega

end LInstr

namespace Record

/-- what stands before the record in the fast code -/
def head (r : Record) : List (LInstr Target) :=
  (r.pre.map LInstr.poll).toList ++ (if r.meter then [.meter 0 0] else [])

/-- the record's own bytes -/
def content (r : Record) : List (LInstr Target) := (r.poll.map LInstr.poll).toList ++ r.main.toList

/-- everything the fast code has for the record -/
def code (r : Record) : List (LInstr Target) := r.head ++ r.content

end Record

/-- the fast code of a list of records -/
def layout (rs : List Record) : List (LInstr Target) := rs.flatMap Record.code

/-! ## The plan -/

/-- an open construct -/
structure PFrame where
  opcode : LFrameOp
  id : Nat
  /-- the record of a loop -/
  header : Nat := 0
  tryDepth : Nat
  needsTrim : Bool := false
  /-- some branch leads to its end -/
  isTarget : Bool := false
deriving DecidableEq, Repr

structure Plan where
  records : List Record := []
  ctrl : List PFrame := []
  tryDepth : Nat := 0
  emitMeter : Bool := false
  /-- the next record starts a chunk -/
  needNewChunk : Bool := false
  cost : Nat := 0
  /-- records of the names resolved so far -/
  ends : List (Target × Nat) := []
deriving DecidableEq, Repr

namespace Plan

/-- the record after the last one -/
def size (p : Plan) : Nat := p.records.length

/-- ends the current chunk, if any -/
def closeChunk (p : Plan) : Plan := if p.emitMeter then { p with needNewChunk := true, cost := 0 } else p

/-- appends a record, splitting chunks before their cost overflows -/
def add (p : Plan) (pre poll : Option Nat) (main : Option (LInstr Target)) (map : Option Nat) : Plan :=
  let q := { p with
    records := p.records ++ [⟨pre, p.emitMeter && p.needNewChunk, poll, main, map.getD uint32Max⟩] }
  if p.emitMeter then
    let cost := (if p.needNewChunk then 0 else p.cost) + 1
    if cost = uint16Max then { q with needNewChunk := true, cost := 0 }
    else { q with needNewChunk := false, cost := cost }
  else q

/-- the name of a label -/
def target (p : Plan) (l : Nat) : Target :=
  match p.ctrl[l]? with
  | none => .func
  | some f => if f.opcode = .loop then .record f.header else .endOf f.id

/-- notes a branch to a label -/
def mark (p : Plan) (l : Nat) : Plan :=
  { p with ctrl := p.ctrl.modify l fun f =>
      { f with needsTrim := f.needsTrim || decide (f.tryDepth < p.tryDepth)
               isTarget := f.isTarget || decide (f.opcode ≠ .loop) } }

def markAll (p : Plan) (ls : List Nat) : Plan := ls.foldl mark p

/-- a name stands for the next record -/
def resolve (p : Plan) (t : Target) : Plan := { p with ends := p.ends ++ [(t, p.size)] }

def push (p : Plan) (f : PFrame) : Plan := { p with ctrl := f :: p.ctrl }

/-- the POLL of an instruction -/
def pollOf (d : DInstr) : Option Nat := if d.poll then some (d.refMap.getD uint32Max) else none

def planBlock (p : Plan) (ii : Nat) (d : DInstr) : Plan :=
  (p.add (pollOf d) none none d.refMap).push { opcode := .block, id := ii, tryDepth := p.tryDepth }

def planLoop (p : Plan) (ii : Nat) (hasTry : Bool) (d : DInstr) : Plan :=
  let p := if d.poll then p.closeChunk else p
  (p.add (pollOf d) none (if hasTry then some (.trimHandlers p.tryDepth) else none) d.refMap).push
    { opcode := .loop, id := ii, header := p.size, tryDepth := p.tryDepth }

def planTryTable (p : Plan) (ii : Nat) (d : DInstr) (cs : List DCatch) : Plan :=
  let main : LInstr Target := .tryTable (cs.map fun c => ⟨c.kind, c.tag, p.target c.label, c.drop⟩)
  let q := ((p.markAll (cs.map DCatch.label)).add (pollOf d) none (some main) d.refMap).push
    { opcode := .tryTable, id := ii, tryDepth := p.tryDepth }
  { q with tryDepth := q.tryDepth + 1 }

def planEnd (p : Plan) (f : PFrame) (d : DInstr) (next : Option Nat) : Plan :=
  let isTry := decide (f.opcode = .tryTable)
  let p := p.add none none (if isTry then some .endTryTable else none) d.refMap
  let p := if isTry then { p with tryDepth := p.tryDepth - 1 } else p
  let p := if f.isTarget || decide (f.opcode = .if_) then p.closeChunk else p
  let p := p.resolve (.endOf f.id)
  let p := if f.opcode = .if_ then p.resolve (.falseOf f.id) else p
  let p := { p with ctrl := p.ctrl.tail }
  if f.needsTrim && decide (f.opcode ≠ .loop) then p.add none none (some (.trimHandlers f.tryDepth)) next else p

def planFuncEnd (p : Plan) (d : DInstr) : Plan := (p.add none none (some .end_) d.refMap).closeChunk

/-- marks made by an instruction -/
def marks (p : Plan) : DOp → Plan
  | .br l _ _ | .brIf l _ _ | .brOnNull l _ _ | .brOnNonNull l _ _ | .brOnCast _ _ _ l _ _ => p.mark l
  | .brTable imm => p.markAll (imm.records.map Prod.fst)
  | _ => p

/-- the instruction with named targets -/
def mainOf (p : Plan) (ii : Nat) (d : DInstr) : Option (LInstr Target) :=
  match d.op with
  | .op i => some (.op i (if i.isResumableBulk then some (d.refMap.getD uint32Max) else none))
  | .if_ _ => some (.if_ (.falseOf ii))
  | .else_ => p.ctrl.head?.map fun f => .else_ (.endOf f.id)
  | .br l keep drop => some (.br (p.target l) keep drop)
  | .brIf l keep drop => some (.brIf (p.target l) keep drop)
  | .brOnNull l keep drop => some (.brOnNull (p.target l) keep drop)
  | .brOnNonNull l keep drop => some (.brOnNonNull (p.target l) keep drop)
  | .brOnCast fail dn dst l keep drop => some (.brOnCast fail dn dst (p.target l) keep drop)
  | .brTable imm => some (.brTable imm.keep imm.targets (imm.records.map fun r => (p.target r.1, r.2)))
  | .block _ | .loop _ | .end_ | .tryTable _ _ => none

/-- what IF and ELSE do to the open constructs -/
def planFrames (p : Plan) (ii : Nat) : DOp → Plan
  | .if_ _ => p.push { opcode := .if_, id := ii, tryDepth := p.tryDepth }
  | .else_ =>
    match p.ctrl with
    | [] => p
    | f :: fs => { p.resolve (.falseOf f.id) with ctrl := { f with opcode := .else_, isTarget := true } :: fs }
  | _ => p

def planPlain (p : Plan) (ii : Nat) (d : DInstr) : Plan :=
  let main := p.mainOf ii d
  let p := ((p.marks d.op).add none (pollOf d) main d.refMap).planFrames ii d.op
  if d.op.endsLongChunk then (if meterMaxChunkCost ≤ p.cost then p.closeChunk else p)
  else if d.op = .else_ then p.closeChunk
  else p

end Plan

/-- the records of one instruction -/
def planInstr (p : Plan) (ii : Nat) (hasTry : Bool) (d : DInstr) (next : Option Nat) : Plan :=
  match d.op with
  | .block _ => p.planBlock ii d
  | .loop _ => p.planLoop ii hasTry d
  | .tryTable _ cs => p.planTryTable ii d cs
  | .end_ =>
    match p.ctrl with
    | f :: _ => p.planEnd f d next
    | [] => p.planFuncEnd d
  | _ => p.planPlain ii d

def planFrom (marked : List Nat) (p : Plan) (ii : Nat) : List DInstr → Plan
  | [] => p
  | d :: ds => planFrom marked (planInstr p ii (decide (ii ∈ marked)) d (ds.head?.bind DInstr.refMap)) (ii + 1) ds

/-- the plan of a function body -/
def planOf (fuelMetering : Bool) (ds : List DInstr) : Plan :=
  planFrom (loopHasTry ds) { emitMeter := fuelMetering, needNewChunk := fuelMetering } 0 ds

/-- the record a name stands for -/
def Plan.index (p : Plan) : Target → Nat
  | .record r => r
  | .func => p.size - 1
  | t => (p.ends.lookup t).getD 0

end Wah
