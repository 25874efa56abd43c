/-
The analysis loop over a function body: polls, ref maps, and the terminal END.

`analyzeStream` is `wah_analyze_stream` for function bodies. A POLL goes before the first instruction, before every
call and at every loop. A ref map lists the reference slots of the operand stack before an instruction; maps share
their lower parts as paths in a forest of `RefNode`s, and only slots at or above the low-water mark `lwm` are looked
at again.
-/
import Wah.Validate

namespace Wah

/-! ## Ref maps -/

/-- `wah_ref_node_t`: a reference slot, and the node of the next one below (one-based, zero for none) -/
structure RefNode where
  parent : Nat
  pos : Nat
deriving DecidableEq, Repr

/-- the local state of `WAH_CAPTURE_REF_MAP` -/
structure Capture where
  /-- captured operand types, bottom first -/
  types : List Ty := []
  /-- topmost reference node of each prefix of `types`, the empty one first -/
  tops : List Nat := [0]
  nodes : List RefNode := []
  /-- `poll_ref_tops`: topmost node of each map -/
  pollTops : List Nat := []
deriving DecidableEq, Repr

namespace Capture

/-- extends the shared prefix over slots captured with the same type -/
def commonFrom (old new : List Ty) : Nat → Nat → Nat
  | 0, k => k
  | fuel + 1, k =>
    if k < new.length ∧ k < old.length ∧ old[k]? = new[k]? then commonFrom old new fuel (k + 1) else k

/-- captures one more slot -/
def push (c : Capture) (t : Ty) : Capture :=
  let top := c.tops.getLast?.getD 0
  let c := { c with types := c.types ++ [t] }
  if t.isRef then
    { c with nodes := c.nodes ++ [⟨top, c.types.length - 1⟩], tops := c.tops ++ [c.nodes.length + 1] }
  else { c with tops := c.tops ++ [top] }

/-- `WAH_CAPTURE_REF_MAP`: the index of the new map, and the context with its low-water mark reset -/
def capture (c : Capture) (v : VCtx) : Capture × VCtx :=
  if v.isUnreachable then ({ c with pollTops := c.pollTops ++ [0] }, v)
  else
    let data := v.stack.reverse
    let common := commonFrom c.types data data.length (min v.lwm c.types.length)
    let kept := { c with types := c.types.take common, tops := c.tops.take (common + 1) }
    let c := (data.drop common).foldl push kept
    ({ c with pollTops := c.pollTops ++ [c.tops.getLast?.getD 0] }, { v with lwm := v.height })

/-- index of the last map -/
def last (c : Capture) : Nat := c.pollTops.length - 1

/-- slots on the path from a node to the root, the topmost first -/
def slotsFrom (nodes : List RefNode) : Nat → Nat → List Nat
  | 0, _ => []
  | fuel + 1, node =>
    match node with
    | 0 => []
    | n + 1 =>
      match nodes[n]? with
      | none => []
      | some r => r.pos :: slotsFrom nodes fuel r.parent

end Capture

/-! ## The analysis loop -/

/-- `wah_decoded_instr_t`; `refMap` is none for `UINT32_MAX` -/
structure DInstr where
  op : DOp
  poll : Bool := false
  refMap : Option Nat := none
deriving DecidableEq, Repr

/-- the state of the loop -/
structure AState where
  v : VCtx := {}
  cap : Capture := {}
  isFirst : Bool := true
  pollFlag : Bool := false
  pollMap : Nat := 0
  instrs : List DInstr := []
deriving DecidableEq, Repr

/-- `wah_analyzed_code_t` -/
structure Analyzed where
  instrs : List DInstr
  maxStackDepth : Nat
  minDataSegments : Nat
  pollTops : List Nat
  nodes : List RefNode
deriving DecidableEq, Repr

namespace AState

/-- captures a ref map -/
def capture (s : AState) : AState :=
  let r := s.cap.capture s.v
  { s with cap := r.1, v := r.2 }

/-- before an opcode: the first one and calls get a POLL, metered code and bulk operations only a ref map -/
def prepare (C : FuncCtx) (s : AState) (i : Instr) : AState × Option Nat :=
  if s.isFirst || (!s.pollFlag && i.isCall) then
    let s := s.capture
    ({ s with pollMap := s.cap.last, pollFlag := true, isFirst := false }, some s.cap.last)
  else
    let cur := if s.pollFlag then some s.pollMap else none
    if C.module.fuelMetering || i.isResumableBulk then
      let s := s.capture
      (s, some s.cap.last)
    else (s, cur)

/-- stores a decoded instruction, which takes the pending POLL; loops get one in any case -/
def emit (s : AState) (cur : Option Nat) : Option DOp → AState
  | none => s
  | some d =>
    let poll := s.pollFlag
    let s := { s with pollFlag := false }
    match d with
    | .loop _ =>
      if poll then { s with instrs := s.instrs ++ [⟨d, true, cur⟩] }
      else
        let s := s.capture
        { s with instrs := s.instrs ++ [⟨d, true, some s.cap.last⟩] }
    | _ => { s with instrs := s.instrs ++ [⟨d, poll, cur⟩] }

/-- one iteration of the loop, the outermost END aside -/
def step (C : FuncCtx) (s : AState) (i : Instr) : Except WahError AState := do
  let p := s.prepare C i
  let r ← validateOpcode C p.1.v i
  return { p.1 with v := r.1 }.emit p.2 r.2

/-- the outermost END: results are popped and nothing may be left -/
def finish (C : FuncCtx) (s : AState) : Except WahError Analyzed := do
  let p := s.prepare C .end_
  let v ← p.1.v.popMatches C.module C.func.results.reverse
  ensure (v.height = 0)
  return { instrs := p.1.instrs ++ [⟨.end_, false, p.2⟩], maxStackDepth := v.maxStackDepth,
           minDataSegments := v.minDataSegments, pollTops := p.1.cap.pollTops, nodes := p.1.cap.nodes }

end AState

/-- `wah_analyze_stream` on a function body; nothing may follow the outermost END -/
def analyzeFrom (C : FuncCtx) (s : AState) : List Instr → Except WahError Analyzed
  | [] => .error .malformed
  | i :: is =>
    if i = .end_ ∧ s.v.ctrl = [] then
      if is = [] then s.finish C else .error .validationFailed
    else do
      let s ← s.step C i
      analyzeFrom C s is

def analyzeStream (C : FuncCtx) (is : List Instr) : Except WahError Analyzed := analyzeFrom C {} is

end Wah
