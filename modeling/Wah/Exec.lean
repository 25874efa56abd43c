/-
What one lowered instruction does to the activation: frames, handlers and the store.

The meaning of values, memories, tables, objects and host functions is a parameter (`Sem`): a data instruction is a
function from its operands and the store to its results. Its arities are those the validator computes, which is the
only thing the control machinery relies on. `execInstr` is shared by every machine of this development; machines
differ in what a position in the code is (`Nav`).

- `dropKeep`, `unwind`, `popFrame`, `dropFrameHandlers`: `WAH_DROP_KEEP`, `wah_throw_exception`,
  `WAH_POP_CURRENT_FRAME` and `WAH_DROP_FRAME_HANDLERS`.
- `execInstr`: the `WAH_RUN` bodies, POLL, METER and TICK aside.
-/
import Wah.Lower

namespace Wah

/-- a function of the program, with the context its body is validated in -/
structure Func where
  ctx : FuncCtx
  body : List Instr

def Func.module (f : Func) : Module := f.ctx.module
def Func.nparams (f : Func) : Nat := f.ctx.func.params.length
def Func.nresults (f : Func) : Nat := f.ctx.func.results.length
def Func.nlocals (f : Func) : Nat := f.ctx.locals.length

/-! ## Arities -/

/-- operands popped and results pushed by a data instruction -/
def DataOp.arity (M : Module) : DataOp → Nat × Nat
  | .plain p =>
    match plainSig M p with
    | .ok (pops, pushes) => (pops.length, pushes.length)
    | .error _ => (0, 0)
  | .structNew t => (((M.typeDefs[t]?).map fun td => td.fieldTypes.length).getD 0, 1)
  | .arrayNewFixed _ length => (length, 1)
  | .drop => (1, 0)
  | .select => (3, 1)
  | .refIsNull | .arrayLen | .refAsNonNull | .refTest _ _ | .refCast _ _ => (1, 1)

/-- operands that name the callee, and the callee's expected type -/
def CallKind.sig (M : Module) (c : CallKind) : List Ty × FuncType :=
  match calleeSig M c with
  | .ok r => r
  | .error _ => ([], ⟨[], []⟩)

/-- number of payload values of a tag -/
def tagArity (M : Module) (tag : Nat) : Nat :=
  match tagType M tag with
  | .ok ft => ft.params.length
  | .error _ => 0

/-! ## Meaning of data -/

/-- what a call resolves to -/
inductive Callee (ι : Type) where
  | trap
  | host (h : Nat)
  | wasm (f : ι)

/-- values, the store and everything that computes on them; operand lists have the top first -/
structure Sem (ι Val Store Exn : Type) (P : ι → Func) where
  zero : Val
  /-- the condition of `if` and `br_if` -/
  isZero : Val → Bool
  /-- the operand of `br_table` -/
  index : Val → Nat
  isNull : Val → Bool
  /-- `wah_ref_test_heap_type` on a non-null reference -/
  refTest : ι → HeapTy → Val → Store → Bool
  /-- a data instruction on its operands; none is a trap -/
  data : ι → DataOp → List Val → Store → Option (List Val × Store)
  callee : ι → CallKind → List Val → Store → Callee ι
  host : Nat → List Val → Store → Option (List Val × Store)
  hostResults : Nat → Nat
  /-- room for a frame of the callee above the given slots and frames -/
  callRoom : Nat → Nat → ι → Bool
  /-- room for the results of a host function -/
  hostRoom : Nat → Nat → Nat → Bool
  /-- room for one more exception handler above the given number -/
  handlerRoom : Nat → Bool
  /-- identity of a tag instance -/
  tagId : ι → Nat → Nat
  newExn : ι → Nat → List Val → Store → Option (Exn × Store)
  exnTag : Exn → Nat
  /-- payload, first value first -/
  exnArgs : Exn → List Val
  exnRef : Exn → Val
  refExn : Val → Option Exn
  data_length : ∀ f d args st rs st', data f d args st = some (rs, st') →
    rs.length = (d.arity (P f).module).2
  callee_arity : ∀ f c args st g, callee f c args st = .wasm g →
    (P g).nparams = (c.sig (P f).module).2.params.length ∧
    (P g).nresults = (c.sig (P f).module).2.results.length
  callee_host : ∀ f c args st h, callee f c args st = .host h →
    hostResults h = (c.sig (P f).module).2.results.length
  host_length : ∀ h args st rs st', host h args st = some (rs, st') → rs.length = hostResults h
  newExn_tag : ∀ f t args st x st', newExn f t args st = some (x, st') → exnTag x = tagId f t
  exn_length : ∀ x f t, exnTag x = tagId f t → (exnArgs x).length = tagArity (P f).module t

/-! ## The activation -/

/-- `wah_call_frame_t`: locals are indexed from zero, operands have the top first -/
structure Frame (ι Val π : Type) where
  fid : ι
  pc : π
  locals : List Val
  opnds : List Val

/-- `wah_exception_handler_t`; `spBase` counts the operands of the frame that installed it -/
structure Handler (ι τ : Type) where
  callDepth : Nat
  spBase : Nat
  fid : ι
  catches : List (LCatch τ)

/-- frames and handlers of the activation, innermost first -/
structure Core (ι Val Store τ π : Type) where
  frames : List (Frame ι Val π)
  handlers : List (Handler ι τ)
  store : Store

/-- positions: where a target leads, and where a function starts -/
structure Nav (ι τ π : Type) where
  goto : ι → τ → π → π
  entry : ι → π

inductive Fault where
  | trap | exception | stackOverflow
deriving DecidableEq, Repr

/-- outcome of an instruction; a call also reports how many locals it zeroed -/
inductive Res (ι Val Store τ π : Type) where
  | run (c : Core ι Val Store τ π) (zeroed : Nat)
  | finished (vals : List Val) (store : Store)
  | failed (e : Fault) (store : Store)
  | stuck

section Exec

variable {ι Val Store Exn τ π : Type} {P : ι → Func}
variable (S : Sem ι Val Store Exn P) (N : Nav ι τ π)

/-- `WAH_DROP_KEEP` -/
def dropKeep {α : Type} (keep drop : Nat) (vs : List α) : List α := vs.take keep ++ vs.drop (keep + drop)

/-- the lowest `n` operands -/
def keepBottom {α : Type} (n : Nat) (vs : List α) : List α := vs.drop (vs.length - n)

/-- slots taken by frames: their locals and operands -/
def slots (frames : List (Frame ι Val π)) : Nat := (frames.map fun f => f.locals.length + f.opnds.length).sum

/-- goes on in the current frame with other operands -/
def Core.next (c : Core ι Val Store τ π) (fr : Frame ι Val π) (rest : List (Frame ι Val π)) (vs : List Val) :
    Res ι Val Store τ π :=
  .run { c with frames := { fr with opnds := vs } :: rest } 0

/-- goes on at a target of the current frame -/
def Core.jump (c : Core ι Val Store τ π) (fr : Frame ι Val π) (rest : List (Frame ι Val π)) (t : τ)
    (vs : List Val) : Res ι Val Store τ π :=
  .run { c with frames := { fr with opnds := vs, pc := N.goto fr.fid t fr.pc } :: rest } 0

/-- `WAH_DROP_FRAME_HANDLERS` at the given call depth -/
def dropFrameHandlers (depth : Nat) (hs : List (Handler ι τ)) : List (Handler ι τ) :=
  hs.dropWhile fun h => decide (depth ≤ h.callDepth)

/-- `WAH_POP_CURRENT_FRAME` -/
def popFrame (c : Core ι Val Store τ π) (fr : Frame ι Val π) (rest : List (Frame ι Val π)) : Res ι Val Store τ π :=
  let vs := fr.opnds.take (P fr.fid).nresults
  let hs := dropFrameHandlers (rest.length + 1) c.handlers
  match rest with
  | [] => .finished vs c.store
  | caller :: rest =>
    .run { c with frames := { caller with opnds := vs ++ caller.opnds } :: rest, handlers := hs } 0

/-- whether a clause catches the exception -/
def clauseMatches (x : Exn) (f : ι) (c : LCatch τ) : Bool :=
  !c.kind.hasTag || decide (S.tagId f c.tag = S.exnTag x)

/-- what a clause pushes: the payload, then the exception reference -/
def payload (kind : CatchKind) (x : Exn) : List Val :=
  (if kind.hasExnref then [S.exnRef x] else []) ++ (if kind.hasTag then (S.exnArgs x).reverse else [])

/-- `wah_throw_exception`: handlers are tried from the top, popping the frames above each -/
def unwind (x : Exn) (st : Store) : List (Frame ι Val π) → List (Handler ι τ) → Res ι Val Store τ π
  | _, [] => .failed .exception st
  | frames, h :: hs =>
    let frames := frames.drop (frames.length - h.callDepth)
    match h.catches.find? (clauseMatches S x h.fid) with
    | none => unwind x st frames hs
    | some c =>
      match frames with
      | [] => .stuck
      | fr :: rest =>
        .run
          { frames :=
              { fr with pc := N.goto h.fid c.target fr.pc,
                        opnds := payload S c.kind x ++ keepBottom (h.spBase - c.drop) fr.opnds } :: rest
            handlers := hs
            store := st } 0

/-- the locals of a new frame: arguments, then zeroes -/
def newLocals (g : ι) (args : List Val) : List Val := args.reverse ++ List.replicate (P g).nlocals S.zero

/-- CALL, CALL_INDIRECT and CALL_REF -/
def execCall (c : Core ι Val Store τ π) (fr : Frame ι Val π) (rest : List (Frame ι Val π)) (k : CallKind) :
    Res ι Val Store τ π :=
  let sig := k.sig (P fr.fid).module
  let vs := fr.opnds.drop sig.1.length
  let args := vs.take sig.2.params.length
  let below := vs.drop sig.2.params.length
  let used := slots rest + fr.locals.length + vs.length
  match S.callee fr.fid k (fr.opnds.take sig.1.length) c.store with
  | .trap => .failed .trap c.store
  | .host h =>
    if S.hostRoom used (rest.length + 1) (S.hostResults h) then
      match S.host h args c.store with
      | none => .failed .trap c.store
      | some (rs, st) => { c with store := st }.next fr rest (rs ++ below)
    else .failed .stackOverflow c.store
  | .wasm g =>
    if S.callRoom used (rest.length + 1) g then
      .run { c with frames :=
        { fid := g, pc := N.entry g, locals := newLocals S g args, opnds := [] } ::
        { fr with opnds := below } :: rest } (P g).nlocals
    else .failed .stackOverflow c.store

/-- RETURN_CALL, RETURN_CALL_INDIRECT and RETURN_CALL_REF: the frame is reused, its handlers are dropped first -/
def execReturnCall (c : Core ι Val Store τ π) (fr : Frame ι Val π) (rest : List (Frame ι Val π)) (k : CallKind) :
    Res ι Val Store τ π :=
  let sig := k.sig (P fr.fid).module
  let vs := fr.opnds.drop sig.1.length
  let args := vs.take sig.2.params.length
  let c := { c with handlers := dropFrameHandlers (rest.length + 1) c.handlers }
  match S.callee fr.fid k (fr.opnds.take sig.1.length) c.store with
  | .trap => .failed .trap c.store
  | .host h =>
    if S.hostRoom (slots rest + fr.locals.length + vs.length) (rest.length + 1) (S.hostResults h) then
      match S.host h args c.store with
      | none => .failed .trap c.store
      | some (rs, st) =>
        popFrame (P := P) { c with store := st } { fr with opnds := rs ++ vs.drop sig.2.params.length } rest
    else .failed .stackOverflow c.store
  | .wasm g =>
    if S.callRoom (slots rest + (P g).nparams) rest.length g then
      .run { c with frames :=
        { fid := g, pc := N.entry g, locals := newLocals S g args, opnds := [] } :: rest } (P g).nlocals
    else .failed .stackOverflow c.store

/-- whether `br_on_cast` finds its target type -/
def castMatches (f : ι) (dstNull : Bool) (dst : HeapTy) (v : Val) (st : Store) : Bool :=
  if S.isNull v then dstNull else S.refTest f dst v st

/-- instructions lowered as they are -/
def execOp (c : Core ι Val Store τ π) (fr : Frame ι Val π) (rest : List (Frame ι Val π)) :
    Instr → Res ι Val Store τ π
  | .data d =>
    let n := (d.arity (P fr.fid).module).1
    match S.data fr.fid d (fr.opnds.take n) c.store with
    | none => .failed .trap c.store
    | some (rs, st) => { c with store := st }.next fr rest (rs ++ fr.opnds.drop n)
  | .localGet i =>
    match fr.locals[i]? with
    | some v => c.next fr rest (v :: fr.opnds)
    | none => .stuck
  | .localSet i =>
    match fr.opnds with
    | v :: vs => c.next { fr with locals := fr.locals.set i v } rest vs
    | [] => .stuck
  | .localTee i =>
    match fr.opnds with
    | v :: vs => c.next { fr with locals := fr.locals.set i v } rest (v :: vs)
    | [] => .stuck
  | .unreachable => .failed .trap c.store
  | .return_ => popFrame (P := P) c fr rest
  | .call k => execCall S N c fr rest k
  | .returnCall k => execReturnCall S N c fr rest k
  | .throw t =>
    let n := tagArity (P fr.fid).module t
    match S.newExn fr.fid t (fr.opnds.take n).reverse c.store with
    | none => .failed .trap c.store
    | some (x, st) => unwind S N x st ({ fr with opnds := fr.opnds.drop n } :: rest) c.handlers
  | .throwRef =>
    match fr.opnds with
    | [] => .stuck
    | v :: vs =>
      match S.refExn v with
      | none => .failed .trap c.store
      | some x => unwind S N x c.store ({ fr with opnds := vs } :: rest) c.handlers
  | _ => .stuck

/-- the record of a `br_table` operand: out-of-range indices take the default, which is last -/
def brTableRecordAt (targets : List Nat) (records : List (τ × Nat)) (index : Nat) : Option (τ × Nat) :=
  (targets[min index (targets.length - 1)]?).bind fun r => records[r]?

/-- one lowered instruction, in a frame whose position is already past it -/
def execInstr (c : Core ι Val Store τ π) (fr : Frame ι Val π) (rest : List (Frame ι Val π)) :
    LInstr τ → Res ι Val Store τ π
  | .op i _ => execOp S N c fr rest i
  | .if_ t =>
    match fr.opnds with
    | [] => .stuck
    | v :: vs => if S.isZero v then c.jump N fr rest t vs else c.next fr rest vs
  | .else_ t => c.jump N fr rest t fr.opnds
  | .br t keep drop => c.jump N fr rest t (dropKeep keep drop fr.opnds)
  | .brIf t keep drop =>
    match fr.opnds with
    | [] => .stuck
    | v :: vs => if S.isZero v then c.next fr rest vs else c.jump N fr rest t (dropKeep keep drop vs)
  | .brOnNull t keep drop =>
    match fr.opnds with
    | [] => .stuck
    | v :: vs => if S.isNull v then c.jump N fr rest t (dropKeep keep drop vs) else c.next fr rest (v :: vs)
  | .brOnNonNull t keep drop =>
    match fr.opnds with
    | [] => .stuck
    | v :: vs => if S.isNull v then c.next fr rest vs else c.jump N fr rest t (dropKeep keep drop (v :: vs))
  | .brOnCast fail dn dst t keep drop =>
    match fr.opnds with
    | [] => .stuck
    | v :: vs =>
      if castMatches S fr.fid dn dst v c.store ≠ fail then c.jump N fr rest t (dropKeep keep drop (v :: vs))
      else c.next fr rest (v :: vs)
  | .brTable keep targets records =>
    match fr.opnds with
    | [] => .stuck
    | v :: vs =>
      match brTableRecordAt targets records (S.index v) with
      | none => .stuck
      | some (t, drop) => c.jump N fr rest t (dropKeep keep drop vs)
  | .tryTable catches =>
    if S.handlerRoom c.handlers.length then
      { c with handlers := ⟨rest.length + 1, fr.opnds.length, fr.fid, catches⟩ :: c.handlers }.next fr rest fr.opnds
    else .failed .stackOverflow c.store
  | .endTryTable =>
    match c.handlers with
    | [] => .failed .trap c.store
    | _ :: hs => { c with handlers := hs }.next fr rest fr.opnds
  | .trimHandlers depth =>
    let mine := c.handlers.takeWhile fun h => decide (rest.length + 1 ≤ h.callDepth)
    if depth ≤ mine.length then
      { c with handlers := c.handlers.drop (mine.length - depth) }.next fr rest fr.opnds
    else .failed .trap c.store
  | .end_ => popFrame (P := P) c fr rest
  | .poll _ | .meter _ _ | .tick _ => .stuck

end Exec

end Wah
