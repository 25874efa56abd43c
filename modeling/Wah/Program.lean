/-
Programs: functions with accepted bodies, their plans, and a machine that runs records.

Fuel metering is a flag of the module that changes ref maps and the emitted METERs only, so every function has a plan
and lowered code for both settings; types and arities do not depend on it. `rStep` runs the records of a plan with
named targets: it is the lowered code without bytes, POLLs and METERs.
-/
import Wah.Positions
import Wah.Depths

namespace Wah

/-! ## The metering flag -/

/-- the module with fuel metering on or off -/
def Module.setMetering (M : Module) (m : Bool) : Module := { M with fuelMetering := m }

def FuncCtx.setMetering (C : FuncCtx) (m : Bool) : FuncCtx := { C with module := C.module.setMetering m }

section SetMetering

variable (M : Module) (m : Bool)

theorem walkSupertypes_setMetering (sup n t : Nat) :
    (M.setMetering m).walkSupertypes sup n t = M.walkSupertypes sup n t := by
  induction n generalizing t with
  | zero => rfl
  | succ n ih =>
    simp only [Module.walkSupertypes, ih]
    rfl

theorem typeIsSubtype_setMetering (a e : Ty) : (M.setMetering m).typeIsSubtype a e = M.typeIsSubtype a e := by
  unfold Module.typeIsSubtype Module.heapIsSubtype Module.idxIsSubtype
  simp only [walkSupertypes_setMetering]
  rfl

theorem typeMatches_setMetering (a e : Ty) : (M.setMetering m).typeMatches a e = M.typeMatches a e := by
  rw [Module.typeMatches_eq, Module.typeMatches_eq, typeIsSubtype_setMetering]

theorem plainSig_setMetering (p : PlainOp) : plainSig (M.setMetering m) p = plainSig M p := by
  cases p <;> first
    | rfl
    | simp only [plainSig, typeMatches_setMetering]
      rfl

theorem calleeSig_setMetering (c : CallKind) : calleeSig (M.setMetering m) c = calleeSig M c := by
  cases c with
  | direct f => rfl
  | indirect type table =>
    simp only [calleeSig, typeIsSubtype_setMetering]
    rfl
  | ref type => rfl

@[simp] theorem arity_setMetering (d : DataOp) : d.arity (M.setMetering m) = d.arity M := by
  cases d with
  | plain p => simp only [DataOp.arity, plainSig_setMetering]
  | _ => rfl

@[simp] theorem sig_setMetering (c : CallKind) : c.sig (M.setMetering m) = c.sig M := by
  simp only [CallKind.sig, calleeSig_setMetering]

@[simp] theorem tagArity_setMetering (t : Nat) : tagArity (M.setMetering m) t = tagArity M t := rfl

@[simp] theorem blockSig_setMetering (bt : BlockType) : blockSig (M.setMetering m) bt = blockSig M bt := rfl

end SetMetering

/-! ## Functions -/

namespace Func

/-- the context of the analysis -/
def context (m : Bool) (F : Func) : FuncCtx := F.ctx.setMetering m

/-- the body passes the analysis -/
def Accepted (m : Bool) (F : Func) : Prop := ∃ A, analyzeStream (F.context m) F.body = .ok A

/-- decoded instructions of an accepted body -/
def decoded (m : Bool) (F : Func) : List DInstr :=
  match analyzeStream (F.context m) F.body with
  | .ok A => A.instrs
  | .error _ => []

/-- `code_body.max_stack_depth` -/
def maxStackDepth (m : Bool) (F : Func) : Nat :=
  match analyzeStream (F.context m) F.body with
  | .ok A => A.maxStackDepth
  | .error _ => 0

def plan (m : Bool) (F : Func) : Plan := planOf m (F.decoded m)

/-- `code_body.parsed_code`: the lowered code of the body -/
def lowered (m : Bool) (F : Func) : List (LInstr Nat) := lowerAnalyzedCode m (F.decoded m)

/-- the nested body -/
def code (F : Func) : Code := (parse F.body).getD .nil

end Func

/-- the end of the analysis of a function, with the depth recorded there -/
structure Func.Ended (m : Bool) (F : Func) (last : AState) : Prop where
  final : Final (F.context m) (F.decoded m) last
  depth : last.v.maxStackDepth = F.maxStackDepth m

/-- an accepted body starts at the beginning of its analysis -/
theorem Func.Accepted.start {m : Bool} {F : Func} (h : F.Accepted m) :
    ∃ last, F.Ended m last ∧ Pos (F.context m) m (F.decoded m) last {} F.code [] := by
  obtain ⟨A, hA⟩ := h
  have hd : F.decoded m = A.instrs := by simp [Func.decoded, hA]
  have hdepth : F.maxStackDepth m = A.maxStackDepth := by simp [Func.maxStackDepth, hA]
  obtain ⟨pre, last, hsplit, hsteps, hctrl, hfinish⟩ := analyzeFrom_steps hA
  obtain ⟨x, hinstrs, hop, hpoll, -⟩ := finish_spec hfinish
  have hb : Body (F.context m) F.body A.instrs last pre :=
    ⟨hsplit, hsteps, hctrl, ⟨A, hfinish, rfl⟩, ⟨x, hinstrs, hop, hpoll⟩⟩
  obtain ⟨c, hc⟩ := analyzeStream_parse hA
  have hpre : pre = c.flat := by
    have := hb.split.symm.trans (parse_flat hc)
    simpa using this
  have hcode : F.code = c := by simp [Func.code, hc]
  rw [hd, hcode]
  have hended : F.Ended m last := ⟨hd ▸ hb.final, hdepth ▸ (finish_depth hfinish).symm⟩
  refine ⟨last, hended, ⟨matched_init m A.instrs, ?_, ⟨[], .nil _⟩, ⟨pre, hb.steps⟩⟩, rfl, last, hpre ▸ hb.steps, .done⟩
  exact ⟨rfl, by simp [scanAt], by simp [AState.plan, planAt], by simp [AState.plan, planAt],
    by simp [AState.plan, planAt]⟩

theorem Func.Accepted.placed {m : Bool} {F : Func} (h : F.Accepted m) : ∃ slow, Placed (F.plan m) (F.lowered m) slow := by
  obtain ⟨A, hA⟩ := h
  have hd : F.decoded m = A.instrs := by simp [Func.decoded, hA]
  rw [Func.plan, Func.lowered, hd]
  exact lowerAnalyzedCode_placed m A.instrs (analyzeStream_acceptsFrom hA)

/-! ## The record machine -/

section Records

variable {ι Val Store Exn : Type} {P : ι → Func} (S : Sem ι Val Store Exn P) (m : Bool)

abbrev RCore (ι Val Store : Type) := Core ι Val Store Target Nat

/-- positions are records -/
def rNav (P : ι → Func) (m : Bool) : Nav ι Target Nat where
  goto := fun f t _ => ((P f).plan m).index t
  entry := fun _ => 0

/-- one record -/
def rStep (c : RCore ι Val Store) : Res ι Val Store Target Nat :=
  match c.frames with
  | [] => .stuck
  | fr :: rest =>
    match ((P fr.fid).plan m).records[fr.pc]? with
    | none => .stuck
    | some rec =>
      match rec.main with
      | none => c.next { fr with pc := fr.pc + 1 } rest fr.opnds
      | some i => execInstr S (rNav P m) c { fr with pc := fr.pc + 1 } rest i

end Records

end Wah
