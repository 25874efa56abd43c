/-
Stack moves: what an instruction leaves alone on the type stack, the control stack and the undo list.

Model: an instruction keeps the slots below the low-water mark, which only falls (`Keeps`); all but structured control
and the local instructions also keep the control frames and the undo list (`Moves`).

Result: `validateOpcode_effect`, for every instruction.
-/
import Wah.Effects

namespace Wah

/-- position `k` of the operand stack, counted from the bottom -/
def VCtx.slot (v : VCtx) (k : Nat) : Option Ty := v.stack.reverse[k]?

/-! ## Stack moves -/

/-- slots below the low-water mark stay, the mark only falls, and the stack does not overflow -/
structure Keeps (v v' : VCtx) : Prop where
  room : v.height ≤ maxTypeStackSize → v'.height ≤ maxTypeStackSize
  lwm : v'.lwm ≤ v.lwm
  height : v.lwm ≤ v.height → v'.lwm ≤ v'.height
  same : v.lwm ≤ v.height → ∀ k < v'.lwm, v'.slot k = v.slot k

section
variable {M : Module} {C : FuncCtx} {v v' w : VCtx}

theorem Keeps.refl (v : VCtx) : Keeps v v := ⟨id, le_rfl, id, fun _ _ _ => rfl⟩

theorem Keeps.trans (h : Keeps v w) (h' : Keeps w v') : Keeps v v' where
  room hv := h'.room (h.room hv)
  lwm := h'.lwm.trans h.lwm
  height hv := h'.height (h.height hv)
  same hv k hk := by rw [h'.same (h.height hv) k hk, h.same hv k (hk.trans_le h'.lwm)]

/-- nothing but the stack and the mark matters -/
theorem Keeps.congr (h : Keeps v w) (hs : v'.stack = w.stack) (hl : v'.lwm = w.lwm) : Keeps v v' where
  room hv := by rw [VCtx.height, hs]; exact h.room hv
  lwm := hl ▸ h.lwm
  height hv := by rw [hl, VCtx.height, hs]; exact h.height hv
  same hv k hk := by rw [VCtx.slot, hs]; exact h.same hv k (hl ▸ hk)

theorem Keeps.congr_left (h : Keeps w v') (hs : w.stack = v.stack) (hl : w.lwm = v.lwm) : Keeps v v' :=
  ((Keeps.refl v).congr hs hl).trans h

theorem Keeps.of_eq (hs : v'.stack = v.stack) (hl : v'.lwm = v.lwm) : Keeps v v' := (Keeps.refl v).congr hs hl

/-- `wah_type_stack_push` -/
theorem keeps_push (hv : v.height < maxTypeStackSize) (t : Ty) (n : Nat) :
    Keeps v { v with stack := t :: v.stack, maxStackDepth := n } where
  room _ := hv
  lwm := le_rfl
  height h := h.trans (Nat.le_succ _)
  same h k hk := by
    have hlt : k < v.stack.reverse.length := by rw [List.length_reverse]; exact hk.trans_le h
    simp only [VCtx.slot, List.reverse_cons, List.getElem?_append_left hlt]

/-- `wah_type_stack_pop` -/
theorem keeps_pop {t : Ty} {ts : List Ty} (hs : v.stack = t :: ts) :
    Keeps v { v with stack := ts, lwm := min v.lwm ts.length } where
  room hv := by
    rw [VCtx.height, hs, List.length_cons] at hv
    exact (Nat.le_succ _).trans hv
  lwm := min_le_left _ _
  height _ := min_le_right _ _
  same _ k hk := by
    have hlt : k < ts.reverse.length := by rw [List.length_reverse]; exact hk.trans_le (min_le_right _ _)
    simp only [VCtx.slot, hs, List.reverse_cons, List.getElem?_append_left hlt]

/-- `wah_type_stack_truncate` -/
theorem keeps_truncate (v : VCtx) (sp : Nat) : Keeps v (v.truncate sp) where
  room hv := by
    simp only [VCtx.truncate, VCtx.height, List.length_drop] at hv ⊢
    omega
  lwm := min_le_left _ _
  height h := by
    simp only [VCtx.truncate, VCtx.height, List.length_drop] at h ⊢
    omega
  same h k hk := by
    simp only [VCtx.truncate, VCtx.height, VCtx.slot, List.reverse_drop] at h hk ⊢
    rw [List.getElem?_take_of_lt (by omega)]

/-- a move that leaves control and the undo list alone -/
structure Moves (v v' : VCtx) : Prop extends Keeps v v' where
  ctrl : v'.ctrl = v.ctrl
  undo : v'.undo = v.undo

theorem Moves.refl (v : VCtx) : Moves v v := ⟨.refl v, rfl, rfl⟩

theorem Moves.trans (h : Moves v w) (h' : Moves w v') : Moves v v' :=
  ⟨h.toKeeps.trans h'.toKeeps, h'.ctrl.trans h.ctrl, h'.undo.trans h.undo⟩

theorem popType_moves {t : Ty} (h : v.popType = .ok (t, v')) : Moves v v' := by
  unfold VCtx.popType at h
  split_ifs at h
  · obtain ⟨-, rfl⟩ := Prod.mk.inj (Except.ok.inj h)
    exact Moves.refl v
  · split at h
    · cases h
    · rename_i a ts hs
      obtain ⟨-, rfl⟩ := Prod.mk.inj (Except.ok.inj h)
      exact ⟨keeps_pop hs, rfl, rfl⟩

theorem pushType_moves {t : Ty} (h : v.pushType t = .ok v') : Moves v v' := by
  unfold VCtx.pushType at h
  split_ifs at h with hroom
  obtain rfl := Except.ok.inj h
  exact ⟨keeps_push hroom t _, rfl, rfl⟩

theorem popMatch_moves {t : Ty} (h : v.popMatch M t = .ok v') : Moves v v' := by
  simp only [VCtx.popMatch, bind_eq_ok, pure_eq_ok, ensure_eq_ok] at h
  obtain ⟨⟨a, w⟩, hpop, -, -, rfl⟩ := h
  exact popType_moves hpop

theorem popMatches_moves {ts : List Ty} (h : v.popMatches M ts = .ok v') : Moves v v' := by
  induction ts generalizing v with
  | nil =>
    obtain rfl := Except.ok.inj h
    exact Moves.refl v
  | cons t ts ih =>
    simp only [VCtx.popMatches, bind_eq_ok] at h
    obtain ⟨w, hpop, hrest⟩ := h
    exact (popMatch_moves hpop).trans (ih hrest)

theorem pushTypes_moves {ts : List Ty} (h : v.pushTypes ts = .ok v') : Moves v v' := by
  induction ts generalizing v with
  | nil =>
    obtain rfl := Except.ok.inj h
    exact Moves.refl v
  | cons t ts ih =>
    simp only [VCtx.pushTypes, bind_eq_ok] at h
    obtain ⟨w, hpush, hrest⟩ := h
    exact (pushType_moves hpush).trans (ih hrest)

theorem markUnreachable_moves (v : VCtx) : Moves v v.markUnreachable := by
  unfold VCtx.markUnreachable
  split_ifs
  · exact ⟨(keeps_truncate v v.baseHeight).congr rfl rfl, rfl, rfl⟩
  · exact ⟨Keeps.of_eq rfl rfl, rfl, rfl⟩

theorem popRef_moves {t : Ty} (h : popRef v = .ok (t, v')) : Moves v v' := by
  simp only [popRef, bind_eq_ok, pure_eq_ok, ensure_eq_ok] at h
  obtain ⟨⟨a, w⟩, hpop, -, -, heq⟩ := h
  obtain ⟨rfl, rfl⟩ := Prod.mk.inj heq
  exact popType_moves hpop

theorem popCastOperand_moves {x : HeapTy} (h : popCastOperand M v x = .ok v') : Moves v v' := by
  simp only [popCastOperand, bind_eq_ok, pure_eq_ok, ensure_eq_ok] at h
  obtain ⟨-, -, ⟨a, w⟩, hpop, -, -, rfl⟩ := h
  exact popRef_moves hpop

theorem popFields_moves {fs : List Ty} (h : popFields M v fs = .ok v') : Moves v v' := by
  simp only [popFields, bind_eq_ok, ensure_eq_ok] at h
  obtain ⟨-, -, hpop⟩ := h
  exact popMatches_moves hpop

theorem popLabel_moves {ts : List Ty} (h : popLabel M v ts = .ok v') : Moves v v' := by
  unfold popLabel at h
  split_ifs at h
  · obtain rfl := Except.ok.inj h
    exact Moves.refl v
  · exact popMatches_moves h

theorem popTypes_moves {ts as : List Ty} (h : popTypes M v ts = .ok (as, v')) : Moves v v' := by
  induction ts generalizing v as with
  | nil =>
    obtain ⟨-, rfl⟩ := Prod.mk.inj (Except.ok.inj h)
    exact Moves.refl v
  | cons t ts ih =>
    simp only [popTypes, bind_eq_ok, pure_eq_ok, ensure_eq_ok] at h
    obtain ⟨⟨a, w⟩, hpop, -, -, ⟨bs, w'⟩, hrest, heq⟩ := h
    obtain ⟨-, rfl⟩ := Prod.mk.inj heq
    exact (popType_moves hpop).trans (ih hrest)

theorem popBrTable_moves {ts : List Ty} {recs : List (List Ty × Nat × Nat)} (h : popBrTable M v ts recs = .ok v') :
    Moves v v' := by
  unfold popBrTable at h
  split_ifs at h
  · simp only [bind_eq_ok, pure_eq_ok, ensure_eq_ok] at h
    obtain ⟨⟨as, w⟩, hpop, -, -, rfl⟩ := h
    exact popTypes_moves hpop
  · obtain rfl := Except.ok.inj h
    exact Moves.refl v

theorem noteData_moves (p : PlainOp) (v : VCtx) : Moves v (p.noteData v) := by
  obtain ⟨hc, -, hs, hu, -, hl⟩ := noteData_fields p v
  exact ⟨Keeps.of_eq hs hl, hc, hu⟩

theorem validateData_moves {d : DataOp} (h : validateData M v d = .ok v') : Moves v v' := by
  cases d with
  | plain p =>
    simp only [validateData, bind_eq_ok] at h
    obtain ⟨⟨pops, pushes⟩, -, w, hpop, hpush⟩ := h
    exact ((popMatches_moves hpop).trans (noteData_moves p w)).trans (pushTypes_moves hpush)
  | structNew t =>
    simp only [validateData, bind_eq_ok] at h
    obtain ⟨td, -, w, hpop, hpush⟩ := h
    exact (popFields_moves hpop).trans (pushType_moves hpush)
  | arrayNewFixed t n =>
    simp only [validateData, bind_eq_ok] at h
    obtain ⟨td, -, et, -, w, hpop, hpush⟩ := h
    exact (popFields_moves hpop).trans (pushType_moves hpush)
  | drop =>
    simp only [validateData, bind_eq_ok, pure_eq_ok] at h
    obtain ⟨⟨t, w⟩, hpop, rfl⟩ := h
    exact popType_moves hpop
  | select =>
    simp only [validateData, bind_eq_ok, ensure_eq_ok] at h
    obtain ⟨w₁, hcond, ⟨b, w₂⟩, hb, ⟨a, w₃⟩, ha, -, -, -, -, hpush⟩ := h
    exact (((popMatch_moves hcond).trans (popType_moves hb)).trans (popType_moves ha)).trans (pushType_moves hpush)
  | refIsNull =>
    simp only [validateData, bind_eq_ok] at h
    obtain ⟨⟨t, w⟩, hpop, hpush⟩ := h
    exact (popRef_moves hpop).trans (pushType_moves hpush)
  | arrayLen =>
    simp only [validateData, bind_eq_ok] at h
    obtain ⟨⟨t, w⟩, hpop, -, -, hpush⟩ := h
    exact (popType_moves hpop).trans (pushType_moves hpush)
  | refAsNonNull =>
    simp only [validateData, bind_eq_ok] at h
    obtain ⟨⟨t, w⟩, hpop, hpush⟩ := h
    exact (popRef_moves hpop).trans (pushType_moves hpush)
  | refTest null x =>
    simp only [validateData, bind_eq_ok] at h
    obtain ⟨w, hpop, hpush⟩ := h
    exact (popCastOperand_moves hpop).trans (pushType_moves hpush)
  | refCast null x =>
    simp only [validateData, bind_eq_ok] at h
    obtain ⟨w, hpop, hpush⟩ := h
    exact (popCastOperand_moves hpop).trans (pushType_moves hpush)

theorem validateBr_moves {ft : FuncType} {l keep drop : Nat} {isBrIf : Bool}
    (h : validateBr M ft v l isBrIf = .ok (v', keep, drop)) : Moves v v' := by
  simp only [validateBr, bind_eq_ok, pure_eq_ok, Prod.mk.injEq] at h
  obtain ⟨⟨ts, height⟩, -, kd, -, -, -, w, hpop, u, hafter, rfl, -, -⟩ := h
  have hleft : Moves w u := by
    unfold afterBr at hafter
    split_ifs at hafter
    · exact pushTypes_moves hafter
    · obtain rfl := Except.ok.inj hafter
      exact markUnreachable_moves w
  exact (popLabel_moves hpop).trans hleft

theorem validateBrTable_moves {ft : FuncType} {ls : List Nat} {d : Nat} {imm : BrTableImm}
    (h : validateBrTable M ft v ls d = .ok (v', imm)) : Moves v v' := by
  simp only [validateBrTable, bind_eq_ok, pure_eq_ok, Prod.mk.injEq] at h
  obtain ⟨-, -, w, hindex, ⟨ts, height⟩, -, recs, -, u, hpop, rfl, -⟩ := h
  exact ((popMatch_moves hindex).trans (popBrTable_moves hpop)).trans (markUnreachable_moves u)

theorem validateBrOnNull_moves {ft : FuncType} {l keep drop : Nat} {nonNull : Bool}
    (h : validateBrOnNull M ft v l nonNull = .ok (v', keep, drop)) : Moves v v' := by
  simp only [validateBrOnNull, bind_eq_ok, pure_eq_ok, Prod.mk.injEq] at h
  obtain ⟨-, -, ⟨t, w⟩, href, ⟨ts, height⟩, -, -, -, kd, -, u, hpop, x, hpush, rfl, -, -⟩ := h
  exact ((popRef_moves href).trans (popMatches_moves hpop)).trans (pushTypes_moves hpush)

theorem validateBrOnCast_moves {ft : FuncType} {fail : Bool} {c : CastArgs} {keep drop : Nat}
    (h : validateBrOnCast M ft v fail c = .ok (v', keep, drop)) : Moves v v' := by
  simp only [validateBrOnCast, bind_eq_ok, pure_eq_ok, Prod.mk.injEq] at h
  obtain ⟨-, -, -, -, -, -, -, -, w, href, ⟨ts, height⟩, -, last, -, -, -, kd, -, u, hpop, x, hpush, y, hlast, rfl, -,
    -⟩ := h
  exact (((popMatch_moves href).trans (popMatches_moves hpop)).trans (pushTypes_moves hpush)).trans
    (pushType_moves hlast)

/-! ## Frames -/

/-- a frame is opened, which remembers the length of the undo list -/
structure OpensInits (v v' : VCtx) : Prop extends Keeps v v' where
  depth : v.ctrl.length < maxControlDepth
  undo : v'.undo = v.undo
  ctrl : ∃ f, v'.ctrl = f :: v.ctrl ∧ f.undoBase = v.undo.length

theorem openFrame_inits {opcode : FrameOp} {bt : BlockType} (h : openFrame M v opcode bt = .ok v') :
    OpensInits v v' := by
  simp only [openFrame, bind_eq_ok, pure_eq_ok, ensureLimit_eq_ok] at h
  obtain ⟨-, hdepth, ⟨params, results⟩, -, w, hpop, u, hpush, rfl⟩ := h
  have hpops := popMatches_moves hpop
  have hpushes := pushTypes_moves hpush
  have hopened : Keeps w u := hpushes.toKeeps.congr_left rfl rfl
  exact ⟨(hpops.toKeeps.trans hopened).congr rfl rfl, hdepth, hpushes.undo.trans hpops.undo, _,
    hpushes.ctrl.trans (congrArg _ hpops.ctrl), congrArg List.length hpops.undo⟩

theorem validateTryTable_inits {ft : FuncType} {bt : BlockType} {cs : List CatchClause} {ds : List DCatch}
    (h : validateTryTable M ft v bt cs = .ok (v', ds)) : OpensInits v v' := by
  simp only [validateTryTable, bind_eq_ok, pure_eq_ok, ensureLimit_eq_ok, Prod.mk.injEq] at h
  obtain ⟨-, hdepth, ⟨params, results⟩, -, -, -, w, hpop, ⟨u, ds'⟩, hcatches, u', hpush, rfl, rfl⟩ := h
  have hpops := popMatches_moves hpop
  have hpushes := pushTypes_moves hpush
  obtain ⟨hnotes, -⟩ := validateCatches_spec (v := w) rfl hcatches
  have hopened : Keeps w u := Keeps.of_eq hnotes.stack hnotes.lwm
  exact ⟨((hpops.toKeeps.trans hopened).trans hpushes.toKeeps).congr rfl rfl, hdepth,
    (hpushes.undo.trans hnotes.undo).trans hpops.undo, _,
    hpushes.ctrl.trans (hnotes.ctrl.trans (congrArg _ hpops.ctrl)), congrArg List.length hpops.undo⟩

/-- the undo list cut back to where a frame began -/
def VCtx.undoTo (v : VCtx) (f : CtrlFrame) : List Nat := v.undo.drop (v.undo.length - f.undoBase)

/-- the results of a frame are popped, and its locals forgotten -/
theorem closeResults_inits {f : CtrlFrame} (h : closeResults M v f = .ok v') :
    Keeps v v' ∧ v'.ctrl = v.ctrl ∧ v'.undo = v.undoTo f := by
  simp only [closeResults, bind_eq_ok, pure_eq_ok, ensure_eq_ok] at h
  obtain ⟨w, hpop, -, -, rfl⟩ := h
  have hpops := popMatches_moves hpop
  refine ⟨(hpops.toKeeps.trans (keeps_truncate w f.stackHeight)).congr rfl rfl, hpops.ctrl, ?_⟩
  show w.undo.drop (w.undo.length - f.undoBase) = _
  rw [hpops.undo]
  rfl

theorem validateElse_inits (h : validateElse M v = .ok v') : Keeps v v' ∧ ∃ f fs, v.ctrl = f :: fs ∧
    v'.ctrl = { f with elseFound := true } :: fs ∧ v'.undo = v.undoTo f := by
  unfold validateElse at h
  split at h
  · cases h
  · rename_i f fs hctrl
    simp only [bind_eq_ok, pure_eq_ok] at h
    obtain ⟨-, -, w, hclose, u, hpush, rfl⟩ := h
    obtain ⟨hkeeps, -, hundo⟩ := closeResults_inits hclose
    have hpushes := pushTypes_moves hpush
    have hopened : Keeps w u := hpushes.toKeeps.congr_left rfl rfl
    exact ⟨(hkeeps.trans hopened).congr rfl rfl, f, fs, hctrl, hpushes.ctrl, hpushes.undo.trans hundo⟩

theorem validateEnd_inits (h : validateEnd M v = .ok v') : Keeps v v' ∧ ∃ f fs, v.ctrl = f :: fs ∧ v'.ctrl = fs ∧
    v'.undo = v.undoTo f := by
  unfold validateEnd at h
  split at h
  · cases h
  · rename_i f fs hctrl
    simp only [bind_eq_ok] at h
    obtain ⟨-, -, w, hclose, hpush⟩ := h
    obtain ⟨hkeeps, -, hundo⟩ := closeResults_inits hclose
    have hpushes := pushTypes_moves hpush
    have hleft : Keeps w v' := hpushes.toKeeps.congr_left rfl rfl
    exact ⟨hkeeps.trans hleft, f, fs, hctrl, hpushes.ctrl, hpushes.undo.trans hundo⟩

theorem initLocal_keeps (C : FuncCtx) (v : VCtx) (n : Nat) (t : Ty) :
    Keeps v (v.initLocal C n t) ∧ (v.initLocal C n t).ctrl = v.ctrl := by
  obtain ⟨hctrl, -, hstack, hlwm, -⟩ := initLocal_fields C v n t
  exact ⟨Keeps.of_eq hstack hlwm, hctrl⟩

theorem initLocal_undo_congr {C : FuncCtx} (h : w.undo = v.undo) (n : Nat) (t : Ty) :
    (w.initLocal C n t).undo = (v.initLocal C n t).undo := by
  unfold VCtx.initLocal
  rw [h]
  split_ifs
  · rfl
  · exact h

/-! ## Instructions -/

/-- what an instruction does to the undo list and the frames -/
def InitEffect (C : FuncCtx) (v v' : VCtx) : Instr → Prop
  | .block _ | .loop _ | .if_ _ | .tryTable _ _ =>
    v.ctrl.length < maxControlDepth ∧ v'.undo = v.undo ∧ ∃ f, v'.ctrl = f :: v.ctrl ∧ f.undoBase = v.undo.length
  | .else_ => ∃ f fs, v.ctrl = f :: fs ∧ v'.ctrl = { f with elseFound := true } :: fs ∧ v'.undo = v.undoTo f
  | .end_ => ∃ f fs, v.ctrl = f :: fs ∧ v'.ctrl = fs ∧ v'.undo = v.undoTo f
  | .localSet n | .localTee n =>
    ∃ t, C.localType n = some t ∧ v'.ctrl = v.ctrl ∧ v'.undo = (v.initLocal C n t).undo
  | _ => v'.ctrl = v.ctrl ∧ v'.undo = v.undo

/-- every instruction moves the stack by pushes, pops and truncations -/
theorem validateOpcode_effect {i : Instr} {d : Option DOp} (h : validateOpcode C v i = .ok (v', d)) :
    Keeps v v' ∧ InitEffect C v v' i := by
  have hplain (hmoves : Moves v v') : Keeps v v' ∧ v'.ctrl = v.ctrl ∧ v'.undo = v.undo :=
    ⟨hmoves.toKeeps, hmoves.ctrl, hmoves.undo⟩
  unfold validateOpcode at h
  cases i with
  | data d =>
    simp only [bind_eq_ok, pure_eq_ok, Prod.mk.injEq] at h
    obtain ⟨w, hdata, rfl, -⟩ := h
    exact hplain (validateData_moves hdata)
  | nop =>
    obtain ⟨rfl, -⟩ := Prod.mk.inj (pure_eq_ok.mp h)
    exact hplain (.refl v)
  | anyConvertExtern | externConvertAny =>
    simp only [bind_eq_ok, pure_eq_ok, Prod.mk.injEq] at h
    obtain ⟨⟨t, w⟩, hpop, -, -, u, hpush, rfl, -⟩ := h
    exact hplain ((popType_moves hpop).trans (pushType_moves hpush))
  | localGet n =>
    simp only [bind_eq_ok, pure_eq_ok, Prod.mk.injEq] at h
    obtain ⟨t, -, -, -, w, hpush, rfl, -⟩ := h
    exact hplain (pushType_moves hpush)
  | localSet n =>
    simp only [bind_eq_ok, pure_eq_ok, Prod.mk.injEq, look_eq_ok] at h
    obtain ⟨t, ht, w, hpop, rfl, -⟩ := h
    have hpops := popMatch_moves hpop
    obtain ⟨hkeeps, hctrl⟩ := initLocal_keeps C w n t
    exact ⟨hpops.toKeeps.trans hkeeps, t, ht, hctrl.trans hpops.ctrl, initLocal_undo_congr hpops.undo n t⟩
  | localTee n =>
    simp only [bind_eq_ok, pure_eq_ok, Prod.mk.injEq, look_eq_ok] at h
    obtain ⟨t, ht, w, hpop, u, hpush, rfl, -⟩ := h
    have hmoves := (popMatch_moves hpop).trans (pushType_moves hpush)
    obtain ⟨hkeeps, hctrl⟩ := initLocal_keeps C u n t
    exact ⟨hmoves.toKeeps.trans hkeeps, t, ht, hctrl.trans hmoves.ctrl, initLocal_undo_congr hmoves.undo n t⟩
  | unreachable =>
    obtain ⟨rfl, -⟩ := Prod.mk.inj (pure_eq_ok.mp h)
    exact hplain (markUnreachable_moves v)
  | block bt | loop bt =>
    simp only [bind_eq_ok, pure_eq_ok, Prod.mk.injEq] at h
    obtain ⟨w, hopen, rfl, -⟩ := h
    have hopens := openFrame_inits hopen
    exact ⟨hopens.toKeeps, hopens.depth, hopens.undo, hopens.ctrl⟩
  | if_ bt =>
    simp only [bind_eq_ok, pure_eq_ok, Prod.mk.injEq] at h
    obtain ⟨w, hcond, u, hopen, rfl, -⟩ := h
    have hpops := popMatch_moves hcond
    have hopens := openFrame_inits hopen
    obtain ⟨f, hctrl, hbase⟩ := hopens.ctrl
    exact ⟨hpops.toKeeps.trans hopens.toKeeps, hpops.ctrl ▸ hopens.depth, hopens.undo.trans hpops.undo, f,
      by rw [hctrl, hpops.ctrl], by rw [hbase, hpops.undo]⟩
  | else_ =>
    simp only [bind_eq_ok, pure_eq_ok, Prod.mk.injEq] at h
    obtain ⟨w, helse, rfl, -⟩ := h
    exact validateElse_inits helse
  | end_ =>
    simp only [bind_eq_ok, pure_eq_ok, Prod.mk.injEq] at h
    obtain ⟨w, hend, rfl, -⟩ := h
    exact validateEnd_inits hend
  | tryTable bt cs =>
    simp only [bind_eq_ok, pure_eq_ok, Prod.mk.injEq] at h
    obtain ⟨⟨w, ds⟩, htry, rfl, -⟩ := h
    have hopens := validateTryTable_inits htry
    exact ⟨hopens.toKeeps, hopens.depth, hopens.undo, hopens.ctrl⟩
  | br l =>
    simp only [bind_eq_ok, pure_eq_ok, Prod.mk.injEq] at h
    obtain ⟨-, -, ⟨w, keep, drop⟩, hbr, rfl, -⟩ := h
    exact hplain (validateBr_moves hbr)
  | brIf l =>
    simp only [bind_eq_ok, pure_eq_ok, Prod.mk.injEq] at h
    obtain ⟨-, -, w, hcond, ⟨u, keep, drop⟩, hbr, rfl, -⟩ := h
    exact hplain ((popMatch_moves hcond).trans (validateBr_moves hbr))
  | brTable ls d =>
    simp only [bind_eq_ok, pure_eq_ok, Prod.mk.injEq] at h
    obtain ⟨⟨w, imm⟩, htable, rfl, -⟩ := h
    exact hplain (validateBrTable_moves htable)
  | return_ =>
    simp only [bind_eq_ok, pure_eq_ok, Prod.mk.injEq] at h
    obtain ⟨-, -, w, hpop, rfl, -⟩ := h
    exact hplain ((popLabel_moves hpop).trans (markUnreachable_moves w))
  | brOnNull l | brOnNonNull l =>
    simp only [bind_eq_ok, pure_eq_ok, Prod.mk.injEq] at h
    obtain ⟨⟨w, keep, drop⟩, hbr, rfl, -⟩ := h
    exact hplain (validateBrOnNull_moves hbr)
  | brOnCast fail c =>
    simp only [bind_eq_ok, pure_eq_ok, Prod.mk.injEq] at h
    obtain ⟨⟨w, keep, drop⟩, hbr, rfl, -⟩ := h
    exact hplain (validateBrOnCast_moves hbr)
  | call c =>
    simp only [bind_eq_ok, pure_eq_ok, Prod.mk.injEq] at h
    obtain ⟨⟨pre, ft⟩, -, w, hpop, u, hpush, rfl, -⟩ := h
    exact hplain ((popMatches_moves hpop).trans (pushTypes_moves hpush))
  | returnCall c =>
    simp only [bind_eq_ok, pure_eq_ok, Prod.mk.injEq] at h
    obtain ⟨⟨pre, ft⟩, -, w, hpop, -, -, u, hargs, rfl, -⟩ := h
    exact hplain (((popMatches_moves hpop).trans (popMatches_moves hargs)).trans (markUnreachable_moves u))
  | throw tag =>
    simp only [bind_eq_ok, pure_eq_ok, Prod.mk.injEq] at h
    obtain ⟨ft, -, w, hpop, rfl, -⟩ := h
    exact hplain ((popMatches_moves hpop).trans (markUnreachable_moves w))
  | throwRef =>
    simp only [bind_eq_ok, pure_eq_ok, Prod.mk.injEq] at h
    obtain ⟨⟨t, w⟩, hpop, -, -, rfl, -⟩ := h
    exact hplain ((popType_moves hpop).trans (markUnreachable_moves w))

/-- at most as many operands and frames as there is room for -/
structure VCtx.Fits (v : VCtx) : Prop where
  stack : v.height ≤ maxTypeStackSize
  ctrl : v.ctrl.length ≤ maxControlDepth

theorem validateOpcode_fits {i : Instr} {d : Option DOp} (h : validateOpcode C v i = .ok (v', d)) (hv : v.Fits) :
    v'.Fits := by
  obtain ⟨hkeeps, heffect⟩ := validateOpcode_effect h
  refine ⟨hkeeps.room hv.stack, ?_⟩
  have hsame (hctrl : v'.ctrl = v.ctrl) : v'.ctrl.length ≤ maxControlDepth := hctrl ▸ hv.ctrl
  cases i with
  | block bt | loop bt | if_ bt | tryTable bt cs =>
    obtain ⟨hdepth, -, f, hctrl, -⟩ := heffect
    rw [hctrl]
    exact hdepth
  | else_ =>
    obtain ⟨f, fs, hctrl, hctrl', -⟩ := heffect
    have hlen := hv.ctrl
    rw [hctrl] at hlen
    rw [hctrl']
    exact hlen
  | end_ =>
    obtain ⟨f, fs, hctrl, hctrl', -⟩ := heffect
    have hlen := hv.ctrl
    rw [hctrl, List.length_cons] at hlen
    rw [hctrl']
    exact (Nat.le_succ _).trans hlen
  | localSet n | localTee n =>
    obtain ⟨t, -, hctrl, -⟩ := heffect
    exact hsame hctrl
  | _ => exact hsame heffect.1

theorem validateOpcode_keeps {i : Instr} {d : Option DOp} (h : validateOpcode C v i = .ok (v', d)) : Keeps v v' :=
  (validateOpcode_effect h).1

end

end Wah
