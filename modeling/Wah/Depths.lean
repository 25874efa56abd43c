/-
How deep the operand stack gets: what the validator records, from one instruction to the next.

`max_stack_depth` never falls, and stays above the height of the stack, in dead code as well (`Noted`). So the height at
any point of an accepted body is within the depth its `code_body` is given (`Steps.height_le`).
-/
import Wah.Trace

namespace Wah

/-- the recorded depth does not fall, and stays above the height -/
structure Noted (v v' : VCtx) : Prop where
  mono : v.maxStackDepth ≤ v'.maxStackDepth
  above : v.height ≤ v.maxStackDepth → v'.height ≤ v'.maxStackDepth

section

variable {M : Module} {C : FuncCtx} {v v' w : VCtx}

theorem Noted.trans (h : Noted v w) (h' : Noted w v') : Noted v v' :=
  ⟨h.mono.trans h'.mono, fun hv => h'.above (h.above hv)⟩

/-- a stack that does not grow -/
theorem Noted.of_le (hs : v'.height ≤ v.height) (hd : v.maxStackDepth ≤ v'.maxStackDepth) : Noted v v' :=
  ⟨hd, fun hv => (hs.trans hv).trans hd⟩

theorem Noted.of_eq (hs : v'.stack = v.stack) (hd : v'.maxStackDepth = v.maxStackDepth) : Noted v v' :=
  .of_le (by rw [VCtx.height, VCtx.height, hs]) hd.ge

theorem Noted.refl (v : VCtx) : Noted v v := .of_eq rfl rfl

theorem Same.noted (h : Same v w) : Noted v w := .of_eq h.stack h.depth

/-- only the stack and the depth matter -/
theorem Noted.congr (h : Noted v w) (hs : v'.stack = w.stack) (hd : v'.maxStackDepth = w.maxStackDepth) : Noted v v' :=
  h.trans (.of_eq hs hd)

theorem Pops.noted {n : Nat} (h : Pops v v' n) (hs : v'.height ≤ v.height) : Noted v v' := .of_le hs h.depth.ge

theorem popType_noted {t : Ty} (h : v.popType = .ok (t, v')) : Noted v v' := by
  unfold VCtx.popType at h
  split_ifs at h
  · obtain ⟨-, rfl⟩ := Prod.mk.inj (Except.ok.inj h)
    exact .refl v
  · split at h
    · cases h
    · rename_i a ts hs
      obtain ⟨-, rfl⟩ := Prod.mk.inj (Except.ok.inj h)
      exact .of_le (by simp [VCtx.height, hs]) (Nat.le_refl _)

theorem pushType_noted {t : Ty} (h : v.pushType t = .ok v') : Noted v v' := by
  unfold VCtx.pushType at h
  split_ifs at h
  obtain rfl := Except.ok.inj h
  exact ⟨Nat.le_max_left _ _, fun _ => Nat.le_max_right _ _⟩

theorem truncate_noted (v : VCtx) (sp : Nat) : Noted v (v.truncate sp) :=
  .of_le (by simp [VCtx.truncate, VCtx.height]) (Nat.le_refl _)

theorem markUnreachable_noted (v : VCtx) : Noted v v.markUnreachable :=
  .of_le (by rw [markUnreachable_height]; exact Nat.min_le_left _ _) (markUnreachable_fields v).2.2.1.ge

theorem popMatch_noted {t : Ty} (h : v.popMatch M t = .ok v') : Noted v v' := by
  simp only [VCtx.popMatch, bind_eq_ok, pure_eq_ok, ensure_eq_ok] at h
  obtain ⟨⟨a, w⟩, hpop, -, -, rfl⟩ := h
  exact popType_noted hpop

theorem popMatches_noted {ts : List Ty} (h : v.popMatches M ts = .ok v') : Noted v v' := by
  induction ts generalizing v with
  | nil =>
    obtain rfl := Except.ok.inj h
    exact .refl v
  | cons t ts ih =>
    simp only [VCtx.popMatches, bind_eq_ok] at h
    obtain ⟨w, hpop, hrest⟩ := h
    exact (popMatch_noted hpop).trans (ih hrest)

theorem pushTypes_noted {ts : List Ty} (h : v.pushTypes ts = .ok v') : Noted v v' := by
  induction ts generalizing v with
  | nil =>
    obtain rfl := Except.ok.inj h
    exact .refl v
  | cons t ts ih =>
    simp only [VCtx.pushTypes, bind_eq_ok] at h
    obtain ⟨w, hpush, hrest⟩ := h
    exact (pushType_noted hpush).trans (ih hrest)

theorem popRef_noted {t : Ty} (h : popRef v = .ok (t, v')) : Noted v v' := by
  simp only [popRef, bind_eq_ok, pure_eq_ok, ensure_eq_ok] at h
  obtain ⟨⟨a, w⟩, hpop, -, -, heq⟩ := h
  obtain ⟨rfl, rfl⟩ := Prod.mk.inj heq
  exact popType_noted hpop

theorem popCastOperand_noted {x : HeapTy} (h : popCastOperand M v x = .ok v') : Noted v v' := by
  simp only [popCastOperand, bind_eq_ok, pure_eq_ok, ensure_eq_ok] at h
  obtain ⟨-, -, ⟨a, w⟩, hpop, -, -, rfl⟩ := h
  exact popRef_noted hpop

theorem popFields_noted {fs : List Ty} (h : popFields M v fs = .ok v') : Noted v v' := by
  simp only [popFields, bind_eq_ok, ensure_eq_ok] at h
  obtain ⟨-, -, hpop⟩ := h
  exact popMatches_noted hpop

theorem popLabel_noted {ts : List Ty} (h : popLabel M v ts = .ok v') : Noted v v' := by
  unfold popLabel at h
  split_ifs at h
  · obtain rfl := Except.ok.inj h
    exact .refl v
  · exact popMatches_noted h

theorem popTypes_noted {ts as : List Ty} (h : popTypes M v ts = .ok (as, v')) : Noted v v' := by
  induction ts generalizing v as with
  | nil =>
    obtain ⟨-, rfl⟩ := Prod.mk.inj (Except.ok.inj h)
    exact .refl v
  | cons t ts ih =>
    simp only [popTypes, bind_eq_ok, pure_eq_ok, ensure_eq_ok] at h
    obtain ⟨⟨a, w⟩, hpop, -, -, ⟨bs, w'⟩, hrest, heq⟩ := h
    obtain ⟨-, rfl⟩ := Prod.mk.inj heq
    exact (popType_noted hpop).trans (ih hrest)

theorem popBrTable_noted {ts : List Ty} {recs : List (List Ty × Nat × Nat)} (h : popBrTable M v ts recs = .ok v') :
    Noted v v' := by
  unfold popBrTable at h
  split_ifs at h
  · simp only [bind_eq_ok, pure_eq_ok, ensure_eq_ok] at h
    obtain ⟨⟨as, w⟩, hpop, -, -, rfl⟩ := h
    exact popTypes_noted hpop
  · obtain rfl := Except.ok.inj h
    exact .refl v

theorem noteData_noted (p : PlainOp) (v : VCtx) : Noted v (p.noteData v) := by
  obtain ⟨-, -, hs, -, hd, -⟩ := noteData_fields p v
  exact .of_eq hs hd

theorem initLocal_noted (v : VCtx) (n : Nat) (t : Ty) : Noted v (v.initLocal C n t) := by
  obtain ⟨-, -, hs, -, hd⟩ := initLocal_fields C v n t
  exact .of_eq hs hd

theorem validateData_noted {d : DataOp} (h : validateData M v d = .ok v') : Noted v v' := by
  cases d with
  | plain p =>
    simp only [validateData, bind_eq_ok] at h
    obtain ⟨⟨pops, pushes⟩, -, w, hpop, hpush⟩ := h
    exact ((popMatches_noted hpop).trans (noteData_noted p w)).trans (pushTypes_noted hpush)
  | structNew t =>
    simp only [validateData, bind_eq_ok] at h
    obtain ⟨td, -, w, hpop, hpush⟩ := h
    exact (popFields_noted hpop).trans (pushType_noted hpush)
  | arrayNewFixed t n =>
    simp only [validateData, bind_eq_ok] at h
    obtain ⟨td, -, et, -, w, hpop, hpush⟩ := h
    exact (popFields_noted hpop).trans (pushType_noted hpush)
  | drop =>
    simp only [validateData, bind_eq_ok, pure_eq_ok] at h
    obtain ⟨⟨t, w⟩, hpop, rfl⟩ := h
    exact popType_noted hpop
  | select =>
    simp only [validateData, bind_eq_ok, ensure_eq_ok] at h
    obtain ⟨w₁, hcond, ⟨b, w₂⟩, hb, ⟨a, w₃⟩, ha, -, -, -, -, hpush⟩ := h
    exact (((popMatch_noted hcond).trans (popType_noted hb)).trans (popType_noted ha)).trans (pushType_noted hpush)
  | refIsNull | refAsNonNull =>
    simp only [validateData, bind_eq_ok] at h
    obtain ⟨⟨t, w⟩, hpop, hpush⟩ := h
    exact (popRef_noted hpop).trans (pushType_noted hpush)
  | arrayLen =>
    simp only [validateData, bind_eq_ok] at h
    obtain ⟨⟨t, w⟩, hpop, -, -, hpush⟩ := h
    exact (popType_noted hpop).trans (pushType_noted hpush)
  | refTest null x | refCast null x =>
    simp only [validateData, bind_eq_ok] at h
    obtain ⟨w, hpop, hpush⟩ := h
    exact (popCastOperand_noted hpop).trans (pushType_noted hpush)

/-! ## Control -/

theorem validateBr_noted {ft : FuncType} {l keep drop : Nat} {isBrIf : Bool}
    (h : validateBr M ft v l isBrIf = .ok (v', keep, drop)) : Noted v v' := by
  simp only [validateBr, bind_eq_ok, pure_eq_ok, Prod.mk.injEq] at h
  obtain ⟨⟨ts, height⟩, -, kd, -, -, -, w, hpop, u, hafter, rfl, -, -⟩ := h
  have hleft : Noted w u := by
    unfold afterBr at hafter
    split_ifs at hafter
    · exact pushTypes_noted hafter
    · obtain rfl := Except.ok.inj hafter
      exact markUnreachable_noted w
  exact (popLabel_noted hpop).trans hleft

theorem validateBrTable_noted {ft : FuncType} {ls : List Nat} {d : Nat} {imm : BrTableImm}
    (h : validateBrTable M ft v ls d = .ok (v', imm)) : Noted v v' := by
  simp only [validateBrTable, bind_eq_ok, pure_eq_ok, Prod.mk.injEq] at h
  obtain ⟨-, -, w, hindex, ⟨ts, height⟩, -, recs, -, u, hpop, rfl, -⟩ := h
  exact ((popMatch_noted hindex).trans (popBrTable_noted hpop)).trans (markUnreachable_noted u)

theorem validateBrOnNull_noted {ft : FuncType} {l keep drop : Nat} {nonNull : Bool}
    (h : validateBrOnNull M ft v l nonNull = .ok (v', keep, drop)) : Noted v v' := by
  simp only [validateBrOnNull, bind_eq_ok, pure_eq_ok, Prod.mk.injEq] at h
  obtain ⟨-, -, ⟨t, w⟩, href, ⟨ts, height⟩, -, -, -, kd, -, u, hpop, x, hpush, rfl, -, -⟩ := h
  exact ((popRef_noted href).trans (popMatches_noted hpop)).trans (pushTypes_noted hpush)

theorem validateBrOnCast_noted {ft : FuncType} {fail : Bool} {c : CastArgs} {keep drop : Nat}
    (h : validateBrOnCast M ft v fail c = .ok (v', keep, drop)) : Noted v v' := by
  simp only [validateBrOnCast, bind_eq_ok, pure_eq_ok, Prod.mk.injEq] at h
  obtain ⟨-, -, -, -, -, -, -, -, w, href, ⟨ts, height⟩, -, last, -, -, -, kd, -, u, hpop, x, hpush, y, hlast, rfl, -,
    -⟩ := h
  exact (((popMatch_noted href).trans (popMatches_noted hpop)).trans (pushTypes_noted hpush)).trans
    (pushType_noted hlast)

theorem openFrame_noted {opcode : FrameOp} {bt : BlockType} (h : openFrame M v opcode bt = .ok v') : Noted v v' := by
  simp only [openFrame, bind_eq_ok, pure_eq_ok, ensureLimit_eq_ok] at h
  obtain ⟨-, -, ⟨params, results⟩, -, w, hpop, u, hpush, rfl⟩ := h
  have hpushes := pushTypes_noted hpush
  have hopened : Noted w u := ⟨hpushes.mono, hpushes.above⟩
  exact ((popMatches_noted hpop).trans hopened).congr rfl rfl

theorem validateTryTable_noted {ft : FuncType} {bt : BlockType} {cs : List CatchClause} {ds : List DCatch}
    (h : validateTryTable M ft v bt cs = .ok (v', ds)) : Noted v v' := by
  simp only [validateTryTable, bind_eq_ok, pure_eq_ok, ensureLimit_eq_ok, Prod.mk.injEq] at h
  obtain ⟨-, -, ⟨params, results⟩, -, -, -, w, hpop, ⟨u, ds'⟩, hcatches, u', hpush, rfl, rfl⟩ := h
  obtain ⟨hnotes, -⟩ := validateCatches_spec (v := w) rfl hcatches
  have hopened : Noted w u := .of_le (by rw [VCtx.height, VCtx.height, hnotes.stack]) hnotes.depth
  exact (((popMatches_noted hpop).trans hopened).trans (pushTypes_noted hpush)).congr rfl rfl

theorem closeResults_noted {f : CtrlFrame} (h : closeResults M v f = .ok v') : Noted v v' := by
  simp only [closeResults, bind_eq_ok, pure_eq_ok, ensure_eq_ok] at h
  obtain ⟨w, hpop, -, -, rfl⟩ := h
  exact ((popMatches_noted hpop).trans (truncate_noted w f.stackHeight)).congr rfl rfl

theorem validateElse_noted (h : validateElse M v = .ok v') : Noted v v' := by
  unfold validateElse at h
  split at h
  · cases h
  · simp only [bind_eq_ok, pure_eq_ok] at h
    obtain ⟨-, -, w, hclose, u, hpush, rfl⟩ := h
    have hpushes := pushTypes_noted hpush
    have hopened : Noted w u := ⟨hpushes.mono, hpushes.above⟩
    exact ((closeResults_noted hclose).trans hopened).congr rfl rfl

theorem validateEnd_noted (h : validateEnd M v = .ok v') : Noted v v' := by
  unfold validateEnd at h
  split at h
  · cases h
  · simp only [bind_eq_ok] at h
    obtain ⟨-, -, w, hclose, hpush⟩ := h
    have hpushes := pushTypes_noted hpush
    have hleft : Noted w v' := ⟨hpushes.mono, hpushes.above⟩
    exact (closeResults_noted hclose).trans hleft

/-- **Every instruction** keeps the recorded depth above the height. -/
theorem validateOpcode_noted {i : Instr} {d : Option DOp} (h : validateOpcode C v i = .ok (v', d)) : Noted v v' := by
  unfold validateOpcode at h
  cases i with
  | data d =>
    simp only [bind_eq_ok, pure_eq_ok, Prod.mk.injEq] at h
    obtain ⟨w, hdata, rfl, -⟩ := h
    exact validateData_noted hdata
  | nop =>
    obtain ⟨rfl, -⟩ := Prod.mk.inj (pure_eq_ok.mp h)
    exact .refl v
  | anyConvertExtern | externConvertAny =>
    simp only [bind_eq_ok, pure_eq_ok, Prod.mk.injEq] at h
    obtain ⟨⟨t, w⟩, hpop, -, -, u, hpush, rfl, -⟩ := h
    exact (popType_noted hpop).trans (pushType_noted hpush)
  | localGet n =>
    simp only [bind_eq_ok, pure_eq_ok, Prod.mk.injEq] at h
    obtain ⟨t, -, -, -, w, hpush, rfl, -⟩ := h
    exact pushType_noted hpush
  | localSet n =>
    simp only [bind_eq_ok, pure_eq_ok, Prod.mk.injEq] at h
    obtain ⟨t, -, w, hpop, rfl, -⟩ := h
    exact (popMatch_noted hpop).trans (initLocal_noted w n t)
  | localTee n =>
    simp only [bind_eq_ok, pure_eq_ok, Prod.mk.injEq] at h
    obtain ⟨t, -, w, hpop, u, hpush, rfl, -⟩ := h
    exact ((popMatch_noted hpop).trans (pushType_noted hpush)).trans (initLocal_noted u n t)
  | unreachable =>
    obtain ⟨rfl, -⟩ := Prod.mk.inj (pure_eq_ok.mp h)
    exact markUnreachable_noted v
  | block bt | loop bt =>
    simp only [bind_eq_ok, pure_eq_ok, Prod.mk.injEq] at h
    obtain ⟨w, hopen, rfl, -⟩ := h
    exact openFrame_noted hopen
  | if_ bt =>
    simp only [bind_eq_ok, pure_eq_ok, Prod.mk.injEq] at h
    obtain ⟨w, hcond, u, hopen, rfl, -⟩ := h
    exact (popMatch_noted hcond).trans (openFrame_noted hopen)
  | else_ =>
    simp only [bind_eq_ok, pure_eq_ok, Prod.mk.injEq] at h
    obtain ⟨w, helse, rfl, -⟩ := h
    exact validateElse_noted helse
  | end_ =>
    simp only [bind_eq_ok, pure_eq_ok, Prod.mk.injEq] at h
    obtain ⟨w, hend, rfl, -⟩ := h
    exact validateEnd_noted hend
  | tryTable bt cs =>
    simp only [bind_eq_ok, pure_eq_ok, Prod.mk.injEq] at h
    obtain ⟨⟨w, ds⟩, htry, rfl, -⟩ := h
    exact validateTryTable_noted htry
  | br l =>
    simp only [bind_eq_ok, pure_eq_ok, Prod.mk.injEq] at h
    obtain ⟨-, -, ⟨w, keep, drop⟩, hbr, rfl, -⟩ := h
    exact validateBr_noted hbr
  | brIf l =>
    simp only [bind_eq_ok, pure_eq_ok, Prod.mk.injEq] at h
    obtain ⟨-, -, w, hcond, ⟨u, keep, drop⟩, hbr, rfl, -⟩ := h
    exact (popMatch_noted hcond).trans (validateBr_noted hbr)
  | brTable ls d =>
    simp only [bind_eq_ok, pure_eq_ok, Prod.mk.injEq] at h
    obtain ⟨⟨w, imm⟩, htable, rfl, -⟩ := h
    exact validateBrTable_noted htable
  | return_ =>
    simp only [bind_eq_ok, pure_eq_ok, Prod.mk.injEq] at h
    obtain ⟨-, -, w, hpop, rfl, -⟩ := h
    exact (popLabel_noted hpop).trans (markUnreachable_noted w)
  | brOnNull l | brOnNonNull l =>
    simp only [bind_eq_ok, pure_eq_ok, Prod.mk.injEq] at h
    obtain ⟨⟨w, keep, drop⟩, hbr, rfl, -⟩ := h
    exact validateBrOnNull_noted hbr
  | brOnCast fail c =>
    simp only [bind_eq_ok, pure_eq_ok, Prod.mk.injEq] at h
    obtain ⟨⟨w, keep, drop⟩, hbr, rfl, -⟩ := h
    exact validateBrOnCast_noted hbr
  | call c =>
    simp only [bind_eq_ok, pure_eq_ok, Prod.mk.injEq] at h
    obtain ⟨⟨pre, ft⟩, -, w, hpop, u, hpush, rfl, -⟩ := h
    exact (popMatches_noted hpop).trans (pushTypes_noted hpush)
  | returnCall c =>
    simp only [bind_eq_ok, pure_eq_ok, Prod.mk.injEq] at h
    obtain ⟨⟨pre, ft⟩, -, w, hpop, -, -, u, hargs, rfl, -⟩ := h
    exact ((popMatches_noted hpop).trans (popMatches_noted hargs)).trans (markUnreachable_noted u)
  | throw tag =>
    simp only [bind_eq_ok, pure_eq_ok, Prod.mk.injEq] at h
    obtain ⟨ft, -, w, hpop, rfl, -⟩ := h
    exact (popMatches_noted hpop).trans (markUnreachable_noted w)
  | throwRef =>
    simp only [bind_eq_ok, pure_eq_ok, Prod.mk.injEq] at h
    obtain ⟨⟨t, w⟩, hpop, -, -, rfl, -⟩ := h
    exact (popType_noted hpop).trans (markUnreachable_noted w)

/-! ## Bodies -/

theorem step_noted {s s' : AState} {i : Instr} (h : s.step C i = .ok s') : Noted s.v s'.v := by
  simp only [AState.step, bind_eq_ok, pure_eq_ok] at h
  obtain ⟨⟨w, d⟩, hop, rfl⟩ := h
  have hprepare := (prepare_fields C s i).1.noted
  have hemit := (emit_fields { (s.prepare C i).1 with v := w } (s.prepare C i).2 d).1.noted
  exact (hprepare.trans (validateOpcode_noted hop)).trans hemit

theorem Steps.noted {s s' : AState} {is : List Instr} (h : Steps C s is s') : Noted s.v s'.v := by
  induction h with
  | nil s => exact .refl s.v
  | cons _ h _ ih => exact (step_noted h).trans ih

/-- the height is within the recorded depth, which is part of that of the whole body -/
theorem Steps.height_le {s s' : AState} {is is' : List Instr} (h : Steps C {} is s) (h' : Steps C s is' s') :
    s.v.height ≤ s'.v.maxStackDepth :=
  (h.noted.above (Nat.le_refl _)).trans h'.noted.mono

/-- the depth of a body is the last one recorded -/
theorem finish_depth {s : AState} {A : Analyzed} (h : s.finish C = .ok A) : A.maxStackDepth = s.v.maxStackDepth := by
  simp only [AState.finish, bind_eq_ok, ensure_eq_ok, pure_eq_ok] at h
  obtain ⟨w, hp, -, -, rfl⟩ := h
  exact (popMatches_pops hp).depth.trans (prepare_fields C s .end_).1.depth

end

end Wah
