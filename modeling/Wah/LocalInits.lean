/-
Initialization of locals: flags and an undo list shared by the functions of a code section.

Model:
- `wah_local_inits_t` is one flag for each local, and the locals initialized so far. The validator of single opcodes reads
  the undo list of its context; `validateOpcodeFlags` reads and writes the flags as the source does;
- an analysis hands the storage on also when it fails (`analyzeFlags`), and the loop over the functions of a section grows
  it before each and reverts it after each that succeeds (`analyzeFunction`). Failing allocations are left out;
- the specification copies a set at every block (`SpecInits`).

Results: `local_inits_exact`: at every instruction the flags are the set of the specification, and after an accepted
function none is set, so functions are analyzed as if alone. A failed function leaves its flags behind
(`failed_function_keeps_flags`), in storage that is then freed.
-/
import Wah.StackMoves
import Wah.Trace

namespace Wah

/-! ## Flags -/

/-- `wah_local_inits_t`; the last initialized local comes first in `undo`, and `inits_cap` is the length of `inits` -/
structure LocalInits where
  inits : List Bool := []
  undo : List Nat := []
deriving DecidableEq, Repr

/-- `wah_local_inits_revert` -/
def revertFrom (undoBase : Nat) : List Nat → List Bool → LocalInits
  | [], inits => ⟨inits, []⟩
  | l :: undo, inits =>
    if undoBase < undo.length + 1 then revertFrom undoBase undo (inits.set l false) else ⟨inits, l :: undo⟩

def LocalInits.revert (li : LocalInits) (undoBase : Nat) : LocalInits := revertFrom undoBase li.undo li.inits

section
variable (C : FuncCtx)

/-- `wah_validation_init_local` -/
def initLocalFlags (v : VCtx) (inits : List Bool) (n : Nat) (t : Ty) : VCtx × List Bool :=
  if C.localNeedsInit n t && !(inits[n]?).getD false then ({ v with undo := n :: v.undo }, inits.set n true)
  else (v, inits)

/-- the length of the undo list at the innermost frame -/
def undoBase (v : VCtx) : Nat := (v.ctrl.head?.map CtrlFrame.undoBase).getD 0

/-- `wah_validate_opcode` on the flags: local instructions read and set them, `else` and `end` revert them -/
def validateOpcodeFlags (v : VCtx) (inits : List Bool) (i : Instr) :
    Except WahError ((VCtx × List Bool) × Option DOp) :=
  match i with
  | .localGet n => do
    let t ← look (C.localType n)
    ensure (C.localNeedsInit n t = true → (inits[n]?).getD false = true)
    let v ← v.pushType t
    return ((v, inits), some (.op i))
  | .localSet n => do
    let t ← look (C.localType n)
    let v ← v.popMatch C.module t
    return (initLocalFlags C v inits n t, some (.op i))
  | .localTee n => do
    let t ← look (C.localType n)
    let v ← v.popMatch C.module t
    let v ← v.pushType t
    return (initLocalFlags C v inits n t, some (.op i))
  | .else_ | .end_ => do
    let (v', d) ← validateOpcode C v i
    return ((v', (revertFrom (undoBase v) v.undo inits).inits), d)
  | _ => do
    let (v', d) ← validateOpcode C v i
    return ((v', inits), d)

/-- the flags and the undo list once the results of frame `f` are popped and its locals reverted, if they get there -/
def closedInits (v : VCtx) (inits : List Bool) (f : CtrlFrame) : LocalInits :=
  match closeResults C.module v f with
  | .ok _ => revertFrom f.undoBase v.undo inits
  | .error _ => ⟨inits, v.undo⟩

/-- what a failing instruction leaves: `else` and `end` can fail after their revert, when pushing -/
def failedInits (v : VCtx) (inits : List Bool) (i : Instr) : LocalInits :=
  match i, v.ctrl with
  | .else_, f :: _ =>
    if f.opcode = .if_ ∧ f.elseFound = false then closedInits C v inits f else ⟨inits, v.undo⟩
  | .end_, f :: _ =>
    if f.opcode = .if_ → f.elseFound = false → typesMatch C.module f.params f.results then closedInits C v inits f
    else ⟨inits, v.undo⟩
  | _, _ => ⟨inits, v.undo⟩

/-- one iteration of `wah_analyze_stream` -/
def stepFlags (s : AState) (inits : List Bool) (i : Instr) : Except WahError (AState × List Bool) := do
  let p := s.prepare C i
  let r ← validateOpcodeFlags C p.1.v inits i
  return ({ p.1 with v := r.1.1 }.emit p.2 r.2, r.1.2)

/-- `wah_analyze_stream`: the storage it leaves, and its outcome -/
def analyzeFlags (s : AState) (inits : List Bool) : List Instr → LocalInits × Except WahError Analyzed
  | [] => (⟨inits, s.v.undo⟩, .error .malformed)
  | i :: is =>
    if i = .end_ ∧ s.v.ctrl = [] then
      (⟨inits, s.v.undo⟩, if is = [] then s.finish C else .error .validationFailed)
    else
      match stepFlags C s inits i with
      | .error e => (failedInits C s.v inits i, .error e)
      | .ok (s, inits) => analyzeFlags s inits is

end

/-! ## Code sections -/

/-- `total_locals` -/
def FuncCtx.totalLocals (C : FuncCtx) : Nat := C.func.params.length + C.locals.length

/-- the loop of `wah_grow_array` over the new capacity -/
def growCap : Nat → Nat → Nat → Option Nat
  | 0, _, _ => none
  | fuel + 1, cap, needed =>
    if cap < needed then if cap ≤ uint32Max / 2 then growCap fuel (cap * 2) needed else none else some cap

/-- the storage before a function: flags for all its locals, new ones are 0 -/
def LocalInits.grow (li : LocalInits) (total : Nat) : Except WahError LocalInits :=
  if li.inits.length < total then
    match growCap 33 (if li.inits.length = 0 then 8 else li.inits.length) total with
    | none => .error .tooLarge
    | some cap => .ok { li with inits := li.inits ++ List.replicate (cap - li.inits.length) false }
  else .ok li

/-- the state of the analysis at the start of a function -/
def startState (li : LocalInits) : AState := { v := { undo := li.undo } }

/-- the storage a function of `wah_parse_code_section` starts with -/
def LocalInits.enter (C : FuncCtx) (li : LocalInits) : Except WahError LocalInits :=
  if maxLocalCount < C.totalLocals then .error .tooLarge else li.grow C.totalLocals

/-- one function of `wah_parse_code_section`: the storage after it, and its outcome -/
def analyzeFunction (C : FuncCtx) (body : List Instr) (li : LocalInits) : LocalInits × Except WahError Analyzed :=
  match li.enter C with
  | .error e => (li, .error e)
  | .ok li =>
    match analyzeFlags C (startState li) li.inits body with
    | (li, .ok a) => (li.revert 0, .ok a)
    | (li, .error e) => (li, .error e)

/-- the functions of `wah_parse_code_section`; the storage is freed after the first that fails -/
def analyzeFunctions : LocalInits → List (FuncCtx × List Instr) → Except WahError (LocalInits × List Analyzed)
  | li, [] => .ok (li, [])
  | li, (C, body) :: fns => do
    let (li, r) := analyzeFunction C body li
    let a ← r
    let (li, as) ← analyzeFunctions li fns
    return (li, a :: as)

/-! ## The specification -/

/-- the initialized locals, now and at the start of every open block -/
structure SpecInits where
  now : Finset Nat := ∅
  saved : List (Finset Nat) := []
deriving DecidableEq

/-- declared locals whose type has no default value -/
def FuncCtx.nonDefaultable (C : FuncCtx) (n : Nat) : Bool := (C.localType n).any (C.localNeedsInit n)

/-- blocks copy the set, `else` and `end` take the copy back -/
def SpecInits.step (C : FuncCtx) (S : SpecInits) : Instr → SpecInits
  | .block _ | .loop _ | .if_ _ | .tryTable _ _ => { S with saved := S.now :: S.saved }
  | .else_ => { S with now := S.saved.headD ∅ }
  | .end_ => ⟨S.saved.headD ∅, S.saved.tail⟩
  | .localSet n | .localTee n => if C.nonDefaultable n then { S with now := insert n S.now } else S
  | _ => S

/-- the sets after a prefix of a body -/
def specInits (C : FuncCtx) (done : List Instr) : SpecInits := done.foldl (SpecInits.step C) {}

/-! ## Flags of an undo list -/

/-- flags are set for the locals of the list, and for no other -/
def FlagsOf (inits : List Bool) (undo : List Nat) : Prop := ∀ l : Nat, inits[l]? = some true ↔ l ∈ undo

section
variable {inits : List Bool} {undo : List Nat} {l : Nat}

theorem FlagsOf.flag (h : FlagsOf inits undo) (l : Nat) : (inits[l]?).getD false = true ↔ l ∈ undo := by
  rw [← h l]
  cases inits[l]? <;> simp

theorem FlagsOf.set_true (h : FlagsOf inits undo) (hl : l < inits.length) : FlagsOf (inits.set l true) (l :: undo) := by
  intro m
  rw [List.getElem?_set, List.mem_cons]
  by_cases hm : l = m
  · subst hm
    simp [hl]
  · rw [if_neg hm, h m]
    simp [Ne.symm hm]

theorem FlagsOf.set_false (h : FlagsOf inits (l :: undo)) (hl : l ∉ undo) : FlagsOf (inits.set l false) undo := by
  intro m
  rw [List.getElem?_set]
  by_cases hm : l = m
  · subst hm
    simp [hl]
  · rw [if_neg hm, h m, List.mem_cons]
    simp [Ne.symm hm]

theorem revertFrom_undo (b : Nat) (undo : List Nat) (inits : List Bool) :
    (revertFrom b undo inits).undo = undo.drop (undo.length - b) := by
  induction undo generalizing inits with
  | nil => rw [List.drop_nil]; rfl
  | cons l undo ih =>
    unfold revertFrom
    split_ifs with h
    · rw [ih, List.length_cons, Nat.succ_sub (by omega), List.drop_succ_cons]
    · rw [List.length_cons, Nat.sub_eq_zero_of_le (by omega), List.drop_zero]

theorem revertFrom_length (b : Nat) (undo : List Nat) (inits : List Bool) :
    (revertFrom b undo inits).inits.length = inits.length := by
  induction undo generalizing inits with
  | nil => rfl
  | cons l undo ih =>
    unfold revertFrom
    split_ifs
    · rw [ih, List.length_set]
    · rfl

/-- a revert clears exactly the flags it takes off the list -/
theorem FlagsOf.revert (h : FlagsOf inits undo) (hnd : undo.Nodup) (b : Nat) :
    FlagsOf (revertFrom b undo inits).inits (undo.drop (undo.length - b)) := by
  induction undo generalizing inits with
  | nil => rw [List.drop_nil]; exact h
  | cons l undo ih =>
    obtain ⟨hl, hnd⟩ := List.nodup_cons.mp hnd
    unfold revertFrom
    split_ifs with hb
    · rw [List.length_cons, Nat.succ_sub (by omega), List.drop_succ_cons]
      exact ih (h.set_false hl) hnd
    · rw [List.length_cons, Nat.sub_eq_zero_of_le (by omega), List.drop_zero]
      exact h

theorem FlagsOf.unset (h : FlagsOf inits []) : ∀ flag ∈ inits, flag = false := by
  intro flag hmem
  obtain ⟨l, hl⟩ := List.mem_iff_getElem?.mp hmem
  cases flag with
  | false => rfl
  | true => exact absurd ((h l).mp hl) List.not_mem_nil

theorem flagsOf_nil (h : ∀ flag ∈ inits, flag = false) : FlagsOf inits [] := fun l =>
  ⟨fun hl => absurd (h true (List.mem_of_getElem? hl)) (by decide), fun hl => absurd hl List.not_mem_nil⟩

end

/-! ## Flags and the undo list -/

section
variable {C : FuncCtx} {v v' w : VCtx} {inits : List Bool} {i : Instr} {d : Option DOp}

/-- the flags after an accepted instruction -/
def flagsAfter (C : FuncCtx) (v : VCtx) (inits : List Bool) : Instr → List Bool
  | .localSet n | .localTee n => if C.nonDefaultable n && !(inits[n]?).getD false then inits.set n true else inits
  | .else_ | .end_ => (revertFrom (undoBase v) v.undo inits).inits
  | _ => inits

theorem nonDefaultable_eq {n : Nat} {t : Ty} (ht : C.localType n = some t) :
    C.nonDefaultable n = C.localNeedsInit n t := by
  simp [FuncCtx.nonDefaultable, ht]

theorem initLocalFlags_eq {n : Nat} {t : Ty} (h : FlagsOf inits w.undo) (ht : C.localType n = some t) :
    initLocalFlags C w inits n t = (w.initLocal C n t, flagsAfter C v inits (.localSet n)) := by
  have hflag : (inits[n]?).getD false = decide (n ∈ w.undo) := by
    rw [Bool.eq_iff_iff, h.flag n, decide_eq_true_iff]
  simp only [initLocalFlags, VCtx.initLocal, flagsAfter, nonDefaultable_eq ht, hflag]
  split_ifs <;> rfl

theorem ensure_congr {p q : Prop} [Decidable p] [Decidable q] (h : p ↔ q) : ensure p = ensure q := by
  unfold ensure
  simp only [h]

/-- the flags tell what the undo list tells, so the validator on flags is the validator on the list -/
theorem validateOpcodeFlags_eq (h : FlagsOf inits v.undo) (i : Instr) : validateOpcodeFlags C v inits i =
    (validateOpcode C v i).map fun r => ((r.1, flagsAfter C v inits i), r.2) := by
  have hrest (hflags : flagsAfter C v inits i = inits) :
      (do let (v', d) ← validateOpcode C v i; return ((v', inits), d)) =
        (validateOpcode C v i).map fun r => ((r.1, flagsAfter C v inits i), r.2) := by
    rw [hflags]
    cases validateOpcode C v i <;> rfl
  cases i with
  | localGet n =>
    simp only [validateOpcodeFlags, validateOpcode]
    cases ht : look (C.localType n) with
    | error e => rfl
    | ok t =>
      simp only [ok_bind]
      rw [ensure_congr (imp_congr_right fun _ => h.flag n)]
      cases ensure (C.localNeedsInit n t = true → n ∈ v.undo) with
      | error e => rfl
      | ok u =>
        simp only [ok_bind]
        cases v.pushType t <;> rfl
  | localSet n =>
    simp only [validateOpcodeFlags, validateOpcode]
    cases ht : look (C.localType n) with
    | error e => rfl
    | ok t =>
      simp only [ok_bind]
      cases hpop : v.popMatch C.module t with
      | error e => rfl
      | ok w =>
        have hw : FlagsOf inits w.undo := (popMatch_moves hpop).undo ▸ h
        exact congrArg (fun r => Except.ok (r, some _)) (initLocalFlags_eq hw (look_eq_ok.mp ht))
  | localTee n =>
    simp only [validateOpcodeFlags, validateOpcode]
    cases ht : look (C.localType n) with
    | error e => rfl
    | ok t =>
      simp only [ok_bind]
      cases hpop : v.popMatch C.module t with
      | error e => rfl
      | ok w =>
        simp only [ok_bind]
        cases hpush : w.pushType t with
        | error e => rfl
        | ok u =>
          have hu : FlagsOf inits u.undo := ((popMatch_moves hpop).trans (pushType_moves hpush)).undo ▸ h
          exact congrArg (fun r => Except.ok (r, some _)) (initLocalFlags_eq (v := v) hu (look_eq_ok.mp ht))
  | else_ | end_ =>
    simp only [validateOpcodeFlags]
    cases validateOpcode C v _ <;> rfl
  | _ => exact hrest rfl

end

/-! ## The invariant -/

/-- the set saved for a frame is the part of the undo list below it -/
inductive SavedInits : List Nat → List CtrlFrame → List (Finset Nat) → Prop where
  | nil (undo : List Nat) : SavedInits undo [] []
  | cons {undo : List Nat} {f : CtrlFrame} {fs : List CtrlFrame} {A : Finset Nat} {As : List (Finset Nat)}
      (base : f.undoBase ≤ undo.length) (set : ∀ l, l ∈ A ↔ l ∈ undo.drop (undo.length - f.undoBase))
      (outer : SavedInits (undo.drop (undo.length - f.undoBase)) fs As) : SavedInits undo (f :: fs) (A :: As)

theorem SavedInits.push {undo : List Nat} {fs : List CtrlFrame} {As : List (Finset Nat)} (h : SavedInits undo fs As)
    (l : Nat) : SavedInits (l :: undo) fs As := by
  cases h with
  | nil => exact .nil _
  | @cons _ f _ _ _ base set outer =>
    have hdrop : (l :: undo).drop ((l :: undo).length - f.undoBase) = undo.drop (undo.length - f.undoBase) := by
      rw [List.length_cons, Nat.succ_sub base, List.drop_succ_cons]
    exact .cons (base.trans (Nat.le_succ _)) (hdrop ▸ set) (hdrop ▸ outer)

/-- flags, undo list and frames agree with the sets of the specification -/
structure InitsInv (C : FuncCtx) (v : VCtx) (inits : List Bool) (S : SpecInits) : Prop where
  room : C.totalLocals ≤ inits.length
  flags : FlagsOf inits v.undo
  nodup : v.undo.Nodup
  needs : ∀ l ∈ v.undo, C.nonDefaultable l = true
  now : ∀ l, l ∈ S.now ↔ l ∈ v.undo
  saved : SavedInits v.undo v.ctrl S.saved

section
variable {C : FuncCtx} {v v' : VCtx} {inits : List Bool} {S : SpecInits} {i : Instr} {d : Option DOp}

/-- nothing but the frames and the undo list matters -/
theorem InitsInv.congr (h : InitsInv C v inits S) (hc : v'.ctrl = v.ctrl) (hu : v'.undo = v.undo) :
    InitsInv C v' inits S := by
  obtain ⟨room, flags, nodup, needs, now, saved⟩ := h
  rw [← hu] at flags nodup needs now saved
  rw [← hc] at saved
  exact ⟨room, flags, nodup, needs, now, saved⟩

theorem InitsInv.opens (h : InitsInv C v inits S) (hu : v'.undo = v.undo)
    (hc : ∃ f, v'.ctrl = f :: v.ctrl ∧ f.undoBase = v.undo.length) :
    InitsInv C v' inits { S with saved := S.now :: S.saved } := by
  obtain ⟨f, hctrl, hbase⟩ := hc
  have hdrop : v.undo.drop (v.undo.length - f.undoBase) = v.undo := by
    rw [hbase, Nat.sub_self, List.drop_zero]
  refine ⟨h.room, hu ▸ h.flags, hu ▸ h.nodup, hu ▸ h.needs, hu ▸ h.now, ?_⟩
  rw [hctrl, hu]
  exact .cons hbase.le (hdrop.symm ▸ h.now) (hdrop.symm ▸ h.saved)

/-- `else` and `end` go back to the set of the innermost frame -/
theorem InitsInv.closes {f : CtrlFrame} {fs : List CtrlFrame} (h : InitsInv C v inits S) (hctrl : v.ctrl = f :: fs)
    (hu : v'.undo = v.undoTo f) (hc : v'.ctrl = fs) :
    InitsInv C v' (revertFrom (undoBase v) v.undo inits).inits ⟨S.saved.headD ∅, S.saved.tail⟩ := by
  have hbase : undoBase v = f.undoBase := by
    unfold undoBase
    rw [hctrl]
    rfl
  have hsub : v'.undo.Sublist v.undo := hu ▸ List.drop_sublist _ _
  obtain ⟨A, As, hsaved, set, outer⟩ : ∃ A As, S.saved = A :: As ∧ (∀ l, l ∈ A ↔ l ∈ v.undoTo f) ∧
      SavedInits (v.undoTo f) fs As := by
    have hall := h.saved
    rw [hctrl] at hall
    generalize hS : S.saved = saved at hall
    cases hall with
    | cons base set outer => exact ⟨_, _, rfl, set, outer⟩
  rw [hsaved, hbase]
  refine ⟨?_, ?_, hsub.nodup h.nodup, fun l hl => h.needs l (hsub.subset hl), ?_, ?_⟩
  · rw [revertFrom_length]
    exact h.room
  · rw [hu]
    exact h.flags.revert h.nodup f.undoBase
  · rw [hu]
    exact set
  · rw [hu, hc]
    exact outer

theorem undoTo_length {f : CtrlFrame} (h : f.undoBase ≤ v.undo.length) : (v.undoTo f).length = f.undoBase := by
  unfold VCtx.undoTo
  rw [List.length_drop]
  omega

/-- at `else` the set stays saved for the second arm -/
theorem InitsInv.restarts {f : CtrlFrame} {fs : List CtrlFrame} (h : InitsInv C v inits S) (hctrl : v.ctrl = f :: fs)
    (hu : v'.undo = v.undoTo f) (hc : v'.ctrl = { f with elseFound := true } :: fs) :
    InitsInv C v' (revertFrom (undoBase v) v.undo inits).inits { S with now := S.saved.headD ∅ } := by
  have hclosed : InitsInv C { v' with ctrl := fs } (revertFrom (undoBase v) v.undo inits).inits
      ⟨S.saved.headD ∅, S.saved.tail⟩ := h.closes hctrl hu rfl
  obtain ⟨A, As, hsaved, base⟩ : ∃ A As, S.saved = A :: As ∧ f.undoBase ≤ v.undo.length := by
    have hall := h.saved
    rw [hctrl] at hall
    generalize hS : S.saved = saved at hall
    cases hall with
    | cons base set outer => exact ⟨_, _, rfl, base⟩
  have hlen : v'.undo.length = f.undoBase := by rw [hu, undoTo_length base]
  have hdrop : v'.undo.drop (v'.undo.length - f.undoBase) = v'.undo := by rw [hlen, Nat.sub_self, List.drop_zero]
  obtain ⟨room, flags, nodup, needs, now, saved⟩ := hclosed
  refine ⟨room, flags, nodup, needs, now, ?_⟩
  rw [hc]
  rw [hsaved] at now saved ⊢
  exact .cons hlen.ge (by rw [hdrop]; exact now) (by rw [hdrop]; exact saved)

theorem InitsInv.sets {n : Nat} {t : Ty} (h : InitsInv C v inits S) (ht : C.localType n = some t)
    (hc : v'.ctrl = v.ctrl) (hu : v'.undo = (v.initLocal C n t).undo) :
    InitsInv C v' (flagsAfter C v inits (.localSet n)) (S.step C (.localSet n)) := by
  have hneeds := nonDefaultable_eq ht
  have hlt : n < inits.length := (localType_lt ht).trans_le h.room
  have hflag := h.flags.flag n
  simp only [flagsAfter, SpecInits.step]
  unfold VCtx.initLocal at hu
  rw [← hneeds] at hu
  by_cases hn : C.nonDefaultable n = true
  · by_cases hmem : n ∈ v.undo
    · -- the local is initialized already
      rw [if_neg (by simp [hmem])] at hu
      rw [if_neg (by simp [hflag.mpr hmem]), if_pos hn]
      have hnow : insert n S.now = S.now := Finset.insert_eq_self.mpr ((h.now n).mpr hmem)
      rw [hnow]
      exact h.congr hc hu
    · have hset : (inits[n]?).getD false = false := by
        rw [← Bool.not_eq_true, hflag]
        exact hmem
      rw [if_pos (by simp [hn, hmem])] at hu
      rw [if_pos (by simp [hn, hset]), if_pos hn]
      have hu' : v'.undo = n :: v.undo := hu
      refine ⟨?_, ?_, ?_, ?_, ?_, ?_⟩
      · rw [List.length_set]
        exact h.room
      · rw [hu']
        exact h.flags.set_true hlt
      · rw [hu']
        exact List.nodup_cons.mpr ⟨hmem, h.nodup⟩
      · intro l hl
        rw [hu'] at hl
        rcases List.mem_cons.mp hl with rfl | hl
        · exact hn
        · exact h.needs l hl
      · intro l
        rw [hu', Finset.mem_insert, List.mem_cons, h.now l]
      · rw [hu', hc]
        exact h.saved.push n
  · rw [if_neg (by simp [hn])] at hu
    rw [if_neg (by simp [hn]), if_neg hn]
    exact h.congr hc hu

/-- one instruction -/
theorem InitsInv.step (h : InitsInv C v inits S) (hi : validateOpcode C v i = .ok (v', d)) :
    InitsInv C v' (flagsAfter C v inits i) (S.step C i) := by
  have heffect := (validateOpcode_effect hi).2
  cases i with
  | block bt | loop bt | if_ bt | tryTable bt cs => exact h.opens heffect.2.1 heffect.2.2
  | else_ =>
    obtain ⟨f, fs, hctrl, hc, hu⟩ := heffect
    exact h.restarts hctrl hu hc
  | end_ =>
    obtain ⟨f, fs, hctrl, hc, hu⟩ := heffect
    exact h.closes hctrl hu hc
  | localSet n | localTee n =>
    obtain ⟨t, ht, hc, hu⟩ := heffect
    exact h.sets ht hc hu
  | _ => exact h.congr heffect.1 heffect.2

end

/-! ## Runs of the analysis -/

/-- the analysis after a prefix of the body, none if it does not get there -/
def reach (C : FuncCtx) (s : AState) (inits : List Bool) : List Instr → Option (AState × List Bool)
  | [] => some (s, inits)
  | i :: is =>
    if i = .end_ ∧ s.v.ctrl = [] then none
    else
      match stepFlags C s inits i with
      | .error _ => none
      | .ok (s, inits) => reach C s inits is

section
variable {C : FuncCtx} {s s' : AState} {inits inits' : List Bool} {S : SpecInits} {i : Instr} {is pre : List Instr}

theorem flagsAfter_congr {v w : VCtx} (h : Same v w) (i : Instr) : flagsAfter C w inits i = flagsAfter C v inits i := by
  unfold flagsAfter undoBase
  rw [h.ctrl, h.undo]

theorem stepFlags_eq (h : FlagsOf inits s.v.undo) (i : Instr) :
    stepFlags C s inits i = (s.step C i).map fun s' => (s', flagsAfter C s.v inits i) := by
  obtain ⟨hsame, -⟩ := prepare_fields C s i
  have hp : FlagsOf inits (s.prepare C i).1.v.undo := hsame.undo.symm ▸ h
  simp only [stepFlags, AState.step]
  rw [validateOpcodeFlags_eq hp i, flagsAfter_congr hsame]
  cases validateOpcode C (s.prepare C i).1.v i <;> rfl

theorem InitsInv.stepState (h : InitsInv C s.v inits S) (hs : s.step C i = .ok s') :
    InitsInv C s'.v (flagsAfter C s.v inits i) (S.step C i) := by
  simp only [AState.step, bind_eq_ok, pure_eq_ok] at hs
  obtain ⟨⟨w, d⟩, hw, rfl⟩ := hs
  obtain ⟨hsame, -⟩ := prepare_fields C s i
  obtain ⟨hemit, -⟩ := emit_fields { (s.prepare C i).1 with v := w } (s.prepare C i).2 d
  have hprep : InitsInv C (s.prepare C i).1.v inits S := h.congr hsame.ctrl hsame.undo
  rw [← flagsAfter_congr hsame]
  exact (hprep.step hw).congr hemit.ctrl hemit.undo

theorem stepFlags_inv (h : InitsInv C s.v inits S) (hs : stepFlags C s inits i = .ok (s', inits')) :
    s.step C i = .ok s' ∧ InitsInv C s'.v inits' (S.step C i) := by
  rw [stepFlags_eq h.flags] at hs
  cases hstep : s.step C i with
  | error e =>
    rw [hstep] at hs
    cases hs
  | ok t =>
    rw [hstep] at hs
    obtain ⟨rfl, rfl⟩ := Prod.mk.inj (Except.ok.inj hs)
    exact ⟨rfl, h.stepState hstep⟩

/-- every instruction the analysis reaches -/
theorem reach_inv (h : InitsInv C s.v inits S) (hr : reach C s inits pre = some (s', inits')) :
    InitsInv C s'.v inits' (pre.foldl (SpecInits.step C) S) := by
  induction pre generalizing s inits S with
  | nil =>
    obtain ⟨rfl, rfl⟩ := Prod.mk.inj (Option.some.inj hr)
    exact h
  | cons i pre ih =>
    unfold reach at hr
    split_ifs at hr
    split at hr
    · cases hr
    · rename_i t flags hstep
      exact ih (stepFlags_inv h hstep).2 hr

theorem closedInits_flags {v : VCtx} (h : FlagsOf inits v.undo) (hnd : v.undo.Nodup) (f : CtrlFrame) :
    FlagsOf (closedInits C v inits f).inits (closedInits C v inits f).undo := by
  unfold closedInits
  split
  · rw [revertFrom_undo]
    exact h.revert hnd f.undoBase
  · exact h

theorem failedInits_flags {v : VCtx} (h : FlagsOf inits v.undo) (hnd : v.undo.Nodup) (i : Instr) :
    FlagsOf (failedInits C v inits i).inits (failedInits C v inits i).undo := by
  unfold failedInits
  split
  · split_ifs
    · exact closedInits_flags h hnd _
    · exact h
  · split_ifs
    · exact closedInits_flags h hnd _
    · exact h
  · exact h

theorem failedInits_undo (v : VCtx) (inits : List Bool) (i : Instr) :
    (failedInits C v inits i).undo.Sublist v.undo := by
  have hclosed (f : CtrlFrame) : (closedInits C v inits f).undo.Sublist v.undo := by
    unfold closedInits
    split
    · rw [revertFrom_undo]
      exact List.drop_sublist _ _
    · exact .refl _
  unfold failedInits
  split
  · split_ifs
    · exact hclosed _
    · exact .refl _
  · split_ifs
    · exact hclosed _
    · exact .refl _
  · exact .refl _

/-- the flags do not change what is accepted, and what is left set is on the undo list, also after a failure -/
theorem analyzeFlags_spec (h : InitsInv C s.v inits S) (is : List Instr) :
    (analyzeFlags C s inits is).2 = analyzeFrom C s is ∧
      FlagsOf (analyzeFlags C s inits is).1.inits (analyzeFlags C s inits is).1.undo ∧
      (analyzeFlags C s inits is).1.undo.Nodup := by
  induction is generalizing s inits S with
  | nil => exact ⟨rfl, h.flags, h.nodup⟩
  | cons i is ih =>
    unfold analyzeFlags analyzeFrom
    split_ifs
    · exact ⟨rfl, h.flags, h.nodup⟩
    · exact ⟨rfl, h.flags, h.nodup⟩
    · cases hstep : stepFlags C s inits i with
      | error e =>
        have hfail : s.step C i = .error e := by
          rw [stepFlags_eq h.flags] at hstep
          cases hs : s.step C i with
          | error e' =>
            rw [hs] at hstep
            exact congrArg _ (Except.error.inj hstep)
          | ok t =>
            rw [hs] at hstep
            cases hstep
        rw [hfail]
        exact ⟨rfl, failedInits_flags h.flags h.nodup i, (failedInits_undo s.v inits i).nodup h.nodup⟩
      | ok r =>
        obtain ⟨t, flags⟩ := r
        obtain ⟨hs, hinv⟩ := stepFlags_inv h hstep
        rw [hs]
        exact ih hinv

end

/-! ## Functions one after another -/

/-- no flag is set and the undo list is empty -/
def LocalInits.Clean (li : LocalInits) : Prop := (∀ flag ∈ li.inits, flag = false) ∧ li.undo = []

section
variable {C : FuncCtx} {li li' : LocalInits}

theorem growCap_some (fuel : Nat) {cap needed : Nat} (hn : needed ≤ uint32Max / 2) (hf : needed ≤ cap * 2 ^ fuel) :
    ∃ cap', growCap (fuel + 1) cap needed = some cap' ∧ needed ≤ cap' := by
  induction fuel generalizing cap with
  | zero =>
    rw [pow_zero, mul_one] at hf
    exact ⟨cap, by rw [growCap, if_neg (by omega)], hf⟩
  | succ fuel ih =>
    by_cases hlt : cap < needed
    · have hf' : needed ≤ cap * 2 * 2 ^ fuel := by rwa [mul_assoc, ← pow_succ']
      obtain ⟨cap', hcap, hle⟩ := ih hf'
      exact ⟨cap', by rw [growCap, if_pos hlt, if_pos (by omega), hcap], hle⟩
    · exact ⟨cap, by rw [growCap, if_neg hlt], by omega⟩

/-- within the limit on locals the storage can be grown, and new flags are 0 -/
theorem grow_clean (h : li.Clean) {total : Nat} (ht : total ≤ maxLocalCount) :
    ∃ li', li.grow total = .ok li' ∧ li'.Clean ∧ total ≤ li'.inits.length := by
  unfold LocalInits.grow
  by_cases hlt : li.inits.length < total
  · rw [if_pos hlt]
    have hpos : 0 < if li.inits.length = 0 then 8 else li.inits.length := by split_ifs <;> omega
    generalize (if li.inits.length = 0 then 8 else li.inits.length) = start at hpos
    have hn : total ≤ uint32Max / 2 := ht.trans (by decide)
    have hf : total ≤ start * 2 ^ 32 := by
      calc total ≤ 1 * 2 ^ 32 := ht.trans (by decide)
        _ ≤ start * 2 ^ 32 := Nat.mul_le_mul_right _ hpos
    obtain ⟨cap, hcap, hle⟩ := growCap_some 32 hn hf
    rw [hcap]
    refine ⟨_, rfl, ⟨fun flag hmem => ?_, h.2⟩, ?_⟩
    · rcases List.mem_append.mp hmem with hold | hnew
      · exact h.1 flag hold
      · exact List.eq_of_mem_replicate hnew
    · simp only [List.length_append, List.length_replicate]
      omega
  · exact ⟨li, by rw [if_neg hlt], h, by omega⟩

theorem startState_clean (h : li.Clean) : startState li = {} := by
  unfold startState
  rw [h.2]

/-- a function starts with nothing initialized -/
theorem InitsInv.start (h : li.Clean) (hroom : C.totalLocals ≤ li.inits.length) :
    InitsInv C (startState li).v li.inits {} := by
  rw [startState_clean h]
  exact ⟨hroom, flagsOf_nil h.1, .nil, fun l hl => absurd hl List.not_mem_nil, fun l => by simp, .nil _⟩

theorem enter_clean (h : li.Clean) (hc : li.enter C = .ok li') : li'.Clean ∧ C.totalLocals ≤ li'.inits.length := by
  unfold LocalInits.enter at hc
  split_ifs at hc with hmax
  obtain ⟨grown, hgrow, hclean, hroom⟩ := grow_clean h (Nat.not_lt.mp hmax)
  rw [hgrow] at hc
  obtain rfl := Except.ok.inj hc
  exact ⟨hclean, hroom⟩

/-- a function analyzed with storage of its own -/
def analyzeAlone (C : FuncCtx) (body : List Instr) : Except WahError Analyzed :=
  if maxLocalCount < C.totalLocals then .error .tooLarge else analyzeStream C body

/-- taking everything off the undo list clears every flag -/
theorem revert_clean (h : FlagsOf li.inits li.undo) (hnd : li.undo.Nodup) : (li.revert 0).Clean := by
  have hundo : (li.revert 0).undo = [] := by
    unfold LocalInits.revert
    rw [revertFrom_undo, Nat.sub_zero, List.drop_length]
  have hflags := h.revert hnd 0
  rw [Nat.sub_zero, List.drop_length] at hflags
  exact ⟨hflags.unset, hundo⟩

/-- one function leaves clean storage when it succeeds, and its outcome is that of the function alone -/
theorem analyzeFunction_spec (h : li.Clean) (C : FuncCtx) (body : List Instr) :
    (analyzeFunction C body li).2 = analyzeAlone C body ∧
      ∀ a, (analyzeFunction C body li).2 = .ok a → (analyzeFunction C body li).1.Clean := by
  unfold analyzeFunction analyzeAlone LocalInits.enter
  split_ifs with hmax
  · exact ⟨rfl, fun a ha => by cases ha⟩
  · obtain ⟨grown, hgrow, hclean, hroom⟩ := grow_clean h (Nat.not_lt.mp hmax)
    obtain ⟨hout, hflags, hnd⟩ := analyzeFlags_spec (InitsInv.start hclean hroom) body
    have hstart : analyzeFrom C (startState grown) body = analyzeStream C body := by
      rw [startState_clean hclean]
      rfl
    rw [hstart] at hout
    simp only [hgrow]
    generalize analyzeFlags C (startState grown) grown.inits body = r at hout hflags hnd
    obtain ⟨left, outcome⟩ := r
    cases outcome with
    | error e => exact ⟨hout, fun a ha => by cases ha⟩
    | ok a => exact ⟨hout, fun _ _ => revert_clean hflags hnd⟩

theorem clean_start : LocalInits.Clean {} := ⟨fun _ h => absurd h List.not_mem_nil, rfl⟩

/-- a section: every function as if alone, with clean storage in between -/
theorem analyzeFunctions_spec (h : li.Clean) (fns : List (FuncCtx × List Instr)) :
    (analyzeFunctions li fns).map Prod.snd = fns.mapM (fun f => analyzeAlone f.1 f.2) ∧
      ∀ li' as, analyzeFunctions li fns = .ok (li', as) → li'.Clean := by
  induction fns generalizing li with
  | nil => exact ⟨rfl, fun li' as heq => (Prod.mk.inj (Except.ok.inj heq)).1 ▸ h⟩
  | cons f fns ih =>
    obtain ⟨C, body⟩ := f
    obtain ⟨hout, hclean⟩ := analyzeFunction_spec h C body
    unfold analyzeFunctions
    rw [List.mapM_cons]
    generalize analyzeFunction C body li = r at hout hclean
    obtain ⟨left, outcome⟩ := r
    simp only at hout hclean
    simp only [← hout]
    cases outcome with
    | error e => exact ⟨rfl, fun li' as heq => by cases heq⟩
    | ok a =>
      obtain ⟨hrest, hleft⟩ := ih (hclean a rfl)
      simp only [ok_bind]
      rw [← hrest]
      cases hfns : analyzeFunctions left fns with
      | error e => exact ⟨rfl, fun li' as heq => by cases heq⟩
      | ok r =>
        obtain ⟨li₂, as₂⟩ := r
        exact ⟨rfl, fun li' as heq => (Prod.mk.inj (Except.ok.inj heq)).1 ▸ hleft li₂ as₂ hfns⟩

/-- **Local initialization.** Over any functions of a section, with storage shared from one to the next: at every
instruction reached in a body, accepted or not, the flags are the initialized locals of the specification; a section
leaves clean storage, and every function is accepted or rejected as if it was alone. -/
theorem local_inits_exact (fns : List (FuncCtx × List Instr)) :
    (analyzeFunctions {} fns).map Prod.snd = fns.mapM (fun f => analyzeAlone f.1 f.2) ∧
    ∀ li as, analyzeFunctions {} fns = .ok (li, as) → li.Clean ∧ ∀ C body,
      (analyzeFunction C body li).2 = analyzeAlone C body ∧
      ∀ li', li.enter C = .ok li' → ∀ pre s inits, reach C (startState li') li'.inits pre = some (s, inits) →
        (∀ l : Nat, C.nonDefaultable l = true ∧ inits[l]? = some true ↔ l ∈ (specInits C pre).now) ∧
        ∀ l : Nat, inits[l]? = some true → C.nonDefaultable l = true := by
  obtain ⟨hout, hleft⟩ := analyzeFunctions_spec clean_start fns
  refine ⟨hout, fun li as hfns => ⟨hleft li as hfns, fun C body => ?_⟩⟩
  have hli : li.Clean := hleft li as hfns
  refine ⟨(analyzeFunction_spec hli C body).1, fun li' henter pre s inits hreach => ?_⟩
  obtain ⟨hclean, hroom⟩ := enter_clean hli henter
  have hinv : InitsInv C s.v inits (specInits C pre) := reach_inv (InitsInv.start hclean hroom) hreach
  have hneeds (l : Nat) (hl : inits[l]? = some true) : C.nonDefaultable l = true :=
    hinv.needs l ((hinv.flags l).mp hl)
  refine ⟨fun l => ?_, hneeds⟩
  calc C.nonDefaultable l = true ∧ inits[l]? = some true
      ↔ inits[l]? = some true := ⟨And.right, fun hl => ⟨hneeds l hl, hl⟩⟩
    _ ↔ l ∈ s.v.undo := hinv.flags l
    _ ↔ l ∈ (specInits C pre).now := (hinv.now l).symm

end

/-- a parameter and a local of a type without default -/
def initsCtx : FuncCtx := ⟨{}, ⟨[.ref false (.abs .func)], []⟩, [.ref false (.abs .func)]⟩

theorem local_inits_exact_block : ∃ li as, analyzeFunctions {} [(initsCtx, [.localGet 0, .localSet 1, .end_])] =
      .ok (li, as) ∧ li.Clean ∧ ∃ li' s inits, li.enter initsCtx = .ok li' ∧
      reach initsCtx (startState li') li'.inits [.block .empty, .localGet 0, .localSet 1] = some (s, inits) ∧
      (inits[1]? = some true ↔ 1 ∈ (specInits initsCtx [.block .empty, .localGet 0, .localSet 1]).now) :=
  have hsection := (local_inits_exact [(initsCtx, [.localGet 0, .localSet 1, .end_])]).2 _ _ rfl
  have hflags := ((hsection.2 initsCtx []).2 _ rfl [.block .empty, .localGet 0, .localSet 1] _ _ rfl).1 1
  ⟨_, _, rfl, hsection.1, _, _, _, rfl, rfl, (and_iff_right rfl).symm.trans hflags⟩

/-- a function that fails after it set a local -/
theorem failed_function_keeps_flags : ¬ ∀ C body, (analyzeFunction C body {}).1.Clean := by
  intro h
  have hundo := (h initsCtx [.localGet 0, .localSet 1, .data .drop, .end_]).2
  exact absurd hundo (by decide)

end Wah
