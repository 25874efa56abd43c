/-
Bulk instructions inside a program: which instances their indices name, and the visits of the interpreter.

`DoesBulk` says that a program's store has memories, tables and arrays, that its element segments hold function indices,
and that its bulk instructions mean what `BulkInstr.whole` says. The interpreter then runs them as `BulkInstr.visit`
does (`DoesBulk.costs`).
-/
import Wah.BulkInstrs
import Wah.Interp

namespace Wah

open Resumable

variable {ι Store Exn : Type} {P : ι → Func} {E : BulkEnv}

/-- what the indices of a function lead to, in `fctx` -/
structure Instances (ι : Type) where
  memory : ι → Nat → Nat
  table : ι → Nat → Nat
  dataSegment : ι → Nat → Nat
  elemSegment : ι → Nat → Nat
  /-- `repr_infos[typeidx_to_repr[typeidx]]->size` -/
  esz : ι → Nat → Nat

/-- the bulk instruction of an opcode with its immediates -/
def PlainOp.bulk (I : Instances ι) (f : ι) : PlainOp → Option BulkInstr
  | .memoryFill mem => some (.memoryFill (I.memory f mem))
  | .memoryCopy dst src => some (.memoryCopy (I.memory f dst) (I.memory f src))
  | .memoryInit data mem => some (.memoryInit (I.dataSegment f data) (I.memory f mem))
  | .tableFill t => some (.tableFill (I.table f t))
  | .tableCopy dst src => some (.tableCopy (I.table f dst) (I.table f src))
  | .tableInit elem t => some (.tableInit (I.elemSegment f elem) (I.table f t))
  | .arrayFill _ => some .arrayFill
  | .arrayCopy _ _ => some .arrayCopy
  | .arrayInitData t data => some (.arrayInitData (I.esz f t) (I.dataSegment f data))
  | .arrayInitElem _ elem => some (.arrayInitElem (I.elemSegment f elem))
  | _ => none

def DataOp.bulk (I : Instances ι) (f : ι) : DataOp → Option BulkInstr
  | .plain p => p.bulk I f
  | _ => none

/-- the instructions lowered as resumable ones -/
theorem DataOp.bulk_isSome (I : Instances ι) (f : ι) (d : DataOp) : (d.bulk I f).isSome = d.isResumableBulk := by
  cases d with
  | plain p => cases p <;> rfl
  | _ => rfl

/-- they push nothing -/
theorem DataOp.bulk_pushes (M : Module) {d : DataOp} (h : d.isResumableBulk = true) : (d.arity M).2 = 0 := by
  cases d with
  | plain p =>
    have hsig : ∀ pops pushes, plainSig M p = .ok (pops, pushes) → pushes = [] := by
      intro pops pushes hs
      cases p <;> simp only [DataOp.isResumableBulk, PlainOp.isResumableBulk, Bool.false_eq_true] at h <;>
        simp only [plainSig, bind, Except.bind, pure, Except.pure] at hs <;> repeat' split at hs
      all_goals
        cases hs
        try rfl
    rw [DataOp.arity]
    split
    · rename_i pops pushes hs
      rw [hsig _ _ hs]
      rfl
    · rfl
  | _ => cases h

/-- bulk instructions of a program work on the contents of its store -/
structure DoesBulk (S : Sem ι Nat Store Exn P) (I : Instances ι) (E : BulkEnv) where
  contents : Store → BulkStore E
  update : Store → BulkStore E → Store
  contents_update : ∀ st b, contents (update st b) = b
  update_update : ∀ st b b', update (update st b) b' = update st b'
  data : ∀ f d i args st, d.bulk I f = some i → S.data f d args st =
    match i.whole (args, contents st) with
    | .ok b => some ([], update st b)
    | .error _ => none

namespace DoesBulk

variable {S : Sem ι Nat Store Exn P} {I : Instances ι} (B : DoesBulk S I E)

/-- a visit of a data instruction; those that cannot be resumed are done at once -/
def visit (f : ι) (d : DataOp) (b : Ration) (x : List Nat × Store) : Visited (List Nat × Store) (List Nat × Store) Unit :=
  match d.bulk I f with
  | some i =>
    match i.visit b (x.1, B.contents x.2) with
    | .done b cost => .done ([], B.update x.2 b) cost
    | .part (args, b) cost => .part (args, B.update x.2 b) cost
    | .fail _ _ => .fail () x
  | none =>
    match S.whole f d x with
    | .ok r => .done r 0
    | .error e => .fail e x

def left (f : ι) (d : DataOp) (x : List Nat × Store) : Nat :=
  match d.bulk I f with
  | some i => itemsLeft i.op (x.1, B.contents x.2)
  | none => 0

theorem whole_eq {f : ι} {d : DataOp} {i : BulkInstr} (hi : d.bulk I f = some i) (x : List Nat × Store) :
    S.whole f d x =
      match i.whole (x.1, B.contents x.2) with
      | .ok b => .ok ([], B.update x.2 b)
      | .error _ => .error () := by
  rw [Sem.whole, B.data f d i x.1 x.2 hi]
  cases i.whole (x.1, B.contents x.2) <;> rfl

theorem lawful (f : ι) (d : DataOp) : Lawful (S.whole f d) (B.visit f d) := by
  cases hi : d.bulk I f with
  | none =>
    refine ⟨fun b s r cost h => ?_, fun b s s' cost h => ?_, fun b s e s' h => ?_⟩ <;>
      simp only [visit, hi] at h <;> cases hw : S.whole f d s <;> rw [hw] at h <;> cases h
    · rfl
    · exact ⟨rfl, rfl⟩
  | some i =>
    have hlaw := i.sweeps (E := E) |>.lawful
    refine ⟨fun b s r cost h => ?_, fun b s s' cost h => ?_, fun b s e s' h => ?_⟩ <;>
      simp only [visit, hi] at h <;> cases hv : i.visit b (s.1, B.contents s.2) <;> rw [hv] at h <;> cases h
    · rw [B.whole_eq hi, hlaw.done _ _ _ _ hv]
    · obtain ⟨r, h1, h2⟩ := hlaw.part _ _ _ _ hv
      refine ⟨([], B.update s.2 r), ?_, ?_⟩
      · rw [B.whole_eq hi, h1]
      · rw [B.whole_eq hi, B.contents_update, h2]
        simp only [B.update_update]
    · rw [B.whole_eq hi, (hlaw.fail _ _ _ _ hv).1]
      exact ⟨rfl, rfl⟩

/-- the bulk operations of a program, by chunks -/
def costs (charge : ι → DataOp → List Nat → Store → Nat) : Costs S where
  charge := charge
  bulk := B.visit
  left := B.left
  bulk_lawful := B.lawful
  bulk_arity f d b x x' n h := by
    cases hi : d.bulk I f with
    | none => simp only [visit, hi] at h; cases hw : S.whole f d x <;> rw [hw] at h <;> cases h
    | some i =>
      simp only [visit, hi] at h
      cases hv : i.visit b (x.1, B.contents x.2) <;> rw [hv] at h <;> cases h
      exact BulkInstr.visit_arity hv
  bulk_left f d b x x' n h := by
    cases hi : d.bulk I f with
    | none => simp only [visit, hi] at h; cases hw : S.whole f d x <;> rw [hw] at h <;> cases h
    | some i =>
      simp only [visit, hi] at h
      cases hv : i.visit b (x.1, B.contents x.2) <;> rw [hv] at h <;> cases h
      simp only [left, hi, B.contents_update]
      exact i.sweeps.left hv

end DoesBulk

/-! ## A small program -/

/-- fills 20000 bytes again and again, as long as its parameter is not zero -/
def fillFunc : Func :=
  ⟨⟨{ memories := [.i32] }, ⟨[.i32], []⟩, []⟩,
    [.loop .empty, .localGet 0, .data (.plain (.i32Const 7)), .data (.plain (.i32Const 20000)),
      .data (.plain (.memoryFill 0)), .localGet 0, .brIf 0, .end_, .end_]⟩

/-- indices are the instances -/
def ownInstances : Instances Unit := ⟨fun _ i => i, fun _ i => i, fun _ i => i, fun _ i => i, fun _ _ => 8⟩

/-- constants and bulk instructions; every other data instruction, call and throw traps -/
def bulkSem (P : Unit → Func) : Sem Unit Nat (BulkStore plainEnv) Empty P where
  zero := 0
  isZero v := v == 0
  index v := v
  isNull v := v == 0
  refTest _ _ _ _ := false
  data f d args st :=
    match d.bulk ownInstances f with
    | some i =>
      match i.whole (args, st) with
      | .ok b => some ([], b)
      | .error _ => none
    | none =>
      match d with
      | .plain (.i32Const v) => some ([v.toNat], st)
      | _ => none
  callee _ _ _ _ := .trap
  host _ _ _ := none
  hostResults _ := 0
  callRoom _ _ _ := true
  hostRoom _ _ _ := true
  handlerRoom _ := true
  tagId _ t := t
  newExn _ _ _ _ := none
  exnTag := Empty.elim
  exnArgs := Empty.elim
  exnRef := Empty.elim
  refExn _ := none
  data_length f d args st rs st' h := by
    cases hi : d.bulk ownInstances f with
    | some i =>
      have hd : d.isResumableBulk = true := by rw [← DataOp.bulk_isSome ownInstances f d, hi]; rfl
      rw [d.bulk_pushes _ hd]
      simp only [hi] at h
      cases hw : i.whole (args, st) <;> rw [hw] at h <;> cases h
      rfl
    | none =>
      simp only [hi] at h
      split at h <;> cases h
      rfl
  callee_arity _ _ _ _ _ h := by cases h
  callee_host _ _ _ _ _ h := by cases h
  host_length _ _ _ _ _ h := by cases h
  newExn_tag _ _ _ _ _ _ h := by cases h
  exn_length x := x.elim

def bulkSem_does (P : Unit → Func) : DoesBulk (bulkSem P) ownInstances plainEnv where
  contents st := st
  update _ b := b
  contents_update _ _ := rfl
  update_update _ _ _ := rfl
  data f d i args st h := by
    simp only [bulkSem, h]
    cases i.whole (args, st) <;> rfl

def fillProgram : Unit → Func := fun _ => fillFunc

/-- the costs of the small program -/
def fillCosts : Costs (bulkSem fillProgram) := (bulkSem_does _).costs fun _ _ _ _ => 0

end Wah
