/-
Constant expressions: the code of global initializers, table initializers, offsets and element segments.

Model:
- an object is named by a value of `N`, given to it when it is allocated (`ConstEnv.name`). Addresses of collected
  objects are reused, but only where no reference to the old object is left, so names are never reused;
- `made` is what the expression has allocated so far, in order. Nothing in a constant expression reads an object;
- `room` says whether an allocation succeeds; `stuck` is an operand that validation rules out;
- floats and vectors are only pushed and stored, so they are their bits.

Results: an expression without allocating instructions is pure, and any expression gives the same up to the names of
what it allocates wherever the globals it reads agree (`evalConst_names`); one with an allocating instruction gives a
new object (`evalConst_fresh`).
-/
import Mathlib.Tactic.Common
import Mathlib.Data.List.Forall2

namespace Wah

/-! ## Values -/

/-- a reference; a function is an entry of the function table of a context -/
inductive CRef (N : Type) where
  | null
  | i31 (value : Nat)
  | func (ctx idx : Nat)
  | obj (name : N)
  | host (id : Nat)
deriving DecidableEq, Repr

/-- `wah_value_t` under its type -/
inductive CVal (N : Type) where
  | i32 (n : BitVec 32)
  | i64 (n : BitVec 64)
  | bits (n : Nat)
  | ref (r : CRef N)
deriving DecidableEq, Repr

/-- a struct with its fields or an array with its elements -/
structure CObj (N : Type) where
  typeidx : Nat
  values : List (CVal N)
deriving DecidableEq, Repr

/-- the type of a field or an element -/
inductive StoreType where
  | i8 | i16 | i32 | i64 | bits | ref
deriving DecidableEq, Repr

/-- `wah_gc_store_field`: packed fields keep the low bits -/
def StoreType.store {N : Type} : StoreType → CVal N → CVal N
  | .i8, .i32 n => .i32 (n &&& 0xff)
  | .i16, .i32 n => .i32 (n &&& 0xffff)
  | _, v => v

/-- what a new object has in a field: all bits zero -/
def StoreType.zero {N : Type} : StoreType → CVal N
  | .i8 | .i16 | .i32 => .i32 0
  | .i64 => .i64 0
  | .bits => .bits 0
  | .ref => .ref .null

/-! ## Instructions -/

inductive ConstOp where
  | add | sub | mul
deriving DecidableEq, Repr

def ConstOp.apply {w : Nat} : ConstOp → BitVec w → BitVec w → BitVec w
  | .add, a, b => a + b
  | .sub, a, b => a - b
  | .mul, a, b => a * b

/-- the instructions `wah_validate_opcode` allows in `WAH_ANALYZE_CONST_EXPR` mode; `bitsConst` is `f32.const`,
`f64.const` and `v128.const` -/
inductive ConstInstr where
  | i32Const (n : BitVec 32) | i64Const (n : BitVec 64) | bitsConst (n : Nat)
  | i32Op (op : ConstOp) | i64Op (op : ConstOp)
  | refNull | refFunc (idx : Nat) | globalGet (idx : Nat) | refI31
  | structNew (t : Nat) | structNewDefault (t : Nat)
  | arrayNew (t : Nat) | arrayNewDefault (t : Nat) | arrayNewFixed (t len : Nat)
  | anyConvertExtern | externConvertAny
deriving DecidableEq, Repr

/-- the instructions that allocate -/
def ConstInstr.allocates : ConstInstr → Bool
  | .structNew _ | .structNewDefault _ | .arrayNew _ | .arrayNewDefault _ | .arrayNewFixed _ _ => true
  | _ => false

inductive ConstError where
  | outOfMemory | trap | stuck
deriving DecidableEq, Repr

/-- the context of the expression's module, the heap as far as allocation goes, and the names of new objects -/
structure ConstEnv (N : Type) where
  globals : Nat → CVal N
  self : Nat
  fieldTypes : Nat → List StoreType
  room : List (CObj N) → CObj N → Bool
  name : Nat → N

/-- the operand stack, top first, and the objects allocated by the expression -/
structure ConstState (N : Type) where
  stack : List (CVal N)
  made : List (CObj N)
deriving DecidableEq, Repr

section Step

variable {N : Type} (E : ConstEnv N)

/-- the type of the elements of an array type -/
def ConstEnv.elemType (t : Nat) : StoreType := (E.fieldTypes t).headD .ref

/-- `wah_gc_alloc_struct` or `wah_gc_alloc_array`, and the reference pushed on `rest` -/
def allocObj (o : CObj N) (rest : List (CVal N)) (made : List (CObj N)) : Except ConstError (ConstState N) :=
  if E.room made o then .ok ⟨.ref (.obj (E.name made.length)) :: rest, made ++ [o]⟩ else .error .outOfMemory

/-- pops one operand for each of the types, the last one first, into a new object -/
def allocFrom (t : Nat) (types : List StoreType) (s : ConstState N) : Except ConstError (ConstState N) :=
  if types.length ≤ s.stack.length then
    allocObj E ⟨t, List.zipWith StoreType.store types (s.stack.take types.length).reverse⟩
      (s.stack.drop types.length) s.made
  else .error .stuck

def ConstState.push (s : ConstState N) (v : CVal N) : ConstState N := { s with stack := v :: s.stack }

/-- the handlers of the interpreter -/
def stepConst (i : ConstInstr) (s : ConstState N) : Except ConstError (ConstState N) :=
  match i with
  | .i32Const n => .ok (s.push (.i32 n))
  | .i64Const n => .ok (s.push (.i64 n))
  | .bitsConst n => .ok (s.push (.bits n))
  | .i32Op op =>
    match s.stack with
    | .i32 b :: .i32 a :: st => .ok ⟨.i32 (op.apply a b) :: st, s.made⟩
    | _ => .error .stuck
  | .i64Op op =>
    match s.stack with
    | .i64 b :: .i64 a :: st => .ok ⟨.i64 (op.apply a b) :: st, s.made⟩
    | _ => .error .stuck
  | .refNull => .ok (s.push (.ref .null))
  | .refFunc idx => .ok (s.push (.ref (.func E.self idx)))
  | .globalGet idx => .ok (s.push (E.globals idx))
  | .refI31 =>
    -- `wah_ref_make_i31` keeps 31 bits
    match s.stack with
    | .i32 n :: st => .ok ⟨.ref (.i31 (n.toNat % 0x80000000)) :: st, s.made⟩
    | _ => .error .stuck
  | .structNew t => allocFrom E t (E.fieldTypes t) s
  | .structNewDefault t => allocObj E ⟨t, (E.fieldTypes t).map StoreType.zero⟩ s.stack s.made
  | .arrayNew t =>
    match s.stack with
    | .i32 len :: v :: st => allocObj E ⟨t, List.replicate len.toNat ((E.elemType t).store v)⟩ st s.made
    | _ => .error .stuck
  | .arrayNewDefault t =>
    match s.stack with
    | .i32 len :: st => allocObj E ⟨t, List.replicate len.toNat (E.elemType t).zero⟩ st s.made
    | _ => .error .stuck
  | .arrayNewFixed t len => allocFrom E t (List.replicate len (E.elemType t)) s
  -- both hierarchies share the representation
  | .anyConvertExtern | .externConvertAny => .ok s

/-- runs the code; what was allocated stays in the heap when the expression fails -/
def runConst : List ConstInstr → ConstState N → Except ConstError (CVal N) × List (CObj N)
  | [], s =>
    match s.stack with
    | [v] => (.ok v, s.made)
    | _ => (.error .stuck, s.made)
  | i :: code, s =>
    match stepConst E i s with
    | .ok s' => runConst code s'
    | .error e => (.error e, s.made)

/-- `wah_eval_const_expr` -/
def evalConst (code : List ConstInstr) : Except ConstError (CVal N) × List (CObj N) := runConst E code ⟨[], []⟩

end Step

/-! ## The operands of an instruction that has run -/

section Operands

variable {N : Type} {E : ConstEnv N} {s s₁ : ConstState N}

theorem stepConst_i32Op {op : ConstOp} (h : stepConst E (.i32Op op) s = .ok s₁) :
    ∃ a b st made, s = ⟨.i32 b :: .i32 a :: st, made⟩ ∧ s₁ = ⟨.i32 (op.apply a b) :: st, made⟩ := by
  obtain ⟨_ | ⟨_ | _ | _ | _, _ | ⟨_ | _ | _ | _, st⟩⟩, made⟩ := s
  all_goals first | exact ⟨_, _, _, _, rfl, (Except.ok.inj h).symm⟩ | cases h

theorem stepConst_i64Op {op : ConstOp} (h : stepConst E (.i64Op op) s = .ok s₁) :
    ∃ a b st made, s = ⟨.i64 b :: .i64 a :: st, made⟩ ∧ s₁ = ⟨.i64 (op.apply a b) :: st, made⟩ := by
  obtain ⟨_ | ⟨_ | _ | _ | _, _ | ⟨_ | _ | _ | _, st⟩⟩, made⟩ := s
  all_goals first | exact ⟨_, _, _, _, rfl, (Except.ok.inj h).symm⟩ | cases h

theorem stepConst_refI31 (h : stepConst E .refI31 s = .ok s₁) :
    ∃ n st made, s = ⟨.i32 n :: st, made⟩ ∧ s₁ = ⟨.ref (.i31 (n.toNat % 0x80000000)) :: st, made⟩ := by
  obtain ⟨_ | ⟨_ | _ | _ | _, st⟩, made⟩ := s
  all_goals first | exact ⟨_, _, _, rfl, (Except.ok.inj h).symm⟩ | cases h

theorem stepConst_arrayNew {t : Nat} (h : stepConst E (.arrayNew t) s = .ok s₁) :
    ∃ len v st made, s = ⟨.i32 len :: v :: st, made⟩ ∧
      allocObj E ⟨t, List.replicate len.toNat ((E.elemType t).store v)⟩ st made = .ok s₁ := by
  obtain ⟨_ | ⟨_ | _ | _ | _, _ | ⟨v, st⟩⟩, made⟩ := s
  all_goals first | exact ⟨_, _, _, _, rfl, h⟩ | cases h

theorem stepConst_arrayNewDefault {t : Nat} (h : stepConst E (.arrayNewDefault t) s = .ok s₁) :
    ∃ len st made, s = ⟨.i32 len :: st, made⟩ ∧
      allocObj E ⟨t, List.replicate len.toNat (E.elemType t).zero⟩ st made = .ok s₁ := by
  obtain ⟨_ | ⟨_ | _ | _ | _, st⟩, made⟩ := s
  all_goals first | exact ⟨_, _, _, rfl, h⟩ | cases h

end Operands

/-! ## Up to the names of new objects -/

section Names

variable {N : Type} {E E' : ConstEnv N} {f f' : Nat → N}

/-- the same value, or the `k`-th object allocated in each evaluation, for some `k < m` -/
def SameVal (f f' : Nat → N) (m : Nat) (v v' : CVal N) : Prop :=
  v = v' ∨ ∃ k < m, v = .ref (.obj (f k)) ∧ v' = .ref (.obj (f' k))

/-- objects of one type with the same contents -/
structure SameObj (f f' : Nat → N) (m : Nat) (o o' : CObj N) : Prop where
  typeidx : o.typeidx = o'.typeidx
  values : List.Forall₂ (SameVal f f' m) o.values o'.values

structure SameState (f f' : Nat → N) (s s' : ConstState N) : Prop where
  stack : List.Forall₂ (SameVal f f' s.made.length) s.stack s'.stack
  made : List.Forall₂ (SameObj f f' s.made.length) s.made s'.made

/-- the environments have the same functions, types and globals for this code, and `E'` never runs out of memory -/
structure Agrees (E E' : ConstEnv N) (code : List ConstInstr) : Prop where
  self : E'.self = E.self
  fieldTypes : E'.fieldTypes = E.fieldTypes
  globals : ∀ g, .globalGet g ∈ code → E'.globals g = E.globals g
  room : ∀ made o, E'.room made o = true

theorem SameVal.refl (m : Nat) (v : CVal N) : SameVal f f' m v v := .inl rfl

theorem SameVal.mono {m m' : Nat} {v v' : CVal N} (h : SameVal f f' m v v') (hm : m ≤ m') : SameVal f f' m' v v' := by
  obtain h | ⟨k, hk, h⟩ := h
  · exact .inl h
  · exact .inr ⟨k, Nat.lt_of_lt_of_le hk hm, h⟩

/-- only references to new objects have two names -/
theorem SameVal.eq_of_not_ref {m : Nat} {v v' : CVal N} (h : SameVal f f' m v v') (hv : ∀ r, v ≠ .ref r) : v' = v := by
  obtain h | ⟨k, -, h, -⟩ := h
  · exact h.symm
  · exact absurd h (hv _)

theorem SameVal.store {m : Nat} {v v' : CVal N} (h : SameVal f f' m v v') (t : StoreType) :
    SameVal f f' m (t.store v) (t.store v') := by
  obtain rfl | ⟨k, hk, rfl, rfl⟩ := h
  · exact .refl m _
  · cases t <;> exact .inr ⟨k, hk, rfl, rfl⟩

theorem SameObj.intro {m t : Nat} {vs vs' : List (CVal N)} (h : List.Forall₂ (SameVal f f' m) vs vs') :
    SameObj f f' m ⟨t, vs⟩ ⟨t, vs'⟩ := ⟨rfl, h⟩

theorem SameObj.mono {m m' : Nat} {o o' : CObj N} (h : SameObj f f' m o o') (hm : m ≤ m') : SameObj f f' m' o o' :=
  ⟨h.typeidx, h.values.imp fun _ _ hv => hv.mono hm⟩

theorem SameState.length {s s' : ConstState N} (h : SameState f f' s s') : s'.made.length = s.made.length :=
  h.made.length_eq.symm

theorem SameState.push {s s' : ConstState N} {v : CVal N} (h : SameState f f' s s') :
    SameState f f' (s.push v) (s'.push v) :=
  ⟨.cons (.refl _ _) h.stack, h.made⟩

/-- an operand that is no reference is the same in both -/
theorem SameState.pop {v : CVal N} {st : List (CVal N)} {made : List (CObj N)} {s' : ConstState N}
    (h : SameState f f' ⟨v :: st, made⟩ s') (hv : ∀ r, v ≠ .ref r) :
    ∃ st' made', s' = ⟨v :: st', made'⟩ ∧ SameState f f' ⟨st, made⟩ ⟨st', made'⟩ := by
  obtain ⟨stack', made'⟩ := s'
  obtain ⟨v', st', hv', hst, rfl⟩ := List.forall₂_cons_left_iff.mp h.stack
  obtain rfl := hv'.eq_of_not_ref hv
  exact ⟨st', made', rfl, hst, h.made⟩

theorem SameState.pop₂ {v w : CVal N} {st : List (CVal N)} {made : List (CObj N)} {s' : ConstState N}
    (h : SameState f f' ⟨v :: w :: st, made⟩ s') (hv : ∀ r, v ≠ .ref r) (hw : ∀ r, w ≠ .ref r) :
    ∃ st' made', s' = ⟨v :: w :: st', made'⟩ ∧ SameState f f' ⟨st, made⟩ ⟨st', made'⟩ := by
  obtain ⟨st₁', made', rfl, h₁⟩ := h.pop hv
  obtain ⟨st', _, h₂, hst⟩ := h₁.pop hw
  cases h₂
  exact ⟨st', made', rfl, hst⟩

/-- stored values are related when the values are -/
theorem forall₂_store {m : Nat} {types : List StoreType} {vs vs' : List (CVal N)}
    (h : List.Forall₂ (SameVal f f' m) vs vs') :
    List.Forall₂ (SameVal f f' m) (List.zipWith StoreType.store types vs) (List.zipWith StoreType.store types vs') := by
  induction h generalizing types with
  | nil => cases types <;> exact .nil
  | cons hv _ ih =>
    cases types with
    | nil => exact .nil
    | cons t types => exact .cons (hv.store t) ih

theorem forall₂_replicate {m : Nat} {v v' : CVal N} (h : SameVal f f' m v v') (n : Nat) :
    List.Forall₂ (SameVal f f' m) (List.replicate n v) (List.replicate n v') := by
  induction n with
  | zero => exact .nil
  | succ n ih => exact .cons h ih

/-- related objects are allocated under their names in both -/
theorem allocObj_same {o o' : CObj N} {rest rest' : List (CVal N)} {made made' : List (CObj N)} {s₁ : ConstState N}
    (hroom : ∀ made o, E'.room made o = true) (ho : SameObj E.name E'.name made.length o o')
    (hrest : List.Forall₂ (SameVal E.name E'.name made.length) rest rest')
    (hmade : List.Forall₂ (SameObj E.name E'.name made.length) made made') (h : allocObj E o rest made = .ok s₁) :
    ∃ s₁', allocObj E' o' rest' made' = .ok s₁' ∧ SameState E.name E'.name s₁ s₁' := by
  unfold allocObj at h ⊢
  rw [if_pos (hroom made' o')]
  split_ifs at h
  cases h
  have hlen : made'.length = made.length := hmade.length_eq.symm
  have hgrow : made.length ≤ (made ++ [o]).length := by simp
  refine ⟨_, rfl, ⟨.cons (.inr ⟨made.length, by simp, rfl, by rw [hlen]⟩) ?_, ?_⟩⟩
  · exact hrest.imp fun _ _ hv => hv.mono hgrow
  · exact List.rel_append (hmade.imp fun _ _ hv => hv.mono hgrow) (.cons (ho.mono hgrow) .nil)

theorem allocFrom_same {t : Nat} {types : List StoreType} {s s' s₁ : ConstState N}
    (hroom : ∀ made o, E'.room made o = true) (hs : SameState E.name E'.name s s') (h : allocFrom E t types s = .ok s₁) :
    ∃ s₁', allocFrom E' t types s' = .ok s₁' ∧ SameState E.name E'.name s₁ s₁' := by
  unfold allocFrom at h ⊢
  rw [← hs.stack.length_eq]
  split_ifs at h ⊢ with hlen
  have hvalues := List.rel_reverse (List.forall₂_take types.length hs.stack)
  exact allocObj_same hroom (.intro (forall₂_store hvalues)) (List.forall₂_drop _ hs.stack) hs.made h

/-- **Steps do not depend on names.** What an instruction does with related operands is related. -/
theorem stepConst_same {i : ConstInstr} {s s' s₁ : ConstState N} (ha : Agrees E E' [i]) (hs : SameState E.name E'.name s s')
    (h : stepConst E i s = .ok s₁) : ∃ s₁', stepConst E' i s' = .ok s₁' ∧ SameState E.name E'.name s₁ s₁' := by
  cases i with
  | i32Const n => cases h; exact ⟨_, rfl, hs.push⟩
  | i64Const n => cases h; exact ⟨_, rfl, hs.push⟩
  | bitsConst n => cases h; exact ⟨_, rfl, hs.push⟩
  | refNull => cases h; exact ⟨_, rfl, hs.push⟩
  | refFunc idx =>
    cases h
    refine ⟨_, rfl, ?_⟩
    rw [ha.self]
    exact hs.push
  | globalGet idx =>
    cases h
    refine ⟨_, rfl, ?_⟩
    rw [ha.globals idx (by simp)]
    exact hs.push
  | anyConvertExtern => cases h; exact ⟨_, rfl, hs⟩
  | externConvertAny => cases h; exact ⟨_, rfl, hs⟩
  | i32Op op =>
    obtain ⟨a, b, st, made, rfl, rfl⟩ := stepConst_i32Op h
    obtain ⟨st', made', rfl, hst⟩ := hs.pop₂ (by simp) (by simp)
    exact ⟨_, rfl, hst.push⟩
  | i64Op op =>
    obtain ⟨a, b, st, made, rfl, rfl⟩ := stepConst_i64Op h
    obtain ⟨st', made', rfl, hst⟩ := hs.pop₂ (by simp) (by simp)
    exact ⟨_, rfl, hst.push⟩
  | refI31 =>
    obtain ⟨n, st, made, rfl, rfl⟩ := stepConst_refI31 h
    obtain ⟨st', made', rfl, hst⟩ := hs.pop (by simp)
    exact ⟨_, rfl, hst.push⟩
  | structNew t =>
    simp only [stepConst] at h ⊢
    rw [ha.fieldTypes]
    exact allocFrom_same ha.room hs h
  | structNewDefault t =>
    simp only [stepConst] at h ⊢
    rw [ha.fieldTypes]
    exact allocObj_same ha.room (.intro (List.forall₂_same.mpr fun v _ => .refl _ v)) hs.stack hs.made h
  | arrayNew t =>
    obtain ⟨len, v, st, made, rfl, h⟩ := stepConst_arrayNew h
    obtain ⟨st₁', made', rfl, hst⟩ := hs.pop (by simp)
    match st₁', hst.stack with
    | v' :: st', .cons hv hst' =>
      have ho := forall₂_replicate (hv.store (E.elemType t)) len.toNat
      simp only [stepConst, ConstEnv.elemType, ha.fieldTypes]
      exact allocObj_same ha.room (.intro ho) hst' hs.made h
  | arrayNewDefault t =>
    obtain ⟨len, st, made, rfl, h⟩ := stepConst_arrayNewDefault h
    obtain ⟨st', made', rfl, hst⟩ := hs.pop (by simp)
    have hzero : SameVal E.name E'.name made.length _ _ := .refl _ (E.elemType t).zero
    have ho := forall₂_replicate hzero len.toNat
    simp only [stepConst, ConstEnv.elemType, ha.fieldTypes]
    exact allocObj_same ha.room (.intro ho) hst.stack hs.made h
  | arrayNewFixed t len =>
    simp only [stepConst, ConstEnv.elemType] at h ⊢
    rw [ha.fieldTypes]
    exact allocFrom_same ha.room hs h

theorem Agrees.head {i : ConstInstr} {code : List ConstInstr} (h : Agrees E E' (i :: code)) : Agrees E E' [i] :=
  ⟨h.self, h.fieldTypes, fun g hg => h.globals g (List.mem_cons.mpr (.inl (List.mem_singleton.mp hg))), h.room⟩

theorem Agrees.tail {i : ConstInstr} {code : List ConstInstr} (h : Agrees E E' (i :: code)) : Agrees E E' code :=
  ⟨h.self, h.fieldTypes, fun g hg => h.globals g (List.mem_cons_of_mem _ hg), h.room⟩

theorem runConst_same {code : List ConstInstr} {s s' : ConstState N} {v : CVal N} {made : List (CObj N)}
    (ha : Agrees E E' code) (hs : SameState E.name E'.name s s') (h : runConst E code s = (.ok v, made)) :
    ∃ v' made', runConst E' code s' = (.ok v', made') ∧ SameVal E.name E'.name made.length v v' ∧
      List.Forall₂ (SameObj E.name E'.name made.length) made made' := by
  induction code generalizing s s' with
  | nil =>
    obtain ⟨stack, made₀⟩ := s
    match stack, h with
    | [w], h =>
      cases h
      obtain ⟨stack', made'⟩ := s'
      obtain ⟨w', st', hw, hst, rfl⟩ := List.forall₂_cons_left_iff.mp hs.stack
      cases hst
      exact ⟨w', made', rfl, hw, hs.made⟩
  | cons i code ih =>
    rw [runConst] at h
    cases hstep : stepConst E i s with
    | error e => rw [hstep] at h; cases h
    | ok s₁ =>
      rw [hstep] at h
      obtain ⟨s₁', hstep', hs₁⟩ := stepConst_same ha.head hs hstep
      rw [runConst, hstep']
      exact ih ha.tail hs₁ h

/-- **Evaluation does not depend on names.** Where the globals an expression reads are the same and there is memory, it
gives the same value and allocates the same objects, up to the names of these. -/
theorem evalConst_names {code : List ConstInstr} {v : CVal N} {made : List (CObj N)} (ha : Agrees E E' code)
    (h : evalConst E code = (.ok v, made)) :
    ∃ v' made', evalConst E' code = (.ok v', made') ∧ SameVal E.name E'.name made.length v v' ∧
      List.Forall₂ (SameObj E.name E'.name made.length) made made' :=
  runConst_same ha ⟨.nil, .nil⟩ h

end Names

/-! ## Allocation -/

section Allocation

variable {N : Type} {E E' : ConstEnv N} {s s₁ : ConstState N} {i : ConstInstr} {code : List ConstInstr} {v : CVal N}
  {made : List (CObj N)}

theorem allocObj_ok {o : CObj N} {rest : List (CVal N)} (h : allocObj E o rest made = .ok s₁) :
    s₁ = ⟨.ref (.obj (E.name made.length)) :: rest, made ++ [o]⟩ := by
  unfold allocObj at h
  split_ifs at h
  exact (Except.ok.inj h).symm

theorem allocFrom_ok {t : Nat} {types : List StoreType} (h : allocFrom E t types s = .ok s₁) :
    ∃ o rest, allocObj E o rest s.made = .ok s₁ := by
  unfold allocFrom at h
  split_ifs at h
  exact ⟨_, _, h⟩

/-- an allocating instruction appends one object and leaves its name on top -/
theorem stepConst_alloc (hi : i.allocates = true) (h : stepConst E i s = .ok s₁) :
    ∃ o rest, s₁ = ⟨.ref (.obj (E.name s.made.length)) :: rest, s.made ++ [o]⟩ := by
  have halloc : ∃ o rest, allocObj E o rest s.made = .ok s₁ := by
    cases i with
    | structNew t => exact allocFrom_ok h
    | structNewDefault t => exact ⟨_, _, h⟩
    | arrayNew t =>
      obtain ⟨len, v, st, made, rfl, h⟩ := stepConst_arrayNew h
      exact ⟨_, _, h⟩
    | arrayNewDefault t =>
      obtain ⟨len, st, made, rfl, h⟩ := stepConst_arrayNewDefault h
      exact ⟨_, _, h⟩
    | arrayNewFixed t len => exact allocFrom_ok h
    | _ => cases hi
  obtain ⟨o, rest, halloc⟩ := halloc
  exact ⟨o, rest, allocObj_ok halloc⟩

/-- the other instructions allocate nothing and consume no reference -/
theorem stepConst_frame (hi : i.allocates = false) (h : stepConst E i s = .ok s₁) :
    s₁.made = s.made ∧ ∀ r, .ref r ∈ s.stack → .ref r ∈ s₁.stack := by
  cases i with
  | i32Op op => obtain ⟨a, b, st, made, rfl, rfl⟩ := stepConst_i32Op h; simp
  | i64Op op => obtain ⟨a, b, st, made, rfl, rfl⟩ := stepConst_i64Op h; simp
  | refI31 =>
    obtain ⟨n, st, made, rfl, rfl⟩ := stepConst_refI31 h
    refine ⟨rfl, fun r hr => ?_⟩
    exact List.mem_cons_of_mem _ ((List.mem_cons.mp hr).resolve_left (by simp))
  | anyConvertExtern => cases h; exact ⟨rfl, fun _ => id⟩
  | externConvertAny => cases h; exact ⟨rfl, fun _ => id⟩
  | structNew | structNewDefault | arrayNew | arrayNewDefault | arrayNewFixed => cases hi
  | _ => cases h; exact ⟨rfl, fun r hr => List.mem_cons_of_mem _ hr⟩

/-- an expression allocates when one of its instructions does -/
def allocates (code : List ConstInstr) : Bool := code.any ConstInstr.allocates

theorem runConst_frame (hc : allocates code = false) : (runConst E code s).2 = s.made := by
  induction code generalizing s with
  | nil => rw [runConst]; split <;> rfl
  | cons i code ih =>
    obtain ⟨hi, hcode⟩ := Bool.or_eq_false_iff.mp hc
    rw [runConst]
    cases hstep : stepConst E i s with
    | error e => rfl
    | ok s₁ => exact (ih hcode).trans (stepConst_frame hi hstep).1

/-- **Pure expressions.** Without an allocating instruction the value only depends on the globals. -/
theorem evalConst_pure (hc : allocates code = false) (ha : Agrees E E' code) (h : evalConst E code = (.ok v, made)) :
    made = [] ∧ evalConst E' code = (.ok v, []) := by
  obtain ⟨v', made', h', hv, hmade⟩ := evalConst_names ha h
  have hnone : made = [] := (congrArg Prod.snd h).symm.trans (runConst_frame hc)
  subst hnone
  cases hmade
  obtain rfl | ⟨k, hk, -⟩ := hv
  · exact ⟨rfl, h'⟩
  · exact absurd hk (Nat.not_lt_zero k)

/-- one of the objects allocated so far is on the stack -/
def NewOnStack (E : ConstEnv N) (s : ConstState N) : Prop :=
  s.made ≠ [] → ∃ k < s.made.length, .ref (.obj (E.name k)) ∈ s.stack

theorem NewOnStack.step (hs : NewOnStack E s) (h : stepConst E i s = .ok s₁) : NewOnStack E s₁ := by
  cases hi : i.allocates with
  | true =>
    obtain ⟨o, rest, rfl⟩ := stepConst_alloc hi h
    exact fun _ => ⟨s.made.length, by simp, List.mem_cons_self⟩
  | false =>
    obtain ⟨hmade, hkeep⟩ := stepConst_frame hi h
    intro hne
    obtain ⟨k, hk, hmem⟩ := hs (hmade ▸ hne)
    exact ⟨k, hmade ▸ hk, hkeep _ hmem⟩

/-- what has run has grown the list of objects, and more so when an instruction allocates -/
theorem runConst_new (hs : NewOnStack E s) (h : runConst E code s = (.ok v, made)) :
    s.made.length ≤ made.length ∧ (allocates code = true → s.made.length < made.length) ∧
      (made ≠ [] → ∃ k < made.length, v = .ref (.obj (E.name k))) := by
  induction code generalizing s with
  | nil =>
    obtain ⟨stack, made₀⟩ := s
    match stack, h with
    | [w], h =>
      cases h
      refine ⟨Nat.le_refl _, fun hc => absurd hc Bool.false_ne_true, fun hne => ?_⟩
      obtain ⟨k, hk, hmem⟩ := hs hne
      exact ⟨k, hk, (List.mem_singleton.mp hmem).symm⟩
  | cons i code ih =>
    rw [runConst] at h
    cases hstep : stepConst E i s with
    | error e => rw [hstep] at h; cases h
    | ok s₁ =>
      rw [hstep] at h
      obtain ⟨hle, hlt, hnew⟩ := ih (hs.step hstep) h
      cases hi : i.allocates with
      | true =>
        obtain ⟨o, rest, rfl⟩ := stepConst_alloc hi hstep
        rw [List.length_append] at hle
        exact ⟨by omega, fun _ => Nat.lt_of_succ_le hle, hnew⟩
      | false =>
        rw [(stepConst_frame hi hstep).1] at hle hlt
        refine ⟨hle, fun hc => hlt ?_, hnew⟩
        simpa [allocates, hi] using hc

/-- **Allocating expressions.** The value is one of the objects that this evaluation has allocated. -/
theorem evalConst_fresh (hc : allocates code = true) (h : evalConst E code = (.ok v, made)) :
    ∃ k < made.length, v = .ref (.obj (E.name k)) := by
  obtain ⟨-, hlt, hnew⟩ := runConst_new (fun hne => absurd rfl hne) h
  exact hnew (List.ne_nil_of_length_pos (hlt hc))

end Allocation

/-- with more memory the value is the same -/
theorem evalConst_room {N : Type} {E : ConstEnv N} {code : List ConstInstr} {v : CVal N} {made : List (CObj N)}
    (h : evalConst E code = (.ok v, made)) :
    (evalConst { E with room := fun _ _ => true } code).1 = .ok v := by
  have ha : Agrees E { E with room := fun _ _ => true } code := ⟨rfl, rfl, fun _ _ => rfl, fun _ _ => rfl⟩
  obtain ⟨v', made', h', hv, -⟩ := evalConst_names ha h
  obtain rfl | ⟨k, -, rfl, rfl⟩ := hv
  · rw [h']
  · rw [h']

/-! ## The globals an expression reads -/

section Reads

variable {N : Type} {E : ConstEnv N} {code : List ConstInstr}

/-- the operands of `global.get`, in order -/
def globalReads (code : List ConstInstr) : List Nat :=
  code.filterMap fun
    | .globalGet g => some g
    | _ => none

theorem mem_globalReads {g : Nat} : g ∈ globalReads code ↔ .globalGet g ∈ code := by
  unfold globalReads
  rw [List.mem_filterMap]
  constructor
  · rintro ⟨i, hi, h⟩
    cases i with
    | globalGet idx => cases h; exact hi
    | _ => cases h
  · exact fun h => ⟨_, h, rfl⟩

theorem stepConst_congr {globals : Nat → CVal N} {i : ConstInstr} {s : ConstState N}
    (h : ∀ g, i = .globalGet g → globals g = E.globals g) :
    stepConst { E with globals := globals } i s = stepConst E i s := by
  cases i with
  | globalGet g => simp only [stepConst, h g rfl]
  | _ => rfl

/-- globals that are not read do not matter -/
theorem evalConst_congr {globals : Nat → CVal N} (h : ∀ g ∈ globalReads code, globals g = E.globals g) :
    evalConst { E with globals := globals } code = evalConst E code := by
  have hrun : ∀ s, runConst { E with globals := globals } code s = runConst E code s := by
    induction code with
    | nil => exact fun s => rfl
    | cons i code ih =>
      intro s
      have hstep := stepConst_congr (E := E) (i := i) (s := s) fun g hi =>
        h g (mem_globalReads.mpr (hi ▸ List.mem_cons_self))
      have hcode := ih fun g hg => h g (mem_globalReads.mpr (List.mem_cons_of_mem _ (mem_globalReads.mp hg)))
      rw [runConst, runConst, hstep]
      cases stepConst E i s with
      | error e => rfl
      | ok s₁ => exact hcode s₁
  exact hrun _

end Reads

end Wah
