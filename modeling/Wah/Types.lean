/-
Value types, module contexts and subtyping.

The source packs a type in a 32-bit integer: built-in types are negative, type indices are doubled, and the
lowest bit of a reference is its nullability. Here a type is an inductive, and `Ty.code` gives its integer back,
so that the macros that read the lowest bit (`WAH_TYPE_IS_NULLABLE`) can be checked on the placeholder
`WAH_TYPE_BOT`, whose code is odd.

- `typeIsSubtype`: the subtype test of the validator, walking declared supertypes through the canonical map.
- `typeHierarchyTop`: the top of the hierarchy a reference type lives in.
- `typeMatches`: an operand against an expected type.
-/
import Mathlib.Tactic

namespace Wah

/-- abstract heap types -/
inductive AbsHeap where
  | func | externRef | any | eq | i31 | struct | array | exn | nofunc | noexternRef | none | noexn
deriving DecidableEq, Repr

/-- a heap type: abstract, or a type index -/
inductive HeapTy where
  | abs (a : AbsHeap)
  | idx (n : Nat)
deriving DecidableEq, Repr

/-- `wah_type_t`, with `WAH_TYPE_BOT` for operands popped off a polymorphic stack -/
inductive Ty where
  | i32 | i64 | f32 | f64 | v128 | packedI8 | packedI16
  | ref (null : Bool) (h : HeapTy)
  | bot
deriving DecidableEq, Repr

/-! ## Sizes and limits of the source -/

/-- `sizeof(wah_value_t)` -/
def valueSize : Nat := 16

/-- `WAH_MAX_TYPE_INDEX` -/
def maxTypeIndex : Nat := 0x3fffffff

/-- `WAH_MAX_LOCAL_COUNT` -/
def maxLocalCount : Nat := 65536

def uint64Max : Nat := 18446744073709551615

/-! ## The integer encoding -/

/-- the even code of a non-null abstract reference -/
def AbsHeap.code : AbsHeap → Int
  | .func => -32 | .externRef => -34 | .any => -36 | .eq => -38 | .i31 => -40 | .struct => -42 | .array => -44
  | .exn => -46 | .nofunc => -48 | .noexternRef => -50 | .none => -52 | .noexn => -54

def HeapTy.code : HeapTy → Int
  | .abs a => a.code
  | .idx n => 2 * n

/-- the `wah_type_t` integer of a type -/
def Ty.code : Ty → Int
  | .i32 => -2 | .i64 => -4 | .f32 => -6 | .f64 => -8 | .v128 => -10
  | .packedI8 => -16 | .packedI16 => -18
  | .ref null h => h.code + (if null then 1 else 0)
  | .bot => -99

/-- `WAH_TYPE_IS_NULLABLE`: the lowest bit, which is also set on the bottom placeholder -/
def Ty.isNullable : Ty → Bool
  | .ref null _ => null
  | .bot => true
  | _ => false

/-- `WAH_TYPE_AS_NON_NULL`; the code of bottom is never compared after it -/
def Ty.asNonNull : Ty → Ty
  | .ref _ h => .ref false h
  | t => t

/-- `WAH_TYPE_AS_NULLABLE`, only used on references -/
def Ty.asNullable : Ty → Ty
  | .ref _ h => .ref true h
  | t => t

/-- `WAH_TYPE_IS_REF` -/
def Ty.isRef : Ty → Bool
  | .ref _ _ => true
  | _ => false

/-- `WAH_TYPE_IS_PACKED` -/
def Ty.isPacked : Ty → Bool
  | .packedI8 | .packedI16 => true
  | _ => false

/-- the operand type of a field: packed integers travel as i32 -/
def Ty.unpacked (t : Ty) : Ty := if t.isPacked then .i32 else t

theorem AbsHeap.code_even (a : AbsHeap) : a.code % 2 = 0 := by cases a <;> rfl

theorem HeapTy.code_even (h : HeapTy) : h.code % 2 = 0 := by
  cases h with
  | abs a => exact a.code_even
  | idx n => simp [HeapTy.code]

/-- the nullability test reads the parity of the code, bottom included -/
theorem Ty.isNullable_iff_code_odd (t : Ty) : t.isNullable = true ↔ t.code % 2 = 1 := by
  cases t with
  | ref null h =>
    have := h.code_even
    cases null <;> simp [Ty.isNullable, Ty.code] <;> omega
  | _ => simp [Ty.isNullable, Ty.code]

@[simp] theorem Ty.asNonNull_idem (t : Ty) : t.asNonNull.asNonNull = t.asNonNull := by cases t <;> rfl

@[simp] theorem Ty.asNonNull_bot : Ty.bot.asNonNull = .bot := rfl

@[simp] theorem Ty.asNonNull_ref (n : Bool) (h : HeapTy) : (Ty.ref n h).asNonNull = .ref false h := rfl

/-! ## Modules -/

structure FuncType where
  params : List Ty
  results : List Ty
deriving DecidableEq, Repr

/-- `wah_comp_type_kind_t` -/
inductive CompKind where
  | func | struct | array
deriving DecidableEq, Repr

/-- one entry of `type_defs`, with the function type of `types` at the same index -/
structure TypeDef where
  kind : CompKind
  nonDefaultable : Bool := false
  supertype : Option Nat := none
  fieldTypes : List Ty := []
  fieldMutables : List Bool := []
  func : FuncType := ⟨[], []⟩
deriving DecidableEq, Repr

structure TableType where
  elemType : Ty
  addrType : Ty
deriving DecidableEq, Repr

structure GlobalType where
  type : Ty
  mutable : Bool
deriving DecidableEq, Repr

/-- the part of `wah_module_t` the validator reads; imports come first in each index space -/
structure Module where
  typeDefs : List TypeDef := []
  canonicalMap : List Nat := []
  /-- type index of every function -/
  funcs : List Nat := []
  declaredFuncs : List Nat := []
  tables : List TableType := []
  /-- address type of every memory -/
  memories : List Ty := []
  globals : List GlobalType := []
  importGlobalCount : Nat := 0
  /-- type index of every tag -/
  tags : List Nat := []
  /-- element type of every element segment -/
  elemSegments : List Ty := []
  dataSegmentCount : Nat := 0
  fuelMetering : Bool := false
deriving Repr

variable (M : Module)

/-- `wah_type_def_kind` -/
def Module.typeDefKind (n : Nat) : Option CompKind := (M.typeDefs[n]?).map TypeDef.kind

/-- `canonical_map[n]`; indices out of range stand for themselves -/
def Module.canon (n : Nat) : Nat := (M.canonicalMap[n]?).getD n

/-- `type_defs[n].supertype` -/
def Module.supertype (n : Nat) : Option Nat := (M.typeDefs[n]?).bind TypeDef.supertype

/-! ## Subtyping -/

/-- the `while` loop over the supertype chain; chains are shorter than the number of types -/
def Module.walkSupertypes (M : Module) (sup : Nat) : Nat → Nat → Bool
  | 0, _ => false
  | fuel + 1, t =>
    match M.supertype t with
    | none => false
    | some st => decide (st = sup) || decide (M.canon st = M.canon sup) || walkSupertypes M sup fuel st

/-- concrete type against concrete type -/
def Module.idxIsSubtype (sub sup : Nat) : Bool :=
  decide (sub < M.typeDefs.length) && decide (sup < M.typeDefs.length) &&
    (decide (M.canon sub = M.canon sup) || M.walkSupertypes sup M.typeDefs.length sub)

/-- abstract type against abstract type, both non-null and different -/
def absIsSubtype (sub : AbsHeap) : AbsHeap → Bool
  | .any => decide (sub ≠ .externRef) && decide (sub ≠ .exn) && decide (sub ≠ .noexternRef) && decide (sub ≠ .noexn) && decide (sub ≠ .func) && decide (sub ≠ .nofunc)
  | .eq => decide (sub = .i31) || decide (sub = .struct) || decide (sub = .array) || decide (sub = .none)
  | .struct | .array | .i31 => decide (sub = .none)
  | .func => decide (sub = .nofunc)
  | .externRef => decide (sub = .noexternRef)
  | .exn => decide (sub = .noexn)
  | _ => false

/-- heap types, nullability aside -/
def Module.heapIsSubtype (sub sup : HeapTy) : Bool :=
  decide (sub = sup) ||
  match sub, sup with
  | .idx a, .idx b => M.idxIsSubtype a b
  | .idx a, .abs b =>
    match b with
    | .any | .eq => decide (M.typeDefKind a = some .struct) || decide (M.typeDefKind a = some .array)
    | .struct => decide (M.typeDefKind a = some .struct)
    | .array => decide (M.typeDefKind a = some .array)
    | .func => decide (M.typeDefKind a = some .func)
    | _ => false
  | .abs a, .idx b =>
    match a with
    | .none => decide (M.typeDefKind b = some .struct) || decide (M.typeDefKind b = some .array)
    | .nofunc => decide (M.typeDefKind b = some .func)
    | _ => false
  | .abs a, .abs b => absIsSubtype a b

/-- `wah_type_is_subtype` -/
def Module.typeIsSubtype (sub sup : Ty) : Bool :=
  decide (sub = sup) || decide (sub = .bot) ||
  match sub, sup with
  | .ref n h, .ref n' h' => (!n || n') && M.heapIsSubtype h h'
  | _, _ => false

/-- `wah_type_hierarchy_top`, for a heap type; none stands for `WAH_TYPE_BOT` -/
def Module.typeHierarchyTop : HeapTy → Option AbsHeap
  | .idx n =>
    match M.typeDefKind n with
    | some .struct | some .array => some .any
    | some .func => some .func
    | none => none
  | .abs .any | .abs .eq | .abs .i31 | .abs .struct | .abs .array | .abs .none => some .any
  | .abs .func | .abs .nofunc => some .func
  | .abs .externRef | .abs .noexternRef => some .externRef
  | .abs .exn | .abs .noexn => some .exn

/-- `wah_type_hierarchy_top` of a value type -/
def Module.hierarchyTop : Ty → Option AbsHeap
  | .ref _ h => M.typeHierarchyTop h
  | _ => none

/-- `wah_validate_type_match` -/
def Module.typeMatches (actual expected : Ty) : Bool :=
  decide (actual = .bot) ||
    (M.typeIsSubtype actual.asNonNull expected.asNonNull && (expected.isNullable || !actual.isNullable))

@[simp] theorem Module.typeMatches_bot (t : Ty) : M.typeMatches .bot t = true := by simp [Module.typeMatches]

@[simp] theorem Module.typeIsSubtype_refl (t : Ty) : M.typeIsSubtype t t = true := by
  simp [Module.typeIsSubtype]

@[simp] theorem Module.typeIsSubtype_bot (t : Ty) : M.typeIsSubtype .bot t = true := by
  simp [Module.typeIsSubtype]

@[simp] theorem Module.heapIsSubtype_refl (h : HeapTy) : M.heapIsSubtype h h = true := by
  simp [Module.heapIsSubtype]

/-- matching an operand is the subtype test -/
theorem Module.typeMatches_eq (a e : Ty) : M.typeMatches a e = M.typeIsSubtype a e := by
  cases a with
  | ref n h =>
    cases e with
    | ref n' h' =>
      cases n <;> cases n' <;> by_cases hh : h = h' <;>
        simp [Module.typeMatches, Module.typeIsSubtype, Ty.isNullable, hh]
    | _ => simp [Module.typeMatches, Module.typeIsSubtype, Ty.asNonNull]
  | bot => simp
  | _ => cases e <;> simp [Module.typeMatches, Module.typeIsSubtype, Ty.asNonNull, Ty.isNullable]

end Wah
