/-
Subtyping within a module: the relation of the specification, and the three deciders of the source.

Model:
- `HeapEdge` are the immediate steps of the specification: the hierarchy of abstract heap types with its bottoms, the
  kinds of type indices, declared supertypes, and type indices with one canonical index;
- `SpecSub` is their reflexive and transitive closure on heap types, with nullability, on the value types of a module.

Results, for every type section that is accepted:
- `subtyping_preorder`: `wah_type_is_subtype` decides `SpecSub`; it is a preorder, antisymmetric up to canonical
  indices, and does not tell type indices with one canonical index apart;
- `deciders_agree`: `wah_cross_module_subtype` within one module and `wah_type_accepts_repr` decide the same relation.
-/
import Wah.Canonical
import Wah.TypeMeaning

namespace Wah

/-! ## The relation of the specification -/

/-- one step up from a heap type -/
inductive HeapEdge (M : LinkModule) : HeapTy → HeapTy → Prop where
  | eqAny : HeapEdge M (.abs .eq) (.abs .any)
  | i31Eq : HeapEdge M (.abs .i31) (.abs .eq)
  | structEq : HeapEdge M (.abs .struct) (.abs .eq)
  | arrayEq : HeapEdge M (.abs .array) (.abs .eq)
  | noneI31 : HeapEdge M (.abs .none) (.abs .i31)
  | noneStruct : HeapEdge M (.abs .none) (.abs .struct)
  | noneArray : HeapEdge M (.abs .none) (.abs .array)
  | nofuncFunc : HeapEdge M (.abs .nofunc) (.abs .func)
  | noexternExtern : HeapEdge M (.abs .noexternRef) (.abs .externRef)
  | noexnExn : HeapEdge M (.abs .noexn) (.abs .exn)
  | idxStruct {u : Nat} (h : M.typeDefKind u = some .struct) : HeapEdge M (.idx u) (.abs .struct)
  | idxArray {u : Nat} (h : M.typeDefKind u = some .array) : HeapEdge M (.idx u) (.abs .array)
  | idxFunc {u : Nat} (h : M.typeDefKind u = some .func) : HeapEdge M (.idx u) (.abs .func)
  | noneIdxStruct {u : Nat} (h : M.typeDefKind u = some .struct) : HeapEdge M (.abs .none) (.idx u)
  | noneIdxArray {u : Nat} (h : M.typeDefKind u = some .array) : HeapEdge M (.abs .none) (.idx u)
  | nofuncIdx {u : Nat} (h : M.typeDefKind u = some .func) : HeapEdge M (.abs .nofunc) (.idx u)
  | declared {u v : Nat} (h : M.supertype u = some v) : HeapEdge M (.idx u) (.idx v)
  | canonical {u v : Nat} (hv : v < M.typeCount) (h : M.canon u = M.canon v) : HeapEdge M (.idx u) (.idx v)

/-- subtyping of heap types -/
abbrev SpecHeapSub (M : LinkModule) : HeapTy → HeapTy → Prop := Relation.ReflTransGen (HeapEdge M)

/-- subtyping of value types -/
inductive SpecSub (M : LinkModule) : Ty → Ty → Prop where
  | ref {n n' : Bool} {x y : HeapTy} (hn : n = true → n' = true) (h : SpecHeapSub M x y) :
    SpecSub M (.ref n x) (.ref n' y)
  | other {t : Ty} (h : t.isRef = false) : SpecSub M t t

/-- the value type can be written in the module -/
def LinkModule.Writes (M : LinkModule) (t : Ty) : Prop := t.Declared (fun _ => M) 0

/-- equal types, or type indices with one canonical index -/
def CanonEq (M : LinkModule) : Ty → Ty → Prop := TyMatch fun u v => u < M.typeCount ∧ v < M.typeCount ∧ M.canon u = M.canon v

/-! ## Completeness of the decision -/

section
variable {mix : UInt64 → UInt64 → UInt64} {M : LinkModule} {entries : List RecType}

/-- the walk over supertypes finds every type of the chain, up to canonical indices -/
theorem walkSupertypes_complete (hM : M.Grouped) {a z b fuel : Nat} (ha : a < M.typeCount)
    (hchain : Relation.ReflTransGen (fun u v => M.supertype u = some v) a z) (hz : M.canon z = M.canon b)
    (hfuel : a ≤ fuel) : a = z ∨ M.walkSupertypes b fuel a = true := by
  induction hchain using Relation.ReflTransGen.head_induction_on generalizing fuel with
  | refl => exact .inl rfl
  | @head x y hxy hyz ih =>
    have hlt := hM.super_lt x ha y hxy
    right
    cases fuel with
    | zero => omega
    | succ fuel =>
      rw [Module.walkSupertypes]
      simp only [hxy, Bool.or_eq_true, decide_eq_true_eq]
      have hy : y ≤ fuel := by omega
      rcases ih (hlt.trans ha) hy with rfl | hrest
      · exact .inl (.inr hz)
      · exact .inr hrest

/-- a chain of declared supertypes stays in the module -/
theorem DeclaredSuper.chain_within {x y : TypeNode} (h : Relation.ReflTransGen (DeclaredSuper fun _ => M) x y) :
    y.1 = x.1 ∧ Relation.ReflTransGen (fun u v => M.supertype u = some v) x.2 y.2 := by
  induction h with
  | refl => exact ⟨rfl, .refl⟩
  | tail _ hstep ih => exact ⟨hstep.1.symm.trans ih.1, ih.2.tail hstep.2⟩

variable (hM : M.Grouped) (hW : M.WellFormed)
  (hexact : ∀ i < M.typeCount, ∀ j < M.typeCount, M.canon i = M.canon j ↔ IsoEq M i j)
include hM hW hexact

/-- type indices are compared by declared supertypes, up to identity -/
theorem idxIsSubtype_iff {a b : Nat} (ha : a < M.typeCount) (hb : b < M.typeCount) :
    M.idxIsSubtype a b = true ↔ SubType (fun _ => M) (0, a) (0, b) := by
  have hWs : WellFormedModules fun _ => M := fun _ => hW
  constructor
  · intro h
    simp only [Module.idxIsSubtype, Bool.and_eq_true, Bool.or_eq_true, decide_eq_true_eq] at h
    rcases h.2 with hcanon | hwalk
    · exact SubType.of_same ((hexact a ha b hb).1 hcanon)
    · exact walkSupertypes_sound hWs (m := 0) hwalk
  · rintro ⟨⟨m, z⟩, hchain, hsame⟩
    have hz := (DeclaredSuper.chain_spec hWs hchain ha).1
    obtain ⟨rfl, hsuper⟩ := DeclaredSuper.chain_within hchain
    have hcanon := (hexact z hz b hb).2 hsame
    have hlen : a ≤ M.typeDefs.length := ha.le
    simp only [Module.idxIsSubtype, Bool.and_eq_true, Bool.or_eq_true, decide_eq_true_eq]
    refine ⟨⟨ha, hb⟩, ?_⟩
    rcases walkSupertypes_complete hM ha hsuper hcanon hlen with rfl | hwalk
    · exact .inl hcanon
    · exact .inr hwalk

theorem heapIsSubtype_iff {x y : HeapTy} (hx : x.Declared (fun _ => M) 0) (hy : y.Declared (fun _ => M) 0) :
    M.heapIsSubtype x y = true ↔ HeapSub (fun _ => M) 0 0 x y := by
  have hsound : M.heapIsSubtype x y = true → HeapSub (fun _ => M) 0 0 x y := heapIsSubtype_sound (fun _ => hW) hx hy
  refine ⟨hsound, fun h => ?_⟩
  rw [Module.heapIsSubtype.eq_def, Bool.or_eq_true, decide_eq_true_eq]
  cases x with
  | idx a =>
    right
    cases y with
    | idx b => exact (idxIsSubtype_iff hM hW hexact hx hy).2 h
    | abs k =>
      have hkind : M.typeDefKind a = some (TypeNode.kind (fun _ => M) (0, a)) :=
        typeDefKind_of_declared (show TypeNode.Declared (fun _ => M) (0, a) from hx)
      simp only [HeapSub] at h
      simp only [hkind]
      generalize TypeNode.kind (fun _ => M) (0, a) = c at h
      revert h
      cases c <;> cases k <;> decide
  | abs k =>
    cases y with
    | idx b =>
      right
      have hkind : M.typeDefKind b = some (TypeNode.kind (fun _ => M) (0, b)) :=
        typeDefKind_of_declared (show TypeNode.Declared (fun _ => M) (0, b) from hy)
      simp only [HeapSub] at h
      simp only [hkind]
      generalize TypeNode.kind (fun _ => M) (0, b) = c at h
      revert h
      cases c <;> cases k <;> decide
    | abs k' =>
      simpa [HeapSub, absBelow] using h

/-- `wah_type_is_subtype` decides subtyping by meaning -/
theorem typeIsSubtype_iff {a b : Ty} (ha : M.Writes a) (hb : M.Writes b) :
    M.typeIsSubtype a b = true ↔ TySub (fun _ => M) 0 0 a b := by
  have hsound : M.typeIsSubtype a b = true → TySub (fun _ => M) 0 0 a b := typeIsSubtype_sound (fun _ => hW) ha hb
  refine ⟨hsound, fun h => ?_⟩
  cases h with
  | num h => simp
  | @ref n n' x y hn h =>
    have hheap := (heapIsSubtype_iff hM hW hexact ha hb).2 h
    simp only [Module.typeIsSubtype, hheap, Bool.and_true, Bool.or_eq_true, Bool.not_eq_true']
    right
    cases n with
    | false => exact .inl rfl
    | true => exact .inr (hn rfl)

/-! ## The relation of the specification is the decided one -/

omit hM hexact in
theorem HeapEdge.heapSub {x y : HeapTy} (h : HeapEdge M x y) (hx : x.Declared (fun _ => M) 0) :
    HeapSub (fun _ => M) 0 0 x y ∧ y.Declared (fun _ => M) 0 := by
  have hkind : ∀ {u c}, M.typeDefKind u = some c → u < M.typeCount ∧ TypeNode.kind (fun _ => M) (0, u) = c := by
    intro u c hu
    have hlt : u < M.typeCount := by
      by_contra hge
      simp [Module.typeDefKind, List.getElem?_eq_none (show M.typeDefs.length ≤ u from Nat.not_lt.1 hge)] at hu
    refine ⟨hlt, ?_⟩
    have := typeDefKind_of_declared (show TypeNode.Declared (fun _ => M) (0, u) from hlt)
    exact Option.some.inj (this.symm.trans hu)
  cases h with
  | idxStruct h => exact ⟨by simp [HeapSub, (hkind h).2, kindBelow], trivial⟩
  | idxArray h => exact ⟨by simp [HeapSub, (hkind h).2, kindBelow], trivial⟩
  | idxFunc h => exact ⟨by simp [HeapSub, (hkind h).2, kindBelow], trivial⟩
  | noneIdxStruct h => exact ⟨by simp [HeapSub, (hkind h).2, bottomBelow], (hkind h).1⟩
  | noneIdxArray h => exact ⟨by simp [HeapSub, (hkind h).2, bottomBelow], (hkind h).1⟩
  | nofuncIdx h => exact ⟨by simp [HeapSub, (hkind h).2, bottomBelow], (hkind h).1⟩
  | @declared u v h =>
    have hstep : DeclaredSuper (fun _ => M) (0, u) (0, v) := ⟨rfl, h⟩
    exact ⟨⟨_, .single hstep, .refl _⟩, (hstep.spec (fun _ => hW) hx).1⟩
  | @canonical u v hv h =>
    have hsame : SameType (fun _ => M) (0, u) (0, v) := sameType_of_canon (fun _ => hW) h
    exact ⟨SubType.of_same hsame, hv⟩
  | _ => exact ⟨rfl, trivial⟩

omit hM hexact in
theorem SpecHeapSub.heapSub {x y : HeapTy} (h : SpecHeapSub M x y) (hx : x.Declared (fun _ => M) 0) :
    HeapSub (fun _ => M) 0 0 x y ∧ y.Declared (fun _ => M) 0 := by
  induction h with
  | refl => exact ⟨HeapSub.refl 0 x, hx⟩
  | tail _ hstep ih =>
    obtain ⟨hsub, hdecl⟩ := ih
    obtain ⟨hsub', hdecl'⟩ := hstep.heapSub hW hdecl
    exact ⟨hsub.trans (fun _ => hW) hsub' hx hdecl hdecl', hdecl'⟩

omit hM hW hexact in
/-- the hierarchy of abstract heap types -/
theorem SpecHeapSub.of_absBelow : ∀ k k', absBelow k k' = true → SpecHeapSub M (.abs k) (.abs k') := by
  have eqAny : SpecHeapSub M (.abs .eq) (.abs .any) := .single .eqAny
  have i31Eq : SpecHeapSub M (.abs .i31) (.abs .eq) := .single .i31Eq
  have structEq : SpecHeapSub M (.abs .struct) (.abs .eq) := .single .structEq
  have arrayEq : SpecHeapSub M (.abs .array) (.abs .eq) := .single .arrayEq
  have noneEq : SpecHeapSub M (.abs .none) (.abs .eq) := .tail (.single .noneI31) .i31Eq
  intro k k' h
  cases k <;> cases k' <;> first | exact absurd h (by decide) | exact .refl | exact .single (by constructor) | skip
  · exact i31Eq.trans eqAny
  · exact structEq.trans eqAny
  · exact arrayEq.trans eqAny
  · exact noneEq.trans eqAny
  · exact noneEq

omit hM in
theorem HeapSub.spec {x y : HeapTy} (h : HeapSub (fun _ => M) 0 0 x y) (hx : x.Declared (fun _ => M) 0)
    (hy : y.Declared (fun _ => M) 0) : SpecHeapSub M x y := by
  have hkind : ∀ {u}, u < M.typeCount → M.typeDefKind u = some (TypeNode.kind (fun _ => M) (0, u)) := fun {u} hu =>
    typeDefKind_of_declared (show TypeNode.Declared (fun _ => M) (0, u) from hu)
  cases x with
  | idx a =>
    cases y with
    | idx b =>
      obtain ⟨⟨m, z⟩, hchain, hsame⟩ := h
      have hz := (DeclaredSuper.chain_spec (fun _ => hW) hchain hx).1
      obtain ⟨rfl, hsuper⟩ := DeclaredSuper.chain_within hchain
      have hcanon := (hexact z hz b hy).2 hsame
      exact (hsuper.lift HeapTy.idx fun _ _ => .declared).tail (.canonical hy hcanon)
    | abs k =>
      have hk := hkind hx
      simp only [HeapSub] at h
      generalize TypeNode.kind (fun _ => M) (0, a) = c at h hk
      cases c with
      | struct =>
        refine (Relation.ReflTransGen.single (.idxStruct hk)).trans (SpecHeapSub.of_absBelow .struct k ?_)
        revert h
        cases k <;> decide
      | array =>
        refine (Relation.ReflTransGen.single (.idxArray hk)).trans (SpecHeapSub.of_absBelow .array k ?_)
        revert h
        cases k <;> decide
      | func =>
        refine (Relation.ReflTransGen.single (.idxFunc hk)).trans (SpecHeapSub.of_absBelow .func k ?_)
        revert h
        cases k <;> decide
  | abs k =>
    cases y with
    | idx b =>
      have hk := hkind hy
      simp only [HeapSub] at h
      generalize TypeNode.kind (fun _ => M) (0, b) = c at h hk
      cases c <;> cases k <;> first | exact absurd h (by decide) | skip
      · exact .single (.nofuncIdx hk)
      · exact .single (.noneIdxStruct hk)
      · exact .single (.noneIdxArray hk)
    | abs k' => exact SpecHeapSub.of_absBelow k k' h

omit hM in
theorem tySub_iff_specSub {a b : Ty} (ha : M.Writes a) (hb : M.Writes b) :
    TySub (fun _ => M) 0 0 a b ↔ SpecSub M a b := by
  constructor
  · rintro (⟨hn, h⟩ | h)
    · exact .ref hn (h.spec hW hexact ha hb)
    · exact .other h
  · rintro (⟨hn, h⟩ | h)
    · exact .ref hn (h.heapSub hW ha).1
    · exact .num h

/-! ## The preorder -/

omit hM hexact in
/-- a declared supertype has no larger canonical index, and the same one only if it is the type itself -/
theorem SubType.canon_le (hM : M.Grouped)
    (hexact : ∀ i < M.typeCount, ∀ j < M.typeCount, M.canon i = M.canon j ↔ IsoEq M i j) {a b : Nat}
    (ha : a < M.typeCount) (hb : b < M.typeCount) (h : SubType (fun _ => M) (0, a) (0, b)) : M.canon b ≤ M.canon a := by
  have hWs : WellFormedModules fun _ => M := fun _ => hW
  obtain ⟨z, hchain, hsame⟩ := h
  have hcanon : M.canon a < M.typeCount := (hW.canon_le a ha).trans_lt ha
  -- the chain of the canonical type is in step with the chain of the type
  have hsa : SameType (fun _ => M) (0, M.canon a) (0, a) := sameType_of_canon (m := 0) hWs (hW.canon_canon a ha)
  obtain ⟨⟨m, w⟩, hchain', hsame'⟩ := hsa.chain hWs hcanon ha hchain
  have hw := (DeclaredSuper.chain_spec hWs hchain' hcanon).1
  obtain ⟨rfl, hsuper⟩ := DeclaredSuper.chain_within hchain'
  have hle : ∀ {u v}, u < M.typeCount → Relation.ReflTransGen (fun u v => M.supertype u = some v) u v → v ≤ u := by
    intro u v hu huv
    induction huv using Relation.ReflTransGen.head_induction_on with
    | refl => exact le_rfl
    | head hxy _ ih =>
      have hlt := hM.super_lt _ hu _ hxy
      exact (ih (hlt.trans hu)).trans hlt.le
  have hwb : M.canon w = M.canon b := (hexact w hw b hb).2 (hsame'.trans hsame)
  exact hwb ▸ (hW.canon_le w hw).trans (hle hcanon hsuper)

theorem TySub.antisymm {a b : Ty} (ha : M.Writes a) (hb : M.Writes b) (h : TySub (fun _ => M) 0 0 a b)
    (h' : TySub (fun _ => M) 0 0 b a) : CanonEq M a b := by
  cases h with
  | num h =>
    refine .other (Ty.typeIdx_eq_none fun n u ht => ?_)
    simp [ht, Ty.isRef] at h
  | @ref n n' x y hn h =>
    cases h' with
    | num h' => simp [Ty.isRef] at h'
    | ref hn' h' =>
      obtain rfl : n = n' := by cases n <;> cases n' <;> simp_all
      cases x with
      | idx u =>
        cases y with
        | idx v =>
          have h1 := SubType.canon_le hW hM hexact ha hb h
          have h2 := SubType.canon_le hW hM hexact hb ha h'
          exact .idx ⟨ha, hb, le_antisymm h2 h1⟩
        | abs k => exact absurd h' (not_kindBelow_bottomBelow _ _ _ h)
      | abs k =>
        cases y with
        | idx v => exact absurd h (not_kindBelow_bottomBelow _ _ _ h')
        | abs k' =>
          have hanti : ∀ k k', absBelow k k' → absBelow k' k → k = k' := by decide
          rw [hanti k k' h h']
          exact .other rfl

omit hM hexact in
theorem CanonEq.tySub {a b : Ty} (h : CanonEq M a b) : TySub (fun _ => M) 0 0 a b :=
  TySub.of_match (h.mono fun _ _ h => sameType_of_canon (m := 0) (fun _ => hW) h.2.2)

omit hM hW hexact in
theorem CanonEq.symm {a b : Ty} (h : CanonEq M a b) : CanonEq M b a :=
  (TyMatch.symm h).mono fun _ _ h => ⟨h.2.1, h.1, h.2.2.symm⟩

end

section
variable {mix : UInt64 → UInt64 → UInt64} {M : LinkModule} {entries : List RecType}

/-- **Subtyping is a preorder that is the relation of the specification.** On the value types of a module whose type
section is accepted, `wah_type_is_subtype` is reflexive and transitive, types below each other are equal up to canonical
indices, type indices with one canonical index can be exchanged, and it decides the relation of the specification. -/
theorem subtyping_preorder (h : parseTypeSection mix entries = some M) :
    (∀ a, M.Writes a → M.typeIsSubtype a a = true) ∧
    (∀ a b c, M.Writes a → M.Writes b → M.Writes c → M.typeIsSubtype a b = true → M.typeIsSubtype b c = true →
      M.typeIsSubtype a c = true) ∧
    (∀ a b, M.Writes a → M.Writes b → M.typeIsSubtype a b = true → M.typeIsSubtype b a = true → CanonEq M a b) ∧
    (∀ a a' b b', M.Writes a → M.Writes a' → M.Writes b → M.Writes b' → CanonEq M a a' → CanonEq M b b' →
      M.typeIsSubtype a b = M.typeIsSubtype a' b') ∧
    ∀ a b, M.Writes a → M.Writes b → (M.typeIsSubtype a b = true ↔ SpecSub M a b) := by
  have hM := (parseTypeSection_spec h).1
  have hW := parsed_wellFormed h
  have hexact := (canonicalization_exact h).1
  have hiff := fun {a b} (ha : M.Writes a) (hb : M.Writes b) => typeIsSubtype_iff hM hW hexact ha hb
  have htrans : ∀ {a b c}, M.Writes a → M.Writes b → M.Writes c → TySub (fun _ => M) 0 0 a b →
      TySub (fun _ => M) 0 0 b c → TySub (fun _ => M) 0 0 a c := fun ha hb hc hab hbc => hab.trans (fun _ => hW) hbc ha hb hc
  refine ⟨fun a _ => M.typeIsSubtype_refl a, fun a b c ha hb hc hab hbc => ?_, fun a b ha hb hab hba => ?_,
    fun a a' b b' ha ha' hb hb' haa hbb => ?_, fun a b ha hb => ?_⟩
  · exact (hiff ha hc).2 (htrans ha hb hc ((hiff ha hb).1 hab) ((hiff hb hc).1 hbc))
  · exact TySub.antisymm hM hW hexact ha hb ((hiff ha hb).1 hab) ((hiff hb ha).1 hba)
  · rw [Bool.eq_iff_iff, hiff ha hb, hiff ha' hb']
    constructor
    · exact fun hab => htrans ha' ha hb' (haa.symm.tySub hW) (htrans ha hb hb' hab (hbb.tySub hW))
    · exact fun hab => htrans ha ha' hb (haa.tySub hW) (htrans ha' hb' hb hab (hbb.symm.tySub hW))
  · rw [hiff ha hb]
    exact tySub_iff_specSub hW hexact ha hb

theorem subtyping_preorder_structs : ∃ M, parseTypeSection recGroupHashMix linkedStructs = some M ∧
    ∀ a b, M.Writes a → M.Writes b → (M.typeIsSubtype a b = true ↔ SpecSub M a b) :=
  ⟨_, rfl, (subtyping_preorder (show parseTypeSection recGroupHashMix linkedStructs = some _ from rfl)).2.2.2.2⟩

end

/-! ## The other deciders -/

section
variable {mix : UInt64 → UInt64 → UInt64} {M : LinkModule} {entries : List RecType} {a b : Ty} {s t : Nat}

/-- the module against itself -/
def selfPair (M : LinkModule) : ModulePair := ⟨M, M, true⟩

theorem typeRefEq_self_of_canon (h : M.canon s = M.canon t) : typeRefEq (selfPair M) (.ofIdx s) (.ofIdx t) = true := by
  simp [typeRefEq, GroupMemo.typeRefEq, Ty.ofIdx, selfPair, h]

/-- the walk of `wah_cross_module_subtype` finds what that of `wah_type_is_subtype` finds -/
theorem walkSupertypesAcross_self {fuel : Nat} (h : M.walkSupertypes t fuel s = true) :
    walkSupertypesAcross (selfPair M) (.ofIdx t) fuel s = true := by
  induction fuel generalizing s with
  | zero => simp [Module.walkSupertypes] at h
  | succ fuel ih =>
    rw [Module.walkSupertypes] at h
    rw [walkSupertypesAcross]
    have hsuper : (selfPair M).a.supertype s = M.supertype s := rfl
    rw [hsuper]
    cases hs : M.supertype s with
    | none => simp [hs] at h
    | some st =>
      simp only [hs, Bool.or_eq_true, decide_eq_true_eq] at h
      simp only [Bool.or_eq_true]
      rcases h with (rfl | hcanon) | hwalk
      · exact .inl (typeRefEq_self_of_canon rfl)
      · exact .inl (typeRefEq_self_of_canon hcanon)
      · exact .inr (ih hwalk)

/-- what `wah_type_is_subtype` accepts, `wah_cross_module_subtype` accepts within the module -/
theorem crossModuleSubtype_self_of_sub (ha : a ≠ .bot) (hb : b ≠ .bot) (h : M.typeIsSubtype a b = true) :
    crossModuleSubtype (selfPair M) a b = true := by
  unfold crossModuleSubtype
  split_ifs with hsame hnull heq
  · rfl
  · -- a nullable type is below nullable types only
    simp only [Module.typeIsSubtype, ha, decide_false, Bool.or_false, Bool.or_eq_true, decide_eq_true_eq] at h
    rcases h with rfl | h
    · simp at hnull
    · cases a with
      | ref n x =>
        cases b with
        | ref n' y => simp_all [Ty.isNullable]
        | _ => simp at h
      | _ => simp at h
  · rfl
  · have hne : a ≠ b := fun hab => hsame ⟨hab, rfl⟩
    split
    · rename_i n s n' t
      simp only [Module.typeIsSubtype, reduceCtorEq, decide_false, Bool.or_false, Bool.or_eq_true, decide_eq_true_eq,
        Bool.and_eq_true, hne, false_or, Module.heapIsSubtype, HeapTy.idx.injEq, Module.idxIsSubtype] at h
      have hcases : M.canon s = M.canon t ∨ M.walkSupertypes t M.typeDefs.length s = true := by
        rcases h.2 with rfl | hidx
        · exact .inl rfl
        · exact hidx.2
      simp only [Bool.or_eq_true, Bool.and_eq_true]
      rcases hcases with hcanon | hwalk
      · refine .inl ⟨?_, typeRefEq_self_of_canon hcanon⟩
        by_contra hnn
        obtain ⟨rfl, rfl⟩ : n = false ∧ n' = false := by simpa using hnn
        exact heq (typeRefEq_self_of_canon hcanon)
      · exact .inr (walkSupertypesAcross_self hwalk)
    · exact h
    · exact h

/-- the loop of `wah_type_accepts_repr` is the comparison of type indices -/
theorem acceptsLoop_eq (fuel : Nat) :
    CheckEnv.acceptsLoop M t (fuel + 1) s = (decide (M.canon s = M.canon t) || M.walkSupertypes t fuel s) := by
  induction fuel generalizing s with
  | zero =>
    rw [CheckEnv.acceptsLoop, Module.walkSupertypes]
    cases M.supertype s <;> simp [CheckEnv.acceptsLoop]
  | succ fuel ih =>
    rw [CheckEnv.acceptsLoop, Module.walkSupertypes]
    cases M.supertype s with
    | none => rfl
    | some st =>
      dsimp only
      rw [ih]
      by_cases hst : st = t
      · subst hst
        simp
      · simp [hst]

/-- the representation of a struct or array type is an entry for the type -/
theorem typeidxToRepr_spec (hs : s < M.typeCount) (hkind : (M.typeDef s).kind ≠ .func) :
    ∃ r : Nat, M.typeidxToRepr s = r ∧ ∃ k, (buildReprs M).1[r]? = some (k, s) := by
  have hfold : ∀ n ≤ M.typeCount, ∀ acc, acc = (List.range n).foldl (allocRepr M)
      ([], List.replicate M.typeCount reprNone) → acc.2.length = M.typeCount ∧ ∀ s < n, (M.typeDef s).kind ≠ .func →
        ∃ r : Nat, acc.2[s]? = some (r : Int) ∧ ∃ k, acc.1[r]? = some (k, s) := by
    intro n hn
    induction n with
    | zero =>
      rintro _ rfl
      simp
    | succ n ih =>
      rintro _ rfl
      obtain ⟨hlen, ih⟩ := ih (Nat.le_of_succ_le hn) _ rfl
      rw [List.range_succ, List.foldl_append, List.foldl_cons, List.foldl_nil]
      generalize (List.range n).foldl (allocRepr M) ([], List.replicate M.typeCount reprNone) = acc at hlen ih
      -- one more entry, of the type `n`
      have hnew : ∀ k : ReprType, (acc.2.set n (acc.1.length : Int)).length = M.typeCount ∧ ∀ s < n + 1,
          (M.typeDef s).kind ≠ .func → ∃ r : Nat, (acc.2.set n (acc.1.length : Int))[s]? = some (r : Int) ∧
            ∃ k', (acc.1 ++ [(k, n)])[r]? = some (k', s) := by
        intro k
        refine ⟨by simp [hlen], fun s hs hkind => ?_⟩
        rcases Nat.lt_succ_iff_lt_or_eq.1 hs with hlt | rfl
        · obtain ⟨r, hr, k', hk'⟩ := ih s hlt hkind
          have hr' : r < acc.1.length := (List.getElem?_eq_some_iff.1 hk').1
          exact ⟨r, by rw [List.getElem?_set_ne (by omega)]; exact hr, k', by
            rw [List.getElem?_append_left hr']
            exact hk'⟩
        · exact ⟨acc.1.length, by rw [List.getElem?_set_self (by omega)], k, by simp⟩
      unfold allocRepr
      cases hkind : (M.typeDef n).kind with
      | struct => exact hnew .struct
      | array => exact hnew .array
      | func =>
        refine ⟨hlen, fun s hs hk => ?_⟩
        rcases Nat.lt_succ_iff_lt_or_eq.1 hs with hlt | rfl
        · exact ih s hlt hk
        · exact absurd hkind hk
  obtain ⟨r, hr, hk⟩ := (hfold M.typeCount le_rfl _ rfl).2 s hs hkind
  exact ⟨r, by rw [LinkModule.typeidxToRepr, buildReprs, hr]; rfl, hk⟩

/-- **The deciders agree within a module.** On the value types of a module whose type section is accepted,
`wah_cross_module_subtype` of the module with itself is `wah_type_is_subtype`, whatever the nesting of references; and
casts of objects by their representation follow the subtyping of their types. -/
theorem deciders_agree (h : parseTypeSection mix entries = some M) :
    (∀ a b, M.Writes a → M.Writes b → crossModuleSubtype ⟨M, M, true⟩ a b = M.typeIsSubtype a b) ∧
    ∀ s t, s < M.typeCount → t < M.typeCount → (M.typeDef s).kind ≠ .func → (M.typeDef t).kind ≠ .func →
      CheckEnv.typeAcceptsRepr M t (M.typeidxToRepr s) = M.typeIsSubtype (.ofIdx s) (.ofIdx t) := by
  have hM := (parseTypeSection_spec h).1
  have hW := parsed_wellFormed h
  have hexact := (canonicalization_exact h).1
  refine ⟨fun a b ha hb => ?_, fun s t hs ht hks _ => ?_⟩
  · rw [Bool.eq_iff_iff]
    constructor
    · intro hsub
      have hmeaning : TySub (fun _ => M) 0 0 a b :=
        crossModuleSubtype_sound (fun _ => hW) ha hb (by simpa [pairOf] using hsub)
      exact (typeIsSubtype_iff hM hW hexact ha hb).2 hmeaning
    · intro hsub
      have hbot : ∀ {c}, M.Writes c → c ≠ .bot := by
        rintro _ hc rfl
        exact hc
      exact crossModuleSubtype_self_of_sub (hbot ha) (hbot hb) hsub
  · obtain ⟨r, hr, k, hk⟩ := typeidxToRepr_spec hs hks
    rw [← (parseTypeSection_spec h).2.2.2.1] at hk
    have hlen : M.typeDefs.length = M.typeCount := rfl
    simp only [CheckEnv.typeAcceptsRepr, hr, Int.toNat_natCast, hk, ht, decide_true, Bool.true_and, acceptsLoop_eq,
      Module.typeIsSubtype, Ty.ofIdx, Module.heapIsSubtype, Module.idxIsSubtype, hlen, hs]
    by_cases hst : s = t
    · subst hst
      simp
    · simp [hst]

theorem deciders_agree_structs : ∃ M, parseTypeSection recGroupHashMix linkedStructs = some M ∧
    CheckEnv.typeAcceptsRepr M 0 (M.typeidxToRepr 1) = M.typeIsSubtype (.ofIdx 1) (.ofIdx 0) :=
  ⟨_, rfl, (deciders_agree (show parseTypeSection recGroupHashMix linkedStructs = some _ from rfl)).2 1 0 (by decide)
    (by decide) (by decide) (by decide)⟩

end

end Wah
