/-
What types of different modules mean: subtyping, and the values that belong to a type.

Model:
- a type is a subtype of another when a declared supertype of it is the same as the other (`SubType`); value types are
  compared by nullability and heap type (`TySub`);
- a value has a dynamic type (`DynType`), which belongs to a declared type by its kind, by subtyping, or for host
  functions by their parameters and results.

Results: a type that `crossModuleSubtype` accepts is a subtype, subtyping is transitive across modules, and values that
belong to a type belong to its supertypes.
-/
import Wah.TypeIdentity

namespace Wah

/-! ## Subtyping across modules -/

section
variable (modules : ModuleId → LinkModule)

/-- a type and the supertype it declares -/
def DeclaredSuper (x y : TypeNode) : Prop := x.1 = y.1 ∧ (modules x.1).supertype x.2 = some y.2

/-- the type itself, or a supertype declared in its module, is the same as the other type -/
def SubType (x y : TypeNode) : Prop :=
  ∃ z, Relation.ReflTransGen (DeclaredSuper modules) x z ∧ SameType modules z y

/-- the type index is one of the module -/
def TypeNode.Declared (x : TypeNode) : Prop := x.2 < (modules x.1).typeCount

def TypeNode.kind (x : TypeNode) : CompKind := ((modules x.1).typeDef x.2).kind

end

section
variable {modules : ModuleId → LinkModule} (hW : WellFormedModules modules) {x y z : TypeNode}
include hW

omit hW in
theorem SameType.rel (h : SameType modules x y) : (typeRelator modules).rel (SameType modules) x y :=
  Relator.Bisimilar.unfold h

/-- members of the groups of two types that are the same, at equal offsets -/
theorem SameType.member (h : SameType modules x y) {k : Nat} (hx : x.Declared modules) (hy : y.Declared modules)
    (hk : k < ((modules x.1).recGroup x.2).2) :
    SameType modules (x.1, ((modules x.1).recGroup x.2).1 + k) (y.1, ((modules y.1).recGroup y.2).1 + k) := by
  obtain ⟨hsize, -, hdefs⟩ := h.rel
  have hgx := (hW x.1).group_members x.2 hx k hk
  have hgy := (hW y.1).group_members y.2 hy k (hsize ▸ hk)
  apply Relator.Bisimilar.fold
  refine ⟨?_, ?_, ?_⟩
  all_goals simp only [hgx, hgy]
  · exact hsize
  · omega
  · exact hdefs

/-- the definitions of two types that are the same match, and so do the types in them -/
theorem SameType.defMatch (h : SameType modules x y) (hx : x.Declared modules) (hy : y.Declared modules) :
    DefMatch (TyMatch fun u v => SameType modules (x.1, u) (y.1, v)) ((modules x.1).typeDef x.2)
      ((modules y.1).typeDef y.2) ((modules x.1).final x.2) ((modules y.1).final y.2) := by
  obtain ⟨hsize, hoff, hdefs⟩ := h.rel
  have hinx := (hW x.1).group_self x.2 hx
  have hiny := (hW y.1).group_self y.2 hy
  have hk : x.2 - ((modules x.1).recGroup x.2).1 < ((modules x.1).recGroup x.2).2 := by unfold inGroup at hinx; omega
  have hdef := hdefs _ hk
  have hxk : ((modules x.1).recGroup x.2).1 + (x.2 - ((modules x.1).recGroup x.2).1) = x.2 :=
    Nat.add_sub_cancel' hinx.1
  have hyk : ((modules y.1).recGroup y.2).1 + (x.2 - ((modules x.1).recGroup x.2).1) = y.2 := by
    rw [hoff]
    exact Nat.add_sub_cancel' hiny.1
  rw [hxk, hyk] at hdef
  refine hdef.mono fun a b => .mono fun u v huv => ?_
  rcases huv with ⟨hu, hv, huv⟩ | ⟨-, -, huv⟩
  · have hgroup : SameGroup modules x.1 y.1 ((modules x.1).recGroup x.2) ((modules y.1).recGroup y.2) :=
      fun k hk => h.member hW hx hy hk
    exact hgroup.sameType hu hv huv
  · exact huv

theorem SameType.kind_eq (h : SameType modules x y) (hx : x.Declared modules) (hy : y.Declared modules) :
    x.kind modules = y.kind modules := (h.defMatch hW hx hy).kind

/-- supertypes of declared types are declared, and of the same kind -/
theorem DeclaredSuper.spec (h : DeclaredSuper modules x y) (hx : x.Declared modules) :
    y.Declared modules ∧ y.kind modules = x.kind modules := by
  obtain ⟨m, i⟩ := x
  obtain ⟨_, j⟩ := y
  obtain ⟨rfl, hsup⟩ := h
  refine ⟨?_, (hW m).super_kind i hx j hsup⟩
  have hdef : ((modules m).typeDef i).supertype = some j := by
    rw [Module.supertype, List.getElem?_eq_getElem hx] at hsup
    simpa [LinkModule.typeDef, List.getElem?_eq_getElem hx] using hsup
  have hmem : Ty.ofIdx j ∈ ((modules m).typeDef i).types := by simp [TypeDef.types, hdef]
  have hbelow := (hW m).refs_below i hx _ hmem
  have hlt : j < ((modules m).recGroup i).1 + ((modules m).recGroup i).2 := by
    simpa [Ty.idxBelow, Ty.typeIdx, Ty.ofIdx] using hbelow
  exact hlt.trans_le ((hW m).group_end i hx)

theorem DeclaredSuper.chain_spec (h : Relation.ReflTransGen (DeclaredSuper modules) x y) (hx : x.Declared modules) :
    y.Declared modules ∧ y.kind modules = x.kind modules := by
  induction h with
  | refl => exact ⟨hx, rfl⟩
  | tail _ hstep ih =>
    obtain ⟨hdecl, hkind⟩ := hstep.spec hW ih.1
    exact ⟨hdecl, hkind.trans ih.2⟩

/-- types that are the same declare supertypes that are the same -/
theorem SameType.super (h : SameType modules x y) (hx : x.Declared modules) (hy : y.Declared modules)
    (hsup : DeclaredSuper modules y z) : ∃ w, DeclaredSuper modules x w ∧ SameType modules w z := by
  obtain ⟨my, j⟩ := y
  obtain ⟨mz, v⟩ := z
  obtain ⟨rfl, hsup⟩ := hsup
  have hrel := (h.defMatch hW hx hy).supertype
  have hv : ((modules my).typeDef j).supertype = some v := by
    rw [Module.supertype, List.getElem?_eq_getElem hy] at hsup
    simpa [LinkModule.typeDef, List.getElem?_eq_getElem hy] using hsup
  rw [hv] at hrel
  cases hu : ((modules x.1).typeDef x.2).supertype with
  | none =>
    rw [hu] at hrel
    cases hrel
  | some u =>
    rw [hu] at hrel
    cases hrel with
    | some hT =>
      refine ⟨(x.1, u), ⟨rfl, ?_⟩, ?_⟩
      · rw [LinkModule.typeDef, List.getElem?_eq_getElem hx] at hu
        simpa [Module.supertype, List.getElem?_eq_getElem hx] using hu
      · cases hT with
        | idx h => exact h
        | other h => simp [Ty.typeIdx, Ty.ofIdx] at h

theorem SameType.chain (h : SameType modules x y) (hx : x.Declared modules) (hy : y.Declared modules)
    (hchain : Relation.ReflTransGen (DeclaredSuper modules) y z) :
    ∃ w, Relation.ReflTransGen (DeclaredSuper modules) x w ∧ SameType modules w z := by
  induction hchain with
  | refl => exact ⟨x, .refl, h⟩
  | tail hyb hbz ih =>
    obtain ⟨w, hxw, hwb⟩ := ih
    have hw := (DeclaredSuper.chain_spec hW hxw hx).1
    have hb := (DeclaredSuper.chain_spec hW hyb hy).1
    obtain ⟨w', hww', hw'z⟩ := hwb.super hW hw hb hbz
    exact ⟨w', hxw.tail hww', hw'z⟩

/-- **Subtyping is transitive across modules.** -/
theorem SubType.trans (h : SubType modules x y) (h' : SubType modules y z) (hx : x.Declared modules)
    (hy : y.Declared modules) : SubType modules x z := by
  obtain ⟨w, hxw, hwy⟩ := h
  obtain ⟨w', hyw', hw'z⟩ := h'
  obtain ⟨w'', hww'', hw''w'⟩ := hwy.chain hW (DeclaredSuper.chain_spec hW hxw hx).1 hy hyw'
  exact ⟨w'', hxw.trans hww'', hw''w'.trans hw'z⟩

theorem SubType.kind_eq (h : SubType modules x y) (hx : x.Declared modules) (hy : y.Declared modules) :
    x.kind modules = y.kind modules := by
  obtain ⟨w, hxw, hwy⟩ := h
  obtain ⟨hw, hkind⟩ := DeclaredSuper.chain_spec hW hxw hx
  exact hkind.symm.trans (hwy.kind_eq hW hw hy)

omit hW in
theorem SubType.of_same (h : SameType modules x y) : SubType modules x y := ⟨x, .refl, h⟩

end

/-! ## Value types -/

instance : Fintype AbsHeap where
  elems := {.func, .externRef, .any, .eq, .i31, .struct, .array, .exn, .nofunc, .noexternRef, .none, .noexn}
  complete a := by cases a <;> decide

instance : Fintype CompKind where
  elems := {.func, .struct, .array}
  complete c := by cases c <;> decide

/-- the abstract heap types above a type index, by its kind -/
def kindBelow : CompKind → AbsHeap → Bool
  | .struct, .struct | .struct, .eq | .struct, .any => true
  | .array, .array | .array, .eq | .array, .any => true
  | .func, .func => true
  | _, _ => false

/-- the bottom types below a type index, by its kind -/
def bottomBelow : AbsHeap → CompKind → Bool
  | .none, .struct | .none, .array | .nofunc, .func => true
  | _, _ => false

/-- an abstract heap type below another or the same -/
def absBelow (k k' : AbsHeap) : Bool := decide (k = k') || absIsSubtype k k'

section
variable (modules : ModuleId → LinkModule)

/-- heap types of two modules, the first below the second -/
def HeapSub (m m' : ModuleId) : HeapTy → HeapTy → Prop
  | .idx a, .idx b => SubType modules (m, a) (m', b)
  | .idx a, .abs k => kindBelow (TypeNode.kind modules (m, a)) k = true
  | .abs k, .idx b => bottomBelow k (TypeNode.kind modules (m', b)) = true
  | .abs k, .abs k' => absBelow k k' = true

/-- value types of two modules, the first below the second -/
inductive TySub (m m' : ModuleId) : Ty → Ty → Prop where
  | ref {n n' : Bool} {x y : HeapTy} (hn : n = true → n' = true) (h : HeapSub modules m m' x y) :
    TySub m m' (.ref n x) (.ref n' y)
  | num {t : Ty} (h : t.isRef = false) : TySub m m' t t

/-- the heap type is one of the module -/
def HeapTy.Declared (m : ModuleId) : HeapTy → Prop
  | .idx a => TypeNode.Declared modules (m, a)
  | .abs _ => True

/-- the value type can be declared in the module -/
def Ty.Declared (m : ModuleId) : Ty → Prop
  | .ref _ h => h.Declared modules m
  | .bot => False
  | _ => True

end

theorem absBelow_trans : ∀ a b c, absBelow a b → absBelow b c → absBelow a c := by decide

theorem kindBelow_absBelow : ∀ c a b, kindBelow c a → absBelow a b → kindBelow c b := by decide

theorem bottomBelow_kindBelow : ∀ a c b, bottomBelow a c → kindBelow c b → absBelow a b := by decide

theorem absBelow_bottomBelow : ∀ a b c, absBelow a b → bottomBelow b c → bottomBelow a c := by decide

theorem not_kindBelow_bottomBelow : ∀ c a c', kindBelow c a → ¬ bottomBelow a c' := by decide

section
variable {modules : ModuleId → LinkModule} (hW : WellFormedModules modules) {m m' m'' : ModuleId}
include hW

theorem HeapSub.trans {a b c : HeapTy} (h : HeapSub modules m m' a b) (h' : HeapSub modules m' m'' b c)
    (ha : a.Declared modules m) (hb : b.Declared modules m') (hc : c.Declared modules m'') :
    HeapSub modules m m'' a c := by
  cases a with
  | idx a =>
    cases b with
    | idx b =>
      cases c with
      | idx c => exact SubType.trans hW h h' ha hb
      | abs k =>
        have hkind : TypeNode.kind modules (m, a) = TypeNode.kind modules (m', b) := SubType.kind_eq hW h ha hb
        simpa only [HeapSub, hkind] using h'
    | abs k =>
      cases c with
      | idx c => exact absurd h' (not_kindBelow_bottomBelow _ _ _ h)
      | abs k' => exact kindBelow_absBelow _ _ _ h h'
  | abs k =>
    cases b with
    | idx b =>
      cases c with
      | idx c =>
        have hkind : TypeNode.kind modules (m', b) = TypeNode.kind modules (m'', c) := SubType.kind_eq hW h' hb hc
        simpa only [HeapSub, hkind] using h
      | abs k' => exact bottomBelow_kindBelow _ _ _ h h'
    | abs k' =>
      cases c with
      | idx c => exact absBelow_bottomBelow _ _ _ h h'
      | abs k'' => exact absBelow_trans _ _ _ h h'

theorem TySub.trans {a b c : Ty} (h : TySub modules m m' a b) (h' : TySub modules m' m'' b c)
    (ha : a.Declared modules m) (hb : b.Declared modules m') (hc : c.Declared modules m'') :
    TySub modules m m'' a c := by
  cases h with
  | ref hn h =>
    cases h' with
    | ref hn' h' => exact .ref (fun h => hn' (hn h)) (h.trans hW h' ha hb hc)
    | num h' => simp [Ty.isRef] at h'
  | num h =>
    cases h' with
    | ref _ _ => simp [Ty.isRef] at h
    | num _ => exact .num h

omit hW in
theorem HeapSub.refl (m : ModuleId) (x : HeapTy) : HeapSub modules m m x x := by
  cases x with
  | idx a => exact SubType.of_same (.refl _)
  | abs k => simp [HeapSub, absBelow]

omit hW in
theorem TySub.refl (m : ModuleId) (a : Ty) : TySub modules m m a a := by
  cases a with
  | ref n x => exact .ref id (HeapSub.refl m x)
  | _ => exact .num rfl

omit hW in
/-- types that match are below each other -/
theorem TySub.of_match {a b : Ty} (h : TyMatch (fun u v => SameType modules (m, u) (m', v)) a b) :
    TySub modules m m' a b := by
  cases h with
  | idx h => exact .ref id (SubType.of_same h)
  | other h =>
    cases a with
    | ref n x =>
      cases x with
      | idx u => simp [Ty.typeIdx] at h
      | abs k => exact .ref id (by simp [HeapSub, absBelow])
    | _ => exact .num rfl

/-! ## Soundness of the subtype checks -/

omit hW in
theorem Ty.Declared.idxBelow {a : Ty} (ha : a.Declared modules m) : a.idxBelow (modules m).typeCount = true := by
  cases hidx : a.typeIdx with
  | none => simp [Ty.idxBelow, hidx]
  | some u =>
    obtain ⟨n, rfl⟩ := Ty.eq_of_typeIdx hidx
    simp only [Ty.idxBelow, hidx, Option.all_some, decide_eq_true_eq]
    exact ha

theorem sameType_of_typeRefEq {u v : Nat} (hu : TypeNode.Declared modules (m, u))
    (hv : TypeNode.Declared modules (m', v)) (h : typeRefEq (pairOf modules m m') (.ofIdx u) (.ofIdx v) = true) :
    SameType modules (m, u) (m', v) := by
  have hdu : (Ty.ofIdx u).Declared modules m := hu
  have hdv : (Ty.ofIdx v).Declared modules m' := hv
  cases typeRefEq_sound hW hdu.idxBelow hdv.idxBelow h with
  | idx hsame => exact hsame
  | other hnone => simp [Ty.typeIdx, Ty.ofIdx] at hnone

/-- the walk over declared supertypes within a module -/
theorem walkSupertypes_sound {sup fuel t : Nat} (h : (modules m).walkSupertypes sup fuel t = true) :
    SubType modules (m, t) (m, sup) := by
  induction fuel generalizing t with
  | zero => simp [Module.walkSupertypes] at h
  | succ fuel ih =>
    rw [Module.walkSupertypes] at h
    split at h
    · simp at h
    · rename_i st hst
      have hstep : DeclaredSuper modules (m, t) (m, st) := ⟨rfl, hst⟩
      simp only [Bool.or_eq_true, decide_eq_true_eq] at h
      obtain (rfl | hcanon) | hrest := h
      · exact ⟨_, .single hstep, .refl _⟩
      · exact ⟨_, .single hstep, sameType_of_canon hW hcanon⟩
      · obtain ⟨z, hchain, hz⟩ := ih hrest
        exact ⟨z, hchain.head hstep, hz⟩

omit hW in
theorem typeDefKind_of_declared {a : Nat} (ha : TypeNode.Declared modules (m, a)) :
    (modules m).typeDefKind a = some (TypeNode.kind modules (m, a)) := by
  have hlt : a < (modules m).typeDefs.length := ha
  simp [Module.typeDefKind, TypeNode.kind, LinkModule.typeDef, List.getElem?_eq_getElem hlt]

theorem heapIsSubtype_sound {x y : HeapTy} (hx : x.Declared modules m) (hy : y.Declared modules m)
    (h : (modules m).heapIsSubtype x y = true) : HeapSub modules m m x y := by
  rw [Module.heapIsSubtype.eq_def, Bool.or_eq_true, decide_eq_true_eq] at h
  obtain rfl | h := h
  · exact HeapSub.refl m x
  cases x with
  | idx a =>
    cases y with
    | idx b =>
      simp only [Module.idxIsSubtype, Bool.and_eq_true, Bool.or_eq_true, decide_eq_true_eq] at h
      obtain ⟨-, hcanon | hwalk⟩ := h
      · exact SubType.of_same (sameType_of_canon hW hcanon)
      · exact walkSupertypes_sound hW hwalk
    | abs k =>
      simp only [typeDefKind_of_declared hx] at h
      simp only [HeapSub]
      generalize TypeNode.kind modules (m, a) = c at h
      revert h
      cases c <;> cases k <;> decide
  | abs k =>
    cases y with
    | idx b =>
      simp only [typeDefKind_of_declared hy] at h
      simp only [HeapSub]
      generalize TypeNode.kind modules (m, b) = c at h
      revert h
      cases c <;> cases k <;> decide
    | abs k' =>
      simp only [HeapSub, absBelow, Bool.or_eq_true]
      exact Or.inr h

/-- **Subtypes within a module.** What `wah_type_is_subtype` accepts is a subtype. -/
theorem typeIsSubtype_sound {a b : Ty} (ha : a.Declared modules m) (hb : b.Declared modules m)
    (h : (modules m).typeIsSubtype a b = true) : TySub modules m m a b := by
  simp only [Module.typeIsSubtype, Bool.or_eq_true, decide_eq_true_eq] at h
  obtain (rfl | rfl) | h := h
  · exact TySub.refl m a
  · exact ha.elim
  · cases a with
    | ref n x =>
      cases b with
      | ref n' y =>
        simp only [Bool.and_eq_true] at h
        refine .ref (fun hn => ?_) (heapIsSubtype_sound hW ha hb h.2)
        simpa [hn] using h.1
      | _ => simp at h
    | _ => simp at h

/-- the walk over declared supertypes, compared with a type of another module -/
theorem walkSupertypesAcross_sound {sup fuel t : Nat} (ht : TypeNode.Declared modules (m, t))
    (hsup : TypeNode.Declared modules (m', sup))
    (h : walkSupertypesAcross (pairOf modules m m') (.ofIdx sup) fuel t = true) :
    SubType modules (m, t) (m', sup) := by
  induction fuel generalizing t with
  | zero => simp [walkSupertypesAcross] at h
  | succ fuel ih =>
    rw [walkSupertypesAcross] at h
    split at h
    · simp at h
    · rename_i st hst
      have hstep : DeclaredSuper modules (m, t) (m, st) := ⟨rfl, hst⟩
      have hst' : TypeNode.Declared modules (m, st) := (hstep.spec hW ht).1
      simp only [Bool.or_eq_true] at h
      obtain heq | hrest := h
      · exact ⟨_, .single hstep, sameType_of_typeRefEq hW hst' hsup heq⟩
      · obtain ⟨z, hchain, hz⟩ := ih hst' hrest
        exact ⟨z, hchain.head hstep, hz⟩

omit hW in
/-- types without a type index mean the same in every module -/
theorem Ty.Declared.of_typeIdx_none {a : Ty} (ha : a.Declared modules m) (h : a.typeIdx = none) :
    a.Declared modules m' := by
  cases a with
  | ref n x =>
    cases x with
    | idx u => simp [Ty.typeIdx] at h
    | abs k => trivial
  | bot => exact ha
  | _ => trivial

omit hW in
theorem TySub.right_of_none {a b : Ty} (h : TySub modules m m a b) (hb : b.typeIdx = none) :
    TySub modules m m' a b := by
  cases h with
  | num h => exact .num h
  | @ref n n' x y hn h =>
    cases y with
    | idx u => simp [Ty.typeIdx] at hb
    | abs k => cases x <;> exact .ref hn h

omit hW in
theorem TySub.left_of_none {a b : Ty} (h : TySub modules m' m' a b) (ha : a.typeIdx = none) :
    TySub modules m m' a b := by
  cases h with
  | num h => exact .num h
  | @ref n n' x y hn h =>
    cases x with
    | idx u => simp [Ty.typeIdx] at ha
    | abs k => cases y <;> exact .ref hn h

/-- **Subtypes across modules.** What `wah_cross_module_subtype` accepts is a subtype. -/
theorem crossModuleSubtype_sound {a b : Ty} (ha : a.Declared modules m) (hb : b.Declared modules m')
    (h : crossModuleSubtype (pairOf modules m m') a b = true) : TySub modules m m' a b := by
  unfold crossModuleSubtype at h
  split_ifs at h with hsame hnull heq
  · obtain ⟨rfl, hm⟩ := hsame
    obtain rfl : m = m' := by simpa using hm
    exact TySub.refl m a
  · exact TySub.of_match (typeRefEq_sound hW ha.idxBelow hb.idxBelow heq)
  · split at h
    · rename_i n s n' t
      have hn : n = true → n' = true := by
        rintro rfl
        simpa [Ty.isNullable] using hnull
      simp only [Bool.or_eq_true, Bool.and_eq_true] at h
      obtain ⟨-, heq⟩ | hwalk := h
      · exact .ref hn (SubType.of_same (sameType_of_typeRefEq hW ha hb heq))
      · exact .ref hn (walkSupertypesAcross_sound hW ha hb hwalk)
    · rename_i n s hidx
      have hnone : b.typeIdx = none := Ty.typeIdx_eq_none fun n' t hb => hidx n' t hb
      exact (typeIsSubtype_sound hW ha (hb.of_typeIdx_none hnone) h).right_of_none hnone
    · rename_i hidx hidx'
      have hnone : a.typeIdx = none := Ty.typeIdx_eq_none fun n s ha => hidx n s ha
      exact (typeIsSubtype_sound hW (ha.of_typeIdx_none hnone) hb h).left_of_none hnone

end

/-! ## Values and the types they belong to -/

/-- the dynamic type of a reference that is not null: objects and wasm functions have a defining type -/
inductive DynType where
  | i31
  | host
  | exn
  | object (x : TypeNode)
  | func (x : TypeNode)
  | hostFunc (m : ModuleId) (params results : List Ty)
deriving DecidableEq, Repr

/-- what abstract heap types see of a value: that it is no object of wasm, or its kind -/
inductive DynTag where
  | i31 | host | exn
  | comp (c : CompKind)
deriving DecidableEq, Repr

instance : Fintype DynTag where
  elems := {.i31, .host, .exn, .comp .func, .comp .struct, .comp .array}
  complete t := by
    cases t with
    | comp c => cases c <;> decide
    | _ => decide

/-- the abstract heap types a value belongs to; externalized and internalized references are the same values -/
def DynTag.belongsAbs : DynTag → AbsHeap → Bool
  | .i31, .any | .i31, .externRef | .i31, .eq | .i31, .i31 => true
  | .host, .any | .host, .externRef => true
  | .exn, .exn => true
  | .comp .struct, .externRef | .comp .array, .externRef => true
  | .comp c, k => kindBelow c k
  | _, _ => false

theorem DynTag.belongsAbs_absBelow : ∀ (t : DynTag) k k', t.belongsAbs k → absBelow k k' → t.belongsAbs k' := by decide

theorem DynTag.not_belongsAbs_bottom : ∀ (t : DynTag) k c, t.belongsAbs k → ¬ bottomBelow k c := by decide

theorem DynTag.belongsAbs_kind : ∀ c k, kindBelow c k → (DynTag.comp c).belongsAbs k := by decide

section
variable (modules : ModuleId → LinkModule)

/-- the function type of a node -/
def TypeNode.funcType (x : TypeNode) : FuncType := ((modules x.1).typeDef x.2).func

/-- defining types are declared and of the kind of the value -/
def DynType.Valid : DynType → Prop
  | .object x => x.Declared modules ∧ x.kind modules ≠ .func
  | .func x => x.Declared modules ∧ x.kind modules = .func
  | .hostFunc m params results => ∀ t ∈ params ++ results, t.Declared modules m
  | _ => True

/-- a host function fits a function type: parameters one way and results the other -/
structure HostFits (m : ModuleId) (params results : List Ty) (y : TypeNode) : Prop where
  kind : y.kind modules = .func
  params : List.Forall₂ (TySub modules y.1 m) (y.funcType modules).params params
  results : List.Forall₂ (TySub modules m y.1) results (y.funcType modules).results

/-- what abstract heap types see of a value -/
def DynType.tag : DynType → DynTag
  | .i31 => .i31
  | .host => .host
  | .exn => .exn
  | .object x | .func x => .comp (x.kind modules)
  | .hostFunc _ _ _ => .comp .func

/-- the value belongs to the heap type of the module -/
def DynType.Belongs (d : DynType) (m : ModuleId) : HeapTy → Prop
  | .abs k => (d.tag modules).belongsAbs k = true
  | .idx t =>
    match d with
    | .object x | .func x => SubType modules x (m, t)
    | .hostFunc m' params results => HostFits modules m' params results (m, t)
    | _ => False

end

section
variable {modules : ModuleId → LinkModule} (hW : WellFormedModules modules) {m m' m'' : ModuleId} {x y : TypeNode}

theorem forall₂_of_zipWith_all {f : Ty → Ty → Bool} {as bs : List Ty} (hlen : as.length = bs.length)
    (h : (List.zipWith f as bs).all id = true) : List.Forall₂ (fun a b => f a b = true) as bs := by
  induction as generalizing bs with
  | nil =>
    cases bs with
    | nil => exact .nil
    | cons b bs => simp at hlen
  | cons a as ih =>
    cases bs with
    | nil => simp at hlen
    | cons b bs =>
      simp only [List.zipWith_cons_cons, List.all_cons, id, Bool.and_eq_true] at h
      exact .cons h.1 (ih (by simpa using hlen) h.2)

include hW

theorem forall₂_tySub_trans {as bs cs : List Ty} (hab : List.Forall₂ (TySub modules m m') as bs)
    (hbc : List.Forall₂ (TySub modules m' m'') bs cs) (ha : ∀ t ∈ as, t.Declared modules m)
    (hb : ∀ t ∈ bs, t.Declared modules m') (hc : ∀ t ∈ cs, t.Declared modules m'') :
    List.Forall₂ (TySub modules m m'') as cs := by
  induction hab generalizing cs with
  | nil =>
    cases hbc
    exact .nil
  | cons h _ ih =>
    cases hbc with
    | cons h' hbc =>
      simp only [List.mem_cons, forall_eq_or_imp] at ha hb hc
      exact .cons (h.trans hW h' ha.1 hb.1 hc.1) (ih hbc ha.2 hb.2 hc.2)

theorem forall₂_typeIsSubtype_sound {as bs : List Ty} (hlen : as.length = bs.length)
    (h : (List.zipWith (modules m).typeIsSubtype as bs).all id = true) (ha : ∀ t ∈ as, t.Declared modules m)
    (hb : ∀ t ∈ bs, t.Declared modules m) : List.Forall₂ (TySub modules m m) as bs := by
  have hall := forall₂_of_zipWith_all hlen h
  clear h hlen
  induction hall with
  | nil => exact .nil
  | cons h _ ih =>
    simp only [List.mem_cons, forall_eq_or_imp] at ha hb
    exact .cons (typeIsSubtype_sound hW ha.1 hb.1 h) (ih ha.2 hb.2)

/-- the types a declared function type mentions are declared -/
theorem funcType_declared (hx : x.Declared modules) (hkind : x.kind modules = .func) {t : Ty}
    (ht : t ∈ (x.funcType modules).params ++ (x.funcType modules).results) : t.Declared modules x.1 := by
  have hmem : t ∈ ((modules x.1).typeDef x.2).types := by
    rw [TypeDef.types, if_pos (show ((modules x.1).typeDef x.2).kind = .func from hkind)]
    exact List.mem_append_right _ ht
  have hbelow := (hW x.1).refs_below x.2 hx t hmem
  have hbot := (hW x.1).no_bot x.2 hx
  have hend := (hW x.1).group_end x.2 hx
  cases t with
  | ref n h =>
    cases h with
    | idx u =>
      have hlt : u < ((modules x.1).recGroup x.2).1 + ((modules x.1).recGroup x.2).2 := by
        simpa [Ty.idxBelow, Ty.typeIdx] using hbelow
      exact hlt.trans_le hend
    | abs k => trivial
  | bot => exact hbot hmem
  | _ => trivial

/-- a host function that fits a type fits its declared supertype -/
theorem HostFits.super {params results : List Ty} (h : HostFits modules m params results x)
    (hv : ∀ t ∈ params ++ results, t.Declared modules m) (hx : x.Declared modules) (hsup : DeclaredSuper modules x y) :
    HostFits modules m params results y := by
  obtain ⟨hy, hkind⟩ := hsup.spec hW hx
  have hykind : y.kind modules = .func := hkind.trans h.kind
  have hxd := fun t ht => funcType_declared hW hx h.kind (t := t) ht
  have hyd := fun t ht => funcType_declared hW hy hykind (t := t) ht
  obtain ⟨mx, i⟩ := x
  obtain ⟨_, j⟩ := y
  obtain ⟨rfl, hsup⟩ := hsup
  have hfit := (hW mx).super_func i hx j hsup h.kind
  simp only [funcSubtype, Bool.and_eq_true, decide_eq_true_eq] at hfit
  obtain ⟨⟨⟨hlenp, hlenr⟩, hp⟩, hr⟩ := hfit
  simp only [List.mem_append] at hxd hyd hv
  have hparams : List.Forall₂ (TySub modules mx mx) ((modules mx).typeDef j).func.params
      ((modules mx).typeDef i).func.params :=
    forall₂_typeIsSubtype_sound hW hlenp.symm hp (fun t ht => hyd t (Or.inl ht)) fun t ht => hxd t (Or.inl ht)
  have hresults : List.Forall₂ (TySub modules mx mx) ((modules mx).typeDef i).func.results
      ((modules mx).typeDef j).func.results :=
    forall₂_typeIsSubtype_sound hW hlenr hr (fun t ht => hxd t (Or.inr ht)) fun t ht => hyd t (Or.inr ht)
  refine ⟨hykind, ?_, ?_⟩
  · exact forall₂_tySub_trans hW hparams h.params (fun t ht => hyd t (Or.inl ht)) (fun t ht => hxd t (Or.inl ht))
      fun t ht => hv t (Or.inl ht)
  · exact forall₂_tySub_trans hW h.results hresults (fun t ht => hv t (Or.inr ht)) (fun t ht => hxd t (Or.inr ht))
      fun t ht => hyd t (Or.inr ht)

/-- a host function that fits a type fits every type that is the same -/
theorem HostFits.same {params results : List Ty} (h : HostFits modules m params results x)
    (hv : ∀ t ∈ params ++ results, t.Declared modules m) (hx : x.Declared modules) (hy : y.Declared modules)
    (hsame : SameType modules x y) : HostFits modules m params results y := by
  have hykind : y.kind modules = .func := (hsame.kind_eq hW hx hy).symm.trans h.kind
  have hxd := fun t ht => funcType_declared hW hx h.kind (t := t) ht
  have hyd := fun t ht => funcType_declared hW hy hykind (t := t) ht
  simp only [List.mem_append] at hxd hyd hv
  have hparams : List.Forall₂ (TySub modules y.1 x.1) (y.funcType modules).params (x.funcType modules).params :=
    ((SameType.defMatch hW hsame.symm hy hx).params hykind).imp fun _ _ => TySub.of_match
  have hresults : List.Forall₂ (TySub modules x.1 y.1) (x.funcType modules).results (y.funcType modules).results :=
    ((hsame.defMatch hW hx hy).results h.kind).imp fun _ _ => TySub.of_match
  refine ⟨hykind, ?_, ?_⟩
  · exact forall₂_tySub_trans hW hparams h.params (fun t ht => hyd t (Or.inl ht)) (fun t ht => hxd t (Or.inl ht))
      fun t ht => hv t (Or.inl ht)
  · exact forall₂_tySub_trans hW h.results hresults (fun t ht => hv t (Or.inr ht)) (fun t ht => hxd t (Or.inr ht))
      fun t ht => hyd t (Or.inr ht)

theorem HostFits.sub {params results : List Ty} (h : HostFits modules m params results x)
    (hv : ∀ t ∈ params ++ results, t.Declared modules m) (hx : x.Declared modules) (hy : y.Declared modules)
    (hsub : SubType modules x y) : HostFits modules m params results y := by
  obtain ⟨z, hchain, hsame⟩ := hsub
  have hfits : HostFits modules m params results z := by
    clear hsame
    induction hchain with
    | refl => exact h
    | tail hxb hbz ih => exact ih.super hW hv (DeclaredSuper.chain_spec hW hxb hx).1 hbz
  exact hfits.same hW hv (DeclaredSuper.chain_spec hW hchain hx).1 hy hsame

/-- a value of a type index is of the kind of the type -/
theorem DynType.Belongs.tag_eq {d : DynType} {t : Nat} (h : d.Belongs modules m (.idx t)) (hd : d.Valid modules)
    (ht : TypeNode.Declared modules (m, t)) : d.tag modules = .comp (TypeNode.kind modules (m, t)) := by
  cases d with
  | object x => exact congrArg _ (SubType.kind_eq hW h hd.1 ht)
  | func x => exact congrArg _ (SubType.kind_eq hW h hd.1 ht)
  | hostFunc mf params results => exact congrArg _ (HostFits.kind h).symm
  | _ => exact h.elim

/-- **Values of a type are values of its supertypes.** -/
theorem DynType.Belongs.sub {d : DynType} {a b : HeapTy} (h : d.Belongs modules m a) (hd : d.Valid modules)
    (ha : a.Declared modules m) (hb : b.Declared modules m') (hsub : HeapSub modules m m' a b) :
    d.Belongs modules m' b := by
  cases a with
  | abs k =>
    cases b with
    | abs k' => exact DynTag.belongsAbs_absBelow _ _ _ h hsub
    | idx t => exact absurd hsub (DynTag.not_belongsAbs_bottom _ _ _ h)
  | idx s =>
    cases b with
    | abs k =>
      have htag := h.tag_eq hW hd ha
      simp only [DynType.Belongs, htag]
      exact DynTag.belongsAbs_kind _ _ hsub
    | idx t =>
      cases d with
      | object x => exact SubType.trans hW h hsub hd.1 ha
      | func x => exact SubType.trans hW h hsub hd.1 ha
      | hostFunc mf params results => exact HostFits.sub hW h hd ha hb hsub
      | _ => exact h

end

end Wah
