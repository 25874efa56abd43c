/-
A module that types are appended to.

Model: a module grows into another one when its types stay, with their groups and canonical forms (`Grows`).

Results: what is computed of the types of a module does not change when it grows: identity (`Grows.isoEq_iff`) and the
checks of supertypes (`GrowsCanon.checkSupertype`). The canonical map gives every type the first type that is the same
(`buildCanonicalMap_least`), so that the map of a grown module starts with that of the module
(`Grows.buildCanonicalMap_take`).
-/
import Wah.Canonical
import Wah.Subtyping

namespace Wah

/-- the types of `M` are the first types of `M'`, in the same groups -/
structure LinkModule.Grows (M M' : LinkModule) : Prop where
  count : M.typeCount ≤ M'.typeCount
  typeDef : ∀ i < M.typeCount, M'.typeDef i = M.typeDef i
  final : ∀ i < M.typeCount, M'.final i = M.final i
  recGroup : ∀ i < M.typeCount, M'.recGroup i = M.recGroup i

namespace LinkModule.Grows
variable {M M' : LinkModule} (h : M.Grows M')
include h

theorem supertype {i : Nat} (hi : i < M.typeCount) : M'.supertype i = M.supertype i := by
  rw [supertype_eq hi, supertype_eq (hi.trans_le h.count), h.typeDef i hi]

/-- the definitions of one step of identity are those of the module -/
theorem isoStep_iff {R : Nat → Nat → Prop} (hM : M.Grouped) {i j : Nat} (hi : i < M.typeCount) (hj : j < M.typeCount) :
    IsoStep M' R i j ↔ IsoStep M R i j := by
  unfold IsoStep
  rw [h.recGroup i hi, h.recGroup j hj]
  refine and_congr_right fun hsize => and_congr_right fun _ => forall₂_congr fun k hk => ?_
  have hik := (hM.member (hM.start_lt hi) (by rw [hM.start_start hi]) (by rw [hM.start_start hi]; exact hk)).1
  have hjk := (hM.member (hM.start_lt hj) (by rw [hM.start_start hj]) (by rw [hM.start_start hj, ← hsize]; exact hk)).1
  rw [h.typeDef _ hik, h.typeDef _ hjk, h.final _ hik, h.final _ hjk]

/-- types of the module are the same exactly if they were -/
theorem isoEq_iff (hM : M.Grouped) {i j : Nat} (hi : i < M.typeCount) (hj : j < M.typeCount) :
    IsoEq M' i j ↔ IsoEq M i j :=
  IsoEq.unique hM (fun _ hi _ hj => IsoEq.iff.trans (h.isoStep_iff hM hi hj)) hi hj

end LinkModule.Grows

/-! ## The canonical map -/

section
variable {M : LinkModule} {map : List Nat}

/-- a canonical map gives a type the first type that is the same -/
theorem CanonMap.least (hM : M.Grouped) (h : CanonMap M M.typeCount map) {i : Nat} (hi : i < M.typeCount) :
    IsLeast { j | IsoEq M i j } (mapAt map i) := by
  have hle := h.le hM
  have hexact : ∀ u < M.typeCount, ∀ v < M.typeCount, mapAt map u = mapAt map v ↔ IsoEq M u v := fun u hu v hv =>
    h.exact u hu v hv (hM.start_lt hu) (hM.start_lt hv)
  have hidem : ∀ u < M.typeCount, mapAt map (mapAt map u) = mapAt map u := by
    intro u hu
    obtain ⟨j, -, -, -, hk⟩ := h.groups _ (hM.start_lt hu) (by rw [hM.start_start hu])
    have hoff := hk (u - (M.recGroup u).1) (by rw [hM.start_start hu]; exact hM.offset_lt hu)
    rw [hM.start_add_offset hu] at hoff
    rw [hoff.1, hoff.2]
  constructor
  · exact (hexact i hi _ ((hle i).trans_lt hi)).1 (hidem i hi).symm
  · intro j hij
    by_contra hlt
    have hj : j < M.typeCount := (Nat.lt_of_not_le hlt).trans_le ((hle i).trans hi.le)
    have heq := (hexact i hi j hj).2 hij
    exact hlt (heq ▸ hle j)

theorem buildCanonicalMap_least (mix : UInt64 → UInt64 → UInt64) (hM : M.Grouped) {i : Nat} (hi : i < M.typeCount) :
    IsLeast { j | IsoEq M i j } (mapAt (buildCanonicalMap M mix) i) :=
  (buildCanonicalMap_spec mix hM).least hM hi

/-- there is one canonical map -/
theorem CanonMap.unique {map' : List Nat} (hM : M.Grouped) (h : CanonMap M M.typeCount map)
    (h' : CanonMap M M.typeCount map') : map = map' := by
  refine List.ext_getElem (h.length.trans h'.length.symm) fun i hi hi' => ?_
  have heq := (h.least hM (h.length ▸ hi)).unique (h'.least hM (h.length ▸ hi))
  simpa [mapAt, hi, hi'] using heq

end

namespace LinkModule.Grows
variable {M M' : LinkModule} (h : M.Grows M') (hM : M.Grouped) (hM' : M'.Grouped)
include h hM hM'

/-- the canonical map of the types that were there does not change -/
theorem buildCanonicalMap_take (mix : UInt64 → UInt64 → UInt64) :
    (buildCanonicalMap M' mix).take M.typeCount = buildCanonicalMap M mix := by
  have hlen := (buildCanonicalMap_spec mix hM).length
  have hlen' := (buildCanonicalMap_spec mix hM').length
  refine List.ext_getElem (by rw [List.length_take, hlen, hlen', min_eq_left h.count]) fun i hi hi' => ?_
  have hlt : i < M.typeCount := hlen ▸ hi'
  have hlt' : i < M'.typeCount := hlt.trans_le h.count
  have hleast := buildCanonicalMap_least mix hM hlt
  have hleast' := buildCanonicalMap_least mix hM' hlt'
  have hle : mapAt (Wah.buildCanonicalMap M' mix) i < M.typeCount :=
    ((buildCanonicalMap_spec mix hM').le hM' i).trans_lt hlt
  have heq : mapAt (Wah.buildCanonicalMap M' mix) i = mapAt (Wah.buildCanonicalMap M mix) i := by
    refine IsLeast.unique (s := { j | IsoEq M i j }) ⟨(h.isoEq_iff hM hlt hle).1 hleast'.1, fun j hj => ?_⟩ hleast
    by_contra hlt'
    exact hlt' (hleast'.2 ((h.isoEq_iff hM hlt ((Nat.lt_of_not_le hlt').trans hle)).2 hj))
  rw [List.getElem_take]
  simpa [mapAt, hlt', hlt, hlen, hlen'] using heq

end LinkModule.Grows

/-! ## Supertypes -/

section
variable {M M' : LinkModule}

/-- a walk that has steps enough does not run out of them -/
theorem walkSupertypes_steps (hM : M.Grouped) {sup steps steps' t : Nat} (ht : t < M.typeCount) (hs : t ≤ steps)
    (hs' : t ≤ steps') : M.walkSupertypes sup steps t = M.walkSupertypes sup steps' t := by
  have hnone : M.supertype t = none → ∀ n, M.walkSupertypes sup n t = false := by
    intro hn n
    cases n with
    | zero => rfl
    | succ n => rw [Module.walkSupertypes, hn]
  induction t using Nat.strong_induction_on generalizing steps steps' with
  | _ t ih =>
    cases hsup : M.supertype t with
    | none => rw [hnone hsup, hnone hsup]
    | some st =>
      have hlt := hM.super_lt t ht st hsup
      obtain ⟨m, rfl⟩ : ∃ m, steps = m + 1 := ⟨steps - 1, by omega⟩
      obtain ⟨m', rfl⟩ : ∃ m', steps' = m' + 1 := ⟨steps' - 1, by omega⟩
      have hrest : M.walkSupertypes sup m st = M.walkSupertypes sup m' st := by
        refine ih st hlt (hlt.trans ht) (by omega) (by omega) fun hn n => ?_
        cases n with
        | zero => rfl
        | succ n => rw [Module.walkSupertypes, hn]
      rw [Module.walkSupertypes, Module.walkSupertypes, hsup]
      simp only [hrest]

/-- a grown module with the canonical forms of the module -/
structure LinkModule.GrowsCanon (M M' : LinkModule) : Prop extends M.Grows M' where
  canon : ∀ i < M.typeCount, M'.canon i = M.canon i

namespace LinkModule.GrowsCanon
variable (h : M.GrowsCanon M') (hM : M.Grouped)
include h

theorem typeDefKind {i : Nat} (hi : i < M.typeCount) : M'.typeDefKind i = M.typeDefKind i := by
  have hdef := h.typeDef i hi
  unfold LinkModule.typeDef at hdef
  unfold Module.typeDefKind
  rw [List.getElem?_eq_getElem (show i < M.typeDefs.length from hi),
    List.getElem?_eq_getElem (show i < M'.typeDefs.length from hi.trans_le h.count)] at hdef ⊢
  exact congrArg (fun d : TypeDef => some d.kind) hdef

include hM

theorem walkSupertypes {sup steps t : Nat} (hsup : sup < M.typeCount) (ht : t < M.typeCount) :
    M'.walkSupertypes sup steps t = M.walkSupertypes sup steps t := by
  induction steps generalizing t with
  | zero => rfl
  | succ steps ih =>
    rw [Module.walkSupertypes, Module.walkSupertypes, h.supertype ht]
    cases hst : M.supertype t with
    | none => rfl
    | some st =>
      have hlt := (hM.super_lt t ht st hst).trans ht
      simp only [ih hlt, h.canon st hlt, h.canon sup hsup]

theorem idxIsSubtype (hM' : M'.Grouped) {a b : Nat} (ha : a < M.typeCount) (hb : b < M.typeCount) :
    M'.idxIsSubtype a b = M.idxIsSubtype a b := by
  have hla : a < M.typeDefs.length ∧ a < M'.typeDefs.length := ⟨ha, ha.trans_le h.count⟩
  have hlb : b < M.typeDefs.length ∧ b < M'.typeDefs.length := ⟨hb, hb.trans_le h.count⟩
  have hwalk : M'.walkSupertypes b M'.typeDefs.length a = M.walkSupertypes b M.typeDefs.length a :=
    (walkSupertypes_steps hM' hla.2 hla.2.le hla.1.le).trans (h.walkSupertypes hM hb ha)
  unfold Module.idxIsSubtype
  rw [decide_eq_true hla.1, decide_eq_true hla.2, decide_eq_true hlb.1, decide_eq_true hlb.2, h.canon a ha, h.canon b hb,
    hwalk]

theorem heapIsSubtype (hM' : M'.Grouped) {x y : HeapTy} (hx : ∀ a, x = .idx a → a < M.typeCount)
    (hy : ∀ b, y = .idx b → b < M.typeCount) : M'.heapIsSubtype x y = M.heapIsSubtype x y := by
  rw [Module.heapIsSubtype.eq_def, Module.heapIsSubtype.eq_def]
  cases x with
  | idx a =>
    have ha := hx a rfl
    cases y with
    | idx b => simp only [h.idxIsSubtype hM hM' ha (hy b rfl)]
    | abs k => simp only [h.typeDefKind ha]
  | abs k =>
    cases y with
    | idx b => simp only [h.typeDefKind (hy b rfl)]
    | abs k' => rfl

theorem typeIsSubtype (hM' : M'.Grouped) {a b : Ty} (ha : a.idxBelow M.typeCount = true)
    (hb : b.idxBelow M.typeCount = true) : M'.typeIsSubtype a b = M.typeIsSubtype a b := by
  unfold Module.typeIsSubtype
  cases a with
  | ref n x =>
    cases b with
    | ref n' y =>
      have hx : ∀ u, x = .idx u → u < M.typeCount := by
        rintro u rfl
        simpa [Ty.idxBelow, Ty.typeIdx] using ha
      have hy : ∀ u, y = .idx u → u < M.typeCount := by
        rintro u rfl
        simpa [Ty.idxBelow, Ty.typeIdx] using hb
      simp only [h.heapIsSubtype hM hM' hx hy]
    | _ => rfl
  | _ => rfl

theorem fieldFits (hM' : M'.Grouped) {sub sup : Ty × Bool} (ha : sub.1.idxBelow M.typeCount = true)
    (hb : sup.1.idxBelow M.typeCount = true) : Wah.fieldFits M'.toModule sub sup = Wah.fieldFits M.toModule sub sup := by
  unfold Wah.fieldFits
  rw [h.typeIsSubtype hM hM' ha hb]
  obtain ⟨a, m⟩ := sub
  obtain ⟨b, m'⟩ := sup
  cases b with
  | ref n y =>
    cases y with
    | idx v =>
      cases a with
      | ref n' x =>
        cases x with
        | idx u =>
          have hu : u < M.typeCount := by simpa [Ty.idxBelow, Ty.typeIdx] using ha
          have hv : v < M.typeCount := by simpa [Ty.idxBelow, Ty.typeIdx] using hb
          simp only [h.canon u hu, h.canon v hv]
        | abs k => rfl
      | _ => rfl
    | abs k => rfl
  | _ => rfl

end LinkModule.GrowsCanon

theorem zipWith_congr_mem {α β γ : Type} {f g : α → β → γ} {as : List α} {bs : List β}
    (h : ∀ a ∈ as, ∀ b ∈ bs, f a b = g a b) : List.zipWith f as bs = List.zipWith g as bs := by
  induction as generalizing bs with
  | nil => rfl
  | cons a as ih =>
    cases bs with
    | nil => rfl
    | cons b bs =>
      rw [List.zipWith_cons_cons, List.zipWith_cons_cons, h a List.mem_cons_self b List.mem_cons_self,
        ih fun a ha b hb => h a (List.mem_cons_of_mem _ ha) b (List.mem_cons_of_mem _ hb)]

/-- the check of a type against its supertype does not change when the module grows -/
theorem LinkModule.GrowsCanon.checkSupertype (h : M.GrowsCanon M') (hM : M.Grouped) (hM' : M'.Grouped) {i : Nat}
    (hi : i < M.typeCount) : Wah.checkSupertype M' i = Wah.checkSupertype M i := by
  have hbelow : ∀ j < M.typeCount, ∀ t ∈ (M.typeDef j).types, t.idxBelow M.typeCount = true := by
    intro j hj t ht
    have hlt := hM.refs_below j hj t ht
    have hend := hM.group_end j hj
    cases hidx : t.typeIdx with
    | none => simp [Ty.idxBelow, hidx]
    | some u =>
      simp only [Ty.idxBelow, hidx, Option.all_some, decide_eq_true_eq] at hlt ⊢
      omega
  unfold Wah.checkSupertype
  rw [h.supertype hi]
  cases hsup : M.supertype i with
  | none => rfl
  | some j =>
    have hj := (hM.super_lt i hi j hsup).trans hi
    have hkind := hM.super_kind i hi j hsup
    simp only [Option.all_some, h.typeDef i hi, h.typeDef j hj]
    have hti := hbelow i hi
    have htj := hbelow j hj
    generalize M.typeDef i = sub, M.typeDef j = sup at hkind hti htj
    have hfields : sub.kind ≠ .func → List.zipWith (Wah.fieldFits M'.toModule) sub.fields sup.fields =
        List.zipWith (Wah.fieldFits M.toModule) sub.fields sup.fields := by
      intro hk
      refine zipWith_congr_mem fun a ha b hb => h.fieldFits hM hM' (hti _ ?_) (htj _ ?_)
      · simpa [TypeDef.types, hk] using .inr (List.of_mem_zip ha).1
      · simpa [TypeDef.types, hkind ▸ hk] using .inr (List.of_mem_zip hb).1
    unfold supertypeFits
    cases hk : sub.kind with
    | func =>
      have hk' := hkind.trans hk
      have hpa : ∀ t ∈ sub.func.params ++ sub.func.results, t.idxBelow M.typeCount = true := fun t ht =>
        hti t (by simpa [TypeDef.types, hk] using .inr (List.mem_append.1 ht))
      have hpb : ∀ t ∈ sup.func.params ++ sup.func.results, t.idxBelow M.typeCount = true := fun t ht =>
        htj t (by simpa [TypeDef.types, hk'] using .inr (List.mem_append.1 ht))
      have hparams : List.zipWith M'.typeIsSubtype sup.func.params sub.func.params =
          List.zipWith M.typeIsSubtype sup.func.params sub.func.params :=
        zipWith_congr_mem fun a ha b hb => h.typeIsSubtype hM hM' (hpb a (List.mem_append_left _ ha))
          (hpa b (List.mem_append_left _ hb))
      have hresults : List.zipWith M'.typeIsSubtype sub.func.results sup.func.results =
          List.zipWith M.typeIsSubtype sub.func.results sup.func.results :=
        zipWith_congr_mem fun a ha b hb => h.typeIsSubtype hM hM' (hpa a (List.mem_append_right _ ha))
          (hpb b (List.mem_append_right _ hb))
      simp only [funcSubtype, hparams, hresults]
    | struct => simp only [hfields (by simp [hk])]
    | array => simp only [hfields (by simp [hk])]

end

end Wah
