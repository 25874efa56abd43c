/-
Layouts along subtyping: the representations of the struct types of an accepted type section.

Model:
- `buildReprInfos` is the last loop of `wah_module_build_type_metadata`: the representation of every struct and array
  type, with its layout;
- a type is declared below another if declared supertypes and canonical equalities lead to it (`DeclaredSub`).

Result: `struct_layout_prefix`: a struct type lays out the fields of its supertypes as they do.
-/
import Wah.StructLayout
import Wah.Subtyping

namespace Wah

/-! ## Representations -/

/-- an iteration of the loop over the types: the infos so far, and `typeidx_to_repr` -/
def allocReprInfo (w : PtrWidth) (debug : Bool) (M : LinkModule) (acc : List ReprInfo × List Int) (i : Nat) :
    Except WahError (List ReprInfo × List Int) :=
  let td := M.typeDef i
  match td.kind with
  | .struct => do
    let info ← buildStructReprInfo w debug td.fieldTypes
    .ok (acc.1 ++ [info], acc.2.set i acc.1.length)
  | .array => do
    let (size, repr) ← fieldTypeLayout w ((td.fieldTypes[0]?).getD .bot)
    .ok (acc.1 ++ [⟨.array, size, [⟨0, repr⟩]⟩], acc.2.set i acc.1.length)
  | .func => .ok acc

/-- `repr_infos` and `typeidx_to_repr` of a module -/
def buildReprInfos (w : PtrWidth) (debug : Bool) (M : LinkModule) : Except WahError (List ReprInfo × List Int) :=
  (List.range M.typeCount).foldlM (allocReprInfo w debug M) ([], List.replicate M.typeCount reprNone)

section
variable {w : PtrWidth} {debug : Bool} {M : LinkModule}

/-- after `n` types: the ids are those of `buildReprs`, and every struct type has its layout -/
structure ReprsBuilt (w : PtrWidth) (debug : Bool) (M : LinkModule) (n : Nat) (acc : List ReprInfo × List Int) :
    Prop where
  length : acc.2.length = M.typeCount
  count : acc.1.length = ((List.range n).foldl (allocRepr M) ([], List.replicate M.typeCount reprNone)).1.length
  ids : acc.2 = ((List.range n).foldl (allocRepr M) ([], List.replicate M.typeCount reprNone)).2
  struct : ∀ s < n, (M.typeDef s).kind = .struct → ∃ (r : Nat) (info : ReprInfo), acc.2[s]? = some (r : Int) ∧
    acc.1[r]? = some info ∧ buildStructReprInfo w debug (M.typeDef s).fieldTypes = .ok info

theorem ReprsBuilt.add {n : Nat} {acc : List ReprInfo × List Int} (h : ReprsBuilt w debug M n acc)
    (hn : n < M.typeCount) {info : ReprInfo} {k : ReprType} (halloc : ∀ acc, allocRepr M acc n =
      (acc.1 ++ [(k, n)], acc.2.set n acc.1.length))
    (hinfo : (M.typeDef n).kind = .struct → buildStructReprInfo w debug (M.typeDef n).fieldTypes = .ok info) :
    ReprsBuilt w debug M (n + 1) (acc.1 ++ [info], acc.2.set n acc.1.length) where
  length := by rw [List.length_set]; exact h.length
  count := by
    rw [List.range_succ, List.foldl_append, List.foldl_cons, List.foldl_nil, halloc]
    simp [h.count]
  ids := by
    rw [List.range_succ, List.foldl_append, List.foldl_cons, List.foldl_nil, halloc, h.ids, h.count]
  struct s hs hkind := by
    rcases Nat.lt_succ_iff_lt_or_eq.mp hs with hlt | rfl
    · obtain ⟨r, info', hr, hget, hbuild⟩ := h.struct s hlt hkind
      have hr' : r < acc.1.length := (List.getElem?_eq_some_iff.mp hget).1
      refine ⟨r, info', ?_, ?_, hbuild⟩
      · rw [List.getElem?_set_ne (by omega)]; exact hr
      · rw [List.getElem?_append_left hr']; exact hget
    · refine ⟨acc.1.length, info, ?_, by simp, hinfo hkind⟩
      rw [List.getElem?_set_self (by rw [h.length]; exact hn)]

theorem ReprsBuilt.step {n : Nat} {acc acc' : List ReprInfo × List Int} (h : ReprsBuilt w debug M n acc)
    (hn : n < M.typeCount) (hstep : allocReprInfo w debug M acc n = .ok acc') : ReprsBuilt w debug M (n + 1) acc' := by
  unfold allocReprInfo at hstep
  cases hkind : (M.typeDef n).kind with
  | struct =>
    simp only [hkind, bind_eq_ok] at hstep
    obtain ⟨info, hinfo, hacc⟩ := hstep
    obtain rfl := Except.ok.inj hacc
    exact h.add hn (k := .struct) (fun acc => by simp only [allocRepr, hkind]) fun _ => hinfo
  | array =>
    simp only [hkind, bind_eq_ok] at hstep
    obtain ⟨⟨size, repr⟩, -, hacc⟩ := hstep
    obtain rfl := Except.ok.inj hacc
    exact h.add hn (k := .array) (fun acc => by simp only [allocRepr, hkind]) fun hstruct =>
      absurd (hkind.symm.trans hstruct) (by decide)
  | func =>
    simp only [hkind] at hstep
    obtain rfl := Except.ok.inj hstep
    have hsame : (List.range (n + 1)).foldl (allocRepr M) ([], List.replicate M.typeCount reprNone) =
        (List.range n).foldl (allocRepr M) ([], List.replicate M.typeCount reprNone) := by
      rw [List.range_succ, List.foldl_append, List.foldl_cons, List.foldl_nil]
      simp only [allocRepr, hkind]
    refine ⟨h.length, hsame ▸ h.count, hsame ▸ h.ids, fun s hs hstruct => ?_⟩
    rcases Nat.lt_succ_iff_lt_or_eq.mp hs with hlt | rfl
    · exact h.struct s hlt hstruct
    · exact absurd (hkind.symm.trans hstruct) (by decide)

theorem buildReprInfos_built {acc : List ReprInfo × List Int} (h : buildReprInfos w debug M = .ok acc) :
    ReprsBuilt w debug M M.typeCount acc := by
  have hrun : ∀ n ≤ M.typeCount, ∀ acc, (List.range n).foldlM (allocReprInfo w debug M)
      ([], List.replicate M.typeCount reprNone) = .ok acc → ReprsBuilt w debug M n acc := by
    intro n hn
    induction n with
    | zero =>
      intro acc hacc
      obtain rfl := Except.ok.inj hacc
      exact ⟨by simp, rfl, rfl, fun s hs => absurd hs (Nat.not_lt_zero s)⟩
    | succ n ih =>
      intro acc hacc
      rw [List.range_succ, List.foldlM_append] at hacc
      obtain ⟨acc₁, hacc₁, hlast⟩ := bind_eq_ok.mp hacc
      simp only [List.foldlM_cons, List.foldlM_nil, bind_eq_ok] at hlast
      obtain ⟨acc₂, hstep, hacc₂⟩ := hlast
      obtain rfl := Except.ok.inj hacc₂
      exact (ih (Nat.le_of_succ_le hn) acc₁ hacc₁).step hn hstep
  exact hrun M.typeCount le_rfl acc h

/-- the representation of a struct type, found as the interpreter finds it -/
theorem structRepr_spec {infos : List ReprInfo} {ids : List Int} (h : buildReprInfos w debug M = .ok (infos, ids))
    {s : Nat} (hs : s < M.typeCount) (hkind : (M.typeDef s).kind = .struct) : ∃ (r : Nat) (info : ReprInfo),
      M.typeidxToRepr s = r ∧ infos[r]? = some info ∧
      buildStructReprInfo w debug (M.typeDef s).fieldTypes = .ok info := by
  have hbuilt := buildReprInfos_built h
  obtain ⟨r, info, hr, hinfo, hbuild⟩ := hbuilt.struct s hs hkind
  have hids : ids = (buildReprs M).2 := hbuilt.ids
  refine ⟨r, info, ?_, hinfo, hbuild⟩
  rw [LinkModule.typeidxToRepr, ← hids, show ids[s]? = some (r : Int) from hr]
  rfl

end

/-! ## Layouts of prefixes -/

section
variable {w : PtrWidth} {s s' : LayoutState}

/-- the fields of a type are laid out like the first fields of another -/
def LayoutPrefix (w : PtrWidth) (sup sub : List Ty) : Prop :=
  sup.map (fieldTypeLayout w) <+: sub.map (fieldTypeLayout w)

/-- an iteration reads nothing of a field but its layout -/
theorem placeField_congr {a b : Ty} (h : fieldTypeLayout w a = fieldTypeLayout w b) :
    placeField w s a = placeField w s b := by
  unfold placeField
  rw [h]

theorem placeFields_congr {as bs : List Ty} (h : as.map (fieldTypeLayout w) = bs.map (fieldTypeLayout w)) :
    placeFields w s as = placeFields w s bs := by
  induction as generalizing s bs with
  | nil =>
    obtain rfl : bs = [] := by simpa using h.symm
    rfl
  | cons a as ih =>
    cases bs with
    | nil => simp at h
    | cons b bs =>
      obtain ⟨hab, hrest⟩ := List.cons.inj h
      simp only [placeFields, List.foldlM_cons, placeField_congr hab]
      exact congrArg _ (funext fun s => ih hrest)

theorem placeFields_append {as bs : List Ty} :
    placeFields w s (as ++ bs) = placeFields w s as >>= fun s => placeFields w s bs :=
  List.foldlM_append

/-- more fields only add to the layout -/
theorem placeFields_grows {fieldTypes : List Ty} (h : placeFields w s fieldTypes = .ok s') :
    s.fields <+: s'.fields ∧ s.liveEnd ≤ s'.liveEnd := by
  induction fieldTypes generalizing s with
  | nil =>
    obtain rfl : s = s' := Except.ok.inj h
    exact ⟨List.prefix_refl _, le_rfl⟩
  | cons ft fieldTypes ih =>
    simp only [placeFields, List.foldlM_cons, bind_eq_ok] at h
    obtain ⟨s₁, hs₁, hrest⟩ := h
    obtain ⟨size, repr, p, -, -, rfl⟩ := placeField_ok hs₁
    obtain ⟨hfields, hlive⟩ := ih hrest
    exact ⟨(List.prefix_append _ _).trans hfields, (le_max_left _ _).trans hlive⟩

/-- the layout of the first fields is that of a struct that has no others -/
theorem LayoutPrefix.layout {debug : Bool} {sup sub : List Ty} (h : LayoutPrefix w sup sub) {infoSup infoSub : ReprInfo}
    (hsup : buildStructReprInfo w debug sup = .ok infoSup) (hsub : buildStructReprInfo w debug sub = .ok infoSub) :
    infoSup.fields <+: infoSub.fields ∧ infoSup.size ≤ infoSub.size := by
  obtain ⟨sSup, hplaced, rfl⟩ := buildStructReprInfo_ok hsup
  obtain ⟨sSub, hplaced', rfl⟩ := buildStructReprInfo_ok hsub
  obtain ⟨rest, hrest⟩ := h
  have hsplit : sub = sub.take sup.length ++ sub.drop sup.length := (List.take_append_drop _ _).symm
  have hsame : sup.map (fieldTypeLayout w) = (sub.take sup.length).map (fieldTypeLayout w) := by
    rw [List.map_take, ← hrest, List.take_left' (by simp)]
  rw [hsplit, placeFields_append, ← placeFields_congr hsame, hplaced] at hplaced'
  exact placeFields_grows hplaced'

end

/-! ## Declared subtypes -/

/-- a type leads to another through declared supertypes and canonical equalities -/
def DeclaredSub (M : LinkModule) : Nat → Nat → Prop :=
  Relation.ReflTransGen fun u v => M.supertype u = some v ∨ v < M.typeCount ∧ M.canon u = M.canon v

section
variable {mix : UInt64 → UInt64 → UInt64} {M : LinkModule} {entries : List RecType} {w : PtrWidth} {u v : Nat}

/-- a field that may take the place of another has its width and kind -/
theorem fieldFits_layout {M : Module} {sub sup : Ty × Bool} (hbot : sub.1 ≠ .bot) (h : fieldFits M sub sup = true) :
    fieldTypeLayout w sup.1 = fieldTypeLayout w sub.1 := by
  obtain ⟨a, m⟩ := sub
  obtain ⟨b, m'⟩ := sup
  have hsub : M.typeIsSubtype a b = true → fieldTypeLayout w b = fieldTypeLayout w a := by
    intro hsub
    cases a with
    | bot => exact absurd rfl hbot
    | ref n x =>
      cases b with
      | ref n' y => rfl
      | _ => simp [Module.typeIsSubtype] at hsub
    | _ => cases b <;> simp_all [Module.typeIsSubtype, fieldTypeLayout]
  rw [fieldFits] at h
  split_ifs at h with hmut
  · simp only [Bool.and_eq_true, Bool.or_eq_true, decide_eq_true_eq] at h
    rcases h.2 with rfl | hcanon
    · rfl
    · revert hcanon
      cases a <;> cases b <;> simp [fieldTypeLayout]
  · exact hsub (Bool.and_eq_true_iff.mp h).2

theorem TyMatch.layout {ρ : Nat → Nat → Prop} {a b : Ty} (h : TyMatch ρ a b) :
    fieldTypeLayout w a = fieldTypeLayout w b := by
  cases h with
  | idx _ => rfl
  | other _ => rfl

/-- the fields of an accepted struct type start with those of the supertype -/
theorem supertypeFits_layout {M : Module} {sub sup : TypeDef} (hkind : sub.kind = .struct)
    (hbot : .bot ∉ sub.fieldTypes) (hsub : sub.Paired) (hsup : sup.Paired)
    (h : supertypeFits M sub sup = true) : LayoutPrefix w sup.fieldTypes sub.fieldTypes := by
  simp only [supertypeFits, hkind, Bool.and_eq_true, decide_eq_true_eq] at h
  obtain ⟨hlen, hfits⟩ := h
  rw [LayoutPrefix, List.prefix_iff_getElem?]
  intro j hj
  rw [List.length_map] at hj
  have hjm : j < sup.fieldMutables.length := hsup.symm ▸ hj
  have hjs : j < sub.fieldTypes.length := hj.trans_le hlen
  have hjsm : j < sub.fieldMutables.length := hsub.symm ▸ hjs
  have hmem : fieldFits M (sub.fieldTypes[j], sub.fieldMutables[j]) (sup.fieldTypes[j], sup.fieldMutables[j]) ∈
      List.zipWith (fieldFits M) sub.fields sup.fields := by
    refine List.mem_iff_getElem.mpr ⟨j, ?_, ?_⟩
    · simp [TypeDef.fields, hj, hjm, hjs, hjsm]
    · simp [TypeDef.fields]
  have hfit := List.all_eq_true.mp hfits _ hmem
  have hne : sub.fieldTypes[j] ≠ .bot := fun he => hbot (he ▸ List.getElem_mem hjs)
  simpa [hjs] using (fieldFits_layout (w := w) (by exact hne) hfit).symm

/-- one declared supertype, or one canonical equality -/
theorem layoutPrefix_step (h : parseTypeSection mix entries = some M) (hu : u < M.typeCount)
    (hkind : (M.typeDef u).kind = .struct) (hstep : M.supertype u = some v ∨ v < M.typeCount ∧ M.canon u = M.canon v) :
    v < M.typeCount ∧ (M.typeDef v).kind = .struct ∧
      LayoutPrefix w (M.typeDef v).fieldTypes (M.typeDef u).fieldTypes := by
  obtain ⟨hM, -, hcheck, -, -⟩ := parseTypeSection_spec h
  rcases hstep with hsuper | ⟨hv, hcanon⟩
  · have hv : v < M.typeCount := (hM.super_lt u hu v hsuper).trans hu
    have hbot : .bot ∉ (M.typeDef u).fieldTypes := by
      have := hM.no_bot u hu
      simp only [TypeDef.types, hkind, List.mem_append, not_or] at this
      simpa using this.2
    have hfits : supertypeFits M.toModule (M.typeDef u) (M.typeDef v) = true := by
      have := hcheck u hu
      rw [checkSupertype, hsuper] at this
      simpa using this
    exact ⟨hv, (hM.super_kind u hu v hsuper).trans hkind, supertypeFits_layout hkind hbot
      (hM.paired u hu) (hM.paired v hv) hfits⟩
  · have hsame : IsoEq M u v := ((canonicalization_exact h).1 u hu v hv).mp hcanon
    have hiso : SameType (fun _ => M) (0, u) (0, v) := hsame
    have hdef := hiso.defMatch (fun _ => parsed_wellFormed h) hu hv
    have hfields := hdef.fields (by rw [hkind]; decide)
    refine ⟨hv, hdef.kind.symm.trans hkind, ?_⟩
    have hmap : (M.typeDef u).fieldTypes.map (fieldTypeLayout w) = (M.typeDef v).fieldTypes.map (fieldTypeLayout w) :=
      List.forall₂_eq_eq_eq ▸ List.forall₂_map_left_iff.mpr (List.forall₂_map_right_iff.mpr
        (hfields.imp fun _ _ => TyMatch.layout))
    rw [LayoutPrefix, hmap]

theorem DeclaredSub.layoutPrefix (h : parseTypeSection mix entries = some M) (hsub : DeclaredSub M u v)
    (hu : u < M.typeCount) (hkind : (M.typeDef u).kind = .struct) :
    v < M.typeCount ∧ (M.typeDef v).kind = .struct ∧
      LayoutPrefix w (M.typeDef v).fieldTypes (M.typeDef u).fieldTypes := by
  induction hsub with
  | refl => exact ⟨hu, hkind, List.prefix_refl _⟩
  | tail _ hstep ih =>
    obtain ⟨hv, hkind', hprefix⟩ := ih
    obtain ⟨hw, hkind'', hprefix'⟩ := layoutPrefix_step h hv hkind' hstep
    exact ⟨hw, hkind'', hprefix'.trans hprefix⟩

end

/-- **Layouts along subtyping.** In an accepted type section, a struct type that is declared below another, through any
supertypes and canonical equalities, has at least its size, and gives every field of the other the offset, the width and
the representation that the other gives it. -/
theorem struct_layout_prefix {mix : UInt64 → UInt64 → UInt64} {entries : List RecType} {M : LinkModule} {w : PtrWidth}
    {debug : Bool} {infos : List ReprInfo} {ids : List Int} (hparse : parseTypeSection mix entries = some M)
    (hreprs : buildReprInfos w debug M = .ok (infos, ids)) {s t : Nat} (hs : s < M.typeCount)
    (hkind : (M.typeDef s).kind = .struct) (hsub : DeclaredSub M s t) :
    ∃ (rs rt : Nat) (infoS infoT : ReprInfo), M.typeidxToRepr s = rs ∧ M.typeidxToRepr t = rt ∧
      infos[rs]? = some infoS ∧ infos[rt]? = some infoT ∧ infoT.size ≤ infoS.size ∧
      ∀ (j : Nat) (ft : Ty), (M.typeDef t).fieldTypes[j]? = some ft →
        (∃ ft', (M.typeDef s).fieldTypes[j]? = some ft' ∧ fieldSize w ft' = fieldSize w ft) ∧
        ∃ f : ReprField, infoT.fields[j]? = some f ∧ infoS.fields[j]? = some f := by
  obtain ⟨ht, hkind', hprefix⟩ := hsub.layoutPrefix (w := w) hparse hs hkind
  obtain ⟨rs, infoS, hrs, hinfoS, hbuildS⟩ := structRepr_spec hreprs hs hkind
  obtain ⟨rt, infoT, hrt, hinfoT, hbuildT⟩ := structRepr_spec hreprs ht hkind'
  obtain ⟨hfields, hsize⟩ := hprefix.layout hbuildT hbuildS
  refine ⟨rs, rt, infoS, infoT, hrs, hrt, hinfoS, hinfoT, hsize, fun j ft hft => ⟨?_, ?_⟩⟩
  · obtain ⟨hj, rfl⟩ := List.getElem?_eq_some_iff.mp hft
    have hlayout := List.prefix_iff_getElem?.mp hprefix j (by simpa using hj)
    rw [List.getElem?_map, List.getElem_map] at hlayout
    obtain ⟨ft', hft', heq⟩ := Option.map_eq_some_iff.mp hlayout
    exact ⟨ft', hft', by rw [fieldSize, fieldSize, heq]⟩
  · have hlen : (M.typeDef t).fieldTypes.length = infoT.fields.length := by
      obtain ⟨sT, hsT, rfl⟩ := buildStructReprInfo_ok hbuildT
      exact (layoutInv_of_placeFields hsT).length_eq
    have hj : j < infoT.fields.length := hlen ▸ (List.getElem?_eq_some_iff.mp hft).1
    exact ⟨infoT.fields[j], List.getElem?_eq_getElem hj, List.prefix_iff_getElem?.mp hfields j hj⟩

/-- a struct, and a subtype with a narrower reference and one more field -/
def widenedStructs : List RecType :=
  let ref (a : AbsHeap) : StoredTy := ⟨.ref true (.abs a), by simp⟩
  [.single { isFinal := false, comp := .struct [(ref .any, false)] },
    .single { supertype := some 0, comp := .struct [(ref .eq, false), (⟨.i32, by simp⟩, true)] }]

theorem struct_layout_prefix_structs : ∃ M infos, parseTypeSection recGroupHashMix widenedStructs = some M ∧
    buildReprInfos .w64 true M = .ok (infos, [0, 1]) ∧
    ∃ (rs rt : Nat) (infoS infoT : ReprInfo), M.typeidxToRepr 1 = rs ∧ M.typeidxToRepr 0 = rt ∧
      infos[rs]? = some infoS ∧ infos[rt]? = some infoT ∧ infoT.size ≤ infoS.size ∧
      ∀ (j : Nat) (ft : Ty), (M.typeDef 0).fieldTypes[j]? = some ft →
        (∃ ft', (M.typeDef 1).fieldTypes[j]? = some ft' ∧ fieldSize .w64 ft' = fieldSize .w64 ft) ∧
        ∃ f : ReprField, infoT.fields[j]? = some f ∧ infoS.fields[j]? = some f :=
  ⟨_, _, rfl, rfl, struct_layout_prefix (show parseTypeSection recGroupHashMix widenedStructs = some _ from rfl)
    (show buildReprInfos .w64 true _ = .ok _ from rfl) (by decide) rfl (.single (.inl rfl))⟩

end Wah
