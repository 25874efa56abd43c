/-
Types defined by a program: `wah_define_type` on the types of a module, against the metadata that a module is parsed
with.

Model:
- a module has the entries below its number of types of every array; lowering the number drops the last entries. The
  module starts with the types of a section, which may be empty, as those of a new module are;
- every allocation may fail. One that is not made counts as granted;
- `batchMetadata` is `wah_module_build_type_metadata` on the same types in the same groups.

Results: a call that fails leaves the module as it was, and the layouts are those of the batch build after every call.
The canonical map is that of the batch build, and identifies the types that are the same, as long as no call adds a type
that is there already (`defined_types_as_batch`).
-/
import Wah.CrossTypes
import Wah.GrownTypes
import Wah.SubtypeLayout
import Wah.TypeDialects

namespace Wah

open TypeSpec

/-! ## The calls -/

/-- the type section of a module with all its metadata -/
structure TypeModule where
  module : LinkModule := {}
  /-- layouts of the entries of `repr_infos`, which `module.reprs` gives the types of -/
  infos : List ReprInfo := []
  typeidxToRepr : List Int := []

/-- where a call allocates -/
inductive DefineAlloc where
  | spec | types | typeidxToRepr | canonicalMap | info | reprInfos | infoCopy
deriving DecidableEq, Repr

/-- the arguments of a call, and the allocations that are granted -/
structure DefineCall where
  spec : List Char
  args : List Int
  grants : DefineAlloc → Bool := fun _ => true

inductive DefineError where
  | badSpec | tooLarge | outOfMemory
  | layout (e : WahError)
deriving DecidableEq, Repr

/-- the definition that a specification gives -/
def TypeSpec.SpecType.typeDef : SpecType → TypeDef
  | .func f => { kind := .func, func := f }
  | .struct fs =>
    { kind := .struct
      nonDefaultable := fs.any fun f => f.1.isRef && !f.1.isNullable
      fieldTypes := fs.map Prod.fst
      fieldMutables := fs.map Prod.snd }
  | .array e =>
    { kind := .array
      nonDefaultable := e.1.isRef && !e.1.isNullable
      fieldTypes := [e.1]
      fieldMutables := [e.2] }

/-- `WAH_SAME_NONSELF_TYPE` on two lists of types -/
def sameNonselfTypes (i : Nat) (as bs : List Ty) : Bool :=
  decide (as.length = bs.length) &&
    (List.zipWith (fun a b => decide (a = b) && decide (a.typeIdx ≠ some i)) as bs).all id

/-- `wah_define_type_matches`: the new type is final and has no supertype -/
def defineTypeMatches (M : LinkModule) (td : TypeDef) (i : Nat) : Bool :=
  let ei := M.typeDef i
  decide ((M.recGroup i).2 = 1) && decide (ei.kind = td.kind) && M.final i && ei.supertype.isNone &&
    if td.kind = .func then
      sameNonselfTypes i ei.func.params td.func.params && sameNonselfTypes i ei.func.results td.func.results
    else sameNonselfTypes i ei.fieldTypes td.fieldTypes && decide (ei.fieldMutables = td.fieldMutables)

/-- the new type in a group of its own -/
def LinkModule.appendType (M : LinkModule) (td : TypeDef) : LinkModule :=
  { M with
    typeDefs := M.typeDefs ++ [td]
    isFinal := M.isFinal ++ [true]
    recGroups := M.recGroups ++ [(M.typeCount, 1)] }

/-- `wah_type_section_ensure_capacity` for the type `idx` -/
def ensureTypeCapacity (grants : DefineAlloc → Bool) (idx : Nat) : Except DefineError Unit :=
  if maxTypeIndex < idx then .error .tooLarge
  else if grants .types then .ok ()
  else .error .outOfMemory

/-- the layout of a new type, if it has one -/
def newReprInfo (w : PtrWidth) (debug : Bool) (grants : DefineAlloc → Bool) (td : TypeDef) :
    Except DefineError (Option ReprInfo) :=
  match td.kind with
  | .func => .ok none
  | .struct =>
    if grants .info then
      match buildStructReprInfo w debug td.fieldTypes with
      | .ok info => .ok (some info)
      | .error e => .error (.layout e)
    else .error .outOfMemory
  | .array =>
    match fieldTypeLayout w ((td.fieldTypes[0]?).getD .bot) with
    | .ok (size, repr) => if grants .info then .ok (some ⟨.array, size, [⟨0, repr⟩]⟩) else .error .outOfMemory
    | .error e => .error (.layout e)

namespace TypeModule

/-- `wah_module_alloc_repr` -/
def allocRepr (S : TypeModule) (grants : DefineAlloc → Bool) (idx : Nat) (info : ReprInfo) :
    Except DefineError TypeModule :=
  if grants .reprInfos && grants .infoCopy then
    .ok { module := { S.module with reprs := S.module.reprs ++ [(info.type, idx)] }
          infos := S.infos ++ [info]
          typeidxToRepr := S.typeidxToRepr.set idx S.infos.length }
  else .error .outOfMemory

/-- `wah_module_rollback_last_type_metadata` -/
def rollback (S : TypeModule) (idx : Nat) : TypeModule :=
  match S.typeidxToRepr[idx]? with
  | none => S
  | some repr =>
    if 0 ≤ repr then
      let S := if repr + 1 = S.infos.length then
          { S with module := { S.module with reprs := S.module.reprs.dropLast }, infos := S.infos.dropLast }
        else S
      { S with typeidxToRepr := S.typeidxToRepr.set idx reprNone }
    else S

/-- `wah_module_add_latest_type_metadata` -/
def addLatestTypeMetadata (w : PtrWidth) (debug : Bool) (grants : DefineAlloc → Bool) (S : TypeModule) :
    Except DefineError Unit × TypeModule :=
  let idx := S.module.typeCount - 1
  if !grants .typeidxToRepr then (.error .outOfMemory, S)
  else
    let S := { S with typeidxToRepr := S.typeidxToRepr ++ [reprNone] }
    if !grants .canonicalMap then (.error .outOfMemory, S)
    else
      let S := { S with module := { S.module with canonicalMap := S.module.canonicalMap ++ [idx] } }
      match newReprInfo w debug grants (S.module.typeDef idx) with
      | .error e => (.error e, S.rollback idx)
      | .ok none => (.ok (), S)
      | .ok (some info) =>
        match S.allocRepr grants idx info with
        | .error e => (.error e, S.rollback idx)
        | .ok S => (.ok (), S)

/-- the number of types is `n` again -/
def truncate (S : TypeModule) (n : Nat) : TypeModule where
  module := { S.module with
    typeDefs := S.module.typeDefs.take n
    isFinal := S.module.isFinal.take n
    recGroups := S.module.recGroups.take n
    canonicalMap := S.module.canonicalMap.take n }
  infos := S.infos
  typeidxToRepr := S.typeidxToRepr.take n

/-- the end of `wah_define_typev`, which defines a new type -/
def defineNew (w : PtrWidth) (debug : Bool) (S : TypeModule) (grants : DefineAlloc → Bool) (td : TypeDef) :
    Except DefineError Nat × TypeModule :=
  let idx := S.module.typeCount
  match ensureTypeCapacity grants idx with
  | .error e => (.error e, S)
  | .ok () =>
    match addLatestTypeMetadata w debug grants { S with module := S.module.appendType td } with
    | (.error e, S) => (.error e, S.truncate idx)
    | (.ok (), S) => (.ok idx, S)

/-- `wah_define_typev`: the index of the type, and the module -/
def defineType (w : PtrWidth) (debug : Bool) (S : TypeModule) (c : DefineCall) :
    Except DefineError Nat × TypeModule :=
  match defineSpec S.module.typeCount c.spec c.args with
  | none => (.error .badSpec, S)
  | some ((fresh, t), _) =>
    if !c.grants .spec then (.error .outOfMemory, S)
    else
      match (if fresh then none
        else (List.range S.module.typeCount).find? (defineTypeMatches S.module t.typeDef)) with
      | some i => (.ok i, S)
      | none => S.defineNew w debug c.grants t.typeDef

end TypeModule

/-! ## The batch build -/

/-- `wah_module_build_type_metadata` on the types of a module, whatever metadata it has -/
def batchMetadata (mix : UInt64 → UInt64 → UInt64) (w : PtrWidth) (debug : Bool) (M : LinkModule) :
    Option TypeModule :=
  match buildTypeMetadata mix M, buildReprInfos w debug M with
  | some M', .ok (infos, ids) => some ⟨M', infos, ids⟩
  | _, _ => none

/-! ## A type is appended -/

/-- what a new type mentions is there already -/
structure NewType (M : LinkModule) (td : TypeDef) : Prop where
  below : ∀ t ∈ td.types, t.idxBelow M.typeCount = true
  no_bot : .bot ∉ td.types
  paired : td.Paired
  supertype : td.supertype = none

/-- the arrays have the entries of the types -/
structure LinkModule.Sized (M : LinkModule) : Prop where
  isFinal : M.isFinal.length = M.typeCount
  recGroups : M.recGroups.length = M.typeCount

section
variable {M : LinkModule} {td : TypeDef}

theorem appendType_count : (M.appendType td).typeCount = M.typeCount + 1 := by
  simp [LinkModule.appendType, LinkModule.typeCount]

theorem appendType_new (td : TypeDef) (hS : M.Sized) : (M.appendType td).typeDef M.typeCount = td ∧
    (M.appendType td).final M.typeCount = true ∧ (M.appendType td).recGroup M.typeCount = (M.typeCount, 1) := by
  have hd : M.typeCount = M.typeDefs.length := rfl
  refine ⟨?_, ?_, ?_⟩
  · simp [LinkModule.typeDef, LinkModule.appendType, hd]
  · simp [LinkModule.final, LinkModule.appendType, ← hS.isFinal]
  · simp [LinkModule.recGroup, LinkModule.appendType, ← hS.recGroups]

theorem appendType_grows (td : TypeDef) (hS : M.Sized) : M.Grows (M.appendType td) where
  count := by
    rw [appendType_count]
    exact Nat.le_succ _
  typeDef i hi := by
    unfold LinkModule.typeDef LinkModule.appendType
    rw [List.getElem?_append_left hi]
  final i hi := by
    unfold LinkModule.final LinkModule.appendType
    rw [List.getElem?_append_left (hS.isFinal.symm ▸ hi)]
  recGroup i hi := by
    unfold LinkModule.recGroup LinkModule.appendType
    rw [List.getElem?_append_left (hS.recGroups.symm ▸ hi)]

theorem appendType_sized (td : TypeDef) (hS : M.Sized) : (M.appendType td).Sized where
  isFinal := by
    rw [appendType_count]
    simp [LinkModule.appendType, hS.isFinal]
  recGroups := by
    rw [appendType_count]
    simp [LinkModule.appendType, hS.recGroups]

/-- an index of the grown module is an old one or the new one -/
theorem appendType_cases {i : Nat} (hi : i < (M.appendType td).typeCount) : i < M.typeCount ∨ i = M.typeCount := by
  rw [appendType_count] at hi
  omega

theorem appendType_grouped (hS : M.Sized) (hM : M.Grouped) (htd : NewType M td) : (M.appendType td).Grouped := by
  have hG : M.Grows (M.appendType td) := appendType_grows td hS
  obtain ⟨hdef, -, hgroup⟩ := appendType_new td hS
  have hsuper : (M.appendType td).supertype M.typeCount = none := by
    rw [LinkModule.supertype_eq (by rw [appendType_count]; exact Nat.lt_succ_self _), hdef]
    exact htd.supertype
  refine ⟨fun i hi => ?_, fun i hi => ?_, fun i hi => ?_, fun i hi => ?_, fun i hi => ?_, fun i hi => ?_,
    fun i hi => ?_, fun i hi => ?_⟩
  · rcases appendType_cases hi with hlt | rfl
    · rw [hG.recGroup i hlt]
      exact hM.group_self i hlt
    · rw [hgroup]
      exact ⟨le_rfl, Nat.lt_succ_self _⟩
  · rcases appendType_cases hi with hlt | rfl
    · rw [hG.recGroup i hlt]
      exact (hM.group_end i hlt).trans hG.count
    · rw [hgroup, appendType_count]
  · rcases appendType_cases hi with hlt | rfl
    · rw [hG.recGroup i hlt]
      intro k hk
      rw [hG.recGroup _ ((Nat.add_lt_add_left hk _).trans_le (hM.group_end i hlt))]
      exact hM.group_members i hlt k hk
    · rw [hgroup]
      intro k hk
      obtain rfl : k = 0 := Nat.lt_one_iff.1 hk
      exact hgroup
  · rcases appendType_cases hi with hlt | rfl
    · rw [hG.recGroup i hlt, hG.typeDef i hlt]
      exact hM.refs_below i hlt
    · rw [hgroup, hdef]
      intro t ht
      have hbelow := htd.below t ht
      cases hidx : t.typeIdx with
      | none => simp [Ty.idxBelow, hidx]
      | some u =>
        simp only [Ty.idxBelow, hidx, Option.all_some, decide_eq_true_eq] at hbelow ⊢
        omega
  · rcases appendType_cases hi with hlt | rfl
    · rw [hG.typeDef i hlt]
      exact hM.no_bot i hlt
    · rw [hdef]
      exact htd.no_bot
  · rcases appendType_cases hi with hlt | rfl
    · rw [hG.typeDef i hlt]
      exact hM.paired i hlt
    · rw [hdef]
      exact htd.paired
  · rcases appendType_cases hi with hlt | rfl
    · rw [hG.supertype hlt]
      exact hM.super_lt i hlt
    · rw [hsuper]
      rintro j ⟨⟩
  · rcases appendType_cases hi with hlt | rfl
    · rw [hG.supertype hlt]
      intro j hj
      rw [hG.typeDef i hlt, hG.typeDef j ((hM.super_lt i hlt j hj).trans hlt)]
      exact hM.super_kind i hlt j hj
    · rw [hsuper]
      rintro j ⟨⟩

/-- a type that is there already, under the index `i` -/
def SameAsNew (M : LinkModule) (td : TypeDef) (i : Nat) : Prop := IsoEq (M.appendType td) i M.typeCount

theorem sameNonselfTypes_forall₂ {as bs : List Ty} {T : Ty → Ty → Prop} {i : Nat}
    (hT : ∀ a ∈ as, a.typeIdx ≠ some i → T a a) (h : sameNonselfTypes i as bs = true) : List.Forall₂ T as bs := by
  induction as generalizing bs with
  | nil =>
    obtain rfl : bs = [] := by simpa [sameNonselfTypes, eq_comm] using h
    exact .nil
  | cons a as ih =>
    cases bs with
    | nil => simp [sameNonselfTypes] at h
    | cons b bs =>
      simp only [sameNonselfTypes, List.length_cons, Nat.add_right_cancel_iff, List.zipWith_cons_cons, List.all_cons, id_eq,
        Bool.and_eq_true, decide_eq_true_eq] at h
      obtain ⟨hlen, ⟨rfl, hne⟩, hrest⟩ := h
      refine .cons (hT a List.mem_cons_self hne) (ih (fun a ha => hT a (List.mem_cons_of_mem _ ha)) ?_)
      simp only [sameNonselfTypes, Bool.and_eq_true, decide_eq_true_eq]
      exact ⟨hlen, hrest⟩

/-- a type that the call finds is the same as the new one -/
theorem defineTypeMatches_same (hS : M.Sized) (hM : M.Grouped) (htd : NewType M td) {i : Nat} (hi : i < M.typeCount)
    (h : defineTypeMatches M td i = true) : SameAsNew M td i := by
  have hG : M.Grows (M.appendType td) := appendType_grows td hS
  have hM' := appendType_grouped hS hM htd
  obtain ⟨hdef, hfinal, hgroup⟩ := appendType_new td hS
  simp only [defineTypeMatches, Bool.and_eq_true, decide_eq_true_eq, Option.isNone_iff_eq_none] at h
  obtain ⟨⟨⟨⟨hsize, hkind⟩, hfin⟩, hsuper⟩, htypes⟩ := h
  have hself := hM.group_self i hi
  have hg : M.recGroup i = (i, 1) := by
    unfold inGroup at hself
    exact Prod.ext (by dsimp only; omega) hsize
  -- the definitions are written with the same indices, which are those of other types
  have hT : ∀ a ∈ (M.typeDef i).types, a.typeIdx ≠ some i →
      TyMatch (RefMatch (IsoEq (M.appendType td)) (i, 1) (M.typeCount, 1)) a a := by
    intro a ha hne
    cases hidx : a.typeIdx with
    | none => exact .other hidx
    | some u =>
      have hlt := hM.refs_below i hi a ha
      simp only [Ty.idxBelow, hidx, Option.all_some, decide_eq_true_eq, hg] at hlt
      obtain ⟨n, rfl⟩ := Ty.eq_of_typeIdx hidx
      have hui : u ≠ i := fun hu => hne (by rw [hidx, hu])
      refine .idx (.inr ⟨?_, ?_, IsoEq.refl u⟩)
      · unfold inGroup
        omega
      · unfold inGroup
        dsimp only
        omega
  unfold SameAsNew
  rw [IsoEq.iff, IsoStep, hG.recGroup i hi, hgroup, hg]
  refine ⟨rfl, by simp, fun k hk => ?_⟩
  obtain rfl : k = 0 := Nat.lt_one_iff.1 hk
  rw [Nat.add_zero, Nat.add_zero, hG.typeDef i hi, hG.final i hi, hdef, hfinal]
  have hmem : ∀ {ts : List Ty}, (∀ a ∈ ts, a ∈ (M.typeDef i).types) → ∀ a ∈ ts, a.typeIdx ≠ some i →
      TyMatch (RefMatch (IsoEq (M.appendType td)) (i, 1) (M.typeCount, 1)) a a := fun hts a ha => hT a (hts a ha)
  by_cases hk : td.kind = .func
  · have hk' := hkind.trans hk
    simp only [if_pos hk, Bool.and_eq_true] at htypes
    refine ⟨hkind, hfin, ?_, fun _ => ?_, fun _ => ?_, fun hn => absurd hk' hn, fun hn => absurd hk' hn⟩
    · rw [hsuper, htd.supertype]
      exact .none
    · exact sameNonselfTypes_forall₂ (hmem fun a ha => by simp [TypeDef.types, hk', ha]) htypes.1
    · exact sameNonselfTypes_forall₂ (hmem fun a ha => by simp [TypeDef.types, hk', ha]) htypes.2
  · have hk' : (M.typeDef i).kind ≠ .func := fun hn => hk (hkind.symm.trans hn)
    simp only [if_neg hk, Bool.and_eq_true, decide_eq_true_eq] at htypes
    refine ⟨hkind, hfin, ?_, fun hn => absurd hn hk', fun hn => absurd hn hk', fun _ => ?_, fun _ => htypes.2⟩
    · rw [hsuper, htd.supertype]
      exact .none
    · exact sameNonselfTypes_forall₂ (hmem fun a ha => by simp [TypeDef.types, hk', ha]) htypes.1

end

/-! ## Representations of a grown module -/

section
variable {M : LinkModule} {td : TypeDef} {w : PtrWidth} {debug : Bool}

/-- the representations of the types that were there, with room for one more -/
theorem allocRepr_appendType (td : TypeDef) (hS : M.Sized) {k : Nat} (hk : k ≤ M.typeCount) :
    (List.range k).foldl (Wah.allocRepr (M.appendType td)) ([], List.replicate (M.typeCount + 1) reprNone) =
      (((List.range k).foldl (Wah.allocRepr M) ([], List.replicate M.typeCount reprNone)).1,
        ((List.range k).foldl (Wah.allocRepr M) ([], List.replicate M.typeCount reprNone)).2 ++ [reprNone]) ∧
    ((List.range k).foldl (Wah.allocRepr M) ([], List.replicate M.typeCount reprNone)).2.length = M.typeCount := by
  induction k with
  | zero => exact ⟨Prod.ext rfl List.replicate_succ', List.length_replicate⟩
  | succ k ih =>
    obtain ⟨heq, hlen⟩ := ih (Nat.le_of_succ_le hk)
    have hdef := (appendType_grows td hS).typeDef k hk
    simp only [List.range_succ, List.foldl_append, List.foldl_cons, List.foldl_nil, heq]
    generalize (List.range k).foldl (Wah.allocRepr M) ([], List.replicate M.typeCount reprNone) = acc at hlen
    have hset : ∀ x : Int, (acc.2 ++ [reprNone]).set k x = acc.2.set k x ++ [reprNone] := fun x =>
      List.set_append_left _ _ (hlen.symm ▸ hk)
    unfold Wah.allocRepr
    rw [hdef]
    cases (M.typeDef k).kind with
    | func => exact ⟨rfl, hlen⟩
    | struct => exact ⟨Prod.ext rfl (hset _), by rw [List.length_set, hlen]⟩
    | array => exact ⟨Prod.ext rfl (hset _), by rw [List.length_set, hlen]⟩

/-- `repr_infos` after a type is appended -/
theorem buildReprs_appendType (td : TypeDef) (hS : M.Sized) :
    (buildReprs (M.appendType td)).1 = (buildReprs M).1 ++ match td.kind with
      | .func => []
      | .struct => [(.struct, M.typeCount)]
      | .array => [(.array, M.typeCount)] := by
  obtain ⟨heq, -⟩ := allocRepr_appendType td hS (le_refl M.typeCount)
  unfold buildReprs
  rw [appendType_count, List.range_succ, List.foldl_append, heq, List.foldl_cons, List.foldl_nil, Wah.allocRepr,
    (appendType_new td hS).1]
  cases td.kind with
  | func => exact (List.append_nil _).symm
  | struct => rfl
  | array => rfl

theorem allocReprInfo_appendType (td : TypeDef) (hS : M.Sized) {k : Nat} (hk : k ≤ M.typeCount) {acc : List ReprInfo × List Int}
    (h : (List.range k).foldlM (allocReprInfo w debug M) ([], List.replicate M.typeCount reprNone) = .ok acc) :
    (List.range k).foldlM (allocReprInfo w debug (M.appendType td)) ([], List.replicate (M.typeCount + 1) reprNone) =
      .ok (acc.1, acc.2 ++ [reprNone]) ∧ acc.2.length = M.typeCount := by
  induction k generalizing acc with
  | zero =>
    obtain rfl := Except.ok.inj h
    exact ⟨congrArg Except.ok (Prod.ext rfl List.replicate_succ'), List.length_replicate⟩
  | succ k ih =>
    rw [List.range_succ, List.foldlM_append] at h ⊢
    obtain ⟨acc₁, hacc₁, hlast⟩ := bind_eq_ok.mp h
    obtain ⟨heq, hlen⟩ := ih (Nat.le_of_succ_le hk) hacc₁
    have hdef := (appendType_grows td hS).typeDef k hk
    have hset : ∀ x : Int, (acc₁.2 ++ [reprNone]).set k x = acc₁.2.set k x ++ [reprNone] := fun x =>
      List.set_append_left _ _ (hlen.symm ▸ hk)
    rw [List.foldlM_cons] at hlast
    obtain ⟨acc₂, hstep, hacc₂⟩ := bind_eq_ok.mp hlast
    obtain rfl := Except.ok.inj hacc₂
    suffices hnew : allocReprInfo w debug (M.appendType td) (acc₁.1, acc₁.2 ++ [reprNone]) k =
        .ok (acc₂.1, acc₂.2 ++ [reprNone]) ∧ acc₂.2.length = M.typeCount by
      refine ⟨?_, hnew.2⟩
      rw [heq]
      change ([k].foldlM (allocReprInfo w debug (M.appendType td)) (acc₁.1, acc₁.2 ++ [reprNone])) = _
      rw [List.foldlM_cons, hnew.1]
      rfl
    unfold allocReprInfo at hstep ⊢
    rw [hdef]
    cases hkind : (M.typeDef k).kind with
    | func =>
      simp only [hkind] at hstep
      obtain rfl := Except.ok.inj hstep
      exact ⟨by simp only [hkind], hlen⟩
    | struct =>
      simp only [hkind] at hstep
      obtain ⟨info, hinfo, hacc⟩ := bind_eq_ok.mp hstep
      obtain rfl := Except.ok.inj hacc
      refine ⟨?_, by rw [List.length_set, hlen]⟩
      simp only [hkind, hinfo, hset]
      rfl
    | array =>
      simp only [hkind] at hstep
      obtain ⟨p, hinfo, hacc⟩ := bind_eq_ok.mp hstep
      obtain rfl := Except.ok.inj hacc
      refine ⟨?_, by rw [List.length_set, hlen]⟩
      simp only [hkind, hinfo, hset]
      rfl

/-- the layouts after a type is appended -/
theorem buildReprInfos_appendType (hS : M.Sized) {infos : List ReprInfo} {ids : List Int}
    (h : buildReprInfos w debug M = .ok (infos, ids)) {grants : DefineAlloc → Bool} {info : Option ReprInfo}
    (hinfo : newReprInfo w debug grants td = .ok info) :
    buildReprInfos w debug (M.appendType td) = .ok (infos ++ info.toList,
      ids ++ [if info.isSome then (infos.length : Int) else reprNone]) ∧ ids.length = M.typeCount ∧
    (match td.kind with
      | .func => info = none
      | .struct => ∃ i, info = some i ∧ i.type = .struct
      | .array => ∃ i, info = some i ∧ i.type = .array) := by
  obtain ⟨heq, hlen⟩ := allocReprInfo_appendType td hS le_rfl h
  have hset : ∀ x : Int, (ids ++ [reprNone]).set M.typeCount x = ids ++ [x] := by
    intro x
    rw [List.set_append_right _ _ (by rw [hlen]), hlen, Nat.sub_self]
    rfl
  unfold buildReprInfos
  rw [appendType_count, List.range_succ, List.foldlM_append, heq]
  change ([M.typeCount].foldlM (allocReprInfo w debug (M.appendType td)) (infos, ids ++ [reprNone])) = _ ∧ _
  rw [List.foldlM_cons, allocReprInfo, (appendType_new td hS).1]
  unfold newReprInfo at hinfo
  cases hkind : td.kind with
  | func =>
    simp only [hkind] at hinfo
    obtain rfl := Except.ok.inj hinfo
    refine ⟨?_, hlen, rfl⟩
    rw [Option.toList_none, List.append_nil]
    rfl
  | struct =>
    simp only [hkind] at hinfo
    split_ifs at hinfo
    cases hb : buildStructReprInfo w debug td.fieldTypes with
    | error e => simp [hb] at hinfo
    | ok i =>
      simp only [hb] at hinfo
      obtain rfl := Except.ok.inj hinfo
      have htype : i.type = .struct := by
        obtain ⟨s, -, rfl⟩ := buildStructReprInfo_ok hb
        rfl
      refine ⟨?_, hlen, i, rfl, htype⟩
      change Except.ok (infos ++ [i], (ids ++ [reprNone]).set M.typeCount infos.length) = _
      rw [hset]
      rfl
  | array =>
    simp only [hkind] at hinfo
    cases hb : fieldTypeLayout w ((td.fieldTypes[0]?).getD .bot) with
    | error e => simp [hb] at hinfo
    | ok p =>
      simp only [hb] at hinfo
      split_ifs at hinfo
      obtain rfl := Except.ok.inj hinfo
      refine ⟨?_, hlen, _, rfl, rfl⟩
      change Except.ok (infos ++ [⟨.array, p.1, [⟨0, p.2⟩]⟩], (ids ++ [reprNone]).set M.typeCount infos.length) = _
      rw [hset]
      rfl

end

/-! ## The invariant -/

/-- what holds of the module after any calls: its types are grouped, and their layouts are those of the batch build -/
structure TypeModule.Inv (w : PtrWidth) (debug : Bool) (S : TypeModule) : Prop where
  grouped : S.module.Grouped
  sized : S.module.Sized
  canonicalMap : S.module.canonicalMap.length = S.module.typeCount
  reprs : S.module.reprs = (buildReprs S.module).1
  infos : buildReprInfos w debug S.module = .ok (S.infos, S.typeidxToRepr)

section
variable {w : PtrWidth} {debug : Bool} {S : TypeModule} {td : TypeDef} {grants : DefineAlloc → Bool}

/-- the module after a type was added -/
def TypeModule.added (S : TypeModule) (td : TypeDef) (info : Option ReprInfo) : TypeModule where
  module := { S.module.appendType td with
    canonicalMap := S.module.canonicalMap ++ [S.module.typeCount]
    reprs := (buildReprs (S.module.appendType td)).1 }
  infos := S.infos ++ info.toList
  typeidxToRepr := S.typeidxToRepr ++ [if info.isSome then (S.infos.length : Int) else reprNone]

namespace TypeModule

/-- metadata does not depend on the metadata there was -/
theorem buildReprs_congr {M M' : LinkModule} (h : M'.typeDefs = M.typeDefs) : buildReprs M' = buildReprs M := by
  have hdef : M'.typeDef = M.typeDef := by
    funext i
    rw [LinkModule.typeDef, LinkModule.typeDef, h]
  have hstep : Wah.allocRepr M' = Wah.allocRepr M := by
    funext acc i
    rw [Wah.allocRepr, Wah.allocRepr, hdef]
  rw [buildReprs, buildReprs, hstep, LinkModule.typeCount, LinkModule.typeCount, h]

theorem buildReprInfos_congr {M M' : LinkModule} (h : M'.typeDefs = M.typeDefs) :
    buildReprInfos w debug M' = buildReprInfos w debug M := by
  have hdef : M'.typeDef = M.typeDef := by
    funext i
    rw [LinkModule.typeDef, LinkModule.typeDef, h]
  have hstep : allocReprInfo w debug M' = allocReprInfo w debug M := by
    funext acc i
    rw [allocReprInfo, allocReprInfo, hdef]
  rw [buildReprInfos, buildReprInfos, hstep, LinkModule.typeCount, LinkModule.typeCount, h]

theorem Grouped.congr {M M' : LinkModule} (h : M.Grouped) (hdefs : M'.typeDefs = M.typeDefs)
    (hgroups : M'.recGroups = M.recGroups) : M'.Grouped := by
  have hcount : M'.typeCount = M.typeCount := congrArg List.length hdefs
  have hdef : M'.typeDef = M.typeDef := by
    funext i
    rw [LinkModule.typeDef, LinkModule.typeDef, hdefs]
  have hgroup : M'.recGroup = M.recGroup := by
    funext i
    rw [LinkModule.recGroup, LinkModule.recGroup, hgroups]
  have hsuper : ∀ i, M'.supertype i = M.supertype i := by
    intro i
    rw [Module.supertype, Module.supertype, hdefs]
  obtain ⟨h1, h2, h3, h4, h5, h6, h7, h8⟩ := h
  constructor
  · rwa [hcount, hgroup]
  · rwa [hcount, hgroup]
  · rwa [hcount, hgroup]
  · rwa [hcount, hgroup, hdef]
  · rwa [hcount, hdef]
  · rwa [hcount, hdef]
  · simpa only [hcount, hsuper] using h7
  · simpa only [hcount, hsuper, hdef] using h8

/-- dropping the appended entries gives the module back -/
theorem truncate_append (td : TypeDef) (hS : S.module.Sized) (hcanon : S.module.canonicalMap.length = S.module.typeCount)
    (hids : S.typeidxToRepr.length = S.module.typeCount) (map : List Nat) (ids : List Int) :
    truncate
      { module := { S.module.appendType td with canonicalMap := S.module.canonicalMap ++ map }
        infos := S.infos
        typeidxToRepr := S.typeidxToRepr ++ ids } S.module.typeCount = S := by
  obtain ⟨M, infos, ids'⟩ := S
  have hdefs : (M.typeDefs ++ [td]).take M.typeCount = M.typeDefs := List.take_left' rfl
  have hfinal : (M.isFinal ++ [true]).take M.typeCount = M.isFinal := List.take_left' hS.isFinal
  have hgroups : (M.recGroups ++ [(M.typeCount, 1)]).take M.typeCount = M.recGroups := List.take_left' hS.recGroups
  have hmap : (M.canonicalMap ++ map).take M.typeCount = M.canonicalMap := List.take_left' hcanon
  have hids' : (ids' ++ ids).take M.typeCount = ids' := List.take_left' hids
  simp only [truncate, LinkModule.appendType, hdefs, hfinal, hgroups, hmap, hids']

theorem rollback_of_none {idx : Nat} (h : S.typeidxToRepr[idx]? = some reprNone) : S.rollback idx = S := by
  unfold rollback
  rw [h]
  exact if_neg (by decide)

/-- what the metadata of the latest type comes to: the type is added, or everything is as it was -/
theorem addLatestTypeMetadata_spec (h : S.Inv w debug) {r : Except DefineError Unit × TypeModule}
    (hr : addLatestTypeMetadata w debug grants { S with module := S.module.appendType td } = r) :
    (∃ info, newReprInfo w debug grants td = .ok info ∧ r = (.ok (), S.added td info)) ∨
      ∃ e, r.1 = .error e ∧ r.2.truncate S.module.typeCount = S := by
  have hids : S.typeidxToRepr.length = S.module.typeCount := (buildReprInfos_built h.infos).length
  have hdef : (S.module.appendType td).typeDef S.module.typeCount = td := (appendType_new td h.sized).1
  have hcount : (S.module.appendType td).typeCount - 1 = S.module.typeCount := by
    rw [appendType_count, Nat.add_sub_cancel]
  have htrunc := truncate_append td h.sized h.canonicalMap hids
  have hnone : (S.typeidxToRepr ++ [reprNone])[S.module.typeCount]? = some reprNone := by
    rw [← hids, List.getElem?_concat_length]
  unfold addLatestTypeMetadata at hr
  simp only [hcount] at hr
  split_ifs at hr with h1 h2
  · subst hr
    have := htrunc [] []
    rw [List.append_nil, List.append_nil] at this
    exact .inr ⟨_, rfl, this⟩
  · subst hr
    have := htrunc [] [reprNone]
    rw [List.append_nil] at this
    exact .inr ⟨_, rfl, this⟩
  · have hdef' : LinkModule.typeDef { S.module.appendType td with
        canonicalMap := (S.module.appendType td).canonicalMap ++ [S.module.typeCount] } S.module.typeCount = td := hdef
    rw [hdef'] at hr
    cases hinfo : newReprInfo w debug grants td with
    | error e =>
      simp only [hinfo] at hr
      subst hr
      refine .inr ⟨e, rfl, ?_⟩
      dsimp only
      rw [rollback_of_none hnone]
      exact htrunc _ _
    | ok info =>
      obtain ⟨-, -, hkind⟩ := buildReprInfos_appendType h.sized h.infos hinfo
      have hreprs := buildReprs_appendType td h.sized
      cases info with
      | none =>
        simp only [hinfo] at hr
        subst hr
        refine .inl ⟨none, rfl, ?_⟩
        have hnil : (buildReprs (S.module.appendType td)).1 = S.module.reprs := by
          rw [hreprs, h.reprs]
          revert hkind
          cases td.kind with
          | func => simp
          | struct => rintro ⟨i, hi, -⟩; cases hi
          | array => rintro ⟨i, hi, -⟩; cases hi
        simp only [added, hnil, Option.toList_none, List.append_nil, Option.isSome_none, Bool.false_eq_true, if_false]
        rfl
      | some info =>
        simp only [hinfo, allocRepr] at hr
        split_ifs at hr with hgrant
        · subst hr
          refine .inl ⟨some info, rfl, ?_⟩
          have hcons : (buildReprs (S.module.appendType td)).1 = S.module.reprs ++ [(info.type, S.module.typeCount)] := by
            rw [hreprs, h.reprs]
            revert hkind
            cases td.kind with
            | func => rintro ⟨⟩
            | struct =>
              rintro ⟨i, hi, htype⟩
              cases hi
              rw [htype]
            | array =>
              rintro ⟨i, hi, htype⟩
              cases hi
              rw [htype]
          have hset : (S.typeidxToRepr ++ [reprNone]).set S.module.typeCount (S.infos.length : Int) =
              S.typeidxToRepr ++ [(S.infos.length : Int)] := by
            rw [List.set_append_right _ _ (by rw [hids]), hids, Nat.sub_self]
            rfl
          simp only [added, hcons, hset, Option.toList_some, Option.isSome_some, if_true]
          rfl
        · subst hr
          refine .inr ⟨_, rfl, ?_⟩
          dsimp only
          rw [rollback_of_none hnone]
          exact htrunc _ _

/-- the invariant holds of the module with the type -/
theorem Inv.added (h : S.Inv w debug) (htd : NewType S.module td) {info : Option ReprInfo}
    (hinfo : newReprInfo w debug grants td = .ok info) : (S.added td info).Inv w debug where
  grouped := Grouped.congr (appendType_grouped h.sized h.grouped htd) rfl rfl
  sized := ⟨(appendType_sized td h.sized).isFinal, (appendType_sized td h.sized).recGroups⟩
  canonicalMap := by
    change (S.module.canonicalMap ++ [S.module.typeCount]).length = (S.module.appendType td).typeCount
    rw [List.length_append, h.canonicalMap, appendType_count]
    rfl
  reprs := (congrArg Prod.fst (buildReprs_congr rfl)).symm
  infos := (buildReprInfos_congr rfl).trans (buildReprInfos_appendType h.sized h.infos hinfo).1

end TypeModule

end

/-! ## The canonical map -/

section
variable {mix : UInt64 → UInt64 → UInt64} {w : PtrWidth} {debug : Bool} {S : TypeModule} {td : TypeDef}
  {info : Option ReprInfo}

namespace TypeModule

/-- the metadata is what the batch build computes -/
def IsBatch (mix : UInt64 → UInt64 → UInt64) (w : PtrWidth) (debug : Bool) (S : TypeModule) : Prop :=
  batchMetadata mix w debug S.module = some S

theorem isBatch_iff (h : S.Inv w debug) : S.IsBatch mix w debug ↔
    S.module.canonicalMap = buildCanonicalMap S.module mix ∧
      ∀ i < S.module.typeCount, checkSupertype S.module i = true := by
  obtain ⟨M, infos, ids⟩ := S
  have hinfos : buildReprInfos w debug M = .ok (infos, ids) := h.infos
  have hreprs : M.reprs = (buildReprs M).1 := h.reprs
  have hbuild : ∀ map, (buildReprs { M with canonicalMap := map }).1 = (buildReprs M).1 := fun map =>
    congrArg Prod.fst (buildReprs_congr rfl)
  have hall : (List.range M.typeCount).all (checkSupertype { M with canonicalMap := buildCanonicalMap M mix }) = true ↔
      ∀ i < M.typeCount, checkSupertype { M with canonicalMap := buildCanonicalMap M mix } i = true := by simp
  unfold IsBatch batchMetadata buildTypeMetadata
  simp only [hinfos, hbuild]
  constructor
  · intro hsome
    split_ifs at hsome with hcheck
    obtain ⟨hM, -⟩ := TypeModule.mk.inj (Option.some.inj hsome)
    have hmap : buildCanonicalMap M mix = M.canonicalMap := congrArg (fun N : LinkModule => N.canonicalMap) hM
    refine ⟨hmap.symm, ?_⟩
    have hchecks := hall.1 hcheck
    rw [hmap] at hchecks
    exact hchecks
  · rintro ⟨hmap, hchecks⟩
    have hself : ({ M with canonicalMap := buildCanonicalMap M mix } : LinkModule) = M := by rw [← hmap]
    have hcheck := hall.2 (by rw [hself]; exact hchecks)
    rw [if_pos hcheck, ← hmap, ← hreprs]

/-- the canonical map of the batch build identifies the types that are the same -/
theorem IsBatch.exact (h : S.Inv w debug) (hb : S.IsBatch mix w debug) {i j : Nat} (hi : i < S.module.typeCount)
    (hj : j < S.module.typeCount) : S.module.canon i = S.module.canon j ↔ IsoEq S.module i j := by
  have hM := h.grouped
  have hspec := buildCanonicalMap_spec mix hM
  rw [← ((isBatch_iff h).1 hb).1] at hspec
  exact hspec.exact i hi j hj (hM.start_lt hi) (hM.start_lt hj)

theorem IsBatch.canon_le (h : S.Inv w debug) (hb : S.IsBatch mix w debug) (i : Nat) : S.module.canon i ≤ i := by
  have hspec := buildCanonicalMap_spec mix h.grouped
  rw [← ((isBatch_iff h).1 hb).1] at hspec
  exact hspec.le h.grouped i

theorem added_grows (h : S.Inv w debug) : S.module.Grows (S.added td info).module where
  count := (appendType_grows td h.sized).count
  typeDef := (appendType_grows td h.sized).typeDef
  final := (appendType_grows td h.sized).final
  recGroup := (appendType_grows td h.sized).recGroup

/-- the types of the module with a type added are those of the module it was appended to -/
theorem added_same (h : S.Inv w debug) (htd : NewType S.module td) {i : Nat} (hi : i ≤ S.module.typeCount) {j : Nat}
    (hj : j ≤ S.module.typeCount) : IsoEq (S.added td info).module i j ↔ IsoEq (S.module.appendType td) i j := by
  have hG : (S.module.appendType td).Grows (S.added td info).module :=
    ⟨le_rfl, fun _ _ => rfl, fun _ _ => rfl, fun _ _ => rfl⟩
  refine hG.isoEq_iff (appendType_grouped h.sized h.grouped htd) ?_ ?_
  · rw [appendType_count]
    exact Nat.lt_succ_of_le hi
  · rw [appendType_count]
    exact Nat.lt_succ_of_le hj

/-- the canonical form of a type that was added is itself -/
theorem added_canon (h : S.Inv w debug) : (S.added td info).module.canon S.module.typeCount = S.module.typeCount ∧
    ∀ i < S.module.typeCount, (S.added td info).module.canon i = S.module.canon i := by
  unfold Module.canon
  refine ⟨?_, fun i hi => ?_⟩
  · change ((S.module.canonicalMap ++ [S.module.typeCount])[S.module.typeCount]?).getD _ = _
    rw [← h.canonicalMap, List.getElem?_concat_length]
    rfl
  · change ((S.module.canonicalMap ++ [S.module.typeCount])[i]?).getD _ = _
    rw [List.getElem?_append_left (h.canonicalMap.symm ▸ hi)]

/-- adding a type keeps to the batch build exactly if no type that was there is the same -/
theorem added_isBatch_iff (h : S.Inv w debug) (htd : NewType S.module td) (hadded : (S.added td info).Inv w debug) :
    (S.added td info).IsBatch mix w debug ↔
      S.IsBatch mix w debug ∧ ∀ i < S.module.typeCount, ¬ SameAsNew S.module td i := by
  have hG : S.module.Grows (S.added td info).module := added_grows h
  have hcount : (S.added td info).module.typeCount = S.module.typeCount + 1 := appendType_count
  have hnew : S.module.typeCount < (S.added td info).module.typeCount := by omega
  have hspec := buildCanonicalMap_spec mix hadded.grouped
  have hleast := hspec.least hadded.grouped hnew
  have hsplit : buildCanonicalMap (S.added td info).module mix =
      buildCanonicalMap S.module mix ++ [mapAt (buildCanonicalMap (S.added td info).module mix) S.module.typeCount] := by
    have hlt : S.module.typeCount < (buildCanonicalMap (S.added td info).module mix).length := by
      rw [hspec.length]
      exact hnew
    rw [← hG.buildCanonicalMap_take h.grouped hadded.grouped mix]
    conv_lhs => rw [← List.take_append_drop S.module.typeCount (buildCanonicalMap (S.added td info).module mix)]
    rw [List.drop_eq_getElem_cons hlt, List.drop_of_length_le (by rw [hspec.length, hcount])]
    simp [mapAt, hlt]
  have hself : mapAt (buildCanonicalMap (S.added td info).module mix) S.module.typeCount = S.module.typeCount ↔
      ∀ i < S.module.typeCount, ¬ SameAsNew S.module td i := by
    constructor
    · intro heq i hi hsame
      have hle := hleast.2 ((added_same h htd hi.le le_rfl).2 hsame).symm
      omega
    · intro hno
      by_contra hne
      have hle := hspec.le hadded.grouped S.module.typeCount
      have hlt : mapAt (buildCanonicalMap (S.added td info).module mix) S.module.typeCount < S.module.typeCount := by
        omega
      exact hno _ hlt ((added_same h htd hlt.le le_rfl).1 (IsoEq.symm hleast.1))
  have hmap : (S.added td info).module.canonicalMap = buildCanonicalMap (S.added td info).module mix ↔
      S.module.canonicalMap = buildCanonicalMap S.module mix ∧ ∀ i < S.module.typeCount, ¬ SameAsNew S.module td i := by
    rw [hsplit, ← hself]
    change S.module.canonicalMap ++ [S.module.typeCount] = _ ↔ _
    constructor
    · intro heq
      obtain ⟨hleft, hright⟩ := List.append_inj' heq rfl
      exact ⟨hleft, (List.cons.inj hright).1.symm⟩
    · rintro ⟨hleft, hright⟩
      rw [hleft, hright]
  have hcanon : S.module.GrowsCanon (S.added td info).module := ⟨hG, (added_canon h).2⟩
  have hchecks : (∀ i < (S.added td info).module.typeCount, checkSupertype (S.added td info).module i = true) ↔
      ∀ i < S.module.typeCount, checkSupertype S.module i = true := by
    constructor
    · intro hall i hi
      rw [← hcanon.checkSupertype h.grouped hadded.grouped hi]
      exact hall i (hi.trans hnew)
    · intro hall i hi
      rcases Nat.lt_succ_iff_lt_or_eq.1 (hcount ▸ hi) with hlt | rfl
      · rw [hcanon.checkSupertype h.grouped hadded.grouped hlt]
        exact hall i hlt
      · have hsuper : (S.added td info).module.supertype S.module.typeCount = none := by
          rw [LinkModule.supertype_eq hnew]
          exact (congrArg TypeDef.supertype (appendType_new td h.sized).1).trans htd.supertype
        rw [checkSupertype, hsuper]
        rfl
  rw [isBatch_iff hadded, isBatch_iff h, hmap, hchecks]
  tauto

end TypeModule

end

/-! ## What specifications give -/

section
variable {D : Dialect} {u : List Tok} {v : List Int}

/-- a type that a specification denotes is written with the type indices there are -/
def Mentioned (typeCount : Nat) (t : Ty) : Prop := t ≠ .bot ∧ t.idxBelow typeCount = true

theorem mentioned_idx {n i : Nat} {null : Bool} (hi : i < n) : Mentioned n (.ref null (.idx i)) :=
  ⟨by simp, decide_eq_true hi⟩

theorem TypeSpec.TypeG.mentioned {packed : Bool} {t : Ty} (h : TypeG D packed u v t) : Mentioned D.typeCount t := by
  have hnamed : ∀ {t : Ty}, (typeWord t).isSome = true → Mentioned D.typeCount t := by
    intro t ht
    obtain ⟨w, hw⟩ := Option.isSome_iff_exists.1 ht
    obtain ⟨k, hk, -, rfl⟩ := typeKws_mem.2 hw
    obtain ⟨hbot, hidx⟩ := (by decide : ∀ k ∈ typeKws, k.type ≠ .bot ∧ k.type.typeIdx = none) k hk
    exact ⟨hbot, by rw [Ty.idxBelow, hidx]; rfl⟩
  cases h with
  | name hw hp => exact hnamed (by rw [hw]; rfl)
  | arg hph ht =>
    rcases ht with ⟨hw, -⟩ | ⟨null, i, rfl, hi⟩
    · exact hnamed hw
    · exact mentioned_idx hi
  | ref null hh => exact ⟨by simp, rfl⟩
  | refArg null hph hh =>
    cases hh with
    | abs hh => exact ⟨by simp, rfl⟩
    | idx hi b => exact mentioned_idx hi

theorem TypeSpec.FieldG.mentioned {p : Ty × Bool} (h : FieldG D u v p) : Mentioned D.typeCount p.1 := by
  cases h with
  | const h => exact h.mentioned
  | mutable h => exact h.mentioned

theorem TypeSpec.Closed.mentioned {ts : List Ty} {trailing : Bool} {endc : Char}
    (h : Closed trailing endc (TypeG D false) u v ts) : ∀ t ∈ ts, Mentioned D.typeCount t := by
  obtain ⟨h⟩ := h
  exact h.forall_items TypeG.mentioned

theorem TypeSpec.FuncG.mentioned {f : FuncType} (h : FuncG D u v f) :
    ∀ t ∈ f.params ++ f.results, Mentioned D.typeCount t := by
  obtain ⟨hp, hr⟩ := h
  refine List.forall_mem_append.2 ⟨hp.mentioned, ?_⟩
  cases hr with
  | none => simp
  | one hr => exact List.forall_mem_singleton.2 hr.mentioned
  | list hr => exact hr.mentioned

theorem TypeSpec.SpecG.mentioned {t : SpecType} (h : SpecG D u v t) :
    t.typeDef.supertype = none ∧ ∀ ty ∈ t.typeDef.types, Mentioned D.typeCount ty := by
  cases h with
  | func h => exact ⟨rfl, by simpa [SpecType.typeDef, TypeDef.types] using h.mentioned⟩
  | struct h =>
    obtain ⟨h⟩ := h
    have hfields := h.forall_items FieldG.mentioned
    refine ⟨rfl, fun ty hty => ?_⟩
    simp only [SpecType.typeDef, TypeDef.types, Option.map_none, Option.toList_none, List.nil_append, reduceCtorEq,
      if_false, List.mem_map] at hty
    obtain ⟨f, hf, rfl⟩ := hty
    exact hfields f hf
  | array h => exact ⟨rfl, by simpa [SpecType.typeDef, TypeDef.types] using h.mentioned⟩

theorem TypeSpec.DefineG.mentioned {r : Bool × SpecType} (h : DefineG D u v r) :
    r.2.typeDef.supertype = none ∧ ∀ ty ∈ r.2.typeDef.types, Mentioned D.typeCount ty := by
  cases h with
  | plain h => exact h.mentioned
  | fresh h => exact h.mentioned

theorem TypeSpec.SpecType.typeDef_paired (t : SpecType) : t.typeDef.Paired := by
  cases t <;> simp [SpecType.typeDef, TypeDef.Paired]

/-- a specification that is accepted gives a type that can be appended -/
theorem newType_of_spec {M : LinkModule} {spec : List Char} {args rest : List Int} {fresh : Bool} {t : SpecType}
    (h : defineSpec M.typeCount spec args = some ((fresh, t), rest)) : NewType M t.typeDef := by
  obtain ⟨v, -, hG⟩ := (defineSpec_eq _ _ _ _).1 h
  obtain ⟨hsuper, htypes⟩ := hG.mentioned
  exact ⟨fun ty hty => (htypes ty hty).2, fun hbot => (htypes _ hbot).1 rfl, t.typeDef_paired, hsuper⟩

end

/-! ## Calls -/

section
variable {mix : UInt64 → UInt64 → UInt64} {w : PtrWidth} {debug : Bool} {S S' : TypeModule} {c : DefineCall}

namespace TypeModule

/-- what a call does -/
inductive Defines (w : PtrWidth) (debug : Bool) (S : TypeModule) (c : DefineCall) :
    Except DefineError Nat × TypeModule → Prop where
  | failed (e : DefineError) : Defines w debug S c (.error e, S)
  | found {t : SpecType} {rest : List Int} {i : Nat}
      (hspec : defineSpec S.module.typeCount c.spec c.args = some ((false, t), rest)) (hi : i < S.module.typeCount)
      (hmatch : defineTypeMatches S.module t.typeDef i = true) : Defines w debug S c (.ok i, S)
  | added {fresh : Bool} {t : SpecType} {rest : List Int} {info : Option ReprInfo}
      (hspec : defineSpec S.module.typeCount c.spec c.args = some ((fresh, t), rest))
      (hnone : fresh = false → ∀ i < S.module.typeCount, defineTypeMatches S.module t.typeDef i = false)
      (hinfo : newReprInfo w debug c.grants t.typeDef = .ok info) :
      Defines w debug S c (.ok S.module.typeCount, S.added t.typeDef info)

/-- a type that no allocation fails for is added, else nothing happens -/
theorem defineNew_defines (h : S.Inv w debug) {fresh : Bool} {t : SpecType} {rest : List Int}
    (hspec : defineSpec S.module.typeCount c.spec c.args = some ((fresh, t), rest))
    (hnone : fresh = false → ∀ i < S.module.typeCount, defineTypeMatches S.module t.typeDef i = false) :
    Defines w debug S c (S.defineNew w debug c.grants t.typeDef) := by
  unfold defineNew
  dsimp only
  cases ensureTypeCapacity c.grants S.module.typeCount with
  | error e => exact .failed e
  | ok _ =>
    dsimp only
    rcases addLatestTypeMetadata_spec h rfl with ⟨info, hinfo, hr⟩ | ⟨e, he, hS⟩
    · rw [hr]
      exact .added hspec hnone hinfo
    · generalize addLatestTypeMetadata w debug c.grants { S with module := S.module.appendType t.typeDef } = r at he hS
      obtain ⟨r, S₁⟩ := r
      obtain rfl : r = .error e := he
      dsimp only
      rw [show S₁.truncate S.module.typeCount = S from hS]
      exact .failed e

theorem defineType_defines (h : S.Inv w debug) (c : DefineCall) : Defines w debug S c (S.defineType w debug c) := by
  unfold defineType
  cases hspec : defineSpec S.module.typeCount c.spec c.args with
  | none => exact .failed _
  | some p =>
    obtain ⟨⟨fresh, t⟩, rest⟩ := p
    dsimp only
    by_cases hgrant : (!c.grants .spec) = true
    · rw [if_pos hgrant]
      exact .failed _
    rw [if_neg hgrant]
    cases fresh with
    | true => exact defineNew_defines h hspec nofun
    | false =>
      rw [if_neg Bool.false_ne_true]
      cases hfind : (List.range S.module.typeCount).find? (defineTypeMatches S.module t.typeDef) with
      | some i =>
        exact .found hspec (List.mem_range.1 (List.mem_of_find?_eq_some hfind)) (List.find?_some hfind)
      | none =>
        refine defineNew_defines h hspec fun _ i hi => ?_
        simpa using List.find?_eq_none.1 hfind i (List.mem_range.2 hi)

theorem Inv.step (h : S.Inv w debug) (c : DefineCall) : (S.defineType w debug c).2.Inv w debug := by
  have hd := defineType_defines h c
  generalize S.defineType w debug c = r at hd
  cases hd with
  | failed e => exact h
  | found hspec hi hmatch => exact h
  | added hspec hnone hinfo => exact h.added (newType_of_spec hspec) hinfo

/-- a call that fails changes nothing -/
theorem defineType_error (h : S.Inv w debug) {e : DefineError} (hr : S.defineType w debug c = (.error e, S')) :
    S' = S := by
  have hd := defineType_defines h c
  rw [hr] at hd
  cases hd
  rfl

/-- the module after some calls -/
def defineTypes (w : PtrWidth) (debug : Bool) (S : TypeModule) (calls : List DefineCall) : TypeModule :=
  calls.foldl (fun S c => (S.defineType w debug c).2) S

/-- the layouts are those of the batch build after any calls -/
theorem Inv.run (h : S.Inv w debug) (calls : List DefineCall) : (S.defineTypes w debug calls).Inv w debug := by
  induction calls generalizing S with
  | nil => exact h
  | cons c calls ih => exact ih (h.step c)

/-! ## Types that are there already -/

/-- no type is added that is there already: an equal one is looked for, and one is written with the same type indices -/
def AddsNone (S : TypeModule) (c : DefineCall) : Prop :=
  ∀ fresh t rest, defineSpec S.module.typeCount c.spec c.args = some ((fresh, t), rest) →
    (∃ i < S.module.typeCount, SameAsNew S.module t.typeDef i) →
      fresh = false ∧ ∃ i < S.module.typeCount, defineTypeMatches S.module t.typeDef i = true

/-- a call does what it would do if the metadata were built anew -/
structure AsBatch (mix : UInt64 → UInt64 → UInt64) (w : PtrWidth) (debug : Bool) (S : TypeModule) (c : DefineCall) :
    Prop where
  metadata : ∀ i S', S.defineType w debug c = (.ok i, S') → S'.IsBatch mix w debug
  identity : ∀ i S', S.defineType w debug c = (.ok i, S') → ∀ j < S'.module.typeCount, ∀ k < S'.module.typeCount,
    S'.module.canon j = S'.module.canon k ↔ IsoEq S'.module j k
  reuse : ∀ i S' t rest, S.defineType w debug c = (.ok i, S') →
    defineSpec S.module.typeCount c.spec c.args = some ((false, t), rest) →
      ∀ j < S.module.typeCount, SameAsNew S.module t.typeDef j → S'.module.canon i = S'.module.canon j
  failure : ∀ e S', S.defineType w debug c = (.error e, S') → S' = S

/-- a type is added only if no type is the same -/
theorem AddsNone.not_same (hc : S.AddsNone c) {fresh : Bool} {t : SpecType} {rest : List Int}
    (hspec : defineSpec S.module.typeCount c.spec c.args = some ((fresh, t), rest))
    (hnone : fresh = false → ∀ i < S.module.typeCount, defineTypeMatches S.module t.typeDef i = false) :
    ∀ i < S.module.typeCount, ¬ SameAsNew S.module t.typeDef i := by
  intro i hi hsame
  obtain ⟨hfresh, j, hj, hmatch⟩ := hc _ _ _ hspec ⟨i, hi, hsame⟩
  rw [hnone hfresh j hj] at hmatch
  exact Bool.false_ne_true hmatch

theorem IsBatch.step (h : S.Inv w debug) (hb : S.IsBatch mix w debug) (hc : S.AddsNone c) :
    (S.defineType w debug c).2.IsBatch mix w debug := by
  have hd := defineType_defines h c
  generalize S.defineType w debug c = r at hd
  cases hd with
  | failed e => exact hb
  | found hspec hi hmatch => exact hb
  | added hspec hnone hinfo =>
    have htd := newType_of_spec hspec
    exact (added_isBatch_iff h htd (h.added htd hinfo)).2 ⟨hb, hc.not_same hspec hnone⟩

/-- what a call does that adds none of the types there are -/
theorem AddsNone.asBatch (h : S.Inv w debug) (hb : S.IsBatch mix w debug) (hc : S.AddsNone c) :
    S.AsBatch mix w debug c := by
  have hinv := h.step c
  have hbatch := hb.step h hc
  have hd := defineType_defines h c
  refine ⟨fun i S' hr => ?_, fun i S' hr j hj k hk => ?_, fun i S' t rest hr hspec j hj hsame => ?_,
    fun e S' hr => defineType_error h hr⟩
  · rwa [hr] at hbatch
  · rw [hr] at hinv hbatch
    exact hbatch.exact hinv hj hk
  · rw [hr] at hd
    cases hd with
    | found hspec' hi hmatch =>
      rw [hspec] at hspec'
      cases hspec'
      have htd := newType_of_spec hspec
      have hfound : SameAsNew S.module t.typeDef i := defineTypeMatches_same h.sized h.grouped htd hi hmatch
      refine (hb.exact h hi hj).2 (((appendType_grows t.typeDef h.sized).isoEq_iff h.grouped hi hj).1 ?_)
      exact IsoEq.trans hfound hsame.symm
    | added hspec' hnone hinfo =>
      rw [hspec] at hspec'
      cases hspec'
      exact absurd hsame (hc.not_same hspec hnone j hj)

/-- a call that does as the batch build adds none of the types there are -/
theorem AsBatch.addsNone (h : S.Inv w debug) (ha : S.AsBatch mix w debug c) {i : Nat}
    (hr : S.defineType w debug c = (.ok i, S')) : S.AddsNone c := by
  have hd := defineType_defines h c
  have hbatch := ha.metadata i S' hr
  rw [hr] at hd
  intro fresh t rest hspec hsame
  cases hd with
  | found hspec' hi hmatch =>
    rw [hspec] at hspec'
    cases hspec'
    exact ⟨rfl, i, hi, hmatch⟩
  | added hspec' hnone hinfo =>
    rw [hspec] at hspec'
    cases hspec'
    have htd := newType_of_spec hspec
    obtain ⟨-, hno⟩ := (added_isBatch_iff h htd (h.added htd hinfo)).1 hbatch
    obtain ⟨j, hj, hj'⟩ := hsame
    exact absurd hj' (hno j hj)

/-- as long as no call adds a type there is, the metadata is that of the batch build -/
theorem IsBatch.run (h : S.Inv w debug) (hb : S.IsBatch mix w debug) {calls : List DefineCall}
    (hcalls : ∀ pre c post, calls = pre ++ c :: post → (S.defineTypes w debug pre).AddsNone c) :
    (S.defineTypes w debug calls).IsBatch mix w debug := by
  induction calls generalizing S with
  | nil => exact hb
  | cons c calls ih =>
    refine ih (h.step c) (hb.step h (hcalls [] c calls rfl)) fun pre d post heq => ?_
    exact hcalls (c :: pre) d post (congrArg (c :: ·) heq)

end TypeModule

end

/-! ## Modules to begin with -/

/-- the same types with the same metadata: the sections of a module that follow the types leave them as they are -/
structure LinkModule.SameTypes (M M' : LinkModule) : Prop where
  typeDefs : M'.typeDefs = M.typeDefs
  isFinal : M'.isFinal = M.isFinal
  recGroups : M'.recGroups = M.recGroups
  canonicalMap : M'.canonicalMap = M.canonicalMap
  reprs : M'.reprs = M.reprs

/-- a module that was parsed; a new module has the types of an empty section -/
structure TypeModule.Started (mix : UInt64 → UInt64 → UInt64) (w : PtrWidth) (debug : Bool) (S : TypeModule) : Prop where
  parsed : ∃ entries M, parseTypeSection mix entries = some M ∧ M.SameTypes S.module
  layouts : buildReprInfos w debug S.module = .ok (S.infos, S.typeidxToRepr)

section
variable {mix : UInt64 → UInt64 → UInt64} {w : PtrWidth} {debug : Bool} {S : TypeModule} {M M' : LinkModule}

theorem Sized.addTypes {g : Nat × Nat} {members : List SubTypeEntry} (h : M.Sized)
    (hM' : members.foldlM (LinkModule.addType g) M = some M') : M'.Sized := by
  induction members generalizing M with
  | nil =>
    cases hM'
    exact h
  | cons e members ih =>
    rw [List.foldlM_cons] at hM'
    obtain ⟨M₁, hM₁, hM'⟩ := Option.bind_eq_some_iff.1 hM'
    refine ih ?_ hM'
    unfold LinkModule.addType at hM₁
    split_ifs at hM₁
    cases hM₁
    exact ⟨by simp [LinkModule.typeCount, h.isFinal], by simp [LinkModule.typeCount, h.recGroups]⟩

theorem Sized.addRecTypes {entries : List RecType} (h : M.Sized)
    (hM' : entries.foldlM LinkModule.addRecType M = some M') : M'.Sized := by
  induction entries generalizing M with
  | nil =>
    cases hM'
    exact h
  | cons r entries ih =>
    rw [List.foldlM_cons] at hM'
    obtain ⟨M₁, hM₁, hM'⟩ := Option.bind_eq_some_iff.1 hM'
    refine ih ?_ hM'
    cases r with
    | group members => exact Sized.addTypes h hM₁
    | single member =>
      have hone : [member].foldlM (LinkModule.addType (M.typeCount, 1)) M = some M₁ := by
        simpa [LinkModule.addRecType] using hM₁
      exact Sized.addTypes h hone

theorem parseTypeSection_sized {entries : List RecType} (h : parseTypeSection mix entries = some M) : M.Sized := by
  unfold parseTypeSection at h
  split at h
  · cases h
  · rename_i M₀ hM₀
    split_ifs at h
    obtain ⟨-, rfl⟩ := buildTypeMetadata_eq h
    have hsized : M₀.Sized := Sized.addRecTypes ⟨rfl, rfl⟩ hM₀
    exact ⟨hsized.isFinal, hsized.recGroups⟩

theorem LinkModule.SameTypes.grows (h : M.SameTypes M') : M.Grows M' where
  count := (congrArg List.length h.typeDefs).ge
  typeDef i _ := by rw [LinkModule.typeDef, LinkModule.typeDef, h.typeDefs]
  final i _ := by rw [LinkModule.final, LinkModule.final, h.isFinal]
  recGroup i _ := by rw [LinkModule.recGroup, LinkModule.recGroup, h.recGroups]

namespace TypeModule

theorem Started.inv (h : S.Started mix w debug) : S.Inv w debug := by
  obtain ⟨⟨entries, M, hparse, hsame⟩, hlayouts⟩ := h
  obtain ⟨hM, hmap, -, hreprs, -⟩ := parseTypeSection_spec hparse
  have hsized := parseTypeSection_sized hparse
  have hcount : S.module.typeCount = M.typeCount := congrArg List.length hsame.typeDefs
  constructor
  · exact Grouped.congr hM hsame.typeDefs hsame.recGroups
  · exact ⟨by rw [hsame.isFinal, hcount, hsized.isFinal], by rw [hsame.recGroups, hcount, hsized.recGroups]⟩
  · rw [hsame.canonicalMap, hcount, hmap.length]
  · rw [hsame.reprs, hreprs, buildReprs_congr hsame.typeDefs]
  · exact hlayouts

theorem Started.isBatch (h : S.Started mix w debug) : S.IsBatch mix w debug := by
  have hinv := h.inv
  obtain ⟨⟨entries, M, hparse, hsame⟩, -⟩ := h
  obtain ⟨hM, hmap, hcheck, -, -⟩ := parseTypeSection_spec hparse
  have hcount : S.module.typeCount = M.typeCount := congrArg List.length hsame.typeDefs
  have hcanon : M.GrowsCanon S.module := ⟨hsame.grows, fun i _ => by rw [Module.canon, Module.canon, hsame.canonicalMap]⟩
  refine (isBatch_iff hinv).2 ⟨?_, fun i hi => ?_⟩
  · have hlen : (buildCanonicalMap S.module mix).length ≤ M.typeCount := by
      rw [(buildCanonicalMap_spec mix hinv.grouped).length, hcount]
    rw [hsame.canonicalMap, hmap.unique hM (buildCanonicalMap_spec mix hM),
      ← hsame.grows.buildCanonicalMap_take hM hinv.grouped mix, List.take_of_length_le hlen]
  · rw [hcanon.checkSupertype hM hinv.grouped (hcount ▸ hi)]
    exact hcheck i (hcount ▸ hi)

/-- **Defined types.** From any module that was parsed or is new, every call does as the batch build in a run whose
calls add none of the types there are; and a call that succeeds does so only if it adds none of them. In every run the
layouts are those of the batch build, and a call that fails changes nothing. -/
theorem defined_types_as_batch (h : S.Started mix w debug) (calls : List DefineCall) :
    ((∀ pre c post, calls = pre ++ c :: post → (S.defineTypes w debug pre).AddsNone c) →
      ∀ pre c post, calls = pre ++ c :: post → (S.defineTypes w debug pre).AsBatch mix w debug c) ∧
    (∀ pre c post, calls = pre ++ c :: post → (S.defineTypes w debug pre).AsBatch mix w debug c →
      (∃ i S', (S.defineTypes w debug pre).defineType w debug c = (.ok i, S')) →
        (S.defineTypes w debug pre).AddsNone c) ∧
    (∀ pre c post, calls = pre ++ c :: post → ∀ e S',
      (S.defineTypes w debug pre).defineType w debug c = (.error e, S') → S' = S.defineTypes w debug pre) ∧
    buildReprInfos w debug (S.defineTypes w debug calls).module =
      .ok ((S.defineTypes w debug calls).infos, (S.defineTypes w debug calls).typeidxToRepr) := by
  have hinv := fun pre => h.inv.run pre
  refine ⟨fun hcalls pre c post heq => ?_, fun pre c post _ hbatch hok => ?_,
    fun pre c post _ e S' hr => defineType_error (hinv pre) hr, (hinv calls).infos⟩
  · have hpre : (S.defineTypes w debug pre).IsBatch mix w debug := by
      refine h.isBatch.run h.inv fun pre' d post' heq' => hcalls pre' d (post' ++ c :: post) ?_
      rw [heq, heq', List.append_assoc, List.cons_append]
    exact (hcalls pre c post heq).asBatch (hinv pre) hpre
  · obtain ⟨i, S', hr⟩ := hok
    exact hbatch.addsNone (hinv pre) hr

/-- a new module -/
theorem Started.empty (mix : UInt64 → UInt64 → UInt64) : ({} : TypeModule).Started mix w debug :=
  ⟨⟨[], {}, rfl, ⟨rfl, rfl, rfl, rfl, rfl⟩⟩, rfl⟩

/-- a call whose allocations are all granted -/
def plainCall (spec : String) : DefineCall := ⟨spec.toList, [], fun _ => true⟩

theorem defined_types_as_batch_twice : ({} : TypeModule).Started recGroupHashMix .w64 false ∧
    (({} : TypeModule).defineTypes .w64 false [plainCall "fn (i32)"]).AsBatch recGroupHashMix .w64 false
      (plainCall "fn (i32)") := by
  refine ⟨.empty _, ((defined_types_as_batch (.empty recGroupHashMix)
    [plainCall "fn (i32)", plainCall "fn (i32)"]).1 fun pre c post heq => ?_) [_] _ [] rfl⟩
  rcases pre with _ | ⟨a, _ | ⟨b, pre⟩⟩
  · rintro fresh t rest - ⟨i, hi, -⟩
    exact absurd hi (Nat.not_lt_zero i)
  · obtain ⟨rfl, rfl, -⟩ := by simpa using heq
    rintro fresh t rest hspec -
    have hout : defineSpec 1 "fn (i32)".toList [] = some ((false, .func ⟨[.i32], []⟩), []) := by decide
    obtain ⟨⟨rfl, rfl⟩, -⟩ := by simpa using Option.some.inj (hspec.symm.trans hout)
    exact ⟨rfl, 0, by decide, by decide⟩
  · simp at heq

/-- a type that is defined afresh is the same as the one before, which the canonical map does not say -/
theorem fresh_type_canonical : ({} : TypeModule).Started recGroupHashMix .w64 false ∧
    ¬ (({} : TypeModule).defineTypes .w64 false [plainCall "fn ()"]).AsBatch recGroupHashMix .w64 false
      (plainCall "fresh fn ()") := by
  refine ⟨.empty _, fun h => ?_⟩
  have hbatch := congrArg (Option.map fun S => S.module.canonicalMap) (h.metadata 1 _ rfl)
  exact absurd hbatch (by decide)

end TypeModule

end

end Wah
