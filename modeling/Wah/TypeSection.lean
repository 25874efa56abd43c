/-
The type section: parsing its entries, and the metadata built of them.

Model:
- an entry is a rec group or a single type, with what the decoders read of it. Disabled features, failing allocations
  and structs too large for a layout only reject, and are left out;
- the canonical map is built as in the source: groups are hashed through the hashes of earlier groups, sorted by hash
  and start, and each group looks for an equal one in the run of its hash. The mixer of the hash is a parameter;
- `reprs` and `typeidxToRepr` are the representations of struct and array types.

Results: the groups of a section that is accepted are consecutive types that mention their own group and earlier ones.
-/
import Wah.TypeIdentity
import Wah.Bisect

namespace Wah

/-! ## Entries -/

/-- a type the decoders can produce -/
abbrev StoredTy := { t : Ty // t ≠ .bot }

/-- what `wah_parse_composite_type` reads -/
inductive CompType where
  | func (params results : List StoredTy)
  | struct (fields : List (StoredTy × Bool))
  | array (field : StoredTy × Bool)
deriving DecidableEq, Repr

/-- what `wah_parse_sub_type` reads -/
structure SubTypeEntry where
  isFinal : Bool := true
  supertype : Option Nat := none
  comp : CompType
deriving DecidableEq, Repr

/-- an entry of the section -/
inductive RecType where
  | group (members : List SubTypeEntry)
  | single (member : SubTypeEntry)
deriving DecidableEq, Repr

def SubTypeEntry.typeDef (e : SubTypeEntry) : TypeDef :=
  match e.comp with
  | .func params results =>
    { kind := .func, supertype := e.supertype, func := ⟨params.map Subtype.val, results.map Subtype.val⟩ }
  | .struct fields =>
    { kind := .struct
      nonDefaultable := fields.any fun f => f.1.val.isRef && !f.1.val.isNullable
      supertype := e.supertype
      fieldTypes := fields.map fun f => f.1.val
      fieldMutables := fields.map Prod.snd }
  | .array field =>
    { kind := .array, supertype := e.supertype, fieldTypes := [field.1.val], fieldMutables := [field.2] }

namespace LinkModule

/-- a member of the group `g` -/
def addType (g : Nat × Nat) (M : LinkModule) (e : SubTypeEntry) : Option LinkModule :=
  if e.supertype.all fun j => decide (j < M.typeCount) then
    some { M with
      typeDefs := M.typeDefs ++ [e.typeDef]
      isFinal := M.isFinal ++ [e.isFinal]
      recGroups := M.recGroups ++ [g] }
  else none

def addRecType (M : LinkModule) : RecType → Option LinkModule
  | .group members => members.foldlM (addType (M.typeCount, members.length)) M
  | .single member => M.addType (M.typeCount, 1) member

/-- `WAH_MAX_SUBTYPE_DEPTH` -/
def maxSubtypeDepth : Nat := 63

/-- the walk over the supertypes of a supertype, which may take `steps` steps -/
def superDepthOk (M : LinkModule) : Nat → Nat → Bool
  | 0, t => (M.supertype t).isNone
  | steps + 1, t =>
    match M.supertype t with
    | none => true
    | some st => superDepthOk M steps st

/-- the checks of one type at the end of `wah_parse_type_section` -/
def checkType (M : LinkModule) (i : Nat) : Bool :=
  let td := M.typeDef i
  let limit := (M.recGroup i).1 + (M.recGroup i).2
  (td.func.params ++ td.func.results).all (Ty.idxBelow limit) &&
    (match td.supertype with
      | none => true
      | some j =>
        decide (j < i) && !M.final j && decide (td.kind = (M.typeDef j).kind) && M.superDepthOk (maxSubtypeDepth - 1) j) &&
    (decide (td.kind = .func) || td.fieldTypes.all (Ty.idxBelow limit))

end LinkModule

/-! ## Group hashes -/

/-- `wah_rec_group_hash_mix` -/
def recGroupHashMix (h v : UInt64) : UInt64 :=
  let h := h + (v + 0x9e3779b97f4a7c15)
  let h := (h ^^^ (h >>> 30)) * 0xbf58476d1ce4e5b9
  let h := (h ^^^ (h >>> 27)) * 0x94d049bb133111eb
  h ^^^ (h >>> 31)

def CompKind.code : CompKind → Nat
  | .func => 0x60 | .struct => 0x5f | .array => 0x5e

section
variable (mix : UInt64 → UInt64 → UInt64) (M : LinkModule)

/-- `wah_rec_group_hash_type`, in the group `g` -/
def recGroupHashType (hashes : List UInt64) (g : Nat × Nat) (h : UInt64) : Ty → UInt64
  | .ref n (.idx u) =>
    let nullable := if n then 1 else 0
    if inGroup g u then mix (mix h 1) (UInt64.ofNat (2 * (u - g.1) + nullable))
    else
      let start := (M.recGroup u).1
      mix (mix (mix h 2) ((hashes[start]?).getD 0)) (UInt64.ofNat (2 * (u - start) + nullable))
  | t => mix (mix h 0) (UInt64.ofNat (t.code % 2 ^ 32).toNat)

/-- the supertype of a member of the group `g` -/
def recGroupHashSuper (hashes : List UInt64) (g : Nat × Nat) (h : UInt64) : Option Nat → UInt64
  | none => mix h 3
  | some j => recGroupHashType mix M hashes g h (.ofIdx j)

/-- the member `i` of the group `g` in `wah_rec_group_hash` -/
def recGroupHashMember (hashes : List UInt64) (g : Nat × Nat) (h : UInt64) (i : Nat) : UInt64 :=
  let td := M.typeDef i
  let h := mix h (UInt64.ofNat (2 * td.kind.code + if M.final i then 1 else 0))
  let h := recGroupHashSuper mix M hashes g h td.supertype
  if td.kind = .func then
    let h := mix h (UInt64.ofNat (td.func.params.length * 2 ^ 32 + td.func.results.length))
    td.func.results.foldl (recGroupHashType mix M hashes g) (td.func.params.foldl (recGroupHashType mix M hashes g) h)
  else
    (td.fieldTypes.zip td.fieldMutables).foldl
      (fun h f => mix (recGroupHashType mix M hashes g h f.1) (if f.2 then 1 else 0))
      (mix h (UInt64.ofNat td.fieldTypes.length))

/-- `wah_rec_group_hash` -/
def recGroupHash (hashes : List UInt64) (start : Nat) : UInt64 :=
  let size := (M.recGroup start).2
  (List.range size).foldl (fun h k => recGroupHashMember mix M hashes (start, size) h (start + k))
    (mix 0 (UInt64.ofNat size))

/-- the step of the loop that fills `group_hashes` -/
def hashGroup (hashes : List UInt64) (i : Nat) : List UInt64 :=
  if i = (M.recGroup i).1 then hashes.set i (recGroupHash mix M hashes i) else hashes

def groupHashes : List UInt64 := (List.range M.typeCount).foldl (hashGroup mix M) (List.replicate M.typeCount 0)

end

/-! ## Canonical groups -/

/-- `wah_rec_group_key_t` -/
structure GroupKey where
  hash : UInt64
  start : Nat
deriving DecidableEq, Repr

/-- the order of `wah_rec_group_key_cmp` -/
def GroupKey.le (x y : GroupKey) : Prop := x.hash < y.hash ∨ x.hash = y.hash ∧ x.start ≤ y.start

instance : DecidableRel GroupKey.le := fun x y => inferInstanceAs (Decidable (x.hash < y.hash ∨ _))

section
variable (M : LinkModule)

/-- the sorted keys of all groups -/
def groupKeys (hashes : List UInt64) : List GroupKey :=
  (((List.range M.typeCount).filter fun i => decide (i = (M.recGroup i).1)).map fun i =>
    ⟨(hashes[i]?).getD 0, i⟩).insertionSort GroupKey.le

/-- all members of the groups at `i` and `j` are equal, under the map built so far -/
def groupsEqual (map : List Nat) (i j : Nat) : Bool :=
  (List.range (M.recGroup i).2).all fun m => typesStructurallyEqual { M with canonicalMap := map } (i + m) (j + m)

/-- a group that the group at `i` can be mapped to -/
def isCanonicalFor (map : List Nat) (i : Nat) (k : GroupKey) : Bool :=
  decide ((map[k.start]?).getD k.start = k.start) && decide ((M.recGroup k.start).2 = (M.recGroup i).2) &&
    groupsEqual M map i k.start

/-- the search for a canonical group of the group at `i`, whose hash is `h` -/
def findCanonical (keys : List GroupKey) (map : List Nat) (h : UInt64) (i : Nat) : Option Nat :=
  (bisect (fun m => keys[m]?.map fun k => !decide (k.hash < h)) 0 keys.length).bind fun lo =>
    (((keys.drop lo).takeWhile fun k => decide (k.hash = h) && decide (k.start < i)).find? (isCanonicalFor M map i)).map
      GroupKey.start

/-- `canonical_map[i + m] = j + m` for all members -/
def mapGroup (map : List Nat) (i j size : Nat) : List Nat :=
  (List.range size).foldl (fun map m => map.set (i + m) (j + m)) map

/-- the step of the loop that builds the canonical map -/
def canonicalizeGroup (hashes : List UInt64) (keys : List GroupKey) (map : List Nat) (i : Nat) : List Nat :=
  if i = (M.recGroup i).1 then
    match findCanonical M keys map ((hashes[i]?).getD 0) i with
    | some j => mapGroup map i j (M.recGroup i).2
    | none => map
  else map

def buildCanonicalMap (mix : UInt64 → UInt64 → UInt64) : List Nat :=
  let hashes := groupHashes mix M
  (List.range M.typeCount).foldl (canonicalizeGroup M hashes (groupKeys M hashes)) (List.range M.typeCount)

end

/-! ## Supertypes -/

/-- a field against the field of the supertype: the same type if mutable, else a subtype -/
def fieldFits (M : Module) (sub sup : Ty × Bool) : Bool :=
  if sup.2 then
    sub.2 && (decide (sup.1 = sub.1) ||
      match sup.1, sub.1 with
      | .ref n (.idx u), .ref n' (.idx v) => decide (n = n') && decide (M.canon u = M.canon v)
      | _, _ => false)
  else !sub.2 && M.typeIsSubtype sub.1 sup.1

/-- a definition against that of its supertype -/
def supertypeFits (M : Module) (sub sup : TypeDef) : Bool :=
  match sub.kind with
  | .func => funcSubtype M sub.func sup.func
  | .struct =>
    decide (sup.fieldTypes.length ≤ sub.fieldTypes.length) && (List.zipWith (fieldFits M) sub.fields sup.fields).all id
  | .array =>
    decide (sub.fieldTypes.length = 1) && decide (sup.fieldTypes.length = 1) &&
      (List.zipWith (fieldFits M) sub.fields sup.fields).all id

/-- the check of the supertype of one type -/
def checkSupertype (M : LinkModule) (i : Nat) : Bool :=
  (M.supertype i).all fun j => supertypeFits M.toModule (M.typeDef i) (M.typeDef j)

/-! ## Representations -/

/-- `WAH_REPR_NONE` -/
def reprNone : Int := -0x40

/-- the representation of one type, numbered by `wah_module_alloc_repr` -/
def allocRepr (M : LinkModule) (acc : List (ReprType × Nat) × List Int) (i : Nat) : List (ReprType × Nat) × List Int :=
  match (M.typeDef i).kind with
  | .struct => (acc.1 ++ [(.struct, i)], acc.2.set i acc.1.length)
  | .array => (acc.1 ++ [(.array, i)], acc.2.set i acc.1.length)
  | .func => acc

/-- `repr_infos` and `typeidx_to_repr` -/
def buildReprs (M : LinkModule) : List (ReprType × Nat) × List Int :=
  (List.range M.typeCount).foldl (allocRepr M) ([], List.replicate M.typeCount reprNone)

/-- `typeidx_to_repr[i]` of a module whose metadata is built -/
def LinkModule.typeidxToRepr (M : LinkModule) (i : Nat) : Int := ((buildReprs M).2[i]?).getD reprNone

/-! ## The section -/

/-- `wah_module_build_type_metadata` -/
def buildTypeMetadata (mix : UInt64 → UInt64 → UInt64) (M : LinkModule) : Option LinkModule :=
  let M' := { M with canonicalMap := buildCanonicalMap M mix }
  if (List.range M.typeCount).all (checkSupertype M') then some { M' with reprs := (buildReprs M').1 } else none

/-- `wah_parse_type_section` -/
def parseTypeSection (mix : UInt64 → UInt64 → UInt64) (entries : List RecType) : Option LinkModule :=
  match entries.foldlM LinkModule.addRecType {} with
  | none => none
  | some M => if (List.range M.typeCount).all M.checkType then buildTypeMetadata mix M else none

/-! ## What the parser establishes -/

/-- rec groups are consecutive types that mention their own group and earlier ones; supertypes come before their types
and are of the same kind -/
structure LinkModule.Grouped (M : LinkModule) : Prop where
  group_self : ∀ i < M.typeCount, inGroup (M.recGroup i) i
  group_end : ∀ i < M.typeCount, (M.recGroup i).1 + (M.recGroup i).2 ≤ M.typeCount
  group_members : ∀ i < M.typeCount, ∀ k < (M.recGroup i).2, M.recGroup ((M.recGroup i).1 + k) = M.recGroup i
  refs_below : ∀ i < M.typeCount, ∀ t ∈ (M.typeDef i).types, t.idxBelow ((M.recGroup i).1 + (M.recGroup i).2) = true
  no_bot : ∀ i < M.typeCount, .bot ∉ (M.typeDef i).types
  paired : ∀ i < M.typeCount, (M.typeDef i).Paired
  super_lt : ∀ i < M.typeCount, ∀ j, M.supertype i = some j → j < i
  super_kind : ∀ i < M.typeCount, ∀ j, M.supertype i = some j → (M.typeDef j).kind = (M.typeDef i).kind

/-- the types parsed so far are in whole groups -/
structure LinkModule.WholeGroups (M : LinkModule) : Prop where
  length : M.recGroups.length = M.typeCount
  self : ∀ i < M.typeCount, inGroup (M.recGroup i) i
  end_le : ∀ i < M.typeCount, (M.recGroup i).1 + (M.recGroup i).2 ≤ M.typeCount
  members : ∀ i < M.typeCount, ∀ k < (M.recGroup i).2, M.recGroup ((M.recGroup i).1 + k) = M.recGroup i
  no_bot : ∀ d ∈ M.typeDefs, .bot ∉ d.types
  paired : ∀ d ∈ M.typeDefs, d.Paired
  no_functions : M.functionTypeIndices = []

namespace LinkModule

theorem no_bot_typeDef (e : SubTypeEntry) : .bot ∉ e.typeDef.types := by
  have hstored : ∀ ts : List StoredTy, Ty.bot ∉ ts.map Subtype.val := by
    simp only [List.mem_map, Subtype.exists, not_exists, not_and]
    rintro ts t ht - rfl
    exact ht rfl
  cases hc : e.comp with
  | func params results =>
    have h1 := hstored params
    have h2 := hstored results
    simp only [SubTypeEntry.typeDef, hc, TypeDef.types, if_true, List.mem_append, h1, h2, or_self, or_false]
    cases e.supertype <;> simp [Ty.ofIdx]
  | struct fields =>
    have h1 := hstored (fields.map Prod.fst)
    rw [List.map_map] at h1
    simp only [SubTypeEntry.typeDef, hc, TypeDef.types, reduceCtorEq, if_false, List.mem_append, not_or]
    exact ⟨by cases e.supertype <;> simp [Ty.ofIdx], h1⟩
  | array field =>
    have h1 := hstored [field.1]
    simp only [SubTypeEntry.typeDef, hc, TypeDef.types, reduceCtorEq, if_false, List.mem_append, not_or]
    exact ⟨by cases e.supertype <;> simp [Ty.ofIdx], h1⟩

theorem paired_typeDef (e : SubTypeEntry) : e.typeDef.Paired := by
  unfold TypeDef.Paired SubTypeEntry.typeDef
  cases e.comp <;> simp

/-- the members of a group, one after another -/
theorem addTypes_eq {g : Nat × Nat} {members : List SubTypeEntry} {M M' : LinkModule}
    (h : members.foldlM (addType g) M = some M') :
    M'.typeDefs = M.typeDefs ++ members.map SubTypeEntry.typeDef ∧
      M'.recGroups = M.recGroups ++ List.replicate members.length g ∧
      M'.functionTypeIndices = M.functionTypeIndices := by
  induction members generalizing M with
  | nil =>
    cases h
    simp
  | cons e members ih =>
    rw [List.foldlM_cons] at h
    obtain ⟨M₁, hM₁, h⟩ := Option.bind_eq_some_iff.1 h
    obtain ⟨h1, h2, h3⟩ := ih h
    unfold addType at hM₁
    split_ifs at hM₁
    cases hM₁
    refine ⟨by simp [h1], ?_, h3⟩
    simp [h2, List.replicate_succ]

/-- a group of consecutive types is added -/
theorem WholeGroups.addGroup {M M' : LinkModule} (h : M.WholeGroups) {members : List SubTypeEntry}
    (hM' : members.foldlM (addType (M.typeCount, members.length)) M = some M') : M'.WholeGroups := by
  obtain ⟨h1, h2, h3⟩ := addTypes_eq hM'
  have hcount : M'.typeCount = M.typeCount + members.length := by simp [typeCount, h1]
  have hold : ∀ i < M.typeCount, M'.recGroup i = M.recGroup i := by
    intro i hi
    have hi' : i < M.recGroups.length := h.length ▸ hi
    simp [recGroup, h2, List.getElem?_append_left hi']
  have hnew : ∀ k < members.length, M'.recGroup (M.typeCount + k) = (M.typeCount, members.length) := by
    intro k hk
    simp [recGroup, h2, h.length, hk]
  have hcases : ∀ i < M'.typeCount, i < M.typeCount ∨ ∃ k < members.length, i = M.typeCount + k := by
    intro i hi
    by_cases hlt : i < M.typeCount
    · exact .inl hlt
    · exact .inr ⟨i - M.typeCount, by omega, by omega⟩
  have hdefs : ∀ d ∈ M'.typeDefs, d ∈ M.typeDefs ∨ ∃ e : SubTypeEntry, d = e.typeDef := by
    intro d hd
    rw [h1, List.mem_append] at hd
    refine hd.imp_right fun hd => ?_
    obtain ⟨e, -, rfl⟩ := List.mem_map.1 hd
    exact ⟨e, rfl⟩
  refine ⟨?_, fun i hi => ?_, fun i hi => ?_, fun i hi => ?_, fun d hd => ?_, fun d hd => ?_,
    h3.trans h.no_functions⟩
  · simp [h2, h.length, hcount]
  · rcases hcases i hi with hlt | ⟨k, hk, rfl⟩
    · rw [hold i hlt]
      exact h.self i hlt
    · rw [hnew k hk]
      simp [inGroup, hk]
  · rcases hcases i hi with hlt | ⟨k, hk, rfl⟩
    · rw [hold i hlt, hcount]
      exact (h.end_le i hlt).trans (Nat.le_add_right _ _)
    · rw [hnew k hk, hcount]
  · rcases hcases i hi with hlt | ⟨k, hk, rfl⟩
    · rw [hold i hlt]
      intro k hk
      rw [hold _ ((Nat.add_lt_add_left hk _).trans_le (h.end_le i hlt))]
      exact h.members i hlt k hk
    · rw [hnew k hk]
      exact fun k' hk' => hnew k' hk'
  · rcases hdefs d hd with hd | ⟨e, rfl⟩
    · exact h.no_bot d hd
    · exact no_bot_typeDef e
  · rcases hdefs d hd with hd | ⟨e, rfl⟩
    · exact h.paired d hd
    · exact paired_typeDef e

theorem WholeGroups.addRecType {M M' : LinkModule} (h : M.WholeGroups) {r : RecType} (hM' : M.addRecType r = some M') :
    M'.WholeGroups := by
  cases r with
  | group members => exact h.addGroup hM'
  | single member =>
    have hone : [member].foldlM (addType (M.typeCount, [member].length)) M = some M' := by simpa [LinkModule.addRecType] using hM'
    exact h.addGroup hone

theorem WholeGroups.addRecTypes {entries : List RecType} {M M' : LinkModule} (h : M.WholeGroups)
    (hM' : entries.foldlM LinkModule.addRecType M = some M') : M'.WholeGroups := by
  induction entries generalizing M with
  | nil =>
    cases hM'
    exact h
  | cons r entries ih =>
    rw [List.foldlM_cons] at hM'
    obtain ⟨M₁, hM₁, hM'⟩ := Option.bind_eq_some_iff.1 hM'
    exact ih (h.addRecType hM₁) hM'

theorem typeDef_mem {M : LinkModule} {i : Nat} (hi : i < M.typeCount) : M.typeDef i ∈ M.typeDefs := by
  simp [typeDef, List.getElem?_eq_getElem (show i < M.typeDefs.length from hi)]

theorem supertype_eq {M : LinkModule} {i : Nat} (hi : i < M.typeCount) : M.supertype i = (M.typeDef i).supertype := by
  simp [Module.supertype, typeDef, List.getElem?_eq_getElem (show i < M.typeDefs.length from hi)]

/-- the checks at the end of the section give the scopes and the kinds -/
theorem WholeGroups.grouped {M : LinkModule} (h : M.WholeGroups)
    (hcheck : (List.range M.typeCount).all M.checkType = true) : M.Grouped := by
  have hone : ∀ i < M.typeCount, M.checkType i = true := by simpa using hcheck
  have hsuper : ∀ i < M.typeCount, ∀ j, M.supertype i = some j → j < i ∧ (M.typeDef j).kind = (M.typeDef i).kind := by
    intro i hi j hj
    have hc := hone i hi
    rw [supertype_eq hi] at hj
    simp only [checkType, hj, Bool.and_eq_true, decide_eq_true_eq] at hc
    exact ⟨hc.1.2.1.1.1, hc.1.2.1.2.symm⟩
  refine ⟨h.self, h.end_le, h.members, fun i hi t ht => ?_, fun i hi => h.no_bot _ (typeDef_mem hi),
    fun i hi => h.paired _ (typeDef_mem hi), fun i hi j hj => (hsuper i hi j hj).1, fun i hi j hj => (hsuper i hi j hj).2⟩
  have hself := h.self i hi
  have hc := hone i hi
  simp only [checkType, Bool.and_eq_true, List.all_eq_true, Bool.or_eq_true, decide_eq_true_eq] at hc
  simp only [TypeDef.types, List.mem_append, Option.mem_toList, Option.map_eq_some_iff] at ht
  rcases ht with ⟨j, hj, rfl⟩ | ht
  · have hlt := (hsuper i hi j ((supertype_eq hi).trans hj)).1
    have : j < (M.recGroup i).1 + (M.recGroup i).2 := hlt.trans hself.2
    simpa [Ty.idxBelow, Ty.ofIdx, Ty.typeIdx] using this
  · split_ifs at ht with hkind
    · exact hc.1.1 t ht
    · exact hc.2.resolve_left hkind t ht

end LinkModule

theorem wholeGroups_nil : LinkModule.WholeGroups {} := by
  refine ⟨rfl, ?_, ?_, ?_, by simp, by simp, rfl⟩ <;> simp [LinkModule.typeCount]

/-- the parts of a section that is accepted -/
theorem parseTypeSection_eq {mix : UInt64 → UInt64 → UInt64} {entries : List RecType} {M : LinkModule}
    (h : parseTypeSection mix entries = some M) :
    ∃ M₀ : LinkModule, M₀.Grouped ∧ M₀.functionTypeIndices = [] ∧ buildTypeMetadata mix M₀ = some M := by
  unfold parseTypeSection at h
  split at h
  · cases h
  · rename_i M₀ hM₀
    split_ifs at h with hcheck
    have hwhole := wholeGroups_nil.addRecTypes hM₀
    exact ⟨M₀, hwhole.grouped hcheck, hwhole.no_functions, h⟩

end Wah
