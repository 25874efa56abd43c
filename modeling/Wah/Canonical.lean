/-
The canonical map is exact: it identifies the types of a module that are the same, and no others.

Model:
- `IsoEq` is identity of iso-recursive types within one module;
- a map is a `CanonMap` up to a type index when it is whole groups, mapped to whole groups that are not mapped further, and
  identifies the types of groups before the index that are the same.

Results, for every type section that is accepted and every mixer of the group hash:
- `canonicalization_exact`: two types have one canonical index if and only if they are the same; the canonical map is
  idempotent, maps whole groups to whole groups, and never to a larger index;
- `parsed_wellFormed`: the types of the module are well formed.
-/
import Wah.TypeSection

namespace Wah

/-! ## Identity within a module -/

/-- two types of a module are the same -/
def IsoEq (M : LinkModule) (i j : Nat) : Prop := SameType (fun _ => M) (0, i) (0, j)

section
variable {M : LinkModule} {i j k u v : Nat}

theorem IsoEq.refl (i : Nat) : IsoEq M i i := Relator.Bisimilar.refl _

theorem IsoEq.symm (h : IsoEq M i j) : IsoEq M j i := Relator.Bisimilar.symm h

theorem IsoEq.trans (h : IsoEq M i j) (h' : IsoEq M j k) : IsoEq M i k := Relator.Bisimilar.trans h h'

/-- one step of the recursive definition: groups of one size, one offset, and definitions that match, with references
into the own group compared by their offsets and others by `R` -/
def IsoStep (M : LinkModule) (R : Nat → Nat → Prop) (i j : Nat) : Prop :=
  (M.recGroup i).2 = (M.recGroup j).2 ∧ i - (M.recGroup i).1 = j - (M.recGroup j).1 ∧ ∀ k < (M.recGroup i).2,
    DefMatch (TyMatch (RefMatch R (M.recGroup i) (M.recGroup j))) (M.typeDef ((M.recGroup i).1 + k))
      (M.typeDef ((M.recGroup j).1 + k)) (M.final ((M.recGroup i).1 + k)) (M.final ((M.recGroup j).1 + k))

theorem IsoEq.iff : IsoEq M i j ↔ IsoStep M (IsoEq M) i j := by
  constructor
  · intro h
    have := Relator.Bisimilar.unfold h
    exact this
  · intro h
    exact Relator.Bisimilar.fold h

theorem IsoEq.member (hM : M.Grouped) (hi : i < M.typeCount) (hj : j < M.typeCount) (h : IsoEq M i j)
    (hk : k < (M.recGroup i).2) : IsoEq M ((M.recGroup i).1 + k) ((M.recGroup j).1 + k) := by
  obtain ⟨hsize, -, hdefs⟩ := IsoEq.iff.1 h
  have hgi := hM.group_members i hi k hk
  have hgj := hM.group_members j hj k (hsize ▸ hk)
  rw [IsoEq.iff, IsoStep, hgi, hgj]
  exact ⟨hsize, by omega, hdefs⟩

end

/-! ## Structural equality -/

section
variable {M : LinkModule} {ga gb : Nat × Nat} {ta tb : Ty}

theorem canonicalizeTypeRef_other (h : ta.typeIdx = none) : canonicalizeTypeRef M ga ta = ta := by
  unfold canonicalizeTypeRef
  split
  · simp [Ty.typeIdx] at h
  · rfl

@[simp] theorem canonicalizeTypeRef_isSome : (canonicalizeTypeRef M ga ta).typeIdx.isSome = ta.typeIdx.isSome := by
  unfold canonicalizeTypeRef
  split
  · split_ifs <;> rfl
  · rfl

theorem canonRefEq_other (h : ta.typeIdx = none ∨ tb.typeIdx = none) : canonRefEq ga gb ta tb = decide (ta = tb) := by
  unfold canonRefEq
  split
  · simp [Ty.typeIdx] at h
  · rfl

/-- what the comparison of canonicalized references compares -/
theorem canonRefEq_iff (hcanon : ∀ u, M.canon u ≤ u) (ha : ta.idxBelow (ga.1 + ga.2) = true)
    (hb : tb.idxBelow (gb.1 + gb.2) = true) :
    canonRefEq ga gb (canonicalizeTypeRef M ga ta) (canonicalizeTypeRef M gb tb) = true ↔
      TyMatch (RefMatch (fun u v => u < ga.1 ∧ v < gb.1 ∧ M.canon u = M.canon v) ga gb) ta tb := by
  -- outside its group a reference is before it, and so is its canonical form
  have hout : ∀ {g : Nat × Nat} {n u}, (Ty.ref n (.idx u)).idxBelow (g.1 + g.2) = true → ¬ inGroup g u →
      u < g.1 ∧ ¬ inGroup g (M.canon u) := by
    intro g n u hu hin
    have hlt : u < g.1 + g.2 := by simpa [Ty.idxBelow, Ty.typeIdx] using hu
    have hle := hcanon u
    unfold inGroup at hin ⊢
    omega
  by_cases hidx : ∃ n u n' v, ta = .ref n (.idx u) ∧ tb = .ref n' (.idx v)
  · obtain ⟨n, u, n', v, rfl, rfl⟩ := hidx
    have hmatch : ∀ ρ : Nat → Nat → Prop, TyMatch ρ (.ref n (.idx u)) (.ref n' (.idx v)) ↔ n = n' ∧ ρ u v := by
      intro ρ
      constructor
      · intro h
        cases h with
        | idx h => exact ⟨rfl, h⟩
        | other h => simp [Ty.typeIdx] at h
      · rintro ⟨rfl, h⟩
        exact .idx h
    rw [hmatch]
    by_cases hu : inGroup ga u <;> by_cases hv : inGroup gb v
    · simp [canonicalizeTypeRef, canonRefEq, RefMatch, hu, hv]
    · simp [canonicalizeTypeRef, canonRefEq, RefMatch, hu, hv, (hout hb hv).2]
    · simp [canonicalizeTypeRef, canonRefEq, RefMatch, hu, hv, (hout ha hu).2]
    · simp [canonicalizeTypeRef, canonRefEq, RefMatch, hu, hv, hout ha hu, hout hb hv]
  · push Not at hidx
    have hother : ∀ ρ : Nat → Nat → Prop, TyMatch ρ ta tb ↔ ta = tb := by
      intro ρ
      constructor
      · intro h
        cases h with
        | idx h => exact (hidx _ _ _ _ rfl rfl).elim
        | other h => rfl
      · exact fun h => .of_eq h fun n u n' v h1 h2 => hidx n u n' v h1 h2
    rw [hother]
    cases hta : ta.typeIdx with
    | none =>
      rw [canonicalizeTypeRef_other hta, canonRefEq_other (.inl hta), decide_eq_true_eq]
      cases htb : tb.typeIdx with
      | none => rw [canonicalizeTypeRef_other htb]
      | some v =>
        have hne : ∀ t : Ty, t.typeIdx.isSome = true → ta ≠ t := fun t ht hc => by simp [← hc, hta] at ht
        have h1 := hne (canonicalizeTypeRef M gb tb) (by simp [htb])
        have h2 := hne tb (by simp [htb])
        simp [h1, h2]
    | some u =>
      cases htb : tb.typeIdx with
      | none =>
        rw [canonicalizeTypeRef_other htb, canonRefEq_other (.inr htb), decide_eq_true_eq]
        have hne : ∀ t : Ty, t.typeIdx.isSome = true → t ≠ tb := fun t ht hc => by simp [hc, htb] at ht
        have h1 := hne (canonicalizeTypeRef M ga ta) (by simp [hta])
        have h2 := hne ta (by simp [hta])
        simp [h1, h2]
      | some v =>
        obtain ⟨n, rfl⟩ := Ty.eq_of_typeIdx hta
        obtain ⟨n', rfl⟩ := Ty.eq_of_typeIdx htb
        exact (hidx n u n' v rfl rfl).elim

end

/-! ## Groups -/

namespace LinkModule.Grouped
variable {M : LinkModule} (hM : M.Grouped) {i j k u : Nat}
include hM

theorem size_pos (hi : i < M.typeCount) : 0 < (M.recGroup i).2 := by
  have := hM.group_self i hi
  unfold inGroup at this
  omega

theorem start_lt (hi : i < M.typeCount) : (M.recGroup i).1 < M.typeCount := (hM.group_self i hi).1.trans_lt hi

theorem start_start (hi : i < M.typeCount) : M.recGroup (M.recGroup i).1 = M.recGroup i := by
  simpa using hM.group_members i hi 0 (hM.size_pos hi)

theorem offset_lt (hi : i < M.typeCount) : i - (M.recGroup i).1 < (M.recGroup i).2 := by
  have := hM.group_self i hi
  unfold inGroup at this
  omega

theorem start_add_offset (hi : i < M.typeCount) : (M.recGroup i).1 + (i - (M.recGroup i).1) = i :=
  Nat.add_sub_cancel' (hM.group_self i hi).1

/-- the members of a group, from its start -/
theorem member (hi : i < M.typeCount) (hstart : i = (M.recGroup i).1) (hk : k < (M.recGroup i).2) :
    i + k < M.typeCount ∧ M.recGroup (i + k) = M.recGroup i := by
  have hend := hM.group_end i hi
  have hmem := hM.group_members i hi k hk
  rw [← hstart] at hend hmem
  exact ⟨by omega, hmem⟩

/-- types before a group are in groups before it -/
theorem lt_of_start_lt (hu : u < M.typeCount) (hstart : i = (M.recGroup i).1)
    (hlt : (M.recGroup u).1 < i) : u < i := by
  by_contra hge
  have hin : inGroup (M.recGroup u) i := by
    have := hM.group_self u hu
    unfold inGroup at this ⊢
    omega
  have hmem := hM.group_members u hu (i - (M.recGroup u).1) (by unfold inGroup at hin; omega)
  rw [Nat.add_sub_cancel' hin.1] at hmem
  rw [hmem] at hstart
  omega

/-- what a member of a group mentions is in the group or before it -/
theorem mention_below (hi : i < M.typeCount) (hstart : i = (M.recGroup i).1) (hk : k < (M.recGroup i).2) {t : Ty}
    (ht : t ∈ (M.typeDef (i + k)).types) : t.idxBelow (i + (M.recGroup i).2) = true := by
  obtain ⟨hlt, hgroup⟩ := hM.member hi hstart hk
  have := hM.refs_below _ hlt t ht
  rwa [hgroup, ← hstart] at this

/-- matching references of two groups, with the bounds of those outside -/
theorem match_bounds {R : Nat → Nat → Prop} (hi : i < M.typeCount) (hj : j < M.typeCount) (hsi : i = (M.recGroup i).1)
    (hsj : j = (M.recGroup j).1) (hk : k < (M.recGroup i).2) (hsize : (M.recGroup i).2 = (M.recGroup j).2)
    (h : DefMatch (TyMatch (RefMatch R (M.recGroup i) (M.recGroup j))) (M.typeDef (i + k)) (M.typeDef (j + k))
      (M.final (i + k)) (M.final (j + k))) :
    DefMatch (TyMatch (RefMatch (fun u v => R u v ∧ u < i ∧ v < j) (M.recGroup i) (M.recGroup j)))
      (M.typeDef (i + k)) (M.typeDef (j + k)) (M.final (i + k)) (M.final (j + k)) := by
  refine h.mono_mem fun a ha b hb hab => ?_
  have hba := hM.mention_below hi hsi hk ha
  have hbb := hM.mention_below hj hsj (hsize ▸ hk) hb
  cases hab with
  | other h => exact .other h
  | idx h =>
    refine .idx ?_
    rcases h with h | ⟨hu, hv, h⟩
    · exact .inl h
    · refine .inr ⟨hu, hv, h, ?_, ?_⟩
      · have := of_decide_eq_true (show decide (_ < _) = true from by simpa [Ty.idxBelow, Ty.typeIdx] using hba)
        unfold inGroup at hu
        omega
      · have := of_decide_eq_true (show decide (_ < _) = true from by simpa [Ty.idxBelow, Ty.typeIdx] using hbb)
        unfold inGroup at hv
        omega

end LinkModule.Grouped

/-- the recursive definition of identity has one solution on the types of a module -/
theorem IsoEq.unique {M : LinkModule} (hM : M.Grouped) {E : Nat → Nat → Prop}
    (hE : ∀ i < M.typeCount, ∀ j < M.typeCount, E i j ↔ IsoStep M E i j) {i j : Nat} (hi : i < M.typeCount)
    (hj : j < M.typeCount) : E i j ↔ IsoEq M i j := by
  induction i using Nat.strong_induction_on generalizing j with
  | _ i ih =>
    rw [hE i hi j hj, IsoEq.iff]
    have hsi := hM.start_start hi
    have hsj := hM.start_start hj
    -- references out of the group are to earlier types
    have hstep : ∀ R S : Nat → Nat → Prop,
        (∀ u < i, ∀ v < M.typeCount, R u v → S u v) → IsoStep M R i j → IsoStep M S i j := by
      rintro R S hRS ⟨hsize, hoff, hdefs⟩
      refine ⟨hsize, hoff, fun k hk => ?_⟩
      have hb := hM.match_bounds (R := R) (i := (M.recGroup i).1) (j := (M.recGroup j).1) (hM.start_lt hi)
        (hM.start_lt hj) (by rw [hsi]) (by rw [hsj]) (k := k) (by rwa [hsi]) (by rwa [hsi, hsj])
        (by rw [hsi, hsj]; exact hdefs k hk)
      rw [hsi, hsj] at hb
      refine hb.mono fun _ _ => .mono fun _ _ => .mono fun u v ⟨huv, hu, hv⟩ => ?_
      exact hRS u (hu.trans_le (hM.group_self i hi).1) v (hv.trans (hM.start_lt hj)) huv
    exact ⟨hstep _ _ fun u hu v hv => (ih u hu (hu.trans hi) hv).1, hstep _ _ fun u hu v hv => (ih u hu (hu.trans hi) hv).2⟩

/-! ## Group hashes -/

section
variable {mix : UInt64 → UInt64 → UInt64} {M : LinkModule} {hs hs' : List UInt64} {ga gb : Nat × Nat} {i j : Nat}
  {R : Nat → Nat → Prop}

/-- indices whose groups have one hash and that have one offset in them -/
def HashMatch (M : LinkModule) (hs hs' : List UInt64) (u v : Nat) : Prop :=
  (hs[(M.recGroup u).1]?).getD 0 = (hs'[(M.recGroup v).1]?).getD 0 ∧ u - (M.recGroup u).1 = v - (M.recGroup v).1

theorem foldl_forall₂ {β γ : Type*} {T : β → β → Prop} {f g : γ → β → γ} {as bs : List β} (h : List.Forall₂ T as bs)
    (hfg : ∀ c a b, T a b → f c a = g c b) (c : γ) : as.foldl f c = bs.foldl g c := by
  induction h generalizing c with
  | nil => rfl
  | cons hab _ ih =>
    rw [List.foldl_cons, List.foldl_cons, hfg c _ _ hab]
    exact ih _

theorem forall₂_zip {T : Ty → Ty → Prop} {as bs : List Ty} (h : List.Forall₂ T as bs) (ms : List Bool) :
    List.Forall₂ (fun x y => T x.1 y.1 ∧ x.2 = y.2) (as.zip ms) (bs.zip ms) := by
  induction h generalizing ms with
  | nil => exact .nil
  | cons hab _ ih =>
    cases ms with
    | nil => exact .nil
    | cons m ms => exact .cons ⟨hab, rfl⟩ (ih ms)

theorem recGroupHashType_eq {ta tb : Ty} (h : TyMatch (RefMatch (HashMatch M hs hs') ga gb) ta tb) (c : UInt64) :
    recGroupHashType mix M hs ga c ta = recGroupHashType mix M hs' gb c tb := by
  cases h with
  | other h =>
    cases ta with
    | ref n x =>
      cases x with
      | idx u => simp [Ty.typeIdx] at h
      | abs k => rfl
    | _ => rfl
  | @idx n u v h =>
    rcases h with ⟨hu, hv, hoff⟩ | ⟨hu, hv, hhash, hoff⟩
    · simp [recGroupHashType, hu, hv, hoff]
    · simp [recGroupHashType, hu, hv, hhash, hoff]

theorem recGroupHashMember_eq {a b : Nat} (h : DefMatch (TyMatch (RefMatch (HashMatch M hs hs') ga gb)) (M.typeDef a)
    (M.typeDef b) (M.final a) (M.final b)) (c : UInt64) :
    recGroupHashMember mix M hs ga c a = recGroupHashMember mix M hs' gb c b := by
  have htype : ∀ c ta tb, TyMatch (RefMatch (HashMatch M hs hs') ga gb) ta tb →
      recGroupHashType mix M hs ga c ta = recGroupHashType mix M hs' gb c tb :=
    fun c _ _ hab => recGroupHashType_eq hab c
  have hsuper : ∀ c, recGroupHashSuper mix M hs ga c (M.typeDef a).supertype =
      recGroupHashSuper mix M hs' gb c (M.typeDef b).supertype := by
    intro c
    have hs := h.supertype
    generalize (M.typeDef a).supertype = x, (M.typeDef b).supertype = y at hs
    cases hs with
    | some hab => exact htype c _ _ hab
    | none => rfl
  unfold recGroupHashMember
  dsimp only
  rw [h.kind, h.final, hsuper]
  by_cases hkind : (M.typeDef b).kind = .func
  · have hkind' := h.kind.trans hkind
    have hp := h.params hkind'
    have hr := h.results hkind'
    rw [if_pos hkind, if_pos hkind, hp.length_eq, hr.length_eq, foldl_forall₂ hp htype, foldl_forall₂ hr htype]
  · have hkind' : (M.typeDef a).kind ≠ .func := h.kind ▸ hkind
    have hf := h.fields hkind'
    rw [if_neg hkind, if_neg hkind, hf.length_eq, h.mutables hkind']
    refine foldl_forall₂ (forall₂_zip hf _) (fun c x y hxy => ?_) _
    rw [htype c _ _ hxy.1, hxy.2]

/-- groups whose definitions match have one hash -/
theorem recGroupHash_eq (hsi : i = (M.recGroup i).1) (hsj : j = (M.recGroup j).1)
    (hsize : (M.recGroup i).2 = (M.recGroup j).2)
    (h : ∀ k < (M.recGroup i).2, DefMatch (TyMatch (RefMatch (HashMatch M hs hs') (M.recGroup i) (M.recGroup j)))
      (M.typeDef (i + k)) (M.typeDef (j + k)) (M.final (i + k)) (M.final (j + k))) :
    recGroupHash mix M hs i = recGroupHash mix M hs' j := by
  have hgi : (i, (M.recGroup i).2) = M.recGroup i := Prod.ext hsi rfl
  have hgj : (j, (M.recGroup j).2) = M.recGroup j := Prod.ext hsj rfl
  unfold recGroupHash
  dsimp only
  rw [hgi, hgj, ← hsize]
  refine List.foldl_ext _ _ _ fun c k hk => recGroupHashMember_eq (h k ?_) c
  simpa using hk

/-- only the hashes of earlier groups matter -/
theorem recGroupHash_congr (hM : M.Grouped) (hi : i < M.typeCount) (hsi : i = (M.recGroup i).1)
    (h : ∀ u < i, hs[u]? = hs'[u]?) : recGroupHash mix M hs i = recGroupHash mix M hs' i := by
  refine recGroupHash_eq hsi hsi rfl fun k hk => ?_
  have hself := hM.match_bounds (R := Eq) hi hi hsi hsi hk rfl (.refl (.refl (RefMatch.refl (fun _ => rfl) _)) _ _)
  refine hself.mono fun _ _ => .mono fun _ _ => .mono ?_
  rintro u _ ⟨rfl, hu, -⟩
  have hlt : (M.recGroup u).1 < i := (hM.group_self u (hu.trans hi)).1.trans_lt hu
  exact ⟨by rw [h _ hlt], rfl⟩

/-- the table of hashes holds the hash of every group, as computed from the table itself -/
theorem groupHashes_spec (hM : M.Grouped) (hi : i < M.typeCount) (hsi : i = (M.recGroup i).1) :
    (groupHashes mix M)[i]? = some (recGroupHash mix M (groupHashes mix M) i) := by
  have hfold : ∀ n ≤ M.typeCount, ∀ hs,
      hs = (List.range n).foldl (hashGroup mix M) (List.replicate M.typeCount 0) →
      hs.length = M.typeCount ∧ ∀ i < n, i = (M.recGroup i).1 → hs[i]? = some (recGroupHash mix M hs i) := by
    intro n hn
    induction n with
    | zero =>
      rintro _ rfl
      simp
    | succ n ih =>
      rintro _ rfl
      obtain ⟨hlen, ih⟩ := ih (Nat.le_of_succ_le hn) _ rfl
      rw [List.range_succ, List.foldl_append, List.foldl_cons, List.foldl_nil]
      generalize (List.range n).foldl (hashGroup mix M) (List.replicate M.typeCount 0) = hs at hlen ih
      unfold hashGroup
      split_ifs with hstart
      · refine ⟨by simp [hlen], fun i hi hsi => ?_⟩
        have hcongr : recGroupHash mix M (hs.set n (recGroupHash mix M hs n)) i = recGroupHash mix M hs i := by
          refine recGroupHash_congr hM (by omega) hsi fun u hu => ?_
          rw [List.getElem?_set_ne (by omega)]
        rw [hcongr]
        rcases Nat.lt_succ_iff_lt_or_eq.1 hi with hlt | rfl
        · rw [List.getElem?_set_ne (by omega)]
          exact ih i hlt hsi
        · rw [List.getElem?_set_self (by omega)]
      · refine ⟨hlen, fun i hi hsi => ?_⟩
        rcases Nat.lt_succ_iff_lt_or_eq.1 hi with hlt | rfl
        · exact ih i hlt hsi
        · exact absurd hsi hstart
  exact (hfold M.typeCount le_rfl _ rfl).2 i hi hsi

/-- **Equal groups have equal hashes.** -/
theorem IsoEq.hash_eq (hM : M.Grouped) (hi : i < M.typeCount) (hj : j < M.typeCount) (hsi : i = (M.recGroup i).1)
    (hsj : j = (M.recGroup j).1) (h : IsoEq M i j) : (groupHashes mix M)[i]? = (groupHashes mix M)[j]? := by
  induction i using Nat.strong_induction_on generalizing j with
  | _ i ih =>
    rw [groupHashes_spec hM hi hsi, groupHashes_spec hM hj hsj]
    obtain ⟨hsize, -, hdefs⟩ := IsoEq.iff.1 h
    rw [← hsi, ← hsj] at hdefs
    refine congrArg some (recGroupHash_eq hsi hsj hsize fun k hk => ?_)
    refine (hM.match_bounds hi hj hsi hsj hk hsize (hdefs k hk)).mono fun _ _ => .mono fun _ _ => .mono ?_
    rintro u v ⟨huv, hui, hvj⟩
    have hu : u < M.typeCount := hui.trans hi
    have hv : v < M.typeCount := hvj.trans hj
    obtain ⟨-, hoff, -⟩ := IsoEq.iff.1 huv
    have hstarts : IsoEq M (M.recGroup u).1 (M.recGroup v).1 := huv.member hM hu hv (hM.size_pos hu)
    have hlt : (M.recGroup u).1 < i := (hM.group_self u hu).1.trans_lt hui
    have hsu : (M.recGroup u).1 = (M.recGroup (M.recGroup u).1).1 := by rw [hM.start_start hu]
    have hsv : (M.recGroup v).1 = (M.recGroup (M.recGroup v).1).1 := by rw [hM.start_start hv]
    exact ⟨by rw [ih _ hlt (hM.start_lt hu) (hM.start_lt hv) hsu hsv hstarts], hoff⟩

end

/-! ## The search for a canonical group -/

theorem GroupKey.le_total (x y : GroupKey) : x.le y ∨ y.le x := by
  simp only [GroupKey.le, UInt64.lt_iff_toNat_lt, ← UInt64.toNat_inj]
  omega

theorem GroupKey.le_trans {x y z : GroupKey} (h : x.le y) (h' : y.le z) : x.le z := by
  simp only [GroupKey.le, UInt64.lt_iff_toNat_lt, ← UInt64.toNat_inj] at h h' ⊢
  omega

section
variable {M : LinkModule} {hs : List UInt64} {map : List Nat} {h : UInt64} {i j n u : Nat} {k : GroupKey}

theorem mem_groupKeys : k ∈ groupKeys M hs ↔
    k.start < M.typeCount ∧ k.start = (M.recGroup k.start).1 ∧ k.hash = (hs[k.start]?).getD 0 := by
  simp only [groupKeys, List.mem_insertionSort, List.mem_map, List.mem_filter, List.mem_range, decide_eq_true_eq]
  constructor
  · rintro ⟨i, ⟨hi, hstart⟩, rfl⟩
    exact ⟨hi, hstart, rfl⟩
  · rintro ⟨hlt, hstart, hhash⟩
    exact ⟨k.start, ⟨hlt, hstart⟩, by rw [← hhash]⟩

theorem sorted_groupKeys : (groupKeys M hs).Pairwise GroupKey.le := by
  have : Std.Total GroupKey.le := ⟨GroupKey.le_total⟩
  have : IsTrans GroupKey GroupKey.le := ⟨fun _ _ _ => GroupKey.le_trans⟩
  exact List.pairwise_insertionSort _ _

/-- where the keys with the hash `h` begin -/
def runStart (keys : List GroupKey) (h : UInt64) : Nat := keys.findIdx fun k => !decide (k.hash < h)

theorem groupKeys_mono : (groupKeys M hs).Pairwise fun a b => (!decide (a.hash < h)) = true → (!decide (b.hash < h)) = true := by
  refine sorted_groupKeys.imp fun {a b} hab ha => ?_
  simp only [GroupKey.le, UInt64.lt_iff_toNat_lt, ← UInt64.toNat_inj, Bool.not_eq_true', decide_eq_false_iff_not] at hab ha ⊢
  omega

/-- the loop goes through the keys from there on -/
theorem findCanonical_eq : findCanonical M (groupKeys M hs) map h i =
    ((((groupKeys M hs).drop (runStart (groupKeys M hs) h)).takeWhile fun k =>
      decide (k.hash = h) && decide (k.start < i)).find? (isCanonicalFor M map i)).map GroupKey.start := by
  rw [findCanonical, bisect_findIdx groupKeys_mono _ List.findIdx_le_length le_rfl, Option.bind_some, runStart]

/-- the entries that the loop visits are the keys of the earlier groups with the hash -/
theorem mem_run (hk : k ∈ groupKeys M hs) :
    k ∈ ((groupKeys M hs).drop (runStart (groupKeys M hs) h)).takeWhile (fun k =>
      decide (k.hash = h) && decide (k.start < i)) ↔ k.hash = h ∧ k.start < i := by
  have hdrop : ∀ k, k ∈ (groupKeys M hs).drop (runStart (groupKeys M hs) h) ↔
      k ∈ groupKeys M hs ∧ (!decide (k.hash < h)) = true := fun k => mem_drop_findIdx groupKeys_mono
  have hrun : ((groupKeys M hs).drop (runStart (groupKeys M hs) h)).Pairwise fun a b =>
      (decide (b.hash = h) && decide (b.start < i)) = true → (decide (a.hash = h) && decide (a.start < i)) = true := by
    refine (sorted_groupKeys.sublist (List.drop_sublist _ _)).imp_of_mem fun {a b} ha _ hab hb => ?_
    have hle := ((hdrop a).1 ha).2
    simp only [GroupKey.le, UInt64.lt_iff_toNat_lt, ← UInt64.toNat_inj, decide_eq_true_eq, Bool.not_eq_true',
      decide_eq_false_iff_not, Bool.and_eq_true] at hab hb hle ⊢
    omega
  rw [mem_takeWhile_of_pairwise hrun, hdrop k]
  simp only [hk, true_and, Bool.not_eq_true', decide_eq_false_iff_not, Bool.and_eq_true, decide_eq_true_eq]
  constructor
  · exact fun hc => hc.2
  · rintro ⟨rfl, hlt⟩
    exact ⟨by simp, rfl, hlt⟩

/-- the canonical index of a map -/
def mapAt (map : List Nat) (u : Nat) : Nat := (map[u]?).getD u

theorem isCanonicalFor_iff : isCanonicalFor M map i k = true ↔
    mapAt map k.start = k.start ∧ (M.recGroup k.start).2 = (M.recGroup i).2 ∧ groupsEqual M map i k.start = true := by
  simp [isCanonicalFor, mapAt, and_assoc]

theorem findCanonical_some (hfind : findCanonical M (groupKeys M hs) map h i = some j) :
    j < M.typeCount ∧ j = (M.recGroup j).1 ∧ j < i ∧ mapAt map j = j ∧ (M.recGroup j).2 = (M.recGroup i).2 ∧
      groupsEqual M map i j = true := by
  rw [findCanonical_eq, Option.map_eq_some_iff] at hfind
  obtain ⟨k, hfind, rfl⟩ := hfind
  have hmem := List.mem_of_find?_eq_some hfind
  have hkey : k ∈ groupKeys M hs := (List.drop_sublist _ _).mem ((List.takeWhile_sublist _).mem hmem)
  obtain ⟨hlt, hstart, -⟩ := mem_groupKeys.1 hkey
  exact ⟨hlt, hstart, ((mem_run hkey).1 hmem).2, isCanonicalFor_iff.1 (List.find?_some hfind)⟩

theorem findCanonical_none (hfind : findCanonical M (groupKeys M hs) map h i = none) (hj : j < M.typeCount)
    (hstart : j = (M.recGroup j).1) (hlt : j < i) (hhash : (hs[j]?).getD 0 = h) :
    ¬ (mapAt map j = j ∧ (M.recGroup j).2 = (M.recGroup i).2 ∧ groupsEqual M map i j = true) := by
  rw [findCanonical_eq, Option.map_eq_none_iff, List.find?_eq_none] at hfind
  have hkey : (⟨h, j⟩ : GroupKey) ∈ groupKeys M hs := mem_groupKeys.2 ⟨hj, hstart, hhash.symm⟩
  intro hcanon
  exact hfind ⟨h, j⟩ ((mem_run hkey).2 ⟨rfl, hlt⟩) (isCanonicalFor_iff.2 hcanon)

end

/-! ## The map under construction -/

theorem mapGroup_spec (map : List Nat) (i j size : Nat) (hle : i + size ≤ map.length) :
    (mapGroup map i j size).length = map.length ∧
      ∀ u, mapAt (mapGroup map i j size) u = if inGroup (i, size) u then j + (u - i) else mapAt map u := by
  induction size with
  | zero =>
    refine ⟨rfl, fun u => ?_⟩
    rw [if_neg (by unfold inGroup; omega)]
    rfl
  | succ size ih =>
    obtain ⟨hlen, ih⟩ := ih (by omega)
    have hstep : mapGroup map i j (size + 1) = (mapGroup map i j size).set (i + size) (j + size) := by
      simp [mapGroup, List.range_succ]
    rw [hstep]
    refine ⟨by simp [hlen], fun u => ?_⟩
    by_cases hu : u = i + size
    · subst hu
      rw [if_pos (by unfold inGroup; omega), mapAt, List.getElem?_set_self (by omega)]
      simp
    · rw [mapAt, List.getElem?_set_ne (by omega)]
      rw [← mapAt, ih u]
      by_cases hin : inGroup (i, size) u
      · rw [if_pos hin, if_pos (by unfold inGroup at hin ⊢; omega)]
      · rw [if_neg hin, if_neg (by unfold inGroup at hin ⊢; omega)]

/-- the map on the groups before `n`: whole groups to whole groups, and exact -/
structure CanonMap (M : LinkModule) (n : Nat) (map : List Nat) : Prop where
  length : map.length = M.typeCount
  groups : ∀ s < M.typeCount, s = (M.recGroup s).1 → ∃ j ≤ s, j = (M.recGroup j).1 ∧
    (M.recGroup j).2 = (M.recGroup s).2 ∧ ∀ k < (M.recGroup s).2, mapAt map (s + k) = j + k ∧ mapAt map (j + k) = j + k
  later : ∀ u < M.typeCount, n ≤ (M.recGroup u).1 → mapAt map u = u
  exact : ∀ u < M.typeCount, ∀ v < M.typeCount, (M.recGroup u).1 < n → (M.recGroup v).1 < n →
    (mapAt map u = mapAt map v ↔ IsoEq M u v)

section
variable {mix : UInt64 → UInt64 → UInt64} {M : LinkModule} {map : List Nat} {i j n u : Nat}

theorem CanonMap.le (hM : M.Grouped) (h : CanonMap M n map) (u : Nat) : mapAt map u ≤ u := by
  by_cases hu : u < M.typeCount
  · obtain ⟨j, hle, -, -, hk⟩ := h.groups _ (hM.start_lt hu) (by rw [hM.start_start hu])
    have := (hk (u - (M.recGroup u).1) (by rw [hM.start_start hu]; exact hM.offset_lt hu)).1
    rw [hM.start_add_offset hu] at this
    have hself := (hM.group_self u hu).1
    omega
  · simp [mapAt, List.getElem?_eq_none (show map.length ≤ u from h.length ▸ Nat.not_lt.1 hu)]

/-- comparing groups under a map that is exact before them decides whether they are the same -/
theorem CanonMap.groupsEqual_iff (hM : M.Grouped) (h : CanonMap M n map) (hi : i < M.typeCount) (hj : j < M.typeCount)
    (hsi : i = (M.recGroup i).1) (hsj : j = (M.recGroup j).1) (hsize : (M.recGroup i).2 = (M.recGroup j).2)
    (hin : i ≤ n) (hjn : j ≤ n) : groupsEqual M map i j = true ↔ IsoEq M i j := by
  have hcanon : ∀ u, ({ M with canonicalMap := map } : LinkModule).canon u ≤ u := h.le hM
  have hone : ∀ m < (M.recGroup i).2, typesStructurallyEqual { M with canonicalMap := map } (i + m) (j + m) = true ↔
      DefMatch (TyMatch (RefMatch (IsoEq M) (M.recGroup i) (M.recGroup j))) (M.typeDef (i + m)) (M.typeDef (j + m))
        (M.final (i + m)) (M.final (j + m)) := by
    intro m hm
    have hgi : ({ M with canonicalMap := map } : LinkModule).recGroup (i + m) = M.recGroup i := (hM.member hi hsi hm).2
    have hgj : ({ M with canonicalMap := map } : LinkModule).recGroup (j + m) = M.recGroup j :=
      (hM.member hj hsj (hsize ▸ hm)).2
    have hpi : (({ M with canonicalMap := map } : LinkModule).typeDef (i + m)).Paired :=
      hM.paired _ (hM.member hi hsi hm).1
    have hpj : (({ M with canonicalMap := map } : LinkModule).typeDef (j + m)).Paired :=
      hM.paired _ (hM.member hj hsj (hsize ▸ hm)).1
    rw [typesStructurallyEqual_iff hpi hpj, hgi, hgj]
    have hbelow : ∀ a ∈ (M.typeDef (i + m)).types, a.idxBelow ((M.recGroup i).1 + (M.recGroup i).2) = true :=
      fun a ha => hsi ▸ hM.mention_below hi hsi hm ha
    have hbelow' : ∀ b ∈ (M.typeDef (j + m)).types, b.idxBelow ((M.recGroup j).1 + (M.recGroup j).2) = true :=
      fun b hb => hsj ▸ hM.mention_below hj hsj (hsize ▸ hm) hb
    have hexact : ∀ u v, u < i → v < j → (mapAt map u = mapAt map v ↔ IsoEq M u v) := by
      intro u v hu hv
      have hu' := hu.trans hi
      have hv' := hv.trans hj
      exact h.exact u hu' v hv' (((hM.group_self u hu').1.trans_lt hu).trans_le hin)
        (((hM.group_self v hv').1.trans_lt hv).trans_le hjn)
    constructor
    · intro hd
      refine hd.mono_mem fun a ha b hb hab => ?_
      rw [canonRefEq_iff hcanon (hbelow a ha) (hbelow' b hb), ← hsi, ← hsj] at hab
      exact hab.mono fun u v => .mono fun u v ⟨hu, hv, huv⟩ => (hexact u v hu hv).1 huv
    · intro hd
      refine (hM.match_bounds hi hj hsi hsj hm hsize hd).mono_mem fun a ha b hb hab => ?_
      rw [canonRefEq_iff hcanon (hbelow a ha) (hbelow' b hb), ← hsi, ← hsj]
      exact hab.mono fun u v => .mono fun u v ⟨huv, hu, hv⟩ => ⟨hu, hv, (hexact u v hu hv).2 huv⟩
  have hall : groupsEqual M map i j = true ↔
      ∀ m < (M.recGroup i).2, typesStructurallyEqual { M with canonicalMap := map } (i + m) (j + m) = true := by
    simp [groupsEqual]
  rw [hall, IsoEq.iff, IsoStep, ← hsi, ← hsj]
  constructor
  · exact fun hd => ⟨hsize, by simp, fun m hm => (hone m hm).1 (hd m hm)⟩
  · exact fun hd m hm => (hone m hm).2 (hd.2.2 m hm)

/-- the canonical group of a group: its start, which is not mapped further -/
theorem CanonMap.canonical (h : CanonMap M n map) (hM : M.Grouped) (hi : i < M.typeCount) (hsi : i = (M.recGroup i).1)
    (hmap : mapAt map i = i) : ∀ k < (M.recGroup i).2, mapAt map (i + k) = i + k := by
  obtain ⟨j, -, -, -, hk⟩ := h.groups i hi hsi
  have h0 := (hk 0 (hM.size_pos hi)).1
  obtain rfl : i = j := by simpa [hmap] using h0
  exact fun k hlt => (hk k hlt).2

/-- the group at `n` is mapped to a group `c` that is not mapped further, which stands for the groups before `n` that
are the same -/
theorem CanonMap.extend (hM : M.Grouped) (h : CanonMap M n map) (hn : n < M.typeCount) (hsn : n = (M.recGroup n).1)
    {map' : List Nat} {c : Nat} (hlen : map'.length = M.typeCount)
    (hold : ∀ u < M.typeCount, (M.recGroup u).1 ≠ n → mapAt map' u = mapAt map u)
    (hnew : ∀ k < (M.recGroup n).2, mapAt map' (n + k) = c + k ∧ mapAt map' (c + k) = c + k)
    (hle : c ≤ n) (hsc : c = (M.recGroup c).1) (hsize : (M.recGroup c).2 = (M.recGroup n).2)
    (hexact : ∀ v < M.typeCount, (M.recGroup v).1 < n → ∀ k < (M.recGroup n).2,
      (c + k = mapAt map v ↔ IsoEq M (n + k) v)) : CanonMap M (n + 1) map' := by
  -- types of the group at `n`, by their offsets
  have hgroup : ∀ u < M.typeCount, (M.recGroup u).1 = n → ∃ k < (M.recGroup n).2, u = n + k := by
    intro u hu hstart
    have hg := hM.start_start hu
    rw [hstart] at hg
    exact ⟨u - n, by have := hM.offset_lt hu; rwa [hstart, ← hg] at this, by
      have := (hM.group_self u hu).1
      omega⟩
  refine ⟨hlen, fun s hs hss => ?_, fun u hu hlt => ?_, fun u hu v hv hun hvn => ?_⟩
  · by_cases hsn' : s = n
    · subst hsn'
      exact ⟨c, hle, hsc, hsize, hnew⟩
    · obtain ⟨j, hjs, hsj, hsizej, hk⟩ := h.groups s hs hss
      have hjn : j ≠ n := by
        rintro rfl
        have h0 := (hk 0 (hM.size_pos hs)).1
        have := h.later s hs (by omega)
        simp only [Nat.add_zero] at h0
        omega
      refine ⟨j, hjs, hsj, hsizej, fun k hlt => ?_⟩
      have hms := hM.member hs hss hlt
      have hmj := hM.member (hjs.trans_lt hs) hsj (hsizej ▸ hlt)
      rw [hold _ hms.1 (by rw [hms.2, ← hss]; exact hsn'), hold _ hmj.1 (by rw [hmj.2, ← hsj]; exact hjn)]
      exact hk k hlt
  · rw [hold u hu (by omega)]
    exact h.later u hu (by omega)
  · rcases Nat.lt_succ_iff_lt_or_eq.1 hun with hun | hun <;> rcases Nat.lt_succ_iff_lt_or_eq.1 hvn with hvn | hvn
    · rw [hold u hu hun.ne, hold v hv hvn.ne]
      exact h.exact u hu v hv hun hvn
    · obtain ⟨k, hk, rfl⟩ := hgroup v hv hvn
      rw [hold u hu hun.ne, (hnew k hk).1, eq_comm]
      exact (hexact u hu hun k hk).trans ⟨.symm, .symm⟩
    · obtain ⟨k, hk, rfl⟩ := hgroup u hu hun
      rw [hold v hv hvn.ne, (hnew k hk).1]
      exact hexact v hv hvn k hk
    · obtain ⟨k, hk, rfl⟩ := hgroup u hu hun
      obtain ⟨k', hk', rfl⟩ := hgroup v hv hvn
      rw [(hnew k hk).1, (hnew k' hk').1]
      constructor
      · intro heq
        rw [Nat.add_left_cancel heq]
        exact .refl _
      · intro hiso
        have := (IsoEq.iff.1 hiso).2.1
        rw [hun, hvn] at this
        omega

/-- a group that is the same as an earlier one is found -/
theorem CanonMap.search_complete (hM : M.Grouped) (h : CanonMap M n map) (hn : n < M.typeCount)
    (hsn : n = (M.recGroup n).1)
    (hfind : findCanonical M (groupKeys M (groupHashes mix M)) map (((groupHashes mix M)[n]?).getD 0) n = none)
    {v k : Nat} (hv : v < M.typeCount) (hvn : (M.recGroup v).1 < n) (hk : k < (M.recGroup n).2) :
    ¬ IsoEq M (n + k) v := by
  intro hiso
  have hstart := hM.start_lt hv
  have hss : (M.recGroup v).1 = (M.recGroup (M.recGroup v).1).1 := by rw [hM.start_start hv]
  obtain ⟨j, hjs, hsj, hsize, hj⟩ := h.groups _ hstart hss
  have hjlt : j < M.typeCount := hjs.trans_lt hstart
  rw [hM.start_start hv] at hsize hj
  obtain ⟨hmapv, hmapj⟩ := hj _ (hM.offset_lt hv)
  rw [hM.start_add_offset hv] at hmapv
  -- the canonical form of `v` is the same as `v`
  obtain ⟨hmem, hgroup⟩ := hM.member hjlt hsj (hsize ▸ hM.offset_lt hv)
  have hcanon : IsoEq M v (j + (v - (M.recGroup v).1)) := by
    refine (h.exact v hv _ hmem hvn ?_).1 (hmapv.trans hmapj.symm)
    rw [hgroup, ← hsj]
    omega
  obtain ⟨hnk, hgn⟩ := hM.member hn hsn hk
  have hstarts := (hiso.trans hcanon).member hM hnk hmem (k := 0) (by rw [hgn]; exact hM.size_pos hn)
  rw [hgn, hgroup, ← hsn, ← hsj] at hstarts
  have hjn : j < n := hjs.trans_lt hvn
  have hsizes := (IsoEq.iff.1 hstarts).1
  refine findCanonical_none hfind hjlt hsj hjn ?_ ⟨?_, hsizes.symm, ?_⟩
  · rw [hstarts.hash_eq hM hn hjlt hsn hsj]
  · simpa using (hj 0 (hM.size_pos hv)).2
  · exact (h.groupsEqual_iff hM hn hjlt hsn hsj hsizes le_rfl hjn.le).2 hstarts

theorem CanonMap.step (hM : M.Grouped) (h : CanonMap M n map) (hn : n < M.typeCount) :
    CanonMap M (n + 1) (canonicalizeGroup M (groupHashes mix M) (groupKeys M (groupHashes mix M)) map n) := by
  unfold canonicalizeGroup
  split_ifs with hsn
  · split
    · rename_i j hfind
      obtain ⟨hj, hsj, hjn, hmapj, hsize, hequal⟩ := findCanonical_some hfind
      have hiso : IsoEq M n j := (h.groupsEqual_iff hM hn hj hsn hsj hsize.symm le_rfl hjn.le).1 hequal
      have hend := hM.group_end n hn
      obtain ⟨hlen, hmap⟩ := mapGroup_spec map n j (M.recGroup n).2 (by rw [h.length]; omega)
      have hcanon := h.canonical hM hj hsj hmapj
      have hbefore : ∀ k < (M.recGroup n).2, j + k < n := by
        intro k hk
        refine hM.lt_of_start_lt (hM.member hj hsj (hsize ▸ hk)).1 hsn ?_
        rw [(hM.member hj hsj (hsize ▸ hk)).2, ← hsj]
        exact hjn
      refine h.extend hM hn hsn (c := j) (hlen.trans h.length) (fun u hu hne => ?_) (fun k hk => ⟨?_, ?_⟩) hjn.le hsj
        hsize fun v hv hvn k hk => ?_
      · rw [hmap, if_neg]
        intro hin
        have hmem := hM.member hn hsn (k := u - n) (by unfold inGroup at hin; omega)
        rw [Nat.add_sub_cancel' hin.1] at hmem
        exact hne (by rw [hmem.2, ← hsn])
      · rw [hmap, if_pos (by unfold inGroup; omega)]
        omega
      · rw [hmap, if_neg (by have := hbefore k hk; unfold inGroup; omega)]
        exact hcanon k (hsize ▸ hk)
      · have hmem := hM.member hj hsj (hsize ▸ hk)
        have hmember := hiso.member hM hn hj hk
        rw [← hsn, ← hsj] at hmember
        rw [← hcanon k (hsize ▸ hk), h.exact _ hmem.1 v hv (by rw [hmem.2, ← hsj]; exact hjn) hvn]
        exact ⟨hmember.trans, hmember.symm.trans⟩
    · rename_i hfind
      have hlater : ∀ k < (M.recGroup n).2, mapAt map (n + k) = n + k := by
        intro k hk
        obtain ⟨hlt, hgroup⟩ := hM.member hn hsn hk
        exact h.later _ hlt (by rw [hgroup, ← hsn])
      refine h.extend hM hn hsn (c := n) h.length (fun _ _ _ => rfl) (fun k hk => ⟨hlater k hk, hlater k hk⟩) le_rfl hsn
        rfl fun v hv hvn k hk => ⟨fun heq => ?_, fun hiso => ?_⟩
      · have hle := h.le hM v
        have hlt := hM.lt_of_start_lt hv hsn hvn
        omega
      · exact absurd hiso (h.search_complete hM hn hsn hfind hv hvn hk)
  · -- only the first member of a group has something to do
    have hne : ∀ u < M.typeCount, (M.recGroup u).1 ≠ n := by
      rintro u hu rfl
      exact hsn (by rw [hM.start_start hu])
    refine ⟨h.length, h.groups, fun u hu hlt => h.later u hu (by omega), fun u hu v hv hun hvn => ?_⟩
    have h1 := hne u hu
    have h2 := hne v hv
    exact h.exact u hu v hv (by omega) (by omega)

/-- the identity map, before any group is compared -/
theorem CanonMap.start : CanonMap M 0 (List.range M.typeCount) := by
  have hid : ∀ u, mapAt (List.range M.typeCount) u = u := by
    intro u
    by_cases hu : u < M.typeCount <;> simp [mapAt, hu]
  exact ⟨by simp, fun s hs hss => ⟨s, le_rfl, hss, rfl, fun k _ => ⟨hid _, hid _⟩⟩, fun u _ _ => hid u, by simp⟩

/-- the map is exact on all groups -/
theorem buildCanonicalMap_spec (mix : UInt64 → UInt64 → UInt64) (hM : M.Grouped) : CanonMap M M.typeCount (buildCanonicalMap M mix) := by
  have hfold : ∀ n ≤ M.typeCount, CanonMap M n ((List.range n).foldl
      (canonicalizeGroup M (groupHashes mix M) (groupKeys M (groupHashes mix M))) (List.range M.typeCount)) := by
    intro n hn
    induction n with
    | zero => exact .start
    | succ n ih =>
      rw [List.range_succ, List.foldl_append, List.foldl_cons, List.foldl_nil]
      exact (ih (Nat.le_of_succ_le hn)).step hM hn
  exact hfold M.typeCount le_rfl

end

/-! ## Results -/

section
variable {mix : UInt64 → UInt64 → UInt64} {M M₀ : LinkModule} {entries : List RecType}

theorem buildTypeMetadata_eq (h : buildTypeMetadata mix M₀ = some M) :
    (∀ i < M₀.typeCount, checkSupertype { M₀ with canonicalMap := buildCanonicalMap M₀ mix } i = true) ∧
      M = { M₀ with
        canonicalMap := buildCanonicalMap M₀ mix
        reprs := (buildReprs { M₀ with canonicalMap := buildCanonicalMap M₀ mix }).1 } := by
  simp only [buildTypeMetadata] at h
  split_ifs at h with hall
  cases h
  exact ⟨by simpa using hall, rfl⟩

/-- what the parser and the metadata establish of the module -/
theorem parseTypeSection_spec (h : parseTypeSection mix entries = some M) :
    M.Grouped ∧ CanonMap M M.typeCount M.canonicalMap ∧ (∀ i < M.typeCount, checkSupertype M i = true) ∧
      M.reprs = (buildReprs M).1 ∧ M.functionTypeIndices = [] := by
  obtain ⟨M₀, hM₀, hfuncs, hbuild⟩ := parseTypeSection_eq h
  obtain ⟨hcheck, rfl⟩ := buildTypeMetadata_eq hbuild
  obtain ⟨h1, h2, h3, h4⟩ := buildCanonicalMap_spec mix hM₀
  exact ⟨⟨hM₀.1, hM₀.2, hM₀.3, hM₀.4, hM₀.5, hM₀.6, hM₀.7, hM₀.8⟩, ⟨h1, h2, h3, h4⟩, hcheck, rfl, hfuncs⟩

theorem CanonMap.canon_eq (M : LinkModule) (u : Nat) : mapAt M.canonicalMap u = M.canon u := rfl

/-- the group of a type and the group of its canonical form -/
theorem CanonMap.canon_group (hM : M.Grouped) (h : CanonMap M M.typeCount M.canonicalMap) {i : Nat}
    (hi : i < M.typeCount) : ∃ c ≤ (M.recGroup i).1, M.canon i = c + (i - (M.recGroup i).1) ∧
      M.recGroup (M.canon i) = (c, (M.recGroup i).2) ∧ ∀ k < (M.recGroup i).2, M.canon (c + k) = c + k := by
  obtain ⟨c, hle, hsc, hsize, hk⟩ := h.groups _ (hM.start_lt hi) (by rw [hM.start_start hi])
  rw [hM.start_start hi] at hsize hk
  have hcanon := (hk _ (hM.offset_lt hi)).1
  rw [hM.start_add_offset hi, canon_eq] at hcanon
  refine ⟨c, hle, hcanon, ?_, fun k hlt => (hk k hlt).2⟩
  have hmem := (hM.member (hle.trans_lt (hM.start_lt hi)) hsc (hsize ▸ hM.offset_lt hi)).2
  rw [hcanon, hmem]
  exact Prod.ext hsc.symm hsize

/-- **Canonicalization is exact.** Two types of a section that is accepted have one canonical index if and only if they
are the same; the map is idempotent, maps whole groups to whole groups position by position, and never to a larger
index. This holds whatever the hashes are. -/
theorem canonicalization_exact (h : parseTypeSection mix entries = some M) :
    (∀ i < M.typeCount, ∀ j < M.typeCount, M.canon i = M.canon j ↔ IsoEq M i j) ∧
    (∀ i < M.typeCount, M.canon (M.canon i) = M.canon i) ∧
    (∀ i < M.typeCount, i = (M.recGroup i).1 → ∃ j, j = (M.recGroup j).1 ∧ (M.recGroup j).2 = (M.recGroup i).2 ∧
      ∀ k < (M.recGroup i).2, M.canon (i + k) = j + k) ∧
    ∀ i < M.typeCount, M.canon i ≤ i := by
  obtain ⟨hM, hmap, -⟩ := parseTypeSection_spec h
  refine ⟨fun i hi j hj => ?_, fun i hi => ?_, fun i hi hsi => ?_, fun i _ => hmap.le hM i⟩
  · exact hmap.exact i hi j hj (hM.start_lt hi) (hM.start_lt hj)
  · obtain ⟨c, -, hcanon, -, hk⟩ := hmap.canon_group hM hi
    rw [hcanon]
    exact hk _ (hM.offset_lt hi)
  · obtain ⟨j, -, hsj, hsize, hk⟩ := hmap.groups i hi hsi
    exact ⟨j, hsj, hsize, fun k hlt => (hk k hlt).1⟩

/-- a struct with a field of the type itself, declared twice and once mutable, with a function of it -/
def linkedStructs : List RecType :=
  let node (i : Nat) (mutable : Bool) : SubTypeEntry :=
    { isFinal := false, comp := .struct [(⟨.ref true (.idx i), by simp⟩, mutable)] }
  [.single (node 0 false), .group [node 1 false], .single (node 2 true),
    .single { comp := .func [⟨.ref false (.idx 1), by simp⟩] [] }]

theorem canonicalization_exact_structs : ∃ M, parseTypeSection recGroupHashMix linkedStructs = some M ∧
    M.canonicalMap = [0, 0, 2, 3] ∧ ∀ i < M.typeCount, ∀ j < M.typeCount, M.canon i = M.canon j ↔ IsoEq M i j :=
  ⟨_, rfl, rfl, (canonicalization_exact (show parseTypeSection recGroupHashMix linkedStructs = some _ from rfl)).1⟩

/-- every entry of the representations is a struct or array type of the module -/
theorem buildReprs_kind {p : ReprType × Nat} (hp : p ∈ (buildReprs M).1) : p.2 < M.typeCount ∧
    (M.typeDef p.2).kind = match p.1 with | .struct => .struct | .array => .array := by
  have hfold : ∀ n ≤ M.typeCount, ∀ p ∈ ((List.range n).foldl (allocRepr M)
      ([], List.replicate M.typeCount reprNone)).1, p.2 < n ∧
        (M.typeDef p.2).kind = match p.1 with | .struct => .struct | .array => .array := by
    intro n hn
    induction n with
    | zero => simp
    | succ n ih =>
      have ih := ih (Nat.le_of_succ_le hn)
      rw [List.range_succ, List.foldl_append, List.foldl_cons, List.foldl_nil]
      generalize (List.range n).foldl (allocRepr M) ([], List.replicate M.typeCount reprNone) = acc at ih
      intro p hp
      have hold : p ∈ acc.1 → p.2 < n + 1 ∧
          (M.typeDef p.2).kind = match p.1 with | .struct => .struct | .array => .array :=
        fun hp => ⟨Nat.lt_succ_of_lt (ih p hp).1, (ih p hp).2⟩
      unfold allocRepr at hp
      cases hkind : (M.typeDef n).kind <;> simp only [hkind, List.mem_append, List.mem_singleton] at hp
      · exact hold hp
      · rcases hp with hp | rfl
        · exact hold hp
        · exact ⟨Nat.lt_succ_self n, hkind⟩
      · rcases hp with hp | rfl
        · exact hold hp
        · exact ⟨Nat.lt_succ_self n, hkind⟩
  exact hfold M.typeCount le_rfl p hp

/-- **The types of a section that is accepted are well formed**, as the checks across modules rely on. -/
theorem parsed_wellFormed (h : parseTypeSection mix entries = some M) : M.WellFormed := by
  obtain ⟨hM, hmap, hcheck, hreprs, hfuncs⟩ := parseTypeSection_spec h
  obtain ⟨hexact, hidem, -, hle⟩ := canonicalization_exact h
  refine ⟨hmap.length.le, hle, fun i hi hcanon => ?_, hidem, fun i hi => ?_, fun i hi k hk => ?_, hM.group_self,
    hM.group_end, hM.group_members, hM.refs_below, hM.no_bot, hM.super_kind, fun i hi j hj hkind => ?_, ?_, hM.paired, ?_⟩
  · obtain ⟨c, -, hc, -, hk⟩ := hmap.canon_group hM hi
    have hstart := hM.start_add_offset hi
    obtain rfl : (M.recGroup i).1 = c := by omega
    exact hk
  · obtain ⟨c, -, hc, hgroup, -⟩ := hmap.canon_group hM hi
    rw [hgroup, hc]
    exact ⟨rfl, by omega⟩
  · obtain ⟨c, hcs, hc, hgroup, hck⟩ := hmap.canon_group hM hi
    have hlt : M.canon i < M.typeCount := (hle i hi).trans_lt hi
    have hiso : IsoEq M (M.recGroup i).1 (M.recGroup (M.canon i)).1 :=
      ((hexact i hi _ hlt).1 (hidem i hi).symm).member hM hi hlt (hM.size_pos hi)
    have hstart := hM.start_lt hi
    have hsizes : (M.recGroup (M.recGroup i).1).2 = (M.recGroup (M.recGroup (M.canon i)).1).2 := by
      rw [hM.start_start hi, hM.start_start hlt, hgroup]
    have hequal := (hmap.groupsEqual_iff hM hstart (hM.start_lt hlt) (by rw [hM.start_start hi])
      (by rw [hM.start_start hlt]) hsizes hstart.le (hM.start_lt hlt).le).2 hiso
    have hall : ∀ m < (M.recGroup (M.recGroup i).1).2,
        typesStructurallyEqual M ((M.recGroup i).1 + m) ((M.recGroup (M.canon i)).1 + m) = true := by
      simpa [groupsEqual] using hequal
    exact hall k (by rwa [hM.start_start hi])
  · have hc := hcheck i hi
    simp only [checkSupertype, hj, Option.all_some, supertypeFits, hkind] at hc
    exact hc
  · rw [hreprs]
    exact fun p hp => buildReprs_kind hp
  · simp [hfuncs]

end

end Wah
