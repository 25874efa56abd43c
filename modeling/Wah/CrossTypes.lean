/-
Equality of types across modules, with its table of equal groups and its allocations.

Model:
- the recursion of the check is that of `GroupMemo`, which is over any memo of equal groups: with the table of
  `TypeEqMemo` it is the check of the source (`typeRefEqOom`), and with `noMemo` it is the same recursion without a memo;
- types are equal when they are the same type (`SameType`, identity of iso-recursive types) with the same nullability;
- a chain of rec groups goes from a group to one that it mentions (`ChainsWithin`).

Results, for modules as the parser leaves them:
- `type_ref_eq_decides`: the check is sound, it is complete for chains up to the recursion limit when no allocation
  fails, up to there the memo does not matter, and the order of the sides never does;
- `type_ref_eq_needs_memo`: beyond the limit the memo matters.
-/
import Wah.TypeEqMemo
import Wah.Canonical
import Wah.TypeMeaning

namespace Wah

/-! ## The check with other memos -/

/-- no memo: nothing is recorded -/
def noMemo : GroupMemo Unit := ⟨fun _ _ => false, fun _ s => (true, s)⟩

/-- the table of the source, with allocations that may fail -/
def tableMemo (grants : Nat → Bool) : GroupMemo TypeEqMemo := ⟨TypeEqMemo.has, TypeEqMemo.add grants⟩

/-- `wah_cross_module_type_ref_eq_oom`: the answer and what is left in `oom` -/
def typeRefEqOom (grants : Nat → Bool) (P : ModulePair) (ta tb : Ty) : Bool × Bool :=
  let r := (tableMemo grants).typeRefEq P ta tb {}
  (r.1, r.2.oom)

/-- the same recursion without the memo -/
def typeRefEqPlain (P : ModulePair) (ta tb : Ty) : Bool := (noMemo.typeRefEq P ta tb ()).1

/-! ## Modules and chains of groups -/

/-- a module whose type section is accepted; `wah_type_section_ensure_capacity` bounds the number of types -/
structure LinkModule.Parsed (M : LinkModule) : Prop where
  accepted : ∃ mix entries, parseTypeSection mix entries = some M
  capacity : M.typeCount ≤ maxTypeIndex + 1

section
variable (modules : ModuleId → LinkModule)

/-- a type of another group that the group of `x` mentions -/
def GroupRef (x y : TypeNode) : Prop := x.1 = y.1 ∧ (modules x.1).Mentions ((modules x.1).recGroup x.2) y.2

/-- every chain of rec groups from that of `x` on has at most `n` groups -/
def ChainsWithin (n : Nat) (x : TypeNode) : Prop :=
  ∀ l : List TypeNode, List.IsChain (GroupRef modules) (x :: l) → (x :: l).length ≤ n

variable {modules} {n : Nat} {x y : TypeNode}

theorem not_chainsWithin_zero (x : TypeNode) : ¬ ChainsWithin modules 0 x := by
  intro h
  have hle := h [] (List.isChain_singleton x)
  simp at hle

theorem ChainsWithin.next (h : ChainsWithin modules (n + 1) x) (hxy : GroupRef modules x y) :
    ChainsWithin modules n y := by
  intro l hl
  have hle := h (y :: l) (List.isChain_cons_cons.2 ⟨hxy, hl⟩)
  rw [List.length_cons] at hle
  exact Nat.le_of_succ_le_succ hle

/-- definitions that match mention types that match -/
theorem DefMatch.mention {T : Ty → Ty → Prop} {d d' : TypeDef} {f f' : Bool} (h : DefMatch T d d' f f') {t' : Ty}
    (ht' : t' ∈ d'.types) : ∃ t ∈ d.types, T t t' := by
  have hlist : ∀ {as bs : List Ty}, List.Forall₂ T as bs → t' ∈ bs → ∃ t ∈ as, T t t' := by
    intro as bs hab hmem
    induction hab with
    | nil => cases hmem
    | cons hT _ ih =>
      rcases List.mem_cons.1 hmem with rfl | hmem
      · exact ⟨_, by simp, hT⟩
      · obtain ⟨t, ht, hT⟩ := ih hmem
        exact ⟨t, by simp [ht], hT⟩
  rcases List.mem_append.1 ht' with hsuper | hrest
  · have hs := h.supertype
    cases hd' : d'.supertype with
    | none => simp [hd'] at hsuper
    | some b =>
      rw [hd'] at hs
      cases hd : d.supertype with
      | none => simp [hd] at hs
      | some a =>
        simp only [hd, Option.rel_some_some] at hs
        obtain rfl : t' = .ofIdx b := by simpa [hd'] using hsuper
        exact ⟨.ofIdx a, by simp [TypeDef.types, hd], hs⟩
  · by_cases hk : d.kind = .func
    · rw [if_pos (h.kind ▸ hk)] at hrest
      rcases List.mem_append.1 hrest with hp | hr
      · obtain ⟨t, ht, hT⟩ := hlist (h.params hk) hp
        exact ⟨t, by simp [TypeDef.types, hk, ht], hT⟩
      · obtain ⟨t, ht, hT⟩ := hlist (h.results hk) hr
        exact ⟨t, by simp [TypeDef.types, hk, ht], hT⟩
    · rw [if_neg (h.kind ▸ hk)] at hrest
      obtain ⟨t, ht, hT⟩ := hlist (h.fields hk) hrest
      exact ⟨t, by simp [TypeDef.types, hk, ht], hT⟩

/-- what a type mentions outside its group, a type that is the same mentions too -/
theorem GroupRef.of_same {y' : TypeNode} (h : SameType modules x y) (hy : GroupRef modules y y') :
    ∃ x', GroupRef modules x x' ∧ SameType modules x' y' := by
  obtain ⟨my, w⟩ := y'
  obtain ⟨rfl, hout, k, hk, t', ht', hidx⟩ := hy
  obtain ⟨hsize, -, hdefs⟩ := h.rel
  obtain ⟨t, ht, hmatch⟩ := (hdefs k (hsize ▸ hk)).mention ht'
  cases hmatch with
  | idx hρ =>
    rename_i u v
    obtain rfl : v = w := by simpa [Ty.typeIdx] using hidx
    rcases hρ with ⟨-, hin, -⟩ | ⟨hu, -, hsame⟩
    · exact absurd hin hout
    · exact ⟨(x.1, u), ⟨rfl, hu, k, hsize ▸ hk, _, ht, rfl⟩, hsame⟩
  | other hnone => simp [hnone] at hidx

/-- chains from types that are the same are equally long -/
theorem ChainsWithin.of_same (h : SameType modules x y) (hx : ChainsWithin modules n x) : ChainsWithin modules n y := by
  intro l hl
  induction l generalizing n x y with
  | nil => exact hx [] (List.isChain_singleton x)
  | cons y' l ih =>
    obtain ⟨hyy', hl'⟩ := List.isChain_cons_cons.1 hl
    obtain ⟨x', hxx', hsame⟩ := GroupRef.of_same h hyy'
    obtain _ | n := n
    · exact absurd hx (not_chainsWithin_zero x)
    · exact Nat.succ_le_succ (ih hsame (hx.next hxx') hl')

end

/-! ## What the parser gives -/

namespace LinkModule.Parsed
variable {M : LinkModule} (hM : M.Parsed)
include hM

theorem wellFormed : M.WellFormed := by
  obtain ⟨mix, entries, h⟩ := hM.accepted
  exact parsed_wellFormed h

/-- types of one module that are the same have one canonical index -/
theorem canon_eq_of_same {modules : ModuleId → LinkModule} {m : ModuleId} (hm : modules m = M) {i j : Nat}
    (hi : i < M.typeCount) (hj : j < M.typeCount) (h : SameType modules (m, i) (m, j)) : M.canon i = M.canon j := by
  obtain ⟨mix, entries, hparse⟩ := hM.accepted
  refine ((canonicalization_exact hparse).1 i hi j hj).2 ?_
  refine ⟨fun x y => SameType modules (m, x.2) (m, y.2), fun x y hxy => ?_, h⟩
  have hrel := hxy.rel
  simp only [typeRelator, hm] at hrel
  exact hrel

end LinkModule.Parsed

/-! ## Memos that keep equal groups -/

section
variable (modules : ModuleId → LinkModule) (ma mb : ModuleId)

/-- two canonical groups, given by their start indices, that are the same; another type may still mention the first -/
structure EqualGroups (p : Nat × Nat) : Prop where
  notLast : p.1 + 1 < (modules ma).typeCount
  left : CanonGroup (modules ma) ((modules ma).recGroup p.1)
  leftStart : ((modules ma).recGroup p.1).1 = p.1
  right : CanonGroup (modules mb) ((modules mb).recGroup p.2)
  rightStart : ((modules mb).recGroup p.2).1 = p.2
  size : ((modules ma).recGroup p.1).2 = ((modules mb).recGroup p.2).2
  same : SameGroup modules ma mb ((modules ma).recGroup p.1) ((modules mb).recGroup p.2)

/-- a memo that only answers with equal groups when it is in `I`, stays in `I` when they are recorded, and never fails
to record them under `total` -/
structure GroupMemo.Keeps {σ : Type} (memo : GroupMemo σ) (I : σ → Prop) (total : Prop) : Prop where
  has_sound : ∀ p s, Keyable p → I s → memo.has p s = true → EqualGroups modules ma mb p
  add_keeps : ∀ p s s', EqualGroups modules ma mb p → I s → memo.add p s = (true, s') → I s'
  add_ok : total → ∀ p s, EqualGroups modules ma mb p → I s → (memo.add p s).1 = true

theorem noMemo_keeps : noMemo.Keeps modules ma mb (fun _ => True) True where
  has_sound _ _ _ _ h := by simp [noMemo] at h
  add_keeps _ _ _ _ _ _ := trivial
  add_ok _ _ _ _ _ := rfl

/-- the table holds equal groups only -/
def TypeEqMemo.Sound (m : TypeEqMemo) : Prop :=
  ∃ a : PairMemo, m.Stores a ∧ a.pairs.Nodup ∧ ∀ p ∈ a.pairs, EqualGroups modules ma mb p

variable {modules ma mb}

theorem keyable_of_lt (hP : ∀ m, (modules m).Parsed) {p : Nat × Nat} (ha : p.1 < (modules ma).typeCount)
    (hb : p.2 < (modules mb).typeCount) : Keyable p :=
  ⟨Nat.le_of_lt_succ (ha.trans_le (hP ma).capacity), Nat.le_of_lt_succ (hb.trans_le (hP mb).capacity)⟩

theorem EqualGroups.lt (hP : ∀ m, (modules m).Parsed) {p : Nat × Nat} (h : EqualGroups modules ma mb p) :
    p.1 < (modules ma).typeCount ∧ p.2 < (modules mb).typeCount :=
  ⟨Nat.lt_of_succ_lt h.notLast, h.rightStart ▸ h.right.start_lt (hP mb).wellFormed⟩

/-- a group is the same as one canonical group of the other module at most -/
theorem EqualGroups.right_eq (hP : ∀ m, (modules m).Parsed) {p q : Nat × Nat} (hp : EqualGroups modules ma mb p)
    (hq : EqualGroups modules ma mb q) (h : p.1 = q.1) : p.2 = q.2 := by
  have hsame : ∀ {r : Nat × Nat}, EqualGroups modules ma mb r → SameType modules (ma, r.1) (mb, r.2) ∧
      (modules mb).canon r.2 = r.2 := by
    intro r hr
    have hpos := (hr.left.start_canon (hP ma).wellFormed).1
    have hfirst := hr.same 0 hpos
    rw [hr.leftStart, hr.rightStart] at hfirst
    have hcanon := (hr.right.start_canon (hP mb).wellFormed).2.2
    rw [hr.rightStart] at hcanon
    exact ⟨hfirst, hcanon⟩
  obtain ⟨hps, hpc⟩ := hsame hp
  obtain ⟨hqs, hqc⟩ := hsame hq
  have hpq : SameType modules (mb, p.2) (mb, q.2) := (Relator.Bisimilar.symm hps).trans (h ▸ hqs)
  have hcanon := (hP mb).canon_eq_of_same rfl (hp.lt hP).2 (hq.lt hP).2 hpq
  rw [← hpc, hcanon, hqc]

/-- the table never holds more pairs than the module has types that are not the last -/
theorem pairs_length_lt (hP : ∀ m, (modules m).Parsed) {pairs : List (Nat × Nat)} (hnodup : pairs.Nodup)
    (hpairs : ∀ p ∈ pairs, EqualGroups modules ma mb p) : pairs.length ≤ maxTypeIndex := by
  have hfirsts : (pairs.map Prod.fst).Nodup := by
    apply List.Nodup.map_on _ hnodup
    intro p hp q hq hpq
    exact Prod.ext hpq ((hpairs p hp).right_eq hP (hpairs q hq) hpq)
  have hsub : pairs.map Prod.fst ⊆ List.range maxTypeIndex := by
    intro i hi
    obtain ⟨p, hp, rfl⟩ := List.mem_map.1 hi
    have hlast := (hpairs p hp).notLast
    have hcap := (hP ma).capacity
    exact List.mem_range.2 (by omega)
  calc pairs.length
      = (pairs.map Prod.fst).length := (List.length_map _).symm
    _ ≤ (List.range maxTypeIndex).length := (List.subperm_of_subset hfirsts hsub).length_le
    _ = maxTypeIndex := List.length_range

/-- recording that succeeds records the pair -/
theorem PairMemo.add_true {grants : Nat → Bool} {p : Nat × Nat} {a : PairMemo} (h : (a.add grants p).1 = true) :
    (a.add grants p).2.pairs = (a.record p).pairs := by
  have hrecord : ∀ cap requests, (record p { a with cap := cap, requests := requests }).pairs =
      (a.record p).pairs := by
    intro cap requests
    rw [record_pairs, record_pairs]
  unfold add at h ⊢
  split_ifs at h ⊢ with hfull hwrap hgrant
  · exact hrecord _ _
  · rfl

/-- with all allocations granted, recording fails only at 2^30 pairs -/
theorem PairMemo.add_ok {grants : Nat → Bool} {p : Nat × Nat} {a : PairMemo} (hgrants : ∀ n, grants n = true)
    (hcap : a.cap = 0 ∨ ∃ k ≤ 31, a.cap = 2 ^ k) (hlen : a.pairs.length ≤ maxTypeIndex) :
    (a.add grants p).1 = true := by
  unfold add
  split_ifs with hfull hwrap hgrant
  · unfold maxTypeIndex at hlen
    rcases hcap with hcap | ⟨k, hk, hcap⟩
    · omega
    · have hlt : a.cap < 2 ^ 31 := by omega
      rw [hcap] at hlt hwrap
      have hk31 : k < 31 := (Nat.pow_lt_pow_iff_right (by norm_num)).1 hlt
      unfold TypeEqMemo.nextCap at hwrap
      rw [if_pos (by positivity), ← pow_succ, Nat.mod_eq_of_lt] at hwrap
      · rw [pow_succ] at hwrap
        omega
      · have hle : 2 ^ (k + 1) ≤ 2 ^ 31 := Nat.pow_le_pow_right (by norm_num) (by omega)
        omega
  · rfl
  · exact absurd (hgrants _) hgrant
  · rfl

/-- the table keeps equal groups -/
theorem tableMemo_keeps (hP : ∀ m, (modules m).Parsed) (grants : Nat → Bool) :
    (tableMemo grants).Keeps modules ma mb (TypeEqMemo.Sound modules ma mb) (∀ n, grants n = true) where
  has_sound p s hp hs h := by
    obtain ⟨a, hstores, -, hpairs⟩ := hs
    have hmem : a.has p = true := (hstores.has_eq hp).symm.trans h
    exact hpairs p (PairMemo.has_iff.1 hmem)
  add_keeps p s s' hp hs h := by
    obtain ⟨a, hstores, hnodup, hpairs⟩ := hs
    obtain ⟨hans, hstores'⟩ := hstores.add (keyable_of_lt hP (hp.lt hP).1 (hp.lt hP).2) grants
    have hs' : (s.add grants p).2 = s' := congrArg Prod.snd h
    have htrue : (a.add grants p).1 = true := hans.symm.trans (congrArg Prod.fst h)
    refine ⟨(a.add grants p).2, hs' ▸ hstores', ?_, ?_⟩
    · rw [PairMemo.add_true htrue, PairMemo.record_pairs]
      split_ifs with hmem
      · exact hnodup
      · exact List.nodup_cons.2 ⟨hmem, hnodup⟩
    · rw [PairMemo.add_true htrue, PairMemo.record_pairs]
      split_ifs with hmem
      · exact hpairs
      · intro q hq
        rcases List.mem_cons.1 hq with rfl | hq
        · exact hp
        · exact hpairs q hq
  add_ok hgrants p s hp hs := by
    obtain ⟨a, hstores, hnodup, hpairs⟩ := hs
    obtain ⟨hans, -⟩ := hstores.add (keyable_of_lt hP (hp.lt hP).1 (hp.lt hP).2) grants
    exact hans.trans (PairMemo.add_ok hgrants hstores.cap (pairs_length_lt hP hnodup hpairs))

end

/-! ## The recursion decides equality -/

section
variable {modules : ModuleId → LinkModule} (hP : ∀ m, (modules m).Parsed) {ma mb : ModuleId} {σ : Type}
  {memo : GroupMemo σ} {I : σ → Prop} {total : Prop} (hkeeps : memo.Keeps modules ma mb I total)

include hP

/-- types with canonical forms that are the same, and the converse -/
theorem sameType_canon_iff {u v : Nat} (hu : u < (modules ma).typeCount) (hv : v < (modules mb).typeCount) :
    SameType modules (ma, (modules ma).canon u) (mb, (modules mb).canon v) ↔ SameType modules (ma, u) (mb, v) := by
  have hW : WellFormedModules modules := fun m => (hP m).wellFormed
  refine ⟨sameType_of_canon_sameType hW hu hv, fun h => ?_⟩
  exact ((Relator.Bisimilar.symm (sameType_canon hW hu)).trans h).trans (sameType_canon hW hv)

/-- two canonical types are the same when they are at equal offsets of groups that are the same -/
theorem sameType_iff_sameGroup {ga gb : Nat × Nat} {ca cb : Nat} (hga : (modules ma).recGroup ca = ga)
    (hgb : (modules mb).recGroup cb = gb) (hca : ca < (modules ma).typeCount) (hcb : cb < (modules mb).typeCount)
    (hsize : ga.2 = gb.2) (hoff : ca - ga.1 = cb - gb.1) :
    SameGroup modules ma mb ga gb ↔ SameType modules (ma, ca) (mb, cb) := by
  have hW : WellFormedModules modules := fun m => (hP m).wellFormed
  subst hga hgb
  constructor
  · intro h
    exact h.sameType ((hW ma).group_self ca hca) ((hW mb).group_self cb hcb) hoff
  · intro h k hk
    exact h.member hW hca hcb hk

/-- the canonical groups of types that are the same -/
theorem equalGroups_of_same {u v : Nat} (hu : u + 1 < (modules ma).typeCount) (hv : v < (modules mb).typeCount)
    (h : SameType modules (ma, u) (mb, v)) : EqualGroups modules ma mb
      (((modules ma).recGroup ((modules ma).canon u)).1, ((modules mb).recGroup ((modules mb).canon v)).1) := by
  have hWa := (hP ma).wellFormed
  have hWb := (hP mb).wellFormed
  have hu' := Nat.lt_of_succ_lt hu
  have hsame := (sameType_canon_iff hP hu' hv).2 h
  have hcau : (modules ma).canon u ≤ u := hWa.canon_le_self u
  obtain ⟨hga, hina⟩ := canonGroup_of_lt hWa hu'
  obtain ⟨hgb, -⟩ := canonGroup_of_lt hWb hv
  obtain ⟨hsize, hoff, -⟩ := hsame.rel
  have hgroups := (sameType_iff_sameGroup hP rfl rfl (hWa.canon_lt hu') (hWb.canon_lt hv) hsize hoff).2 hsame
  have hstarta := (hga.start_canon hWa).2.1
  have hstartb := (hgb.start_canon hWb).2.1
  exact
    { notLast := (Nat.succ_le_succ (hina.1.trans hcau)).trans_lt hu
      left := by rwa [hstarta]
      leftStart := by rw [hstarta]
      right := by rwa [hstartb]
      rightStart := by rw [hstartb]
      size := by rwa [hstarta, hstartb]
      same := by rwa [hstarta, hstartb] }

include hkeeps

/-- the comparison of two external types decides whether they are the same, when chains from them are not too long -/
theorem externalRef_decides (fuel : Nat) {u v : Nat} (hu : u + 1 < (modules ma).typeCount)
    (hv : v < (modules mb).typeCount) :
    Decides I (total ∧ ChainsWithin modules fuel (ma, u))
      (memo.externalRef (pairOf modules ma mb) ((modules ma).canon u) ((modules mb).canon v) fuel)
      (SameType modules (ma, u) (mb, v)) := by
  have hW : WellFormedModules modules := fun m => (hP m).wellFormed
  induction fuel generalizing u v with
  | zero => exact fun s hs => ⟨fun s' hf => by simp [GroupMemo.externalRef, plainCheck] at hf,
      fun hC _ => absurd hC.2 (not_chainsWithin_zero _)⟩
  | succ fuel ih =>
    have hu' := Nat.lt_of_succ_lt hu
    have hca : (modules ma).canon u < (modules ma).typeCount := (hW ma).canon_lt hu'
    have hcb : (modules mb).canon v < (modules mb).typeCount := (hW mb).canon_lt hv
    have hcau : (modules ma).canon u ≤ u := (hW ma).canon_le_self u
    obtain ⟨hga, hina⟩ := canonGroup_of_lt (hW ma) hu'
    obtain ⟨hgb, hinb⟩ := canonGroup_of_lt (hW mb) hv
    have hsame := sameType_canon_iff hP hu' hv
    intro s hs
    rw [memo.externalRef_succ]
    generalize hda : (modules ma).recGroup ((modules ma).canon u) = ga at hga hina ⊢
    generalize hdb : (modules mb).recGroup ((modules mb).canon v) = gb at hgb hinb ⊢
    obtain ⟨hposa, hstarta, -⟩ := hga.start_canon (hW ma)
    obtain ⟨-, hstartb, -⟩ := hgb.start_canon (hW mb)
    have hkey : Keyable (ga.1, gb.1) := keyable_of_lt hP (hga.start_lt (hW ma)) (hgb.start_lt (hW mb))
    unfold GroupMemo.externalEq
    split_ifs with hsize hoff hhas
    · refine ⟨fun s' hf => by simp at hf, fun _ hq => ?_⟩
      have hrel := (hsame.2 hq).rel.1
      simp only [hda, hdb] at hrel
      exact absurd hrel hsize
    · refine ⟨fun s' hf => by simp at hf, fun _ hq => ?_⟩
      have hrel := (hsame.2 hq).rel.2.1
      simp only [hda, hdb] at hrel
      exact absurd hrel hoff
    · have hequal := hkeeps.has_sound _ s hkey hs hhas
      refine ⟨fun s' hc => ?_, fun _ _ => rfl⟩
      obtain ⟨-, rfl⟩ := Prod.mk.inj hc
      have hgroup := hequal.same
      simp only [hstarta, hstartb] at hgroup
      exact ⟨hs, hsame.1 (hgroup.sameType hina hinb (not_not.1 hoff))⟩
    · have hsize := not_not.1 hsize
      have hoff := not_not.1 hoff
      have hgroup := recGroupEq_decides (I := I) (C := total ∧ ChainsWithin modules (fuel + 1) (ma, u)) hW hga hgb
        fun ta tb hta htb => refInRecgroup_decides hW memo fuel hga hgb hta htb fun w z hw hz hmention =>
          (ih hw hz).weaken fun hC => ?_
      · obtain ⟨hsound, hcomplete⟩ := hgroup s hs
        have hiff := sameType_iff_sameGroup hP hda hdb hca hcb hsize hoff
        rcases hr : GroupMemo.recGroupEq (pairOf modules ma mb)
          (memo.refInRecgroup (pairOf modules ma mb) fuel ga gb) ga gb s with ⟨_ | _, s₁⟩
        · refine ⟨fun s' hf => by simp at hf, fun hC hq => ?_⟩
          have htrue := hcomplete hC ⟨hsize, hiff.2 (hsame.2 hq)⟩
          rw [hr] at htrue
          cases htrue
        · obtain ⟨hs₁, -, hgroups⟩ := hsound s₁ hr
          have hq := hsame.1 (hiff.1 hgroups)
          have hequal : EqualGroups modules ma mb (ga.1, gb.1) := by
            rw [← hda, ← hdb]
            exact equalGroups_of_same hP hu hv hq
          exact ⟨fun s' hadd => ⟨hkeeps.add_keeps _ s₁ s' hequal hs₁ hadd, hq⟩,
            fun hC _ => hkeeps.add_ok hC.1 _ s₁ hequal hs₁⟩
      · have hchains := hC.2.of_same (sameType_canon hW hu')
        have hstep : GroupRef modules (ma, (modules ma).canon u) (ma, w) := ⟨rfl, by rwa [hda]⟩
        exact ⟨hC.1, hchains.next hstep⟩

/-- the check of two types, from any memo in the invariant -/
theorem typeRefEq_decides (n n' : Bool) {u v : Nat} (hu : u < (modules ma).typeCount) (hv : v < (modules mb).typeCount) :
    Decides I (total ∧ ChainsWithin modules (maxTypeRecursionDepth + 1) (ma, u))
      (memo.typeRefEq (pairOf modules ma mb) (.ref n (.idx u)) (.ref n' (.idx v)))
      (n = n' ∧ SameType modules (ma, u) (mb, v)) := by
  have hW : WellFormedModules modules := fun m => (hP m).wellFormed
  have hca : (modules ma).canon u < (modules ma).typeCount := (hW ma).canon_lt hu
  have hcb : (modules mb).canon v < (modules mb).typeCount := (hW mb).canon_lt hv
  obtain ⟨hga, -⟩ := canonGroup_of_lt (hW ma) hu
  obtain ⟨hgb, -⟩ := canonGroup_of_lt (hW mb) hv
  have hsame := sameType_canon_iff hP hu hv
  intro s hs
  rw [memo.typeRefEq_idx]
  generalize hda : (modules ma).recGroup ((modules ma).canon u) = ga at hga ⊢
  generalize hdb : (modules mb).recGroup ((modules mb).canon v) = gb at hgb ⊢
  split_ifs with hn hcanon hsize hoff
  · exact ⟨fun s' hf => by simp at hf, fun _ hq => absurd hq.1 hn⟩
  · refine ⟨fun s' hc => ?_, fun _ _ => rfl⟩
    obtain ⟨-, rfl⟩ := Prod.mk.inj hc
    obtain ⟨hm, hcanon⟩ := hcanon
    obtain rfl : ma = mb := of_decide_eq_true hm
    exact ⟨hs, not_not.1 hn, sameType_of_canon hW hcanon⟩
  · refine ⟨fun s' hf => by simp at hf, fun _ hq => ?_⟩
    have hrel := (hsame.2 hq.2).rel.1
    simp only [hda, hdb] at hrel
    exact absurd hrel hsize
  · refine ⟨fun s' hf => by simp at hf, fun _ hq => ?_⟩
    have hrel := (hsame.2 hq.2).rel.2.1
    simp only [hda, hdb] at hrel
    exact absurd hrel hoff
  · have hsize := not_not.1 hsize
    have hiff := sameType_iff_sameGroup hP hda hdb hca hcb hsize (not_not.1 hoff)
    refine Decides.congr (recGroupEq_decides hW hga hgb fun ta tb hta htb =>
      refInRecgroup_decides hW memo maxTypeRecursionDepth hga hgb hta htb fun w z hw hz hmention =>
        (externalRef_decides hP hkeeps maxTypeRecursionDepth hw hz).weaken fun hC => ?_) ?_ s hs
    · have hchains := hC.2.of_same (sameType_canon hW hu)
      have href : GroupRef modules (ma, (modules ma).canon u) (ma, w) := ⟨rfl, by rwa [hda]⟩
      exact ⟨hC.1, hchains.next href⟩
    · rw [and_iff_right hsize, hiff, hsame, and_iff_right (not_not.1 hn)]

end

/-! ## The two sides -/

/-- two checks that answer alike from related memos, and leave related memos -/
def Mirrored {σ τ : Type} (R : σ → τ → Prop) (c : MemoCheck σ) (d : MemoCheck τ) : Prop :=
  ∀ s t, R s t → (c s).1 = (d t).1 ∧ R (c s).2 (d t).2

section
variable {σ τ : Type} {R : σ → τ → Prop} {refEq : Ty → Ty → MemoCheck σ} {refEq' : Ty → Ty → MemoCheck τ}

theorem Mirrored.plain {b b' : Bool} (h : b = b') : Mirrored R (plainCheck b) (plainCheck b') :=
  fun _ _ hR => ⟨h, hR⟩

theorem Mirrored.cons {c : MemoCheck σ} {d : MemoCheck τ} {cs : List (MemoCheck σ)} {ds : List (MemoCheck τ)}
    (h : Mirrored R c d) (h' : Mirrored R (allChecks cs) (allChecks ds)) :
    Mirrored R (allChecks (c :: cs)) (allChecks (d :: ds)) := by
  intro s t hR
  obtain ⟨hans, hR'⟩ := h s t hR
  rw [allChecks, allChecks]
  rcases hc : c s with ⟨b, s'⟩
  rcases hd : d t with ⟨b', t'⟩
  rw [hc, hd] at hans hR'
  obtain rfl : b = b' := hans
  cases b with
  | true => exact h' s' t' hR'
  | false => exact ⟨rfl, hR'⟩

theorem Mirrored.all {cs : List (MemoCheck σ)} {ds : List (MemoCheck τ)} (h : List.Forall₂ (Mirrored R) cs ds) :
    Mirrored R (allChecks cs) (allChecks ds) := by
  induction h with
  | nil => exact fun s t hR => ⟨rfl, hR⟩
  | cons hcd _ ih => exact hcd.cons ih

theorem Mirrored.flatMap {α : Type} {f : α → List (MemoCheck σ)} {g : α → List (MemoCheck τ)} (l : List α)
    (h : ∀ k ∈ l, Mirrored R (allChecks (f k)) (allChecks (g k))) :
    Mirrored R (allChecks (l.flatMap f)) (allChecks (l.flatMap g)) := by
  induction l with
  | nil => exact fun s t hR => ⟨rfl, hR⟩
  | cons k l ih =>
    rw [List.flatMap_cons, List.flatMap_cons, allChecks_append, allChecks_append]
    exact (h k (by simp)).cons (ih fun k' hk => h k' (by simp [hk]))

theorem mirrored_zipWith {as bs : List Ty} (h : ∀ a ∈ as, ∀ b ∈ bs, Mirrored R (refEq a b) (refEq' b a)) :
    List.Forall₂ (Mirrored R) (List.zipWith refEq as bs) (List.zipWith refEq' bs as) := by
  induction as generalizing bs with
  | nil => cases bs <;> exact .nil
  | cons a as ih =>
    cases bs with
    | nil => exact .nil
    | cons b bs =>
      exact .cons (h a (by simp) b (by simp)) (ih fun a' ha b' hb => h a' (by simp [ha]) b' (by simp [hb]))

theorem mirrored_fields {fa fb : List (Ty × Bool)}
    (h : ∀ x ∈ fa, ∀ y ∈ fb, Mirrored R (refEq x.1 y.1) (refEq' y.1 x.1)) :
    List.Forall₂ (Mirrored R) (fieldChecks refEq fa fb) (fieldChecks refEq' fb fa) := by
  unfold fieldChecks
  induction fa generalizing fb with
  | nil => cases fb <;> exact .nil
  | cons x fa ih =>
    cases fb with
    | nil => exact .nil
    | cons y fb =>
      have hmut : decide (x.2 = y.2) = decide (y.2 = x.2) := by simp [eq_comm]
      exact .cons (h x (by simp) y (by simp)) (.cons (.plain hmut)
        (ih fun x' hx y' hy => h x' (by simp [hx]) y' (by simp [hy])))

theorem mirrored_supertypes {d d' : TypeDef} (h : ∀ a ∈ d.types, ∀ b ∈ d'.types, Mirrored R (refEq a b) (refEq' b a)) :
    Mirrored R (supertypeCheck refEq d.supertype d'.supertype) (supertypeCheck refEq' d'.supertype d.supertype) := by
  cases ha : d.supertype with
  | none => cases hb : d'.supertype <;> exact .plain rfl
  | some a =>
    cases hb : d'.supertype with
    | none => exact .plain rfl
    | some b => exact h _ (by simp [TypeDef.types, ha]) _ (by simp [TypeDef.types, hb])

theorem mirrored_types {d d' : TypeDef} {f f' : Bool}
    (h : ∀ a ∈ d.types, ∀ b ∈ d'.types, Mirrored R (refEq a b) (refEq' b a)) :
    Mirrored R (allChecks (typeChecks refEq d d' f f')) (allChecks (typeChecks refEq' d' d f' f)) := by
  have hfinal : decide (f = f') = decide (f' = f) := by simp [eq_comm]
  by_cases hk : d.kind = d'.kind
  · have hkinds : decide (d.kind = d'.kind) = decide (d'.kind = d.kind) := by simp [eq_comm]
    unfold typeChecks
    refine Mirrored.all (.cons (.plain hkinds) (.cons (.plain hfinal) (.cons (mirrored_supertypes h) ?_)))
    by_cases hfunc : d.kind = .func
    · have hlens : (decide (d.func.params.length = d'.func.params.length) &&
          decide (d.func.results.length = d'.func.results.length)) =
          (decide (d'.func.params.length = d.func.params.length) &&
            decide (d'.func.results.length = d.func.results.length)) := by simp [eq_comm]
      rw [if_pos hfunc, if_pos (hk ▸ hfunc)]
      refine .cons (.plain hlens) (List.rel_append (mirrored_zipWith fun a ha b hb => ?_)
        (mirrored_zipWith fun a ha b hb => ?_))
      all_goals exact h a (by simp [TypeDef.types, hfunc, ha]) b (by simp [TypeDef.types, hk ▸ hfunc, hb])
    · have hlens : decide (d.fieldTypes.length = d'.fieldTypes.length) =
          decide (d'.fieldTypes.length = d.fieldTypes.length) := by simp [eq_comm]
      rw [if_neg hfunc, if_neg (hk ▸ hfunc)]
      refine .cons (.plain hlens) (mirrored_fields fun x hx y hy => ?_)
      exact h x.1 (by simp [TypeDef.types, hfunc, (List.of_mem_zip hx).1]) y.1
        (by simp [TypeDef.types, hk ▸ hfunc, (List.of_mem_zip hy).1])
  · have hk' : ¬ d'.kind = d.kind := fun h => hk h.symm
    intro s t hR
    simp [typeChecks, allChecks, plainCheck, hk, hk', hR]

/-- memos whose pairs are each other's the other way round, as far as the groups of two modules are concerned -/
structure GroupMemo.Mirror (memo : GroupMemo σ) (memo' : GroupMemo τ) (R : σ → τ → Prop) : Prop where
  has : ∀ p s t, Keyable p → R s t → memo.has p s = memo'.has p.swap t
  add : ∀ p, Keyable p → Mirrored R (memo.add p) (memo'.add p.swap)

end

section
variable {modules : ModuleId → LinkModule} (hP : ∀ m, (modules m).Parsed) {ma mb : ModuleId} {σ τ : Type}
  {memo : GroupMemo σ} {memo' : GroupMemo τ} {R : σ → τ → Prop}

theorem recGroupEq_mirrored {ga gb : Nat × Nat} {refEq : Ty → Ty → MemoCheck σ} {refEq' : Ty → Ty → MemoCheck τ}
    (href : ∀ ta tb, (modules ma).MemberType ga ta → (modules mb).MemberType gb tb →
      Mirrored R (refEq ta tb) (refEq' tb ta)) :
    Mirrored R (GroupMemo.recGroupEq (pairOf modules ma mb) refEq ga gb)
      (GroupMemo.recGroupEq (pairOf modules mb ma) refEq' gb ga) := by
  by_cases hsize : ga.2 = gb.2
  · by_cases hsame : ma = mb ∧ ga.1 = gb.1
    · obtain ⟨rfl, hstart⟩ := hsame
      intro s t hR
      simp [GroupMemo.recGroupEq, pairOf, hsize, hstart, hR]
    · have hsame' : ¬ (mb = ma ∧ gb.1 = ga.1) := fun h => hsame ⟨h.1.symm, h.2.symm⟩
      intro s t hR
      simp only [GroupMemo.recGroupEq, pairOf_a, pairOf_b, pairOf_same, hsize, hsame, hsame', ne_eq, not_true_eq_false,
        if_false]
      refine Mirrored.flatMap (List.range gb.2) (fun k hk => mirrored_types fun a ha b hb => ?_) s t hR
      exact href a b ⟨k, hsize ▸ List.mem_range.1 hk, ha⟩ ⟨k, List.mem_range.1 hk, hb⟩
  · have hsize' : ¬ gb.2 = ga.2 := fun h => hsize h.symm
    intro s t hR
    simp [GroupMemo.recGroupEq, hsize, hsize', hR]

theorem refInRecgroup_mirrored (fuel : Nat) {ga gb : Nat × Nat} {ta tb : Ty}
    (hext : ∀ u v, ta.typeIdx = some u → tb.typeIdx = some v →
      Mirrored R (memo.externalRef (pairOf modules ma mb) ((modules ma).canon u) ((modules mb).canon v) fuel)
        (memo'.externalRef (pairOf modules mb ma) ((modules mb).canon v) ((modules ma).canon u) fuel)) :
    Mirrored R (memo.refInRecgroup (pairOf modules ma mb) fuel ga gb ta tb)
      (memo'.refInRecgroup (pairOf modules mb ma) fuel gb ga tb ta) := by
  by_cases hidx : ∀ n u n' v, ta = .ref n (.idx u) → tb = .ref n' (.idx v) → False
  · rw [memo.refInRecgroup_other _ _ _ _ hidx,
      memo'.refInRecgroup_other _ _ _ _ fun n u n' v hb ha => hidx n' v n u ha hb]
    exact .plain (by simp [eq_comm])
  push Not at hidx
  obtain ⟨n, u, n', v, rfl, rfl, -⟩ := hidx
  have hexternal := hext u v rfl rfl
  intro s t hR
  rw [memo.refInRecgroup_idx, memo'.refInRecgroup_idx]
  generalize (modules ma).canon u = ca, (modules mb).canon v = cb at hexternal ⊢
  by_cases hn : n = n'
  · subst hn
    by_cases hina : inGroup ga ca <;> by_cases hinb : inGroup gb cb
    · simpa [hina, hinb] using ⟨by simp [eq_comm], hR⟩
    · simpa [hina, hinb] using hR
    · simpa [hina, hinb] using hR
    · by_cases hsame : ma = mb ∧ ca = cb
      · obtain ⟨rfl, rfl⟩ := hsame
        simpa [hina, hinb] using hR
      · have hsame' : ¬ (mb = ma ∧ cb = ca) := fun h => hsame ⟨h.1.symm, h.2.symm⟩
        simp only [hina, hinb, hsame, hsame', decide_eq_true_eq, ne_eq, not_true_eq_false, or_self, and_self, if_false]
        exact hexternal s t hR
  · have hn' : ¬ n' = n := fun h => hn h.symm
    simpa [hn, hn'] using hR

include hP

/-- the comparison of two external types, with the sides exchanged -/
theorem externalRef_mirrored (hmirror : memo.Mirror memo' R) (fuel : Nat) {u v : Nat}
    (hu : u < (modules ma).typeCount) (hv : v < (modules mb).typeCount) :
    Mirrored R (memo.externalRef (pairOf modules ma mb) ((modules ma).canon u) ((modules mb).canon v) fuel)
      (memo'.externalRef (pairOf modules mb ma) ((modules mb).canon v) ((modules ma).canon u) fuel) := by
  induction fuel generalizing u v with
  | zero => exact .plain rfl
  | succ fuel ih =>
    have hWa := (hP ma).wellFormed
    have hWb := (hP mb).wellFormed
    obtain ⟨hga, -⟩ := canonGroup_of_lt hWa hu
    obtain ⟨hgb, -⟩ := canonGroup_of_lt hWb hv
    rw [memo.externalRef_succ, memo'.externalRef_succ]
    generalize (modules ma).recGroup ((modules ma).canon u) = ga at hga ⊢
    generalize (modules mb).recGroup ((modules mb).canon v) = gb at hgb ⊢
    generalize (modules ma).canon u = ca, (modules mb).canon v = cb
    have hkey : Keyable (ga.1, gb.1) := keyable_of_lt hP (hga.start_lt hWa) (hgb.start_lt hWb)
    have hgroups : Mirrored R
        (GroupMemo.recGroupEq (pairOf modules ma mb) (memo.refInRecgroup (pairOf modules ma mb) fuel ga gb) ga gb)
        (GroupMemo.recGroupEq (pairOf modules mb ma) (memo'.refInRecgroup (pairOf modules mb ma) fuel gb ga) gb ga) := by
      apply recGroupEq_mirrored
      intro ta tb hta htb
      apply refInRecgroup_mirrored
      intro w z hw hz
      have hwlt : w < ga.1 + ga.2 := by simpa [Ty.idxBelow, hw] using hga.memberType_below hWa hta
      have hzlt : z < gb.1 + gb.2 := by simpa [Ty.idxBelow, hz] using hgb.memberType_below hWb htb
      exact ih (hga.lt hWa hwlt) (hgb.lt hWb hzlt)
    intro s t hR
    unfold GroupMemo.externalEq
    by_cases hsize : ga.2 = gb.2
    · by_cases hoff : ca - ga.1 = cb - gb.1
      · have hhas := hmirror.has _ s t hkey hR
        simp only [hsize, hoff, ne_eq, not_true_eq_false, if_false]
        rw [Prod.swap_prod_mk] at hhas
        rw [← hhas]
        split_ifs with hmem
        · exact ⟨rfl, hR⟩
        · obtain ⟨hans, hR'⟩ := hgroups s t hR
          rcases hc : GroupMemo.recGroupEq (pairOf modules ma mb)
            (memo.refInRecgroup (pairOf modules ma mb) fuel ga gb) ga gb s with ⟨b, s'⟩
          rcases hd : GroupMemo.recGroupEq (pairOf modules mb ma)
            (memo'.refInRecgroup (pairOf modules mb ma) fuel gb ga) gb ga t with ⟨b', t'⟩
          rw [hc, hd] at hans hR'
          obtain rfl : b = b' := hans
          cases b with
          | true => exact hmirror.add _ hkey s' t' hR'
          | false => exact ⟨rfl, hR'⟩
      · have hoff' : ¬ cb - gb.1 = ca - ga.1 := fun h => hoff h.symm
        simpa [hsize, hoff, hoff'] using hR
    · have hsize' : ¬ gb.2 = ga.2 := fun h => hsize h.symm
      simpa [hsize, hsize'] using hR

theorem typeRefEq_mirrored (hmirror : memo.Mirror memo' R) (n n' : Bool) {u v : Nat}
    (hu : u < (modules ma).typeCount) (hv : v < (modules mb).typeCount) :
    Mirrored R (memo.typeRefEq (pairOf modules ma mb) (.ref n (.idx u)) (.ref n' (.idx v)))
      (memo'.typeRefEq (pairOf modules mb ma) (.ref n' (.idx v)) (.ref n (.idx u))) := by
  have hWa := (hP ma).wellFormed
  have hWb := (hP mb).wellFormed
  obtain ⟨hga, -⟩ := canonGroup_of_lt hWa hu
  obtain ⟨hgb, -⟩ := canonGroup_of_lt hWb hv
  intro s t hR
  rw [memo.typeRefEq_idx, memo'.typeRefEq_idx]
  generalize (modules ma).recGroup ((modules ma).canon u) = ga at hga ⊢
  generalize (modules mb).recGroup ((modules mb).canon v) = gb at hgb ⊢
  generalize (modules ma).canon u = ca, (modules mb).canon v = cb
  by_cases hn : n = n'
  · subst hn
    by_cases hsame : ma = mb ∧ ca = cb
    · obtain ⟨rfl, rfl⟩ := hsame
      simpa using hR
    · have hsame' : ¬ (mb = ma ∧ cb = ca) := fun h => hsame ⟨h.1.symm, h.2.symm⟩
      by_cases hsize : ga.2 = gb.2
      · by_cases hoff : ca - ga.1 = cb - gb.1
        · simp only [hsame, hsame', hsize, hoff, decide_eq_true_eq, ne_eq, not_true_eq_false, if_false]
          apply recGroupEq_mirrored _ s t hR
          intro ta tb hta htb
          apply refInRecgroup_mirrored
          intro w z hw hz
          have hwlt : w < ga.1 + ga.2 := by simpa [Ty.idxBelow, hw] using hga.memberType_below hWa hta
          have hzlt : z < gb.1 + gb.2 := by simpa [Ty.idxBelow, hz] using hgb.memberType_below hWb htb
          exact externalRef_mirrored hP hmirror maxTypeRecursionDepth (hga.lt hWa hwlt) (hgb.lt hWb hzlt)
        · have hoff' : ¬ cb - gb.1 = ca - ga.1 := fun h => hoff h.symm
          simpa [hsame, hsame', hsize, hoff, hoff'] using hR
      · have hsize' : ¬ gb.2 = ga.2 := fun h => hsize h.symm
        simpa [hsame, hsame', hsize, hsize'] using hR
  · have hn' : ¬ n' = n := fun h => hn h.symm
    simpa [hn, hn'] using hR

/-- two tables with the same pairs, the other way round -/
def TypeEqMemo.Swapped (m m' : TypeEqMemo) : Prop := ∃ a : PairMemo, m.Stores a ∧ m'.Stores a.swap

omit hP in
theorem tableMemo_mirror (grants : Nat → Bool) : (tableMemo grants).Mirror (tableMemo grants) TypeEqMemo.Swapped where
  has p s t hp hR := by
    obtain ⟨a, hs, ht⟩ := hR
    calc s.has p
        = a.has p := hs.has_eq hp
      _ = a.swap.has p.swap := (PairMemo.has_swap p a).symm
      _ = t.has p.swap := (ht.has_eq hp.swap).symm
  add p hp s t hR := by
    obtain ⟨a, hs, ht⟩ := hR
    obtain ⟨hans, hs'⟩ := hs.add hp grants
    obtain ⟨hans', ht'⟩ := ht.add hp.swap grants
    rw [PairMemo.add_swap] at hans' ht'
    exact ⟨hans.trans hans'.symm, _, hs', ht'⟩

end

/-! ## Without a memo -/

theorem ChainsWithin.mono {modules : ModuleId → LinkModule} {m n : Nat} {x : TypeNode} (h : ChainsWithin modules m x)
    (hmn : m ≤ n) : ChainsWithin modules n x := fun l hl => (h l hl).trans hmn

theorem noMemo_has (p : Nat × Nat) (s : Unit) : noMemo.has p s = false := rfl

/-- a check without a memo decides whether it passes -/
theorem decides_unit {C : Prop} (c : MemoCheck Unit) : Decides (fun _ => True) C c ((c ()).1 = true) :=
  fun _ _ => ⟨fun _ hc => ⟨trivial, congrArg Prod.fst hc⟩, fun _ hq => hq⟩

section
variable {modules : ModuleId → LinkModule} (hP : ∀ m, (modules m).Parsed) {ma mb : ModuleId}
include hP

/-- groups of different modules that are compared with success: every type in them was -/
theorem recGroupEq_passed {ga gb : Nat × Nat} {refEq : Ty → Ty → MemoCheck Unit} (hm : ma ≠ mb)
    (h : (GroupMemo.recGroupEq (pairOf modules ma mb) refEq ga gb ()).1 = true) {t : Ty}
    (ht : (modules ma).MemberType ga t) : ∃ t', (refEq t t' ()).1 = true := by
  obtain ⟨k, hk, ht⟩ := ht
  have hall : Decides (fun _ => True) True _ _ := Decides.flatMap (List.range ga.2) fun k _ =>
    member_decides (fun m => (hP m).wellFormed) ma mb (ga.1 + k) (gb.1 + k) fun a _ b _ => decides_unit (refEq a b)
  unfold GroupMemo.recGroupEq at h
  simp only [pairOf_same, hm, false_and, if_false] at h
  split_ifs at h
  obtain ⟨hsound, -⟩ := hall () trivial
  obtain ⟨-, hdefs⟩ := hsound () (Prod.ext h rfl)
  obtain ⟨t', -, hpass⟩ := (hdefs k (List.mem_range.2 hk)).symm.mention ht
  exact ⟨t', hpass⟩

/-- types that are equated although the first is an external reference -/
theorem refInRecgroup_passed {fuel : Nat} {ga gb : Nat × Nat} {n : Bool} {u : Nat} {t' : Ty} (hm : ma ≠ mb)
    (hga : CanonGroup (modules ma) ga) (hu : u < ga.1 + ga.2) (hout : ¬ inGroup ga u)
    (h : (noMemo.refInRecgroup (pairOf modules ma mb) fuel ga gb (.ref n (.idx u)) t' ()).1 = true) :
    ∃ v, (noMemo.externalRef (pairOf modules ma mb) ((modules ma).canon u) ((modules mb).canon v) fuel ()).1 = true := by
  have houtc := (hga.inGroup_canon (hP ma).wellFormed hu).1.not.2 hout
  by_cases hidx : ∃ n' v, t' = .ref n' (.idx v)
  · obtain ⟨n', v, rfl⟩ := hidx
    rw [noMemo.refInRecgroup_idx] at h
    simp only [houtc, hm, decide_false, Bool.false_eq_true, false_and, false_or, if_false] at h
    split_ifs at h
    exact ⟨v, h⟩
  · push Not at hidx
    rw [noMemo.refInRecgroup_other _ _ _ _ fun _ _ n' v _ ht' => hidx n' v ht'] at h
    exact absurd (of_decide_eq_true h).symm (hidx n u)

/-- the chains from a canonical group that was compared with success -/
theorem chainsWithin_of_passed {fuel c : Nat} {ga : Nat × Nat} (gb : Nat × Nat) (hm : ma ≠ mb)
    (hga : CanonGroup (modules ma) ga) (hc : (modules ma).recGroup c = ga)
    (h : (GroupMemo.recGroupEq (pairOf modules ma mb) (noMemo.refInRecgroup (pairOf modules ma mb) fuel ga gb) ga gb
      ()).1 = true)
    (hext : ∀ u v, u < (modules ma).typeCount →
      (noMemo.externalRef (pairOf modules ma mb) ((modules ma).canon u) ((modules mb).canon v) fuel ()).1 = true →
        ChainsWithin modules fuel (ma, u)) : ChainsWithin modules (fuel + 1) (ma, c) := by
  intro l hl
  cases l with
  | nil => simp
  | cons w l =>
    obtain ⟨hstep, hl⟩ := List.isChain_cons_cons.1 hl
    obtain ⟨mw, w⟩ := w
    obtain ⟨rfl, hout, k, hk, t, ht, hidx⟩ := hstep
    simp only [hc] at hout hk ht
    obtain ⟨n, rfl⟩ := Ty.eq_of_typeIdx hidx
    have hw : w < ga.1 + ga.2 := by
      simpa [Ty.idxBelow, Ty.typeIdx] using hga.memberType_below (hP _).wellFormed ⟨k, hk, ht⟩
    obtain ⟨t', hpass⟩ := recGroupEq_passed hP hm h ⟨k, hk, ht⟩
    obtain ⟨v, hv⟩ := refInRecgroup_passed hP hm hga hw hout hpass
    exact Nat.succ_le_succ (hext w v (hga.lt (hP _).wellFormed hw) hv l hl)

/-- without a memo, external types of different modules are equated only within the recursion limit -/
theorem externalRef_passed {fuel : Nat} {u v : Nat} (hm : ma ≠ mb) (hu : u < (modules ma).typeCount)
    (h : (noMemo.externalRef (pairOf modules ma mb) ((modules ma).canon u) ((modules mb).canon v) fuel ()).1 = true) :
    ChainsWithin modules fuel (ma, u) := by
  have hW : WellFormedModules modules := fun m => (hP m).wellFormed
  induction fuel generalizing u v with
  | zero => cases h
  | succ fuel ih =>
    rw [noMemo.externalRef_succ] at h
    unfold GroupMemo.externalEq at h
    simp only [noMemo_has, Bool.false_eq_true, if_false] at h
    split_ifs at h
    refine ChainsWithin.of_same (Relator.Bisimilar.symm (sameType_canon hW hu))
      (chainsWithin_of_passed hP ((modules mb).recGroup ((modules mb).canon v)) hm (canonGroup_of_lt (hW ma) hu).1 rfl
        ?_ fun w z hw hz => ih hw hz)
    split at h
    · cases h
    · rename_i hr
      exact congrArg Prod.fst hr

/-- **Without the memo**, types of different modules are equated if and only if they are the same, with the same
nullability, and chains from them have at most one group more than the recursion limit. -/
theorem typeRefEqPlain_iff (hm : ma ≠ mb) {n n' : Bool} {u v : Nat} (hu : u < (modules ma).typeCount)
    (hv : v < (modules mb).typeCount) :
    typeRefEqPlain (pairOf modules ma mb) (.ref n (.idx u)) (.ref n' (.idx v)) = true ↔
      (n = n' ∧ SameType modules (ma, u) (mb, v)) ∧ ChainsWithin modules (maxTypeRecursionDepth + 1) (ma, u) := by
  have hW : WellFormedModules modules := fun m => (hP m).wellFormed
  obtain ⟨hsound, hcomplete⟩ := typeRefEq_decides hP (noMemo_keeps modules ma mb) n n' hu hv () trivial
  refine ⟨fun h => ⟨(hsound () (Prod.ext h rfl)).2, ?_⟩, fun h => hcomplete ⟨trivial, h.2⟩ h.1⟩
  refine ChainsWithin.of_same (Relator.Bisimilar.symm (sameType_canon hW hu))
    (chainsWithin_of_passed hP ((modules mb).recGroup ((modules mb).canon v)) hm (canonGroup_of_lt (hW ma) hu).1 rfl
      ?_ fun w z hw hz => externalRef_passed hP hm hw hz)
  unfold typeRefEqPlain at h
  rw [noMemo.typeRefEq_idx] at h
  simp only [hm, decide_false, Bool.false_eq_true, false_and, if_false] at h
  split_ifs at h
  exact h

end

/-! ## Result -/

/-- **Types across modules are compared exactly, within the recursion limit.** For parsed modules and concrete
reference types:
- what is equated is the same type with the same nullability, whatever allocations fail;
- types that are the same are equated when no allocation fails and no chain of rec groups is longer than the limit;
- then the answer is that of the recursion without the memo, from any memo that holds equal groups only;
- for longer chains the memo never turns a positive answer of the recursion without it into a negative one;
- exchanging the sides changes neither the answer nor what is left in `oom`. -/
theorem type_ref_eq_decides {modules : ModuleId → LinkModule} (hP : ∀ m, (modules m).Parsed) (ma mb : ModuleId)
    (na nb : Bool) (u v : Nat) (hu : u < (modules ma).typeCount) (hv : v < (modules mb).typeCount) :
    let ta := Ty.ref na (.idx u)
    let tb := Ty.ref nb (.idx v)
    let P := pairOf modules ma mb
    (∀ grants, (typeRefEqOom grants P ta tb).1 = true → na = nb ∧ SameType modules (ma, u) (mb, v)) ∧
    (∀ grants, (∀ n, grants n = true) → na = nb → SameType modules (ma, u) (mb, v) →
      ChainsWithin modules maxTypeRecursionDepth (ma, u) → (typeRefEqOom grants P ta tb).1 = true) ∧
    (∀ grants (m : TypeEqMemo), (∀ n, grants n = true) → m.Sound modules ma mb →
      ChainsWithin modules maxTypeRecursionDepth (ma, u) →
        ((tableMemo grants).typeRefEq P ta tb m).1 = typeRefEqPlain P ta tb) ∧
    (∀ grants (m : TypeEqMemo), (∀ n, grants n = true) → m.Sound modules ma mb →
      typeRefEqPlain P ta tb = true → ((tableMemo grants).typeRefEq P ta tb m).1 = true) ∧
    ∀ grants, typeRefEqOom grants (pairOf modules mb ma) tb ta = typeRefEqOom grants P ta tb := by
  intro ta tb P
  have hempty : ({} : TypeEqMemo).Sound modules ma mb :=
    ⟨{}, TypeEqMemo.stores_empty, List.nodup_nil, fun p hp => absurd hp List.not_mem_nil⟩
  have htable : ∀ grants, Decides _ _ ((tableMemo grants).typeRefEq P ta tb) _ := fun grants =>
    typeRefEq_decides hP (tableMemo_keeps hP grants) na nb hu hv
  have hplain := typeRefEq_decides hP (noMemo_keeps modules ma mb) na nb hu hv () trivial
  have hsound : ∀ grants (m : TypeEqMemo), m.Sound modules ma mb →
      ((tableMemo grants).typeRefEq P ta tb m).1 = true → na = nb ∧ SameType modules (ma, u) (mb, v) :=
    fun grants m hm h => ((htable grants m hm).1 _ (Prod.ext h rfl)).2
  have hplainSound : typeRefEqPlain P ta tb = true → na = nb ∧ SameType modules (ma, u) (mb, v) :=
    fun h => (hplain.1 () (Prod.ext h rfl)).2
  refine ⟨fun grants => hsound grants _ hempty, ?_, ?_, ?_, ?_⟩
  · intro grants hgrants hn hsame hchains
    exact (htable grants _ hempty).2 ⟨hgrants, hchains.mono (Nat.le_succ _)⟩ ⟨hn, hsame⟩
  · intro grants m hgrants hm hchains
    have hchains := hchains.mono (Nat.le_succ _)
    rw [Bool.eq_iff_iff]
    constructor
    · exact fun h => hplain.2 ⟨trivial, hchains⟩ (hsound grants m hm h)
    · exact fun h => (htable grants m hm).2 ⟨hgrants, hchains⟩ (hplainSound h)
  · intro grants m hgrants hm h
    obtain ⟨hn, hsame⟩ := hplainSound h
    by_cases hmods : ma = mb
    · subst hmods
      have hcanon := (hP ma).canon_eq_of_same rfl hu hv hsame
      simp only [P, ta, tb]
      rw [(tableMemo grants).typeRefEq_idx]
      simp [hn, hcanon]
    · have hchains := ((typeRefEqPlain_iff hP hmods hu hv).1 h).2
      exact (htable grants m hm).2 ⟨hgrants, hchains⟩ ⟨hn, hsame⟩
  · intro grants
    have hR : TypeEqMemo.Swapped {} {} := ⟨{}, TypeEqMemo.stores_empty, TypeEqMemo.stores_empty⟩
    obtain ⟨hans, a, hstores, hstores'⟩ := typeRefEq_mirrored hP (tableMemo_mirror grants) na nb hu hv _ _ hR
    exact Prod.ext hans.symm (hstores'.oom.trans hstores.oom.symm)

/-! ## What the table has recorded -/

section
variable {modules : ModuleId → LinkModule} (hP : ∀ m, (modules m).Parsed) {ma mb : ModuleId} {grants : Nat → Bool}
include hP

/-- a pair that was recorded is found -/
theorem tableMemo_recorded {s s' : TypeEqMemo} {p : Nat × Nat} (hs : s.Sound modules ma mb)
    (hp : EqualGroups modules ma mb p) (h : (tableMemo grants).add p s = (true, s')) :
    (tableMemo grants).has p s' = true := by
  obtain ⟨a, hstores, -, -⟩ := hs
  have hkey := keyable_of_lt hP (hp.lt hP).1 (hp.lt hP).2
  obtain ⟨hans, hstores'⟩ := hstores.add hkey grants
  have hs' : (s.add grants p).2 = s' := congrArg Prod.snd h
  have htrue : (a.add grants p).1 = true := hans.symm.trans (congrArg Prod.fst h)
  have hmem : p ∈ (a.add grants p).2.pairs := by
    rw [PairMemo.add_true htrue, PairMemo.record_pairs]
    split_ifs with hmem
    · exact hmem
    · exact List.mem_cons_self
  rw [hs'] at hstores'
  exact (hstores'.has_eq hkey).trans (PairMemo.has_iff.2 hmem)

/-- external types that are equated have their groups recorded -/
theorem externalRef_recorded {fuel : Nat} {u v : Nat} (hu : u + 1 < (modules ma).typeCount)
    (hv : v < (modules mb).typeCount) {s s' : TypeEqMemo} (hs : s.Sound modules ma mb)
    (h : (tableMemo grants).externalRef (pairOf modules ma mb) ((modules ma).canon u) ((modules mb).canon v) fuel s =
      (true, s')) :
    s'.Sound modules ma mb ∧ (tableMemo grants).has (((modules ma).recGroup ((modules ma).canon u)).1,
      ((modules mb).recGroup ((modules mb).canon v)).1) s' = true := by
  have hkeeps : (tableMemo grants).Keeps modules ma mb _ _ := tableMemo_keeps hP grants
  obtain ⟨hs', hsame⟩ := ((externalRef_decides hP hkeeps fuel hu hv) s hs).1 s' h
  refine ⟨hs', ?_⟩
  have hequal := equalGroups_of_same hP hu hv hsame
  obtain ⟨hga, -⟩ := canonGroup_of_lt (hP ma).wellFormed (Nat.lt_of_succ_lt hu)
  obtain ⟨hgb, -⟩ := canonGroup_of_lt (hP mb).wellFormed hv
  cases fuel with
  | zero => cases h
  | succ fuel =>
    rw [(tableMemo grants).externalRef_succ, GroupMemo.externalEq] at h
    split_ifs at h with hsize hoff hhas
    · cases h
    · cases h
    · exact (Prod.mk.inj h).2 ▸ hhas
    · split at h
      · cases h
      · rename_i s₁ hr
        have hW : WellFormedModules modules := fun m => (hP m).wellFormed
        have hgroups := recGroupEq_decides (C := False) hW hga hgb fun ta tb hta htb =>
          refInRecgroup_decides hW (tableMemo grants) fuel hga hgb hta htb fun w z hw hz _ =>
            (externalRef_decides hP hkeeps fuel hw hz).weaken False.elim
        obtain ⟨hs₁, -⟩ := (hgroups s hs).1 s₁ hr
        exact tableMemo_recorded hP hs₁ hequal h

end

/-! ## A chain that is too long -/

/-- a function type with references to types as parameters -/
def funcEntry (params : List Nat) : RecType :=
  .single { comp := .func (params.map fun u => ⟨.ofIdx u, by simp [Ty.ofIdx]⟩) [] }

def funcTypeDef (params : List Nat) : TypeDef := { kind := .func, func := ⟨params.map .ofIdx, []⟩ }

/-- `n` function types, each with references to the types `f i` -/
def funcModule (n : Nat) (f : Nat → List Nat) : LinkModule where
  typeDefs := (List.range n).map fun i => funcTypeDef (f i)
  isFinal := List.replicate n true
  recGroups := (List.range n).map fun i => (i, 1)

section
variable {n i : Nat} {f : Nat → List Nat}

theorem funcModule_spec (hi : i < n) : (funcModule n f).typeCount = n ∧ (funcModule n f).recGroup i = (i, 1) ∧
    (funcModule n f).typeDef i = funcTypeDef (f i) ∧ (funcModule n f).final i = true := by
  simp [LinkModule.typeCount, LinkModule.recGroup, LinkModule.typeDef, LinkModule.final, funcModule, hi]

theorem addRecTypes_funcs (n : Nat) (f : Nat → List Nat) :
    ((List.range n).map fun i => funcEntry (f i)).foldlM LinkModule.addRecType {} = some (funcModule n f) := by
  induction n with
  | zero => rfl
  | succ n ih =>
    have hone : (funcModule n f).addRecType (funcEntry (f n)) = some (funcModule (n + 1) f) := by
      simp [LinkModule.addRecType, funcEntry, LinkModule.addType, SubTypeEntry.typeDef, List.map_map, Function.comp_def,
        funcModule, LinkModule.typeCount, List.range_succ, funcTypeDef, List.replicate_succ']
    rw [List.range_succ, List.map_append, List.foldlM_append, ih]
    simpa using hone

/-- a section of function types that mention earlier ones is accepted -/
theorem funcModule_accepted (hf : ∀ i < n, ∀ u ∈ f i, u < i) (mix : UInt64 → UInt64 → UInt64) :
    ∃ map reprs, parseTypeSection mix ((List.range n).map fun i => funcEntry (f i)) =
      some { funcModule n f with canonicalMap := map, reprs := reprs } := by
  have hcount : (funcModule n f).typeCount = n := by simp [LinkModule.typeCount, funcModule]
  have hcheck : (List.range (funcModule n f).typeCount).all (funcModule n f).checkType = true := by
    rw [hcount, List.all_eq_true]
    intro i hi
    have hi := List.mem_range.1 hi
    obtain ⟨-, hgroup, hdef, -⟩ := funcModule_spec (f := f) hi
    have hbelow : ∀ u ∈ f i, u < i + 1 := fun u hu => Nat.lt_succ_of_lt (hf i hi u hu)
    simpa [LinkModule.checkType, hgroup, hdef, funcTypeDef, Ty.idxBelow, Ty.ofIdx, Ty.typeIdx] using hbelow
  have hsupers : (List.range (funcModule n f).typeCount).all
      (checkSupertype { funcModule n f with canonicalMap := buildCanonicalMap (funcModule n f) mix }) = true := by
    rw [hcount, List.all_eq_true]
    intro i hi
    simp [checkSupertype, Module.supertype, funcModule, funcTypeDef, List.mem_range.1 hi]
  unfold parseTypeSection buildTypeMetadata
  rw [addRecTypes_funcs]
  dsimp only
  rw [if_pos hcheck, if_pos hsupers]
  exact ⟨_, _, rfl⟩

end

/-- the parameters of type `i`: a chain of 257 types, and a last type that enters it at its end and one before -/
def deepParams (i : Nat) : List Nat := if i = 0 then [] else if i = 257 then [255, 256] else [i - 1]

def deepEntries : List RecType := (List.range 258).map fun i => funcEntry (deepParams i)

/-- the module with these types -/
def deepModule : LinkModule := (parseTypeSection recGroupHashMix deepEntries).getD {}

def deepModules : ModuleId → LinkModule := fun _ => deepModule

theorem deepParams_lt {i u : Nat} (hu : u ∈ deepParams i) : u < i := by
  unfold deepParams at hu
  split_ifs at hu with h0 hlast
  · cases hu
  · subst hlast
    simp at hu
    omega
  · simp at hu
    omega

theorem deepParams_length (i : Nat) : (deepParams i).length = if i = 0 then 0 else if i = 257 then 2 else 1 := by
  unfold deepParams
  split_ifs <;> rfl

theorem deepModule_eq : parseTypeSection recGroupHashMix deepEntries = some deepModule ∧
    ∃ map reprs, deepModule = { funcModule 258 deepParams with canonicalMap := map, reprs := reprs } := by
  obtain ⟨map, reprs, hparse⟩ := funcModule_accepted (n := 258) (fun i _ u hu => deepParams_lt hu) recGroupHashMix
  have hmodule : deepModule = { funcModule 258 deepParams with canonicalMap := map, reprs := reprs } := by
    rw [deepModule, deepEntries, hparse, Option.getD_some]
  refine ⟨?_, map, reprs, hmodule⟩
  rw [hmodule]
  exact hparse

theorem deepModule_spec {i : Nat} (hi : i < 258) : deepModule.typeCount = 258 ∧ deepModule.recGroup i = (i, 1) ∧
    deepModule.typeDef i = funcTypeDef (deepParams i) ∧ deepModule.final i = true := by
  obtain ⟨map, reprs, hmodule⟩ := deepModule_eq.2
  rw [hmodule]
  exact funcModule_spec (f := deepParams) hi

theorem deepModules_parsed (m : ModuleId) : (deepModules m).Parsed := by
  refine ⟨⟨_, _, deepModule_eq.1⟩, ?_⟩
  rw [deepModules, (deepModule_spec (i := 0) (by norm_num)).1]
  norm_num [maxTypeIndex]

/-- the deep module twice: a type and its copy are the same -/
theorem deep_same (m m' : ModuleId) (i : Nat) : SameType deepModules (m, i) (m', i) := by
  refine ⟨fun x y => x.2 = y.2, ?_, rfl⟩
  rintro ⟨m, i⟩ ⟨m', j⟩ hij
  obtain rfl : i = j := hij
  exact ⟨rfl, rfl, fun _ _ => .refl (.refl fun u => RefMatch.refl (R := fun u v => u = v) (fun _ => rfl) _ u) _ _⟩

/-- what a type of the deep module mentions -/
theorem deep_groupRef {m : ModuleId} {i : Nat} {y : TypeNode} (hi : i < 258) (h : GroupRef deepModules (m, i) y) :
    y.1 = m ∧ y.2 ∈ deepParams i := by
  obtain ⟨my, j⟩ := y
  obtain ⟨rfl, -, k, hk, t, ht, hidx⟩ := h
  obtain ⟨-, hgroup, hdef, -⟩ := deepModule_spec hi
  simp only [deepModules, hgroup] at hk ht
  obtain rfl : k = 0 := by omega
  simp only [Nat.add_zero, hdef, funcTypeDef, TypeDef.types, if_true, List.append_nil, Option.map_none,
    Option.toList_none, List.nil_append, List.mem_map] at ht
  obtain ⟨u, hu, rfl⟩ := ht
  obtain rfl : u = j := by simpa [Ty.ofIdx, Ty.typeIdx] using hidx
  exact ⟨rfl, hu⟩

theorem deep_mentions {m : ModuleId} {i u : Nat} (hi : i < 258) (hu : u ∈ deepParams i) :
    GroupRef deepModules (m, i) (m, u) := by
  obtain ⟨-, hgroup, hdef, -⟩ := deepModule_spec hi
  have hlt := deepParams_lt hu
  refine ⟨rfl, ?_, 0, ?_, .ofIdx u, ?_, rfl⟩
  · simp only [deepModules, hgroup, inGroup]
    omega
  · simp [deepModules, hgroup]
  · simpa [deepModules, hgroup, hdef, funcTypeDef, TypeDef.types] using ⟨u, hu, rfl⟩

/-- the chain from a type of the chain -/
theorem deep_chainsWithin {m : ModuleId} {i : Nat} (hi : i < 257) : ChainsWithin deepModules (i + 1) (m, i) := by
  induction i with
  | zero =>
    intro l hl
    cases l with
    | nil => simp
    | cons y l =>
      have hmem := (deep_groupRef (by norm_num) (List.isChain_cons_cons.1 hl).1).2
      simp [deepParams] at hmem
  | succ i ih =>
    intro l hl
    cases l with
    | nil => simp
    | cons y l =>
      obtain ⟨hstep, hrest⟩ := List.isChain_cons_cons.1 hl
      obtain ⟨my, j⟩ := y
      obtain ⟨hm, hmem⟩ := deep_groupRef (by omega) hstep
      have hlast : ¬ i + 1 = 257 := by omega
      obtain rfl : j = i := by simpa [deepParams, hlast] using hmem
      obtain rfl : my = m := hm
      exact Nat.succ_le_succ (ih (by omega) l hrest)

/-- the chain from the last type has 258 groups -/
theorem deep_chain_long (m : ModuleId) : ¬ ChainsWithin deepModules 257 (m, 257) := by
  have hdown : ∀ n < 257, ∃ l : List TypeNode, l.length = n ∧ List.IsChain (GroupRef deepModules) ((m, n) :: l) := by
    intro n hn
    induction n with
    | zero => exact ⟨[], rfl, List.isChain_singleton _⟩
    | succ n ih =>
      obtain ⟨l, hlen, hl⟩ := ih (by omega)
      have hlast : ¬ n + 1 = 257 := by omega
      refine ⟨(m, n) :: l, by simp [hlen], List.isChain_cons_cons.2 ⟨deep_mentions (by omega) ?_, hl⟩⟩
      simp [deepParams, hlast]
  intro h
  obtain ⟨l, hlen, hl⟩ := hdown 256 (by norm_num)
  have hfirst : GroupRef deepModules (m, 257) (m, 256) := deep_mentions (by norm_num) (by simp [deepParams])
  have hle := h ((m, 256) :: l) (List.isChain_cons_cons.2 ⟨hfirst, hl⟩)
  simp [hlen] at hle

/-- no two types of the deep module are the same -/
theorem deep_same_eq {m : ModuleId} {i j : Nat} (hi : i < 258) (hj : j < 258)
    (h : SameType deepModules (m, i) (m, j)) : i = j := by
  induction i using Nat.strong_induction_on generalizing j with
  | _ i ih =>
    obtain ⟨-, hgi, hdi, -⟩ := deepModule_spec hi
    obtain ⟨-, hgj, hdj, -⟩ := deepModule_spec hj
    obtain ⟨-, -, hdefs⟩ := h.rel
    simp only [deepModules, hgi, hgj] at hdefs
    have hparams := (hdefs 0 Nat.one_pos).params (by rw [Nat.add_zero, hdi]; rfl)
    simp only [Nat.add_zero, hdi, hdj, funcTypeDef] at hparams
    have hlen := hparams.length_eq
    rw [List.length_map, List.length_map, deepParams_length, deepParams_length] at hlen
    by_cases hi0 : i = 0
    · rw [if_pos hi0] at hlen
      split_ifs at hlen
      omega
    by_cases hilast : i = 257
    · rw [if_neg hi0, if_pos hilast] at hlen
      split_ifs at hlen with hj0 hjlast
      · omega
      · omega
    rw [if_neg hi0, if_neg hilast] at hlen
    have hj0 : ¬ j = 0 := fun h => by simp [h] at hlen
    have hjlast : ¬ j = 257 := fun h => by simp [h] at hlen
    have hiparams : deepParams i = [i - 1] := by simp [deepParams, hi0, hilast]
    have hjparams : deepParams j = [j - 1] := by simp [deepParams, hj0, hjlast]
    have hpred : i - 1 = j - 1 → i = j := fun hij => by omega
    have hout : ¬ inGroup (i, 1) (i - 1) := fun hin => by unfold inGroup at hin; omega
    have hih : ∀ {b : Nat}, b < 258 → SameType deepModules (m, i - 1) (m, b) → i - 1 = b :=
      fun hb hsame => ih (i - 1) (by omega) (by omega) hb hsame
    have hb : j - 1 < 258 := by omega
    rw [hiparams, hjparams, List.map_singleton, List.map_singleton] at hparams
    generalize i - 1 = a, j - 1 = b at hparams hpred hout hih hb
    cases hparams with
    | cons hmatch _ =>
      cases hmatch with
      | idx hρ =>
        rcases hρ with ⟨hin, -, -⟩ | ⟨-, -, hsame⟩
        · exact absurd hin hout
        · exact hpred (hih hb hsame)
      | other hnone => cases hnone

theorem deep_canon {i : Nat} (hi : i < 258) : deepModule.canon i = i := by
  have hM := (deepModules_parsed 0).wellFormed
  have hcount := (deepModule_spec hi).1
  have hlt : deepModule.canon i < 258 := hcount ▸ hM.canon_lt (hcount.symm ▸ hi)
  have hsame : SameType deepModules (0, i) (0, deepModule.canon i) :=
    sameType_canon (fun m => (deepModules_parsed m).wellFormed) (hcount.symm ▸ hi)
  exact (deep_same_eq hi hlt hsame).symm

/-- two groups of one function type each are compared by their parameters -/
theorem recGroupEq_funcs {σ : Type} {refEq : Ty → Ty → MemoCheck σ} {modules : ModuleId → LinkModule} {i : Nat}
    {params : List Nat} (hdef : ∀ m, (modules m).typeDef i = funcTypeDef params)
    (hfinal : ∀ m, (modules m).final i = true) (s : σ) :
    GroupMemo.recGroupEq (pairOf modules 0 1) refEq (i, 1) (i, 1) s =
      allChecks (params.map fun u => refEq (.ofIdx u) (.ofIdx u)) s := by
  simp [GroupMemo.recGroupEq, pairOf, hdef, hfinal, funcTypeDef, typeChecks, supertypeCheck, allChecks, plainCheck,
    Function.comp_def]

/-- two groups of the deep module and its copy are compared by their parameters -/
theorem deep_recGroupEq {σ : Type} {refEq : Ty → Ty → MemoCheck σ} {i : Nat} (hi : i < 258) (s : σ) :
    GroupMemo.recGroupEq (pairOf deepModules 0 1) refEq (i, 1) (i, 1) s =
      allChecks ((deepParams i).map fun u => refEq (.ofIdx u) (.ofIdx u)) s :=
  recGroupEq_funcs (fun _ => (deepModule_spec hi).2.2.1) (fun _ => (deepModule_spec hi).2.2.2) s

/-- a parameter of a type of the deep module, and its copy -/
theorem deep_refInRecgroup {σ : Type} (memo : GroupMemo σ) (fuel : Nat) {i u : Nat} (hi : i < 258)
    (hu : u ∈ deepParams i) (s : σ) :
    memo.refInRecgroup (pairOf deepModules 0 1) fuel (i, 1) (i, 1) (.ofIdx u) (.ofIdx u) s =
      memo.externalRef (pairOf deepModules 0 1) u u fuel s := by
  have hlt := deepParams_lt hu
  have hcanon : deepModule.canon u = u := deep_canon (hlt.trans hi)
  have hout : ¬ inGroup (i, 1) u := by
    unfold inGroup
    omega
  rw [Ty.ofIdx, memo.refInRecgroup_idx]
  simp [deepModules, hcanon, hout]

/-- an external type of the deep module, and its copy -/
theorem deep_externalRef {σ : Type} (memo : GroupMemo σ) (fuel : Nat) {u : Nat} (hu : u < 258) (s : σ) :
    memo.externalRef (pairOf deepModules 0 1) u u (fuel + 1) s =
      memo.externalEq (allChecks ((deepParams u).map fun w => memo.externalRef (pairOf deepModules 0 1) w w fuel))
        (u, 1) (u, 1) u u s := by
  have hgroup : ∀ m, (deepModules m).recGroup u = (u, 1) := fun _ => (deepModule_spec hu).2.1
  have hrefs : (deepParams u).map (fun w => memo.refInRecgroup (pairOf deepModules 0 1) fuel (u, 1) (u, 1) (.ofIdx w)
      (.ofIdx w)) = (deepParams u).map fun w => memo.externalRef (pairOf deepModules 0 1) w w fuel :=
    List.map_congr_left fun w hw => funext fun s => deep_refInRecgroup memo fuel hu hw s
  rw [memo.externalRef_succ, hgroup, hgroup, GroupMemo.externalEq, deep_recGroupEq hu, hrefs, GroupMemo.externalEq]

theorem deep_equalGroups {i : Nat} (hi : i < 257) : EqualGroups deepModules 0 1 (i, i) := by
  have hi' : i < 258 := by omega
  obtain ⟨hcount, hgroup, -⟩ := deepModule_spec hi'
  have hcanon : CanonGroup deepModule (deepModule.recGroup i) := ⟨i, by omega, deep_canon hi', rfl⟩
  have hstart : (deepModule.recGroup i).1 = i := by rw [hgroup]
  refine ⟨?_, hcanon, hstart, hcanon, hstart, rfl, fun k _ => deep_same 0 1 _⟩
  change i + 1 < deepModule.typeCount
  omega

/-- a type of the chain and its copy are equated within the limit, and recorded -/
theorem deep_external_ok (grants : Nat → Bool) (hgrants : ∀ n, grants n = true) (u fuel : Nat) (hu : u < 257)
    (hfuel : u + 1 ≤ fuel) {s : TypeEqMemo} (hs : s.Sound deepModules 0 1) :
    ∃ s', (tableMemo grants).externalRef (pairOf deepModules 0 1) u u fuel s = (true, s') ∧
      s'.Sound deepModules 0 1 ∧ (tableMemo grants).has (u, u) s' = true := by
  have hu' : u < 258 := by omega
  obtain ⟨hcount, hgroup, -⟩ := deepModule_spec hu'
  have hlast : u + 1 < (deepModules 0).typeCount := by
    change u + 1 < deepModule.typeCount
    omega
  have hlt : u < (deepModules 1).typeCount := Nat.lt_of_succ_lt hlast
  have hcanon : ∀ m, (deepModules m).canon u = u := fun _ => deep_canon hu'
  have hgroups : ∀ m, (deepModules m).recGroup u = (u, 1) := fun _ => hgroup
  have hkeeps : (tableMemo grants).Keeps deepModules 0 1 _ _ := tableMemo_keeps deepModules_parsed grants
  have hok := ((externalRef_decides deepModules_parsed hkeeps fuel hlast hlt) s hs).2
    ⟨hgrants, (deep_chainsWithin hu).mono hfuel⟩ (deep_same 0 1 u)
  rw [hcanon, hcanon] at hok
  have hfirst := Prod.ext (y := (true, ((tableMemo grants).externalRef (pairOf deepModules 0 1) u u fuel s).2)) hok rfl
  have hrecorded := externalRef_recorded deepModules_parsed hlast hlt hs (by rw [hcanon, hcanon]; exact hfirst)
  rw [hcanon, hcanon, hgroups, hgroups] at hrecorded
  exact ⟨_, hfirst, hrecorded⟩

/-- the last type but one and its copy, whose parameter is recorded already -/
theorem deep_external_hit {grants : Nat → Bool} (hgrants : ∀ n, grants n = true) {s : TypeEqMemo}
    (hs : s.Sound deepModules 0 1) (hhas : (tableMemo grants).has (255, 255) s = true) (depth : Nat)
    (hdepth : 2 ≤ depth) :
    ((tableMemo grants).externalRef (pairOf deepModules 0 1) 256 256 depth s).1 = true := by
  obtain ⟨fuel, rfl⟩ : ∃ fuel, depth = fuel + 2 := ⟨depth - 2, by omega⟩
  have hparams : deepParams 256 = [255] := rfl
  have hkeeps : (tableMemo grants).Keeps deepModules 0 1 _ _ := tableMemo_keeps deepModules_parsed grants
  have hinner : (tableMemo grants).externalRef (pairOf deepModules 0 1) 255 255 (fuel + 1) s = (true, s) := by
    simp [deep_externalRef, GroupMemo.externalEq, hhas]
  rw [deep_externalRef _ _ (by norm_num), GroupMemo.externalEq]
  simp only [ne_eq, not_true_eq_false, if_false]
  split_ifs
  · rfl
  · rw [hparams, List.map_singleton, allChecks, hinner]
    exact hkeeps.add_ok hgrants _ s (deep_equalGroups (by norm_num)) hs

theorem typeRefEqOom_fst (grants : Nat → Bool) (P : ModulePair) (ta tb : Ty) :
    (typeRefEqOom grants P ta tb).1 = ((tableMemo grants).typeRefEq P ta tb {}).1 := rfl

/-- two checks in a row -/
theorem allChecks_pair {σ : Type} {c d : MemoCheck σ} {s s₁ : σ} (hc : c s = (true, s₁)) (hd : (d s₁).1 = true) :
    (allChecks [c, d] s).1 = true := by
  rw [allChecks, hc]
  dsimp only
  rw [allChecks]
  rcases hr : d s₁ with ⟨b, s₂⟩
  rw [hr] at hd
  obtain rfl : b = true := hd
  rfl

/-- canonical types alone in their groups are the same exactly if their groups are -/
theorem typeRefEq_of_groups {σ : Type} (memo : GroupMemo σ) {modules : ModuleId → LinkModule} {n : Bool} {u : Nat}
    (hcanon : ∀ m, (modules m).canon u = u) (hgroup : ∀ m, (modules m).recGroup u = (u, 1)) (s : σ) :
    memo.typeRefEq (pairOf modules 0 1) (.ref n (.idx u)) (.ref n (.idx u)) s =
      GroupMemo.recGroupEq (pairOf modules 0 1)
        (memo.refInRecgroup (pairOf modules 0 1) maxTypeRecursionDepth (u, 1) (u, 1)) (u, 1) (u, 1) s := by
  rw [memo.typeRefEq_idx, hcanon, hcanon, hgroup, hgroup]
  simp

/-- **The memo matters beyond the recursion limit.** The last type of the deep module and its copy are the same. The
check equates them, since the memo already holds the groups that the second parameter reaches too deep; the same
recursion without the memo runs into the limit there. -/
theorem type_ref_eq_needs_memo : (∀ m, (deepModules m).Parsed) ∧
    (typeRefEqOom (fun _ => true) (pairOf deepModules 0 1) (.ofIdx 257) (.ofIdx 257)).1 = true ∧
    typeRefEqPlain (pairOf deepModules 0 1) (.ofIdx 257) (.ofIdx 257) = false := by
  have hcount : deepModule.typeCount = 258 := (deepModule_spec (i := 0) (by norm_num)).1
  have hgroup : ∀ m, (deepModules m).recGroup 257 = (257, 1) := fun _ => (deepModule_spec (by norm_num)).2.1
  have hcanon : ∀ m, (deepModules m).canon 257 = 257 := fun _ => deep_canon (by norm_num)
  refine ⟨deepModules_parsed, ?_, ?_⟩
  · have hempty : ({} : TypeEqMemo).Sound deepModules 0 1 :=
      ⟨{}, TypeEqMemo.stores_empty, List.nodup_nil, fun p hp => absurd hp List.not_mem_nil⟩
    obtain ⟨s₁, hfirst, hs₁, hhas⟩ := deep_external_ok (fun _ => true) (fun _ => rfl) 255 maxTypeRecursionDepth
      (by norm_num) (by decide) hempty
    have hsecond := deep_external_hit (fun _ => rfl) hs₁ hhas maxTypeRecursionDepth (by decide)
    have hparams : deepParams 257 = [255, 256] := rfl
    have hpair := allChecks_pair hfirst hsecond
    have hrefs : (deepParams 257).map (fun w => (tableMemo fun _ => true).refInRecgroup (pairOf deepModules 0 1)
        maxTypeRecursionDepth (257, 1) (257, 1) (.ofIdx w) (.ofIdx w)) = (deepParams 257).map fun w =>
          (tableMemo fun _ => true).externalRef (pairOf deepModules 0 1) w w maxTypeRecursionDepth :=
      List.map_congr_left fun w hw => funext fun s => deep_refInRecgroup _ _ (by norm_num) hw s
    have hfinal := typeRefEq_of_groups (tableMemo fun _ => true) (n := false) hcanon hgroup
    rw [typeRefEqOom_fst, Ty.ofIdx, hfinal, deep_recGroupEq (by norm_num), hrefs, hparams, List.map_cons,
      List.map_singleton]
    exact hpair
  · rw [Bool.eq_false_iff]
    intro h
    have hlt : ∀ m, 257 < (deepModules m).typeCount := fun _ => hcount.symm ▸ (by norm_num)
    exact deep_chain_long 0 ((typeRefEqPlain_iff deepModules_parsed (by decide) (hlt 0) (hlt 1)).1 h).2

theorem type_ref_eq_decides_deep :
    (typeRefEqOom (fun _ => true) (pairOf deepModules 0 1) (.ofIdx 255) (.ofIdx 255)).1 = true ∧
    ∀ grants, (typeRefEqOom grants (pairOf deepModules 0 1) (.ofIdx 3) (.ofIdx 4)).1 = false := by
  have hlt : ∀ {i}, i < 258 → ∀ m, i < (deepModules m).typeCount :=
    fun {i} hi _ => (deepModule_spec hi).1.symm ▸ hi
  constructor
  · have hspec := type_ref_eq_decides deepModules_parsed 0 1 false false 255 255 (hlt (by norm_num) 0)
      (hlt (by norm_num) 1)
    exact hspec.2.1 _ (fun _ => rfl) rfl (deep_same 0 1 255) (deep_chainsWithin (by norm_num))
  · intro grants
    have hspec := type_ref_eq_decides deepModules_parsed 0 1 false false 3 4 (hlt (by norm_num) 0) (hlt (by norm_num) 1)
    rw [Bool.eq_false_iff]
    intro h
    have hsame : SameType deepModules (0, 3) (0, 4) := (hspec.1 grants h).2.trans (deep_same 1 0 4)
    exact absurd (deep_same_eq (by norm_num) (by norm_num) hsame) (by norm_num)

end Wah
