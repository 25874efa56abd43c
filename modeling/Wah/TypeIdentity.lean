/-
Identity of types across modules, and soundness of the equality check.

Model:
- a type is a node, a module with a type index. Two types are the same (`SameType`) when their rec groups have the same
  size and the same definitions at every offset, where references inside a group are compared by their offsets and
  others by the types they refer to. This is identity of iso-recursive types, as a bisimilarity;
- `LinkModule.WellFormed` is what the parser establishes of the types of a module, with the canonical map it computes.

Results: the canonical map only identifies types that are the same, and types that `typeRefEq` equates, with its memo of
equal groups and its recursion limit, are the same. The checks of the source are put together from a few forms; one that
decides something (`Decides`) keeps an invariant of the memo, shows it when it passes, and passes when it holds.
-/
import Wah.FuncTypes
import Wah.Bisimilarity

namespace Wah

/-! ## Identity of types -/

/-- a type of a module -/
abbrev TypeNode := ModuleId × Nat

/-- references out of two groups: inside by their offsets, outside by what they refer to -/
def RefMatch (R : Nat → Nat → Prop) (ga gb : Nat × Nat) (u v : Nat) : Prop :=
  (inGroup ga u ∧ inGroup gb v ∧ u - ga.1 = v - gb.1) ∨ (¬ inGroup ga u ∧ ¬ inGroup gb v ∧ R u v)

/-- the type index of a reference type -/
def Ty.typeIdx : Ty → Option Nat
  | .ref _ (.idx u) => some u
  | _ => none

theorem Ty.typeIdx_eq_none {t : Ty} (h : ∀ n u, t = .ref n (.idx u) → False) : t.typeIdx = none := by
  cases t with
  | ref n x =>
    cases x with
    | idx u => exact (h n u rfl).elim
    | abs k => rfl
  | _ => rfl

theorem Ty.eq_of_typeIdx {t : Ty} {u : Nat} (h : t.typeIdx = some u) : ∃ n, t = .ref n (.idx u) := by
  cases t with
  | ref n x =>
    cases x with
    | idx v =>
      cases h
      exact ⟨n, rfl⟩
    | abs k => cases h
  | _ => cases h

/-- the types a definition mentions -/
def TypeDef.types (d : TypeDef) : List Ty :=
  (d.supertype.map Ty.ofIdx).toList ++ if d.kind = .func then d.func.params ++ d.func.results else d.fieldTypes

/-- value types that match, given how their type indices match -/
inductive TyMatch (ρ : Nat → Nat → Prop) : Ty → Ty → Prop where
  | idx {n : Bool} {u v : Nat} (h : ρ u v) : TyMatch ρ (.ref n (.idx u)) (.ref n (.idx v))
  | other {t : Ty} (h : t.typeIdx = none) : TyMatch ρ t t

/-- definitions that match, given how the types in them match -/
structure DefMatch (T : Ty → Ty → Prop) (d d' : TypeDef) (final final' : Bool) : Prop where
  kind : d.kind = d'.kind
  final : final = final'
  supertype : Option.Rel (fun a b => T (.ofIdx a) (.ofIdx b)) d.supertype d'.supertype
  params : d.kind = .func → List.Forall₂ T d.func.params d'.func.params
  results : d.kind = .func → List.Forall₂ T d.func.results d'.func.results
  fields : d.kind ≠ .func → List.Forall₂ T d.fieldTypes d'.fieldTypes
  mutables : d.kind ≠ .func → d.fieldMutables = d'.fieldMutables

section
variable {R S : Nat → Nat → Prop} {ga gb gc : Nat × Nat} {u v w : Nat} {a b c : Ty} {T U : Ty → Ty → Prop}
  {d d' d'' : TypeDef} {f f' f'' : Bool}

theorem RefMatch.mono (hRS : ∀ u v, R u v → S u v) (h : RefMatch R ga gb u v) : RefMatch S ga gb u v := by
  rcases h with h | ⟨ha, hb, h⟩
  · exact Or.inl h
  · exact Or.inr ⟨ha, hb, hRS u v h⟩

theorem RefMatch.refl (hR : ∀ u, R u u) (g : Nat × Nat) (u : Nat) : RefMatch R g g u u := by
  by_cases hu : inGroup g u
  · exact Or.inl ⟨hu, hu, rfl⟩
  · exact Or.inr ⟨hu, hu, hR u⟩

theorem RefMatch.symm (h : RefMatch R ga gb u v) : RefMatch (flip R) gb ga v u := by
  rcases h with ⟨ha, hb, h⟩ | ⟨ha, hb, h⟩
  · exact Or.inl ⟨hb, ha, h.symm⟩
  · exact Or.inr ⟨hb, ha, h⟩

theorem RefMatch.comp (h : RefMatch R ga gb u v) (h' : RefMatch S gb gc v w) :
    RefMatch (Relation.Comp R S) ga gc u w := by
  rcases h with ⟨ha, hb, h⟩ | ⟨ha, hb, h⟩ <;> rcases h' with ⟨hb', hc, h'⟩ | ⟨hb', hc, h'⟩
  · exact Or.inl ⟨ha, hc, h.trans h'⟩
  · exact absurd hb hb'
  · exact absurd hb' hb
  · exact Or.inr ⟨ha, hc, v, h, h'⟩

theorem TyMatch.mono (hRS : ∀ u v, R u v → S u v) (h : TyMatch R a b) : TyMatch S a b := by
  cases h with
  | idx h => exact .idx (hRS _ _ h)
  | other h => exact .other h

theorem TyMatch.refl (hR : ∀ u, R u u) (t : Ty) : TyMatch R t t := by
  cases hidx : t.typeIdx with
  | none => exact .other hidx
  | some u =>
    obtain ⟨n, rfl⟩ := Ty.eq_of_typeIdx hidx
    exact .idx (hR u)

theorem TyMatch.symm (h : TyMatch R a b) : TyMatch (flip R) b a := by
  cases h with
  | idx h => exact .idx h
  | other h => exact .other h

theorem TyMatch.comp (h : TyMatch R a b) (h' : TyMatch S b c) : TyMatch (Relation.Comp R S) a c := by
  cases h with
  | idx h =>
    cases h' with
    | idx h' => exact .idx ⟨_, h, h'⟩
    | other h' => simp [Ty.typeIdx] at h'
  | other h =>
    cases h' with
    | idx h' => simp [Ty.typeIdx] at h
    | other h' => exact .other h

theorem DefMatch.mono (hTU : ∀ a b, T a b → U a b) (h : DefMatch T d d' f f') : DefMatch U d d' f f' where
  kind := h.kind
  final := h.final
  supertype := by
    have hs := h.supertype
    generalize d.supertype = x, d'.supertype = y at hs
    cases hs with
    | some hab => exact .some (hTU _ _ hab)
    | none => exact .none
  params hk := (h.params hk).imp fun _ _ => hTU _ _
  results hk := (h.results hk).imp fun _ _ => hTU _ _
  fields hk := (h.fields hk).imp fun _ _ => hTU _ _
  mutables := h.mutables

theorem DefMatch.refl (hT : ∀ a, T a a) (d : TypeDef) (f : Bool) : DefMatch T d d f f where
  kind := rfl
  final := rfl
  supertype := by
    cases d.supertype with
    | some a => exact .some (hT _)
    | none => exact .none
  params _ := List.forall₂_same.2 fun a _ => hT a
  results _ := List.forall₂_same.2 fun a _ => hT a
  fields _ := List.forall₂_same.2 fun a _ => hT a
  mutables _ := rfl

theorem DefMatch.symm (h : DefMatch T d d' f f') : DefMatch (flip T) d' d f' f where
  kind := h.kind.symm
  final := h.final.symm
  supertype := by
    have hs := h.supertype
    generalize d.supertype = x, d'.supertype = y at hs
    cases hs with
    | some hab => exact .some hab
    | none => exact .none
  params hk := (h.params (h.kind.trans hk)).flip
  results hk := (h.results (h.kind.trans hk)).flip
  fields hk := (h.fields (h.kind ▸ hk)).flip
  mutables hk := (h.mutables (h.kind ▸ hk)).symm

theorem forall₂_comp {as bs cs : List Ty} (h : List.Forall₂ T as bs) (h' : List.Forall₂ U bs cs) :
    List.Forall₂ (Relation.Comp T U) as cs := by
  induction h generalizing cs with
  | nil =>
    cases h'
    exact .nil
  | cons hab _ ih =>
    cases h' with
    | cons hbc h' => exact .cons ⟨_, hab, hbc⟩ (ih h')

theorem DefMatch.comp (h : DefMatch T d d' f f') (h' : DefMatch U d' d'' f' f'') :
    DefMatch (Relation.Comp T U) d d'' f f'' where
  kind := h.kind.trans h'.kind
  final := h.final.trans h'.final
  supertype := by
    have hs := h.supertype
    have hs' := h'.supertype
    generalize d.supertype = x, d'.supertype = y, d''.supertype = z at hs hs'
    cases hs with
    | some hab =>
      cases hs' with
      | some hbc => exact .some ⟨_, hab, hbc⟩
    | none =>
      cases hs'
      exact .none
  params hk := forall₂_comp (h.params hk) (h'.params (h.kind ▸ hk))
  results hk := forall₂_comp (h.results hk) (h'.results (h.kind ▸ hk))
  fields hk := forall₂_comp (h.fields hk) (h'.fields (h.kind ▸ hk))
  mutables hk := (h.mutables hk).trans (h'.mutables (h.kind ▸ hk))

end

theorem forall₂_mono_mem {T U : Ty → Ty → Prop} {as bs : List Ty} (h : List.Forall₂ T as bs)
    (hTU : ∀ a ∈ as, ∀ b ∈ bs, T a b → U a b) : List.Forall₂ U as bs := by
  induction h with
  | nil => exact .nil
  | cons hab _ ih =>
    refine .cons (hTU _ (by simp) _ (by simp) hab) (ih fun a ha b hb => hTU a (by simp [ha]) b (by simp [hb]))

/-- only the types that the definitions mention matter -/
theorem DefMatch.mono_mem {T U : Ty → Ty → Prop} {d d' : TypeDef} {f f' : Bool} (h : DefMatch T d d' f f')
    (hTU : ∀ a ∈ d.types, ∀ b ∈ d'.types, T a b → U a b) : DefMatch U d d' f f' where
  kind := h.kind
  final := h.final
  supertype := by
    have hs := h.supertype
    generalize ha : d.supertype = x, hb : d'.supertype = y at hs
    cases hs with
    | some hab => exact .some (hTU _ (by simp [TypeDef.types, ha]) _ (by simp [TypeDef.types, hb]) hab)
    | none => exact .none
  params hk := forall₂_mono_mem (h.params hk) fun a ha b hb => hTU a (by simp [TypeDef.types, hk, ha]) b
    (by simp [TypeDef.types, h.kind ▸ hk, hb])
  results hk := forall₂_mono_mem (h.results hk) fun a ha b hb => hTU a (by simp [TypeDef.types, hk, ha]) b
    (by simp [TypeDef.types, h.kind ▸ hk, hb])
  fields hk := forall₂_mono_mem (h.fields hk) fun a ha b hb => hTU a (by simp [TypeDef.types, hk, ha]) b
    (by simp [TypeDef.types, h.kind ▸ hk, hb])
  mutables := h.mutables


/-- one comparison of two types: their rec groups, and their offsets in them -/
def typeRelator (modules : ModuleId → LinkModule) : Relator TypeNode where
  rel R x y :=
    let A := modules x.1
    let B := modules y.1
    let ga := A.recGroup x.2
    let gb := B.recGroup y.2
    ga.2 = gb.2 ∧ x.2 - ga.1 = y.2 - gb.1 ∧ ∀ k < ga.2,
      DefMatch (TyMatch (RefMatch (fun u v => R (x.1, u) (y.1, v)) ga gb)) (A.typeDef (ga.1 + k)) (B.typeDef (gb.1 + k))
        (A.final (ga.1 + k)) (B.final (gb.1 + k))
  mono hRS _ _ h := ⟨h.1, h.2.1, fun k hk => (h.2.2 k hk).mono fun _ _ => .mono fun _ _ => .mono fun _ _ => hRS _ _⟩
  refl x := ⟨rfl, rfl, fun _ _ => .refl (.refl fun u =>
    RefMatch.refl (R := fun u v => (x.1, u) = (x.1, v)) (fun _ => rfl) _ u) _ _⟩
  symm h := ⟨h.1.symm, h.2.1.symm, fun k hk => (h.2.2 k (h.1 ▸ hk)).symm.mono fun _ _ h => h.symm.mono fun _ _ => .symm⟩
  comp h h' := ⟨h.1.trans h'.1, h.2.1.trans h'.2.1, fun k hk =>
    ((h.2.2 k hk).comp (h'.2.2 k (h.1 ▸ hk))).mono fun _ _ ⟨_, h, h'⟩ => (h.comp h').mono fun _ _ ⟨_, h, h'⟩ =>
      (h.comp h').mono fun _ _ ⟨_, h, h'⟩ => ⟨_, h, h'⟩⟩

/-- two types are the same -/
def SameType (modules : ModuleId → LinkModule) : TypeNode → TypeNode → Prop := (typeRelator modules).Bisimilar

/-! ## Modules as the parser leaves them -/

/-- `wah_canonicalize_type_ref` -/
def canonicalizeTypeRef (M : LinkModule) (g : Nat × Nat) : Ty → Ty
  | .ref n (.idx u) => if inGroup g u then .ref n (.idx u) else .ref n (.idx (M.canon u))
  | t => t

/-- `wah_canon_ref_eq` -/
def canonRefEq (ga gb : Nat × Nat) : Ty → Ty → Bool
  | .ref n (.idx u), .ref n' (.idx v) =>
    if n ≠ n' then false
    else if inGroup ga u ∧ inGroup gb v then decide (u - ga.1 = v - gb.1)
    else if inGroup ga u ∨ inGroup gb v then false
    else decide (u = v)
  | ta, tb => decide (ta = tb)

/-- `wah_types_structurally_equal` -/
def typesStructurallyEqual (M : LinkModule) (a b : Nat) : Bool :=
  let ga := M.recGroup a
  let gb := M.recGroup b
  (allChecks (typeChecks
    (fun ta tb => plainCheck (canonRefEq ga gb (canonicalizeTypeRef M ga ta) (canonicalizeTypeRef M gb tb)))
    (M.typeDef a) (M.typeDef b) (M.final a) (M.final b)) ()).1

/-- the type index of a reference type is below a bound -/
def Ty.idxBelow (bound : Nat) (t : Ty) : Bool := t.typeIdx.all fun u => decide (u < bound)

/-- the variance of a function type in its declared supertype -/
def funcSubtype (M : Module) (sub sup : FuncType) : Bool :=
  decide (sub.params.length = sup.params.length) && decide (sub.results.length = sup.results.length) &&
    (List.zipWith M.typeIsSubtype sup.params sub.params).all id &&
    (List.zipWith M.typeIsSubtype sub.results sup.results).all id

/-- what `wah_parse_type_section` and `wah_module_build_type_metadata` establish: rec groups are consecutive types that
only refer to themselves and to earlier groups, the canonical map sends groups to equal groups that are not mapped
further, and supertypes are of the same kind and fit -/
structure LinkModule.WellFormed (M : LinkModule) : Prop where
  canon_range : M.canonicalMap.length ≤ M.typeCount
  canon_le : ∀ i < M.typeCount, M.canon i ≤ i
  canon_members : ∀ i < M.typeCount, M.canon i = i → ∀ k < (M.recGroup i).2, M.canon ((M.recGroup i).1 + k) =
    (M.recGroup i).1 + k
  canon_canon : ∀ i < M.typeCount, M.canon (M.canon i) = M.canon i
  canon_offset : ∀ i < M.typeCount, (M.recGroup i).2 = (M.recGroup (M.canon i)).2 ∧
    i - (M.recGroup i).1 = M.canon i - (M.recGroup (M.canon i)).1
  canon_equal : ∀ i < M.typeCount, ∀ k < (M.recGroup i).2,
    typesStructurallyEqual M ((M.recGroup i).1 + k) ((M.recGroup (M.canon i)).1 + k) = true
  group_self : ∀ i < M.typeCount, inGroup (M.recGroup i) i
  group_end : ∀ i < M.typeCount, (M.recGroup i).1 + (M.recGroup i).2 ≤ M.typeCount
  group_members : ∀ i < M.typeCount, ∀ k < (M.recGroup i).2, M.recGroup ((M.recGroup i).1 + k) = M.recGroup i
  refs_below : ∀ i < M.typeCount, ∀ t ∈ (M.typeDef i).types, t.idxBelow ((M.recGroup i).1 + (M.recGroup i).2) = true
  no_bot : ∀ i < M.typeCount, .bot ∉ (M.typeDef i).types
  super_kind : ∀ i < M.typeCount, ∀ j, M.supertype i = some j → (M.typeDef j).kind = (M.typeDef i).kind
  super_func : ∀ i < M.typeCount, ∀ j, M.supertype i = some j → (M.typeDef i).kind = .func →
    funcSubtype M.toModule (M.typeDef i).func (M.typeDef j).func = true
  reprs_kind : ∀ p ∈ M.reprs, p.2 < M.typeCount ∧
    (M.typeDef p.2).kind = match p.1 with | .struct => .struct | .array => .array
  paired : ∀ i < M.typeCount, (M.typeDef i).Paired
  functions_kind : ∀ i ∈ M.functionTypeIndices, i < M.typeCount ∧ (M.typeDef i).kind = .func

/-! ## Checks that decide -/

section
variable {σ : Type} {I : σ → Prop} {C Q Q' : Prop} {c : MemoCheck σ} {cs cs' : List (MemoCheck σ)}
  {refEq : Ty → Ty → MemoCheck σ} {T : Ty → Ty → Prop}

/-- a check that shows `Q` and keeps an invariant when it passes, and under `C` passes whenever `Q` holds -/
def Decides (I : σ → Prop) (C : Prop) (c : MemoCheck σ) (Q : Prop) : Prop :=
  ∀ s, I s → (∀ s', c s = (true, s') → I s' ∧ Q) ∧ (C → Q → (c s).1 = true)

theorem Decides.congr (h : Decides I C c Q) (hQ : Q ↔ Q') : Decides I C c Q' := by
  intro s hs
  obtain ⟨hsound, hcomplete⟩ := h s hs
  refine ⟨fun s' hc => ?_, fun hC hq => hcomplete hC (hQ.2 hq)⟩
  obtain ⟨hs', hq⟩ := hsound s' hc
  exact ⟨hs', hQ.1 hq⟩

theorem Decides.weaken {C' : Prop} (h : Decides I C c Q) (hC : C' → C) : Decides I C' c Q :=
  fun s hs => ⟨(h s hs).1, fun hc => (h s hs).2 (hC hc)⟩

theorem Decides.plain (b : Bool) : Decides I C (plainCheck b) (b = true) := by
  intro s hs
  refine ⟨fun s' hc => ?_, fun _ hb => hb⟩
  obtain ⟨rfl, rfl⟩ := Prod.mk.inj hc
  exact ⟨hs, rfl⟩

theorem Decides.nil : Decides I C (allChecks []) True := by
  intro s hs
  refine ⟨fun s' hc => ?_, fun _ _ => rfl⟩
  obtain ⟨-, rfl⟩ := Prod.mk.inj hc
  exact ⟨hs, trivial⟩

theorem Decides.cons (h : Decides I C c Q) (h' : Q → Decides I C (allChecks cs) Q') :
    Decides I C (allChecks (c :: cs)) (Q ∧ Q') := by
  intro s hs
  obtain ⟨hsound, hcomplete⟩ := h s hs
  rw [allChecks]
  rcases hc : c s with ⟨_ | _, s₁⟩
  · refine ⟨fun s' hf => ?_, fun hC hq => ?_⟩
    · simp at hf
    · have hpass := hcomplete hC hq.1
      rw [hc] at hpass
      cases hpass
  · obtain ⟨hs₁, hq⟩ := hsound s₁ hc
    obtain ⟨hsound', hcomplete'⟩ := h' hq s₁ hs₁
    refine ⟨fun s' hrest => ?_, fun hC hq => hcomplete' hC hq.2⟩
    obtain ⟨hs', hq'⟩ := hsound' s' hrest
    exact ⟨hs', hq, hq'⟩

/-- two lists of checks in order -/
theorem allChecks_append (cs cs' : List (MemoCheck σ)) : allChecks (cs ++ cs') = allChecks (allChecks cs :: cs') := by
  induction cs with
  | nil => rfl
  | cons c cs ih =>
    funext s
    rw [List.cons_append, allChecks, ih, allChecks, allChecks]
    rcases c s with ⟨_ | _, s₁⟩ <;> rfl

theorem Decides.append (h : Decides I C (allChecks cs) Q) (h' : Decides I C (allChecks cs') Q') :
    Decides I C (allChecks (cs ++ cs')) (Q ∧ Q') := by
  rw [allChecks_append]
  exact h.cons fun _ => h'

theorem Decides.flatMap {α : Type} {f : α → List (MemoCheck σ)} {R : α → Prop} (l : List α)
    (h : ∀ k ∈ l, Decides I C (allChecks (f k)) (R k)) : Decides I C (allChecks (l.flatMap f)) (∀ k ∈ l, R k) := by
  induction l with
  | nil => exact Decides.nil.congr (by simp)
  | cons k l ih =>
    rw [List.flatMap_cons]
    have hrest : Decides I C (allChecks (l.flatMap f)) (∀ k ∈ l, R k) := ih fun k' hk => h k' (by simp [hk])
    exact ((h k (by simp)).append hrest).congr List.forall_mem_cons.symm

theorem Decides.zipWith {as bs : List Ty} (hlen : as.length = bs.length)
    (h : ∀ a ∈ as, ∀ b ∈ bs, Decides I C (refEq a b) (T a b)) :
    Decides I C (allChecks (List.zipWith refEq as bs)) (List.Forall₂ T as bs) := by
  induction as generalizing bs with
  | nil =>
    obtain rfl : bs = [] := List.eq_nil_of_length_eq_zero hlen.symm
    exact Decides.nil.congr (by simp)
  | cons a as ih =>
    obtain _ | ⟨b, bs⟩ := bs
    · simp at hlen
    · have hrest : Decides I C (allChecks (List.zipWith refEq as bs)) (List.Forall₂ T as bs) :=
        ih (by simpa using hlen) fun a' ha b' hb => h a' (by simp [ha]) b' (by simp [hb])
      exact ((h a (by simp) b (by simp)).cons fun _ => hrest).congr List.forall₂_cons.symm

theorem Decides.supertypes {d d' : TypeDef} (h : ∀ a ∈ d.types, ∀ b ∈ d'.types, Decides I C (refEq a b) (T a b)) :
    Decides I C (supertypeCheck refEq d.supertype d'.supertype)
      (Option.Rel (fun a b => T (.ofIdx a) (.ofIdx b)) d.supertype d'.supertype) := by
  cases ha : d.supertype with
  | none =>
    cases hb : d'.supertype with
    | none => exact (Decides.plain true).congr (by simp)
    | some b => exact (Decides.plain false).congr (by simp)
  | some a =>
    cases hb : d'.supertype with
    | none => exact (Decides.plain false).congr (by simp)
    | some b => exact (h _ (by simp [TypeDef.types, ha]) _ (by simp [TypeDef.types, hb])).congr (by simp)

/-- fields by their types and mutabilities -/
theorem Decides.fields {fa fb : List (Ty × Bool)} (hlen : fa.length = fb.length)
    (h : ∀ x ∈ fa, ∀ y ∈ fb, Decides I C (refEq x.1 y.1) (T x.1 y.1)) :
    Decides I C (allChecks (fieldChecks refEq fa fb)) (List.Forall₂ (fun x y => T x.1 y.1 ∧ x.2 = y.2) fa fb) := by
  induction fa generalizing fb with
  | nil =>
    obtain rfl : fb = [] := List.eq_nil_of_length_eq_zero hlen.symm
    exact Decides.nil.congr (by simp)
  | cons x fa ih =>
    obtain _ | ⟨y, fb⟩ := fb
    · simp at hlen
    · have hrest : Decides I C (allChecks (fieldChecks refEq fa fb))
          (List.Forall₂ (fun x y => T x.1 y.1 ∧ x.2 = y.2) fa fb) :=
        ih (by simpa using hlen) fun x' hx y' hy => h x' (by simp [hx]) y' (by simp [hy])
      have hfirst := (h x (by simp) y (by simp)).cons fun _ => (Decides.plain (decide (x.2 = y.2))).cons fun _ => hrest
      refine hfirst.congr ?_
      rw [List.forall₂_cons, decide_eq_true_iff, and_assoc]

theorem forall₂_zip_iff {as bs : List Ty} {ms ns : List Bool} (ha : ms.length = as.length) (hb : ns.length = bs.length)
    (hlen : as.length = bs.length) :
    List.Forall₂ (fun x y : Ty × Bool => T x.1 y.1 ∧ x.2 = y.2) (as.zip ms) (bs.zip ns) ↔
      List.Forall₂ T as bs ∧ ms = ns := by
  induction as generalizing bs ms ns with
  | nil =>
    obtain rfl : bs = [] := List.eq_nil_of_length_eq_zero hlen.symm
    obtain rfl : ms = [] := List.eq_nil_of_length_eq_zero ha
    obtain rfl : ns = [] := List.eq_nil_of_length_eq_zero hb
    simp
  | cons a as ih =>
    obtain _ | ⟨b, bs⟩ := bs
    · simp at hlen
    obtain _ | ⟨m, ms⟩ := ms
    · simp at ha
    obtain _ | ⟨n, ns⟩ := ns
    · simp at hb
    rw [List.zip_cons_cons, List.zip_cons_cons, List.forall₂_cons, List.forall₂_cons, List.cons.injEq,
      ih (by simpa using ha) (by simpa using hb) (by simpa using hlen)]
    exact and_and_and_comm

theorem Decides.funcs {ft ft' : FuncType}
    (h : ∀ a ∈ ft.params ++ ft.results, ∀ b ∈ ft'.params ++ ft'.results, Decides I C (refEq a b) (T a b)) :
    Decides I C
      (allChecks (plainCheck (decide (ft.params.length = ft'.params.length) &&
        decide (ft.results.length = ft'.results.length)) ::
        (List.zipWith refEq ft.params ft'.params ++ List.zipWith refEq ft.results ft'.results)))
      (List.Forall₂ T ft.params ft'.params ∧ List.Forall₂ T ft.results ft'.results) := by
  have hrest : (decide (ft.params.length = ft'.params.length) && decide (ft.results.length = ft'.results.length)) =
      true → Decides I C (allChecks (List.zipWith refEq ft.params ft'.params ++
        List.zipWith refEq ft.results ft'.results))
        (List.Forall₂ T ft.params ft'.params ∧ List.Forall₂ T ft.results ft'.results) := by
    intro hlen
    simp only [Bool.and_eq_true, decide_eq_true_eq] at hlen
    apply Decides.append
    · exact .zipWith hlen.1 fun a ha b hb => h a (by simp [ha]) b (by simp [hb])
    · exact .zipWith hlen.2 fun a ha b hb => h a (by simp [ha]) b (by simp [hb])
  refine ((Decides.plain _).cons hrest).congr ⟨And.right, fun hq => ⟨?_, hq⟩⟩
  simp [hq.1.length_eq, hq.2.length_eq]

theorem Decides.structs {d d' : TypeDef} (hd : d.Paired) (hd' : d'.Paired)
    (h : ∀ a ∈ d.fieldTypes, ∀ b ∈ d'.fieldTypes, Decides I C (refEq a b) (T a b)) :
    Decides I C
      (allChecks (plainCheck (decide (d.fieldTypes.length = d'.fieldTypes.length)) ::
        fieldChecks refEq d.fields d'.fields))
      (List.Forall₂ T d.fieldTypes d'.fieldTypes ∧ d.fieldMutables = d'.fieldMutables) := by
  unfold TypeDef.Paired at hd hd'
  have hrest : decide (d.fieldTypes.length = d'.fieldTypes.length) = true →
      Decides I C (allChecks (fieldChecks refEq d.fields d'.fields))
        (List.Forall₂ T d.fieldTypes d'.fieldTypes ∧ d.fieldMutables = d'.fieldMutables) := by
    intro hlen
    have hlen := of_decide_eq_true hlen
    have hfields : d.fields.length = d'.fields.length := by simp [TypeDef.fields, hd, hd', hlen]
    refine (Decides.fields hfields fun x hx y hy => ?_).congr (forall₂_zip_iff hd hd' hlen)
    exact h x.1 (List.of_mem_zip hx).1 y.1 (List.of_mem_zip hy).1
  exact ((Decides.plain _).cons hrest).congr ⟨And.right, fun hq => ⟨decide_eq_true hq.1.length_eq, hq⟩⟩

/-- the checks of two definitions decide whether they match, when the comparison of the types in them does -/
theorem Decides.types {d d' : TypeDef} {f g : Bool} (hd : d.Paired) (hd' : d'.Paired)
    (h : ∀ a ∈ d.types, ∀ b ∈ d'.types, Decides I C (refEq a b) (T a b)) :
    Decides I C (allChecks (typeChecks refEq d d' f g)) (DefMatch T d d' f g) := by
  unfold typeChecks
  split_ifs with hkind
  · refine ((Decides.plain _).cons fun hk => (Decides.plain _).cons fun _ => (Decides.supertypes h).cons fun _ =>
      Decides.funcs (T := T) fun a ha b hb => ?_).congr ⟨?_, fun hm => ?_⟩
    · have hkind' : d'.kind = .func := (of_decide_eq_true hk).symm.trans hkind
      exact h a (by simp [TypeDef.types, hkind, List.mem_append.1 ha]) b
        (by simp [TypeDef.types, hkind', List.mem_append.1 hb])
    · rintro ⟨hk, hf, hs, hp, hr⟩
      exact ⟨of_decide_eq_true hk, of_decide_eq_true hf, hs, fun _ => hp, fun _ => hr, fun hn => absurd hkind hn,
        fun hn => absurd hkind hn⟩
    · exact ⟨decide_eq_true hm.kind, decide_eq_true hm.final, hm.supertype, hm.params hkind, hm.results hkind⟩
  · refine ((Decides.plain _).cons fun hk => (Decides.plain _).cons fun _ => (Decides.supertypes h).cons fun _ =>
      Decides.structs (T := T) hd hd' fun a ha b hb => ?_).congr ⟨?_, fun hm => ?_⟩
    · have hkind' : d'.kind ≠ .func := fun hn => hkind ((of_decide_eq_true hk).trans hn)
      exact h a (by simp [TypeDef.types, hkind, ha]) b (by simp [TypeDef.types, hkind', hb])
    · rintro ⟨hk, hf, hs, hp, hm⟩
      exact ⟨of_decide_eq_true hk, of_decide_eq_true hf, hs, fun hn => absurd hn hkind, fun hn => absurd hn hkind,
        fun _ => hp, fun _ => hm⟩
    · exact ⟨decide_eq_true hm.kind, decide_eq_true hm.final, hm.supertype, hm.fields hkind, hm.mutables hkind⟩

end

/-! ## The canonical map -/

section
variable {M : LinkModule} {ga gb : Nat × Nat} {ta tb : Ty}

theorem TyMatch.of_eq {ρ : Nat → Nat → Prop} (h : ta = tb) (hidx : ∀ n u n' v, ta = .ref n (.idx u) →
    tb = .ref n' (.idx v) → False) : TyMatch ρ ta tb := by
  subst h
  exact .other (Ty.typeIdx_eq_none fun n u ha => hidx n u n u ha ha)

theorem canonRefEq_match (h : canonRefEq ga gb ta tb = true) : TyMatch (RefMatch Eq ga gb) ta tb := by
  unfold canonRefEq at h
  split at h
  · rename_i n u n' v
    split_ifs at h with hn hin hin'
    · push Not at hn
      subst hn
      exact .idx (Or.inl ⟨hin.1, hin.2, of_decide_eq_true h⟩)
    · push Not at hn hin'
      subst hn
      exact .idx (Or.inr ⟨hin'.1, hin'.2, of_decide_eq_true h⟩)
  · rename_i hidx
    exact .of_eq (of_decide_eq_true h) fun n u n' v ha hb => hidx n u n' v ha hb

/-- a type and its canonical form, for types that refer to their own group and to earlier ones -/
theorem canonicalizeTypeRef_match (hcanon : ∀ u, M.canon u ≤ u) (ha : ta.idxBelow (ga.1 + ga.2)) :
    TyMatch (RefMatch (fun u v => M.canon u = v) ga ga) ta (canonicalizeTypeRef M ga ta) := by
  unfold canonicalizeTypeRef
  split
  · rename_i n u
    have hlt : u < ga.1 + ga.2 := by simpa [Ty.idxBelow, Ty.typeIdx] using ha
    split_ifs with hin
    · exact .idx (Or.inl ⟨hin, hin, rfl⟩)
    · refine .idx (Or.inr ⟨hin, fun hin' => ?_, rfl⟩)
      have hle : M.canon u ≤ u := hcanon u
      unfold inGroup at hin hin'
      omega
  · rename_i hidx
    exact .of_eq rfl fun n u _ _ ha _ => hidx n u ha

/-- structural equality is the match of the definitions, with the comparison of canonicalized references -/
theorem typesStructurallyEqual_iff {a b : Nat} (ha : (M.typeDef a).Paired) (hb : (M.typeDef b).Paired) :
    typesStructurallyEqual M a b = true ↔
      DefMatch (fun ta tb => canonRefEq (M.recGroup a) (M.recGroup b) (canonicalizeTypeRef M (M.recGroup a) ta)
        (canonicalizeTypeRef M (M.recGroup b) tb) = true) (M.typeDef a) (M.typeDef b) (M.final a) (M.final b) := by
  have hchecks := Decides.types (I := fun _ : Unit => True) (C := True) (f := M.final a) (g := M.final b) ha hb
    fun ta _ tb _ => Decides.plain (canonRefEq (M.recGroup a) (M.recGroup b) (canonicalizeTypeRef M (M.recGroup a) ta)
      (canonicalizeTypeRef M (M.recGroup b) tb))
  obtain ⟨hsound, hcomplete⟩ := hchecks () trivial
  exact ⟨fun h => (hsound () (Prod.ext h rfl)).2, hcomplete trivial⟩

namespace LinkModule.WellFormed
variable (hM : M.WellFormed)
include hM

theorem typeDef_paired (i : Nat) : (M.typeDef i).Paired := by
  by_cases hi : i < M.typeCount
  · exact hM.paired i hi
  · have hnone : M.typeDefs[i]? = none := List.getElem?_eq_none (Nat.not_lt.1 hi)
    simp [typeDef, hnone, TypeDef.Paired]

theorem canon_of_not_lt {i : Nat} (hi : ¬ i < M.typeCount) : M.canon i = i := by
  have hlen : M.canonicalMap.length ≤ i := hM.canon_range.trans (Nat.not_lt.1 hi)
  simp [Module.canon, List.getElem?_eq_none hlen]

theorem canon_le_self (u : Nat) : M.canon u ≤ u := by
  by_cases hu : u < M.typeCount
  · exact hM.canon_le u hu
  · exact (hM.canon_of_not_lt hu).le

/-- a member of the group of a type -/
theorem member_lt {i k : Nat} (hi : i < M.typeCount) (hk : k < (M.recGroup i).2) :
    (M.recGroup i).1 + k < M.typeCount := by
  have hend := hM.group_end i hi
  omega

/-- a member of a group only mentions its own group and earlier ones -/
theorem mention_below {i k : Nat} {t : Ty} (hi : i < M.typeCount) (hk : k < (M.recGroup i).2)
    (ht : t ∈ (M.typeDef ((M.recGroup i).1 + k)).types) :
    t.idxBelow ((M.recGroup i).1 + (M.recGroup i).2) = true := by
  have hbelow := hM.refs_below _ (hM.member_lt hi hk) _ ht
  rwa [hM.group_members i hi k hk] at hbelow

theorem canon_lt {i : Nat} (hi : i < M.typeCount) : M.canon i < M.typeCount := (hM.canon_le i hi).trans_lt hi

/-- the definitions of a group match those of its canonical group -/
theorem canon_defMatch {i k : Nat} (hi : i < M.typeCount) (hk : k < (M.recGroup i).2) :
    let g := M.recGroup i
    let gc := M.recGroup (M.canon i)
    DefMatch (TyMatch (RefMatch (fun u v => M.canon u = M.canon v) g gc)) (M.typeDef (g.1 + k)) (M.typeDef (gc.1 + k))
      (M.final (g.1 + k)) (M.final (gc.1 + k)) := by
  intro g gc
  have hic : M.canon i < M.typeCount := hM.canon_lt hi
  have hkc : k < gc.2 := (hM.canon_offset i hi).1 ▸ hk
  have hg : M.recGroup (g.1 + k) = g := hM.group_members i hi k hk
  have hgc : M.recGroup (gc.1 + k) = gc := hM.group_members _ hic k hkc
  have heq := hM.canon_equal i hi k hk
  rw [typesStructurallyEqual_iff (hM.typeDef_paired _) (hM.typeDef_paired _),
    show M.recGroup ((M.recGroup i).1 + k) = g from hg,
    show M.recGroup ((M.recGroup (M.canon i)).1 + k) = gc from hgc] at heq
  refine heq.mono_mem fun ta hta tb htb h => ?_
  have ha := canonicalizeTypeRef_match hM.canon_le_self (hM.mention_below hi hk hta)
  have hb := canonicalizeTypeRef_match hM.canon_le_self (hM.mention_below hic hkc htb)
  refine ((ha.comp (canonRefEq_match h)).comp hb.symm).mono fun u v ⟨w, ⟨w', huw', hw'⟩, hvw⟩ => ?_
  refine ((huw'.comp hw').comp hvw.symm).mono fun u v ⟨w, ⟨w', huw', hw'⟩, hvw⟩ => ?_
  rw [huw', hw', ← hvw]

end LinkModule.WellFormed

end

/-- every module of a program is as the parser leaves it -/
def WellFormedModules (modules : ModuleId → LinkModule) : Prop := ∀ m, (modules m).WellFormed

section
variable {modules : ModuleId → LinkModule} {m : ModuleId} {i j : Nat}

/-- two types of a module with one canonical index match up to canonical indices -/
theorem canon_rel (hM : (modules m).WellFormed) (hi : i < (modules m).typeCount) (hj : j < (modules m).typeCount)
    (h : (modules m).canon i = (modules m).canon j) :
    (typeRelator modules).rel (fun x y => x.1 = y.1 ∧ (modules x.1).canon x.2 = (modules y.1).canon y.2) (m, i)
      (m, j) := by
  obtain ⟨hsi, hoi⟩ := hM.canon_offset i hi
  obtain ⟨hsj, hoj⟩ := hM.canon_offset j hj
  rw [← h] at hsj hoj
  refine ⟨hsi.trans hsj.symm, hoi.trans hoj.symm, fun k hk => ?_⟩
  have hdi := hM.canon_defMatch hi hk
  have hdj := hM.canon_defMatch hj (k := k) (by rw [hsj, ← hsi]; exact hk)
  rw [← h] at hdj
  refine (hdi.comp hdj.symm).mono fun a b ⟨c, hac, hbc⟩ => (hac.comp hbc.symm).mono fun u v ⟨w, huw, hvw⟩ => ?_
  exact (huw.comp hvw.symm).mono fun u v ⟨w, huw, hvw⟩ => ⟨rfl, huw.trans hvw.symm⟩

/-- types with the same canonical index are the same -/
theorem sameType_of_canon (hW : WellFormedModules modules) (h : (modules m).canon i = (modules m).canon j) :
    SameType modules (m, i) (m, j) := by
  refine ⟨fun x y => x.1 = y.1 ∧ (modules x.1).canon x.2 = (modules y.1).canon y.2, ?_, rfl, h⟩
  rintro ⟨m, i⟩ ⟨_, j⟩ ⟨rfl, h⟩
  dsimp only at h
  by_cases hi : i < (modules m).typeCount
  · by_cases hj : j < (modules m).typeCount
    · exact canon_rel (hW m) hi hj h
    · rw [(hW m).canon_of_not_lt hj] at h
      exact absurd (h ▸ (hW m).canon_lt hi) hj
  · have hij : i = j := by
      by_cases hj : j < (modules m).typeCount
      · rw [(hW m).canon_of_not_lt hi] at h
        exact absurd (h ▸ (hW m).canon_lt hj) hi
      · rwa [(hW m).canon_of_not_lt hi, (hW m).canon_of_not_lt hj] at h
    subst hij
    exact (typeRelator modules).mono (fun x y hxy => hxy ▸ ⟨rfl, rfl⟩) ((typeRelator modules).refl _)

theorem sameType_canon (hW : WellFormedModules modules) (hi : i < (modules m).typeCount) :
    SameType modules (m, i) (m, (modules m).canon i) :=
  sameType_of_canon hW ((hW m).canon_canon i hi).symm

end

/-! ## Groups that are the same -/

section
variable {modules : ModuleId → LinkModule} {ma mb : ModuleId} {σ : Type} {I : σ → Prop} {C : Prop}

/-- the pair of modules of a check -/
def pairOf (modules : ModuleId → LinkModule) (ma mb : ModuleId) : ModulePair :=
  ⟨modules ma, modules mb, decide (ma = mb)⟩

@[simp] theorem pairOf_a : (pairOf modules ma mb).a = modules ma := rfl

@[simp] theorem pairOf_b : (pairOf modules ma mb).b = modules mb := rfl

@[simp] theorem pairOf_same : ((pairOf modules ma mb).same = true) = (ma = mb) := by simp [pairOf]

/-- all types of two groups are the same, at equal offsets -/
def SameGroup (modules : ModuleId → LinkModule) (ma mb : ModuleId) (ga gb : Nat × Nat) : Prop :=
  ∀ k < ga.2, SameType modules (ma, ga.1 + k) (mb, gb.1 + k)

/-- the group of a canonical type of the module -/
def CanonGroup (M : LinkModule) (g : Nat × Nat) : Prop := ∃ c < M.typeCount, M.canon c = c ∧ g = M.recGroup c

/-- types of two groups that match when types outside the groups are the same -/
abbrev SameTy (modules : ModuleId → LinkModule) (ma mb : ModuleId) (ga gb : Nat × Nat) : Ty → Ty → Prop :=
  TyMatch (RefMatch (fun u v => SameType modules (ma, u) (mb, v)) ga gb)

theorem CanonGroup.member {M : LinkModule} (hM : M.WellFormed) {g : Nat × Nat} (hg : CanonGroup M g) {k : Nat}
    (hk : k < g.2) : M.recGroup (g.1 + k) = g ∧ M.canon (g.1 + k) = g.1 + k ∧
      ∀ t ∈ (M.typeDef (g.1 + k)).types, t.idxBelow (g.1 + g.2) = true := by
  obtain ⟨c, hc, hcanon, rfl⟩ := hg
  exact ⟨hM.group_members c hc k hk, hM.canon_members c hc hcanon k hk, fun t ht => hM.mention_below hc hk ht⟩

theorem CanonGroup.lt {M : LinkModule} (hM : M.WellFormed) {g : Nat × Nat} (hg : CanonGroup M g) {u : Nat}
    (hu : u < g.1 + g.2) : u < M.typeCount := by
  obtain ⟨c, hc, -, rfl⟩ := hg
  exact hu.trans_le (hM.group_end c hc)
theorem CanonGroup.start_lt {M : LinkModule} (hM : M.WellFormed) {g : Nat × Nat} (hg : CanonGroup M g) :
    g.1 < M.typeCount := by
  obtain ⟨c, hc, -, rfl⟩ := hg
  exact (hM.group_self c hc).1.trans_lt hc

/-- the start of a canonical group is its own canonical index -/
theorem CanonGroup.start_canon {M : LinkModule} (hM : M.WellFormed) {g : Nat × Nat} (hg : CanonGroup M g) :
    0 < g.2 ∧ M.recGroup g.1 = g ∧ M.canon g.1 = g.1 := by
  have hpos : 0 < g.2 := by
    obtain ⟨c, hc, -, rfl⟩ := hg
    have hin := hM.group_self c hc
    unfold inGroup at hin
    omega
  obtain ⟨hgroup, hcanon, -⟩ := hg.member hM hpos
  exact ⟨hpos, hgroup, hcanon⟩

/-- whether the canonical index is in a canonical group, for an index that may be mentioned there -/
theorem CanonGroup.inGroup_canon {M : LinkModule} (hM : M.WellFormed) {g : Nat × Nat} (hg : CanonGroup M g) {u : Nat}
    (hu : u < g.1 + g.2) : (inGroup g (M.canon u) ↔ inGroup g u) ∧ (inGroup g u → M.canon u = u) := by
  have hcanon : inGroup g u → M.canon u = u := by
    intro hin
    have hk : u - g.1 < g.2 := by unfold inGroup at hin; omega
    have hmem := (hg.member hM hk).2.1
    rwa [Nat.add_sub_cancel' hin.1] at hmem
  refine ⟨⟨fun hin => ?_, fun hin => (hcanon hin).symm ▸ hin⟩, hcanon⟩
  have hle : M.canon u ≤ u := hM.canon_le_self u
  unfold inGroup at hin ⊢
  omega

/-- a canonical type is in its group, which has no other canonical forms -/
theorem canonGroup_of_lt {M : LinkModule} (hM : M.WellFormed) {u : Nat} (hu : u < M.typeCount) :
    CanonGroup M (M.recGroup (M.canon u)) ∧ inGroup (M.recGroup (M.canon u)) (M.canon u) :=
  ⟨⟨M.canon u, hM.canon_lt hu, hM.canon_canon u hu, rfl⟩, hM.group_self _ (hM.canon_lt hu)⟩

/-- types at equal offsets of groups that are the same -/
theorem SameGroup.sameType {ga gb : Nat × Nat} {u v : Nat} (h : SameGroup modules ma mb ga gb) (hu : inGroup ga u)
    (hv : inGroup gb v) (hoff : u - ga.1 = v - gb.1) : SameType modules (ma, u) (mb, v) := by
  have hk : u - ga.1 < ga.2 := by unfold inGroup at hu; omega
  have hsame := h _ hk
  rw [Nat.add_sub_cancel' hu.1, hoff, Nat.add_sub_cancel' hv.1] at hsame
  exact hsame

/-- types with canonical forms that are the same -/
theorem sameType_of_canon_sameType (hW : WellFormedModules modules) {u v : Nat} (hu : u < (modules ma).typeCount)
    (hv : v < (modules mb).typeCount)
    (h : SameType modules (ma, (modules ma).canon u) (mb, (modules mb).canon v)) : SameType modules (ma, u) (mb, v) :=
  ((sameType_canon hW hu).trans h).trans (sameType_canon hW hv).symm

/-- a type in the definition of a member of the group -/
def LinkModule.MemberType (M : LinkModule) (g : Nat × Nat) (t : Ty) : Prop :=
  ∃ k < g.2, t ∈ (M.typeDef (g.1 + k)).types

/-- the type at index `u` is mentioned by a member of the group, and not a member itself -/
def LinkModule.Mentions (M : LinkModule) (g : Nat × Nat) (u : Nat) : Prop :=
  ¬ inGroup g u ∧ ∃ k < g.2, ∃ t ∈ (M.typeDef (g.1 + k)).types, t.typeIdx = some u

theorem CanonGroup.memberType_below {M : LinkModule} (hM : M.WellFormed) {g : Nat × Nat} (hg : CanonGroup M g) {t : Ty}
    (ht : M.MemberType g t) : t.idxBelow (g.1 + g.2) = true := by
  obtain ⟨k, hk, ht⟩ := ht
  exact (hg.member hM hk).2.2 t ht

end

/-! ## Groups compared with a memo -/

namespace GroupMemo
variable {σ : Type} (memo : GroupMemo σ) (P : ModulePair)

/-- the comparison of two canonical types outside the groups compared -/
def externalRef (ca cb : Nat) : Nat → MemoCheck σ
  | 0 => plainCheck false
  | fuel + 1 =>
    let ha := P.a.recGroup ca
    let hb := P.b.recGroup cb
    memo.externalEq (recGroupEq P (memo.refInRecgroup P fuel ha hb) ha hb) ha hb ca cb

theorem refInRecgroup_idx (modules : ModuleId → LinkModule) (ma mb : ModuleId) (fuel : Nat) (ga gb : Nat × Nat)
    (n n' : Bool) (u v : Nat) (s : σ) :
    memo.refInRecgroup (pairOf modules ma mb) fuel ga gb (.ref n (.idx u)) (.ref n' (.idx v)) s =
      if n ≠ n' then (false, s)
      else if inGroup ga ((modules ma).canon u) ∧ inGroup gb ((modules mb).canon v) then
        (decide ((modules ma).canon u - ga.1 = (modules mb).canon v - gb.1), s)
      else if inGroup ga ((modules ma).canon u) ∨ inGroup gb ((modules mb).canon v) then (false, s)
      else if decide (ma = mb) = true ∧ (modules ma).canon u = (modules mb).canon v then (true, s)
      else memo.externalRef (pairOf modules ma mb) ((modules ma).canon u) ((modules mb).canon v) fuel s := by
  cases fuel <;> rfl

theorem externalRef_succ (modules : ModuleId → LinkModule) (ma mb : ModuleId) (ca cb fuel : Nat) :
    memo.externalRef (pairOf modules ma mb) ca cb (fuel + 1) =
      memo.externalEq (recGroupEq (pairOf modules ma mb) (memo.refInRecgroup (pairOf modules ma mb) fuel
        ((modules ma).recGroup ca) ((modules mb).recGroup cb)) ((modules ma).recGroup ca) ((modules mb).recGroup cb))
        ((modules ma).recGroup ca) ((modules mb).recGroup cb) ca cb := rfl

theorem typeRefEq_idx (modules : ModuleId → LinkModule) (ma mb : ModuleId) (n n' : Bool) (u v : Nat) (s : σ) :
    memo.typeRefEq (pairOf modules ma mb) (.ref n (.idx u)) (.ref n' (.idx v)) s =
      if n ≠ n' then (false, s)
      else if decide (ma = mb) = true ∧ (modules ma).canon u = (modules mb).canon v then (true, s)
      else if ((modules ma).recGroup ((modules ma).canon u)).2 ≠ ((modules mb).recGroup ((modules mb).canon v)).2 then
        (false, s)
      else if (modules ma).canon u - ((modules ma).recGroup ((modules ma).canon u)).1 ≠
          (modules mb).canon v - ((modules mb).recGroup ((modules mb).canon v)).1 then (false, s)
      else recGroupEq (pairOf modules ma mb) (memo.refInRecgroup (pairOf modules ma mb) maxTypeRecursionDepth
        ((modules ma).recGroup ((modules ma).canon u)) ((modules mb).recGroup ((modules mb).canon v)))
        ((modules ma).recGroup ((modules ma).canon u)) ((modules mb).recGroup ((modules mb).canon v)) s := rfl

theorem refInRecgroup_other (fuel : Nat) (ga gb : Nat × Nat) {ta tb : Ty}
    (h : ∀ n u n' v, ta = .ref n (.idx u) → tb = .ref n' (.idx v) → False) :
    memo.refInRecgroup P fuel ga gb ta tb = plainCheck (decide (ta = tb)) := by
  rw [refInRecgroup.eq_def]
  split
  · exact (h _ _ _ _ rfl rfl).elim
  · rfl

theorem typeRefEq_other {ta tb : Ty} (h : ∀ n u n' v, ta = .ref n (.idx u) → tb = .ref n' (.idx v) → False) :
    memo.typeRefEq P ta tb = plainCheck (decide (ta = tb)) := by
  rw [typeRefEq.eq_def]
  split
  · exact (h _ _ _ _ rfl rfl).elim
  · rfl

end GroupMemo

section
variable {modules : ModuleId → LinkModule} {ma mb : ModuleId} {σ : Type} {I : σ → Prop} {C : Prop}

/-- two canonical groups are equal when their definitions match -/
theorem sameGroup_iff (hW : WellFormedModules modules) {ga gb : Nat × Nat} (hga : CanonGroup (modules ma) ga)
    (hgb : CanonGroup (modules mb) gb) (hsize : ga.2 = gb.2) : SameGroup modules ma mb ga gb ↔
      ∀ k < ga.2, DefMatch (SameTy modules ma mb ga gb) ((modules ma).typeDef (ga.1 + k))
        ((modules mb).typeDef (gb.1 + k)) ((modules ma).final (ga.1 + k)) ((modules mb).final (gb.1 + k)) := by
  constructor
  · intro hsame k hk
    have hma := (hga.member (hW ma) hk).1
    have hmb := (hgb.member (hW mb) (hsize ▸ hk)).1
    have hdefs := (Relator.Bisimilar.unfold (hsame k hk)).2.2
    simp only [hma, hmb] at hdefs
    exact hdefs k hk
  · intro hdefs k hk
    have hma := (hga.member (hW ma) hk).1
    have hmb := (hgb.member (hW mb) (hsize ▸ hk)).1
    apply Relator.Bisimilar.fold
    refine ⟨?_, ?_, ?_⟩
    all_goals simp only [hma, hmb]
    · exact hsize
    · omega
    · exact hdefs

/-- the definitions of two groups, at one offset -/
theorem member_decides (hW : WellFormedModules modules) (ma mb : ModuleId) {refEq : Ty → Ty → MemoCheck σ}
    {T : Ty → Ty → Prop} (i j : Nat)
    (h : ∀ ta ∈ ((modules ma).typeDef i).types, ∀ tb ∈ ((modules mb).typeDef j).types,
      Decides I C (refEq ta tb) (T ta tb)) :
    Decides I C
      (allChecks (typeChecks refEq ((modules ma).typeDef i) ((modules mb).typeDef j) ((modules ma).final i)
        ((modules mb).final j)))
      (DefMatch T ((modules ma).typeDef i) ((modules mb).typeDef j) ((modules ma).final i) ((modules mb).final j)) :=
  .types ((hW ma).typeDef_paired i) ((hW mb).typeDef_paired j) h

/-- the comparison of two groups decides whether they are equal, when that of the types in them does -/
theorem recGroupEq_decides (hW : WellFormedModules modules) {ga gb : Nat × Nat} {refEq : Ty → Ty → MemoCheck σ}
    (hga : CanonGroup (modules ma) ga) (hgb : CanonGroup (modules mb) gb)
    (href : ∀ ta tb, (modules ma).MemberType ga ta → (modules mb).MemberType gb tb →
      Decides I C (refEq ta tb) (SameTy modules ma mb ga gb ta tb)) :
    Decides I C (GroupMemo.recGroupEq (pairOf modules ma mb) refEq ga gb)
      (ga.2 = gb.2 ∧ SameGroup modules ma mb ga gb) := by
  intro s hs
  unfold GroupMemo.recGroupEq
  split_ifs with hsize hsame
  · exact ⟨fun s' hf => by simp at hf, fun _ hq => absurd hq.1 hsize⟩
  · obtain ⟨rfl, hstart⟩ : ma = mb ∧ ga.1 = gb.1 := by simpa [pairOf] using hsame
    refine ⟨fun s' hc => ?_, fun _ _ => rfl⟩
    obtain ⟨-, rfl⟩ := Prod.mk.inj hc
    exact ⟨hs, not_not.1 hsize, fun k _ => hstart ▸ .refl _⟩
  · have hsize := not_not.1 hsize
    have hall : Decides I C _ _ := Decides.flatMap (List.range ga.2) fun k hk =>
      member_decides hW ma mb (ga.1 + k) (gb.1 + k) fun ta ha tb hb => href ta tb ⟨k, List.mem_range.1 hk, ha⟩
        ⟨k, hsize ▸ List.mem_range.1 hk, hb⟩
    refine hall.congr ?_ s hs
    simp only [List.mem_range]
    rw [sameGroup_iff hW hga hgb hsize, and_iff_right hsize]

/-- the comparison of two types in canonical groups decides whether they match, when that of external ones does -/
theorem refInRecgroup_decides (hW : WellFormedModules modules) (memo : GroupMemo σ) (fuel : Nat) {ga gb : Nat × Nat}
    (hga : CanonGroup (modules ma) ga) (hgb : CanonGroup (modules mb) gb) {ta tb : Ty}
    (hta : (modules ma).MemberType ga ta) (htb : (modules mb).MemberType gb tb)
    (hext : ∀ u v, u + 1 < (modules ma).typeCount → v < (modules mb).typeCount → (modules ma).Mentions ga u →
      Decides I C (memo.externalRef (pairOf modules ma mb) ((modules ma).canon u) ((modules mb).canon v) fuel)
        (SameType modules (ma, u) (mb, v))) :
    Decides I C (memo.refInRecgroup (pairOf modules ma mb) fuel ga gb ta tb) (SameTy modules ma mb ga gb ta tb) := by
  by_cases hidx : ∀ n u n' v, ta = .ref n (.idx u) → tb = .ref n' (.idx v) → False
  · rw [memo.refInRecgroup_other _ _ _ _ hidx]
    refine (Decides.plain _).congr ⟨fun heq => .of_eq (of_decide_eq_true heq) hidx, fun hm => decide_eq_true ?_⟩
    cases hm with
    | idx => exact (hidx _ _ _ _ rfl rfl).elim
    | other => rfl
  push Not at hidx
  obtain ⟨n, u, n', v, rfl, rfl, -⟩ := hidx
  have hWa := hW ma
  have hWb := hW mb
  have hu : u < ga.1 + ga.2 := by simpa [Ty.idxBelow, Ty.typeIdx] using hga.memberType_below hWa hta
  have hv : v < gb.1 + gb.2 := by simpa [Ty.idxBelow, Ty.typeIdx] using hgb.memberType_below hWb htb
  obtain ⟨hau, hacanon⟩ := hga.inGroup_canon hWa hu
  obtain ⟨hbv, hbcanon⟩ := hgb.inGroup_canon hWb hv
  have hmatch : SameTy modules ma mb ga gb (.ref n (.idx u)) (.ref n' (.idx v)) ↔
      n = n' ∧ RefMatch (fun u v => SameType modules (ma, u) (mb, v)) ga gb u v := by
    constructor
    · intro hm
      cases hm with
      | idx h => exact ⟨rfl, h⟩
      | other h => simp [Ty.typeIdx] at h
    · rintro ⟨rfl, h⟩
      exact .idx h
  intro s hs
  rw [memo.refInRecgroup_idx]
  simp only [decide_eq_true_eq, hau, hbv]
  split_ifs with hn hin hin' hsame
  · exact ⟨fun s' hf => by simp at hf, fun _ hq => absurd (hmatch.1 hq).1 hn⟩
  · refine (Decides.plain _).congr ?_ s hs
    rw [decide_eq_true_iff, hmatch, and_iff_right (not_not.1 hn), hacanon hin.1, hbcanon hin.2]
    exact ⟨fun hoff => Or.inl ⟨hin.1, hin.2, hoff⟩, fun h => h.elim (fun h => h.2.2) fun h => absurd hin.1 h.1⟩
  · refine ⟨fun s' hf => by simp at hf, fun _ hq => ?_⟩
    rcases (hmatch.1 hq).2 with ⟨ha, hb, -⟩ | ⟨ha, hb, -⟩
    · exact absurd ⟨ha, hb⟩ hin
    · exact absurd hin' (not_or.2 ⟨ha, hb⟩)
  · refine ⟨fun s' hc => ?_, fun _ _ => rfl⟩
    obtain ⟨-, rfl⟩ := Prod.mk.inj hc
    obtain ⟨rfl, hcanon⟩ := hsame
    obtain ⟨ha, hb⟩ := not_or.1 hin'
    exact ⟨hs, hmatch.2 ⟨not_not.1 hn, Or.inr ⟨ha, hb, sameType_of_canon hW hcanon⟩⟩⟩
  · obtain ⟨ha, hb⟩ := not_or.1 hin'
    obtain ⟨k, hk, ht⟩ := hta
    have hmention : (modules ma).Mentions ga u := ⟨ha, k, hk, _, ht, rfl⟩
    have hulast : u + 1 < (modules ma).typeCount := by
      have hstart := hga.start_lt hWa
      unfold inGroup at ha
      omega
    refine (hext u v hulast (hgb.lt hWb hv) hmention).congr ?_ s hs
    rw [hmatch, and_iff_right (not_not.1 hn)]
    exact ⟨fun h => Or.inr ⟨ha, hb, h⟩, fun h => h.elim (fun h => absurd h.1 ha) fun h => h.2.2⟩
end

/-! ## Soundness of the equality check -/

section
variable {modules : ModuleId → LinkModule} {ma mb : ModuleId}

/-- the groups the memo has recorded are the same -/
def MemoSound (modules : ModuleId → LinkModule) (ma mb : ModuleId) (memo : List (Nat × Nat)) : Prop :=
  ∀ p ∈ memo, ∀ k < ((modules ma).recGroup p.1).2, SameType modules (ma, p.1 + k) (mb, p.2 + k)

/-- the comparison of two external types is sound, whatever is left of the recursion limit -/
theorem externalRef_sound (hW : WellFormedModules modules) (fuel : Nat) {u v : Nat} (hu : u < (modules ma).typeCount)
    (hv : v < (modules mb).typeCount) : Decides (MemoSound modules ma mb) False
      (listMemo.externalRef (pairOf modules ma mb) ((modules ma).canon u) ((modules mb).canon v) fuel)
      (SameType modules (ma, u) (mb, v)) := by
  induction fuel generalizing u v with
  | zero => exact fun s hs => ⟨fun s' hf => by simp [GroupMemo.externalRef, plainCheck] at hf, False.elim⟩
  | succ fuel ih =>
    obtain ⟨hga, hina⟩ := canonGroup_of_lt (hW ma) hu
    obtain ⟨hgb, hinb⟩ := canonGroup_of_lt (hW mb) hv
    rw [listMemo.externalRef_succ]
    generalize (modules ma).recGroup ((modules ma).canon u) = ga at hga hina ⊢
    generalize (modules mb).recGroup ((modules mb).canon v) = gb at hgb hinb ⊢
    have hstart : (modules ma).recGroup ga.1 = ga := (hga.start_canon (hW ma)).2.1
    have hgroup := recGroupEq_decides (I := MemoSound modules ma mb) (C := False) hW hga hgb fun ta tb hta htb =>
      refInRecgroup_decides hW listMemo fuel hga hgb hta htb fun w z hw hz _ => ih (Nat.lt_of_succ_lt hw) hz
    have hsame : SameGroup modules ma mb ga gb → (modules ma).canon u - ga.1 = (modules mb).canon v - gb.1 →
        SameType modules (ma, u) (mb, v) :=
      fun hgroups hoff => sameType_of_canon_sameType hW hu hv (hgroups.sameType hina hinb hoff)
    intro s hs
    refine ⟨fun s' h => ?_, False.elim⟩
    unfold GroupMemo.externalEq at h
    split_ifs at h with hsize hoff hhas
    · simp at h
    · simp at h
    · obtain ⟨-, rfl⟩ := Prod.mk.inj h
      have hmem : (ga.1, gb.1) ∈ s := of_decide_eq_true hhas
      exact ⟨hs, hsame (fun k hk => hs _ hmem k (by rwa [hstart])) (not_not.1 hoff)⟩
    · rcases hr : GroupMemo.recGroupEq (pairOf modules ma mb)
        (listMemo.refInRecgroup (pairOf modules ma mb) fuel ga gb) ga gb s with ⟨_ | _, s₁⟩
      · simp [hr] at h
      · obtain ⟨hs₁, -, hgroups⟩ := (hgroup s hs).1 s₁ hr
        simp only [hr] at h
        obtain ⟨-, rfl⟩ := Prod.mk.inj h
        refine ⟨fun p hp => ?_, hsame hgroups (not_not.1 hoff)⟩
        rcases List.mem_cons.1 hp with rfl | hp
        · exact fun k hk => hgroups k (by rwa [hstart] at hk)
        · exact hs₁ p hp

/-- **Equal types are the same.** What `wah_cross_module_type_ref_eq` equates is the same type, or the same type of
values without a type index. -/
theorem typeRefEq_sound (hW : WellFormedModules modules) {ta tb : Ty} (hta : ta.idxBelow (modules ma).typeCount)
    (htb : tb.idxBelow (modules mb).typeCount) (h : typeRefEq (pairOf modules ma mb) ta tb = true) :
    TyMatch (fun u v => SameType modules (ma, u) (mb, v)) ta tb := by
  by_cases hidx : ∀ n u n' v, ta = .ref n (.idx u) → tb = .ref n' (.idx v) → False
  · rw [typeRefEq, listMemo.typeRefEq_other _ hidx] at h
    exact .of_eq (of_decide_eq_true h) hidx
  push Not at hidx
  obtain ⟨n, u, n', v, rfl, rfl, -⟩ := hidx
  have hu : u < (modules ma).typeCount := by simpa [Ty.idxBelow, Ty.typeIdx] using hta
  have hv : v < (modules mb).typeCount := by simpa [Ty.idxBelow, Ty.typeIdx] using htb
  obtain ⟨hga, hina⟩ := canonGroup_of_lt (hW ma) hu
  obtain ⟨hgb, hinb⟩ := canonGroup_of_lt (hW mb) hv
  rw [typeRefEq, listMemo.typeRefEq_idx] at h
  split_ifs at h with hn hsame hsize hoff
  · obtain rfl := not_not.1 hn
    obtain ⟨hm, hcanon⟩ := hsame
    obtain rfl : ma = mb := of_decide_eq_true hm
    exact .idx (sameType_of_canon hW hcanon)
  · obtain rfl := not_not.1 hn
    have hgroup := recGroupEq_decides (I := MemoSound modules ma mb) (C := False) hW hga hgb fun ta tb hta htb =>
      refInRecgroup_decides hW listMemo maxTypeRecursionDepth hga hgb hta htb fun w z hw hz _ =>
        externalRef_sound hW maxTypeRecursionDepth (Nat.lt_of_succ_lt hw) hz
    obtain ⟨-, -, hgroups⟩ := (hgroup [] (by simp [MemoSound])).1 _ (Prod.ext h rfl)
    exact .idx (sameType_of_canon_sameType hW hu hv (hgroups.sameType hina hinb (not_not.1 hoff)))

end

end Wah
