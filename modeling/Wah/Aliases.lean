/-
All views of a shared memory or table stay in step.

- `Coherent`: the invariant of the slots. A definition slot is never imported; a complete context has all its imports
  bound; a bound import slot names a definition slot, has its pointer and size, and its context is the owner or a
  registered dependent of it, unless the instantiation was abandoned before the registration.
- `Refreshed`: what a grow may do to a context. Only slots that resolve to the grown slot change, to its new pointer and
  size.
- `views_in_step`: the result over all runs.
-/
import Wah.Sharing

namespace Wah

namespace World
variable {W : World} {c : CtxId}

@[simp] theorem set_self (f : LinkCtx → LinkCtx) : (W.set c f).ctx c = f (W.ctx c) := by simp [set]

theorem set_other (f : LinkCtx → LinkCtx) {d : CtxId} (h : d ≠ c) : (W.set c f).ctx d = W.ctx d := by
  simp [set, h]

theorem set_ctx (f : LinkCtx → LinkCtx) (d : CtxId) : (W.set c f).ctx d = if d = c then f (W.ctx c) else W.ctx d := by
  by_cases h : d = c
  · subst h; simp
  · simp [set_other f h, h]

end World

@[simp] theorem Slot.target_view (s : Slot) (data : Ptr) (size : Nat) :
    ({ s with data := data, size := size } : Slot).target = s.target := rfl

theorem Slot.isImported_of_target {s : Slot} {x : CtxId × Nat} (h : s.target = some x) : s.isImported = true := by
  unfold Slot.target at h
  split_ifs at h with hi
  exact hi

/-! ## What a grow does to a context -/

/-- the view of memory 0 agrees with its slot -/
def LinkCtx.BaseOk (x : LinkCtx) : Prop :=
  ∀ s, (x.slots .memory)[0]? = some s → x.memoryBase = s.data ∧ x.memorySize = s.size

theorem LinkCtx.setBase_baseOk (x : LinkCtx) : x.setBase.BaseOk := by
  intro s hs
  unfold LinkCtx.setBase at hs ⊢
  split at hs
  · rename_i hn
    rw [hn] at hs
    cases hs
  · rename_i t ht
    rw [ht] at hs
    cases hs
    exact ⟨rfl, rfl⟩

/-- fields a grow leaves alone -/
structure LinkCtx.SameShape (x x' : LinkCtx) : Prop where
  created : x'.created = x.created
  importCount : x'.importCount = x.importCount
  linked : x'.linked = x.linked
  dependents : x'.dependents = x.dependents
  gcDependents : x'.gcDependents = x.gcDependents
  budgetCtx : x'.budgetCtx = x.budgetCtx
  gc : x'.gc = x.gc
  isInstantiated : x'.isInstantiated = x.isInstantiated
  mayShareRefs : x'.mayShareRefs = x.mayShareRefs
  instantiateFailed : x'.instantiateFailed = x.instantiateFailed

theorem LinkCtx.SameShape.rfl' (x : LinkCtx) : x.SameShape x := ⟨rfl, rfl, rfl, rfl, rfl, rfl, rfl, rfl, rfl, rfl⟩

theorem LinkCtx.SameShape.trans {x y z : LinkCtx} (h : x.SameShape y) (h' : y.SameShape z) : x.SameShape z :=
  ⟨h'.created.trans h.created, h'.importCount.trans h.importCount, h'.linked.trans h.linked,
    h'.dependents.trans h.dependents, h'.gcDependents.trans h.gcDependents, h'.budgetCtx.trans h.budgetCtx,
    h'.gc.trans h.gc, h'.isInstantiated.trans h.isInstantiated, h'.mayShareRefs.trans h.mayShareRefs,
    h'.instantiateFailed.trans h.instantiateFailed⟩

theorem LinkCtx.setBase_shape (x : LinkCtx) : x.SameShape x.setBase := by
  unfold LinkCtx.setBase
  split <;> exact ⟨rfl, rfl, rfl, rfl, rfl, rfl, rfl, rfl, rfl, rfl⟩

theorem LinkCtx.SameShape.setBase {x y : LinkCtx} (h : x.SameShape y) : x.SameShape y.setBase :=
  h.trans (LinkCtx.setBase_shape y)

@[simp] theorem LinkCtx.setBase_slots (x : LinkCtx) : x.setBase.slots = x.slots := by
  unfold LinkCtx.setBase
  split <;> rfl

@[simp] theorem LinkCtx.setBase_budget (x : LinkCtx) : x.setBase.budget = x.budget := by
  unfold LinkCtx.setBase
  split <;> rfl

/-- a grow of the owner slot `(o, oi)` of kind `k` to `data` and `size` -/
structure Renewal where
  k : Kind
  o : CtxId
  oi : Nat
  data : Ptr
  size : Nat

/-- slot `j` of context `c`, holding `t`, resolves to the grown slot -/
def Renewal.Hits (R : Renewal) (c : CtxId) (j : Nat) (t : Slot) : Prop := (c = R.o ∧ j = R.oi) ∨ t.target = some (R.o, R.oi)

def Renewal.view (R : Renewal) (t : Slot) : Slot := { t with data := R.data, size := R.size }

@[simp] theorem Renewal.view_view (R : Renewal) (t : Slot) : R.view (R.view t) = R.view t := rfl

/-- from `x` to `x'`, both states of context `c`, only slots that resolve to the grown slot may have been renewed -/
structure Refreshed (R : Renewal) (c : CtxId) (x x' : LinkCtx) : Prop where
  shape : x.SameShape x'
  otherKind : ∀ k, k ≠ R.k → x'.slots k = x.slots k
  length : (x'.slots R.k).length = (x.slots R.k).length
  slots : ∀ (j : Nat) (t : Slot), (x.slots R.k)[j]? = some t →
    (x'.slots R.k)[j]? = some t ∨ ((x'.slots R.k)[j]? = some (R.view t) ∧ R.Hits c j t)
  base : x.BaseOk → x'.BaseOk

namespace Refreshed
variable {R : Renewal} {c : CtxId} {x y z : LinkCtx}

theorem refl (R : Renewal) (c : CtxId) (x : LinkCtx) : Refreshed R c x x :=
  ⟨.rfl' x, fun _ _ => rfl, rfl, fun _ _ h => .inl h, fun h => h⟩

theorem trans (h : Refreshed R c x y) (h' : Refreshed R c y z) : Refreshed R c x z where
  shape := h.shape.trans h'.shape
  otherKind k hk := (h'.otherKind k hk).trans (h.otherKind k hk)
  length := h'.length.trans h.length
  slots j t ht := by
    rcases h.slots j t ht with h1 | ⟨h1, hit⟩
    · exact h'.slots j t h1
    · rcases h'.slots j _ h1 with h2 | ⟨h2, _⟩
      · exact .inr ⟨h2, hit⟩
      · exact .inr ⟨by simpa using h2, hit⟩
  base hb := h'.base (h.base hb)

/-- a renewed slot stays renewed -/
theorem keeps_view (h : Refreshed R c x y) {j : Nat} {t : Slot} (ht : (x.slots R.k)[j]? = some (R.view t)) :
    (y.slots R.k)[j]? = some (R.view t) := by
  rcases h.slots j _ ht with h1 | ⟨h1, _⟩
  · exact h1
  · simpa using h1

end Refreshed

/-- writing the grown slot itself, where `c` holds it or an import slot of it -/
theorem storeSlot_refreshed (R : Renewal) (c : CtxId) (x : LinkCtx) (i : Nat)
    (hit : ∀ t, (x.slots R.k)[i]? = some t → R.Hits c i t) :
    Refreshed R c x (LinkCtx.storeSlot R.k i R.data R.size x) ∧
      ∀ t, (x.slots R.k)[i]? = some t → ((LinkCtx.storeSlot R.k i R.data R.size x).slots R.k)[i]? = some (R.view t) := by
  have hslots : (LinkCtx.storeSlot R.k i R.data R.size x).slots =
      Function.update x.slots R.k ((x.slots R.k).modify i R.view) := by
    unfold LinkCtx.storeSlot
    dsimp only
    split_ifs <;> simp <;> rfl
  refine ⟨⟨?_, ?_, ?_, ?_, ?_⟩, ?_⟩
  · unfold LinkCtx.storeSlot
    dsimp only
    split_ifs
    · exact LinkCtx.SameShape.setBase ⟨rfl, rfl, rfl, rfl, rfl, rfl, rfl, rfl, rfl, rfl⟩
    · exact ⟨rfl, rfl, rfl, rfl, rfl, rfl, rfl, rfl, rfl, rfl⟩
  · intro k hk
    rw [hslots, Function.update_of_ne hk]
  · rw [hslots, Function.update_self, List.length_modify]
  · intro j t ht
    rw [hslots, Function.update_self, List.getElem?_modify]
    by_cases hj : i = j
    · subst hj
      exact .inr ⟨by simp [ht], hit t ht⟩
    · exact .inl (by simp [hj, ht])
  · intro hb
    unfold LinkCtx.storeSlot
    dsimp only
    split_ifs with h0
    · exact LinkCtx.setBase_baseOk _
    · intro s hs
      by_cases hk : R.k = .memory
      · have hi : i ≠ 0 := fun hi => h0 ⟨hk, hi⟩
        simp only [hk, Function.update_self, List.getElem?_modify, hi, if_false] at hs
        exact hb s (by simpa using hs)
      · have hs' : (x.slots .memory)[0]? = some s := by
          simpa [Function.update_of_ne (Ne.symm hk)] using hs
        exact hb s hs'
  · intro t ht
    rw [hslots, Function.update_self, List.getElem?_modify]
    simp [ht]

/-- updating aliases renews exactly the import slots of the grown slot, except the excluded one -/
theorem updateAliases_refreshed (R : Renewal) (c : CtxId) (x : LinkCtx) (exclude : Option Nat) :
    Refreshed R c x (x.updateAliases R.k exclude R.o R.oi R.data R.size) ∧
      ∀ j t, (x.slots R.k)[j]? = some t → exclude ≠ some j → t.target = some (R.o, R.oi) →
        ((x.updateAliases R.k exclude R.o R.oi R.data R.size).slots R.k)[j]? = some (R.view t) := by
  have hslots : (x.updateAliases R.k exclude R.o R.oi R.data R.size).slots =
      Function.update x.slots R.k (aliasSlots exclude R.o R.oi R.data R.size (x.slots R.k)) := by
    unfold LinkCtx.updateAliases
    dsimp only
    split_ifs <;> simp
  have hget : ∀ (j : Nat) (t : Slot), (x.slots R.k)[j]? = some t →
      (aliasSlots exclude R.o R.oi R.data R.size (x.slots R.k))[j]? =
        some (if exclude ≠ some j ∧ t.target = some (R.o, R.oi) then R.view t else t) := by
    intro j t ht
    simp [aliasSlots, List.getElem?_mapIdx, ht, Renewal.view]
  refine ⟨⟨?_, ?_, ?_, ?_, ?_⟩, ?_⟩
  · unfold LinkCtx.updateAliases
    dsimp only
    split_ifs
    · exact LinkCtx.SameShape.setBase ⟨rfl, rfl, rfl, rfl, rfl, rfl, rfl, rfl, rfl, rfl⟩
    · exact ⟨rfl, rfl, rfl, rfl, rfl, rfl, rfl, rfl, rfl, rfl⟩
  · intro k hk
    rw [hslots, Function.update_of_ne hk]
  · rw [hslots, Function.update_self]
    simp [aliasSlots]
  · intro j t ht
    rw [hslots, Function.update_self, hget j t ht]
    by_cases hc : exclude ≠ some j ∧ t.target = some (R.o, R.oi)
    · exact .inr ⟨by rw [if_pos hc], .inr hc.2⟩
    · exact .inl (by rw [if_neg hc])
  · intro hb
    unfold LinkCtx.updateAliases
    dsimp only
    split_ifs with h0
    · exact LinkCtx.setBase_baseOk _
    · intro s hs
      by_cases hk : R.k = .memory
      · rw [hk] at hs hget
        simp only [Function.update_self] at hs
        cases hx : (x.slots .memory)[0]? with
        | none => simp [aliasSlots, List.getElem?_mapIdx, hx] at hs
        | some t =>
          rw [hget 0 t hx] at hs
          have hno : ¬ (exclude ≠ some 0 ∧ t.target = some (R.o, R.oi)) := by
            intro hc
            exact h0 ⟨hk, hc.1, by rw [hx]; exact hc.2⟩
          rw [if_neg hno] at hs
          exact hb s (by rw [hx]; exact hs)
      · have hs' : (x.slots .memory)[0]? = some s := by
          simpa [Function.update_of_ne (Ne.symm hk)] using hs
        exact hb s hs'
  · intro j t ht hj htar
    rw [hslots, Function.update_self, hget j t ht, if_pos ⟨hj, htar⟩]

/-! ## What a grow does to the world -/

/-- every context was at most refreshed -/
def World.Refreshed (R : Renewal) (W W' : World) : Prop := ∀ c, Wah.Refreshed R c (W.ctx c) (W'.ctx c)

namespace World.Refreshed
variable {R : Renewal} {W W' W'' : World}

theorem trans (h : W.Refreshed R W') (h' : W'.Refreshed R W'') : W.Refreshed R W'' := fun c => (h c).trans (h' c)

theorem refl (R : Renewal) (W : World) : W.Refreshed R W := fun c => .refl R c _

theorem of_set {c : CtxId} {f : LinkCtx → LinkCtx} (h : Wah.Refreshed R c (W.ctx c) (f (W.ctx c))) :
    W.Refreshed R (W.set c f) := by
  intro d
  by_cases hd : d = c
  · subst hd; simpa using h
  · rw [World.set_other f hd]
    exact .refl R d _

/-- a change of the budget refreshes -/
theorem of_charge (c : CtxId) (n : Nat) :
    W.Refreshed R (W.set c fun x => { x with budget := x.budget.charge n }) :=
  of_set ⟨⟨rfl, rfl, rfl, rfl, rfl, rfl, rfl, rfl, rfl, rfl⟩, fun _ _ => rfl, rfl, fun _ _ h => .inl h, fun h => h⟩

theorem slot (h : W.Refreshed R W') {c : CtxId} {j : Nat} {t : Slot} (ht : W.slot c R.k j = some t) :
    W'.slot c R.k j = some t ∨ (W'.slot c R.k j = some (R.view t) ∧ R.Hits c j t) :=
  (h c).slots j t ht

theorem keeps_view (h : W.Refreshed R W') {c : CtxId} {j : Nat} {t : Slot} (ht : W.slot c R.k j = some (R.view t)) :
    W'.slot c R.k j = some (R.view t) :=
  (h c).keeps_view ht

/-- a slot keeps its target -/
theorem target (h : W.Refreshed R W') {c : CtxId} {j : Nat} {t : Slot} (ht : W.slot c R.k j = some t) :
    ∃ t', W'.slot c R.k j = some t' ∧ t'.target = t.target ∧ (t' = t ∨ t' = R.view t) := by
  rcases h.slot ht with h1 | ⟨h1, _⟩
  · exact ⟨t, h1, rfl, .inl rfl⟩
  · exact ⟨R.view t, h1, rfl, .inr rfl⟩

/-- every slot is one from before, or was renewed because it resolves to the grown slot -/
theorem slot_back (h : W.Refreshed R W') {c : CtxId} {k : Kind} {j : Nat} {s : Slot} (hs : W'.slot c k j = some s) :
    ∃ t, W.slot c k j = some t ∧ (s = t ∨ (k = R.k ∧ s = R.view t ∧ R.Hits c j t)) := by
  by_cases hk : k = R.k
  · subst hk
    have hlen : j < ((W.ctx c).slots R.k).length := by
      rw [← (h c).length]
      exact (List.getElem?_eq_some_iff.1 hs).1
    have ht : W.slot c R.k j = some ((W.ctx c).slots R.k)[j] := List.getElem?_eq_getElem hlen
    rcases h.slot ht with h1 | ⟨h1, hit⟩
    · exact ⟨_, ht, .inl (Option.some_injective _ (hs.symm.trans h1))⟩
    · exact ⟨_, ht, .inr ⟨rfl, Option.some_injective _ (hs.symm.trans h1), hit⟩⟩
  · refine ⟨s, ?_, .inl rfl⟩
    rw [World.slot, ← (h c).otherKind k hk]
    exact hs

theorem imported_back (h : W.Refreshed R W') {c : CtxId} {k : Kind} {j : Nat} {s : Slot} (hs : W'.slot c k j = some s) :
    ∃ t, W.slot c k j = some t ∧ t.isImported = s.isImported := by
  obtain ⟨t, ht, rfl | ⟨-, rfl, -⟩⟩ := h.slot_back hs
  · exact ⟨s, ht, rfl⟩
  · exact ⟨t, ht, rfl⟩

/-- every slot goes on to one that is imported if it is -/
theorem imported_forth (h : W.Refreshed R W') {c : CtxId} {k : Kind} {j : Nat} {s : Slot} (hs : W.slot c k j = some s) :
    ∃ t, W'.slot c k j = some t ∧ t.isImported = s.isImported := by
  by_cases hk : k = R.k
  · subst hk
    rcases h.slot hs with h1 | ⟨h1, -⟩
    · exact ⟨s, h1, rfl⟩
    · exact ⟨R.view s, h1, rfl⟩
  · refine ⟨s, ?_, rfl⟩
    rw [World.slot, (h c).otherKind k hk]
    exact hs

end World.Refreshed

/-- every alias of the grown slot in `c` has been renewed, between `W` and `W'` -/
def Renewed (R : Renewal) (W W' : World) (c : CtxId) : Prop :=
  ∀ j t, W.slot c R.k j = some t → t.target = some (R.o, R.oi) → W'.slot c R.k j = some (R.view t)

theorem Renewed.trans {R : Renewal} {W W' W'' : World} {c : CtxId} (h : Renewed R W W' c) (h' : W'.Refreshed R W'') :
    Renewed R W W'' c :=
  fun j t ht htar => h'.keeps_view (h j t ht htar)

/-- updating all aliases of `c` renews them -/
theorem renewed_of_updateAliases {R : Renewal} {W W' : World} (h : W.Refreshed R W') (c : CtxId) :
    W.Refreshed R (W'.set c (LinkCtx.updateAliases R.k none R.o R.oi R.data R.size)) ∧
      Renewed R W (W'.set c (LinkCtx.updateAliases R.k none R.o R.oi R.data R.size)) c := by
  obtain ⟨hr, hall⟩ := updateAliases_refreshed R c (W'.ctx c) none
  refine ⟨h.trans (.of_set hr), fun j t ht htar => ?_⟩
  obtain ⟨t', ht', htar', hcase⟩ := h.target ht
  have := hall j t' ht' (by simp) (htar'.trans htar)
  rw [World.slot, World.set_self, this]
  rcases hcase with rfl | rfl <;> simp

/-- propagation renews every context it visits -/
theorem foldl_updateAliases {R : Renewal} {W : World} (ts : List CtxId) (W' : World) (h : W.Refreshed R W') :
    W'.Refreshed R (ts.foldl (fun V t => V.set t (LinkCtx.updateAliases R.k none R.o R.oi R.data R.size)) W') ∧
      ∀ t ∈ ts, Renewed R W (ts.foldl (fun V t => V.set t (LinkCtx.updateAliases R.k none R.o R.oi R.data R.size)) W') t := by
  induction ts generalizing W' with
  | nil => exact ⟨.refl R W', fun t ht => by simp at ht⟩
  | cons t rest ih =>
    obtain ⟨hr, hn⟩ := renewed_of_updateAliases h t
    obtain ⟨hr', hn'⟩ := ih _ hr
    have hstep : W'.Refreshed R (W'.set t (LinkCtx.updateAliases R.k none R.o R.oi R.data R.size)) :=
      .of_set (updateAliases_refreshed R t (W'.ctx t) none).1
    refine ⟨hstep.trans hr', fun u hu => ?_⟩
    rcases List.mem_cons.1 hu with rfl | hu
    · exact hn.trans hr'
    · exact hn' u hu

/-- the grow reaches the owner, the running function's context, and every registered dependent of the owner -/
theorem mem_aliasTargets {W : World} {ctx fctx o c : CtxId} (h : c ∈ (W.ctx o).dependents) (hc : c ≠ fctx) :
    c ∈ W.aliasTargets ctx fctx o := by
  unfold World.aliasTargets
  by_cases he : c = ctx
  · subst he
    simp [hc]
  · refine List.mem_append_left _ (List.mem_append_right _ (List.mem_flatMap.2 ⟨c, ?_, by simp⟩))
    simp [h, he, hc]

/-- what a grow does: it refreshes every context, renews the owner slot and every alias of it in the owner or a
registered dependent -/
structure Grown (R : Renewal) (W W' : World) : Prop where
  refreshed : W.Refreshed R W'
  owner : ∀ d, W.slot R.o R.k R.oi = some d → W'.slot R.o R.k R.oi = some (R.view d)
  aliases : ∀ c, c = R.o ∨ c ∈ (W.ctx R.o).dependents → Renewed R W W' c

namespace World
variable {W : World} {ctx fctx : CtxId} {k : Kind} {i : Nat} {s : Slot} {newSize deltaBytes : Nat} {data : Ptr}
  {fill : Cell}

/-- growing an own slot -/
theorem growTo_own (hs : W.slot fctx k i = some s) (ht : s.target = none) :
    Grown ⟨k, fctx, i, data, newSize⟩ W (W.growTo ctx fctx k i s newSize deltaBytes data fill) := by
  let R : Renewal := ⟨k, fctx, i, data, newSize⟩
  let W1 : World := { W with buf := Function.update W.buf data fun n => if n < s.size then W.buf s.data n else fill }
  let W2 := W1.set fctx (LinkCtx.storeSlot k i data newSize)
  let W3 := W2.set (W.root fctx) fun x => { x with budget := x.budget.charge deltaBytes }
  let W5 := W3.set fctx (LinkCtx.updateAliases k none fctx i data newSize)
  have hstore := storeSlot_refreshed R fctx (W.ctx fctx) i fun _ _ => .inl ⟨rfl, rfl⟩
  have h2 : W.Refreshed R W2 := World.Refreshed.of_set (W := W1) hstore.1
  have hown : W2.slot fctx k i = some (R.view s) := by
    rw [slot, show W2.ctx fctx = _ from set_self _]
    exact hstore.2 s hs
  have h3 : W2.Refreshed R W3 := .of_charge _ _
  obtain ⟨h5, hn5⟩ := renewed_of_updateAliases (h2.trans h3) fctx
  obtain ⟨h6, hn6⟩ := foldl_updateAliases (R := R) (W.aliasTargets ctx fctx fctx) W5 h5
  have hend : W.growTo ctx fctx k i s newSize deltaBytes data fill =
      (W.aliasTargets ctx fctx fctx).foldl
        (fun V t => V.set t (LinkCtx.updateAliases k none fctx i data newSize)) W5 := by
    simp only [growTo, ownerOf, ht, Option.getD_none, Option.isSome_none, Bool.false_eq_true, if_false]
    rfl
  rw [hend]
  have h35 : W3.Refreshed R W5 := .of_set (updateAliases_refreshed R fctx (W3.ctx fctx) none).1
  refine ⟨h5.trans h6, fun d hd => ?_, fun c hc => ?_⟩
  · have : d = s := Option.some_injective _ (hd.symm.trans hs)
    subst this
    exact h6.keeps_view (h35.keeps_view (h3.keeps_view hown))
  · by_cases hf : c = fctx
    · subst hf; exact hn5.trans h6
    · exact hn6 c (mem_aliasTargets (hc.resolve_left hf) hf)

/-- growing through an import slot of `(o, oi)` -/
theorem growTo_import {o : CtxId} {oi : Nat} (hs : W.slot fctx k i = some s) (ht : s.target = some (o, oi)) :
    Grown ⟨k, o, oi, data, newSize⟩ W (W.growTo ctx fctx k i s newSize deltaBytes data fill) := by
  let R : Renewal := ⟨k, o, oi, data, newSize⟩
  let W1 : World := { W with buf := Function.update W.buf data fun n => if n < s.size then W.buf s.data n else fill }
  let W2 := W1.set fctx (LinkCtx.storeSlot k i data newSize)
  let W3 := W2.set (W.root o) fun x => { x with budget := x.budget.charge deltaBytes }
  let W4 := W3.set o (LinkCtx.storeSlot k oi data newSize)
  let W4' := W4.set fctx (LinkCtx.updateAliases k (some i) o oi data newSize)
  let W5 := W4'.set o (LinkCtx.updateAliases k none o oi data newSize)
  have hstore := storeSlot_refreshed R fctx (W.ctx fctx) i fun t htt => by
    have : t = s := Option.some_injective _ (htt.symm.trans hs)
    subst this
    exact .inr ht
  have h2 : W.Refreshed R W2 := World.Refreshed.of_set (W := W1) hstore.1
  have hslot : W2.slot fctx k i = some (R.view s) := by
    rw [slot, show W2.ctx fctx = _ from set_self _]
    exact hstore.2 s hs
  have h3 : W2.Refreshed R W3 := .of_charge _ _
  have hstore' := storeSlot_refreshed R o (W3.ctx o) oi fun _ _ => .inl ⟨rfl, rfl⟩
  have h4 : W3.Refreshed R W4 := .of_set hstore'.1
  have hal := updateAliases_refreshed R fctx (W4.ctx fctx) (some i)
  have h4' : W4.Refreshed R W4' := .of_set hal.1
  have h04 := ((h2.trans h3).trans h4).trans h4'
  obtain ⟨h5, hn5⟩ := renewed_of_updateAliases h04 o
  obtain ⟨h6, hn6⟩ := foldl_updateAliases (R := R) (W.aliasTargets ctx fctx o) W5 h5
  have h45 : W4'.Refreshed R W5 := .of_set (updateAliases_refreshed R o (W4'.ctx o) none).1
  have hend : W.growTo ctx fctx k i s newSize deltaBytes data fill =
      (W.aliasTargets ctx fctx o).foldl (fun V t => V.set t (LinkCtx.updateAliases k none o oi data newSize)) W5 := by
    simp only [growTo, ownerOf, ht, Option.getD_some, Option.isSome_some, if_true]
    rfl
  rw [hend]
  refine ⟨h5.trans h6, fun d hd => ?_, fun c hc => ?_⟩
  · -- the owner's slot is written through the import
    have hd3 : ∃ t', W3.slot o k oi = some t' ∧ (t' = d ∨ t' = R.view d) := by
      obtain ⟨t', ht', _, hcase⟩ := (h2.trans h3).target hd
      exact ⟨t', ht', hcase⟩
    obtain ⟨t', ht', hcase⟩ := hd3
    have hw : W4.slot o k oi = some (R.view d) := by
      rw [slot, show W4.ctx o = _ from set_self _]
      have := hstore'.2 t' ht'
      rcases hcase with rfl | rfl <;> simpa using this
    exact h6.keeps_view (h45.keeps_view (h4'.keeps_view hw))
  · by_cases hf : c = fctx
    · subst hf
      -- the slot that was grown itself, and its other aliases in the same context
      have hn : Renewed R W W4' c := by
        intro j t htt htar
        by_cases hj : i = j
        · subst hj
          have : t = s := Option.some_injective _ (htt.symm.trans hs)
          subst this
          exact h4'.keeps_view (h4.keeps_view (h3.keeps_view hslot))
        · obtain ⟨t', ht', htar', hcase⟩ := ((h2.trans h3).trans h4).target htt
          have := hal.2 j t' ht' (by simpa using hj) (htar'.trans htar)
          rw [slot, show W4'.ctx c = _ from set_self _, this]
          rcases hcase with rfl | rfl <;> simp
      exact hn.trans (h45.trans h6)
    · rcases hc with rfl | hc
      · exact hn5.trans h6
      · exact hn6 c (mem_aliasTargets hc hf)

end World

/-! ## The invariant -/

namespace World

/-- an import slot of `c` has the pointer and size of a definition slot, whose context knows `c` -/
def InStep (W : World) (c : CtxId) (k : Kind) (s : Slot) : Prop :=
  ∃ o oi d, s.target = some (o, oi) ∧ W.slot o k oi = some d ∧ (W.ctx o).importCount k ≤ oi ∧ s.data = d.data ∧
    s.size = d.size ∧ (c = o ∨ c ∈ (W.ctx o).dependents)

/-- the view of memory 0 of `c` has been set, or there is nothing to set yet -/
def BaseDue (W : World) (c : CtxId) : Prop :=
  match (W.ctx c).budgetCtx with
  | none => (W.ctx c).mayShareRefs = true ∨ ∀ s, W.slot c .memory 0 = some s → s.isImported = false
  | some _ => (W.ctx c).isInstantiated = true

structure Coherent (W : World) : Prop where
  blank : ∀ c, (W.ctx c).created = false → W.ctx c = {}
  defined : ∀ c k i s, W.slot c k i = some s → (W.ctx c).importCount k ≤ i → s.isImported = false
  complete : ∀ c, (W.ctx c).isInstantiated = true ∨ (W.ctx c).mayShareRefs = true →
    ∀ k i s, W.slot c k i = some s → i < (W.ctx c).importCount k → s.isImported = true
  aliased : ∀ c k i s, W.slot c k i = some s → s.isImported = true → (W.Abandoned c → W.Knows c s) → W.InStep c k s
  base : ∀ c, W.BaseDue c → (W.ctx c).BaseOk
  rooted : ∀ c p, (W.ctx c).budgetCtx = some p →
    (W.ctx p).budgetCtx = none ∧ c ∈ W.owned p ∧ (W.ctx c).mayShareRefs = false
  owns : ∀ p c, c ∈ W.owned p → (W.ctx c).budgetCtx = some p
  shared : ∀ p, (W.ctx p).mayShareRefs = true → ∀ c ∈ W.owned p, (W.ctx c).isInstantiated = true
  finished : ∀ p, (W.ctx p).isInstantiated = true → (W.ctx p).budgetCtx = none → (W.ctx p).mayShareRefs = true

theorem coherent_empty : Coherent empty := by
  constructor
  case blank => exact fun _ _ => rfl
  case defined => intro c k i s h; simp [slot, empty] at h
  case complete => intro c h; simp [empty] at h
  case aliased => intro c k i s h; simp [slot, empty] at h
  case base => intro c _ s hs; simp [empty] at hs
  case rooted => intro c p h; simp [empty] at h
  case owns => intro p c h; simp [owned, empty] at h
  case shared => intro p h; simp [empty] at h
  case finished => intro p h; simp [empty] at h

section
variable {W W' : World}

theorem Knows.mono {c : CtxId} {s : Slot} (h : ∀ o, W'.Registered o c → W.Registered o c) (hk : W'.Knows c s) :
    W.Knows c s :=
  fun o oi ht => (hk o oi ht).imp_right (h o)

/-- registrations come from before when neither list has gained `c` and no heap has gone -/
theorem Registered.back {o c : CtxId} (hroot : W'.root o = W.root o)
    (hdep : c ∈ (W'.ctx o).dependents → c ∈ (W.ctx o).dependents)
    (hgcdep : c ∈ (W'.ctx (W.root o)).gcDependents → c ∈ (W.ctx (W.root o)).gcDependents)
    (hgc : (W.ctx (W.root o)).gc.isSome = true → (W'.ctx (W.root o)).gc.isSome = true) (h : W'.Registered o c) :
    W.Registered o c := by
  obtain ⟨h1, h2⟩ := h
  rw [hroot] at h2
  exact ⟨hdep h1, fun hg => hgcdep (h2 (hgc hg))⟩

/-- whether the view of memory 0 is due depends on the progress and on whether the slot is bound -/
theorem BaseDue.back {c : CtxId} (hd : W'.BaseDue c) (hbu : (W'.ctx c).budgetCtx = (W.ctx c).budgetCtx)
    (hin : (W'.ctx c).isInstantiated = (W.ctx c).isInstantiated)
    (hsh : (W'.ctx c).mayShareRefs = (W.ctx c).mayShareRefs)
    (hslot : ∀ s, W.slot c .memory 0 = some s →
      ∃ s', W'.slot c .memory 0 = some s' ∧ s'.isImported = s.isImported) : W.BaseDue c := by
  unfold BaseDue at hd ⊢
  rw [hbu, hin, hsh] at hd
  cases hb : (W.ctx c).budgetCtx with
  | none =>
    rw [hb] at hd
    refine hd.imp_right fun h s hs => ?_
    obtain ⟨s', hs', he⟩ := hslot s hs
    rw [← he]
    exact h s' hs'
  | some p =>
    rw [hb] at hd
    exact hd

/-- a change that keeps the slots, forgets no dependent, and registers no context that was given up -/
structure Keeps (W W' : World) : Prop where
  created : ∀ c, (W'.ctx c).created = (W.ctx c).created
  slots : ∀ c, (W'.ctx c).slots = (W.ctx c).slots
  importCount : ∀ c, (W'.ctx c).importCount = (W.ctx c).importCount
  base : ∀ c, (W.ctx c).BaseOk → (W'.ctx c).BaseOk
  dependents : ∀ c, (W.ctx c).dependents ⊆ (W'.ctx c).dependents
  registered : ∀ o c, W.Abandoned c → W'.Registered o c → W.Registered o c
  budgetCtx : ∀ c, (W'.ctx c).budgetCtx = (W.ctx c).budgetCtx
  owned : ∀ c, W'.owned c = W.owned c

theorem Keeps.slot (h : Keeps W W') (c : CtxId) (k : Kind) (i : Nat) : W'.slot c k i = W.slot c k i := by
  simp [World.slot, h.slots c]

theorem Keeps.root (h : Keeps W W') (c : CtxId) : W'.root c = W.root c := by simp [World.root, h.budgetCtx c]

theorem Keeps.inStep (h : Keeps W W') {c : CtxId} {k : Kind} {s : Slot} (hs : W.InStep c k s) : W'.InStep c k s := by
  obtain ⟨o, oi, d, ht, hd, hge, hdata, hsize, hdep⟩ := hs
  refine ⟨o, oi, d, ht, by rw [h.slot, hd], by rw [h.importCount]; exact hge, hdata, hsize, ?_⟩
  exact hdep.imp_right fun hm => h.dependents o hm

/-- a change that keeps the slots keeps the invariant, when newly complete contexts are complete, and newly set views
agree with their slots -/
theorem Coherent.progress (hC : Coherent W) (h : Keeps W W')
    (hblank : ∀ c, (W'.ctx c).created = false → W'.ctx c = {})
    (hcomplete : ∀ c, (W'.ctx c).isInstantiated = true ∨ (W'.ctx c).mayShareRefs = true →
      ((W.ctx c).isInstantiated = true ∨ (W.ctx c).mayShareRefs = true) ∨
        ∀ k i s, W.slot c k i = some s → i < (W.ctx c).importCount k → s.isImported = true)
    (habandoned : ∀ c, W.Abandoned c → W'.Abandoned c) (hbase : ∀ c, W'.BaseDue c → W.BaseDue c ∨ (W'.ctx c).BaseOk)
    (hinst : ∀ c, (W.ctx c).isInstantiated = true → (W'.ctx c).isInstantiated = true)
    (hprimary : ∀ c p, (W.ctx c).budgetCtx = some p → (W'.ctx c).mayShareRefs = (W.ctx c).mayShareRefs)
    (hshared : ∀ p, (W'.ctx p).mayShareRefs = true →
      (W.ctx p).mayShareRefs = true ∨ ∀ c ∈ W.owned p, (W'.ctx c).isInstantiated = true)
    (hfinished : ∀ p, (W'.ctx p).isInstantiated = true → (W.ctx p).budgetCtx = none → (W'.ctx p).mayShareRefs = true) :
    Coherent W' := by
  constructor
  case blank => exact hblank
  case defined =>
    intro c k i s hs hge
    rw [h.slot] at hs
    rw [h.importCount] at hge
    exact hC.defined c k i s hs hge
  case complete =>
    intro c hc k i s hs hlt
    rw [h.slot] at hs
    rw [h.importCount] at hlt
    rcases hcomplete c hc with hold | hnew
    · exact hC.complete c hold k i s hs hlt
    · exact hnew k i s hs hlt
  case aliased =>
    intro c k i s hs himp hkn
    rw [h.slot] at hs
    exact h.inStep (hC.aliased c k i s hs himp fun ha => (hkn (habandoned c ha)).mono fun o => h.registered o c ha)
  case base =>
    intro c hd
    rcases hbase c hd with hold | hnew
    · exact h.base c (hC.base c hold)
    · exact hnew
  case rooted =>
    intro c p hp
    rw [h.budgetCtx] at hp
    rw [h.budgetCtx, h.owned, hprimary c p hp]
    exact hC.rooted c p hp
  case owns =>
    intro p c hc
    rw [h.owned] at hc
    rw [h.budgetCtx]
    exact hC.owns p c hc
  case shared =>
    intro p hp c hc
    rw [h.owned] at hc
    rcases hshared p hp with hold | hnew
    · exact hinst c (hC.shared p hold c hc)
    · exact hnew c hc
  case finished =>
    intro p hp hb
    rw [h.budgetCtx] at hb
    exact hfinished p hp hb

/-- with the flags unchanged too, the invariant is kept -/
theorem Coherent.keeps (hC : Coherent W) (h : Keeps W W') (hblank : ∀ c, (W'.ctx c).created = false → W'.ctx c = {})
    (hinst : ∀ c, (W'.ctx c).isInstantiated = (W.ctx c).isInstantiated)
    (hshare : ∀ c, (W'.ctx c).mayShareRefs = (W.ctx c).mayShareRefs)
    (hfail : ∀ c, (W.ctx c).instantiateFailed = true → (W'.ctx c).instantiateFailed = true) : Coherent W' := by
  refine hC.progress h hblank ?_ ?_ ?_ ?_ ?_ ?_ ?_
  · intro c hc
    rw [hinst, hshare] at hc
    exact .inl hc
  · intro c ha
    unfold Abandoned
    rw [h.root, hshare]
    exact ⟨hfail _ ha.1, ha.2⟩
  · intro c hd
    left
    exact hd.back (h.budgetCtx c) (hinst c) (hshare c) fun s hs => ⟨s, by rw [h.slot, hs], rfl⟩
  · intro c hc
    rwa [hinst]
  · exact fun c _ _ => hshare c
  · intro p hp
    rw [hshare] at hp
    exact .inl hp
  · intro p hp hb
    rw [hinst] at hp
    rw [hshare]
    exact hC.finished p hp hb

/-- a change of one context that touches neither slots nor ownership -/
theorem keeps_set (p : CtxId) (f : LinkCtx → LinkCtx) (hcr : (f (W.ctx p)).created = (W.ctx p).created)
    (hsl : (f (W.ctx p)).slots = (W.ctx p).slots) (him : (f (W.ctx p)).importCount = (W.ctx p).importCount)
    (hba : (W.ctx p).BaseOk → (f (W.ctx p)).BaseOk) (hde : (W.ctx p).dependents ⊆ (f (W.ctx p)).dependents)
    (hnew : ∀ c, W.Abandoned c → (c ∈ (f (W.ctx p)).dependents → c ∈ (W.ctx p).dependents) ∧
      (c ∈ (f (W.ctx p)).gcDependents → c ∈ (W.ctx p).gcDependents))
    (hgc : (W.ctx p).gc.isSome = true → (f (W.ctx p)).gc.isSome = true)
    (hbu : (f (W.ctx p)).budgetCtx = (W.ctx p).budgetCtx)
    (how : (f (W.ctx p)).linked.filterMap (fun l => if l.ownsCtx then l.ctx else none) = W.owned p) :
    Keeps W (W.set p f) := by
  constructor
  case owned =>
    intro c
    by_cases hc : c = p
    · subst hc; simpa [World.owned] using how
    · simp [World.owned, set_other f hc]
  case registered =>
    intro o c ha
    refine Registered.back ?_ ?_ ?_ ?_
    · simp only [World.root, set_ctx]
      split_ifs with he
      · rw [hbu, he]
      · rfl
    all_goals
      rw [set_ctx]
      split_ifs with he
    · rw [he]; exact (hnew c ha).1
    · exact fun h => h
    · rw [he]; exact (hnew c ha).2
    · exact fun h => h
    · rw [he]; exact hgc
    · exact fun h => h
  all_goals
    intro c
    by_cases hc : c = p
    · subst hc
      simpa using by assumption
    · simp [set_other f hc]

/-- the same with no dependents added -/
theorem keeps_same (p : CtxId) (f : LinkCtx → LinkCtx) (hcr : (f (W.ctx p)).created = (W.ctx p).created)
    (hsl : (f (W.ctx p)).slots = (W.ctx p).slots) (him : (f (W.ctx p)).importCount = (W.ctx p).importCount)
    (hba : (W.ctx p).BaseOk → (f (W.ctx p)).BaseOk) (hde : (f (W.ctx p)).dependents = (W.ctx p).dependents)
    (hgd : (f (W.ctx p)).gcDependents = (W.ctx p).gcDependents)
    (hgc : (W.ctx p).gc.isSome = true → (f (W.ctx p)).gc.isSome = true)
    (hbu : (f (W.ctx p)).budgetCtx = (W.ctx p).budgetCtx)
    (how : (f (W.ctx p)).linked.filterMap (fun l => if l.ownsCtx then l.ctx else none) = W.owned p) :
    Keeps W (W.set p f) := by
  refine keeps_set p f hcr hsl him hba ?_ ?_ hgc hbu how
  · rw [hde]; exact List.Subset.refl _
  · intro c _
    rw [hde, hgd]
    exact ⟨fun h => h, fun h => h⟩

end

end World

/-! ## The operations keep the invariant -/

namespace World
variable {W W' : World} {c p : CtxId}

theorem Coherent.created_of_ne (hC : Coherent W) (h : W.ctx c ≠ {}) : (W.ctx c).created = true := by
  by_contra hn
  exact h (hC.blank c (by simpa using hn))

theorem Coherent.created_of_instantiated (hC : Coherent W) (h : (W.ctx c).isInstantiated = true) :
    (W.ctx c).created = true := by
  apply hC.created_of_ne
  intro he
  rw [he] at h
  simp at h

theorem blank_set (hC : Coherent W) (f : LinkCtx → LinkCtx) (hf : (f (W.ctx p)).created = true) :
    ∀ d, ((W.set p f).ctx d).created = false → (W.set p f).ctx d = {} := by
  intro d hd
  by_cases he : d = p
  · subst he
    rw [set_self, hf] at hd
    cases hd
  · rw [set_other f he] at hd ⊢
    exact hC.blank d hd

/-- a change of one created context that touches neither slots, ownership nor progress -/
theorem Coherent.set_keeps (hC : Coherent W) (f : LinkCtx → LinkCtx) (hcr : (W.ctx p).created = true)
    (hk : Keeps W (W.set p f)) (hin : (f (W.ctx p)).isInstantiated = (W.ctx p).isInstantiated)
    (hsh : (f (W.ctx p)).mayShareRefs = (W.ctx p).mayShareRefs)
    (hfa : (W.ctx p).instantiateFailed = true → (f (W.ctx p)).instantiateFailed = true) : Coherent (W.set p f) := by
  have hcr' : (f (W.ctx p)).created = true := by
    have := hk.created p
    rwa [set_self, hcr] at this
  refine hC.keeps hk (blank_set hC f hcr') ?_ ?_ ?_
  all_goals
    intro d
    by_cases he : d = p
    · subst he
      simpa using by assumption
    · simp [set_other f he]

theorem linkable_iff :
    W.linkable p = true ↔ (W.ctx p).created = true ∧ (W.ctx p).isInstantiated = false ∧
      (W.ctx p).instantiateFailed = false ∧ (W.ctx p).budgetCtx = none := by
  simp [linkable, and_assoc]

theorem binding_iff :
    W.binding p = true ↔ (W.ctx p).created = true ∧ (W.ctx p).isInstantiated = false ∧
      (W.ctx p).instantiateFailed = false ∧ (W.ctx p).budgetCtx = none ∧ (W.ctx p).mayShareRefs = false := by
  rw [binding, Bool.and_eq_true, linkable_iff]
  simp [and_assoc]

theorem Coherent.linkModule (hC : Coherent W) (h : W.linkModule p = some W') : Coherent W' := by
  unfold World.linkModule at h
  split_ifs at h with hg
  cases h
  simp only [Bool.and_eq_true, linkable_iff] at hg
  refine hC.set_keeps _ hg.1.1 (keeps_same p _ rfl rfl rfl (fun hb => hb) rfl rfl (fun h => h) rfl ?_) rfl rfl fun hf => hf
  simp [owned]

/-- a primary that may still be linked was not given up, nor was anything it owns -/
theorem not_abandoned_of_linkable (h : W.linkable (W.root c) = true) : ¬ W.Abandoned c := by
  rintro ⟨hf, -⟩
  rw [(linkable_iff.1 h).2.2.1] at hf
  cases hf

/-- from `W` to `W'` only `c` was registered, with contexts that are in use -/
def Enlists (W W' : World) (c : CtxId) : Prop :=
  ∀ d, ∃ l g, W'.ctx d = { W.ctx d with dependents := l, gcDependents := g } ∧ (W.ctx d).dependents ⊆ l ∧
    (∀ e, e ≠ c → (e ∈ l → e ∈ (W.ctx d).dependents) ∧ (e ∈ g → e ∈ (W.ctx d).gcDependents)) ∧
    ((W.ctx d).created = false → W'.ctx d = W.ctx d)

theorem Enlists.trans {W'' : World} (h : Enlists W W' c) (h' : Enlists W' W'' c) : Enlists W W'' c := by
  intro d
  obtain ⟨l, g, he, hsub, hnew, hblank⟩ := h d
  obtain ⟨l', g', he', hsub', hnew', hblank'⟩ := h' d
  rw [he] at he' hsub' hnew' hblank'
  refine ⟨l', g', he', List.Subset.trans hsub hsub', fun e hne => ⟨fun hm => ?_, fun hm => ?_⟩, fun hcr => ?_⟩
  · exact (hnew e hne).1 ((hnew' e hne).1 hm)
  · exact (hnew e hne).2 ((hnew' e hne).2 hm)
  · rw [← he, hblank hcr] at hblank'
    exact hblank' hcr

/-- adding `c` at the end of a list adds no other context -/
theorem mem_of_mem_append_singleton {l : List CtxId} {e : CtxId} (hne : e ≠ c) (h : e ∈ l ++ [c]) : e ∈ l := by
  rcases List.mem_append.1 h with h | h
  · exact h
  · exact absurd (List.mem_singleton.1 h) hne

theorem registerDependent_enlists {q : CtxId} (hq : (W.ctx q).created = true) (c : CtxId) :
    Enlists W (W.registerDependent q c) c := by
  intro d
  rw [registerDependent, set_ctx]
  split_ifs with hd hm
  · subst hd
    exact ⟨_, _, rfl, List.Subset.refl _, fun e _ => ⟨fun h => h, fun h => h⟩, fun _ => rfl⟩
  · subst hd
    refine ⟨_, _, rfl, List.subset_append_left _ _, fun e he => ⟨mem_of_mem_append_singleton he, fun h => h⟩, ?_⟩
    intro hcr
    rw [hq] at hcr
    cases hcr
  · exact ⟨_, _, rfl, List.Subset.refl _, fun e _ => ⟨fun h => h, fun h => h⟩, fun _ => rfl⟩

theorem registerGcDependent_enlists {q : CtxId} (hq : (W.ctx (W.root q)).created = true) (c : CtxId) :
    Enlists W (W.registerGcDependent q c) c := by
  intro d
  rw [registerGcDependent, set_ctx]
  split_ifs with hd hm
  · subst hd
    refine ⟨_, _, rfl, List.Subset.refl _, fun e he => ⟨fun h => h, mem_of_mem_append_singleton he⟩, ?_⟩
    intro hcr
    rw [hq] at hcr
    cases hcr
  · subst hd
    exact ⟨_, _, rfl, List.Subset.refl _, fun e _ => ⟨fun h => h, fun h => h⟩, fun _ => rfl⟩
  · exact ⟨_, _, rfl, List.Subset.refl _, fun e _ => ⟨fun h => h, fun h => h⟩, fun _ => rfl⟩

theorem Enlists.root (h : Enlists W W' c) (d : CtxId) : W'.root d = W.root d := by
  obtain ⟨l, g, he, -⟩ := h d
  simp [World.root, he]

theorem Enlists.created (h : Enlists W W' c) (d : CtxId) : (W'.ctx d).created = (W.ctx d).created := by
  obtain ⟨l, g, he, -⟩ := h d
  rw [he]

theorem Enlists.gc (h : Enlists W W' c) (d : CtxId) : (W'.ctx d).gc = (W.ctx d).gc := by
  obtain ⟨l, g, he, -⟩ := h d
  rw [he]

/-- other contexts are registered where they were -/
theorem Enlists.registered (h : Enlists W W' c) {o d : CtxId} (hd : d ≠ c) (hr : W'.Registered o d) :
    W.Registered o d := by
  refine hr.back (h.root o) ?_ ?_ ?_
  · obtain ⟨l, g, he, -, hnew, -⟩ := h o
    rw [he]
    exact (hnew d hd).1
  · obtain ⟨l, g, he, -, hnew, -⟩ := h (W.root o)
    rw [he]
    exact (hnew d hd).2
  · rw [h.gc]
    exact fun hg => hg

/-- registering a context that was not given up keeps the invariant -/
theorem Coherent.enlists (hC : Coherent W) (h : Enlists W W' c) (hc : ¬ W.Abandoned c) : Coherent W' := by
  have hctx : ∀ d, ∃ l g, W'.ctx d = { W.ctx d with dependents := l, gcDependents := g } := by
    intro d
    obtain ⟨l, g, he, -⟩ := h d
    exact ⟨l, g, he⟩
  refine hC.keeps ⟨h.created, ?_, ?_, ?_, ?_, ?_, ?_, ?_⟩ ?_ ?_ ?_ ?_
  case refine_4 =>
    intro d
    obtain ⟨l, g, he, hsub, -⟩ := h d
    rw [he]
    exact hsub
  case refine_5 =>
    intro o d ha
    exact h.registered fun hd => hc (hd ▸ ha)
  case refine_8 =>
    intro d hd
    rw [h.created] at hd
    obtain ⟨l, g, -, -, -, hsame⟩ := h d
    rw [hsame hd]
    exact hC.blank d hd
  case refine_7 =>
    intro d
    obtain ⟨l, g, he⟩ := hctx d
    simp [World.owned, he]
  all_goals
    intro d
    obtain ⟨l, g, he⟩ := hctx d
    rw [he]
  all_goals exact fun hb => hb

theorem registerDependent_gcDependents (q c d : CtxId) :
    ((W.registerDependent q c).ctx d).gcDependents = (W.ctx d).gcDependents := by
  rw [registerDependent, set_ctx]
  split_ifs with hd <;> first | rfl | rw [hd]

theorem registerGcDependent_dependents (q c d : CtxId) :
    ((W.registerGcDependent q c).ctx d).dependents = (W.ctx d).dependents := by
  rw [registerGcDependent, set_ctx]
  split_ifs with hd <;> first | rfl | rw [hd]

theorem mem_registerDependent (q c : CtxId) : c ∈ ((W.registerDependent q c).ctx q).dependents := by
  simp only [World.registerDependent, set_self]
  split_ifs with h
  · exact h
  · simp

/-- both registrations of `c` with `q` -/
theorem registers_enlists {q : CtxId} (hq : (W.ctx q).created = true) (hr : (W.ctx (W.root q)).created = true)
    (c : CtxId) : Enlists W ((W.registerDependent q c).registerGcDependent q c) c := by
  have h := registerDependent_enlists hq c
  refine h.trans (registerGcDependent_enlists ?_ c)
  rw [h.root, h.created]
  exact hr

theorem Coherent.linkContext (hC : Coherent W) {q : CtxId} {registered : Bool}
    (h : W.linkContext p q registered = some W') : Coherent W' := by
  unfold World.linkContext at h
  split_ifs at h with hg hr
  · cases h; exact hC
  · cases h
    simp only [Bool.and_eq_true, Option.isNone_iff_eq_none] at hg
    obtain ⟨⟨⟨hlink, -⟩, hinst⟩, hqp⟩ := hg
    obtain ⟨hcr, -, -, hpp⟩ := linkable_iff.1 hlink
    have hp : ¬ W.Abandoned p := not_abandoned_of_linkable (by simpa [World.root, hpp] using hlink)
    have hq := hC.created_of_instantiated hinst
    have hen := registers_enlists hq (by simpa [World.root, hqp] using hq) p
    refine (hC.enlists hen hp).set_keeps _ (by rw [hen.created]; exact hcr)
      (keeps_same p _ rfl rfl rfl (fun hb => hb) rfl rfl (fun h => h) rfl ?_) rfl rfl fun hf => hf
    simp [owned]

theorem Coherent.fail (hC : Coherent W) (h : W.fail p = some W') : Coherent W' := by
  unfold World.fail at h
  split_ifs at h with hg
  cases h
  exact hC.set_keeps _ (linkable_iff.1 hg).1 (keeps_same p _ rfl rfl rfl (fun hb => hb) rfl rfl (fun h => h) rfl rfl) rfl rfl
    fun _ => rfl

theorem Coherent.finish (hC : Coherent W) (h : W.finish p = some W') : Coherent W' := by
  unfold World.finish at h
  split_ifs at h with hg
  cases h
  simp only [Bool.and_eq_true, linkable_iff] at hg
  obtain ⟨⟨hcr, hin, hfa, hbu⟩, hsh⟩ := hg
  have hk : Keeps W (W.set p fun x => { x with isInstantiated := true }) :=
    keeps_same p _ rfl rfl rfl (fun hb => hb) rfl rfl (fun h => h) rfl rfl
  have hcases : ∀ d, (W.set p fun x => { x with isInstantiated := true }).ctx d = W.ctx d ∨ d = p := by
    intro d
    by_cases he : d = p
    · exact .inr he
    · exact .inl (set_other _ he)
  have hshare : ∀ d, ((W.set p fun x => { x with isInstantiated := true }).ctx d).mayShareRefs = (W.ctx d).mayShareRefs := by
    intro d
    rcases hcases d with he | rfl
    · rw [he]
    · rw [set_self]
  refine hC.progress hk (blank_set hC _ hcr) ?_ ?_ ?_ ?_ (fun d _ _ => hshare d) ?_ ?_
  · intro d hd
    rcases hcases d with he | rfl
    · rw [he] at hd; exact .inl hd
    · exact .inl (.inr hsh)
  · intro d ha
    unfold Abandoned
    rw [hk.root, hshare]
    refine ⟨?_, ha.2⟩
    rcases hcases (W.root d) with he | he
    · rw [he]; exact ha.1
    · rw [he, set_self]; rw [← he]; exact ha.1
  · intro d hd
    left
    rcases hcases d with he | rfl
    · exact hd.back (by rw [he]) (by rw [he]) (by rw [he]) fun s hs => ⟨s, by rw [hk.slot, hs], rfl⟩
    · unfold BaseDue
      rw [hbu]
      exact .inl hsh
  · intro d hd
    rcases hcases d with he | rfl
    · rwa [he]
    · rw [set_self]
  · intro q hq
    rw [hshare] at hq
    exact .inl hq
  · intro q hq hb
    rw [hshare]
    rcases hcases q with he | rfl
    · rw [he] at hq; exact hC.finished q hq hb
    · exact hsh

/-- the slots of a context whose imports are all bound -/
theorem allBound_spec (h : W.allBound c = true) {k : Kind} {i : Nat} {s : Slot} (hs : W.slot c k i = some s)
    (hi : i < (W.ctx c).importCount k) : s.isImported = true := by
  simp only [allBound, List.all_cons, List.all_nil, Bool.and_true, Bool.and_eq_true, List.all_eq_true] at h
  have hmem : s ∈ ((W.ctx c).slots k).take ((W.ctx c).importCount k) := by
    apply List.mem_of_getElem? (i := i)
    rw [List.getElem?_take_of_lt hi]
    exact hs
  cases k with
  | memory => exact h.1.2 s hmem
  | table => exact h.2.2 s hmem

theorem Coherent.finishOwned (hC : Coherent W) (h : W.finishOwned c = some W') : Coherent W' := by
  unfold World.finishOwned at h
  split_ifs at h with hg
  cases h
  simp only [Bool.and_eq_true, binding_iff, decide_eq_true_eq] at hg
  obtain ⟨⟨⟨hpc, -, hpf, -, hps⟩, hne⟩, hall⟩ := hg
  have hbu : (W.ctx c).budgetCtx = some (W.root c) := by
    unfold World.root at hne ⊢
    cases hb : (W.ctx c).budgetCtx with
    | none => rw [hb] at hne; simp at hne
    | some q => simp
  have hcr : (W.ctx c).created = true := by
    apply hC.created_of_ne
    intro he
    rw [he] at hbu
    simp at hbu
  have hshape := LinkCtx.setBase_shape (W.ctx c)
  have hk : Keeps W (W.set c fun x => { x.setBase with isInstantiated := true }) := by
    refine keeps_same c _ hshape.created (LinkCtx.setBase_slots _) hshape.importCount ?_ hshape.dependents
      hshape.gcDependents ?_ hshape.budgetCtx ?_
    · exact fun _ => LinkCtx.setBase_baseOk _
    · simp only [hshape.gc]; exact fun h => h
    · simp only [hshape.linked]; rfl
  have hcases : ∀ d, (W.set c fun x => { x.setBase with isInstantiated := true }).ctx d = W.ctx d ∨ d = c := by
    intro d
    by_cases he : d = c
    · exact .inr he
    · exact .inl (set_other _ he)
  have hshare : ∀ d, ((W.set c fun x => { x.setBase with isInstantiated := true }).ctx d).mayShareRefs =
      (W.ctx d).mayShareRefs := by
    intro d
    rcases hcases d with he | rfl
    · rw [he]
    · rw [set_self]; exact hshape.mayShareRefs
  refine hC.progress hk (blank_set hC _ (by rw [hshape.created]; exact hcr)) ?_ ?_ ?_ ?_ (fun d _ _ => hshare d) ?_ ?_
  · intro d hd
    rcases hcases d with he | rfl
    · rw [he] at hd; exact .inl hd
    · exact .inr fun k i s hs hi => allBound_spec hall hs hi
  · intro d ha
    unfold Abandoned
    rw [hk.root, hshare]
    refine ⟨?_, ha.2⟩
    rcases hcases (W.root d) with he | he
    · rw [he]; exact ha.1
    · rw [he, set_self]
      have := ha.1
      rw [he] at this
      exact hshape.instantiateFailed.trans this
  · intro d hd
    rcases hcases d with he | rfl
    · left
      exact hd.back (by rw [he]) (by rw [he]) (by rw [he]) fun s hs => ⟨s, by rw [hk.slot, hs], rfl⟩
    · right
      rw [set_self]
      exact LinkCtx.setBase_baseOk _
  · intro d hd
    rcases hcases d with he | rfl
    · rwa [he]
    · rw [set_self]
  · intro q hq
    rw [hshare] at hq
    exact .inl hq
  · intro q hq hb
    rw [hshare]
    rcases hcases q with he | rfl
    · rw [he] at hq; exact hC.finished q hq hb
    · rw [hbu] at hb; cases hb

theorem set_cases (W : World) (c : CtxId) (f : LinkCtx → LinkCtx) (d : CtxId) :
    (W.set c f).ctx d = W.ctx d ∨ d = c := by
  by_cases he : d = c
  · exact .inr he
  · exact .inl (set_other _ he)

/-- setting the view of memory 0 where a memory is imported -/
def LinkCtx.takeBase (x : LinkCtx) : LinkCtx := if 0 < x.importCount .memory then x.setBase else x

theorem LinkCtx.takeBase_shape (x : LinkCtx) : x.SameShape (takeBase x) := by
  unfold takeBase
  split_ifs
  · exact LinkCtx.setBase_shape x
  · exact .rfl' x

theorem LinkCtx.takeBase_slots (x : LinkCtx) : (takeBase x).slots = x.slots := by
  unfold takeBase
  split_ifs <;> simp

theorem LinkCtx.takeBase_baseOk (x : LinkCtx) (h : x.importCount .memory = 0 → x.BaseOk) : (takeBase x).BaseOk := by
  unfold takeBase
  split_ifs with hpos
  · exact LinkCtx.setBase_baseOk x
  · exact h (by omega)

theorem Coherent.share (hC : Coherent W) (h : W.share p = some W') : Coherent W' := by
  unfold World.share at h
  split_ifs at h with hg
  cases h
  simp only [Bool.and_eq_true, binding_iff, List.all_eq_true] at hg
  obtain ⟨⟨⟨⟨hcr, hin, hfa, hbu, hns⟩, hall⟩, -⟩, hown⟩ := hg
  have hshape := LinkCtx.takeBase_shape (W.ctx p)
  have hbase : (LinkCtx.takeBase (W.ctx p)).BaseOk :=
    LinkCtx.takeBase_baseOk _ fun h0 => hC.base p <| by
      unfold BaseDue
      rw [hbu]
      exact .inr fun s hs => hC.defined p .memory 0 s hs (by omega)
  have hk : Keeps W (W.set p fun x => { LinkCtx.takeBase x with mayShareRefs := true }) := by
    refine keeps_same p _ hshape.created (LinkCtx.takeBase_slots _) hshape.importCount (fun _ => hbase)
      hshape.dependents hshape.gcDependents ?_ hshape.budgetCtx ?_
    · simp only [hshape.gc]; exact fun h => h
    · simp only [hshape.linked]; rfl
  have hcases := set_cases W p fun x => { LinkCtx.takeBase x with mayShareRefs := true }
  show Coherent (W.set p fun x => { LinkCtx.takeBase x with mayShareRefs := true })
  have hinst : ∀ d, ((W.set p fun x => { LinkCtx.takeBase x with mayShareRefs := true }).ctx d).isInstantiated =
      (W.ctx d).isInstantiated := by
    intro d
    rcases hcases d with he | rfl
    · rw [he]
    · rw [set_self]; exact hshape.isInstantiated
  refine hC.progress hk (blank_set hC _ (by rw [hshape.created]; exact hcr)) ?_ ?_ ?_ ?_ ?_ ?_ ?_
  · intro d hd
    rcases hcases d with he | rfl
    · rw [he] at hd; exact .inl hd
    · exact .inr fun k i s hs hi => allBound_spec hall hs hi
  · intro d ha
    unfold Abandoned
    rw [hk.root]
    rcases hcases (W.root d) with he | he
    · rw [he]; exact ha
    · have := ha.1
      rw [he, hfa] at this
      cases this
  · intro d hd
    rcases hcases d with he | rfl
    · left
      exact hd.back (by rw [he]) (by rw [he]) (by rw [he]) fun s hs => ⟨s, by rw [hk.slot, hs], rfl⟩
    · right
      rw [set_self]
      exact hbase
  · intro d hd
    rw [hinst]; exact hd
  · intro d q hq
    rcases hcases d with he | rfl
    · rw [he]
    · rw [hbu] at hq; cases hq
  · intro q hq
    rcases hcases q with he | rfl
    · rw [he] at hq; exact .inl hq
    · refine .inr fun d hd => ?_
      rw [hinst]
      exact hown d hd
  · intro q hq hb
    rcases hcases q with he | rfl
    · rw [he] at hq ⊢; exact hC.finished q hq hb
    · rw [set_self]

/-! ### New contexts -/

theorem defineSlots_not_imported (k : Kind) (l : List SlotSpec) (b : Budget) :
    ∀ s ∈ (defineSlots k l b).1, s.isImported = false := by
  induction l generalizing b with
  | nil => intro s hs; simp [defineSlots] at hs
  | cons d rest ih =>
    intro s hs
    unfold defineSlots at hs
    split_ifs at hs
    · simp only [List.mem_cons, List.mem_map] at hs
      rcases hs with rfl | ⟨_, _, rfl⟩ <;> rfl
    · split at hs
      · simp only [List.mem_cons, List.mem_map] at hs
        rcases hs with rfl | ⟨_, _, rfl⟩ <;> rfl
      · dsimp only at hs
        rcases List.mem_cons.1 hs with rfl | hs
        · rfl
        · exact ih _ s hs

theorem createSlots_not_imported (spec : ModuleSpec) (b : Budget) (k : Kind) :
    ∀ s ∈ (createSlots spec b).1 k, s.isImported = false := by
  intro s hs
  unfold createSlots at hs
  dsimp only at hs
  split_ifs at hs
  · cases k with
    | memory =>
      rcases List.mem_append.1 hs with hs | hs
      · rw [List.eq_of_mem_replicate hs]
      · exact defineSlots_not_imported _ _ _ s hs
    | table => simp at hs
  · cases k with
    | memory =>
      rcases List.mem_append.1 hs with hs | hs
      · rw [List.eq_of_mem_replicate hs]
      · exact defineSlots_not_imported _ _ _ s hs
    | table =>
      rcases List.mem_append.1 hs with hs | hs
      · rw [List.eq_of_mem_replicate hs]
      · exact defineSlots_not_imported _ _ _ s hs

/-- an identity that is not in use provides no slot and is owned by nobody -/
theorem Coherent.unused (hC : Coherent W) (hc : (W.ctx c).created = false) :
    (∀ k i, W.slot c k i = none) ∧ (∀ q, c ∉ W.owned q) ∧ (∀ d, (W.ctx d).budgetCtx ≠ some c) := by
  have hblank := hC.blank c hc
  refine ⟨fun k i => ?_, fun q hq => ?_, fun d hd => ?_⟩
  · simp [slot, hblank]
  · have := hC.owns q c hq
    rw [hblank] at this
    cases this
  · have := (hC.rooted d c hd).2.1
    simp [owned, hblank] at this

theorem Coherent.root_ne (hC : Coherent W) (hc : (W.ctx c).created = false) {o : CtxId} (ho : o ≠ c) : W.root o ≠ c := by
  intro hr
  unfold World.root at hr
  cases hb : (W.ctx o).budgetCtx with
  | none =>
    rw [hb] at hr
    exact ho hr
  | some q =>
    rw [hb] at hr
    exact (hC.unused hc).2.2 o (by rw [hb]; exact congrArg some hr)

/-- a new context knows nobody, and changes no registration of the others -/
theorem Registered.of_new (hC : Coherent W) (hc : (W.ctx c).created = false) (hnew : (W'.ctx c).dependents = [])
    (hold : ∀ o, o ≠ c → (W'.ctx o).dependents = (W.ctx o).dependents ∧
      (W'.ctx o).gcDependents = (W.ctx o).gcDependents ∧ (W'.ctx o).gc = (W.ctx o).gc ∧
      (W'.ctx o).budgetCtx = (W.ctx o).budgetCtx) {o d : CtxId} (h : W'.Registered o d) : W.Registered o d := by
  have ho : o ≠ c := by
    rintro rfl
    have := h.1
    rw [hnew] at this
    cases this
  have hr := hold _ (hC.root_ne hc ho)
  refine h.back ?_ ?_ ?_ ?_
  · simp [World.root, (hold o ho).2.2.2]
  · rw [(hold o ho).1]; exact fun hm => hm
  · rw [hr.2.1]; exact fun hm => hm
  · rw [hr.2.2.1]; exact fun hg => hg

/-- putting a new context in place of an unused identity, next to a primary that changes its links at most -/
theorem InStep.of_new {x : LinkCtx} (hC : Coherent W) (hc : (W.ctx c).created = false) {d : CtxId} {k : Kind} {s : Slot}
    (h : W.InStep d k s) : (W.set c fun _ => x).InStep d k s := by
  obtain ⟨o, oi, t, htar, ht, hge, hdata, hsize, hdep⟩ := h
  have hne : o ≠ c := by
    rintro rfl
    rw [(hC.unused hc).1] at ht
    cases ht
  refine ⟨o, oi, t, htar, ?_, ?_, hdata, hsize, ?_⟩
  · rw [slot, set_other _ hne]; exact ht
  · rw [set_other _ hne]; exact hge
  · rw [set_other _ hne]; exact hdep

theorem newCtx_shape (spec : ModuleSpec) (limit : UInt64) :
    LinkCtx.SameShape { created := true, importCount := spec.imports } (newCtx spec limit) :=
  LinkCtx.SameShape.setBase ⟨rfl, rfl, rfl, rfl, rfl, rfl, rfl, rfl, rfl, rfl⟩

theorem newCtx_slots (spec : ModuleSpec) (limit : UInt64) :
    (newCtx spec limit).slots = (createSlots spec ⟨limitBytes limit, 0⟩).1 := by
  simp [newCtx]

theorem Coherent.newContext (hC : Coherent W) {spec : ModuleSpec} {limit : UInt64}
    (h : W.newContext c spec limit = some W') : Coherent W' := by
  unfold World.newContext at h
  split_ifs at h with hcr hok
  · cases h; exact hC
  · cases h
    have hcr' : (W.ctx c).created = false := by simpa using hcr
    obtain ⟨hnone, hnot, hnoroot⟩ := hC.unused hcr'
    have hshape := newCtx_shape spec limit
    have hslots := newCtx_slots spec limit
    have hbase : (newCtx spec limit).BaseOk := LinkCtx.setBase_baseOk _
    generalize newCtx spec limit = x at hshape hslots hbase
    have hcases := set_cases W c fun _ => x
    have himp : ∀ k i s, (W.set c fun _ => x).slot c k i = some s → s.isImported = false := by
      intro k i s hs
      rw [slot, set_self, hslots] at hs
      exact createSlots_not_imported spec _ k s (List.mem_of_getElem? hs)
    have hroot : ∀ d, (W.set c fun _ => x).root d = W.root d := by
      intro d
      unfold World.root
      rcases hcases d with he | rfl
      · rw [he]
      · rw [set_self, hshape.budgetCtx, hC.blank d hcr']
    constructor
    case blank => exact blank_set hC _ hshape.created
    case defined =>
      intro d k i s hs hge
      rcases hcases d with he | rfl
      · rw [slot, he] at hs; rw [he] at hge; exact hC.defined d k i s hs hge
      · exact himp k i s hs
    case complete =>
      intro d hd k i s hs hlt
      rcases hcases d with he | rfl
      · rw [slot, he] at hs; rw [he] at hlt hd; exact hC.complete d hd k i s hs hlt
      · rw [set_self, hshape.isInstantiated, hshape.mayShareRefs] at hd
        simp at hd
    case aliased =>
      intro d k i s hs himported hkn
      rcases hcases d with he | rfl
      · rw [slot, he] at hs
        refine (hC.aliased d k i s hs himported fun ha => (hkn ?_).mono fun o => ?_).of_new hC hcr'
        on_goal 2 =>
          refine Registered.of_new hC hcr' (by rw [set_self]; exact hshape.dependents) fun o ho => ?_
          rw [set_other _ ho]
          exact ⟨rfl, rfl, rfl, rfl⟩
        unfold Abandoned
        rw [hroot]
        rcases hcases (W.root d) with hr | hr
        · rw [hr]; exact ha
        · have := ha.1
          rw [hr, hC.blank c hcr'] at this
          cases this
      · rw [himp k i s hs] at himported
        cases himported
    case base =>
      intro d hd
      rcases hcases d with he | rfl
      · rw [he]
        exact hC.base d (hd.back (by rw [he]) (by rw [he]) (by rw [he]) fun s hs =>
          ⟨s, by rw [slot, he]; exact hs, rfl⟩)
      · rw [set_self]; exact hbase
    case rooted =>
      intro d q hq
      rcases hcases d with he | rfl
      · rw [he] at hq ⊢
        have hqc : q ≠ c := fun hqc => hnoroot d (hqc ▸ hq)
        rw [World.owned, set_other _ hqc]
        exact hC.rooted d q hq
      · rw [set_self, hshape.budgetCtx] at hq
        cases hq
    case owns =>
      intro q d hd
      rcases hcases q with he | rfl
      · rw [World.owned, he] at hd
        have hdc : d ≠ c := fun hdc => hnot q (hdc ▸ hd)
        rw [set_other _ hdc]
        exact hC.owns q d hd
      · rw [World.owned, set_self, hshape.linked] at hd
        simp at hd
    case shared =>
      intro q hq d hd
      rcases hcases q with he | rfl
      · rw [World.owned, he] at hd
        rw [he] at hq
        have hdc : d ≠ c := fun hdc => hnot q (hdc ▸ hd)
        rw [set_other _ hdc]
        exact hC.shared q hq d hd
      · rw [set_self, hshape.mayShareRefs] at hq
        cases hq
    case finished =>
      intro q hq hb
      rcases hcases q with he | rfl
      · rw [he] at hq hb ⊢; exact hC.finished q hq hb
      · rw [set_self, hshape.isInstantiated] at hq
        cases hq

/-- giving a link its owned context inserts it among the owned ones -/
theorem owned_set {l : List Link} {j : Nat} (h : l[j]? = some ⟨none, false⟩) (c : CtxId) :
    ∃ a b, l.filterMap (fun x => if x.ownsCtx then x.ctx else none) = a ++ b ∧
      (l.set j ⟨some c, true⟩).filterMap (fun x => if x.ownsCtx then x.ctx else none) = a ++ c :: b := by
  obtain ⟨hj, hget⟩ := List.getElem?_eq_some_iff.1 h
  refine ⟨(l.take j).filterMap fun x => if x.ownsCtx then x.ctx else none,
    (l.drop (j + 1)).filterMap fun x => if x.ownsCtx then x.ctx else none, ?_, ?_⟩
  · conv_lhs => rw [← List.take_append_drop j l, List.drop_eq_getElem_cons hj, hget]
    simp
  · rw [List.set_eq_take_append_cons_drop, if_pos hj]
    simp

/-- the primary and the new context after `createOwned` -/
theorem createOwned_cases {j : Nat} {spec : ModuleSpec} (h : W.createOwned p j c spec = some W') :
    W.binding p = true ∧ (W.ctx c).created = false ∧ (W.ctx p).linked[j]? = some ⟨none, false⟩ ∧ c ≠ p ∧
      W'.ctx p = { W.ctx p with
        linked := (W.ctx p).linked.set j ⟨some c, true⟩
        budget := (createSlots spec (W.ctx p).budget).2.1
        instantiateFailed := !(createSlots spec (W.ctx p).budget).2.2 } ∧
      W'.ctx c = { created := true, slots := (createSlots spec (W.ctx p).budget).1, importCount := spec.imports,
                   budgetCtx := some p } ∧
      (∀ d, d ≠ p → d ≠ c → W'.ctx d = W.ctx d) ∧ W'.buf = W.buf ∧ W'.store = W.store := by
  unfold World.createOwned at h
  split_ifs at h with hg
  cases h
  simp only [Bool.and_eq_true, decide_eq_true_eq, Bool.not_eq_true'] at hg
  obtain ⟨⟨⟨hb, hcr⟩, hl⟩, hne⟩ := hg
  refine ⟨hb, hcr, hl, hne, ?_, ?_, ?_, rfl, rfl⟩
  · rw [set_other _ (Ne.symm hne), set_self]
  · rw [set_self]
  · intro d hp hc
    rw [set_other _ hc, set_other _ hp]

/-- what creating an owned context changes of every other one -/
theorem createOwned_ctx {j : Nat} {spec : ModuleSpec} (h : W.createOwned p j c spec = some W') {d : CtxId} (hd : d ≠ c) :
    ∃ l b f, W'.ctx d = { W.ctx d with linked := l, budget := b, instantiateFailed := f } := by
  obtain ⟨-, -, -, -, hp, -, hother, -, -⟩ := createOwned_cases h
  by_cases hdp : d = p
  · subst hdp
    exact ⟨_, _, _, hp⟩
  · exact ⟨_, _, _, hother d hdp hd⟩

theorem createOwned_slot {j : Nat} {spec : ModuleSpec} (h : W.createOwned p j c spec = some W') {d : CtxId} (hd : d ≠ c)
    (k : Kind) (i : Nat) : W'.slot d k i = W.slot d k i := by
  obtain ⟨l, b, f, he⟩ := createOwned_ctx h hd
  rw [World.slot, he]
  rfl

/-- the new context is owned by `p`, and nothing else is owned by another -/
theorem createOwned_owned {j : Nat} {spec : ModuleSpec} (h : W.createOwned p j c spec = some W') :
    (∀ d, d ∈ W'.owned p ↔ d = c ∨ d ∈ W.owned p) ∧ W'.owned c = [] ∧
      ∀ q, q ≠ p → q ≠ c → W'.owned q = W.owned q := by
  obtain ⟨-, -, hl, -, hp, hc, hother, -, -⟩ := createOwned_cases h
  obtain ⟨a, b, hown, hown'⟩ := owned_set hl c
  refine ⟨fun d => ?_, by rw [World.owned, hc]; rfl, fun q h1 h2 => by rw [World.owned, hother q h1 h2]; rfl⟩
  have hold : W.owned p = a ++ b := hown
  have hnew : W'.owned p = a ++ c :: b := by rw [World.owned, hp]; exact hown'
  rw [hold, hnew]
  simp only [List.mem_append, List.mem_cons]
  tauto

/-- a context that was given up stays so: its primary is not the one that is being instantiated -/
theorem Abandoned.createOwned (hC : Coherent W) {j : Nat} {spec : ModuleSpec} (h : W.createOwned p j c spec = some W')
    {d : CtxId} (hd : d ≠ c) (ha : W.Abandoned d) : W'.Abandoned d := by
  obtain ⟨hb, hcr', -, -, -, -, hother, -, -⟩ := createOwned_cases h
  obtain ⟨-, -, hfa, -, -⟩ := binding_iff.1 hb
  have hroot : W'.root d = W.root d := by
    obtain ⟨l, b, f, he⟩ := createOwned_ctx h hd
    simp [World.root, he]
  have hrp : W.root d ≠ p := by
    intro hr
    have := ha.1
    rw [hr, hfa] at this
    cases this
  have he := hother (W.root d) hrp (hC.root_ne hcr' hd)
  unfold Abandoned
  rw [hroot, he]
  exact ha

theorem Coherent.createOwned (hC : Coherent W) {j : Nat} {spec : ModuleSpec}
    (h : W.createOwned p j c spec = some W') : Coherent W' := by
  obtain ⟨hb, hcr', -, hne, hp, hc, -, -, -⟩ := createOwned_cases h
  obtain ⟨hcr, hin, hfa, hbu, hns⟩ := binding_iff.1 hb
  obtain ⟨hnone, hnot, hnoroot⟩ := hC.unused hcr'
  obtain ⟨hownp, hownc, howno⟩ := createOwned_owned h
  have himp : ∀ k i s, W'.slot c k i = some s → s.isImported = false := by
    intro k i s hs
    rw [slot, hc] at hs
    exact createSlots_not_imported spec _ k s (List.mem_of_getElem? hs)
  constructor
  case blank =>
    intro d hd
    by_cases hdc : d = c
    · rw [hdc, hc] at hd
      cases hd
    · obtain ⟨l, b, f, he⟩ := createOwned_ctx h hdc
      by_cases hdp : d = p
      · rw [he, hdp, hcr] at hd
        cases hd
      · obtain ⟨-, -, -, -, -, -, hother, -, -⟩ := createOwned_cases h
        rw [hother d hdp hdc] at hd ⊢
        exact hC.blank d hd
  case defined =>
    intro d k i s hs hge
    by_cases hdc : d = c
    · subst hdc
      exact himp k i s hs
    · obtain ⟨l, b, f, he⟩ := createOwned_ctx h hdc
      rw [createOwned_slot h hdc] at hs
      rw [he] at hge
      exact hC.defined d k i s hs hge
  case complete =>
    intro d hd k i s hs hlt
    by_cases hdc : d = c
    · rw [hdc, hc] at hd
      simp at hd
    · obtain ⟨l, b, f, he⟩ := createOwned_ctx h hdc
      rw [createOwned_slot h hdc] at hs
      rw [he] at hlt hd
      exact hC.complete d hd k i s hs hlt
  case aliased =>
    intro d k i s hs himported hkn
    by_cases hdc : d = c
    · subst hdc
      rw [himp k i s hs] at himported
      cases himported
    · obtain ⟨l, b, f, he⟩ := createOwned_ctx h hdc
      rw [createOwned_slot h hdc] at hs
      have hold : W.InStep d k s := by
        refine hC.aliased d k i s hs himported fun ha => (hkn (Abandoned.createOwned hC h hdc ha)).mono fun o => ?_
        refine Registered.of_new hC hcr' (by rw [hc]) fun o ho => ?_
        obtain ⟨l, b, f, he⟩ := createOwned_ctx h ho
        rw [he]
        exact ⟨rfl, rfl, rfl, rfl⟩
      obtain ⟨o, oi, t, htar, ht, hge, hdata, hsize, hd'⟩ := hold
      have hoc : o ≠ c := by
        rintro rfl
        rw [hnone] at ht
        cases ht
      obtain ⟨l, b, f, heo⟩ := createOwned_ctx h hoc
      refine ⟨o, oi, t, htar, ?_, ?_, hdata, hsize, ?_⟩
      · rw [createOwned_slot h hoc]; exact ht
      · rw [heo]; exact hge
      · rw [heo]; exact hd'
  case base =>
    intro d hd
    by_cases hdc : d = c
    · subst hdc
      unfold BaseDue at hd
      rw [hc] at hd
      simp at hd
    · obtain ⟨l, b, f, he⟩ := createOwned_ctx h hdc
      have hbase := hC.base d (hd.back (by rw [he]) (by rw [he]) (by rw [he]) fun s hs =>
        ⟨s, by rw [createOwned_slot h hdc]; exact hs, rfl⟩)
      rw [he]
      exact hbase
  case rooted =>
    intro d q hq
    by_cases hdc : d = c
    · subst hdc
      obtain ⟨l, b, f, he⟩ := createOwned_ctx h (Ne.symm hne)
      rw [hc] at hq ⊢
      cases hq
      refine ⟨by rw [he]; exact hbu, (hownp _).2 (.inl rfl), rfl⟩
    · obtain ⟨l, b, f, he⟩ := createOwned_ctx h hdc
      rw [he] at hq
      obtain ⟨h1, h2, h3⟩ := hC.rooted d q hq
      have hqc : q ≠ c := fun hqc => hnoroot d (hqc ▸ hq)
      obtain ⟨l', b', f', heq⟩ := createOwned_ctx h hqc
      refine ⟨by rw [heq]; exact h1, ?_, by rw [he]; exact h3⟩
      by_cases hqp : q = p
      · subst hqp
        exact (hownp d).2 (.inr h2)
      · rw [howno q hqp hqc]
        exact h2
  case owns =>
    intro q d hd
    by_cases hqc : q = c
    · subst hqc
      rw [hownc] at hd
      simp at hd
    · have hcase : d = c ∧ q = p ∨ d ∈ W.owned q := by
        by_cases hqp : q = p
        · subst hqp
          exact ((hownp d).1 hd).imp_left fun hd => ⟨hd, rfl⟩
        · rw [howno q hqp hqc] at hd
          exact .inr hd
      rcases hcase with ⟨rfl, rfl⟩ | hd
      · rw [hc]
      · have hdc : d ≠ c := fun hdc => hnot q (hdc ▸ hd)
        obtain ⟨l, b, f, he⟩ := createOwned_ctx h hdc
        rw [he]
        exact hC.owns q d hd
  case shared =>
    intro q hq d hd
    by_cases hqc : q = c
    · rw [hqc, hc] at hq
      cases hq
    · obtain ⟨l, b, f, he⟩ := createOwned_ctx h hqc
      rw [he] at hq
      have hqp : q ≠ p := by
        rintro rfl
        exact absurd hq (by simp [hns])
      rw [howno q hqp hqc] at hd
      have hdc : d ≠ c := fun hdc => hnot q (hdc ▸ hd)
      obtain ⟨l', b', f', hed⟩ := createOwned_ctx h hdc
      rw [hed]
      exact hC.shared q hq d hd
  case finished =>
    intro q hq hbq
    by_cases hqc : q = c
    · rw [hqc, hc] at hq
      cases hq
    · obtain ⟨l, b, f, he⟩ := createOwned_ctx h hqc
      rw [he] at hq hbq ⊢
      exact hC.finished q hq hbq

/-! ### Binding imports -/

/-- from `W` to `W'` slot `i` of `c` was changed by `f`, and only `c` was registered -/
structure Rebinds (W W' : World) (c : CtxId) (k : Kind) (i : Nat) (f : Slot → Slot) : Prop where
  created : ∀ d, (W'.ctx d).created = (W.ctx d).created
  blank : ∀ d, (W'.ctx d).created = false → W'.ctx d = {}
  slot : ∀ d k' j, W'.slot d k' j =
    if d = c ∧ k' = k ∧ j = i then (W.slot d k' j).map f else W.slot d k' j
  importCount : ∀ d, (W'.ctx d).importCount = (W.ctx d).importCount
  view : ∀ d, (W'.ctx d).memoryBase = (W.ctx d).memoryBase ∧ (W'.ctx d).memorySize = (W.ctx d).memorySize
  dependents : ∀ d, (W.ctx d).dependents ⊆ (W'.ctx d).dependents
  registered : ∀ o d, d ≠ c → W'.Registered o d → W.Registered o d
  budgetCtx : ∀ d, (W'.ctx d).budgetCtx = (W.ctx d).budgetCtx
  linked : ∀ d, (W'.ctx d).linked = (W.ctx d).linked
  isInstantiated : ∀ d, (W'.ctx d).isInstantiated = (W.ctx d).isInstantiated
  mayShareRefs : ∀ d, (W'.ctx d).mayShareRefs = (W.ctx d).mayShareRefs
  failed : ∀ d, (W.ctx d).instantiateFailed = true → (W'.ctx d).instantiateFailed = true

namespace Rebinds
variable {k : Kind} {i : Nat} {f : Slot → Slot}

theorem root (h : Rebinds W W' c k i f) (d : CtxId) : W'.root d = W.root d := by simp [World.root, h.budgetCtx d]

theorem owned (h : Rebinds W W' c k i f) (d : CtxId) : W'.owned d = W.owned d := by simp [World.owned, h.linked d]

/-- a definition slot is none that was bound -/
theorem definition (h : Rebinds W W' c k i f) (hi : i < (W.ctx c).importCount k) {o : CtxId} {oi : Nat}
    (hge : (W.ctx o).importCount k ≤ oi) : W'.slot o k oi = W.slot o k oi := by
  rw [h.slot, if_neg]
  rintro ⟨rfl, -, rfl⟩
  omega

end Rebinds

/-- binding an import slot of a context under construction keeps the invariant, when the slot is in step unless the
context is given up -/
theorem Coherent.rebinds (hC : Coherent W) {k : Kind} {i : Nat} {f : Slot → Slot} (h : Rebinds W W' c k i f)
    (hi : i < (W.ctx c).importCount k) (hin : (W.ctx c).isInstantiated = false)
    (hsh : (W.ctx c).mayShareRefs = false) (hnc : ¬ W.Abandoned c) (hf : ∀ t, (f t).isImported = true)
    (hbound : ∀ t, W.slot c k i = some t → (W'.Abandoned c → W'.Knows c (f t)) → W'.InStep c k (f t)) :
    Coherent W' := by
  constructor
  case blank => exact h.blank
  case defined =>
    intro d k' j s hs hge
    rw [h.importCount] at hge
    rw [h.slot] at hs
    split_ifs at hs with he
    · obtain ⟨rfl, rfl, rfl⟩ := he
      omega
    · exact hC.defined d k' j s hs hge
  case complete =>
    intro d hd k' j s hs hlt
    rw [h.isInstantiated, h.mayShareRefs] at hd
    rw [h.importCount] at hlt
    rw [h.slot] at hs
    split_ifs at hs with he
    · rw [he.1, hin, hsh] at hd
      simp at hd
    · exact hC.complete d hd k' j s hs hlt
  case aliased =>
    intro d k' j s hs himp hkn
    rw [h.slot] at hs
    split_ifs at hs with he
    · obtain ⟨rfl, rfl, rfl⟩ := he
      obtain ⟨t, ht, rfl⟩ := Option.map_eq_some_iff.1 hs
      exact hbound t ht hkn
    · have hkn' : W.Abandoned d → W.Knows d s := by
        intro ha
        refine (hkn ⟨?_, ?_⟩).mono fun o => h.registered o d fun hdc => hnc (hdc ▸ ha)
        · rw [h.root]; exact h.failed _ ha.1
        · rw [h.root, h.mayShareRefs]; exact ha.2
      obtain ⟨o, oi, t, htar, ht, hge, hdata, hsize, hdep⟩ := hC.aliased d k' j s hs himp hkn'
      refine ⟨o, oi, t, htar, ?_, by rw [h.importCount]; exact hge, hdata, hsize, hdep.imp_right fun hm => h.dependents o hm⟩
      rw [h.slot, if_neg, ht]
      rintro ⟨rfl, rfl, rfl⟩
      omega
  case base =>
    intro d hd s hs
    have hs' : W'.slot d .memory 0 = some s := hs
    by_cases he : d = c ∧ Kind.memory = k ∧ 0 = i
    · -- memory 0 of `c` is bound from here on, and the view follows later
      exfalso
      obtain ⟨rfl, rfl, rfl⟩ := he
      unfold BaseDue at hd
      rw [h.budgetCtx, h.mayShareRefs, h.isInstantiated, hin, hsh] at hd
      cases hb : (W.ctx d).budgetCtx with
      | none =>
        rw [hb] at hd
        have := (hd.resolve_left (by simp)) s hs'
        rw [h.slot, if_pos ⟨rfl, rfl, rfl⟩] at hs'
        obtain ⟨t, -, rfl⟩ := Option.map_eq_some_iff.1 hs'
        rw [hf] at this
        cases this
      | some q => rw [hb] at hd; cases hd
    · have hslot : W'.slot d .memory 0 = W.slot d .memory 0 := by rw [h.slot, if_neg he]
      rw [(h.view d).1, (h.view d).2]
      refine hC.base d (hd.back (h.budgetCtx d) (h.isInstantiated d) (h.mayShareRefs d) fun s hs => ?_) s ?_
      · exact ⟨s, by rw [hslot, hs], rfl⟩
      · rw [hslot] at hs'
        exact hs'
  case rooted =>
    intro d q hq
    rw [h.budgetCtx] at hq
    rw [h.budgetCtx, h.owned, h.mayShareRefs]
    exact hC.rooted d q hq
  case owns =>
    intro q d hd
    rw [h.owned] at hd
    rw [h.budgetCtx]
    exact hC.owns q d hd
  case shared =>
    intro q hq d hd
    rw [h.mayShareRefs] at hq
    rw [h.owned] at hd
    rw [h.isInstantiated]
    exact hC.shared q hq d hd
  case finished =>
    intro q hq hb
    rw [h.isInstantiated] at hq
    rw [h.budgetCtx] at hb
    rw [h.mayShareRefs]
    exact hC.finished q hq hb

/-- an identity with a slot is in use -/
theorem Coherent.created_of_slot (hC : Coherent W) {k : Kind} {i : Nat} {s : Slot} (h : W.slot c k i = some s) :
    (W.ctx c).created = true := by
  by_contra hn
  rw [(hC.unused (by simpa using hn)).1] at h
  cases h

/-- the primary of a context in use is in use -/
theorem Coherent.root_created (hC : Coherent W) (hc : (W.ctx c).created = true) :
    (W.ctx (W.root c)).created = true := by
  unfold World.root
  cases hb : (W.ctx c).budgetCtx with
  | none => exact hc
  | some q =>
    by_contra hn
    exact (hC.unused (by simpa using hn)).2.2 c hb

/-- the primary of a context is nobody's owned context -/
theorem Coherent.root_primary (hC : Coherent W) (c : CtxId) : (W.ctx (W.root c)).budgetCtx = none := by
  unfold World.root
  cases hb : (W.ctx c).budgetCtx with
  | none => exact hb
  | some q => exact (hC.rooted c q hb).1

/-- a provider was not given up -/
theorem Coherent.provider_not_abandoned (hC : Coherent W) (hp : W.binding p = true) {q : CtxId}
    (h : W.root q = p ∨ (W.ctx (W.root q)).isInstantiated = true) : ¬ W.Abandoned q := by
  rintro ⟨hf, hs⟩
  rcases h with rfl | hin
  · rw [(binding_iff.1 hp).2.2.1] at hf
    cases hf
  · rw [hC.finished _ hin (hC.root_primary q)] at hs
    cases hs

/-- following the chain from a provided slot ends at a definition slot with the same pointer and size -/
theorem Coherent.provided (hC : Coherent W) (hp : W.binding p = true) {k : Kind} {q : CtxId} {qi : Nat} {s : Slot}
    (hprov : W.provides p k q qi = true) (hs : W.slot q k qi = some s) :
    ∃ o oi d, W.followChain k reexportMaxDepth q qi = some (o, oi) ∧ W.slot o k oi = some d ∧
      (W.ctx o).importCount k ≤ oi ∧ s.data = d.data ∧ s.size = d.size := by
  simp only [provides, Bool.and_eq_true, Bool.or_eq_true, decide_eq_true_eq] at hprov
  obtain ⟨⟨hroot, -⟩, hcase⟩ := hprov
  have hna := hC.provider_not_abandoned hp hroot
  by_cases hge : (W.ctx q).importCount k ≤ qi
  · have hnt : s.target = none := by simp [Slot.target, hC.defined q k qi s hs hge]
    refine ⟨q, qi, s, ?_, hs, hge, rfl, rfl⟩
    unfold followChain
    simp [hs, hnt]
  · have himp : s.isImported = true :=
      hC.complete q (.inl (hcase.resolve_right hge)) k qi s hs (by omega)
    obtain ⟨o, oi, d, htar, hd, hgeo, hdata, hsize, -⟩ := hC.aliased q k qi s hs himp fun ha => absurd ha hna
    have hnt : d.target = none := by simp [Slot.target, hC.defined o k oi d hd hgeo]
    refine ⟨o, oi, d, ?_, hd, hgeo, hdata, hsize⟩
    unfold followChain
    simp only [hs, Option.bind_some, htar, reexportMaxDepth]
    unfold followChain
    simp [hd, hnt]

theorem slot_setSlot (c : CtxId) (k : Kind) (i : Nat) (f : Slot → Slot) (d : CtxId) (k' : Kind) (j : Nat) :
    (W.setSlot c k i f).slot d k' j =
      if d = c ∧ k' = k ∧ j = i then (W.slot d k' j).map f else W.slot d k' j := by
  by_cases hd : d = c
  · subst hd
    by_cases hk : k' = k
    · subst hk
      simp only [World.slot, setSlot, set_self, Function.update_self, List.getElem?_modify, true_and]
      by_cases hj : j = i
      · subst hj; simp
      · simp [hj, Ne.symm hj]
    · simp [World.slot, setSlot, hk]
  · simp [World.slot, setSlot, set_other _ hd, hd]

theorem setSlot_ctx (c : CtxId) (k : Kind) (i : Nat) (f : Slot → Slot) (d : CtxId) :
    ∃ l, (W.setSlot c k i f).ctx d = { W.ctx d with slots := l } := by
  rw [setSlot, set_ctx]
  split_ifs with hd
  · exact ⟨_, by rw [hd]⟩
  · exact ⟨_, rfl⟩

theorem giveUp_ctx (p d : CtxId) :
    ∃ b, (W.giveUp p).ctx d = { W.ctx d with instantiateFailed := b } ∧
      ((W.ctx d).instantiateFailed = true → b = true) := by
  rw [giveUp, set_ctx]
  split_ifs with hd
  · exact ⟨true, by rw [hd], fun _ => rfl⟩
  · exact ⟨_, rfl, fun h => h⟩

/-- registrations depend on the lists, the heaps and who owns whom -/
theorem registered_congr (h : ∀ o, (W'.ctx o).dependents = (W.ctx o).dependents ∧
      (W'.ctx o).gcDependents = (W.ctx o).gcDependents ∧ (W'.ctx o).gc = (W.ctx o).gc ∧
      (W'.ctx o).budgetCtx = (W.ctx o).budgetCtx) (o d : CtxId) : W'.Registered o d ↔ W.Registered o d := by
  have hroot : W'.root o = W.root o := by simp [World.root, (h o).2.2.2]
  unfold Registered
  rw [hroot, (h o).1, (h _).2.1, (h _).2.2.1]

theorem registered_setSlot {k : Kind} {i : Nat} {f : Slot → Slot} (o d : CtxId) :
    (W.setSlot c k i f).Registered o d ↔ W.Registered o d := by
  refine registered_congr (fun o => ?_) o d
  obtain ⟨l, he⟩ := setSlot_ctx (W := W) c k i f o
  rw [he]
  exact ⟨rfl, rfl, rfl, rfl⟩

theorem registered_giveUp (o d : CtxId) : (W.giveUp p).Registered o d ↔ W.Registered o d := by
  refine registered_congr (fun o => ?_) o d
  obtain ⟨b, he, -⟩ := giveUp_ctx (W := W) p o
  rw [he]
  exact ⟨rfl, rfl, rfl, rfl⟩

/-- changing a slot of a created context -/
theorem rebinds_setSlot (hC : Coherent W) (hcr : (W.ctx c).created = true) (k : Kind) (i : Nat) (f : Slot → Slot) :
    Rebinds W (W.setSlot c k i f) c k i f := by
  constructor
  case blank => exact blank_set hC _ hcr
  case slot => exact slot_setSlot c k i f
  case registered => exact fun o d _ hr => (registered_setSlot o d).1 hr
  all_goals
    intro d
    obtain ⟨l, he⟩ := setSlot_ctx (W := W) c k i f d
    rw [he]
  case view => exact ⟨rfl, rfl⟩
  case dependents => exact List.Subset.refl _
  case failed => exact fun h => h

/-- registering the context afterwards -/
theorem Rebinds.enlists {V : World} {k : Kind} {i : Nat} {f : Slot → Slot} (h : Rebinds W W' c k i f)
    (hen : Enlists W' V c) : Rebinds W V c k i f := by
  constructor
  case blank =>
    intro d hd
    rw [hen.created] at hd
    obtain ⟨l, g, -, -, -, hsame⟩ := hen d
    rw [hsame hd]
    exact h.blank d hd
  case slot =>
    intro d k' j
    rw [← h.slot, World.slot, World.slot]
    obtain ⟨l, g, he, -⟩ := hen d
    rw [he]
  case registered => exact fun o d hd hr => h.registered o d hd (hen.registered hd hr)
  case dependents =>
    intro d
    obtain ⟨l, g, he, hsub, -⟩ := hen d
    rw [he]
    exact List.Subset.trans (h.dependents d) hsub
  all_goals
    intro d
    obtain ⟨l, g, he, -⟩ := hen d
    rw [he]
  case created => exact h.created d
  case importCount => exact h.importCount d
  case view => exact h.view d
  case budgetCtx => exact h.budgetCtx d
  case linked => exact h.linked d
  case isInstantiated => exact h.isInstantiated d
  case mayShareRefs => exact h.mayShareRefs d
  case failed => exact h.failed d

/-- giving up the instantiation afterwards -/
theorem Rebinds.giveUp {k : Kind} {i : Nat} {f : Slot → Slot} (h : Rebinds W W' c k i f)
    (hp : (W.ctx p).created = true) : Rebinds W (W'.giveUp p) c k i f := by
  constructor
  case blank =>
    intro d hd
    have hdp : d ≠ p := by
      rintro rfl
      rw [World.giveUp, set_self] at hd
      rw [← h.created, hd] at hp
      cases hp
    rw [World.giveUp, set_other _ hdp] at hd ⊢
    exact h.blank d hd
  case slot =>
    intro d k' j
    rw [← h.slot, World.slot, World.slot]
    obtain ⟨b, he, -⟩ := giveUp_ctx (W := W') p d
    rw [he]
  case registered => exact fun o d hd hr => h.registered o d hd ((registered_giveUp o d).1 hr)
  case failed =>
    intro d hd
    obtain ⟨b, he, hb⟩ := giveUp_ctx (W := W') p d
    rw [he]
    exact hb (h.failed d hd)
  all_goals
    intro d
    obtain ⟨b, he, -⟩ := giveUp_ctx (W := W') p d
    rw [he]
  case created => exact h.created d
  case importCount => exact h.importCount d
  case view => exact h.view d
  case dependents => exact h.dependents d
  case budgetCtx => exact h.budgetCtx d
  case linked => exact h.linked d
  case isInstantiated => exact h.isInstantiated d
  case mayShareRefs => exact h.mayShareRefs d

/-- what `bindImport` is called on -/
theorem binding_context (hC : Coherent W) (hp : W.binding (W.root c) = true) {k : Kind} {i : Nat}
    (hi : i < (W.ctx c).importCount k) : (W.ctx c).created = true ∧ (W.ctx c).mayShareRefs = false := by
  refine ⟨hC.created_of_ne fun he => by rw [he] at hi; simp at hi, ?_⟩
  cases hb : (W.ctx c).budgetCtx with
  | none =>
    have hr : W.root c = c := by simp [World.root, hb]
    rw [hr] at hp
    exact (binding_iff.1 hp).2.2.2.2
  | some q => exact (hC.rooted c q hb).2.2

/-- the slot takes over pointer, size and maximum of `s` and names `(o, oi)` -/
def boundSlot (s : Slot) (o : CtxId) (oi : Nat) (t : Slot) : Slot :=
  { t with data := s.data, size := s.size, max := s.max, isImported := true, importCtx := some o, importIdx := oi }

/-- what binding an import comes to: no provider, a slot that is bound and known to its owner, or one that is left half
bound because `c` could not be registered -/
inductive Binds (W W' : World) (c : CtxId) (k : Kind) (i : Nat) (q : CtxId) (qi : Nat) : Prop where
  | unresolved (h : ∀ s x, W.slot q k qi = some s → W.followChain k reexportMaxDepth q qi ≠ some x)
      (hw : W' = W.giveUp (W.root c))
  | own {s : Slot} {oi : Nat} (hs : W.slot q k qi = some s)
      (hx : W.followChain k reexportMaxDepth q qi = some (c, oi)) (hw : W' = W.setSlot c k i (boundSlot s c oi))
  | bound {s : Slot} {o : CtxId} {oi : Nat} (hs : W.slot q k qi = some s)
      (hx : W.followChain k reexportMaxDepth q qi = some (o, oi)) (hne : o ≠ c)
      (hw : W' = ((W.setSlot c k i (boundSlot s o oi)).registerDependent o c).registerGcDependent o c)
  | unlisted {o : CtxId} {oi : Nat} {f : Slot → Slot} (hx : W.followChain k reexportMaxDepth q qi = some (o, oi))
      (hne : o ≠ c) (hf : ∀ t, (f t).target = some (o, oi)) (hn : c ∉ (W.ctx o).dependents)
      (hw : W' = (W.setSlot c k i f).giveUp (W.root c))
  | gcUnlisted {o : CtxId} {oi : Nat} {f : Slot → Slot} (hx : W.followChain k reexportMaxDepth q qi = some (o, oi))
      (hne : o ≠ c) (hf : ∀ t, (f t).target = some (o, oi)) (hgc : (W.ctx (W.root o)).gc.isSome = true)
      (hn : c ∉ (W.ctx (W.root o)).gcDependents)
      (hw : W' = ((W.setSlot c k i f).registerDependent o c).giveUp (W.root c))

theorem bindImport_cases {k : Kind} {i : Nat} {q : CtxId} {qi : Nat} {registered gcRegistered : Bool}
    (h : W.bindImport c k i q qi registered gcRegistered = some W') :
    (W.binding (W.root c) = true ∧ (W.ctx c).isInstantiated = false ∧ i < (W.ctx c).importCount k ∧
      W.provides (W.root c) k q qi = true) ∧ Binds W W' c k i q qi := by
  unfold World.bindImport at h
  dsimp only at h
  by_cases hg : (W.binding (W.root c) && !(W.ctx c).isInstantiated && decide (i < (W.ctx c).importCount k) &&
      W.provides (W.root c) k q qi) = true
  · rw [if_pos hg] at h
    simp only [Bool.and_eq_true, Bool.not_eq_true', decide_eq_true_eq] at hg
    refine ⟨⟨hg.1.1.1, hg.1.1.2, hg.1.2, hg.2⟩, ?_⟩
    split at h
    · rename_i s o oi hs hx
      by_cases hoc : o = c
      · rw [if_pos hoc] at h
        cases h
        subst hoc
        exact .own hs hx rfl
      rw [if_neg hoc] at h
      by_cases hreg : c ∉ (W.ctx o).dependents ∧ registered = false
      · rw [if_pos hreg] at h
        cases h
        exact .unlisted hx hoc (fun t => by split_ifs <;> rfl) hreg.1 rfl
      rw [if_neg hreg] at h
      by_cases hgc : (W.ctx (W.root o)).gc.isSome = true ∧ c ∉ (W.ctx (W.root o)).gcDependents ∧ gcRegistered = false
      · rw [if_pos hgc] at h
        cases h
        exact .gcUnlisted hx hoc (fun t => by split_ifs <;> rfl) hgc.1 hgc.2.1 rfl
      · rw [if_neg hgc] at h
        cases h
        exact .bound hs hx hoc rfl
    · rename_i hnone
      cases h
      exact .unresolved (fun s x hs hx => hnone s x.1 x.2 hs hx) rfl
  · rw [if_neg hg] at h
    cases h

/-- binding an import changes the one slot: to an alias that its owner knows, or to one it does not know, and then the
instantiation is given up -/
theorem Coherent.bindImport_rebinds (hC : Coherent W) {k : Kind} {i : Nat} {q : CtxId} {qi : Nat}
    {registered gcRegistered : Bool} (h : W.bindImport c k i q qi registered gcRegistered = some W') :
    ∃ f, Rebinds W W' c k i f ∧ (∀ t, (f t).isImported = true) ∧
      ((W'.Abandoned c ∧ ∀ t, ¬ W'.Knows c (f t)) ∨
        ∃ s o oi d, f = boundSlot s o oi ∧ W.slot o k oi = some d ∧ (W.ctx o).importCount k ≤ oi ∧
          s.data = d.data ∧ s.size = d.size ∧ (c = o ∨ c ∈ (W'.ctx o).dependents)) := by
  obtain ⟨⟨hb, hin, hi, hprov⟩, hcase⟩ := bindImport_cases h
  obtain ⟨hpc, -, hpf, hpb, hps⟩ := binding_iff.1 hb
  obtain ⟨hcr, hsh⟩ := binding_context hC hb hi
  obtain ⟨s₀, hs₀⟩ : ∃ s, W.slot q k qi = some s := by
    simp only [provides, Bool.and_eq_true] at hprov
    exact Option.isSome_iff_exists.1 hprov.1.2
  obtain ⟨o', oi', d, hchain, hd, hge, hdata, hsize⟩ := hC.provided hb hprov hs₀
  -- the owner of the slot and its primary are in use
  have ho := hC.created_of_slot hd
  have hro : (W.ctx (W.root o')).created = true := hC.root_created ho
  have hlost : ∀ {V : World} {f : Slot → Slot}, Rebinds W V c k i f → W' = V.giveUp (W.root c) →
      Rebinds W W' c k i f ∧ W'.Abandoned c := by
    intro V f hr hw
    subst hw
    have hr' := hr.giveUp hpc
    refine ⟨hr', ?_, ?_⟩
    · rw [hr'.root, World.giveUp, set_self]
    · rw [hr'.root, hr'.mayShareRefs]; exact hps
  cases hcase with
  | unresolved hno hw => exact absurd hchain (hno s₀ _ hs₀)
  | own hs hx hw =>
    obtain ⟨rfl, rfl⟩ : o' = c ∧ oi' = _ := by simpa using hchain.symm.trans hx
    obtain rfl := Option.some_injective _ (hs₀.symm.trans hs)
    subst hw
    exact ⟨_, rebinds_setSlot hC hcr k i _, fun t => rfl, .inr ⟨s₀, _, oi', d, rfl, hd, hge, hdata, hsize, .inl rfl⟩⟩
  | bound hs hx hne hw =>
    obtain ⟨rfl, rfl⟩ : o' = _ ∧ oi' = _ := by simpa using hchain.symm.trans hx
    obtain rfl := Option.some_injective _ (hs₀.symm.trans hs)
    subst hw
    have hr := rebinds_setSlot hC hcr k i (boundSlot s₀ o' oi')
    have hen := registers_enlists (W := W.setSlot c k i (boundSlot s₀ o' oi')) (q := o')
      (by rw [hr.created]; exact ho) (by rw [hr.root, hr.created]; exact hro) c
    refine ⟨_, hr.enlists hen, fun t => rfl, .inr ⟨s₀, o', oi', d, rfl, hd, hge, hdata, hsize, .inr ?_⟩⟩
    rw [registerGcDependent_dependents]
    exact mem_registerDependent o' c
  | unlisted hx hne hf hn hw =>
    obtain ⟨hr, ha⟩ := hlost (rebinds_setSlot hC hcr k i _) hw
    refine ⟨_, hr, fun t => Slot.isImported_of_target (hf t), .inl ⟨ha, fun t hk => ?_⟩⟩
    rcases hk _ _ (hf t) with he | hreg
    · exact hne he.symm
    · rw [hw, registered_giveUp, registered_setSlot] at hreg
      exact hn hreg.1
  | @gcUnlisted _ _ f hx hne hf hgc hn hw =>
    obtain ⟨rfl, rfl⟩ : o' = _ ∧ oi' = _ := by simpa using hchain.symm.trans hx
    have hr₀ := rebinds_setSlot hC hcr k i f
    have hen := registerDependent_enlists (W := W.setSlot c k i f) (q := o') (by rw [hr₀.created]; exact ho) c
    obtain ⟨hr, ha⟩ := hlost (hr₀.enlists hen) hw
    refine ⟨_, hr, fun t => Slot.isImported_of_target (hf t), .inl ⟨ha, fun t hk => ?_⟩⟩
    rcases hk _ _ (hf t) with he | hreg
    · exact hne he.symm
    · rw [hw, registered_giveUp] at hreg
      have hmem := hreg.2
      obtain ⟨l, he⟩ := setSlot_ctx (W := W) c k i f (W.root o')
      rw [hen.root, hr₀.root, hen.gc, registerDependent_gcDependents, he] at hmem
      exact hn (hmem hgc)

theorem Coherent.bindImport (hC : Coherent W) {k : Kind} {i : Nat} {q : CtxId} {qi : Nat}
    {registered gcRegistered : Bool} (h : W.bindImport c k i q qi registered gcRegistered = some W') :
    Coherent W' := by
  obtain ⟨⟨hb, hin, hi, -⟩, -⟩ := bindImport_cases h
  obtain ⟨hcr, hsh⟩ := binding_context hC hb hi
  obtain ⟨f, hr, hf, hcase⟩ := hC.bindImport_rebinds h
  simp only [binding, Bool.and_eq_true] at hb
  refine hC.rebinds hr hi hin hsh (not_abandoned_of_linkable hb.1) hf fun t _ hkn => ?_
  rcases hcase with ⟨ha, hno⟩ | ⟨s, o, oi, d, rfl, hd, hge, hdata, hsize, hdep⟩
  · exact absurd (hkn ha) (hno t)
  · refine ⟨o, oi, d, rfl, ?_, ?_, hdata, hsize, hdep⟩
    · rw [hr.definition hi hge]; exact hd
    · rw [hr.importCount]; exact hge

/-! ### Growing -/

/-- a context whose primary may run code has all its imports bound -/
theorem Coherent.complete_of_shared (hC : Coherent W) (h : (W.ctx (W.root c)).mayShareRefs = true) :
    (W.ctx c).isInstantiated = true ∨ (W.ctx c).mayShareRefs = true := by
  unfold World.root at h
  cases hb : (W.ctx c).budgetCtx with
  | none => rw [hb] at h; exact .inr h
  | some p =>
    rw [hb] at h
    exact .inl (hC.shared p h c (hC.rooted c p hb).2.1)

theorem Coherent.baseDue_of_shared (hC : Coherent W) (h : (W.ctx (W.root c)).mayShareRefs = true) : W.BaseDue c := by
  unfold World.root at h
  unfold BaseDue
  cases hb : (W.ctx c).budgetCtx with
  | none => rw [hb] at h; exact .inl h
  | some p =>
    rw [hb] at h
    exact hC.shared p h c (hC.rooted c p hb).2.1

/-- the view of memory 0 is due wherever an instantiation does not stand between -/
theorem Coherent.baseDue_of_finished (hC : Coherent W) (h : ¬ W.Unfinished c) : W.BaseDue c := by
  by_cases hsh : (W.ctx (W.root c)).mayShareRefs = true
  · exact hC.baseDue_of_shared hsh
  · have hopen : ¬ ((W.ctx c).budgetCtx.isSome = true ∨ ∃ s, W.slot c .memory 0 = some s ∧ s.isImported = true) :=
      fun hu => h ⟨by simpa using hsh, hu⟩
    unfold BaseDue
    cases hb : (W.ctx c).budgetCtx with
    | some p => exact absurd (.inl (by simp [hb])) hopen
    | none =>
      refine .inr fun s hs => ?_
      by_contra himp
      exact hopen (.inr ⟨s, hs, by simpa using himp⟩)

theorem not_abandoned_of_shared (h : (W.ctx (W.root c)).mayShareRefs = true) : ¬ W.Abandoned c := by
  rintro ⟨-, hs⟩
  rw [h] at hs
  cases hs

/-- the import slots of a context whose primary may run code are in step -/
theorem Coherent.aliased_of_shared (hC : Coherent W) (hsh : (W.ctx (W.root c)).mayShareRefs = true) {k : Kind}
    {i : Nat} {s : Slot} (hs : W.slot c k i = some s) (himp : s.isImported = true) : W.InStep c k s :=
  hC.aliased c k i s hs himp fun ha => absurd ha (not_abandoned_of_shared hsh)

/-- every slot has pointer and size of its owner, unless it is an import of a context that was given up and the owner
does not know it -/
theorem Coherent.owner (hC : Coherent W) {k : Kind} {i : Nat} {s : Slot} (hkn : W.Abandoned c → W.Knows c s)
    (hs : W.slot c k i = some s) :
    ∃ d, W.slot (ownerOf c s i).1 k (ownerOf c s i).2 = some d ∧ d.target = none ∧ s.data = d.data ∧ s.size = d.size := by
  by_cases himp : s.isImported = true
  · obtain ⟨o, oi, d, htar, hd, hge, hdata, hsize, -⟩ := hC.aliased c k i s hs himp hkn
    refine ⟨d, ?_, ?_, hdata, hsize⟩
    · simpa [ownerOf, htar] using hd
    · simp [Slot.target, hC.defined o k oi d hd hge]
  · have hnt : s.target = none := by simp [Slot.target, himp]
    exact ⟨s, by simpa [ownerOf, hnt] using hs, hnt, rfl, rfl⟩

theorem Coherent.owner_of_shared (hC : Coherent W) (hsh : (W.ctx (W.root c)).mayShareRefs = true) {k : Kind} {i : Nat}
    {s : Slot} (hs : W.slot c k i = some s) :
    ∃ d, W.slot (ownerOf c s i).1 k (ownerOf c s i).2 = some d ∧ d.target = none ∧ s.data = d.data ∧ s.size = d.size :=
  hC.owner (fun ha => absurd ha (not_abandoned_of_shared hsh)) hs

/-- the owner slot of a built context's slot is a definition -/
theorem Coherent.owner_defined (hC : Coherent W) (hsh : (W.ctx (W.root c)).mayShareRefs = true) {k : Kind} {i : Nat}
    {s : Slot} (hs : W.slot c k i = some s) : (W.ctx (ownerOf c s i).1).importCount k ≤ (ownerOf c s i).2 := by
  by_cases hge : (W.ctx c).importCount k ≤ i
  · have hnt : s.target = none := by simp [Slot.target, hC.defined c k i s hs hge]
    simpa [ownerOf, hnt] using hge
  · have himp := hC.complete c (hC.complete_of_shared hsh) k i s hs (by omega)
    obtain ⟨o, oi, d, htar, -, hgeo, -⟩ := hC.aliased_of_shared hsh hs himp
    simpa [ownerOf, htar] using hgeo

/-- slots that resolve to a grown definition slot have its new pointer and size, all others theirs -/
theorem Coherent.inStep_grown (hC : Coherent W) {R : Renewal} (hg : Grown R W W') (hdef : (W.ctx R.o).importCount R.k ≤ R.oi)
    {d : CtxId} {j : Nat} {s t : Slot} (hs : W'.slot d k j = some s) (ht : W.slot d k j = some t)
    (hst : s = t ∨ (k = R.k ∧ s = R.view t ∧ R.Hits d j t)) (himp : t.isImported = true) (hin : W.InStep d k t) :
    W'.InStep d k s := by
  have hshape : ∀ d, (W.ctx d).SameShape (W'.ctx d) := fun d => (hg.refreshed d).shape
  obtain ⟨o, oi, x, htar, hx, hge, hdata, hsize, hdep⟩ := hin
  have hdep' : d = o ∨ d ∈ (W'.ctx o).dependents := by rw [(hshape o).dependents]; exact hdep
  have hge' : (W'.ctx o).importCount k ≤ oi := by rw [(hshape o).importCount]; exact hge
  by_cases hsame : k = R.k ∧ o = R.o ∧ oi = R.oi
  · obtain ⟨rfl, rfl, rfl⟩ := hsame
    obtain rfl : s = R.view t := Option.some_injective _ (hs.symm.trans (hg.aliases d hdep j t ht htar))
    exact ⟨R.o, R.oi, R.view x, htar, hg.owner x hx, hge', rfl, rfl, hdep'⟩
  · -- neither the import slot nor its owner slot resolves to the grown slot
    obtain rfl : s = t := by
      rcases hst with rfl | ⟨rfl, rfl, hit | hit⟩
      · rfl
      · exfalso
        obtain ⟨rfl, rfl⟩ := hit
        rw [hC.defined _ _ _ t ht hdef] at himp
        cases himp
      · exfalso
        rw [htar] at hit
        exact hsame ⟨rfl, by simpa using hit⟩
    refine ⟨o, oi, x, htar, ?_, hge', hdata, hsize, hdep'⟩
    by_cases hk : k = R.k
    · subst hk
      rcases hg.refreshed.slot hx with h1 | ⟨-, hit | hit⟩
      · exact h1
      · exact absurd ⟨rfl, hit⟩ hsame
      · have hxi := Slot.isImported_of_target hit
        rw [hC.defined _ _ _ x hx hge] at hxi
        cases hxi
    · rw [World.slot, (hg.refreshed o).otherKind k hk]
      exact hx

/-- a grow of a definition slot keeps the invariant -/
theorem Coherent.grown (hC : Coherent W) {R : Renewal} (hg : Grown R W W') (hdef : (W.ctx R.o).importCount R.k ≤ R.oi)
    (hblank : ∀ d, (W.ctx d).created = false → W'.ctx d = {}) : Coherent W' := by
  have hshape : ∀ d, (W.ctx d).SameShape (W'.ctx d) := fun d => (hg.refreshed d).shape
  have hroot : ∀ d, W'.root d = W.root d := fun d => by simp [World.root, (hshape d).budgetCtx]
  have howned : ∀ d, W'.owned d = W.owned d := fun d => by simp [World.owned, (hshape d).linked]
  constructor
  case blank =>
    intro d hd
    rw [(hshape d).created] at hd
    exact hblank d hd
  case defined =>
    intro d k j s hs hge
    obtain ⟨t, ht, he⟩ := hg.refreshed.imported_back hs
    rw [(hshape d).importCount] at hge
    rw [← he]
    exact hC.defined d k j t ht hge
  case complete =>
    intro d hd k j s hs hlt
    obtain ⟨t, ht, he⟩ := hg.refreshed.imported_back hs
    rw [(hshape d).importCount] at hlt
    rw [(hshape d).isInstantiated, (hshape d).mayShareRefs] at hd
    rw [← he]
    exact hC.complete d hd k j t ht hlt
  case aliased =>
    intro d k j s hs himported hkn
    obtain ⟨t, ht, hst⟩ := hg.refreshed.slot_back hs
    have hkn' : W.Abandoned d → W.Knows d t := by
      intro ha
      have hk : W.Knows d s := by
        refine (hkn ?_).mono fun o => (registered_congr (fun o => ?_) o d).1
        · unfold Abandoned
          rw [hroot, (hshape _).instantiateFailed, (hshape _).mayShareRefs]
          exact ha
        · exact ⟨(hshape o).dependents, (hshape o).gcDependents, (hshape o).gc, (hshape o).budgetCtx⟩
      rcases hst with rfl | ⟨-, rfl, -⟩
      · exact hk
      · exact hk
    have htimp : t.isImported = true := by
      rcases hst with rfl | ⟨-, rfl, -⟩
      · exact himported
      · exact himported
    exact hC.inStep_grown hg hdef hs ht hst htimp (hC.aliased d k j t ht htimp hkn')
  case base =>
    intro d hd
    refine (hg.refreshed d).base (hC.base d ?_)
    exact hd.back (hshape d).budgetCtx (hshape d).isInstantiated (hshape d).mayShareRefs fun s hs =>
      hg.refreshed.imported_forth hs
  case rooted =>
    intro d q hq
    rw [(hshape d).budgetCtx] at hq
    rw [(hshape q).budgetCtx, howned, (hshape d).mayShareRefs]
    exact hC.rooted d q hq
  case owns =>
    intro q d hd
    rw [howned] at hd
    rw [(hshape d).budgetCtx]
    exact hC.owns q d hd
  case shared =>
    intro q hq d hd
    rw [(hshape q).mayShareRefs] at hq
    rw [howned] at hd
    rw [(hshape d).isInstantiated]
    exact hC.shared q hq d hd
  case finished =>
    intro q hq hb
    rw [(hshape q).isInstantiated] at hq
    rw [(hshape q).budgetCtx] at hb
    rw [(hshape q).mayShareRefs]
    exact hC.finished q hq hb

theorem LinkCtx.storeSlot_blank (k : Kind) (i : Nat) (data : Ptr) (size : Nat) : LinkCtx.storeSlot k i data size {} = {} := by
  unfold Wah.LinkCtx.storeSlot
  simp [Wah.LinkCtx.setBase]

theorem LinkCtx.updateAliases_blank (k : Kind) (exclude : Option Nat) (o : CtxId) (oi : Nat) (data : Ptr) (size : Nat) :
    LinkCtx.updateAliases k exclude o oi data size {} = {} := by
  unfold Wah.LinkCtx.updateAliases
  simp [aliasSlots]

theorem set_blank {d : CtxId} (f : LinkCtx → LinkCtx) (hf : f {} = {}) (h : W.ctx d = {}) : (W.set c f).ctx d = {} := by
  rcases set_cases W c f d with he | rfl
  · rw [he]; exact h
  · rw [set_self, h, hf]

theorem foldl_set_blank {d : CtxId} (f : LinkCtx → LinkCtx) (hf : f {} = {}) (l : List CtxId) (W : World)
    (h : W.ctx d = {}) : (l.foldl (fun V t => V.set t f) W).ctx d = {} := by
  induction l generalizing W with
  | nil => exact h
  | cons t rest ih => exact ih _ (set_blank f hf h)

/-- a grow leaves identities alone that are not in use -/
theorem growTo_blank {ctx fctx : CtxId} {k : Kind} {i : Nat} {s : Slot} {newSize deltaBytes : Nat} {data : Ptr}
    {fill : Cell} {d : CtxId} (h : W.ctx d = {}) (hd : d ≠ W.root (ownerOf fctx s i).1) :
    (W.growTo ctx fctx k i s newSize deltaBytes data fill).ctx d = {} := by
  unfold growTo
  dsimp only
  apply foldl_set_blank _ (LinkCtx.updateAliases_blank ..)
  apply set_blank _ (LinkCtx.updateAliases_blank ..)
  split_ifs
  · apply set_blank _ (LinkCtx.updateAliases_blank ..)
    apply set_blank _ (LinkCtx.storeSlot_blank ..)
    rw [set_other _ hd]
    exact set_blank _ (LinkCtx.storeSlot_blank ..) h
  · rw [set_other _ hd]
    exact set_blank _ (LinkCtx.storeSlot_blank ..) h

/-- the renewal of a grow -/
theorem growTo_grown (ctx : CtxId) {fctx : CtxId} {k : Kind} {i : Nat} {s : Slot} (newSize deltaBytes : Nat) (data : Ptr)
    (fill : Cell) (hs : W.slot fctx k i = some s) :
    Grown ⟨k, (ownerOf fctx s i).1, (ownerOf fctx s i).2, data, newSize⟩ W
      (W.growTo ctx fctx k i s newSize deltaBytes data fill) := by
  cases ht : s.target with
  | none => simpa [ownerOf, ht] using growTo_own hs ht
  | some x => simpa [ownerOf, ht] using growTo_import hs (show s.target = some (x.1, x.2) from ht)

/-- what a grow comes to: nothing, or the renewal of the owner slot -/
theorem grow_cases {ctx fctx : CtxId} {k : Kind} {i delta : Nat} {fill : Cell} {alloc : Option Ptr} {r : Int}
    (h : W.grow ctx fctx k i delta fill alloc = some (r, W')) :
    ∃ s, W.slot fctx k i = some s ∧
      ((r = -1 ∧ W' = W) ∨
        (r = s.oldSize k ∧
          ((s.growPlan delta k = .same ∧ W' = W) ∨
            ∃ newSize deltaBytes data, s.growPlan delta k = .to newSize deltaBytes ∧ alloc = some data ∧
              (W.ctx (W.root (ownerOf fctx s i).1)).budget.check deltaBytes = true ∧
              W' = W.growTo ctx fctx k i s newSize deltaBytes data (k.fill fill)))) := by
  unfold World.grow at h
  split at h
  · cases h
  · rename_i s hs
    refine ⟨s, hs, ?_⟩
    split at h
    · cases h; exact .inl ⟨rfl, rfl⟩
    · rename_i hp
      cases h; exact .inr ⟨rfl, .inl ⟨hp, rfl⟩⟩
    · rename_i newSize deltaBytes hp
      split_ifs at h with hcheck
      · cases h; exact .inl ⟨rfl, rfl⟩
      · split at h
        · cases h; exact .inl ⟨rfl, rfl⟩
        · cases h
          exact .inr ⟨rfl, .inr ⟨newSize, deltaBytes, _, hp, rfl, by simpa using hcheck, rfl⟩⟩

theorem Coherent.grow (hC : Coherent W) {ctx fctx : CtxId} {k : Kind} {i delta : Nat} {fill : Cell} {alloc : Option Ptr}
    {r : Int} (hsh : (W.ctx (W.root fctx)).mayShareRefs = true)
    (h : W.grow ctx fctx k i delta fill alloc = some (r, W')) : Coherent W' := by
  obtain ⟨s, hs, ⟨-, rfl⟩ | ⟨-, ⟨-, rfl⟩ | ⟨newSize, deltaBytes, data, -, -, -, rfl⟩⟩⟩ := grow_cases h
  · exact hC
  · exact hC
  · refine hC.grown (growTo_grown ctx newSize deltaBytes data _ hs) (hC.owner_defined hsh hs) fun d hd => ?_
    refine growTo_blank (hC.blank d hd) ?_
    rintro rfl
    -- the owner has a slot, so it and its primary are in use
    obtain ⟨x, hx, -⟩ := hC.owner_of_shared hsh hs
    rw [hC.root_created (hC.created_of_slot hx)] at hd
    cases hd

theorem Coherent.onHeap (hC : Coherent W) (f : GcState → Budget → Option (Store × GcState × Budget)) :
    Coherent (W.onHeap c f) := by
  unfold World.onHeap
  split
  · exact hC
  · rename_i g hg
    split
    · exact hC
    · rename_i S g' b' _
      have hcr : (W.ctx (W.root c)).created = true := by
        apply hC.created_of_ne
        intro he
        rw [he] at hg
        cases hg
      have hk : Keeps W (W.set (W.root c) fun x => { x with gc := some g', budget := b' }) :=
        keeps_same _ _ rfl rfl rfl (fun hb => hb) rfl rfl (fun _ => rfl) rfl rfl
      have := hC.set_keeps _ hcr hk rfl rfl fun hf => hf
      exact ⟨this.1, this.2, this.3, this.4, this.5, this.6, this.7, this.8, this.9⟩

theorem Coherent.gcStart (hC : Coherent W) (hcr : (W.ctx p).created = true) :
    Coherent (W.set p fun x => { x with gc := some {} }) :=
  hC.set_keeps _ hcr (keeps_same p _ rfl rfl rfl (fun hb => hb) rfl rfl (fun _ => rfl) rfl rfl) rfl rfl fun hf => hf

theorem Coherent.setLimits (hC : Coherent W) (hcr : (W.ctx p).created = true) (m : UInt64) :
    Coherent (W.setLimits p m) := by
  have hk : ∀ m', Coherent (W.set p fun x => { x with budget := { x.budget with maxBytes := m' } }) := fun m' =>
    hC.set_keeps _ hcr (keeps_same p _ rfl rfl rfl (fun hb => hb) rfl rfl (fun h => h) rfl rfl) rfl rfl fun hf => hf
  unfold World.setLimits
  split_ifs
  · exact hC
  · exact hk _

/-- the invariant is about the contexts only -/
theorem Coherent.of_ctx (hC : Coherent W) (h : W'.ctx = W.ctx) : Coherent W' := by
  obtain ⟨ctx, buf, store⟩ := W
  obtain ⟨ctx', buf', store'⟩ := W'
  cases h
  exact ⟨hC.1, hC.2, hC.3, hC.4, hC.5, hC.6, hC.7, hC.8, hC.9⟩

theorem write_ctx (k : Kind) (i n : Nat) (v : Cell) : (W.write c k i n v).ctx = W.ctx := by
  unfold World.write
  split
  · rfl
  · split_ifs <;> rfl

/-- every operation keeps the invariant -/
theorem Coherent.step (hC : Coherent W) {op : ShareOp} (h : W.step op = some W') : Coherent W' := by
  cases op with
  | newContext c spec limit => exact hC.newContext h
  | linkModule p => exact hC.linkModule h
  | linkContext p q registered => exact hC.linkContext h
  | createOwned p j c spec => exact hC.createOwned h
  | bindImport c k i q qi registered gcRegistered => exact hC.bindImport h
  | finishOwned c => exact hC.finishOwned h
  | share p => exact hC.share h
  | finish p => exact hC.finish h
  | fail p => exact hC.fail h
  | grow ctx fctx k i delta fill alloc =>
    simp only [World.step] at h
    split_ifs at h with hsh
    obtain ⟨⟨r, W''⟩, hg, rfl⟩ := Option.map_eq_some_iff.1 h
    exact hC.grow hsh hg
  | write c k i n v =>
    simp only [World.step] at h
    split_ifs at h
    cases h
    exact hC.of_ctx (write_ctx k i n v)
  | gcStart p =>
    simp only [World.step] at h
    split_ifs at h with hg hgc
    · cases h; exact hC
    · cases h
      simp only [Bool.and_eq_true] at hg
      exact hC.gcStart hg.1
  | gcAlloc c mod reprId payload fresh =>
    simp only [World.step] at h
    split_ifs at h
    cases h
    exact hC.onHeap _
  | gcAllocException c n fresh =>
    cases h
    exact hC.onHeap _
  | collect c marked =>
    cases h
    exact hC.onHeap _
  | sweepExceptions c marked =>
    cases h
    exact hC.onHeap _
  | setLimits p m =>
    simp only [World.step] at h
    split_ifs at h with hg
    cases h
    simp only [Bool.and_eq_true] at hg
    exact hC.setLimits hg.1 m

theorem Reached.coherent (h : Reached W) : Coherent W := by
  induction h with
  | start => exact coherent_empty
  | step _ _ hs ih => exact ih.step hs

/-! ## Content -/

@[simp] theorem set_buf (f : LinkCtx → LinkCtx) : (W.set c f).buf = W.buf := rfl

theorem foldl_set_buf (f : LinkCtx → LinkCtx) (l : List CtxId) (W : World) :
    (l.foldl (fun V t => V.set t f) W).buf = W.buf := by
  induction l generalizing W with
  | nil => rfl
  | cons t rest ih => exact ih _

theorem growTo_buf {ctx fctx : CtxId} {k : Kind} {i : Nat} {s : Slot} {newSize deltaBytes : Nat} {data : Ptr}
    {fill : Cell} :
    (W.growTo ctx fctx k i s newSize deltaBytes data fill).buf =
      Function.update W.buf data fun n => if n < s.size then W.buf s.data n else fill := by
  unfold growTo
  dsimp only
  rw [foldl_set_buf]
  split_ifs <;> rfl

/-- a grow that is carried out adds `delta` pages or elements, and charges the bytes it adds -/
theorem growPlan_to {s : Slot} {delta : Nat} {k : Kind} {newSize deltaBytes : Nat}
    (h : s.growPlan delta k = .to newSize deltaBytes) :
    s.size ≤ newSize ∧ k.bytes newSize = k.bytes s.size + deltaBytes ∧
      Slot.oldSize { s with size := newSize } k = s.oldSize k + delta := by
  cases k with
  | memory =>
    simp only [Slot.growPlan] at h
    split_ifs at h with h1 h2
    cases h
    have hmod := Nat.div_add_mod s.size pageSize
    have hlt := Nat.mod_lt s.size (show 0 < pageSize by decide)
    have hle : s.size ≤ (s.size / pageSize + delta) * pageSize := by
      have : (s.size / pageSize + 1) * pageSize ≤ (s.size / pageSize + delta) * pageSize :=
        Nat.mul_le_mul_right _ (by omega)
      have h1 : (s.size / pageSize + 1) * pageSize = pageSize * (s.size / pageSize) + pageSize := by ring
      omega
    refine ⟨hle, ?_, ?_⟩
    · simp only [Kind.bytes]; omega
    · simp only [Slot.oldSize, Nat.mul_div_cancel _ (show 0 < pageSize by decide)]
      push_cast
      rfl
  | table =>
    simp only [Slot.growPlan] at h
    split_ifs at h with h1 h2 h3
    cases h
    refine ⟨by omega, ?_, ?_⟩
    · simp only [Kind.bytes]; ring
    · simp only [Slot.oldSize]
      push_cast
      rfl

theorem oldSize_nonneg (s : Slot) (k : Kind) : 0 ≤ s.oldSize k := by
  cases k <;> exact Int.natCast_nonneg _

theorem growPlan_same {s : Slot} {delta : Nat} {k : Kind} (h : s.growPlan delta k = .same) : delta = 0 := by
  cases k <;> simp only [Slot.growPlan] at h <;> split_ifs at h <;> assumption

/-- a grow through slot `i` of `fctx`: -1 changes nothing, and otherwise the old content is kept, the new part is
filled, and slots of other owners keep pointer and size, and their content unless they were given up -/
structure GrowSpec (W W' : World) (fctx : CtxId) (k : Kind) (i delta : Nat) (fill : Cell) (r : Int) : Prop where
  refused : r = -1 → W' = W
  grown : r ≠ -1 → ∃ s s', W.slot fctx k i = some s ∧ W'.slot fctx k i = some s' ∧ r = s.oldSize k ∧
    s'.oldSize k = r + delta ∧ (∀ n < s.size, W'.buf s'.data n = W.buf s.data n) ∧
    ∀ n, s.size ≤ n → n < s'.size → W'.buf s'.data n = k.fill fill
  others : ∀ s, W.slot fctx k i = some s → ∀ c k' j t, W.slot c k' j = some t →
    ¬ (k' = k ∧ ownerOf c t j = ownerOf fctx s i) →
      W'.slot c k' j = some t ∧ (¬ W.Abandoned c → W'.buf t.data = W.buf t.data)

theorem Coherent.grow_spec (hC : Coherent W) {ctx fctx : CtxId} {k : Kind} {i delta : Nat} {fill : Cell}
    {alloc : Option Ptr} {r : Int} (hsh : (W.ctx (W.root fctx)).mayShareRefs = true)
    (hf : W.Fresh (.grow ctx fctx k i delta fill alloc)) (h : W.grow ctx fctx k i delta fill alloc = some (r, W')) :
    GrowSpec W W' fctx k i delta fill r := by
  obtain ⟨s, hs, ⟨hr, rfl⟩ | ⟨hr, ⟨hp, rfl⟩ | ⟨newSize, deltaBytes, data, hp, rfl, -, rfl⟩⟩⟩ := grow_cases h
  · exact ⟨fun _ => rfl, fun hn => absurd hr hn, fun _ _ c k' j t ht _ => ⟨ht, fun _ => rfl⟩⟩
  · refine ⟨fun _ => rfl, fun _ => ⟨s, s, hs, hs, hr, ?_, fun _ _ => rfl, ?_⟩, fun _ _ c k' j t ht _ => ⟨ht, fun _ => rfl⟩⟩
    · rw [hr, growPlan_same hp]; simp
    · intro n h1 h2; omega
  · have hg := growTo_grown ctx newSize deltaBytes data (k.fill fill) hs
    obtain ⟨hle, -, hold⟩ := growPlan_to hp
    have hs' : (W.growTo ctx fctx k i s newSize deltaBytes data (k.fill fill)).slot fctx k i =
        some { s with data := data, size := newSize } := by
      cases ht : s.target with
      | none =>
        have := hg.owner s (by simpa [ownerOf, ht] using hs)
        simpa [ownerOf, ht, Renewal.view] using this
      | some x =>
        obtain ⟨o, oi, d, htar, -, -, -, -, hdep⟩ := hC.aliased_of_shared hsh hs (Slot.isImported_of_target ht)
        have hx : ownerOf fctx s i = (o, oi) := by simp [ownerOf, htar]
        rw [hx] at hg
        exact hg.aliases fctx hdep i s hs htar
    refine ⟨fun hneg => ?_, fun _ => ⟨s, _, hs, hs', hr, ?_, ?_, ?_⟩, ?_⟩
    · exfalso
      rw [hr] at hneg
      have := oldSize_nonneg s k
      omega
    · rw [hr]; exact hold
    · intro n hn
      rw [growTo_buf, Function.update_self, if_pos hn]
    · intro n hn _
      rw [growTo_buf, Function.update_self, if_neg (by omega)]
    · intro s₁ hs₁ c k' j t ht hother
      obtain rfl : s₁ = s := Option.some_injective _ (hs₁.symm.trans hs)
      refine ⟨?_, ?_⟩
      · by_cases hk : k' = k
        · subst hk
          rcases hg.refreshed.slot ht with h1 | ⟨-, hit⟩
          · exact h1
          · exfalso
            refine hother ⟨rfl, ?_⟩
            rcases hit with ⟨rfl, rfl⟩ | hit
            · have hdef := hC.owner_defined hsh hs
              have hnt : t.target = none := by simp [Slot.target, hC.defined _ _ _ t ht hdef]
              simp [ownerOf, hnt]
            · have : t.target = some (ownerOf fctx s₁ i) := hit
              simp [ownerOf, this]
        · rw [World.slot, (hg.refreshed c).otherKind k' hk]
          exact ht
      · intro hna'
        rw [growTo_buf, Function.update_of_ne]
        intro hdata
        exact hother (hf s₁ hs c k' j t hna' ht hdata)

/-- **All views of a shared memory or table stay in step.** After any sequence of operations every slot has pointer and
size of the slot it resolves to, unless it is an import of a context that was given up before the owner could register
it; `memory_base` and `memory_size` are those of memory 0 in every context but one that an instantiation has not
finished; a context that may run has all its imports bound; and every grow, by any context through any slot, keeps the
content.
-/
theorem views_in_step (hW : Reached W) :
    (∀ c k i s, (W.Abandoned c → W.Knows c s) → W.slot c k i = some s →
      ∃ d, W.slot (ownerOf c s i).1 k (ownerOf c s i).2 = some d ∧ d.target = none ∧ s.data = d.data ∧ s.size = d.size) ∧
    (∀ c, ¬ W.Unfinished c → (W.ctx c).BaseOk) ∧
    (∀ c, (W.ctx (W.root c)).mayShareRefs = true →
      ∀ k i s, W.slot c k i = some s → i < (W.ctx c).importCount k → s.target.isSome = true) ∧
    ∀ ctx fctx k i delta fill alloc r W', (W.ctx (W.root fctx)).mayShareRefs = true →
      W.Fresh (.grow ctx fctx k i delta fill alloc) → W.grow ctx fctx k i delta fill alloc = some (r, W') →
        GrowSpec W W' fctx k i delta fill r := by
  have hC := hW.coherent
  refine ⟨fun c k i s hkn hs => hC.owner hkn hs, fun c hfin => hC.base c (hC.baseDue_of_finished hfin), ?_, ?_⟩
  · intro c hsh k i s hs hi
    have himp := hC.complete c (hC.complete_of_shared hsh) k i s hs hi
    obtain ⟨o, oi, d, htar, -⟩ := hC.aliased_of_shared hsh hs himp
    simp [htar]
  · intro ctx fctx k i delta fill alloc r W' hsh hf hg
    exact hC.grow_spec hsh hf hg

/-- a sequence of operations -/
def run (W : World) (ops : List ShareOp) : Option World := ops.foldlM World.step W

theorem Reached.run (hW : Reached W) {ops : List ShareOp} (hf : ∀ op ∈ ops, ∀ V : World, V.Fresh op)
    (h : W.run ops = some W') : Reached W' := by
  induction ops generalizing W with
  | nil => cases h; exact hW
  | cons op rest ih =>
    simp only [World.run, List.foldlM_cons, Option.bind_eq_bind, Option.bind_eq_some_iff] at h
    obtain ⟨V, hs, hrest⟩ := h
    exact ih (hW.step (hf op (by simp) W) hs) (fun o ho => hf o (List.mem_cons_of_mem _ ho)) hrest

/-- context 0 defines a memory of one page, and context 1 imports it -/
def sharedMemory : List ShareOp :=
  [.newContext 0 ⟨fun _ => 0, fun | .memory => [⟨pageSize, 3, some 5⟩] | .table => []⟩ 200000,
    .share 0, .finish 0,
    .newContext 1 ⟨fun | .memory => 1 | .table => 0, fun _ => []⟩ (-1),
    .linkContext 1 0 true, .bindImport 1 .memory 0 0 0 true true, .share 1, .finish 1]

def sharedWorld : World := (empty.run sharedMemory).get rfl

theorem sharedWorld_reached : Reached sharedWorld := by
  refine Reached.start.run ?_ (Option.some_get (x := empty.run sharedMemory) rfl).symm
  simp [sharedMemory, Fresh]

theorem sharedWorld_data (c : CtxId) (k : Kind) (j : Nat) (t : Slot) (h : sharedWorld.slot c k j = some t) : t.data = 5 := by
  match c, k, j with
  | 0, .memory, 0 => cases h; rfl
  | 1, .memory, 0 => cases h; rfl
  | 0, .memory, j + 1 => cases h
  | 1, .memory, j + 1 => cases h
  | 0, .table, j => cases h
  | 1, .table, j => cases h
  | c + 2, k, j => cases h

theorem sharedWorld_shares : (sharedWorld.ctx (sharedWorld.root 1)).mayShareRefs = true := rfl

theorem sharedWorld_finished : ¬ sharedWorld.Unfinished 1 := fun hu => by
  have hs := hu.1
  rw [sharedWorld_shares] at hs
  cases hs

theorem sharedWorld_grow : (sharedWorld.grow 1 1 .memory 0 2 0 (some 9)).map Prod.fst = some 1 := by decide +kernel

theorem views_in_step_sample : Reached sharedWorld ∧ (sharedWorld.ctx 1).BaseOk ∧
    ∃ W', sharedWorld.grow 1 1 .memory 0 2 0 (some 9) = some (1, W') ∧ GrowSpec sharedWorld W' 1 .memory 0 2 0 1 := by
  obtain ⟨-, hbase, -, hgrow⟩ := views_in_step sharedWorld_reached
  obtain ⟨⟨r, W'⟩, hg, hr⟩ := Option.map_eq_some_iff.1 sharedWorld_grow
  obtain rfl : r = 1 := hr
  refine ⟨sharedWorld_reached, hbase 1 sharedWorld_finished, W', hg,
    hgrow 1 1 .memory 0 2 0 (some 9) 1 W' sharedWorld_shares ?_ hg⟩
  intro s _ c k' j t _ ht hdata
  rw [sharedWorld_data c k' j t ht] at hdata
  cases hdata

/-- context 0 imports the memory of a module it links, and runs out of memory when it is registered with the context
created for that module -/
def unregisteredImport : List ShareOp :=
  [.newContext 0 ⟨fun | .memory => 1 | .table => 0, fun _ => []⟩ (-1), .linkModule 0, .gcStart 0,
    .createOwned 0 0 1 ⟨fun _ => 0, fun | .memory => [⟨pageSize, 3, some 5⟩] | .table => []⟩,
    .bindImport 0 .memory 0 1 0 false true]

def halfBound : World := (empty.run unregisteredImport).get rfl

theorem halfBound_reached : Reached halfBound := by
  refine Reached.start.run ?_ (Option.some_get (x := empty.run unregisteredImport) rfl).symm
  simp [unregisteredImport, Fresh]

theorem halfBound_slot :
    halfBound.slot 0 .memory 0 = some { isImported := true, importCtx := some 1, importIdx := 0 } := rfl

theorem halfBound_memory : halfBound.slot 1 .memory 0 = some { data := 5, size := pageSize, max := 3 } := rfl

theorem halfBound_view : (halfBound.ctx 1).memorySize = 0 := rfl

/-- the import slot names the memory but has neither pointer nor size of it, and the context created for the module does
not get its view of it either -/
theorem half_bound_import :
    (¬ ∀ W : World, Reached W → ∀ c k i s o oi d, W.slot c k i = some s → s.target = some (o, oi) →
      W.slot o k oi = some d → s.data = d.data ∧ s.size = d.size) ∧
    ¬ ∀ W : World, Reached W → ∀ c, (W.ctx c).BaseOk := by
  constructor
  · intro h
    have hview := h halfBound halfBound_reached 0 .memory 0 _ 1 0 _ halfBound_slot rfl halfBound_memory
    exact absurd hview.1 (by decide)
  · intro h
    have hview := (h halfBound halfBound_reached 1 _ halfBound_memory).2
    rw [halfBound_view] at hview
    exact absurd hview (by decide)

end World

end Wah
