/-
What an accepted instruction does to the validation context.

In live code the height of the operand stack moves by the arities the machines use (`Falls`), branches carry the
values and drop the operands their label asks for (`BranchOk`), and every pop stays above the base of the innermost
frame. Constructs push, switch and pop exactly one frame; in dead code only that remains.
-/
import Wah.Structured

namespace Wah

/-! ## Fallible steps -/

section Except

variable {α β : Type}

@[simp] theorem bind_eq_ok {x : Except WahError α} {f : α → Except WahError β} {b : β} :
    (x >>= f) = .ok b ↔ ∃ a, x = .ok a ∧ f a = .ok b := by
  cases x with
  | error e => simp [bind, Except.bind]
  | ok a => simp [bind, Except.bind]

@[simp] theorem pure_eq_ok {a b : α} : (pure a : Except WahError α) = .ok b ↔ a = b := by
  simp [pure, Except.pure]

@[simp] theorem ensure_eq_ok {p : Prop} [Decidable p] {u : Unit} : ensure p = .ok u ↔ p := by
  unfold ensure
  split <;> simp_all

@[simp] theorem ensureLimit_eq_ok {p : Prop} [Decidable p] {u : Unit} : ensureLimit p = .ok u ↔ p := by
  unfold ensureLimit
  split <;> simp_all

@[simp] theorem look_eq_ok {o : Option α} {a : α} : look o = .ok a ↔ o = some a := by
  cases o <;> simp [look]

theorem ok_bind (a : α) (f : α → Except WahError β) : (Except.ok a >>= f) = f a := rfl

theorem bind_eq_error {x : Except WahError α} {f : α → Except WahError β} {e : WahError} :
    (x >>= f) = .error e ↔ x = .error e ∨ ∃ a, x = .ok a ∧ f a = .error e := by
  cases x with
  | error e' => simp [bind, Except.bind]
  | ok a => simp [bind, Except.bind]

theorem ensure_error {p : Prop} [Decidable p] {e : WahError} (h : ensure p = .error e) : e = .validationFailed := by
  unfold ensure at h
  split_ifs at h
  exact (Except.error.inj h).symm

theorem look_error {o : Option α} {e : WahError} (h : look o = .error e) : e = .validationFailed := by
  cases o with
  | none => exact (Except.error.inj h).symm
  | some a => cases h

end Except

/-! ## Pops and pushes -/

variable {M : Module} {v v' : VCtx}

/-- `n` operands popped, fewer in dead code -/
structure Pops (v v' : VCtx) (n : Nat) : Prop where
  ctrl : v'.ctrl = v.ctrl
  dead : v'.isUnreachable = v.isUnreachable
  depth : v'.maxStackDepth = v.maxStackDepth
  undo : v'.undo = v.undo
  live : v.isUnreachable = false → v'.stack = v.stack.drop n ∧ (0 < n → v.baseHeight + n ≤ v.height)
  base : v.baseHeight ≤ v.height → v'.baseHeight ≤ v'.height

theorem baseHeight_congr {v v' : VCtx} (h : v'.ctrl = v.ctrl) : v'.baseHeight = v.baseHeight := by
  simp [VCtx.baseHeight, h]

theorem Pops.refl (v : VCtx) : Pops v v 0 := ⟨rfl, rfl, rfl, rfl, by simp, id⟩

theorem Pops.height {n : Nat} (h : Pops v v' n) (hl : v.isUnreachable = false) : v'.height = v.height - n := by
  simp [VCtx.height, (h.live hl).1]

theorem Pops.trans {v'' : VCtx} {n m : Nat} (h : Pops v v' n) (h' : Pops v' v'' m) : Pops v v'' (n + m) := by
  refine ⟨h'.ctrl.trans h.ctrl, h'.dead.trans h.dead, h'.depth.trans h.depth, h'.undo.trans h.undo, fun hl => ?_,
    fun hb => h'.base (h.base hb)⟩
  obtain ⟨s1, r1⟩ := h.live hl
  obtain ⟨s2, r2⟩ := h'.live (h.dead.trans hl)
  have hh := h.height hl
  have hb := baseHeight_congr h.ctrl
  refine ⟨by rw [s2, s1, List.drop_drop], fun _ => ?_⟩
  by_cases hm : 0 < m
  · have := r2 hm
    omega
  · have := r1 (by omega)
    omega

theorem popType_pops {t : Ty} (h : v.popType = .ok (t, v')) : Pops v v' 1 := by
  unfold VCtx.popType at h
  split at h
  · rename_i hle
    split at h
    · rename_i hu
      simp only [Except.ok.injEq, Prod.mk.injEq] at h
      obtain ⟨-, rfl⟩ := h
      exact ⟨rfl, rfl, rfl, rfl, by simp [hu], id⟩
    · simp at h
  · rename_i hlt
    cases hs : v.stack with
    | nil => simp [hs] at h
    | cons a ts =>
      simp only [hs, Except.ok.injEq, Prod.mk.injEq] at h
      obtain ⟨-, rfl⟩ := h
      simp only [VCtx.height, hs, List.length_cons] at hlt
      refine ⟨rfl, rfl, rfl, rfl, fun _ => ⟨by simp [hs], fun _ => ?_⟩, fun _ => ?_⟩
      · simp only [VCtx.height, hs, List.length_cons]; omega
      · simp only [VCtx.baseHeight, VCtx.height] at hlt ⊢; omega

theorem popMatch_pops {t : Ty} (h : v.popMatch M t = .ok v') : Pops v v' 1 := by
  simp only [VCtx.popMatch, bind_eq_ok, pure_eq_ok, ensure_eq_ok] at h
  obtain ⟨⟨a, w⟩, h1, -, -, rfl⟩ := h
  exact popType_pops h1

theorem popMatches_pops {ts : List Ty} (h : v.popMatches M ts = .ok v') : Pops v v' ts.length := by
  induction ts generalizing v with
  | nil =>
    simp only [VCtx.popMatches, Except.ok.injEq] at h
    exact h ▸ Pops.refl v
  | cons t ts ih =>
    simp only [VCtx.popMatches, bind_eq_ok] at h
    obtain ⟨w, h1, h2⟩ := h
    have := (popMatch_pops h1).trans (ih h2)
    rwa [Nat.add_comm] at this

/-- operands pushed -/
structure Pushes (v v' : VCtx) (ts : List Ty) : Prop where
  ctrl : v'.ctrl = v.ctrl
  dead : v'.isUnreachable = v.isUnreachable
  undo : v'.undo = v.undo
  stack : v'.stack = ts.reverse ++ v.stack
  depth : v'.maxStackDepth = if ts = [] then v.maxStackDepth else max v.maxStackDepth (v.height + ts.length)

theorem Pushes.height {ts : List Ty} (h : Pushes v v' ts) : v'.height = v.height + ts.length := by
  simp [VCtx.height, h.stack, Nat.add_comm]

theorem pushType_pushes {t : Ty} (h : v.pushType t = .ok v') : Pushes v v' [t] := by
  unfold VCtx.pushType at h
  split at h
  · simp only [Except.ok.injEq] at h
    subst h
    exact ⟨rfl, rfl, rfl, rfl, rfl⟩
  · simp at h

theorem pushTypes_pushes {ts : List Ty} (h : v.pushTypes ts = .ok v') : Pushes v v' ts := by
  induction ts generalizing v with
  | nil =>
    simp only [VCtx.pushTypes, Except.ok.injEq] at h
    subst h
    exact ⟨rfl, rfl, rfl, rfl, rfl⟩
  | cons t ts ih =>
    simp only [VCtx.pushTypes, bind_eq_ok] at h
    obtain ⟨w, h1, h2⟩ := h
    have p1 := pushType_pushes h1
    have p2 := ih h2
    have hh := p1.height
    refine ⟨p2.ctrl.trans p1.ctrl, p2.dead.trans p1.dead, p2.undo.trans p1.undo, by simp [p2.stack, p1.stack], ?_⟩
    rw [p2.depth, p1.depth]
    simp only [List.length_cons, List.length_nil, reduceCtorEq, if_false] at hh ⊢
    split
    · rename_i he; simp [he]
    · rw [hh]; omega

/-! ## Instructions that fall through -/

/-- control goes on with `pops` operands replaced by `pushes` -/
structure Falls (v v' : VCtx) (pops pushes : Nat) : Prop where
  ctrl : v'.ctrl = v.ctrl
  dead : v'.isUnreachable = v.isUnreachable
  base : v.baseHeight ≤ v.height → v'.baseHeight ≤ v'.height
  live : v.isUnreachable = false → v.baseHeight ≤ v.height →
    v.baseHeight + pops ≤ v.height ∧ v'.height = v.height - pops + pushes

theorem Pops.falls {w : VCtx} {n : Nat} {ts : List Ty} (h : Pops v w n) (h' : Pushes w v' ts) :
    Falls v v' n ts.length := by
  refine ⟨h'.ctrl.trans h.ctrl, h'.dead.trans h.dead, fun hb => ?_, fun hl hb => ?_⟩
  · have := h.base hb
    rw [baseHeight_congr h'.ctrl, h'.height]
    omega
  · have hh := h.height hl
    have hr := (h.live hl).2
    rw [h'.height, hh]
    refine ⟨?_, rfl⟩
    by_cases hn : 0 < n
    · exact hr hn
    · omega

/-- fields that only matter elsewhere -/
theorem Falls.congr {w : VCtx} {n m : Nat} (h : Falls v w n m) (hc : v'.ctrl = w.ctrl)
    (hd : v'.isUnreachable = w.isUnreachable) (hs : v'.stack = w.stack) : Falls v v' n m := by
  have hb := baseHeight_congr hc
  have hh : v'.height = w.height := by simp [VCtx.height, hs]
  exact ⟨hc.trans h.ctrl, hd.trans h.dead, fun h0 => by rw [hb, hh]; exact h.base h0,
    fun hl h0 => by rw [hh]; exact h.live hl h0⟩

theorem Falls.of_pops {n : Nat} (h : Pops v v' n) : Falls v v' n 0 :=
  h.falls (show Pushes v' v' [] from ⟨rfl, rfl, rfl, rfl, rfl⟩)

theorem popRef_pops {t : Ty} (h : popRef v = .ok (t, v')) : Pops v v' 1 := by
  simp only [popRef, bind_eq_ok, pure_eq_ok, ensure_eq_ok] at h
  obtain ⟨⟨a, w⟩, h1, -, -, h2⟩ := h
  simp only [Prod.mk.injEq] at h2
  obtain ⟨rfl, rfl⟩ := h2
  exact popType_pops h1

theorem popCastOperand_pops {h : HeapTy} (hp : popCastOperand M v h = .ok v') : Pops v v' 1 := by
  simp only [popCastOperand, bind_eq_ok, pure_eq_ok, ensure_eq_ok] at hp
  obtain ⟨-, -, ⟨a, w⟩, h1, -, -, rfl⟩ := hp
  exact popRef_pops h1

theorem popFields_pops {fs : List Ty} (h : popFields M v fs = .ok v') : Pops v v' fs.length := by
  simp only [popFields, bind_eq_ok, ensure_eq_ok] at h
  obtain ⟨-, hroom, hp⟩ := h
  have p := popMatches_pops hp
  refine ⟨p.ctrl, p.dead, p.depth, p.undo, fun hl => ?_, p.base⟩
  have hle : fs.length ≤ v.height - v.baseHeight := by simpa [hl] using hroom
  have hlen : ((fs.map Ty.unpacked).take (v.height - v.baseHeight)).length = fs.length := by simp [hle]
  have := p.live hl
  rwa [hlen] at this

theorem typeDefOf_eq_ok {kind : CompKind} {t : Nat} {td : TypeDef} (h : typeDefOf M kind t = .ok td) :
    M.typeDefs[t]? = some td ∧ td.kind = kind := by
  simp only [typeDefOf, bind_eq_ok, look_eq_ok, ensure_eq_ok, pure_eq_ok] at h
  obtain ⟨td', h1, -, h2, rfl⟩ := h
  exact ⟨h1, h2⟩

theorem noteData_fields (p : PlainOp) (v : VCtx) :
    (p.noteData v).ctrl = v.ctrl ∧ (p.noteData v).isUnreachable = v.isUnreachable ∧ (p.noteData v).stack = v.stack ∧
      (p.noteData v).undo = v.undo ∧ (p.noteData v).maxStackDepth = v.maxStackDepth ∧ (p.noteData v).lwm = v.lwm := by
  unfold PlainOp.noteData
  split <;> exact ⟨rfl, rfl, rfl, rfl, rfl, rfl⟩

theorem validateData_falls {d : DataOp} (h : validateData M v d = .ok v') :
    Falls v v' (d.arity M).1 (d.arity M).2 := by
  cases d with
  | plain p =>
    simp only [validateData, bind_eq_ok] at h
    obtain ⟨⟨pops, pushes⟩, hs, w, hp, hq⟩ := h
    have q := pushTypes_pushes hq
    obtain ⟨n1, n2, n3, n4, n5, -⟩ := noteData_fields p w
    have q' : Pushes w v' pushes := by
      refine ⟨q.ctrl.trans n1, q.dead.trans n2, q.undo.trans n4, by rw [q.stack, n3], ?_⟩
      rw [q.depth, n5]
      simp [VCtx.height, n3]
    have := (popMatches_pops hp).falls q'
    simpa [DataOp.arity, hs] using this
  | structNew t =>
    simp only [validateData, bind_eq_ok] at h
    obtain ⟨td, ht, w, hp, hq⟩ := h
    have := (popFields_pops hp).falls (pushType_pushes hq)
    simpa [DataOp.arity, (typeDefOf_eq_ok ht).1] using this
  | arrayNewFixed t n =>
    simp only [validateData, bind_eq_ok] at h
    obtain ⟨td, -, et, -, w, hp, hq⟩ := h
    have := (popFields_pops hp).falls (pushType_pushes hq)
    simpa [DataOp.arity] using this
  | drop =>
    simp only [validateData, bind_eq_ok, pure_eq_ok] at h
    obtain ⟨⟨t, w⟩, hp, rfl⟩ := h
    exact .of_pops (popType_pops hp)
  | select =>
    simp only [validateData, bind_eq_ok, ensure_eq_ok] at h
    obtain ⟨w1, h1, ⟨b, w2⟩, h2, ⟨a, w3⟩, h3, -, -, -, -, h4⟩ := h
    exact (((popMatch_pops h1).trans (popType_pops h2)).trans (popType_pops h3)).falls (pushType_pushes h4)
  | refIsNull =>
    simp only [validateData, bind_eq_ok] at h
    obtain ⟨⟨t, w⟩, hp, hq⟩ := h
    exact (popRef_pops hp).falls (pushType_pushes hq)
  | arrayLen =>
    simp only [validateData, bind_eq_ok] at h
    obtain ⟨⟨t, w⟩, hp, -, -, hq⟩ := h
    exact (popType_pops hp).falls (pushType_pushes hq)
  | refAsNonNull =>
    simp only [validateData, bind_eq_ok] at h
    obtain ⟨⟨t, w⟩, hp, hq⟩ := h
    exact (popRef_pops hp).falls (pushType_pushes hq)
  | refTest null ht =>
    simp only [validateData, bind_eq_ok] at h
    obtain ⟨w, hp, hq⟩ := h
    exact (popCastOperand_pops hp).falls (pushType_pushes hq)
  | refCast null ht =>
    simp only [validateData, bind_eq_ok] at h
    obtain ⟨w, hp, hq⟩ := h
    exact (popCastOperand_pops hp).falls (pushType_pushes hq)

/-! ## Branches -/

/-- a branch to label `l` from `L` operands above the frame: it keeps the label's values and drops to its height -/
structure BranchOk (v : VCtx) (ft : FuncType) (l L keep drop : Nat) : Prop where
  label : l ≤ v.ctrl.length
  target : v.isUnreachable = false → ∃ ts h, v.brTarget ft l = some (ts, h) ∧ keep = ts.length ∧ h + keep ≤ L ∧
    drop = L - h - keep

theorem brTarget_label {ft : FuncType} {l : Nat} {r : List Ty × Nat} (h : v.brTarget ft l = some r) :
    l ≤ v.ctrl.length := by
  unfold VCtx.brTarget at h
  split at h
  · omega
  · simp only [Option.map_eq_some_iff] at h
    obtain ⟨f, hf, -⟩ := h
    exact Nat.le_of_lt (List.getElem?_eq_some_iff.mp hf).1

theorem brTarget_congr {v v' : VCtx} (h : v'.ctrl = v.ctrl) (ft : FuncType) (l : Nat) :
    v'.brTarget ft l = v.brTarget ft l := by
  simp [VCtx.brTarget, h]

theorem keepDrop_eq_ok {h n below : Nat} {r : Nat × Nat} (hk : keepDrop v h n below = .ok r)
    (hl : v.isUnreachable = false) : h + below ≤ v.height ∧ r = (n, v.height - h - below) := by
  unfold keepDrop at hk
  rw [if_neg (by simp [hl])] at hk
  simp only [bind_eq_ok, ensure_eq_ok, pure_eq_ok] at hk
  obtain ⟨-, h1, rfl⟩ := hk
  exact ⟨h1, rfl⟩

/-- control never goes on; the operands it took were there -/
structure Stops (v v' : VCtx) (pops : Nat) : Prop where
  ctrl : v'.ctrl = v.ctrl
  dead : v'.isUnreachable = true
  base : v.baseHeight ≤ v.height → v'.baseHeight ≤ v'.height
  live : v.isUnreachable = false → v.baseHeight ≤ v.height → v.baseHeight + pops ≤ v.height

theorem markUnreachable_fields (v : VCtx) :
    v.markUnreachable.ctrl = v.ctrl ∧ v.markUnreachable.isUnreachable = true ∧
      v.markUnreachable.maxStackDepth = v.maxStackDepth ∧ v.markUnreachable.undo = v.undo := by
  unfold VCtx.markUnreachable
  split <;> exact ⟨rfl, rfl, rfl, rfl⟩

theorem markUnreachable_height (v : VCtx) : v.markUnreachable.height = min v.height v.baseHeight := by
  unfold VCtx.markUnreachable
  split
  · rename_i h
    simp only [VCtx.height, VCtx.truncate, List.length_drop] at h ⊢
    omega
  · rename_i h
    simp only [VCtx.height] at h ⊢
    omega

theorem Pops.stops {w : VCtx} {n : Nat} (h : Pops v w n) : Stops v w.markUnreachable n := by
  obtain ⟨f1, f2, -, -⟩ := markUnreachable_fields w
  refine ⟨f1.trans h.ctrl, f2, fun hb => ?_, fun hl hb => ?_⟩
  · have := h.base hb
    rw [baseHeight_congr f1, markUnreachable_height]
    omega
  · by_cases hn : 0 < n
    · exact (h.live hl).2 hn
    · omega

/-- the arguments of a branch: popped unless the frame is empty in dead code -/
theorem popLabel_pops {ts : List Ty} (h : popLabel M v ts = .ok v') : Pops v v' ts.length := by
  unfold popLabel at h
  split at h
  · rename_i hu
    simp only [Except.ok.injEq] at h
    subst h
    have hd : v.isUnreachable = true := by
      simp only [VCtx.atUnreachableBase, Bool.and_eq_true] at hu
      exact hu.1
    exact ⟨rfl, rfl, rfl, rfl, by simp [hd], id⟩
  · simpa using popMatches_pops h

theorem validateBr_spec {ft : FuncType} {l keep drop : Nat} {isBrIf : Bool}
    (h : validateBr M ft v l isBrIf = .ok (v', keep, drop)) :
    BranchOk v ft l v.height keep drop ∧
      if isBrIf then Falls v v' 0 0 else Stops v v' keep ∨ v.isUnreachable = true ∧ Stops v v' 0 := by
  simp only [validateBr, bind_eq_ok, look_eq_ok, ensure_eq_ok, pure_eq_ok, Prod.mk.injEq] at h
  obtain ⟨⟨ts, hgt⟩, ht, ⟨k, d⟩, hk, -, hroom, w, hp, u, hu, rfl, rfl, rfl⟩ := h
  have p := popLabel_pops hp
  unfold afterBr at hu
  dsimp only at hk hroom p hu ⊢
  refine ⟨⟨brTarget_label ht, fun hl => ?_⟩, ?_⟩
  · obtain ⟨h1, h2⟩ := keepDrop_eq_ok hk hl
    simp only [Prod.mk.injEq] at h2
    exact ⟨ts, hgt, ht, h2.1, by omega, by omega⟩
  · cases isBrIf with
    | true =>
      simp only [if_true] at hu ⊢
      have f := p.falls (pushTypes_pushes hu)
      refine ⟨f.ctrl, f.dead, f.base, fun hl hb => ?_⟩
      have := f.live hl hb
      omega
    | false =>
      simp only [Bool.false_eq_true, if_false, Except.ok.injEq] at hu ⊢
      subst hu
      have s := p.stops
      cases hd : v.isUnreachable with
      | false =>
        obtain ⟨-, h2⟩ := keepDrop_eq_ok hk hd
        simp only [Prod.mk.injEq] at h2
        exact .inl (h2.1 ▸ s)
      | true => exact .inr ⟨rfl, s.ctrl, s.dead, s.base, by simp [hd]⟩

theorem popTypes_pops {ts as : List Ty} (h : popTypes M v ts = .ok (as, v')) : Pops v v' ts.length := by
  induction ts generalizing v as with
  | nil =>
    simp only [popTypes, Except.ok.injEq, Prod.mk.injEq] at h
    exact h.2 ▸ Pops.refl v
  | cons t ts ih =>
    simp only [popTypes, bind_eq_ok, ensure_eq_ok, pure_eq_ok, Prod.mk.injEq] at h
    obtain ⟨⟨a, w⟩, h1, -, -, ⟨as', u⟩, h2, -, rfl⟩ := h
    have := (popType_pops h1).trans (ih h2)
    rwa [Nat.add_comm] at this

theorem popBrTable_pops {ts : List Ty} {recs : List (List Ty × Nat × Nat)} (h : popBrTable M v ts recs = .ok v') :
    Pops v v' ts.length := by
  unfold popBrTable at h
  split at h
  · simp only [bind_eq_ok, ensure_eq_ok, pure_eq_ok] at h
    obtain ⟨⟨as, w⟩, h1, -, -, rfl⟩ := h
    simpa using popTypes_pops h1
  · rename_i hc
    simp only [Except.ok.injEq] at h
    subst h
    refine ⟨rfl, rfl, rfl, rfl, fun hl => ?_, id⟩
    have : ts.length = 0 := by
      simp only [VCtx.atUnreachableBase, hl, Bool.false_and, and_true] at hc
      omega
    simp [this]

theorem brTableRecords_spec {ft : FuncType} {n : Nat} {ls : List Nat} {recs : List (List Ty × Nat × Nat)}
    (h : brTableRecords v ft n ls = .ok recs) :
    recs.map (fun r => r.2.1) = ls ∧ ∀ r ∈ recs, BranchOk v ft r.2.1 v.height n r.2.2 := by
  induction ls generalizing recs with
  | nil =>
    simp only [brTableRecords, Except.ok.injEq] at h
    subst h
    simp
  | cons l ls ih =>
    simp only [brTableRecords, bind_eq_ok, pure_eq_ok] at h
    obtain ⟨r, h1, rs, h2, rfl⟩ := h
    obtain ⟨i1, i2⟩ := ih h2
    simp only [brTableRecord, bind_eq_ok, look_eq_ok, ensure_eq_ok, pure_eq_ok] at h1
    obtain ⟨⟨ts, hgt⟩, ht, -, hlen, -, hroom, rfl⟩ := h1
    refine ⟨by simp [i1], fun r hr => ?_⟩
    rcases List.mem_cons.mp hr with rfl | hr
    · refine ⟨brTarget_label ht, fun hl => ⟨ts, hgt, ht, hlen.symm, ?_, ?_⟩⟩
      · simpa [hl] using hroom
      · simp [hl]
    · exact i2 r hr

theorem mem_recordLabels_foldl (ls acc : List Nat) (l : Nat) :
    l ∈ ls.foldl (fun acc l => if l ∈ acc then acc else acc ++ [l]) acc ↔ l ∈ acc ∨ l ∈ ls := by
  induction ls generalizing acc with
  | nil => simp
  | cons k ks ih =>
    rw [List.foldl_cons, ih]
    by_cases hk : k ∈ acc
    · simp only [hk, if_true, List.mem_cons]
      constructor
      · rintro (h | h)
        · exact .inl h
        · exact .inr (.inr h)
      · rintro (h | rfl | h)
        · exact .inl h
        · exact .inl hk
        · exact .inr h
    · simp [hk, or_assoc]

theorem mem_recordLabels {ls : List Nat} {l : Nat} : l ∈ recordLabels ls ↔ l ∈ ls := by
  simp [recordLabels, mem_recordLabels_foldl]

/-- `br_table`: the record of every index is that of the label the index names -/
theorem validateBrTable_spec {ft : FuncType} {ls : List Nat} {d : Nat} {imm : BrTableImm}
    (h : validateBrTable M ft v ls d = .ok (v', imm)) :
    (∀ r ∈ imm.records, r.1 ≤ v.ctrl.length) ∧
      (v.isUnreachable = false → v.baseHeight ≤ v.height → v.baseHeight + 1 ≤ v.height ∧
        ∀ n, ∃ drop, (imm.targets[min n (imm.targets.length - 1)]?).bind (fun r => imm.records[r]?) =
          some ((ls[n]?).getD d, drop) ∧ BranchOk v ft ((ls[n]?).getD d) (v.height - 1) imm.keep drop) ∧
      Stops v v' 1 := by
  simp only [validateBrTable, bind_eq_ok, look_eq_ok, ensure_eq_ok, pure_eq_ok, Prod.mk.injEq] at h
  obtain ⟨-, hlab, w, hp, ⟨ts, hgt⟩, ht, recs, hr, u, hu, rfl, rfl⟩ := h
  have p := popMatch_pops hp
  obtain ⟨r1, r2⟩ := brTableRecords_spec hr
  have pb := p.trans (popBrTable_pops hu)
  have hbr : ∀ {l L k e : Nat}, BranchOk w ft l L k e → BranchOk v ft l L k e := by
    intro l L k e hb
    refine ⟨p.ctrl ▸ hb.label, fun hl => ?_⟩
    obtain ⟨ts, hgt, h1, h2⟩ := hb.target (p.dead.trans hl)
    exact ⟨ts, hgt, by rw [← brTarget_congr p.ctrl]; exact h1, h2⟩
  refine ⟨?_, fun hl hb => ?_, ?_⟩
  · intro r hr
    obtain ⟨r', hr', rfl⟩ := List.mem_map.mp hr
    exact (hbr (r2 r' hr')).label
  · have hroom := (p.live hl).2 (by omega)
    have hh := p.height hl
    refine ⟨hroom, fun n => ?_⟩
    set labels := ls ++ [d] with hlabels
    have hlen : (labels.map fun l => (recordLabels labels).idxOf l).length - 1 = ls.length := by simp [hlabels]
    have hget : labels[min n ls.length]? = some ((ls[n]?).getD d) := by
      by_cases hn : n < ls.length
      · rw [Nat.min_eq_left (Nat.le_of_lt hn), hlabels, List.getElem?_append_left hn, List.getElem?_eq_getElem hn]
        rfl
      · rw [Nat.min_eq_right (by omega), hlabels, List.getElem?_append_right (Nat.le_refl _),
          List.getElem?_eq_none (by omega : ls.length ≤ n)]
        simp
    set l := (ls[n]?).getD d with hldef
    have hmem : l ∈ recordLabels labels := mem_recordLabels.mpr (List.mem_of_getElem? hget)
    have hidx := List.idxOf_lt_length_iff.mpr hmem
    have hrl : recs.length = (recordLabels labels).length := by rw [← r1]; simp
    have hi : (recordLabels labels).idxOf l < recs.length := by omega
    have hfst : (recs[(recordLabels labels).idxOf l]).2.1 = l := by
      have h1 : (recs.map fun r => r.2.1)[(recordLabels labels).idxOf l]? = some l := by
        rw [r1, List.getElem?_eq_getElem hidx, List.getElem_idxOf]
      rw [List.getElem?_map, List.getElem?_eq_getElem hi] at h1
      simpa using h1
    refine ⟨(recs[(recordLabels labels).idxOf l]).2.2, ?_, ?_⟩
    · rw [hlen, List.getElem?_map, hget]
      simp only [Option.map_some, Option.bind_some, List.getElem?_map, List.getElem?_eq_getElem hi]
      exact congrArg some (Prod.ext hfst rfl)
    · have hb' := hbr (r2 _ (List.getElem_mem hi))
      rw [hfst, hh] at hb'
      simpa [p.dead.trans hl] using hb'
  · have s := pb.stops
    exact ⟨s.ctrl, s.dead, s.base, fun hl hb => by have := s.live hl hb; omega⟩

theorem validateBrOnNull_spec {ft : FuncType} {l keep drop : Nat} {nonNull : Bool}
    (h : validateBrOnNull M ft v l nonNull = .ok (v', keep, drop)) :
    l ≤ v.ctrl.length ∧ Falls v v' 1 (if nonNull then 0 else 1) ∧
      (v.isUnreachable = false → v.baseHeight ≤ v.height →
        BranchOk v ft l (if nonNull then v.height else v.height - 1) keep drop) := by
  simp only [validateBrOnNull, bind_eq_ok, look_eq_ok, ensure_eq_ok, pure_eq_ok, Prod.mk.injEq] at h
  obtain ⟨-, hlab, ⟨t, w⟩, hp, ⟨ts, hgt⟩, ht, ok, hnn, ⟨k, d⟩, hk, u, hu, x, hx, rfl, rfl, rfl⟩ := h
  dsimp only at ht hnn hk hu hx ⊢
  have p := popRef_pops hp
  have p2 := popMatches_pops hu
  rw [List.length_reverse] at p2
  have f := (p.trans p2).falls (pushTypes_pushes hx)
  have ht' : v.brTarget ft l = some (ts, hgt) := by rw [← brTarget_congr p.ctrl]; exact ht
  refine ⟨hlab, ⟨f.ctrl, f.dead, f.base, fun hl hb => ?_⟩, fun hl hb => ⟨hlab, fun _ => ?_⟩⟩
  · have hroom := (p.live hl).2 (by omega)
    obtain ⟨h1, h2⟩ := f.live hl hb
    refine ⟨hroom, ?_⟩
    cases nonNull <;> simp at h1 h2 ⊢ <;> omega
  · obtain ⟨h1, h2⟩ := keepDrop_eq_ok hk (p.dead.trans hl)
    simp only [Prod.mk.injEq] at h2
    have hroom := (p.live hl).2 (by omega)
    rw [p.height hl] at h1 h2
    refine ⟨ts, hgt, ht', h2.1, ?_⟩
    cases nonNull with
    | false =>
      simp only [Bool.false_eq_true, if_false] at h1 h2 ⊢
      omega
    | true =>
      have hne : ts ≠ [] := by
        simp only [checkNonNull, if_true, bind_eq_ok, look_eq_ok, ensure_eq_ok] at hnn
        obtain ⟨last, hlast, -⟩ := hnn
        rintro rfl
        simp at hlast
      have hpos := List.length_pos_of_ne_nil hne
      simp only [if_true, List.length_dropLast] at h1 h2 ⊢
      omega

theorem validateBrOnCast_spec {ft : FuncType} {fail : Bool} {c : CastArgs} {keep drop : Nat}
    (h : validateBrOnCast M ft v fail c = .ok (v', keep, drop)) :
    c.label ≤ v.ctrl.length ∧ Falls v v' 1 1 ∧
      (v.isUnreachable = false → v.baseHeight ≤ v.height → BranchOk v ft c.label v.height keep drop) := by
  simp only [validateBrOnCast, bind_eq_ok, look_eq_ok, ensure_eq_ok, pure_eq_ok, Prod.mk.injEq] at h
  obtain ⟨-, -, -, -, -, hlab, -, -, w, hp, ⟨ts, hgt⟩, ht, last, hlast, -, -, ⟨k, d⟩, hk, u, hu, x, hx, y, hy, rfl, rfl,
    rfl⟩ := h
  dsimp only at ht hlast hk hu hx hy ⊢
  have p := popMatch_pops hp
  have p2 := popMatches_pops hu
  rw [List.length_reverse] at p2
  have q1 := pushTypes_pushes hx
  have q2 := pushType_pushes hy
  have q : Pushes u y (ts.dropLast ++ [if fail then Ty.ref c.dstNull c.dst else castDiff c.srcNull c.dstNull c.src]) := by
    refine ⟨q2.ctrl.trans q1.ctrl, q2.dead.trans q1.dead, q2.undo.trans q1.undo, by simp [q2.stack, q1.stack], ?_⟩
    rw [q2.depth, q1.depth, q1.height]
    simp only [List.cons_ne_nil, if_false, List.append_eq_nil_iff, and_false, List.length_append]
    split <;> omega
  have f := (p.trans p2).falls q
  have ht' : v.brTarget ft c.label = some (ts, hgt) := by rw [← brTarget_congr p.ctrl]; exact ht
  have hpos : 0 < ts.length := by
    apply List.length_pos_of_ne_nil
    rintro rfl
    simp at hlast
  refine ⟨hlab, ⟨f.ctrl, f.dead, f.base, fun hl hb => ?_⟩, fun hl hb => ⟨hlab, fun _ => ?_⟩⟩
  · obtain ⟨h1, h2⟩ := f.live hl hb
    simp only [List.length_append, List.length_dropLast, List.length_singleton] at h1 h2
    omega
  · obtain ⟨h1, h2⟩ := keepDrop_eq_ok hk (p.dead.trans hl)
    simp only [Prod.mk.injEq] at h2
    have hroom := (p.live hl).2 (by omega)
    rw [p.height hl] at h1 h2
    exact ⟨ts, hgt, ht', h2.1, by omega, by omega⟩

/-! ## Constructs -/

/-- a frame opened for a construct with the given type -/
structure Opens (M : Module) (v v' : VCtx) (opcode : FrameOp) (bt : BlockType) (f : CtrlFrame) : Prop where
  ctrl : v'.ctrl = f :: v.ctrl
  live : v'.isUnreachable = false
  opcode : f.opcode = opcode
  sig : blockSig M bt = .ok (f.params, f.results)
  elseFound : f.elseFound = false
  outer : f.isUnreachable = v.isUnreachable
  height : v'.height = f.stackHeight + f.params.length
  above : v.isUnreachable = false → v.baseHeight ≤ v.height → v.baseHeight ≤ f.stackHeight ∧ v'.height = v.height
  base : v.baseHeight ≤ v.height → v.baseHeight ≤ f.stackHeight

theorem openFrame_opens {opcode : FrameOp} {bt : BlockType} (h : openFrame M v opcode bt = .ok v') :
    ∃ f, Opens M v v' opcode bt f := by
  simp only [openFrame, bind_eq_ok, ensureLimit_eq_ok, pure_eq_ok] at h
  obtain ⟨-, -, ⟨ps, rs⟩, hs, w, hp, u, hu, rfl⟩ := h
  dsimp only at hp hu
  have p := popMatches_pops hp
  rw [List.length_reverse] at p
  have q := pushTypes_pushes hu
  refine ⟨{ opcode := opcode, params := ps, results := rs, isUnreachable := v.isUnreachable, stackHeight := w.height,
            undoBase := w.undo.length }, q.ctrl.trans (by rw [p.ctrl]), rfl, rfl, hs, rfl, rfl, q.height,
    fun hl hb => ?_, fun hb => ?_⟩
  · have hh := p.height hl
    have hbase := p.base hb
    rw [baseHeight_congr p.ctrl] at hbase
    refine ⟨hbase, ?_⟩
    have : u.height = w.height + ps.length := q.height
    show u.height = v.height
    rw [this, hh]
    by_cases hn : 0 < ps.length
    · have := (p.live hl).2 hn
      omega
    · omega
  · have hbase := p.base hb
    rwa [baseHeight_congr p.ctrl] at hbase

/-- the results of the innermost frame are popped and the frame is empty -/
structure Closes (v w : VCtx) (f : CtrlFrame) : Prop where
  ctrl : w.ctrl = v.ctrl
  height : w.height = f.stackHeight
  live : v.isUnreachable = false → v.baseHeight ≤ v.height → v.height = f.stackHeight + f.results.length
  depth : w.maxStackDepth = v.maxStackDepth

theorem closeResults_closes {f : CtrlFrame} {fs : List CtrlFrame} (hc : v.ctrl = f :: fs)
    (h : closeResults M v f = .ok v') : Closes v v' f := by
  simp only [closeResults, bind_eq_ok, ensure_eq_ok, pure_eq_ok] at h
  obtain ⟨w, hp, -, hh, rfl⟩ := h
  have p := popMatches_pops hp
  rw [List.length_reverse] at p
  have hbase : v.baseHeight = f.stackHeight := by simp [VCtx.baseHeight, hc]
  refine ⟨p.ctrl, ?_, fun hl hb => ?_, p.depth⟩
  · simp only [VCtx.height, VCtx.revertInits, VCtx.truncate, List.length_drop] at hh ⊢
    omega
  · have hw := p.height hl
    by_cases hn : 0 < f.results.length
    · have := (p.live hl).2 hn
      omega
    · omega

/-- END leaves the innermost frame with its results on top -/
structure Ends (v v' : VCtx) (f : CtrlFrame) (fs : List CtrlFrame) : Prop where
  was : v.ctrl = f :: fs
  ctrl : v'.ctrl = fs
  dead : v'.isUnreachable = f.isUnreachable
  height : v'.height = f.stackHeight + f.results.length
  live : v.isUnreachable = false → v.baseHeight ≤ v.height → v.height = f.stackHeight + f.results.length
  /-- the missing else branch passes the parameters on -/
  implicitElse : f.opcode = .if_ → f.elseFound = false → f.params.length = f.results.length

theorem validateEnd_ends (h : validateEnd M v = .ok v') : ∃ f fs, Ends v v' f fs := by
  unfold validateEnd at h
  cases hc : v.ctrl with
  | nil => simp [hc] at h
  | cons f fs =>
    simp only [hc, bind_eq_ok, ensure_eq_ok] at h
    obtain ⟨-, hif, w, hw, hq⟩ := h
    have c := closeResults_closes hc hw
    have q := pushTypes_pushes hq
    refine ⟨f, fs, hc, q.ctrl, q.dead, ?_, c.live, fun h1 h2 => (hif h1 h2).1⟩
    rw [q.height, ← c.height]
    rfl

/-- ELSE starts the other branch from the parameters -/
structure Switches (v v' : VCtx) (f : CtrlFrame) (fs : List CtrlFrame) : Prop where
  was : v.ctrl = f :: fs
  ctrl : v'.ctrl = { f with elseFound := true } :: fs
  opcode : f.opcode = .if_
  first : f.elseFound = false
  dead : v'.isUnreachable = false
  height : v'.height = f.stackHeight + f.params.length
  live : v.isUnreachable = false → v.baseHeight ≤ v.height → v.height = f.stackHeight + f.results.length

theorem validateElse_switches (h : validateElse M v = .ok v') : ∃ f fs, Switches v v' f fs := by
  unfold validateElse at h
  cases hc : v.ctrl with
  | nil => simp [hc] at h
  | cons f fs =>
    simp only [hc, bind_eq_ok, ensure_eq_ok, pure_eq_ok] at h
    obtain ⟨-, ⟨hop, hel⟩, w, hw, u, hq, rfl⟩ := h
    have c := closeResults_closes hc hw
    have q := pushTypes_pushes hq
    refine ⟨f, fs, hc, q.ctrl, hop, hel, rfl, ?_, c.live⟩
    have := q.height
    have hh := c.height
    simp only [VCtx.height] at this hh ⊢
    omega

/-! ## try_table -/

/-- a clause goes to a label outside its `try_table`, whose height the drop leads to -/
structure CatchOk (M : Module) (v : VCtx) (ft : FuncType) (base : Nat) (c : CatchClause) (d : DCatch) : Prop where
  kind : d.kind = c.kind
  tag : d.tag = c.tag
  label : d.label = c.label
  bound : c.label ≤ v.ctrl.length
  target : ∃ ts h, v.brTarget ft c.label = some (ts, h) ∧ h ≤ base ∧
    ts.length = (if c.kind.hasTag then tagArity M c.tag else 0) + (if c.kind.hasExnref then 1 else 0)

/-- what the clauses of a `try_table` add to the context -/
structure Notes (v v' : VCtx) : Prop where
  ctrl : v'.ctrl = v.ctrl
  dead : v'.isUnreachable = v.isUnreachable
  undo : v'.undo = v.undo
  stack : v'.stack = v.stack
  lwm : v'.lwm = v.lwm
  depth : v.maxStackDepth ≤ v'.maxStackDepth

theorem brTarget_push {f : CtrlFrame} {v w : VCtx} (h : w.ctrl = f :: v.ctrl) (ft : FuncType) (l : Nat) :
    w.brTarget ft (l + 1) = v.brTarget ft l := by
  simp [VCtx.brTarget, h]

theorem catchTagParams_length {c : CatchClause} {ps : List Ty} (h : catchTagParams M c = .ok ps) :
    ps.length = if c.kind.hasTag then tagArity M c.tag else 0 := by
  unfold catchTagParams at h
  split at h
  · rename_i ht
    unfold tagArity
    cases htt : tagType M c.tag with
    | error e => simp [htt, Except.map] at h
    | ok ft =>
      simp only [htt, Except.map, Except.ok.injEq] at h
      simp [ht, ← h]
  · rename_i ht
    simp only [Except.ok.injEq] at h
    simp [← h, ht]

theorem validateCatches_spec {ft : FuncType} {base n : Nat} {cs : List CatchClause} {ds : List DCatch} {w w' : VCtx}
    {f : CtrlFrame} (hc : w.ctrl = f :: v.ctrl) (h : validateCatches M ft base n w cs = .ok (w', ds)) :
    Notes w w' ∧ List.Forall₂ (fun c d => CatchOk M v ft base c d ∧
        (∀ ts h, v.brTarget ft c.label = some (ts, h) → d.drop = base + n - h ∧ h + ts.length ≤ w'.maxStackDepth)) cs ds := by
  induction cs generalizing w ds with
  | nil =>
    simp only [validateCatches, Except.ok.injEq, Prod.mk.injEq] at h
    obtain ⟨rfl, rfl⟩ := h
    exact ⟨⟨rfl, rfl, rfl, rfl, rfl, Nat.le_refl _⟩, .nil⟩
  | cons c cs ih =>
    simp only [validateCatches, bind_eq_ok, pure_eq_ok, Prod.mk.injEq] at h
    obtain ⟨⟨w1, d⟩, h1, ⟨w2, ds'⟩, h2, rfl, rfl⟩ := h
    simp only [validateCatch, bind_eq_ok, look_eq_ok, ensure_eq_ok, pure_eq_ok, Prod.mk.injEq] at h1
    obtain ⟨⟨ts, hgt⟩, ht, -, hle, ps, hps, -, hlen, -, -, -, -, rfl, rfl⟩ := h1
    rw [brTarget_push hc] at ht
    obtain ⟨i1, i2⟩ := ih (by exact hc) h2
    refine ⟨⟨i1.ctrl, i1.dead, i1.undo, i1.stack, i1.lwm, Nat.le_trans (Nat.le_max_left _ _) i1.depth⟩, .cons ⟨?_, ?_⟩ i2⟩
    · exact ⟨rfl, rfl, rfl, brTarget_label ht, ts, hgt, ht, hle, by rw [hlen, catchTagParams_length hps]⟩
    · intro ts' h' he
      rw [ht] at he
      simp only [Option.some.injEq, Prod.mk.injEq] at he
      obtain ⟨rfl, rfl⟩ := he
      exact ⟨rfl, Nat.le_trans (Nat.le_max_right _ _) i1.depth⟩

theorem validateTryTable_spec {ft : FuncType} {bt : BlockType} {cs : List CatchClause} {ds : List DCatch}
    (h : validateTryTable M ft v bt cs = .ok (v', ds)) :
    ∃ f, Opens M v v' .tryTable bt f ∧ List.Forall₂ (fun c d => CatchOk M v ft f.stackHeight c d ∧
      (∀ ts h, v.brTarget ft c.label = some (ts, h) →
        d.drop = f.stackHeight + f.params.length - h ∧ h + ts.length ≤ v'.maxStackDepth)) cs ds := by
  simp only [validateTryTable, bind_eq_ok, ensureLimit_eq_ok, ensure_eq_ok, pure_eq_ok, Prod.mk.injEq] at h
  obtain ⟨-, -, ⟨ps, rs⟩, hs, -, -, w, hp, ⟨w1, ds'⟩, hcs, u, hu, rfl, rfl⟩ := h
  dsimp only at hp hcs hu
  have p := popMatches_pops hp
  rw [List.length_reverse] at p
  have q := pushTypes_pushes hu
  obtain ⟨n, hall⟩ := validateCatches_spec (v := v) (by exact congrArg _ p.ctrl) hcs
  have hn : w1.height = w.height := by simp [VCtx.height, n.stack]
  have hu' : u.height = w.height + ps.length := q.height.trans (by rw [hn])
  refine ⟨{ opcode := .tryTable, params := ps, results := rs, isUnreachable := v.isUnreachable, stackHeight := w.height,
            undoBase := w.undo.length },
    ⟨q.ctrl.trans (n.ctrl.trans (congrArg _ p.ctrl)), rfl, rfl, hs, rfl, rfl, hu', fun hl hb => ?_, fun hb => ?_⟩, ?_⟩
  · have hh := p.height hl
    have hbase := p.base hb
    rw [baseHeight_congr p.ctrl] at hbase
    refine ⟨hbase, hu'.trans ?_⟩
    by_cases hn : 0 < ps.length
    · have := (p.live hl).2 hn
      omega
    · omega
  · have hbase := p.base hb
    rwa [baseHeight_congr p.ctrl] at hbase
  · refine hall.imp fun c d hcd => ⟨hcd.1, fun ts hgt ht => ?_⟩
    obtain ⟨h1, h2⟩ := hcd.2 ts hgt ht
    refine ⟨h1, Nat.le_trans h2 ?_⟩
    show w1.maxStackDepth ≤ u.maxStackDepth
    rw [q.depth]
    split
    · exact Nat.le_refl _
    · exact Nat.le_max_left _ _

/-! ## One opcode -/

/-- everything an accepted instruction can do to the context, with what is left to lower -/
inductive VStep (C : FuncCtx) (v v' : VCtx) : Instr → Option DOp → Prop where
  | skip {i : Instr} {n : Nat} (hi : i = .nop ∨ i = .anyConvertExtern ∨ i = .externConvertAny)
      (h : Falls v v' n n) : VStep C v v' i none
  | data {d : DataOp} (h : Falls v v' (d.arity C.module).1 (d.arity C.module).2) :
      VStep C v v' (.data d) (some (.op (.data d)))
  | localGet {n : Nat} (hn : n < C.func.params.length + C.locals.length) (h : Falls v v' 0 1) :
      VStep C v v' (.localGet n) (some (.op (.localGet n)))
  | localSet {n : Nat} (h : Falls v v' 1 0) : VStep C v v' (.localSet n) (some (.op (.localSet n)))
  | localTee {n : Nat} (h : Falls v v' 1 1) : VStep C v v' (.localTee n) (some (.op (.localTee n)))
  | call {c : CallKind} (h : Falls v v' ((c.sig C.module).1.length + (c.sig C.module).2.params.length)
      (c.sig C.module).2.results.length) : VStep C v v' (.call c) (some (.op (.call c)))
  | returnCall {c : CallKind} (hr : (c.sig C.module).2.results.length = C.func.results.length)
      (h : Stops v v' ((c.sig C.module).1.length + (c.sig C.module).2.params.length)) :
      VStep C v v' (.returnCall c) (some (.op (.returnCall c)))
  | unreachable (h : Stops v v' 0) : VStep C v v' .unreachable (some (.op .unreachable))
  | return_ (h : Stops v v' C.func.results.length) : VStep C v v' .return_ (some (.op .return_))
  | throw {t : Nat} (h : Stops v v' (tagArity C.module t)) : VStep C v v' (.throw t) (some (.op (.throw t)))
  | throwRef (h : Stops v v' 1) : VStep C v v' .throwRef (some (.op .throwRef))
  | br {l keep drop : Nat} (hb : BranchOk v C.func l v.height keep drop) (h : Stops v v' 0) :
      VStep C v v' (.br l) (some (.br l keep drop))
  | brIf {l keep drop : Nat} (hl : l ≤ v.ctrl.length)
      (hb : v.isUnreachable = false → BranchOk v C.func l (v.height - 1) keep drop) (h : Falls v v' 1 0) :
      VStep C v v' (.brIf l) (some (.brIf l keep drop))
  | brTable {ls : List Nat} {d : Nat} {imm : BrTableImm} (hl : ∀ r ∈ imm.records, r.1 ≤ v.ctrl.length)
      (hb : v.isUnreachable = false → v.baseHeight ≤ v.height → v.baseHeight + 1 ≤ v.height ∧
        ∀ n, ∃ drop, (imm.targets[min n (imm.targets.length - 1)]?).bind (fun r => imm.records[r]?) =
          some ((ls[n]?).getD d, drop) ∧ BranchOk v C.func ((ls[n]?).getD d) (v.height - 1) imm.keep drop)
      (h : Stops v v' 1) : VStep C v v' (.brTable ls d) (some (.brTable imm))
  | brOnNull {l keep drop : Nat} (hl : l ≤ v.ctrl.length)
      (hb : v.isUnreachable = false → v.baseHeight ≤ v.height → BranchOk v C.func l (v.height - 1) keep drop)
      (h : Falls v v' 1 1) : VStep C v v' (.brOnNull l) (some (.brOnNull l keep drop))
  | brOnNonNull {l keep drop : Nat} (hl : l ≤ v.ctrl.length)
      (hb : v.isUnreachable = false → v.baseHeight ≤ v.height → BranchOk v C.func l v.height keep drop)
      (h : Falls v v' 1 0) : VStep C v v' (.brOnNonNull l) (some (.brOnNonNull l keep drop))
  | brOnCast {fail : Bool} {c : CastArgs} {keep drop : Nat} (hl : c.label ≤ v.ctrl.length)
      (hb : v.isUnreachable = false → v.baseHeight ≤ v.height → BranchOk v C.func c.label v.height keep drop)
      (h : Falls v v' 1 1) :
      VStep C v v' (.brOnCast fail c) (some (.brOnCast fail c.dstNull c.dst c.label keep drop))
  | block {bt : BlockType} {f : CtrlFrame} (h : Opens C.module v v' .block bt f) :
      VStep C v v' (.block bt) (some (.block bt))
  | loop {bt : BlockType} {f : CtrlFrame} (h : Opens C.module v v' .loop bt f) :
      VStep C v v' (.loop bt) (some (.loop bt))
  | if_ {bt : BlockType} {w : VCtx} {f : CtrlFrame} (hp : Pops v w 1) (h : Opens C.module w v' .if_ bt f) :
      VStep C v v' (.if_ bt) (some (.if_ bt))
  | tryTable {bt : BlockType} {cs : List CatchClause} {ds : List DCatch} {f : CtrlFrame}
      (h : Opens C.module v v' .tryTable bt f)
      (hc : List.Forall₂ (fun c d => CatchOk C.module v C.func f.stackHeight c d ∧
        (∀ ts h, v.brTarget C.func c.label = some (ts, h) →
          d.drop = f.stackHeight + f.params.length - h ∧ h + ts.length ≤ v'.maxStackDepth)) cs ds) :
      VStep C v v' (.tryTable bt cs) (some (.tryTable bt ds))
  | else_ {f : CtrlFrame} {fs : List CtrlFrame} (h : Switches v v' f fs) : VStep C v v' .else_ (some .else_)
  | end_ {f : CtrlFrame} {fs : List CtrlFrame} (h : Ends v v' f fs) : VStep C v v' .end_ (some .end_)

theorem initLocal_fields (C : FuncCtx) (v : VCtx) (i : Nat) (t : Ty) :
    (v.initLocal C i t).ctrl = v.ctrl ∧ (v.initLocal C i t).isUnreachable = v.isUnreachable ∧
      (v.initLocal C i t).stack = v.stack ∧ (v.initLocal C i t).lwm = v.lwm ∧
      (v.initLocal C i t).maxStackDepth = v.maxStackDepth := by
  unfold VCtx.initLocal
  split <;> exact ⟨rfl, rfl, rfl, rfl, rfl⟩

theorem localType_lt {C : FuncCtx} {n : Nat} {t : Ty} (h : C.localType n = some t) :
    n < C.func.params.length + C.locals.length := by
  have := (List.getElem?_eq_some_iff.mp h).1
  simpa using this

/-- **One opcode.** What `wah_validate_opcode` checked, for every instruction it accepts. -/
theorem validateOpcode_step {C : FuncCtx} {i : Instr} {od : Option DOp} (h : validateOpcode C v i = .ok (v', od)) :
    VStep C v v' i od := by
  cases i with
  | data d =>
    simp only [validateOpcode, bind_eq_ok, pure_eq_ok, Prod.mk.injEq] at h
    obtain ⟨w, h1, rfl, rfl⟩ := h
    exact .data (validateData_falls h1)
  | nop =>
    simp only [validateOpcode, pure_eq_ok, Prod.mk.injEq] at h
    obtain ⟨rfl, rfl⟩ := h
    exact .skip (.inl rfl) (n := 0) ⟨rfl, rfl, id, fun _ hb => ⟨by omega, by omega⟩⟩
  | anyConvertExtern =>
    simp only [validateOpcode, bind_eq_ok, ensure_eq_ok, pure_eq_ok, Prod.mk.injEq] at h
    obtain ⟨⟨t, w⟩, h1, -, -, u, h2, rfl, rfl⟩ := h
    exact .skip (.inr (.inl rfl)) ((popType_pops h1).falls (pushType_pushes h2))
  | externConvertAny =>
    simp only [validateOpcode, bind_eq_ok, ensure_eq_ok, pure_eq_ok, Prod.mk.injEq] at h
    obtain ⟨⟨t, w⟩, h1, -, -, u, h2, rfl, rfl⟩ := h
    exact .skip (.inr (.inr rfl)) ((popType_pops h1).falls (pushType_pushes h2))
  | localGet n =>
    simp only [validateOpcode, bind_eq_ok, look_eq_ok, ensure_eq_ok, pure_eq_ok, Prod.mk.injEq] at h
    obtain ⟨t, ht, -, -, w, hp, rfl, rfl⟩ := h
    exact .localGet (localType_lt ht) ((Pops.refl v).falls (pushType_pushes hp))
  | localSet n =>
    simp only [validateOpcode, bind_eq_ok, look_eq_ok, pure_eq_ok, Prod.mk.injEq] at h
    obtain ⟨t, ht, w, hp, rfl, rfl⟩ := h
    obtain ⟨f1, f2, f3, -, -⟩ := initLocal_fields C w n t
    exact .localSet ((Falls.of_pops (popMatch_pops hp)).congr f1 f2 f3)
  | localTee n =>
    simp only [validateOpcode, bind_eq_ok, look_eq_ok, pure_eq_ok, Prod.mk.injEq] at h
    obtain ⟨t, ht, w, hp, u, hq, rfl, rfl⟩ := h
    obtain ⟨f1, f2, f3, -, -⟩ := initLocal_fields C u n t
    exact .localTee (((popMatch_pops hp).falls (pushType_pushes hq)).congr f1 f2 f3)
  | unreachable =>
    simp only [validateOpcode, pure_eq_ok, Prod.mk.injEq] at h
    obtain ⟨rfl, rfl⟩ := h
    exact .unreachable (Pops.refl v).stops
  | block bt =>
    simp only [validateOpcode, bind_eq_ok, pure_eq_ok, Prod.mk.injEq] at h
    obtain ⟨w, h1, rfl, rfl⟩ := h
    obtain ⟨f, hf⟩ := openFrame_opens h1
    exact .block hf
  | loop bt =>
    simp only [validateOpcode, bind_eq_ok, pure_eq_ok, Prod.mk.injEq] at h
    obtain ⟨w, h1, rfl, rfl⟩ := h
    obtain ⟨f, hf⟩ := openFrame_opens h1
    exact .loop hf
  | if_ bt =>
    simp only [validateOpcode, bind_eq_ok, pure_eq_ok, Prod.mk.injEq] at h
    obtain ⟨w, h1, u, h2, rfl, rfl⟩ := h
    obtain ⟨f, hf⟩ := openFrame_opens h2
    exact .if_ (popMatch_pops h1) hf
  | else_ =>
    simp only [validateOpcode, bind_eq_ok, pure_eq_ok, Prod.mk.injEq] at h
    obtain ⟨w, h1, rfl, rfl⟩ := h
    obtain ⟨f, fs, hf⟩ := validateElse_switches h1
    exact .else_ hf
  | end_ =>
    simp only [validateOpcode, bind_eq_ok, pure_eq_ok, Prod.mk.injEq] at h
    obtain ⟨w, h1, rfl, rfl⟩ := h
    obtain ⟨f, fs, hf⟩ := validateEnd_ends h1
    exact .end_ hf
  | tryTable bt cs =>
    simp only [validateOpcode, bind_eq_ok, pure_eq_ok, Prod.mk.injEq] at h
    obtain ⟨⟨w, ds⟩, h1, rfl, rfl⟩ := h
    obtain ⟨f, hf, hc⟩ := validateTryTable_spec h1
    exact .tryTable hf hc
  | br l =>
    simp only [validateOpcode, bind_eq_ok, ensure_eq_ok, pure_eq_ok, Prod.mk.injEq] at h
    obtain ⟨-, hl, ⟨w, k, d⟩, h1, rfl, rfl⟩ := h
    obtain ⟨hb, hs⟩ := validateBr_spec h1
    refine .br hb ?_
    rcases hs with hs | ⟨hd, hs⟩
    · exact ⟨hs.ctrl, hs.dead, hs.base, fun _ hb => by omega⟩
    · exact hs
  | brIf l =>
    simp only [validateOpcode, bind_eq_ok, ensure_eq_ok, pure_eq_ok, Prod.mk.injEq] at h
    obtain ⟨-, hl, w, hp, ⟨u, k, d⟩, h1, rfl, rfl⟩ := h
    obtain ⟨hb, hf⟩ := validateBr_spec h1
    have p := popMatch_pops hp
    have hf : Falls w u 0 0 := hf
    refine .brIf hl (fun hlive => ⟨hl, fun _ => ?_⟩) ?_
    · obtain ⟨ts, hgt, ht, h2⟩ := hb.target (p.dead.trans hlive)
      rw [p.height hlive] at h2
      exact ⟨ts, hgt, by rw [← brTarget_congr p.ctrl]; exact ht, h2⟩
    · refine ⟨hf.ctrl.trans p.ctrl, hf.dead.trans p.dead, fun hb => hf.base (p.base hb), fun hlive hb => ?_⟩
      have h3 := hf.live (p.dead.trans hlive) (p.base hb)
      have hroom := (p.live hlive).2 (by omega)
      rw [p.height hlive] at h3
      exact ⟨hroom, by dsimp only; omega⟩
  | brTable ls d =>
    simp only [validateOpcode, bind_eq_ok, pure_eq_ok, Prod.mk.injEq] at h
    obtain ⟨⟨w, imm⟩, h1, rfl, rfl⟩ := h
    obtain ⟨hl, hb, hs⟩ := validateBrTable_spec h1
    exact .brTable hl hb hs
  | return_ =>
    simp only [validateOpcode, bind_eq_ok, ensure_eq_ok, pure_eq_ok, Prod.mk.injEq] at h
    obtain ⟨-, -, w, hp, rfl, rfl⟩ := h
    exact .return_ (popLabel_pops hp).stops
  | brOnNull l =>
    simp only [validateOpcode, bind_eq_ok, pure_eq_ok, Prod.mk.injEq] at h
    obtain ⟨⟨w, k, d⟩, h1, rfl, rfl⟩ := h
    obtain ⟨hl, hf, hb⟩ := validateBrOnNull_spec h1
    exact .brOnNull hl hb hf
  | brOnNonNull l =>
    simp only [validateOpcode, bind_eq_ok, pure_eq_ok, Prod.mk.injEq] at h
    obtain ⟨⟨w, k, d⟩, h1, rfl, rfl⟩ := h
    obtain ⟨hl, hf, hb⟩ := validateBrOnNull_spec h1
    exact .brOnNonNull hl hb hf
  | brOnCast fail c =>
    simp only [validateOpcode, bind_eq_ok, pure_eq_ok, Prod.mk.injEq] at h
    obtain ⟨⟨w, k, d⟩, h1, rfl, rfl⟩ := h
    obtain ⟨hl, hf, hb⟩ := validateBrOnCast_spec h1
    exact .brOnCast hl hb hf
  | call c =>
    simp only [validateOpcode, bind_eq_ok, pure_eq_ok, Prod.mk.injEq] at h
    obtain ⟨⟨pre, ft⟩, hs, w, hp, u, hq, rfl, rfl⟩ := h
    have hsig : c.sig C.module = (pre, ft) := by simp [CallKind.sig, hs]
    have := (popMatches_pops hp).falls (pushTypes_pushes hq)
    refine .call ?_
    rw [hsig]
    simpa using this
  | returnCall c =>
    simp only [validateOpcode, bind_eq_ok, ensure_eq_ok, pure_eq_ok, Prod.mk.injEq] at h
    obtain ⟨⟨pre, ft⟩, hs, w, hp, -, hm, u, hq, rfl, rfl⟩ := h
    have hsig : c.sig C.module = (pre, ft) := by simp [CallKind.sig, hs]
    have := ((popMatches_pops hp).trans (popMatches_pops hq)).stops
    refine .returnCall (by rw [hsig]; exact hm.1) ?_
    rw [hsig]
    simpa using this
  | throw t =>
    simp only [validateOpcode, bind_eq_ok, pure_eq_ok, Prod.mk.injEq] at h
    obtain ⟨ft, hs, w, hp, rfl, rfl⟩ := h
    have := (popMatches_pops hp).stops
    refine .throw ?_
    simpa [tagArity, hs] using this
  | throwRef =>
    simp only [validateOpcode, bind_eq_ok, ensure_eq_ok, pure_eq_ok, Prod.mk.injEq] at h
    obtain ⟨⟨t, w⟩, hp, -, -, rfl, rfl⟩ := h
    exact .throwRef (popType_pops hp).stops

/-! ## Contexts that differ in their low-water mark -/

/-- the same context for all but ref maps -/
structure Same (v w : VCtx) : Prop where
  stack : w.stack = v.stack
  ctrl : w.ctrl = v.ctrl
  dead : w.isUnreachable = v.isUnreachable
  depth : w.maxStackDepth = v.maxStackDepth
  undo : w.undo = v.undo

namespace Same

variable {w w' : VCtx}

theorem height (h : Same v w) : w.height = v.height := by simp [VCtx.height, h.stack]

theorem baseHeight (h : Same v w) : w.baseHeight = v.baseHeight := baseHeight_congr h.ctrl

theorem falls (h : Same v w) (h' : Same v' w') {n m : Nat} (f : Falls v v' n m) : Falls w w' n m :=
  ⟨by rw [h'.ctrl, f.ctrl, h.ctrl], by rw [h'.dead, f.dead, h.dead],
    fun hb => by rw [h'.baseHeight, h'.height]; exact f.base (by rwa [h.baseHeight, h.height] at hb),
    fun hl hb => by
      rw [h.baseHeight, h.height] at hb
      rw [h.baseHeight, h.height, h'.height]
      exact f.live (h.dead ▸ hl) hb⟩

theorem stops (h : Same v w) (h' : Same v' w') {n : Nat} (f : Stops v v' n) : Stops w w' n :=
  ⟨by rw [h'.ctrl, f.ctrl, h.ctrl], h'.dead.trans f.dead,
    fun hb => by rw [h'.baseHeight, h'.height]; exact f.base (by rwa [h.baseHeight, h.height] at hb),
    fun hl hb => by
      rw [h.baseHeight, h.height] at hb
      rw [h.baseHeight, h.height]
      exact f.live (h.dead ▸ hl) hb⟩

theorem branchOk (h : Same v w) {ft : FuncType} {l L keep drop : Nat} (b : BranchOk v ft l L keep drop) :
    BranchOk w ft l L keep drop :=
  ⟨h.ctrl ▸ b.label, fun hl => by rw [brTarget_congr h.ctrl]; exact b.target (h.dead ▸ hl)⟩

theorem opens (h : Same v w) (h' : Same v' w') {op : FrameOp} {bt : BlockType} {f : CtrlFrame}
    (o : Opens M v v' op bt f) : Opens M w w' op bt f :=
  ⟨by rw [h'.ctrl, o.ctrl, h.ctrl], h'.dead.trans o.live, o.opcode, o.sig, o.elseFound, o.outer.trans h.dead.symm,
    h'.height.trans o.height,
    fun hl hb => by
      rw [h.baseHeight, h.height] at hb
      rw [h.baseHeight, h.height, h'.height]
      exact o.above (h.dead ▸ hl) hb,
    fun hb => by
      rw [h.baseHeight, h.height] at hb
      rw [h.baseHeight]
      exact o.base hb⟩

/-- `VStep` does not see the low-water mark -/
theorem vstep (h : Same v w) (h' : Same v' w') {C : FuncCtx} {i : Instr} {od : Option DOp} (s : VStep C v v' i od) :
    VStep C w w' i od := by
  have lab : ∀ {l : Nat}, l ≤ v.ctrl.length → l ≤ w.ctrl.length := fun hl => h.ctrl ▸ hl
  have hlive : ∀ {Q : Prop}, (v.isUnreachable = false → v.baseHeight ≤ v.height → Q) →
      w.isUnreachable = false → w.baseHeight ≤ w.height → Q := by
    intro Q hq hl hb
    rw [h.baseHeight, h.height] at hb
    exact hq (h.dead ▸ hl) hb
  cases s with
  | skip hi f => exact .skip hi (h.falls h' f)
  | data f => exact .data (h.falls h' f)
  | localGet hn f => exact .localGet hn (h.falls h' f)
  | localSet f => exact .localSet (h.falls h' f)
  | localTee f => exact .localTee (h.falls h' f)
  | call f => exact .call (h.falls h' f)
  | returnCall hr f => exact .returnCall hr (h.stops h' f)
  | unreachable f => exact .unreachable (h.stops h' f)
  | return_ f => exact .return_ (h.stops h' f)
  | throw f => exact .throw (h.stops h' f)
  | throwRef f => exact .throwRef (h.stops h' f)
  | br hb f => exact .br (h.height ▸ h.branchOk hb) (h.stops h' f)
  | brIf hl hb f => exact .brIf (lab hl) (fun e => h.height ▸ h.branchOk (hb (h.dead ▸ e))) (h.falls h' f)
  | brTable hl hb f =>
    refine .brTable (fun r hr => lab (hl r hr)) (hlive fun e1 e2 => ?_) (h.stops h' f)
    obtain ⟨h1, h2⟩ := hb e1 e2
    rw [h.baseHeight, h.height]
    refine ⟨h1, fun n => ?_⟩
    obtain ⟨drop, h3, h4⟩ := h2 n
    exact ⟨drop, h3, h.branchOk h4⟩
  | brOnNull hl hb f => exact .brOnNull (lab hl) (hlive fun e1 e2 => h.height ▸ h.branchOk (hb e1 e2)) (h.falls h' f)
  | brOnNonNull hl hb f =>
    exact .brOnNonNull (lab hl) (hlive fun e1 e2 => h.height ▸ h.branchOk (hb e1 e2)) (h.falls h' f)
  | brOnCast hl hb f => exact .brOnCast (lab hl) (hlive fun e1 e2 => h.height ▸ h.branchOk (hb e1 e2)) (h.falls h' f)
  | block o => exact .block (h.opens h' o)
  | loop o => exact .loop (h.opens h' o)
  | @if_ bt u f hp o =>
    have hu : Same u u := ⟨rfl, rfl, rfl, rfl, rfl⟩
    refine .if_ (w := u) ⟨hp.ctrl.trans h.ctrl.symm, hp.dead.trans h.dead.symm, hp.depth.trans h.depth.symm,
      hp.undo.trans h.undo.symm, fun hl => ?_, fun hb => ?_⟩ (hu.opens h' o)
    · rw [h.stack, h.baseHeight, h.height]
      exact hp.live (h.dead ▸ hl)
    · rw [h.baseHeight, h.height] at hb
      exact hp.base hb
  | tryTable o hc =>
    refine .tryTable (h.opens h' o) (hc.imp fun c d hcd => ?_)
    obtain ⟨k, hk⟩ := hcd
    refine ⟨⟨k.kind, k.tag, k.label, lab k.bound, ?_⟩, fun ts hgt ht => ?_⟩
    · obtain ⟨ts, hgt, h1, h2⟩ := k.target
      exact ⟨ts, hgt, by rw [brTarget_congr h.ctrl]; exact h1, h2⟩
    · rw [brTarget_congr h.ctrl] at ht
      rw [h'.depth]
      exact hk ts hgt ht
  | else_ s =>
    refine .else_ ⟨h.ctrl.trans s.was, h'.ctrl.trans s.ctrl, s.opcode, s.first, h'.dead.trans s.dead,
      h'.height.trans s.height, hlive fun e1 e2 => ?_⟩
    rw [h.height]
    exact s.live e1 e2
  | end_ s =>
    refine .end_ ⟨h.ctrl.trans s.was, h'.ctrl.trans s.ctrl, h'.dead.trans s.dead,
      h'.height.trans s.height, hlive fun e1 e2 => ?_, s.implicitElse⟩
    rw [h.height]
    exact s.live e1 e2

end Same

end Wah
