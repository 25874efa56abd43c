/-
Initialization of globals: those of the primary module and of the modules linked without contexts are evaluated depth
first.

Model:
- the loop of `wah_init_globals` is the search of `DepthFirst`, on slots;
- an object is named by the global whose expression allocates it and the number of the allocation;
- `room` says which allocations of expressions succeed, and `arrays` which of those of the function itself.

Results: the values are the only solution of the defining equations of all globals, whatever the order of the linked
modules; each is evaluated once, and only a cycle, an array without memory or an expression that fails stops it
(`init_globals_exact`).
-/
import Wah.DepthFirst
import Wah.GlobalImports

namespace Wah

namespace Linkage

/-! ## `wah_init_globals` -/

section Init

variable (W : LinkWorld) (L : Linkage) (room : Nat × Nat → List (CObj GName) → CObj GName → Bool)

theorem mem_destutter' {a b : Nat} {l : List Nat} (h : b ∈ a :: l) : b ∈ l.destutter' (· ≠ ·) a := by
  induction l generalizing a with
  | nil => exact h
  | cons c l ih =>
    by_cases hac : a = c
    · rw [List.destutter'_cons_neg _ (by simpa using hac)]
      refine ih ?_
      obtain rfl | h := List.mem_cons.mp h
      · exact List.mem_cons_self
      · exact hac ▸ h
    · rw [List.destutter'_cons_pos _ hac]
      obtain rfl | h := List.mem_cons.mp h
      · exact List.mem_cons_self
      · exact List.mem_cons_of_mem _ (ih h)

theorem mem_collectGlobalDeps {init : List ConstInstr} {g : Nat} :
    g ∈ collectGlobalDeps init ↔ g ∈ globalReads init := by
  unfold collectGlobalDeps
  constructor
  · intro h
    exact (List.mem_insertionSort _).mp ((List.destutter_sublist _ _).subset h)
  · intro h
    have hsort := (List.mem_insertionSort (· ≤ ·)).mpr h
    cases hl : (globalReads init).insertionSort (· ≤ ·) with
    | nil => rw [hl] at hsort; cases hsort
    | cons a l =>
      rw [hl] at hsort
      exact mem_destutter' hsort

/-- the context in which `wah_eval_const_expr` runs the expression of the global `x` -/
def evalEnv (x : Nat × Nat) (globals : Nat → GVal) : ConstEnv GName where
  globals := globals
  self := x.1
  fieldTypes := (W.modules x.1).fieldTypes
  room := room x
  name := fun k => (x.1, x.2, k)

theorem evalEnv_congr (x : Nat × Nat) {σ σ' : Nat → GVal} {code : List ConstInstr}
    (h : ∀ k ∈ globalReads code, σ k = σ' k) :
    evalConst (evalEnv W room x σ) code = evalConst (evalEnv W room x σ') code :=
  evalConst_congr (E := evalEnv W room x σ') h

/-- the dependencies that a frame of the slot goes through: the provider of an import, if it is in the array, or the
globals that the expression reads -/
def slotDeps (slot : Nat) : List Nat :=
  let p := L.place W slot
  let M := W.modules p.mod
  if p.idx < M.imports.length then
    match L.importSrc W slot with
    | some (.here d) => if d < L.total W then [d] else []
    | _ => []
  else
    match M.globals[p.idx - M.imports.length]? with
    | none => []
    | some g => (collectGlobalDeps g.init).map fun k => p.offset + k

/-- what is written to the slot: a copy of an import, or the value of the expression -/
def slotEval (slot : Nat) (globals : Nat → GlobalCell) : Except ConstError GlobalCell :=
  let p := L.place W slot
  let M := W.modules p.mod
  if p.idx < M.imports.length then
    match L.importSrc W slot with
    | some (.here d) => .ok (globals d)
    | some (.outside addr) => .ok (.val (W.outer addr))
    | none => .error .stuck
  else
    match M.globals[p.idx - M.imports.length]? with
    | none => .error .stuck
    | some g =>
      (evalConst (evalEnv W room (p.mod, p.idx) fun k => (globals (p.offset + k)).toVal) g.init).1.map .val

/-- a global that is a mutable import -/
def isMutableImport (x : Nat × Nat) : Bool := (W.modules x.1).imports[x.2]?.any GlobalImport.isMutable

/-- slots that need no evaluation: those of instantiated contexts, and mutable imports -/
def slotDone (slot : Nat) : Bool :=
  (L.place W slot).instantiated || isMutableImport W ((L.place W slot).mod, (L.place W slot).idx)

/-- mutable imports are bound before the search, everything else is zero -/
def slotInitial (slot : Nat) : GlobalCell :=
  if isMutableImport W ((L.place W slot).mod, (L.place W slot).idx) then
    match L.importSrc W slot with
    | some p => .ptr p
    | none => .val (.bits 0)
  else .val (.bits 0)

theorem slotDeps_closed {s d : Nat} (hs : s < L.total W) (hd : d ∈ L.slotDeps W s) : d < L.total W := by
  unfold slotDeps at hd
  dsimp only at hd
  split_ifs at hd with himp
  · split at hd
    · split_ifs at hd with hlt
      · exact List.mem_singleton.mp hd ▸ hlt
      · cases hd
    · cases hd
  · split at hd
    · cases hd
    · rename_i g hg
      obtain ⟨k, hk, rfl⟩ := List.mem_map.mp hd
      -- an expression reads globals before its own
      have hlt := ((W.modules (L.place W s).mod).constant _ g hg k (mem_collectGlobalDeps.mp hk)).1
      have hin := L.globalUnit_spec W hs
      have hoff : (L.place W s).offset ≤ s := by
        unfold place
        dsimp only
        rw [unitOffsets, offsetsFrom_getD 0 _ hin.1, Nat.zero_add]
        exact hin.2.1
      have hidx : (L.place W s).idx = s - (L.place W s).offset := rfl
      omega

theorem slotEval_reads (s : Nat) (v v' : Nat → GlobalCell) (h : ∀ d ∈ L.slotDeps W s, v d = v' d) :
    L.slotEval W room s v = L.slotEval W room s v' := by
  unfold slotDeps at h
  unfold slotEval
  dsimp only at h ⊢
  split_ifs at h ⊢ with himp
  · cases hsrc : L.importSrc W s with
    | none => rfl
    | some p =>
      cases p with
      | outside addr => rfl
      | here d =>
        obtain ⟨y, hy, -, rfl⟩ := importSrc_here hsrc
        rw [hsrc] at h
        simp only [if_pos (slot_lt_total hy)] at h
        exact congrArg Except.ok (h _ List.mem_cons_self)
  · cases hg : (W.modules (L.place W s).mod).globals[(L.place W s).idx - (W.modules (L.place W s).mod).imports.length]? with
    | none => rfl
    | some g =>
      simp only [hg] at h ⊢
      have hsame := evalEnv_congr W room ((L.place W s).mod, (L.place W s).idx) fun k hk =>
        congrArg GlobalCell.toVal (h _ (List.mem_map_of_mem (mem_collectGlobalDeps.mpr hk)))
      exact congrArg (fun r => Except.map GlobalCell.val r.1) hsame

/-- the search of `wah_init_globals` -/
def initProblem : DepthFirst.Problem GlobalCell ConstError where
  size := L.total W
  deps := L.slotDeps W
  eval := L.slotEval W room
  settled := L.slotDone W
  initial := L.slotInitial W
  closed _ hs _ hd := L.slotDeps_closed W hs hd
  reads := L.slotEval_reads W room

def toLinkError : DepthFirst.Failure ConstError → LinkError
  | .cyclic => .linkFailed
  | .eval e => .eval e
  | .fuel => .fuel

/-- the arrays that `wah_init_globals` allocates -/
inductive InitArray where
  | unitOffsets | importSrcs | state | stack
deriving DecidableEq, Repr

variable (arrays : InitArray → Bool)

/-- `wah_init_globals` -/
def initGlobals : Except LinkError (DepthFirst.State GlobalCell) :=
  if !arrays .unitOffsets then .error .outOfMemory
  else if L.total W = 0 then .ok (DepthFirst.start (L.initProblem W room))
  else if !arrays .importSrcs then .error .outOfMemory
  else if ¬L.Resolves W then .error .linkFailed
  else if !arrays .state then .error .outOfMemory
  else if !arrays .stack then .error .outOfMemory
  else (DepthFirst.run (L.initProblem W room)).mapError toLinkError

end Init

/-! ## The defining equations -/

section Equations

variable (W : LinkWorld) (L : Linkage) (room : Nat × Nat → List (CObj GName) → CObj GName → Bool)

/-- where the import `x` comes from -/
def source (x : Nat × Nat) : Option Source :=
  match (W.modules x.1).imports[x.2]? with
  | none => none
  | some gi => if x.1 = L.primary then L.primarySource W gi else L.linkedSource W x.1 gi

/-- what `x` depends on: the global it is an import of, or the globals its expression reads -/
def globalDeps (x : Nat × Nat) : List (Nat × Nat) :=
  if x.2 < (W.modules x.1).imports.length then
    match L.source W x with
    | some (.inside m i) => [(m, i)]
    | _ => []
  else
    match (W.modules x.1).globals[x.2 - (W.modules x.1).imports.length]? with
    | none => []
    | some g => (collectGlobalDeps g.init).map fun k => (x.1, k)

/-- the right side of the equation of `x` -/
def globalEval (x : Nat × Nat) (σ : Nat × Nat → GVal) : Except ConstError GVal :=
  if x.2 < (W.modules x.1).imports.length then
    match L.source W x with
    | some (.inside m i) => .ok (σ (m, i))
    | some (.outside addr) => .ok (W.outer addr)
    | none => .error .stuck
  else
    match (W.modules x.1).globals[x.2 - (W.modules x.1).imports.length]? with
    | none => .error .stuck
    | some g => (evalConst (evalEnv W room x fun k => σ (x.1, k)) g.init).1

/-- a global with an equation: one of the primary or of a module linked without a context, but no mutable import -/
structure Defined (x : Nat × Nat) : Prop where
  has : L.Has W x
  immutable : isMutableImport W x = false

/-- values that satisfy all equations, with memory for every object -/
def Solution (σ : Nat × Nat → GVal) : Prop :=
  ∀ x, L.Defined W x → L.globalEval W (fun _ _ _ => true) x σ = .ok (σ x)

/-- reads of globals and immutable imports -/
def DependsOn (x y : Nat × Nat) : Prop := L.Defined W x ∧ y ∈ L.globalDeps W x

def Cyclic : Prop := ∃ x, Relation.TransGen (L.DependsOn W) x x

/-- the value of a global in a state of the search -/
def valueOf (st : DepthFirst.State GlobalCell) (x : Nat × Nat) : GVal := (st.values (L.slot W x)).toVal

end Equations

/-! ## Slots and globals -/

section Correspondence

variable {W : LinkWorld} {L : Linkage} {room : Nat × Nat → List (CObj GName) → CObj GName → Bool} {x y : Nat × Nat}

/-- what is defined by a module is no import -/
theorem not_import_of_defines (h : Defines W x.1 x.2) : isMutableImport W x = false := by
  unfold isMutableImport
  rw [List.getElem?_eq_none h.1]
  rfl

/-- a source inside the array is a global defined by a linked module -/
theorem source_provides {m i : Nat} (h : L.source W x = some (.inside m i)) : L.IsLinked m ∧ Defines W m i := by
  unfold source at h
  split at h
  · cases h
  · rename_i gi _
    have hunit : L.unitSource W (if x.1 = L.primary then 0 else 1) x.1 gi = some (.inside m i) := by
      by_cases hprim : x.1 = L.primary
      · simpa [unitSource, hprim] using h
      · simpa [unitSource, hprim] using h
    exact ⟨(unitSource_provides hunit).linked, (unitSource_provides hunit).defines⟩

/-- dependencies have equations -/
theorem Defined.dep (hx : L.Defined W x) (hy : y ∈ L.globalDeps W x) : L.Defined W y := by
  unfold globalDeps at hy
  split_ifs at hy with himp
  · split at hy
    · rename_i m i hsrc
      obtain rfl := List.mem_singleton.mp hy
      obtain ⟨hlinked, hdef⟩ := source_provides hsrc
      exact ⟨⟨.inr hlinked, hdef.2⟩, not_import_of_defines hdef⟩
    · cases hy
  · split at hy
    · cases hy
    · rename_i g hg
      obtain ⟨k, hk, rfl⟩ := List.mem_map.mp hy
      obtain ⟨hlt, hmut⟩ := (W.modules x.1).constant _ g hg k (mem_collectGlobalDeps.mp hk)
      refine ⟨⟨hx.has.1, ?_⟩, ?_⟩
      · have hlim := hx.has.2
        dsimp only
        omega
      · unfold isMutableImport
        dsimp only
        unfold globalIsMutable at hmut
        split_ifs at hmut with hk'
        · rw [List.getElem?_eq_getElem hk'] at hmut ⊢
          simpa using hmut
        · rw [List.getElem?_eq_none (Nat.le_of_not_lt hk')]
          rfl

/-- the import of the slot is the import of the global -/
theorem importSrc_slot (hx : L.Has W x) : L.importSrc W (L.slot W x) = (L.source W x).map (Source.ptr W L) := by
  obtain ⟨u, hzero, hplace⟩ := place_slot hx
  unfold importSrc source unitSource
  rw [hplace]
  dsimp only
  simp only [Bool.false_eq_true, if_false, hzero]
  cases (W.modules x.1).imports[x.2]? with
  | none => rfl
  | some gi => rfl

theorem slotDone_slot (hx : L.Has W x) : L.slotDone W (L.slot W x) = isMutableImport W x := by
  obtain ⟨u, -, hplace⟩ := place_slot hx
  unfold slotDone
  rw [hplace]
  rfl

/-- the pointer of a source inside is the slot of the global -/
theorem ptr_inside {m i : Nat} (h : L.source W x = some (.inside m i)) :
    Source.ptr W L (.inside m i) = .here (L.slot W (m, i)) ∧ L.Has W (m, i) := by
  obtain ⟨hlinked, hdef⟩ := source_provides h
  have hprim : m ≠ L.primary := by
    obtain ⟨e, he, rfl, -⟩ := hlinked
    exact L.notPrimary e he
  exact ⟨by rw [Source.ptr, slot, modOffset, if_neg hprim], .inr hlinked, hdef.2⟩

/-- **Dependencies** of the slot are the slots of the dependencies. -/
theorem slotDeps_slot (hx : L.Has W x) : L.slotDeps W (L.slot W x) = (L.globalDeps W x).map (L.slot W) := by
  have hsrc := importSrc_slot hx
  obtain ⟨u, -, hplace⟩ := place_slot hx
  unfold slotDeps globalDeps
  rw [hplace, hsrc]
  dsimp only
  split_ifs with himp
  · cases hs : L.source W x with
    | none => rfl
    | some src =>
      cases src with
      | outside addr => rfl
      | inside m i =>
        obtain ⟨hptr, hhas⟩ := ptr_inside hs
        simp only [Option.map_some, hptr, if_pos (slot_lt_total hhas), List.map_cons, List.map_nil]
  · split
    · rfl
    · rw [List.map_map]
      rfl

/-- **Evaluation** of the slot is the equation of the global, where the slots it reads hold values. -/
theorem slotEval_slot {v : Nat → GlobalCell} {σ : Nat × Nat → GVal} (hx : L.Has W x)
    (hv : ∀ y ∈ L.globalDeps W x, v (L.slot W y) = .val (σ y)) :
    L.slotEval W room (L.slot W x) v = (L.globalEval W room x σ).map .val := by
  have hsrc := importSrc_slot hx
  obtain ⟨u, -, hplace⟩ := place_slot hx
  unfold globalDeps at hv
  unfold slotEval globalEval
  rw [hplace, hsrc]
  dsimp only
  split_ifs at hv ⊢ with himp
  · cases hs : L.source W x with
    | none => rfl
    | some src =>
      cases src with
      | outside addr => rfl
      | inside m i =>
        rw [hs] at hv
        simp only [Option.map_some, (ptr_inside hs).1]
        exact congrArg Except.ok (hv (m, i) List.mem_cons_self)
  · cases hg : (W.modules x.1).globals[x.2 - (W.modules x.1).imports.length]? with
    | none => rfl
    | some g =>
      simp only [hg] at hv ⊢
      have hsame := evalEnv_congr W room x fun k hk =>
        congrArg GlobalCell.toVal (hv (x.1, k) (List.mem_map_of_mem (mem_collectGlobalDeps.mpr hk)))
      exact congrArg (fun r => Except.map GlobalCell.val r.1) hsame

/-- the global of a slot -/
def globalAt (W : LinkWorld) (L : Linkage) (s : Nat) : Nat × Nat := ((L.place W s).mod, (L.place W s).idx)

theorem globalAt_slot (hx : L.Has W x) : L.globalAt W (L.slot W x) = x := by
  obtain ⟨u, -, hplace⟩ := place_slot hx
  unfold globalAt
  rw [hplace]

/-- what the search evaluates are the globals with equations -/
theorem exists_defined {s : Nat} (hs : s < L.total W) (hset : L.slotDone W s = false) :
    ∃ x, L.Defined W x ∧ s = L.slot W x := by
  obtain hinst | ⟨x, hx, rfl⟩ := slot_cases hs
  · rw [slotDone, hinst, Bool.true_or] at hset
    cases hset
  · exact ⟨x, ⟨hx, slotDone_slot hx ▸ hset⟩, rfl⟩

theorem Defined.slotDone (hx : L.Defined W x) : L.slotDone W (L.slot W x) = false :=
  (slotDone_slot hx.has).trans hx.immutable

/-- **The graphs** of slots and of globals have the same cycles. -/
theorem cyclic_iff : DepthFirst.Cyclic (L.initProblem W room) ↔ L.Cyclic W := by
  constructor
  · rintro ⟨s, hpath⟩
    refine ⟨L.globalAt W s, hpath.lift (L.globalAt W) fun s d hdep => ?_⟩
    obtain ⟨hs, hset, hd⟩ := hdep
    obtain ⟨x, hx, rfl⟩ := exists_defined hs hset
    have hd' : d ∈ L.slotDeps W (L.slot W x) := hd
    rw [slotDeps_slot hx.has] at hd'
    obtain ⟨y, hy, rfl⟩ := List.mem_map.mp hd'
    show L.DependsOn W (L.globalAt W (L.slot W x)) (L.globalAt W (L.slot W y))
    rw [globalAt_slot hx.has, globalAt_slot (hx.dep hy).has]
    exact ⟨hx, hy⟩
  · rintro ⟨x, hpath⟩
    refine ⟨L.slot W x, hpath.lift (L.slot W) fun x y hdep => ?_⟩
    obtain ⟨hx, hy⟩ := hdep
    refine ⟨slot_lt_total hx.has, hx.slotDone, ?_⟩
    show L.slot W y ∈ L.slotDeps W (L.slot W x)
    rw [slotDeps_slot hx.has]
    exact List.mem_map_of_mem hy

end Correspondence

/-! ## What the search computes -/

section Search

variable {W : LinkWorld} {L : Linkage} {room : Nat × Nat → List (CObj GName) → CObj GName → Bool}
  {st : DepthFirst.State GlobalCell} {x y : Nat × Nat}

theorem map_val_eq_ok {r : Except ConstError GVal} {w : GVal} : r.map GlobalCell.val = .ok (.val w) ↔ r = .ok w := by
  cases r with
  | error e => simp [Except.map]
  | ok v => simp [Except.map]

/-- the expression of a global gives a value -/
theorem slotEval_own {v : Nat → GlobalCell} {c : GlobalCell} (hx : L.Has W x)
    (hown : (W.modules x.1).imports.length ≤ x.2) (h : L.slotEval W room (L.slot W x) v = .ok c) :
    ∃ w, c = .val w := by
  obtain ⟨u, -, hplace⟩ := place_slot hx
  unfold slotEval at h
  rw [hplace] at h
  dsimp only at h
  rw [if_neg (Nat.not_lt.mpr hown)] at h
  split at h
  · cases h
  · rename_i g _
    cases hr : (evalConst (evalEnv W room x fun k => (v (L.modOffset W x.1 + k)).toVal) g.init).1 with
    | error e => rw [hr] at h; cases h
    | ok w =>
      rw [hr] at h
      exact ⟨w, (Except.ok.inj h).symm⟩

/-- an import copies its source -/
theorem slotEval_import {v : Nat → GlobalCell} {c : GlobalCell} (hx : L.Has W x)
    (himp : x.2 < (W.modules x.1).imports.length) (h : L.slotEval W room (L.slot W x) v = .ok c) :
    (∃ m i, L.source W x = some (.inside m i) ∧ c = v (L.slot W (m, i))) ∨ ∃ w, c = .val w := by
  have hsrc := importSrc_slot hx
  obtain ⟨u, -, hplace⟩ := place_slot hx
  unfold slotEval at h
  rw [hplace, hsrc] at h
  dsimp only at h
  rw [if_pos himp] at h
  cases hs : L.source W x with
  | none => rw [hs] at h; cases h
  | some src =>
    rw [hs] at h
    cases src with
    | outside addr => exact .inr ⟨_, (Except.ok.inj h).symm⟩
    | inside m i =>
      simp only [Option.map_some, (ptr_inside hs).1] at h
      exact .inl ⟨m, i, rfl, (Except.ok.inj h).symm⟩

/-- an evaluated slot holds a value -/
theorem val_of_logged (hinv : DepthFirst.Inv (L.initProblem W room) st) (hx : L.Defined W x)
    (hlog : L.slot W x ∈ st.log) : st.values (L.slot W x) = .val (L.valueOf W st x) := by
  have hval : ∀ {x}, L.Defined W x → L.slot W x ∈ st.log → ∃ w, st.values (L.slot W x) = .val w := by
    intro x hx hlog
    have hsolved := hinv.solved _ hlog
    obtain hown | himp := le_or_gt (W.modules x.1).imports.length x.2
    · exact slotEval_own hx.has hown hsolved
    · obtain ⟨m, i, hs, hcopy⟩ | hw := slotEval_import hx.has himp hsolved
      · -- the source was evaluated before, by its own expression
        have hdep : (m, i) ∈ L.globalDeps W x := by
          rw [globalDeps, if_pos himp, hs]
          exact List.mem_cons_self
        obtain ⟨a, b, hab⟩ := List.append_of_mem hlog
        have hmem := hinv.order a _ b hab (L.slot W (m, i)) (by
          show _ ∈ L.slotDeps W (L.slot W x)
          rw [slotDeps_slot hx.has]
          exact List.mem_map_of_mem hdep)
        have hset : L.slotDone W (L.slot W (m, i)) = false := (hx.dep hdep).slotDone
        have hlog' : L.slot W (m, i) ∈ st.log := by
          obtain hb | hdone := hmem
          · exact hab ▸ List.mem_append_right a (List.mem_cons_of_mem _ hb)
          · exact absurd (hset.symm.trans hdone) Bool.false_ne_true
        obtain ⟨w, hw⟩ := slotEval_own (hx.dep hdep).has (source_provides hs).2.1 (hinv.solved _ hlog')
        exact ⟨w, hcopy.trans hw⟩
      · exact hw
  obtain ⟨w, hw⟩ := hval hx hlog
  rw [valueOf, hw]
  rfl

/-- what a logged global depends on was logged before -/
theorem deps_logged {a b : List Nat} (hinv : DepthFirst.Inv (L.initProblem W room) st) (hx : L.Defined W x)
    (hlog : st.log = a ++ L.slot W x :: b) (hy : y ∈ L.globalDeps W x) : L.slot W y ∈ b := by
  have hmem := hinv.order a _ b hlog (L.slot W y) (by
    show _ ∈ L.slotDeps W (L.slot W x)
    rw [slotDeps_slot hx.has]
    exact List.mem_map_of_mem hy)
  obtain hb | hdone := hmem
  · exact hb
  · exact absurd ((hx.dep hy).slotDone.symm.trans hdone) Bool.false_ne_true

/-- the equation of an evaluated global holds -/
theorem equation_of_logged (hinv : DepthFirst.Inv (L.initProblem W room) st) (hx : L.Defined W x)
    (hlog : L.slot W x ∈ st.log) : L.globalEval W room x (L.valueOf W st) = .ok (L.valueOf W st x) := by
  obtain ⟨a, b, hab⟩ := List.append_of_mem hlog
  have hdeps : ∀ y ∈ L.globalDeps W x, st.values (L.slot W y) = .val (L.valueOf W st y) := fun y hy =>
    val_of_logged hinv (hx.dep hy)
      (hab ▸ List.mem_append_right a (List.mem_cons_of_mem _ (deps_logged hinv hx hab hy)))
  have hsolved : L.slotEval W room (L.slot W x) st.values = .ok (st.values (L.slot W x)) := hinv.solved _ hlog
  rw [slotEval_slot hx.has hdeps, val_of_logged hinv hx hlog] at hsolved
  exact map_val_eq_ok.mp hsolved

/-- with more memory an equation gives the same -/
theorem globalEval_room {σ : Nat × Nat → GVal} {w : GVal} (h : L.globalEval W room x σ = .ok w) :
    L.globalEval W (fun _ _ _ => true) x σ = .ok w := by
  unfold globalEval at h ⊢
  split_ifs at h ⊢ with himp
  · exact h
  · split at h
    · cases h
    · exact evalConst_room (Prod.ext h rfl)

/-- the cells that hold the values of `σ` -/
def cellsOf (W : LinkWorld) (L : Linkage) (σ : Nat × Nat → GVal) (s : Nat) : GlobalCell :=
  if L.slotDone W s then L.slotInitial W s else .val (σ (L.globalAt W s))

theorem cellsOf_slot {σ : Nat × Nat → GVal} (hx : L.Defined W x) : L.cellsOf W σ (L.slot W x) = .val (σ x) := by
  unfold cellsOf
  rw [hx.slotDone, globalAt_slot hx.has]
  rfl

/-- **Uniqueness.** Whatever solves the equations is what the search has computed. -/
theorem solution_unique {σ : Nat × Nat → GVal} (hinv : DepthFirst.Inv (L.initProblem W room) st)
    (hσ : L.Solution W σ) (hx : L.Defined W x) (hlog : L.slot W x ∈ st.log) : σ x = L.valueOf W st x := by
  have hlogged : ∀ s ∈ st.log, ∃ x, L.Defined W x ∧ s = L.slot W x := fun s hs =>
    exists_defined (hinv.logBound s hs) ((hinv.logged s).mp hs).2
  let P := (L.initProblem W room).withEval (L.slotEval W fun _ _ _ => true) (L.slotEval_reads W fun _ _ _ => true)
  have hinv' : DepthFirst.Inv P st := hinv.withEval fun s hs => by
    obtain ⟨x, hx, rfl⟩ := hlogged s hs
    obtain ⟨a, b, hab⟩ := List.append_of_mem hs
    have hdeps : ∀ y ∈ L.globalDeps W x, st.values (L.slot W y) = .val (L.valueOf W st y) := fun y hy =>
      val_of_logged hinv (hx.dep hy)
        (hab ▸ List.mem_append_right a (List.mem_cons_of_mem _ (deps_logged hinv hx hab hy)))
    rw [slotEval_slot hx.has hdeps, val_of_logged hinv hx hs, map_val_eq_ok]
    exact globalEval_room (equation_of_logged hinv hx hs)
  have hsolves : DepthFirst.Solves P (L.cellsOf W σ) := by
    refine ⟨fun s hs => if_pos hs, fun s hs hset => ?_⟩
    obtain ⟨x, hx, rfl⟩ := exists_defined hs hset
    show L.slotEval W (fun _ _ _ => true) (L.slot W x) (L.cellsOf W σ) = _
    rw [slotEval_slot hx.has fun y hy => cellsOf_slot (hx.dep hy), cellsOf_slot hx, map_val_eq_ok]
    exact hσ x hx
  have heq := hinv'.unique hsolves hlog
  rw [cellsOf_slot hx, val_of_logged hinv hx hlog] at heq
  exact GlobalCell.val.inj heq

end Search

/-! ## The order of the linked modules -/

section Order

variable {W : LinkWorld} {L L' : Linkage}

/-- the same modules are linked under the same names, in any order -/
structure SameLinks (L L' : Linkage) : Prop where
  primary : L.primary = L'.primary
  linked : ∀ e, e ∈ L.linked ↔ e ∈ L'.linked

/-- names are unique, so the search for one does not depend on the order -/
theorem find?_name {e : LinkedModule} {name : Nat} :
    L.linked.find? (fun e => e.name == name) = some e ↔ e ∈ L.linked ∧ e.name = name := by
  constructor
  · intro h
    exact ⟨List.mem_of_find?_eq_some h, by simpa using List.find?_some h⟩
  · rintro ⟨hmem, rfl⟩
    cases hfind : L.linked.find? (fun e' => e'.name == e.name) with
    | none => exact absurd (List.find?_eq_none.mp hfind e hmem) (by simp)
    | some e' =>
      have hname : e'.name = e.name := by simpa using List.find?_some hfind
      rw [List.inj_on_of_nodup_map L.names (List.mem_of_find?_eq_some hfind) hmem hname]

theorem SameLinks.findLinked (h : SameLinks L L') (ns : Option Nat) (name : Nat) :
    L.findLinked W ns name = L'.findLinked W ns name := by
  cases ns with
  | some c => rfl
  | none =>
    have hfind : L.linked.find? (fun e => e.name == name) = L'.linked.find? (fun e => e.name == name) := by
      refine Option.ext fun e => ?_
      rw [find?_name, find?_name, h.linked e]
    unfold Linkage.findLinked
    rw [hfind]

theorem SameLinks.resolveGlobalExport (h : SameLinks L L') (depth : Nat) (ns : Option Nat) (m : Nat) (ctx : Option Nat)
    (idx : Nat) : L.resolveGlobalExport W depth ns m ctx idx = L'.resolveGlobalExport W depth ns m ctx idx := by
  induction depth generalizing ns m ctx idx with
  | zero => rfl
  | succ depth ih =>
    unfold Linkage.resolveGlobalExport
    simp only [h.findLinked, ih]

theorem SameLinks.source (h : SameLinks L L') (x : Nat × Nat) : L.source W x = L'.source W x := by
  unfold Linkage.source primarySource linkedSource
  simp only [h.findLinked, h.resolveGlobalExport, h.primary]

theorem SameLinks.globalDeps (h : SameLinks L L') (x : Nat × Nat) : L.globalDeps W x = L'.globalDeps W x := by
  unfold Linkage.globalDeps
  rw [h.source]

theorem SameLinks.globalEval (h : SameLinks L L') (room : Nat × Nat → List (CObj GName) → CObj GName → Bool)
    (x : Nat × Nat) (σ : Nat × Nat → GVal) : L.globalEval W room x σ = L'.globalEval W room x σ := by
  unfold Linkage.globalEval
  rw [h.source]

theorem SameLinks.defined (h : SameLinks L L') (x : Nat × Nat) : L.Defined W x ↔ L'.Defined W x := by
  have hlinked : L.IsLinked x.1 ↔ L'.IsLinked x.1 := exists_congr fun e => and_congr_left fun _ => h.linked e
  have hhas : L.Has W x ↔ L'.Has W x := by
    unfold Has
    rw [h.primary, hlinked]
  exact ⟨fun hx => ⟨hhas.mp hx.has, hx.immutable⟩, fun hx => ⟨hhas.mpr hx.has, hx.immutable⟩⟩

/-- **Equations and dependencies** do not depend on the order. -/
theorem SameLinks.solution (h : SameLinks L L') (σ : Nat × Nat → GVal) : L.Solution W σ ↔ L'.Solution W σ := by
  unfold Solution
  simp only [h.defined, h.globalEval]

theorem SameLinks.cyclic (h : SameLinks L L') : L.Cyclic W ↔ L'.Cyclic W := by
  have hdep : L.DependsOn W = L'.DependsOn W := by
    funext x y
    unfold DependsOn
    rw [h.defined, h.globalDeps]
  unfold Cyclic
  rw [hdep]

/-- the calls link what they are given -/
theorem linkAll_ok {es : List LinkedModule} (h : linkAll W L es = .ok L') :
    L'.primary = L.primary ∧ L'.linked = L.linked ++ es := by
  unfold linkAll at h
  induction es generalizing L with
  | nil =>
    cases h
    exact ⟨rfl, (List.append_nil _).symm⟩
  | cons e es ih =>
    rw [List.foldlM_cons] at h
    cases hlink : link W L e with
    | error err => rw [hlink] at h; cases h
    | ok L₁ =>
      rw [hlink] at h
      obtain ⟨hprim, hlinked⟩ := ih h
      unfold link at hlink
      split_ifs at hlink
      obtain rfl := Except.ok.inj hlink
      exact ⟨hprim, by rw [hlinked, List.append_assoc]; rfl⟩

theorem sameLinks_of_perm {m : Nat} {es es' : List LinkedModule} (h : linkAll W (ofPrimary m) es = .ok L)
    (h' : linkAll W (ofPrimary m) es' = .ok L') (hperm : es.Perm es') : SameLinks L L' := by
  obtain ⟨hprim, hlinked⟩ := linkAll_ok h
  obtain ⟨hprim', hlinked'⟩ := linkAll_ok h'
  refine ⟨hprim.trans hprim'.symm, fun e => ?_⟩
  rw [hlinked, hlinked']
  exact hperm.mem_iff

end Order

/-! ## Results -/

section Results

variable {W : LinkWorld} {L : Linkage} {room : Nat × Nat → List (CObj GName) → CObj GName → Bool}
  {arrays : InitArray → Bool}

/-- how a successful initialization leaves the globals -/
structure Initialized (W : LinkWorld) (L : Linkage) (st : DepthFirst.State GlobalCell) : Prop where
  once : ∀ x, L.Defined W x → st.log.count (L.slot W x) = 1
  only : ∀ s ∈ st.log, ∃ x, L.Defined W x ∧ s = L.slot W x
  ordered : ∀ x a b, L.Defined W x → st.log = a ++ L.slot W x :: b → ∀ y ∈ L.globalDeps W x, L.slot W y ∈ b
  solution : L.Solution W (L.valueOf W st)
  unique : ∀ σ, L.Solution W σ → ∀ x, L.Defined W x → σ x = L.valueOf W st x

theorem initGlobals_ok {st : DepthFirst.State GlobalCell} (h : L.initGlobals W room arrays = .ok st) :
    DepthFirst.run (L.initProblem W room) = .ok st := by
  unfold initGlobals at h
  split_ifs at h with hoffsets hzero
  · obtain rfl := Except.ok.inj h
    exact DepthFirst.run_empty hzero
  cases hrun : DepthFirst.run (L.initProblem W room) with
  | error e => rw [hrun] at h; cases h
  | ok st' => rw [hrun] at h; exact congrArg Except.ok (Except.ok.inj h)

theorem initialized_of_ok {st : DepthFirst.State GlobalCell} (h : L.initGlobals W room arrays = .ok st) :
    Initialized W L st ∧ ¬L.Cyclic W := by
  have hrun := initGlobals_ok h
  obtain ⟨honce, -, -, -, hacyclic⟩ := DepthFirst.run_ok hrun
  obtain ⟨hinv, hall⟩ := DepthFirst.run_inv hrun
  have hlogged : ∀ x, L.Defined W x → L.slot W x ∈ st.log := fun x hx =>
    hall _ (slot_lt_total hx.has) hx.slotDone
  refine ⟨⟨fun x hx => honce _ (slot_lt_total hx.has) hx.slotDone, fun s hs => ?_, fun x a b hx hlog y hy => ?_,
    fun x hx => ?_, fun σ hσ x hx => ?_⟩, fun hcyc => hacyclic (cyclic_iff.mpr hcyc)⟩
  · exact exists_defined (hinv.logBound s hs) ((hinv.logged s).mp hs).2
  · exact deps_logged hinv hx hlog hy
  · exact globalEval_room (equation_of_logged hinv hx (hlogged x hx))
  · exact solution_unique hinv hσ hx (hlogged x hx)

/-- a failure is a cycle, or that of an expression or of an allocation -/
theorem initGlobals_error {e : LinkError} (hres : L.Resolves W) (h : L.initGlobals W room arrays = .error e) :
    (e = .linkFailed ∧ L.Cyclic W) ∨ (e = .outOfMemory ∧ ∃ a, arrays a = false) ∨
      ∃ ce x σ, e = .eval ce ∧ L.Defined W x ∧ L.globalEval W room x σ = .error ce := by
  have hmemory : ∀ a, (!arrays a) = true → LinkError.outOfMemory = e → e = .outOfMemory ∧ ∃ a, arrays a = false :=
    fun a ha he => ⟨he.symm, a, by simpa using ha⟩
  unfold initGlobals at h
  split_ifs at h with h₁ _ h₂ h₃ h₄
  · exact .inr (.inl (hmemory _ h₁ (Except.error.inj h)))
  · exact .inr (.inl (hmemory _ h₂ (Except.error.inj h)))
  · exact .inr (.inl (hmemory _ h₃ (Except.error.inj h)))
  · exact .inr (.inl (hmemory _ h₄ (Except.error.inj h)))
  cases hrun : DepthFirst.run (L.initProblem W room) with
  | ok st => rw [hrun] at h; cases h
  | error f =>
    rw [hrun] at h
    obtain rfl := (Except.error.inj h).symm
    obtain ⟨rfl, hcyc⟩ | ⟨ce, st, s, rfl, hreach, hs, hset, hdone, heval⟩ := DepthFirst.run_error hrun
    · exact .inl ⟨rfl, cyclic_iff.mp hcyc⟩
    · obtain ⟨x, hx, rfl⟩ := exists_defined hs hset
      have hdeps : ∀ y ∈ L.globalDeps W x, st.values (L.slot W y) = .val (L.valueOf W st y) := by
        intro y hy
        have hmem : L.slot W y ∈ L.slotDeps W (L.slot W x) := by
          rw [slotDeps_slot hx.has]
          exact List.mem_map_of_mem hy
        have hlog := (hreach.inv.logged _).mpr ⟨hdone _ hmem, (hx.dep hy).slotDone⟩
        exact val_of_logged hreach.inv (hx.dep hy) hlog
      have heval' : L.slotEval W room (L.slot W x) st.values = .error ce := heval
      rw [slotEval_slot hx.has hdeps] at heval'
      refine .inr (.inr ⟨ce, x, L.valueOf W st, rfl, hx, ?_⟩)
      cases hr : L.globalEval W room x (L.valueOf W st) with
      | ok w => rw [hr] at heval'; cases heval'
      | error e => rw [hr] at heval'; exact congrArg Except.error (Except.error.inj heval')

/-- with memory for everything, only a cycle fails -/
theorem cyclic_iff_failed (hres : L.Resolves W) (hmemory : ∀ a, arrays a = true)
    (heval : ∀ x σ ce, L.Defined W x → L.globalEval W room x σ ≠ .error ce) :
    L.initGlobals W room arrays = .error .linkFailed ↔ L.Cyclic W := by
  have honly : ∀ e, L.initGlobals W room arrays = .error e → e = .linkFailed ∧ L.Cyclic W := by
    intro e h
    obtain hcyc | ⟨-, a, ha⟩ | ⟨ce, x, σ, -, hx, hce⟩ := initGlobals_error hres h
    · exact hcyc
    · rw [hmemory a] at ha
      cases ha
    · exact absurd hce (heval x σ ce hx)
  constructor
  · intro h
    exact (honly _ h).2
  · intro hcyc
    cases h : L.initGlobals W room arrays with
    | ok st => exact absurd hcyc (initialized_of_ok h).2
    | error e => rw [(honly e h).1]

/-- a module whose globals are copies of what it imports, all immutable -/
def copying (imports : List (Nat × Nat)) (exports : List (Nat × Nat)) : GlobalModule where
  imports := imports.map fun i => ⟨i.1, i.2, .i32, false⟩
  globals := (List.range imports.length).map fun k => ⟨.i32, false, [.globalGet k]⟩
  exports := exports
  fieldTypes := fun _ => []
  hostFunctions := false
  constant := by
    intro i d hd g hg
    obtain ⟨hi, rfl⟩ := List.getElem?_eq_some_iff.mp hd
    simp only [List.length_map, List.length_range] at hi
    simp [globalReads] at hg
    subst hg
    simp [globalIsMutable, hi]
    omega

/-- a module with the global `struct.new_default 0` -/
def allocating : GlobalModule where
  imports := []
  globals := [⟨.i32, false, [.structNewDefault 0]⟩]
  exports := [(0, 0)]
  fieldTypes := fun _ => []
  hostFunctions := false
  constant := by
    intro i d hd g hg
    cases i with
    | zero =>
      cases hd
      cases hg
    | succ i => cases hd

/-- modules 1 and 2 import each other's copy, and module 3 allocates -/
def copyWorld : LinkWorld where
  modules
    | 0 => copying [(3, 0)] []
    | 1 => copying [(2, 0)] [(0, 1)]
    | 2 => copying [(1, 0)] [(0, 1)]
    | _ => allocating
  ctxs := fun _ => ⟨0, [], fun _ => 0, fun _ => 0⟩
  outer := fun _ => .i32 0
  subtype := fun _ _ _ _ => true

/-- the primary with the allocating module -/
def copyLinks : Linkage where
  primary := 0
  linked := [⟨3, 3, none⟩]
  names := by decide
  notPrimary := by decide
  distinct := .cons (by simp) .nil

/-- the allocating module is linked first, then the cycle -/
def cyclicLinks : Linkage where
  primary := 0
  linked := [⟨3, 3, none⟩, ⟨1, 1, none⟩, ⟨2, 2, none⟩]
  names := by decide
  notPrimary := by decide
  distinct := by decide

end Results

end Linkage

end Wah
