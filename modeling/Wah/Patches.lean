/-
Backpatching as a change of names.

A buffer whose unresolved targets are placeholders is the image of a buffer of named targets under a valuation of
names. Applying the patch list of a name to it changes the valuation at that name and nothing else, provided the list
is exactly the occurrences of the name (`applyPatches_positions`).
-/
import Wah.Labels

namespace Wah

variable {α β : Type}

/-- indices, from `k` on, at which a name occurs -/
def occursFrom (n : Target) : Nat → List Target → List Nat
  | _, [] => []
  | k, t :: ts => if t = n then k :: occursFrom n (k + 1) ts else occursFrom n (k + 1) ts

/-- positions of a name in code that starts at instruction `idx` -/
def positionsFrom (n : Target) : Nat → List (LInstr Target) → List Patch
  | _, [] => []
  | idx, i :: is => (occursFrom n 0 i.targets).map (Patch.mk idx) ++ positionsFrom n (idx + 1) is

def positions (n : Target) (code : List (LInstr Target)) : List Patch := positionsFrom n 0 code

theorem occursFrom_eq_nil {n : Target} {ts : List Target} (h : n ∉ ts) (k : Nat) : occursFrom n k ts = [] := by
  induction ts generalizing k with
  | nil => rfl
  | cons t ts ih =>
    simp only [List.mem_cons, not_or] at h
    simp [occursFrom, Ne.symm h.1, ih h.2]

theorem positionsFrom_append (n : Target) (idx : Nat) (c d : List (LInstr Target)) :
    positionsFrom n idx (c ++ d) = positionsFrom n idx c ++ positionsFrom n (idx + c.length) d := by
  induction c generalizing idx with
  | nil => simp [positionsFrom]
  | cons i is ih => simp [positionsFrom, ih, Nat.add_comm, Nat.add_assoc]

theorem positions_append (n : Target) (c d : List (LInstr Target)) :
    positions n (c ++ d) = positions n c ++ positionsFrom n c.length d := by
  simp [positions, positionsFrom_append]

theorem positionsFrom_eq_nil {n : Target} {code : List (LInstr Target)} (h : ∀ i ∈ code, n ∉ i.targets) (idx : Nat) :
    positionsFrom n idx code = [] := by
  induction code generalizing idx with
  | nil => rfl
  | cons i is ih =>
    simp [positionsFrom, occursFrom_eq_nil (h i (by simp)), ih fun j hj => h j (by simp [hj])]

/-! ## Lists changed at the occurrences of a name -/

theorem modify_append_length (pre : List α) (x : α) (xs : List α) (g : α → α) :
    (pre ++ x :: xs).modify pre.length g = pre ++ g x :: xs := by
  induction pre with
  | nil => rfl
  | cons y ys ih => simp [ih]

theorem modify_append_of_lt (xs ys : List α) (k : Nat) (g : α → α) (h : k < xs.length) :
    (xs ++ ys).modify k g = xs.modify k g ++ ys := by
  induction xs generalizing k with
  | nil => simp at h
  | cons x xs ih =>
    cases k with
    | zero => rfl
    | succ k => simp [ih k (by simpa using h)]

theorem zip_map_self (f : α → β) (xs : List α) : xs.zip (xs.map f) = xs.map fun x => (x, f x) := by
  induction xs with
  | nil => rfl
  | cons x xs ih => simp [ih]

theorem foldl_modify_occurs (g : α → α) (n : Target) (key : β → Target) (f : β → α) (xs : List β) (pre : List α) :
    (occursFrom n pre.length (xs.map key)).foldl (fun l k => l.modify k g) (pre ++ xs.map f) =
      pre ++ xs.map fun x => if key x = n then g (f x) else f x := by
  induction xs generalizing pre with
  | nil => simp [occursFrom]
  | cons x xs ih =>
    have snoc : ∀ y : α, pre ++ y :: xs.map f = (pre ++ [y]) ++ xs.map f := by simp
    by_cases hx : key x = n
    · simp only [List.map_cons, occursFrom, hx, if_true, List.foldl_cons, modify_append_length]
      have := ih (pre ++ [g (f x)])
      simp only [List.length_append, List.length_singleton] at this
      rw [snoc, this]
      simp
    · simp only [List.map_cons, occursFrom, hx, if_false]
      have := ih (pre ++ [f x])
      simp only [List.length_append, List.length_singleton] at this
      rw [snoc, this]
      simp

/-! ## One instruction -/

/-- a valuation changed at one name -/
def setName (v : Target → Nat) (n : Target) (x : Nat) : Target → Nat := fun t => if t = n then x else v t

theorem foldl_setTarget_brTable (ks : List Nat) (x keep : Nat) (ts : List Nat) (rs : List (Nat × Nat)) :
    ks.foldl (fun j k => LInstr.setTarget k x j) (.brTable keep ts rs) =
      .brTable keep ts (ks.foldl (fun l k => l.modify k fun r => (x, r.2)) rs) := by
  induction ks generalizing rs with
  | nil => rfl
  | cons k ks ih => exact ih _

theorem foldl_setTarget_tryTable (ks : List Nat) (x : Nat) (cs : List (LCatch Nat)) :
    ks.foldl (fun j k => LInstr.setTarget k x j) (.tryTable cs) =
      .tryTable (ks.foldl (fun l k => l.modify k fun c => { c with target := x }) cs) := by
  induction ks generalizing cs with
  | nil => rfl
  | cons k ks ih => exact ih _

/-- writing every occurrence of a name in an instruction -/
theorem foldl_setTarget (v : Target → Nat) (n : Target) (x : Nat) (i : LInstr Target) :
    (occursFrom n 0 i.targets).foldl (fun j k => j.setTarget k x) (i.map v) = i.map (setName v n x) := by
  cases i with
  | brTable keep ts rs =>
    have := foldl_modify_occurs (fun r : Nat × Nat => (x, r.2)) n Prod.fst (fun r => (v r.1, r.2)) rs []
    simp only [List.length_nil, List.nil_append] at this
    simp only [LInstr.targets, LInstr.map, foldl_setTarget_brTable, this]
    congr 2
    funext r
    by_cases h : r.1 = n <;> simp [setName, h]
  | tryTable cs =>
    have := foldl_modify_occurs (fun c : LCatch Nat => { c with target := x }) n LCatch.target
      (fun c => ⟨c.kind, c.tag, v c.target, c.drop⟩) cs []
    simp only [List.length_nil, List.nil_append] at this
    simp only [LInstr.targets, LInstr.map, foldl_setTarget_tryTable, this]
    congr 2
    funext c
    by_cases h : c.target = n <;> simp [setName, h]
  | if_ t | else_ t | br t | brIf t | brOnNull t | brOnNonNull t | brOnCast _ _ _ t =>
    by_cases h : t = n <;> simp [LInstr.targets, LInstr.map, occursFrom, setName, h, LInstr.setTarget]
  | _ => rfl

/-! ## A buffer -/

theorem foldl_patch_here (pre : List (LInstr Nat)) (i : LInstr Nat) (rest : List (LInstr Nat)) (ks : List Nat)
    (x : Nat) :
    LState.applyPatches (pre ++ i :: rest) (ks.map (Patch.mk pre.length)) x =
      pre ++ ks.foldl (fun j k => j.setTarget k x) i :: rest := by
  induction ks generalizing i with
  | nil => rfl
  | cons k ks ih =>
    simp only [LState.applyPatches, List.map_cons, List.foldl_cons, modify_append_length] at ih ⊢
    exact ih _

theorem applyPatches_append (buf : List (LInstr Nat)) (ps qs : List Patch) (x : Nat) :
    LState.applyPatches buf (ps ++ qs) x = LState.applyPatches (LState.applyPatches buf ps x) qs x := by
  simp [LState.applyPatches]

theorem applyPatches_positionsFrom (v : Target → Nat) (n : Target) (x : Nat) (code : List (LInstr Target))
    (pre : List (LInstr Nat)) :
    LState.applyPatches (pre ++ code.map (LInstr.map v)) (positionsFrom n pre.length code) x =
      pre ++ code.map (LInstr.map (setName v n x)) := by
  induction code generalizing pre with
  | nil => simp [positionsFrom, LState.applyPatches]
  | cons i is ih =>
    have := ih (pre ++ [i.map (setName v n x)])
    simp only [List.length_append, List.length_singleton, List.append_assoc, List.singleton_append] at this
    simp only [List.map_cons, positionsFrom, applyPatches_append, foldl_patch_here, foldl_setTarget, this]

/-- **Patching is renaming.** The patch list of a name changes its value and nothing else; a METER opened behind the
code is out of reach. -/
theorem applyPatches_positions (v : Target → Nat) (n : Target) (x : Nat) (code : List (LInstr Target))
    (tail : List (LInstr Nat)) :
    LState.applyPatches (code.map (LInstr.map v) ++ tail) (positions n code) x =
      code.map (LInstr.map (setName v n x)) ++ tail := by
  have aux : ∀ (ps : List Patch) (b : List (LInstr Nat)), (∀ p ∈ ps, p.instr < b.length) →
      LState.applyPatches (b ++ tail) ps x = LState.applyPatches b ps x ++ tail := by
    intro ps
    induction ps with
    | nil => intro b _; rfl
    | cons p ps ih =>
      intro b hb
      have hp := hb p (by simp)
      simp only [LState.applyPatches, List.foldl_cons] at ih ⊢
      rw [modify_append_of_lt _ _ _ _ hp]
      exact ih _ fun q hq => by simpa using hb q (by simp [hq])
  have bound : ∀ (c : List (LInstr Target)) (idx : Nat), ∀ p ∈ positionsFrom n idx c, p.instr < idx + c.length := by
    intro c
    induction c with
    | nil => intro idx p hp; simp [positionsFrom] at hp
    | cons i is ih =>
      intro idx p hp
      simp only [positionsFrom, List.mem_append, List.mem_map] at hp
      rcases hp with ⟨k, -, rfl⟩ | hp
      · simp
      · have := ih (idx + 1) p hp
        simp only [List.length_cons]
        omega
  rw [aux _ _ (by simpa [positions] using bound code 0)]
  have := applyPatches_positionsFrom v n x code []
  simpa [positions] using congrArg (· ++ tail) this

theorem strip_applyPatches (buf : List (LInstr Nat)) (ps : List Patch) (x : Nat) :
    (LState.applyPatches buf ps x).map LInstr.strip = LState.applyPatches (buf.map LInstr.strip) ps x := by
  induction ps generalizing buf with
  | nil => rfl
  | cons p ps ih =>
    simp only [LState.applyPatches, List.foldl_cons] at ih ⊢
    rw [ih]
    congr 1
    apply List.ext_getElem?
    intro k
    simp only [List.getElem?_map, List.getElem?_modify]
    cases buf[k]? <;> simp
    split <;> simp [LInstr.strip_setTarget]

theorem codeSize_append {τ : Type} (c d : List (LInstr τ)) : codeSize (c ++ d) = codeSize c + codeSize d := by
  simp [codeSize]

theorem codeSize_map {τ υ : Type} (f : τ → υ) (c : List (LInstr τ)) : codeSize (c.map (LInstr.map f)) = codeSize c := by
  simp [codeSize, Function.comp_def]

theorem codeSize_strip {τ : Type} (c : List (LInstr τ)) : codeSize (c.map LInstr.strip) = codeSize c := by
  simp [codeSize, Function.comp_def]

end Wah
