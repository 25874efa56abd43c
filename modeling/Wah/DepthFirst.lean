/-
Depth-first evaluation with an explicit stack.

Model: nodes are numbers below `size`, each with a list of nodes it depends on and a function that computes its value
from theirs. A frame is a node and the position of the next dependency to visit. Nodes that are `settled` have their
values from the beginning. `log` is a ghost: the nodes evaluated so far, newest first.

Results: the nodes on the stack are distinct and wait for one another (`Inv`); the search fails iff an evaluation does
or the dependencies have a cycle, which it has found; otherwise every node that is not settled is evaluated once, after
those it depends on, and the values are the only solution of the equations (`run_ok`, `run_error`, `Inv.unique`).
-/
import Mathlib.Algebra.GroupWithZero.Nat
import Mathlib.Algebra.Order.BigOperators.Group.Finset
import Mathlib.Data.List.Chain
import Mathlib.Logic.Relation
import Mathlib.Tactic.Common

namespace Wah

namespace DepthFirst

inductive Visit where
  | fresh | opened | done
deriving DecidableEq, Repr

structure Frame where
  node : Nat
  next : Nat
deriving DecidableEq, Repr

structure State (V : Type) where
  visit : Nat → Visit
  stack : List Frame
  values : Nat → V
  log : List Nat

/-- what is to be evaluated: values only depend on those of dependencies, and dependencies are nodes -/
structure Problem (V E : Type) where
  size : Nat
  deps : Nat → List Nat
  eval : Nat → (Nat → V) → Except E V
  settled : Nat → Bool
  initial : Nat → V
  closed : ∀ s < size, ∀ d ∈ deps s, d < size
  reads : ∀ s (v v' : Nat → V), (∀ d ∈ deps s, v d = v' d) → eval s v = eval s v'

inductive Failure (E : Type) where
  | cyclic
  | eval (e : E)
  | fuel
deriving DecidableEq, Repr

variable {V E : Type} (P : Problem V E)

/-! ## The search -/

/-- one iteration with the frame `f` on top of `rest`: visits the next dependency, or evaluates the node -/
def step (f : Frame) (rest : List Frame) (st : State V) : Except (Failure E) (State V) :=
  match (P.deps f.node)[f.next]? with
  | some d =>
    match st.visit d with
    | .done => .ok { st with stack := ⟨f.node, f.next + 1⟩ :: rest }
    | .opened => .error .cyclic
    | .fresh =>
      .ok { st with visit := Function.update st.visit d .opened, stack := ⟨d, 0⟩ :: ⟨f.node, f.next + 1⟩ :: rest }
  | none =>
    match P.eval f.node st.values with
    | .error e => .error (.eval e)
    | .ok v =>
      .ok { visit := Function.update st.visit f.node .done, stack := rest,
            values := Function.update st.values f.node v, log := f.node :: st.log }

/-- iterates until the stack is empty -/
def drain : Nat → State V → Except (Failure E) (State V)
  | 0, st => if st.stack = [] then .ok st else .error .fuel
  | n + 1, st =>
    match st.stack with
    | [] => .ok st
    | f :: rest =>
      match step P f rest st with
      | .ok st' => drain n st'
      | .error e => .error e

def openRoot (root : Nat) (st : State V) : State V :=
  { st with visit := Function.update st.visit root .opened, stack := [⟨root, 0⟩] }

def visitRoots (fuel : Nat) : List Nat → State V → Except (Failure E) (State V)
  | [], st => .ok st
  | root :: roots, st =>
    if st.visit root = .fresh then
      match drain P fuel (openRoot root st) with
      | .ok st' => visitRoots fuel roots st'
      | .error e => .error e
    else visitRoots fuel roots st

def start : State V where
  visit := fun s => if P.settled s then .done else .fresh
  stack := []
  values := P.initial
  log := []

/-- a bound on the iterations for any root -/
def work : Nat := ∑ s ∈ Finset.range P.size, ((P.deps s).length + 2)

def run : Except (Failure E) (State V) := visitRoots P (work P) (List.range P.size) (start P)

/-- the states a search goes through -/
inductive Reaches : State V → State V → Prop where
  | refl (st : State V) : Reaches st st
  | root {st st' : State V} (root : Nat) (h : Reaches st st') (hempty : st'.stack = []) (hroot : root < P.size)
      (hfresh : st'.visit root = .fresh) : Reaches st (openRoot root st')
  | step {st st' st'' : State V} {f : Frame} {rest : List Frame} (h : Reaches st st') (hstack : st'.stack = f :: rest)
      (hstep : step P f rest st' = .ok st'') : Reaches st st''

/-! ## Equations and cycles -/

/-- a node that is not settled depends on another -/
def Dep (s d : Nat) : Prop := s < P.size ∧ P.settled s = false ∧ d ∈ P.deps s

def Cyclic : Prop := ∃ s, Relation.TransGen (Dep P) s s

/-- the settled values, and an equation for every other node -/
structure Solves (v : Nat → V) : Prop where
  settled : ∀ s, P.settled s = true → v s = P.initial s
  eval : ∀ s < P.size, P.settled s = false → P.eval s v = .ok (v s)

/-! ## The invariant -/

variable {P} {st st' : State V} {f : Frame} {rest : List Frame} {d : Nat}

/-- a frame has opened the node of the frame above it; the dependencies before are done -/
def Waits (P : Problem V E) (visit : Nat → Visit) (child parent : Frame) : Prop :=
  ∃ k, parent.next = k + 1 ∧ (P.deps parent.node)[k]? = some child.node ∧
    ∀ j < k, ∀ d, (P.deps parent.node)[j]? = some d → visit d = .done

structure Inv (P : Problem V E) (st : State V) : Prop where
  settled : ∀ s, P.settled s = true → st.visit s = .done ∧ st.values s = P.initial s
  opened : ∀ s, st.visit s = .opened ↔ s ∈ st.stack.map Frame.node
  nodup : (st.stack.map Frame.node).Nodup
  bound : ∀ f ∈ st.stack, f.node < P.size
  chain : st.stack.IsChain (Waits P st.visit)
  seen : ∀ f rest, st.stack = f :: rest → ∀ j < f.next, ∀ d, (P.deps f.node)[j]? = some d → st.visit d = .done
  logged : ∀ s, s ∈ st.log ↔ st.visit s = .done ∧ P.settled s = false
  logNodup : st.log.Nodup
  logBound : ∀ s ∈ st.log, s < P.size
  order : ∀ a s b, st.log = a ++ s :: b → ∀ d ∈ P.deps s, d ∈ b ∨ P.settled d = true
  solved : ∀ s ∈ st.log, P.eval s st.values = .ok (st.values s)

theorem inv_start (P : Problem V E) : Inv P (start P) := by
  have hvisit : ∀ s, (start P).visit s ≠ .opened := by
    intro s
    unfold start
    dsimp only
    split_ifs <;> simp
  refine ⟨fun s hs => ⟨if_pos hs, rfl⟩, fun s => ?_, List.nodup_nil, ?_, .nil, ?_, fun s => ?_, List.nodup_nil, ?_, ?_, ?_⟩
  · exact ⟨fun h => absurd h (hvisit s), fun h => absurd h List.not_mem_nil⟩
  · exact fun f hf => absurd hf List.not_mem_nil
  · exact fun f rest h => by cases h
  · refine ⟨fun h => absurd h List.not_mem_nil, fun ⟨h, hs⟩ => ?_⟩
    simp [start, hs] at h
  · exact fun s hs => absurd hs List.not_mem_nil
  · exact fun a s b h => absurd (h.symm ▸ List.mem_append_right a List.mem_cons_self) List.not_mem_nil
  · exact fun s hs => absurd hs List.not_mem_nil

/-- done nodes stay done when another one changes -/
theorem Waits.mono {visit visit' : Nat → Visit} {child parent : Frame} (h : Waits P visit child parent)
    (hv : ∀ d, visit d = .done → visit' d = .done) : Waits P visit' child parent := by
  obtain ⟨k, hk, hchild, hdone⟩ := h
  exact ⟨k, hk, hchild, fun j hj d hd => hv d (hdone j hj d hd)⟩

/-- opening a fresh node leaves the done ones alone -/
theorem update_opened_done {visit : Nat → Visit} (hfresh : visit d = .fresh) (s : Nat) :
    Function.update visit d .opened s = .done ↔ visit s = .done := by
  by_cases heq : s = d
  · simp [heq, hfresh]
  · rw [Function.update_of_ne heq]

/-- a new root on an empty stack -/
theorem Inv.root {root : Nat} (h : Inv P st) (hempty : st.stack = []) (hroot : root < P.size)
    (hfresh : st.visit root = .fresh) : Inv P (openRoot root st) where
  settled s hs := ⟨(update_opened_done hfresh s).mpr (h.settled s hs).1, (h.settled s hs).2⟩
  opened s := by
    have hopen := h.opened s
    rw [hempty] at hopen
    by_cases heq : s = root
    · simp [openRoot, heq]
    · simpa [openRoot, heq] using hopen
  nodup := List.nodup_singleton _
  bound f hf := by
    rw [List.mem_singleton.mp hf]
    exact hroot
  chain := .singleton _
  seen f rest hstack j hj := by
    obtain ⟨rfl, -⟩ := List.cons.inj hstack
    exact absurd hj (Nat.not_lt_zero j)
  logged s := (h.logged s).trans (and_congr_left fun _ => (update_opened_done hfresh s).symm)
  logNodup := h.logNodup
  logBound := h.logBound
  order := h.order
  solved := h.solved

/-- the next dependency is done already -/
theorem Inv.advance (h : Inv P st) (hstack : st.stack = f :: rest) (hd : (P.deps f.node)[f.next]? = some d)
    (hdone : st.visit d = .done) : Inv P { st with stack := ⟨f.node, f.next + 1⟩ :: rest } where
  settled := h.settled
  opened s := by
    have hopen := h.opened s
    rwa [hstack] at hopen
  nodup := by
    have hnodup := h.nodup
    rwa [hstack] at hnodup
  bound g hg := by
    obtain rfl | hg := List.mem_cons.mp hg
    · exact h.bound f (hstack ▸ List.mem_cons_self)
    · exact h.bound g (hstack ▸ List.mem_cons_of_mem _ hg)
  chain := by
    have hchain := h.chain
    rw [hstack] at hchain
    cases rest with
    | nil => exact .singleton _
    | cons p rest =>
      rw [List.isChain_cons_cons] at hchain ⊢
      exact hchain
  seen g rest' hg j hj d' hd' := by
    obtain ⟨rfl, -⟩ := List.cons.inj hg
    obtain hj | rfl := Nat.lt_succ_iff_lt_or_eq.mp hj
    · exact h.seen f rest hstack j hj d' hd'
    · rw [hd] at hd'
      exact Option.some.inj hd' ▸ hdone
  logged := h.logged
  logNodup := h.logNodup
  logBound := h.logBound
  order := h.order
  solved := h.solved

/-- the next dependency is opened -/
theorem Inv.push (h : Inv P st) (hstack : st.stack = f :: rest) (hd : (P.deps f.node)[f.next]? = some d)
    (hfresh : st.visit d = .fresh) :
    Inv P { st with
      visit := Function.update st.visit d .opened, stack := ⟨d, 0⟩ :: ⟨f.node, f.next + 1⟩ :: rest } where
  settled s hs := ⟨(update_opened_done hfresh s).mpr (h.settled s hs).1, (h.settled s hs).2⟩
  opened s := by
    have hopen := h.opened s
    rw [hstack] at hopen
    by_cases heq : s = d
    · simp [heq]
    · simpa [heq] using hopen
  nodup := by
    have hnodup := h.nodup
    rw [hstack] at hnodup
    refine List.nodup_cons.mpr ⟨fun hmem => ?_, hnodup⟩
    have hopen := (h.opened d).mpr (by rw [hstack]; exact hmem)
    rw [hfresh] at hopen
    cases hopen
  bound g hg := by
    have hf := h.bound f (hstack ▸ List.mem_cons_self)
    obtain rfl | hg := List.mem_cons.mp hg
    · exact P.closed f.node hf d (List.mem_of_getElem? hd)
    obtain rfl | hg := List.mem_cons.mp hg
    · exact hf
    · exact h.bound g (hstack ▸ List.mem_cons_of_mem _ hg)
  chain := by
    have hmono : ∀ s, st.visit s = .done → Function.update st.visit d .opened s = .done := fun s =>
      (update_opened_done hfresh s).mpr
    refine List.isChain_cons_cons.mpr ⟨⟨f.next, rfl, hd, fun j hj d' hd' => ?_⟩, ?_⟩
    · exact hmono d' (h.seen f rest hstack j hj d' hd')
    · have hchain := (h.chain.imp fun _ _ hw => hw.mono hmono)
      rw [hstack] at hchain
      cases rest with
      | nil => exact .singleton _
      | cons p rest =>
        rw [List.isChain_cons_cons] at hchain ⊢
        exact hchain
  seen g rest' hg j hj := by
    obtain ⟨rfl, -⟩ := List.cons.inj hg
    exact absurd hj (Nat.not_lt_zero j)
  logged s := (h.logged s).trans (and_congr_left fun _ => (update_opened_done hfresh s).symm)
  logNodup := h.logNodup
  logBound := h.logBound
  order := h.order
  solved := h.solved

/-- all dependencies of the top are done when none is next -/
theorem Inv.deps_done (h : Inv P st) (hstack : st.stack = f :: rest) (hnone : (P.deps f.node)[f.next]? = none)
    (hd : d ∈ P.deps f.node) : st.visit d = .done := by
  obtain ⟨j, hj⟩ := List.getElem?_of_mem hd
  have hlt := (List.getElem?_eq_some_iff.mp hj).1
  have hle := List.getElem?_eq_none_iff.mp hnone
  exact h.seen f rest hstack j (Nat.lt_of_lt_of_le hlt hle) d hj

/-- the dependencies of an evaluated node are done -/
theorem Inv.done_of_order {a b : List Nat} {s : Nat} (h : Inv P st) (hlog : st.log = a ++ s :: b) (hd : d ∈ P.deps s) :
    st.visit d = .done := by
  obtain hb | hset := h.order a s b hlog d hd
  · exact ((h.logged d).mp (hlog ▸ List.mem_append_right a (List.mem_cons_of_mem s hb))).1
  · exact (h.settled d hset).1

/-- the node on top is evaluated -/
theorem Inv.finish {v : V} (h : Inv P st) (hstack : st.stack = f :: rest) (hnone : (P.deps f.node)[f.next]? = none)
    (hv : P.eval f.node st.values = .ok v) :
    Inv P { visit := Function.update st.visit f.node .done, stack := rest,
            values := Function.update st.values f.node v, log := f.node :: st.log } := by
  have hopen : st.visit f.node = .opened := (h.opened f.node).mpr (by rw [hstack]; exact List.mem_cons_self)
  have hne : ∀ s, st.visit s = .done → s ≠ f.node := by
    rintro s hs rfl
    rw [hopen] at hs
    cases hs
  have hmono : ∀ s, st.visit s = .done → Function.update st.visit f.node .done s = .done := fun s hs =>
    (Function.update_of_ne (hne s hs) _ _).trans hs
  have hkeep : ∀ s, st.visit s = .done → Function.update st.values f.node v s = st.values s := fun s hs =>
    Function.update_of_ne (hne s hs) _ _
  have hunsettled : P.settled f.node = false := by
    cases hset : P.settled f.node with
    | false => rfl
    | true => exact absurd rfl (hne f.node (h.settled f.node hset).1)
  have hnodup := h.nodup
  have hchain := h.chain
  rw [hstack] at hnodup hchain
  obtain ⟨hnotin, hnodup⟩ := List.nodup_cons.mp hnodup
  refine ⟨fun s hs => ?_, fun s => ?_, hnodup, ?_, ?_, ?_, fun s => ?_, ?_, ?_, ?_, ?_⟩
  · obtain ⟨hdone, hval⟩ := h.settled s hs
    exact ⟨hmono s hdone, (hkeep s hdone).trans hval⟩
  · have hopened := h.opened s
    rw [hstack, List.map_cons, List.mem_cons] at hopened
    by_cases heq : s = f.node
    · simpa [heq] using hnotin
    · simpa [heq] using hopened
  · exact fun g hg => h.bound g (hstack ▸ List.mem_cons_of_mem _ hg)
  · cases rest with
    | nil => exact .nil
    | cons p rest => exact (List.isChain_cons_cons.mp hchain).2.imp fun _ _ hw => hw.mono hmono
  · rintro p rest' rfl j hj d hd
    obtain ⟨⟨k, hk, hchild, hdone⟩, -⟩ := List.isChain_cons_cons.mp hchain
    rw [hk] at hj
    obtain hj | rfl := Nat.lt_succ_iff_lt_or_eq.mp hj
    · exact hmono d (hdone j hj d hd)
    · rw [hchild] at hd
      rw [← Option.some.inj hd]
      exact Function.update_self _ _ _
  · by_cases heq : s = f.node
    · simp [heq, hunsettled]
    · simpa [heq] using h.logged s
  · refine List.nodup_cons.mpr ⟨fun hmem => ?_, h.logNodup⟩
    exact hne f.node ((h.logged f.node).mp hmem).1 rfl
  · intro s hs
    obtain rfl | hs := List.mem_cons.mp hs
    · exact h.bound f (hstack ▸ List.mem_cons_self)
    · exact h.logBound s hs
  · intro a s b hlog d hd
    cases a with
    | nil =>
      obtain ⟨rfl, rfl⟩ := List.cons.inj hlog
      cases hset : P.settled d with
      | true => exact .inr rfl
      | false => exact .inl ((h.logged d).mpr ⟨h.deps_done hstack hnone hd, hset⟩)
    | cons x a => exact h.order a s b (List.cons.inj hlog).2 d hd
  · intro s hs
    obtain rfl | hs := List.mem_cons.mp hs
    · calc P.eval f.node (Function.update st.values f.node v)
          = P.eval f.node st.values := P.reads _ _ _ fun d hd => hkeep d (h.deps_done hstack hnone hd)
        _ = .ok v := hv
        _ = .ok (Function.update st.values f.node v f.node) := by rw [Function.update_self]
    · obtain ⟨a, b, hlog⟩ := List.append_of_mem hs
      calc P.eval s (Function.update st.values f.node v)
          = P.eval s st.values := P.reads _ _ _ fun d hd => hkeep d (h.done_of_order hlog hd)
        _ = .ok (st.values s) := h.solved s hs
        _ = .ok (Function.update st.values f.node v s) := by rw [hkeep s ((h.logged s).mp hs).1]

/-- **One iteration** keeps the invariant. -/
theorem Inv.step (h : Inv P st) (hstack : st.stack = f :: rest) (hstep : step P f rest st = .ok st') : Inv P st' := by
  unfold DepthFirst.step at hstep
  cases hd : (P.deps f.node)[f.next]? with
  | some d =>
    rw [hd] at hstep
    dsimp only at hstep
    cases hv : st.visit d with
    | fresh =>
      rw [hv] at hstep
      cases hstep
      exact h.push hstack hd hv
    | opened => rw [hv] at hstep; cases hstep
    | done =>
      rw [hv] at hstep
      cases hstep
      exact h.advance hstack hd hv
  | none =>
    rw [hd] at hstep
    dsimp only at hstep
    cases hv : P.eval f.node st.values with
    | error e => rw [hv] at hstep; cases hstep
    | ok v =>
      rw [hv] at hstep
      cases hstep
      exact h.finish hstack hd hv

/-- **Every state** of a search has the invariant. -/
theorem Reaches.inv (h : Reaches P (start P) st) : Inv P st := by
  generalize hst : start P = st₀ at h
  induction h with
  | refl => exact hst ▸ inv_start P
  | root root _ hempty hroot hfresh ih => exact ih.root hempty hroot hfresh
  | step _ hstack hstep ih => exact ih.step hstack hstep

/-! ## The search ends -/

/-- the iterations that fresh nodes may still cost -/
def freshWork (P : Problem V E) (visit : Nat → Visit) : Nat :=
  ∑ s ∈ Finset.range P.size, if visit s = .fresh then (P.deps s).length + 2 else 0

def stackWork (P : Problem V E) (stack : List Frame) : Nat :=
  (stack.map fun f => (P.deps f.node).length - f.next + 1).sum

def measure (P : Problem V E) (st : State V) : Nat := freshWork P st.visit + stackWork P st.stack

theorem freshWork_le_work (P : Problem V E) (visit : Nat → Visit) : freshWork P visit ≤ work P := by
  refine Finset.sum_le_sum fun s _ => ?_
  split_ifs
  · exact Nat.le_refl _
  · exact Nat.zero_le _

/-- opening a node takes its share away -/
theorem freshWork_open {visit : Nat → Visit} (hd : d < P.size) (hfresh : visit d = .fresh) :
    (P.deps d).length + 2 + freshWork P (Function.update visit d .opened) = freshWork P visit := by
  unfold freshWork
  rw [← Finset.add_sum_erase _ _ (Finset.mem_range.mpr hd), ← Finset.add_sum_erase _ _ (Finset.mem_range.mpr hd)]
  have hrest : ∀ s ∈ (Finset.range P.size).erase d, Function.update visit d .opened s = visit s := fun s hs =>
    Function.update_of_ne (Finset.ne_of_mem_erase hs) _ _
  rw [Finset.sum_congr rfl fun s hs => by rw [hrest s hs]]
  simp [hfresh]

theorem freshWork_finish {visit : Nat → Visit} {s : Nat} (hopen : visit s = .opened) :
    freshWork P (Function.update visit s .done) = freshWork P visit := by
  refine Finset.sum_congr rfl fun k _ => ?_
  by_cases hk : k = s
  · simp [hk, hopen]
  · rw [Function.update_of_ne hk]

/-- what one iteration does to the visits, and that it makes progress -/
theorem step_progress (h : Inv P st) (hstack : st.stack = f :: rest) (hstep : step P f rest st = .ok st') :
    measure P st' < measure P st ∧ ∀ s, st.visit s ≠ .fresh → st'.visit s ≠ .fresh := by
  unfold measure
  rw [hstack]
  have hmem : f ∈ st.stack := hstack ▸ List.mem_cons_self
  unfold DepthFirst.step at hstep
  cases hd : (P.deps f.node)[f.next]? with
  | some d =>
    have hlt := (List.getElem?_eq_some_iff.mp hd).1
    rw [hd] at hstep
    dsimp only at hstep
    cases hv : st.visit d with
    | fresh =>
      rw [hv] at hstep
      cases hstep
      have hopen := freshWork_open (P.closed f.node (h.bound f hmem) d (List.mem_of_getElem? hd)) hv
      refine ⟨?_, fun s hs => ?_⟩
      · simp only [stackWork, List.map_cons, List.sum_cons]
        omega
      · by_cases heq : s = d
        · simp [heq]
        · simpa [heq] using hs
    | opened => rw [hv] at hstep; cases hstep
    | done =>
      rw [hv] at hstep
      cases hstep
      refine ⟨?_, fun s hs => hs⟩
      simp only [stackWork, List.map_cons, List.sum_cons]
      omega
  | none =>
    have hopen : st.visit f.node = .opened := (h.opened f.node).mpr (List.mem_map_of_mem hmem)
    rw [hd] at hstep
    dsimp only at hstep
    cases hv : P.eval f.node st.values with
    | error e => rw [hv] at hstep; cases hstep
    | ok v =>
      rw [hv] at hstep
      cases hstep
      refine ⟨?_, fun s hs => ?_⟩
      · simp only [stackWork, List.map_cons, List.sum_cons, freshWork_finish hopen]
        omega
      · by_cases heq : s = f.node
        · simp [heq]
        · simpa [heq] using hs

/-- the search stops with `e` in a state it reaches -/
def Stops (P : Problem V E) (e : Failure E) : Prop :=
  ∃ st f rest, Reaches P (start P) st ∧ st.stack = f :: rest ∧ step P f rest st = .error e

/-- the search reaches a state with an empty stack, where what was visited in `st` still is -/
def Rests (P : Problem V E) (st st' : State V) : Prop :=
  Reaches P (start P) st' ∧ st'.stack = [] ∧ ∀ s, st.visit s ≠ .fresh → st'.visit s ≠ .fresh

theorem drain_spec {n : Nat} (h : Reaches P (start P) st) (hn : measure P st ≤ n) :
    (∃ st', drain P n st = .ok st' ∧ Rests P st st') ∨ ∃ e, drain P n st = .error e ∧ Stops P e := by
  induction n generalizing st with
  | zero =>
    have hempty : st.stack = [] := by
      cases hstack : st.stack with
      | nil => rfl
      | cons f rest => simp [measure, stackWork, hstack] at hn
    exact .inl ⟨st, by simp [drain, hempty], h, hempty, fun s hs => hs⟩
  | succ n ih =>
    cases hstack : st.stack with
    | nil => exact .inl ⟨st, by simp [drain, hstack], h, hstack, fun s hs => hs⟩
    | cons f rest =>
      cases hstep : step P f rest st with
      | error e => exact .inr ⟨e, by simp [drain, hstack, hstep], st, f, rest, h, hstack, hstep⟩
      | ok st₁ =>
        obtain ⟨hlt, hvisit⟩ := step_progress h.inv hstack hstep
        have heq : drain P (n + 1) st = drain P n st₁ := by simp [drain, hstack, hstep]
        rw [heq]
        obtain ⟨st', hok, hreach, hempty, hvisit'⟩ | hfail := ih (h.step hstack hstep) (by omega)
        · exact .inl ⟨st', hok, hreach, hempty, fun s hs => hvisit' s (hvisit s hs)⟩
        · exact .inr hfail

theorem visitRoots_spec {roots : List Nat} (h : Reaches P (start P) st) (hempty : st.stack = [])
    (hroots : ∀ root ∈ roots, root < P.size) :
    (∃ st', visitRoots P (work P) roots st = .ok st' ∧ Rests P st st' ∧ ∀ root ∈ roots, st'.visit root ≠ .fresh) ∨
      ∃ e, visitRoots P (work P) roots st = .error e ∧ Stops P e := by
  induction roots generalizing st with
  | nil => exact .inl ⟨st, rfl, ⟨h, hempty, fun s hs => hs⟩, fun root hroot => absurd hroot List.not_mem_nil⟩
  | cons root roots ih =>
    obtain ⟨hroot, hroots⟩ := List.forall_mem_cons.mp hroots
    unfold visitRoots
    split_ifs with hfresh
    · have hopen := h.root root hempty hroot hfresh
      have hvisit : ∀ s, st.visit s ≠ .fresh → (openRoot root st).visit s ≠ .fresh := by
        intro s hs
        by_cases heq : s = root
        · simp [openRoot, heq]
        · simpa [openRoot, heq] using hs
      have hn : measure P (openRoot root st) ≤ work P := by
        have hshare := freshWork_open hroot hfresh
        have hle := freshWork_le_work P st.visit
        simp only [measure, openRoot, stackWork, List.map_cons, List.map_nil, List.sum_cons, List.sum_nil]
        omega
      obtain ⟨st₁, hok, hreach, hempty₁, hvisit₁⟩ | ⟨e, he, hstop⟩ := drain_spec hopen hn
      · simp only [hok]
        obtain ⟨st', hok', ⟨hreach', hempty', hvisit'⟩, hdone⟩ | hfail := ih hreach hempty₁ hroots
        · refine .inl ⟨st', hok', ⟨hreach', hempty', fun s hs => hvisit' s (hvisit₁ s (hvisit s hs))⟩, ?_⟩
          refine List.forall_mem_cons.mpr ⟨hvisit' root (hvisit₁ root ?_), hdone⟩
          simp [openRoot]
        · exact .inr hfail
      · exact .inr ⟨e, by simp only [he], hstop⟩
    · obtain ⟨st', hok, ⟨hreach, hempty', hvisit⟩, hdone⟩ | hfail := ih h hempty hroots
      · exact .inl ⟨st', hok, ⟨hreach, hempty', hvisit⟩, List.forall_mem_cons.mpr ⟨hvisit root hfresh, hdone⟩⟩
      · exact .inr hfail

/-- **The search ends**: with all nodes done, or where an iteration fails. -/
theorem run_spec (P : Problem V E) :
    (∃ st, run P = .ok st ∧ Reaches P (start P) st ∧ ∀ s < P.size, st.visit s = .done) ∨
      ∃ e, run P = .error e ∧ Stops P e := by
  obtain ⟨st, hok, ⟨hreach, hempty, -⟩, hdone⟩ | hfail :=
    visitRoots_spec (Reaches.refl (start P)) rfl fun (root : Nat) (hroot : root ∈ List.range P.size) =>
      List.mem_range.mp hroot
  · refine .inl ⟨st, hok, hreach, fun s hs => ?_⟩
    have hopened : st.visit s ≠ .opened := by
      intro hopen
      have hmem := (hreach.inv.opened s).mp hopen
      rw [hempty] at hmem
      cases hmem
    have hfresh := hdone s (List.mem_range.mpr hs)
    cases hv : st.visit s with
    | fresh => exact absurd hv hfresh
    | opened => exact absurd hv hopened
    | done => rfl
  · exact .inr hfail

/-! ## Cycles -/

/-- the frames below depend on the node on top -/
theorem chain_path (hchain : (f :: rest).IsChain (Waits P st.visit))
    (hdep : ∀ g ∈ f :: rest, g.node < P.size ∧ P.settled g.node = false) :
    ∀ g ∈ f :: rest, Relation.ReflTransGen (Dep P) g.node f.node := by
  induction rest generalizing f with
  | nil =>
    intro g hg
    rw [List.mem_singleton.mp hg]
  | cons p rest ih =>
    obtain ⟨⟨k, -, hchild, -⟩, hchain⟩ := List.isChain_cons_cons.mp hchain
    obtain ⟨hlt, hset⟩ := hdep p (List.mem_cons_of_mem _ List.mem_cons_self)
    have hstep : Dep P p.node f.node := ⟨hlt, hset, List.mem_of_getElem? hchild⟩
    intro g hg
    obtain rfl | hg := List.mem_cons.mp hg
    · exact .refl
    · exact (ih hchain (fun g hg => hdep g (List.mem_cons_of_mem _ hg)) g hg).tail hstep

/-- what is on the stack is not settled -/
theorem Inv.unsettled (h : Inv P st) (hf : f ∈ st.stack) : P.settled f.node = false := by
  cases hset : P.settled f.node with
  | false => rfl
  | true =>
    have hopen := (h.opened f.node).mpr (List.mem_map_of_mem hf)
    rw [(h.settled f.node hset).1] at hopen
    cases hopen

/-- an opened dependency closes a cycle -/
theorem cyclic_of_stops (h : Stops P .cyclic) : Cyclic P := by
  obtain ⟨st, f, rest, hreach, hstack, hstep⟩ := h
  have hinv := hreach.inv
  unfold step at hstep
  cases hd : (P.deps f.node)[f.next]? with
  | none =>
    rw [hd] at hstep
    dsimp only at hstep
    split at hstep <;> cases hstep
  | some d =>
    rw [hd] at hstep
    dsimp only at hstep
    have hopen : st.visit d = .opened := by
      cases hv : st.visit d with
      | opened => rfl
      | _ => rw [hv] at hstep; cases hstep
    obtain ⟨g, hg, rfl⟩ := List.mem_map.mp ((hinv.opened d).mp hopen)
    have hf : f ∈ st.stack := hstack ▸ List.mem_cons_self
    have hchain : (f :: rest).IsChain (Waits P st.visit) := hstack ▸ hinv.chain
    have hpath := chain_path hchain
      (fun g hg => ⟨hinv.bound g (hstack ▸ hg), hinv.unsettled (hstack ▸ hg)⟩) g (hstack ▸ hg)
    exact ⟨g.node, .tail' hpath ⟨hinv.bound f hf, hinv.unsettled hf, List.mem_of_getElem? hd⟩⟩

/-- what an evaluated node depends on, over any number of steps, was evaluated before -/
theorem Inv.before {a b : List Nat} {s : Nat} (h : Inv P st) (hlog : st.log = a ++ s :: b)
    (hpath : Relation.TransGen (Dep P) s d) (hd : P.settled d = false) : d ∈ b := by
  induction hpath with
  | single hdep => exact (h.order a s b hlog _ hdep.2.2).resolve_right (by rw [hd]; exact Bool.false_ne_true)
  | @tail m d' _ hdep ih =>
    obtain ⟨a', b', hb⟩ := List.append_of_mem (ih hdep.2.1)
    have hlog' : st.log = (a ++ s :: a') ++ m :: b' := by rw [hlog, hb, List.append_assoc, List.cons_append]
    have hmem := (h.order _ _ b' hlog' _ hdep.2.2).resolve_right (by rw [hd]; exact Bool.false_ne_true)
    exact hb ▸ List.mem_append_right a' (List.mem_cons_of_mem _ hmem)

/-- when all nodes are done there was no cycle -/
theorem Inv.acyclic (h : Inv P st) (hdone : ∀ s < P.size, st.visit s = .done) : ¬Cyclic P := by
  rintro ⟨s, hpath⟩
  obtain ⟨d, hdep, -⟩ := Relation.TransGen.head'_iff.mp hpath
  have hmem := (h.logged s).mpr ⟨hdone s hdep.1, hdep.2.1⟩
  obtain ⟨a, b, hlog⟩ := List.append_of_mem hmem
  have hb := h.before hlog hpath hdep.2.1
  have hnodup := h.logNodup
  rw [hlog] at hnodup
  exact (List.nodup_cons.mp (List.nodup_append.mp hnodup).2.1).1 hb

/-! ## Results -/

/-- the stack never holds more than all nodes -/
theorem Reaches.stack_le (h : Reaches P (start P) st) : st.stack.length ≤ P.size := by
  have hsub : st.stack.map Frame.node ⊆ List.range P.size := by
    intro s hs
    obtain ⟨f, hf, rfl⟩ := List.mem_map.mp hs
    exact List.mem_range.mpr (h.inv.bound f hf)
  calc st.stack.length
      = (st.stack.map Frame.node).length := (List.length_map _).symm
    _ ≤ (List.range P.size).length := (List.subperm_of_subset h.inv.nodup hsub).length_le
    _ = P.size := List.length_range

/-- the same problem with another evaluation -/
def Problem.withEval (P : Problem V E) (eval : Nat → (Nat → V) → Except E V)
    (reads : ∀ s (v v' : Nat → V), (∀ d ∈ P.deps s, v d = v' d) → eval s v = eval s v') : Problem V E :=
  { P with eval := eval, reads := reads }

/-- a state of one search is one of the other when the evaluations agree on it -/
theorem Inv.withEval {eval : Nat → (Nat → V) → Except E V}
    {reads : ∀ s (v v' : Nat → V), (∀ d ∈ P.deps s, v d = v' d) → eval s v = eval s v'} (h : Inv P st)
    (hsolved : ∀ s ∈ st.log, eval s st.values = .ok (st.values s)) : Inv (P.withEval eval reads) st :=
  ⟨h.settled, h.opened, h.nodup, h.bound, h.chain, h.seen, h.logged, h.logNodup, h.logBound, h.order, hsolved⟩

/-- any two solutions agree on what has been evaluated -/
theorem Inv.unique {v : Nat → V} {s : Nat} (h : Inv P st) (hv : Solves P v) (hs : s ∈ st.log) :
    v s = st.values s := by
  have hall : ∀ b a, st.log = a ++ b → ∀ s ∈ b, v s = st.values s := by
    intro b
    induction b with
    | nil => exact fun a _ s hs => absurd hs List.not_mem_nil
    | cons x b ih =>
      intro a hlog s hs
      have hb := ih (a ++ [x]) (by rw [hlog, List.append_assoc]; rfl)
      obtain rfl | hs := List.mem_cons.mp hs
      · have hmem : s ∈ st.log := hlog ▸ List.mem_append_right a List.mem_cons_self
        have hsame := P.reads s v st.values fun d hd => by
          obtain hd | hset := h.order a s b hlog d hd
          · exact hb d hd
          · rw [hv.settled d hset, (h.settled d hset).2]
        have heq := hv.eval s (h.logBound s hmem) ((h.logged s).mp hmem).2
        rw [hsame, h.solved s hmem] at heq
        exact (Except.ok.inj heq).symm
      · exact hb s hs
  exact hall st.log [] rfl s hs

/-- the state in which a search succeeds -/
theorem run_inv (h : run P = .ok st) : Inv P st ∧ ∀ s < P.size, P.settled s = false → s ∈ st.log := by
  obtain ⟨st', hok, hreach, hdone⟩ | ⟨e, he, -⟩ := run_spec P
  · obtain rfl := Except.ok.inj (h.symm.trans hok)
    exact ⟨hreach.inv, fun s hs hset => (hreach.inv.logged s).mpr ⟨hdone s hs, hset⟩⟩
  · rw [he] at h
    cases h

theorem run_empty (h : P.size = 0) : run P = .ok (start P) := by
  rw [run, h, List.range_zero]
  rfl

/-- **A search that succeeds.** Every node that is not settled has been evaluated once, after those it depends on; the
values solve the equations, and no others do. There is no cycle. -/
theorem run_ok (h : run P = .ok st) :
    (∀ s < P.size, P.settled s = false → st.log.count s = 1) ∧
      (∀ a s b, st.log = a ++ s :: b → ∀ d ∈ P.deps s, d ∈ b ∨ P.settled d = true) ∧
      Solves P st.values ∧ (∀ v, Solves P v → ∀ s < P.size, v s = st.values s) ∧ ¬Cyclic P := by
  obtain ⟨hinv, hlogged⟩ := run_inv h
  refine ⟨fun s hs hset => List.count_eq_one_of_mem hinv.logNodup (hlogged s hs hset), hinv.order,
    ⟨fun s hs => (hinv.settled s hs).2, fun s hs hset => hinv.solved s (hlogged s hs hset)⟩, fun v hv s hs => ?_,
    hinv.acyclic fun s hs => ?_⟩
  · cases hset : P.settled s with
    | true => rw [hv.settled s hset, (hinv.settled s hset).2]
    | false => exact hinv.unique hv (hlogged s hs hset)
  · cases hset : P.settled s with
    | true => exact (hinv.settled s hset).1
    | false => exact ((hinv.logged s).mp (hlogged s hs hset)).1

/-- it fails otherwise only where an evaluation does, with all dependencies evaluated -/
theorem run_error {e : Failure E} (h : run P = .error e) :
    (e = .cyclic ∧ Cyclic P) ∨ ∃ e' st s, e = .eval e' ∧ Reaches P (start P) st ∧ s < P.size ∧
      P.settled s = false ∧ (∀ d ∈ P.deps s, st.visit d = .done) ∧ P.eval s st.values = .error e' := by
  obtain ⟨st, hok, -⟩ | ⟨e, he, hstop⟩ := run_spec P
  · rw [hok] at h
    cases h
  · obtain rfl := Except.error.inj (he.symm.trans h)
    have hcyclic := fun hc : e = .cyclic => cyclic_of_stops (hc ▸ hstop)
    obtain ⟨st, f, rest, hreach, hstack, hstep⟩ := hstop
    unfold step at hstep
    cases hd : (P.deps f.node)[f.next]? with
    | some d =>
      rw [hd] at hstep
      dsimp only at hstep
      cases hv : st.visit d with
      | opened =>
        rw [hv] at hstep
        obtain rfl := Except.error.inj hstep
        exact .inl ⟨rfl, hcyclic rfl⟩
      | _ => rw [hv] at hstep; cases hstep
    | none =>
      rw [hd] at hstep
      dsimp only at hstep
      cases hv : P.eval f.node st.values with
      | ok v => rw [hv] at hstep; cases hstep
      | error e' =>
        rw [hv] at hstep
        obtain rfl := Except.error.inj hstep
        have hf : f ∈ st.stack := hstack ▸ List.mem_cons_self
        exact .inr ⟨e', st, f.node, rfl, hreach, hreach.inv.bound f hf, hreach.inv.unsettled hf,
          fun d hdep => hreach.inv.deps_done hstack hd hdep, hv⟩

end DepthFirst

end Wah
