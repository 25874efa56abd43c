/-
The memory budget of a primary context.

- `account`: what a primary has to answer for, the memories and tables that it and the contexts it owns define, and its
  heap;
- `Accounted`: the invariant. The committed bytes of every primary are its account, also after a failed instantiation;
- `Fits`: no charge wraps. `wah_create_owned_linked_contexts` charges before it allocates, and without a limit nothing
  bounds the charge: a table of 2^60 - 1 elements that is never allocated takes the account below what is in use
  (`committed_wraps`);
- `budget_exact`: with charges that fit, the budget is exact in every state of every run.
-/
import Wah.Aliases

namespace Wah

/-! ## What is accounted for -/

/-- the bytes of memories or tables -/
def slotBytes (k : Kind) (l : List Slot) : Nat := (l.map fun s => k.bytes s.size).sum

namespace LinkCtx

/-- the slots of one kind that are no imports -/
def definedSlots (x : LinkCtx) (k : Kind) : List Slot := (x.slots k).drop (x.importCount k)

/-- the bytes of everything a context defines -/
def definedBytes (x : LinkCtx) : Nat :=
  slotBytes .memory (x.definedSlots .memory) + slotBytes .table (x.definedSlots .table)

def heapBytes (x : LinkCtx) : Nat := (x.gc.map GcState.allocatedBytes).getD 0

end LinkCtx

/-- what the primary `p` answers for -/
def World.account (W : World) (p : CtxId) : Nat :=
  (W.ctx p).definedBytes + ((W.owned p).map fun c => (W.ctx c).definedBytes).sum + (W.ctx p).heapBytes

@[simp] theorem slotBytes_nil (k : Kind) : slotBytes k [] = 0 := rfl

@[simp] theorem slotBytes_cons (k : Kind) (s : Slot) (l : List Slot) :
    slotBytes k (s :: l) = k.bytes s.size + slotBytes k l := by simp [slotBytes]

@[simp] theorem Kind.bytes_zero (k : Kind) : k.bytes 0 = 0 := by cases k <;> rfl

@[simp] theorem slotBytes_blank (k : Kind) (n : Nat) : slotBytes k (List.replicate n {}) = 0 := by
  simp [slotBytes]

theorem LinkCtx.definedBytes_congr {x y : LinkCtx} (h : ∀ k, y.definedSlots k = x.definedSlots k) :
    y.definedBytes = x.definedBytes := by
  simp [definedBytes, h]

/-! ## Charges that fit -/

namespace Budget

/-- a charge of `n` does not wrap: there is a limit, or the sum is below 2^64 -/
def Fits (b : Budget) (n : Nat) : Prop := b.maxBytes.isSome = true ∨ b.committed + n < 2 ^ 64

/-- the limit is one of 64 bits, and kept -/
def Within (b : Budget) : Prop := ∀ m, b.maxBytes = some m → b.committed ≤ m ∧ m < 2 ^ 64

variable {b : Budget} {n : Nat}

theorem Fits.mono {m : Nat} (h : b.Fits n) (hm : m ≤ n) : b.Fits m := by
  rcases h with h | h
  · exact .inl h
  · exact .inr (by omega)

/-- a checked charge that fits is added, and keeps the limit -/
theorem Fits.charge (h : b.Fits n) (hw : b.Within) (hc : b.check n = true) :
    (b.charge n).committed = b.committed + n ∧ (b.charge n).Within ∧ b.committed + n < 2 ^ 64 := by
  have hlt : b.committed + n < 2 ^ 64 := by
    cases hm : b.maxBytes with
    | none => exact h.resolve_left (by simp [hm])
    | some m =>
      obtain ⟨h1, h2⟩ := hw m hm
      simp only [check, hm, if_neg (show ¬ b.committed > m by omega), decide_eq_true_eq] at hc
      omega
  refine ⟨charge_committed hlt, fun m hm => ?_, hlt⟩
  obtain ⟨h1, h2⟩ := hw m hm
  have hm' : b.maxBytes = some m := hm
  simp only [check, hm', if_neg (show ¬ b.committed > m by omega), decide_eq_true_eq] at hc
  rw [charge_committed hlt]
  exact ⟨by omega, h2⟩

end Budget

/-- the bytes charged for the slots of one kind without a limit: up to the first that is too large, which is not charged,
or whose allocation fails, which is -/
def chargedBytes (k : Kind) : List SlotSpec → Nat
  | [] => 0
  | d :: rest =>
    if k.hasByteSize d.size then k.bytes d.size + if d.data.isSome then chargedBytes k rest else 0 else 0

/-- the bytes charged for a module without a limit -/
def ModuleSpec.charged (spec : ModuleSpec) : Nat :=
  chargedBytes .memory (spec.defs .memory) +
    if (spec.defs .memory).all (fun d => d.data.isSome) then chargedBytes .table (spec.defs .table) else 0

section
variable {k : Kind} {l : List SlotSpec} {b : Budget}

theorem defineSlots_maxBytes (k : Kind) (l : List SlotSpec) (b : Budget) :
    (defineSlots k l b).2.1.maxBytes = b.maxBytes := by
  induction l generalizing b with
  | nil => rfl
  | cons d rest ih =>
    unfold defineSlots
    split_ifs
    · rfl
    · split
      · rfl
      · exact ih _

/-- everything was allocated, if defining the slots succeeded -/
theorem defineSlots_allocated (h : (defineSlots k l b).2.2 = true) : l.all (fun d => d.data.isSome) = true := by
  induction l generalizing b with
  | nil => rfl
  | cons d rest ih =>
    unfold defineSlots at h
    split_ifs at h
    split at h
    · cases h
    · rename_i p hp
      simp only [List.all_cons, hp, Option.isSome_some, Bool.true_and]
      exact ih h

/-- defining slots commits their bytes, and keeps the limit -/
theorem defineSlots_committed (hf : b.Fits (chargedBytes k l)) (hw : b.Within) :
    (defineSlots k l b).2.1.committed = b.committed + slotBytes k (defineSlots k l b).1 ∧
      (defineSlots k l b).2.1.Within ∧ slotBytes k (defineSlots k l b).1 ≤ chargedBytes k l := by
  induction l generalizing b with
  | nil => exact ⟨rfl, hw, Nat.le_refl _⟩
  | cons d rest ih =>
    unfold defineSlots
    split_ifs with hc
    · refine ⟨?_, hw, ?_⟩
      · simp
      · simp
    · obtain ⟨hsize, hcheck⟩ : k.hasByteSize d.size = true ∧ b.check (k.bytes d.size) = true := by simpa using hc
      have hle : k.bytes d.size ≤ chargedBytes k (d :: rest) := by
        rw [chargedBytes, if_pos hsize]
        exact Nat.le_add_right _ _
      obtain ⟨hcom, hwith, -⟩ := (hf.mono hle).charge hw hcheck
      cases hd : d.data with
      | none =>
        refine ⟨?_, hwith, ?_⟩
        · simp [hcom]
        · simp [chargedBytes, hsize]
      | some p =>
        have hf' : (b.charge (k.bytes d.size)).Fits (chargedBytes k rest) := by
          rcases hf with hm | hlt
          · exact .inl hm
          · right
            rw [hcom]
            simp only [chargedBytes, hsize, hd, Option.isSome_some, if_true] at hlt
            omega
        obtain ⟨h1, h2, h3⟩ := ih hf' hwith
        refine ⟨?_, h2, ?_⟩
        · simp only [slotBytes_cons]
          rw [h1, hcom]
          omega
        · simp only [slotBytes_cons, chargedBytes, hsize, hd, Option.isSome_some, if_true]
          omega

/-- the bytes a new context defines were committed, and the limit is kept -/
theorem createSlots_committed {spec : ModuleSpec} {b : Budget} (hf : b.Fits spec.charged) (hw : b.Within) :
    (createSlots spec b).2.1.committed = b.committed +
        LinkCtx.definedBytes { slots := (createSlots spec b).1, importCount := spec.imports } ∧
      (createSlots spec b).2.1.Within := by
  have hf1 : b.Fits (chargedBytes .memory (spec.defs .memory)) := hf.mono (Nat.le_add_right _ _)
  obtain ⟨hm1, hm2, hm3⟩ := defineSlots_committed hf1 hw
  unfold createSlots
  dsimp only
  split_ifs with hok
  · refine ⟨?_, hm2⟩
    simp [LinkCtx.definedBytes, LinkCtx.definedSlots, hm1]
  · have hok' : (defineSlots .memory (spec.defs .memory) b).2.2 = true := by simpa using hok
    have hf2 : (defineSlots .memory (spec.defs .memory) b).2.1.Fits (chargedBytes .table (spec.defs .table)) := by
      rcases hf with h | h
      · exact .inl (by rw [defineSlots_maxBytes]; exact h)
      · right
        simp only [ModuleSpec.charged, defineSlots_allocated hok', if_true] at h
        omega
    obtain ⟨ht1, ht2, -⟩ := defineSlots_committed hf2 hm2
    refine ⟨?_, ht2⟩
    simp [LinkCtx.definedBytes, LinkCtx.definedSlots, ht1, hm1, Nat.add_assoc]

end

/-! ## The invariant -/

namespace World

structure Accounted (W : World) : Prop where
  committed : ∀ p, (W.ctx p).budgetCtx = none → (W.ctx p).budget.committed = W.account p
  within : ∀ p, (W.ctx p).budget.Within
  ownedBudget : ∀ c p, (W.ctx c).budgetCtx = some p → (W.ctx c).budget = ⟨none, 0⟩ ∧ (W.ctx c).gc = none
  nodup : ∀ p, (W.owned p).Nodup
  tallied : ∀ p g, (W.ctx p).gc = some g → Tallied W.store g (W.ctx p).budget

variable {W W' : World} {c p : CtxId}

theorem accounted_empty : Accounted empty := by
  constructor
  case committed => intro p _; rfl
  case within => intro p m hm; cases hm
  case ownedBudget => intro c p h; cases h
  case nodup => intro p; exact List.nodup_nil
  case tallied => intro p g h; cases h

theorem account_congr (hd : ∀ c, (W'.ctx c).definedBytes = (W.ctx c).definedBytes) (ho : W'.owned p = W.owned p)
    (hg : (W'.ctx p).gc = (W.ctx p).gc) : W'.account p = W.account p := by
  simp [account, hd, ho, LinkCtx.heapBytes, hg]

/-- a change that touches neither what is defined, nor budgets, heaps or ownership -/
theorem Accounted.same (hA : Accounted W) (hd : ∀ c, (W'.ctx c).definedBytes = (W.ctx c).definedBytes)
    (hb : ∀ c, (W'.ctx c).budget = (W.ctx c).budget) (hg : ∀ c, (W'.ctx c).gc = (W.ctx c).gc)
    (hr : ∀ c, (W'.ctx c).budgetCtx = (W.ctx c).budgetCtx) (ho : ∀ c, W'.owned c = W.owned c)
    (hs : W'.store = W.store) : Accounted W' := by
  constructor
  case committed =>
    intro p hp
    rw [hr] at hp
    rw [hb, account_congr hd (ho p) (hg p)]
    exact hA.committed p hp
  case within => intro p; rw [hb]; exact hA.within p
  case ownedBudget =>
    intro c p h
    rw [hr] at h
    rw [hb, hg]
    exact hA.ownedBudget c p h
  case nodup => intro p; rw [ho]; exact hA.nodup p
  case tallied =>
    intro p g h
    rw [hg] at h
    rw [hb, hs]
    exact hA.tallied p g h

/-- a change of one context of that kind -/
theorem Accounted.set (hA : Accounted W) (p : CtxId) (f : LinkCtx → LinkCtx)
    (hd : (f (W.ctx p)).definedBytes = (W.ctx p).definedBytes) (hb : (f (W.ctx p)).budget = (W.ctx p).budget)
    (hg : (f (W.ctx p)).gc = (W.ctx p).gc) (hr : (f (W.ctx p)).budgetCtx = (W.ctx p).budgetCtx)
    (ho : (f (W.ctx p)).linked.filterMap (fun l => if l.ownsCtx then l.ctx else none) = W.owned p) :
    Accounted (W.set p f) := by
  refine hA.same ?_ ?_ ?_ ?_ ?_ rfl
  case refine_5 =>
    intro c
    rcases set_cases W p f c with he | rfl
    · simp [World.owned, he]
    · simpa [World.owned] using ho
  all_goals
    intro c
    rcases set_cases W p f c with he | rfl
    · rw [he]
    · rw [set_self]
      assumption

/-! ### Linking and instantiating -/

theorem Accounted.linkModule (hA : Accounted W) (h : W.linkModule p = some W') : Accounted W' := by
  unfold World.linkModule at h
  split_ifs at h
  cases h
  exact hA.set p _ rfl rfl rfl rfl (by simp [owned])

theorem Accounted.registerDependent (hA : Accounted W) (q c : CtxId) : Accounted (W.registerDependent q c) := by
  unfold World.registerDependent
  refine hA.set q _ ?_ ?_ ?_ ?_ ?_ <;> split_ifs <;> rfl

theorem Accounted.registerGcDependent (hA : Accounted W) (q c : CtxId) : Accounted (W.registerGcDependent q c) := by
  unfold World.registerGcDependent
  refine hA.set (W.root q) _ ?_ ?_ ?_ ?_ ?_ <;> split_ifs <;> rfl

theorem Accounted.linkContext (hA : Accounted W) {q : CtxId} {registered : Bool}
    (h : W.linkContext p q registered = some W') : Accounted W' := by
  unfold World.linkContext at h
  split_ifs at h
  · cases h; exact hA
  · cases h
    exact ((hA.registerDependent q p).registerGcDependent q p).set p _ rfl rfl rfl rfl (by simp [owned])

theorem Accounted.failed (hA : Accounted W) (p : CtxId) : Accounted (W.giveUp p) :=
  hA.set p _ rfl rfl rfl rfl rfl

/-- binding an import changes nothing that is defined -/
theorem Accounted.setSlot (hA : Accounted W) {k : Kind} {i : Nat} (hi : i < (W.ctx c).importCount k) (f : Slot → Slot) :
    Accounted (W.setSlot c k i f) := by
  refine hA.set c _ ?_ rfl rfl rfl rfl
  refine LinkCtx.definedBytes_congr fun k' => ?_
  by_cases hk : k' = k
  · subst hk
    simp only [LinkCtx.definedSlots, Function.update_self]
    apply List.ext_getElem?
    intro j
    have hne : i ≠ (W.ctx c).importCount k' + j := by omega
    simp [List.getElem?_drop, hne]
  · simp [LinkCtx.definedSlots, hk]

theorem Accounted.bindImport (hA : Accounted W) {k : Kind} {i : Nat} {q : CtxId} {qi : Nat}
    {registered gcRegistered : Bool} (h : W.bindImport c k i q qi registered gcRegistered = some W') :
    Accounted W' := by
  obtain ⟨⟨-, -, hi, -⟩, hcase⟩ := bindImport_cases h
  cases hcase with
  | unresolved _ hw =>
    subst hw
    exact hA.failed _
  | own _ _ hw =>
    subst hw
    exact hA.setSlot hi _
  | @bound _ o _ _ _ _ hw =>
    subst hw
    exact ((hA.setSlot hi _).registerDependent o c).registerGcDependent o c
  | unlisted _ _ _ _ hw =>
    subst hw
    exact (hA.setSlot hi _).failed _
  | @gcUnlisted o _ _ _ _ _ _ _ hw =>
    subst hw
    exact ((hA.setSlot hi _).registerDependent o c).failed _

theorem LinkCtx.definedBytes_setBase (x : LinkCtx) : Wah.LinkCtx.definedBytes x.setBase = x.definedBytes :=
  Wah.LinkCtx.definedBytes_congr fun k => by
    simp [Wah.LinkCtx.definedSlots, (LinkCtx.setBase_shape x).importCount]

theorem Accounted.finishOwned (hA : Accounted W) (h : W.finishOwned c = some W') : Accounted W' := by
  unfold World.finishOwned at h
  split_ifs at h
  cases h
  have hshape := LinkCtx.setBase_shape (W.ctx c)
  refine hA.set c _ (LinkCtx.definedBytes_setBase _) (LinkCtx.setBase_budget _) hshape.gc hshape.budgetCtx ?_
  simp only [hshape.linked]
  rfl

theorem Accounted.share (hA : Accounted W) (h : W.share p = some W') : Accounted W' := by
  unfold World.share at h
  split_ifs at h
  cases h
  have hshape := LinkCtx.setBase_shape (W.ctx p)
  refine hA.set p _ ?_ ?_ ?_ ?_ ?_ <;> split_ifs
  · exact LinkCtx.definedBytes_setBase _
  · rfl
  · exact LinkCtx.setBase_budget _
  · rfl
  · exact hshape.gc
  · rfl
  · exact hshape.budgetCtx
  · rfl
  · simp only [hshape.linked]; rfl
  · rfl

theorem Accounted.finish (hA : Accounted W) (h : W.finish p = some W') : Accounted W' := by
  unfold World.finish at h
  split_ifs at h
  cases h
  exact hA.set p _ rfl rfl rfl rfl rfl

theorem Accounted.fail (hA : Accounted W) (h : W.fail p = some W') : Accounted W' := by
  unfold World.fail at h
  split_ifs at h
  cases h
  exact hA.failed p

/-! ### New contexts -/

theorem newCtx_definedBytes (spec : ModuleSpec) (limit : UInt64) :
    (newCtx spec limit).definedBytes =
      LinkCtx.definedBytes { slots := (createSlots spec ⟨limitBytes limit, 0⟩).1, importCount := spec.imports } :=
  LinkCtx.definedBytes_setBase _

theorem within_limitBytes (limit : UInt64) : Budget.Within ⟨limitBytes limit, 0⟩ := by
  intro m hm
  refine ⟨Nat.zero_le _, ?_⟩
  simp only [limitBytes] at hm
  split_ifs at hm
  cases hm
  exact limit.toNat_lt

theorem Accounted.newContext (hA : Accounted W) (hC : Coherent W) {spec : ModuleSpec} {limit : UInt64}
    (hf : (createSlots spec ⟨limitBytes limit, 0⟩).2.2 = true → Budget.Fits ⟨limitBytes limit, 0⟩ spec.charged)
    (h : W.newContext c spec limit = some W') : Accounted W' := by
  unfold World.newContext at h
  split_ifs at h with hcr hok
  · cases h; exact hA
  · cases h
    have hcr' : (W.ctx c).created = false := by simpa using hcr
    obtain ⟨-, hnot, -⟩ := hC.unused hcr'
    have hshape := newCtx_shape spec limit
    have hbudget : (newCtx spec limit).budget = (createSlots spec ⟨limitBytes limit, 0⟩).2.1 := LinkCtx.setBase_budget _
    obtain ⟨hcom, hwith⟩ := createSlots_committed (hf (by simpa using hok)) (within_limitBytes limit)
    rw [← newCtx_definedBytes, ← hbudget] at hcom
    rw [← hbudget] at hwith
    generalize newCtx spec limit = x at hshape hcom hwith
    have hcases := set_cases W c fun _ => x
    have howned : (W.set c fun _ => x).owned c = [] := by
      rw [World.owned, set_self, hshape.linked]
      rfl
    have howned' : ∀ q, (W.set c fun _ => x).owned q = W.owned q := by
      intro q
      rcases hcases q with he | rfl
      · rw [World.owned, he]; rfl
      · rw [howned, World.owned, hC.blank q hcr']; rfl
    constructor
    case committed =>
      intro p hp
      rcases hcases p with he | rfl
      · rw [he] at hp ⊢
        rw [hA.committed p hp]
        simp only [account, howned', he]
        congr 2
        refine congrArg List.sum (List.map_congr_left fun d hd => ?_)
        have hdc : d ≠ c := fun hdc => hnot p (hdc ▸ hd)
        rw [set_other _ hdc]
      · rw [account, howned, set_self, hcom]
        simp [LinkCtx.heapBytes, hshape.gc]
    case within =>
      intro p
      rcases hcases p with he | rfl
      · rw [he]; exact hA.within p
      · rw [set_self]; exact hwith
    case ownedBudget =>
      intro d p hp
      rcases hcases d with he | rfl
      · rw [he] at hp ⊢; exact hA.ownedBudget d p hp
      · rw [set_self, hshape.budgetCtx] at hp; cases hp
    case nodup => intro p; rw [howned']; exact hA.nodup p
    case tallied =>
      intro p g hg
      rcases hcases p with he | rfl
      · rw [he] at hg ⊢; exact hA.tallied p g hg
      · rw [set_self, hshape.gc] at hg; cases hg

theorem Accounted.createOwned (hA : Accounted W) (hC : Coherent W) {j : Nat} {spec : ModuleSpec}
    (hf : (W.ctx p).budget.Fits spec.charged) (h : W.createOwned p j c spec = some W') : Accounted W' := by
  obtain ⟨hb, hcr, hl, hne, hp, hc, hother, -, hst⟩ := createOwned_cases h
  obtain ⟨-, -, -, hbu, -⟩ := binding_iff.1 hb
  obtain ⟨-, hnot, -⟩ := hC.unused hcr
  obtain ⟨a, b, hown, hown'⟩ := owned_set hl c
  obtain ⟨hcom, hwith⟩ := createSlots_committed hf (hA.within p)
  have hownp : W'.owned p = a ++ c :: b := by rw [World.owned, hp]; exact hown'
  have hownp0 : W.owned p = a ++ b := hown
  have hcases : ∀ d, d = c ∨ d = p ∨ (d ≠ p ∧ d ≠ c ∧ W'.ctx d = W.ctx d) := by
    intro d
    by_cases h1 : d = c
    · exact .inl h1
    · by_cases h2 : d = p
      · exact .inr (.inl h2)
      · exact .inr (.inr ⟨h2, h1, hother d h2 h1⟩)
  have hdef : ∀ d, d ≠ c → (W'.ctx d).definedBytes = (W.ctx d).definedBytes := by
    intro d hd
    obtain ⟨l, b, f, he⟩ := createOwned_ctx h hd
    rw [he]
    rfl
  have hsum : ∀ l : List CtxId, c ∉ l → (l.map fun d => (W'.ctx d).definedBytes).sum =
      (l.map fun d => (W.ctx d).definedBytes).sum := by
    intro l hl
    exact congrArg List.sum (List.map_congr_left fun d hd => hdef d fun he => hl (he ▸ hd))
  have hcab : c ∉ a ++ b := by rw [← hownp0]; exact hnot p
  constructor
  case committed =>
    intro q hq
    rcases hcases q with rfl | rfl | ⟨hqp, hqc, he⟩
    · rw [hc] at hq; cases hq
    · have h1 := hA.committed q hbu
      have h2 := hsum a fun ha => hcab (List.mem_append_left _ ha)
      have h3 := hsum b fun hb => hcab (List.mem_append_right _ hb)
      have h4 : (W'.ctx c).definedBytes =
          LinkCtx.definedBytes { slots := (createSlots spec (W.ctx q).budget).1, importCount := spec.imports } := by
        rw [hc]; rfl
      have h5 : (W'.ctx q).heapBytes = (W.ctx q).heapBytes := by rw [hp]; rfl
      have h6 : (W'.ctx q).budget = (createSlots spec (W.ctx q).budget).2.1 := by rw [hp]
      rw [h6, hcom, h1, account, account, hownp, hownp0, h5, hdef q (Ne.symm hne)]
      simp only [List.map_append, List.map_cons, List.sum_append, List.sum_cons, h2, h3, h4]
      omega
    · rw [he] at hq ⊢
      have hownq : W'.owned q = W.owned q := by rw [World.owned, he]; rfl
      rw [hA.committed q hq, account, account, hownq, hsum _ (hnot q), he]
  case within =>
    intro q
    rcases hcases q with rfl | rfl | ⟨-, -, he⟩
    · rw [hc]; intro m hm; cases hm
    · rw [hp]; exact hwith
    · rw [he]; exact hA.within q
  case ownedBudget =>
    intro d q hq
    rcases hcases d with rfl | rfl | ⟨-, -, he⟩
    · rw [hc]; exact ⟨rfl, rfl⟩
    · rw [hp, hbu] at hq; cases hq
    · rw [he] at hq ⊢; exact hA.ownedBudget d q hq
  case nodup =>
    intro q
    rcases hcases q with rfl | rfl | ⟨-, -, he⟩
    · rw [World.owned, hc]; exact List.nodup_nil
    · rw [hownp]
      have := hA.nodup q
      rw [hownp0] at this
      exact List.nodup_middle.2 (List.nodup_cons.2 ⟨hcab, this⟩)
    · rw [World.owned, he]; exact hA.nodup q
  case tallied =>
    intro q g hg
    rw [hst]
    rcases hcases q with rfl | rfl | ⟨-, -, he⟩
    · rw [hc] at hg; cases hg
    · rw [hp] at hg ⊢
      have ht := hA.tallied q g hg
      refine ⟨ht.objects, ht.exceptions, ht.bytes, ht.covered.trans ?_⟩
      rw [hcom]
      exact Nat.le_add_right _ _
    · rw [he] at hg ⊢; exact hA.tallied q g hg

/-! ### Growing -/

/-- the sum over a list without duplicates, when one of its members grows by `n` -/
theorem sum_map_grown {l : List CtxId} (hl : l.Nodup) {o : CtxId} (ho : o ∈ l) {f g : CtxId → Nat} {n : Nat}
    (hother : ∀ d ∈ l, d ≠ o → g d = f d) (hg : g o = f o + n) : (l.map g).sum = (l.map f).sum + n := by
  induction l with
  | nil => cases ho
  | cons d rest ih =>
    obtain ⟨hd, hrest⟩ := List.nodup_cons.1 hl
    simp only [List.map_cons, List.sum_cons]
    rcases List.mem_cons.1 ho with rfl | hmem
    · have hsame : rest.map g = rest.map f :=
        List.map_congr_left fun x hx => hother x (List.mem_cons_of_mem _ hx) fun he => hd (he ▸ hx)
      rw [hsame, hg]
      omega
    · have hne : d ≠ o := fun he => hd (he ▸ hmem)
      rw [ih hrest hmem fun x hx => hother x (List.mem_cons_of_mem _ hx), hother d List.mem_cons_self hne]
      omega

/-- the bytes of a list when one slot changes its size -/
theorem slotBytes_set {k : Kind} {l : List Slot} {i : Nat} {s t : Slot} (h : l[i]? = some s) :
    slotBytes k (l.set i t) + k.bytes s.size = slotBytes k l + k.bytes t.size := by
  induction l generalizing i with
  | nil => cases h
  | cons x rest ih =>
    cases i with
    | zero =>
      cases h
      simp only [List.set_cons_zero, slotBytes_cons]
      omega
    | succ i =>
      have := ih (i := i) (by simpa using h)
      simp only [List.set_cons_succ, slotBytes_cons]
      omega

/-- what a grow does to the slots that a context defines -/
theorem grown_definedSlots (hC : Coherent W) {R : Renewal} (hg : Grown R W W') (hdef : (W.ctx R.o).importCount R.k ≤ R.oi)
    {d : Slot} (hd : W.slot R.o R.k R.oi = some d) (c : CtxId) (k : Kind) :
    (W'.ctx c).definedSlots k =
      if c = R.o ∧ k = R.k then ((W.ctx c).definedSlots k).set (R.oi - (W.ctx c).importCount k) (R.view d)
      else (W.ctx c).definedSlots k := by
  have hshape := (hg.refreshed c).shape
  apply List.ext_getElem?
  intro j
  by_cases hk : k = R.k
  · subst hk
    have hlen := (hg.refreshed c).length
    -- a defined slot is renewed iff it is the grown one
    have hget : ∀ i, (W.ctx c).importCount R.k ≤ i → W'.slot c R.k i =
        if c = R.o ∧ i = R.oi then some (R.view d) else W.slot c R.k i := by
      intro i hi
      split_ifs with he
      · obtain ⟨rfl, rfl⟩ := he
        exact hg.owner d hd
      · cases hs : W.slot c R.k i with
        | none =>
          rw [World.slot, List.getElem?_eq_none_iff] at hs ⊢
          rw [hlen]; exact hs
        | some t =>
          rcases hg.refreshed.slot hs with h1 | ⟨-, hit | hit⟩
          · exact h1
          · exact absurd hit he
          · have hti := Slot.isImported_of_target hit
            rw [hC.defined c R.k i t hs hi] at hti
            cases hti
    have hslot : (W'.ctx c |>.definedSlots R.k)[j]? = W'.slot c R.k ((W.ctx c).importCount R.k + j) := by
      rw [LinkCtx.definedSlots, List.getElem?_drop, hshape.importCount]
      rfl
    rw [hslot, hget _ (Nat.le_add_right _ _)]
    by_cases hc : c = R.o
    · subst hc
      rw [if_pos (show R.o = R.o ∧ R.k = R.k from ⟨rfl, rfl⟩), List.getElem?_set]
      have hold : ((W.ctx R.o).definedSlots R.k)[j]? = W.slot R.o R.k ((W.ctx R.o).importCount R.k + j) := by
        rw [LinkCtx.definedSlots, List.getElem?_drop]; rfl
      by_cases hj : R.oi - (W.ctx R.o).importCount R.k = j
      · have hoi : (W.ctx R.o).importCount R.k + j = R.oi := by omega
        have hlt : j < ((W.ctx R.o).definedSlots R.k).length := by
          rw [hoi, hd] at hold
          exact (List.getElem?_eq_some_iff.1 hold).1
        rw [if_pos ⟨rfl, hoi⟩, if_pos hj, hj, if_pos hlt]
      · rw [if_neg (by rintro ⟨-, hoi⟩; omega), if_neg hj, hold]
    · rw [if_neg fun h => hc h.1, if_neg fun h => hc h.1, LinkCtx.definedSlots, List.getElem?_drop]
      rfl
  · rw [if_neg fun h => hk h.2, LinkCtx.definedSlots, LinkCtx.definedSlots, hshape.importCount,
      (hg.refreshed c).otherKind k hk]

/-- the grown slot's owner defines `n` bytes more, and nobody else defines anything new -/
theorem grown_definedBytes (hC : Coherent W) {R : Renewal} (hg : Grown R W W')
    (hdef : (W.ctx R.o).importCount R.k ≤ R.oi) {d : Slot} (hd : W.slot R.o R.k R.oi = some d) {n : Nat}
    (hn : R.k.bytes R.size = R.k.bytes d.size + n) (c : CtxId) :
    (W'.ctx c).definedBytes = (W.ctx c).definedBytes + if c = R.o then n else 0 := by
  have hslots := grown_definedSlots hC hg hdef hd c
  by_cases hc : c = R.o
  · subst hc
    have hget : ((W.ctx R.o).definedSlots R.k)[R.oi - (W.ctx R.o).importCount R.k]? = some d := by
      rw [LinkCtx.definedSlots, List.getElem?_drop, Nat.add_sub_cancel' hdef]
      exact hd
    have hset := slotBytes_set (k := R.k) (t := R.view d) hget
    have hview : R.k.bytes (R.view d).size = R.k.bytes d.size + n := hn
    have hk : slotBytes R.k ((W'.ctx R.o).definedSlots R.k) = slotBytes R.k ((W.ctx R.o).definedSlots R.k) + n := by
      rw [hslots R.k, if_pos ⟨rfl, rfl⟩]
      omega
    have hother : ∀ k, k ≠ R.k → (W'.ctx R.o).definedSlots k = (W.ctx R.o).definedSlots k := by
      intro k hne
      rw [hslots k, if_neg fun h => hne h.2]
    rw [if_pos rfl, LinkCtx.definedBytes, LinkCtx.definedBytes]
    cases hkind : R.k with
    | memory =>
      rw [hkind] at hk hother
      rw [hk, hother .table (by decide)]
      omega
    | table =>
      rw [hkind] at hk hother
      rw [hk, hother .memory (by decide)]
      omega
  · rw [if_neg hc, Nat.add_zero]
    exact LinkCtx.definedBytes_congr fun k => by rw [hslots k, if_neg fun h => hc h.1]

theorem LinkCtx.storeSlot_budget (k : Kind) (i : Nat) (data : Ptr) (size : Nat) (x : LinkCtx) :
    (x.storeSlot k i data size).budget = x.budget := by
  unfold Wah.LinkCtx.storeSlot
  dsimp only
  split_ifs <;> simp

theorem LinkCtx.updateAliases_budget (k : Kind) (exclude : Option Nat) (o : CtxId) (oi : Nat) (data : Ptr) (size : Nat)
    (x : LinkCtx) : (x.updateAliases k exclude o oi data size).budget = x.budget := by
  unfold Wah.LinkCtx.updateAliases
  dsimp only
  split_ifs <;> simp

theorem set_budget {d : CtxId} (f : LinkCtx → LinkCtx) (hf : ∀ x, (f x).budget = x.budget) :
    ((W.set c f).ctx d).budget = (W.ctx d).budget := by
  rcases set_cases W c f d with he | rfl
  · rw [he]
  · rw [set_self, hf]

theorem foldl_set_budget {d : CtxId} (f : LinkCtx → LinkCtx) (hf : ∀ x, (f x).budget = x.budget) (l : List CtxId)
    (W : World) : ((l.foldl (fun V t => V.set t f) W).ctx d).budget = (W.ctx d).budget := by
  induction l generalizing W with
  | nil => rfl
  | cons t rest ih => exact (ih _).trans (set_budget f hf)

/-- a grow charges the primary of the owner, once -/
theorem growTo_budget (W : World) (ctx fctx : CtxId) (k : Kind) (i : Nat) (s : Slot) (newSize deltaBytes : Nat) (data : Ptr)
    (fill : Cell) (d : CtxId) :
    ((W.growTo ctx fctx k i s newSize deltaBytes data fill).ctx d).budget =
      if d = W.root (ownerOf fctx s i).1 then (W.ctx d).budget.charge deltaBytes else (W.ctx d).budget := by
  have hstore : ∀ (V : World) (e : CtxId) (j : Nat),
      ((V.set e (LinkCtx.storeSlot k j data newSize)).ctx d).budget = (V.ctx d).budget :=
    fun V e j => set_budget _ (LinkCtx.storeSlot_budget k j data newSize)
  have halias : ∀ (V : World) (e : CtxId) (x : Option Nat) (o : CtxId) (oi : Nat),
      ((V.set e (LinkCtx.updateAliases k x o oi data newSize)).ctx d).budget = (V.ctx d).budget :=
    fun V e x o oi => set_budget _ (LinkCtx.updateAliases_budget k x o oi data newSize)
  have hcharge : ∀ V : World, (V.ctx d).budget = (W.ctx d).budget →
      ((V.set (W.root (ownerOf fctx s i).1) fun x => { x with budget := x.budget.charge deltaBytes }).ctx d).budget =
        if d = W.root (ownerOf fctx s i).1 then (W.ctx d).budget.charge deltaBytes else (W.ctx d).budget := by
    intro V hV
    rw [set_ctx]
    split_ifs with he
    · rw [← he, hV]
    · exact hV
  unfold growTo
  dsimp only
  rw [foldl_set_budget _ (LinkCtx.updateAliases_budget k none _ _ data newSize), halias]
  by_cases ht : s.target.isSome = true
  · rw [if_pos ht, halias, hstore]
    exact hcharge _ (hstore _ _ _)
  · rw [if_neg ht]
    exact hcharge _ (hstore _ _ _)

/-- when one context defines `n` bytes more, its primary answers for them -/
theorem account_grown (hC : Coherent W) (hA : Accounted W) {o : CtxId} {n : Nat}
    (hdefined : ∀ c, (W'.ctx c).definedBytes = (W.ctx c).definedBytes + if c = o then n else 0)
    (howned : ∀ c, W'.owned c = W.owned c) (hheap : ∀ c, (W'.ctx c).heapBytes = (W.ctx c).heapBytes)
    (hp : (W.ctx p).budgetCtx = none) : W'.account p = W.account p + if p = W.root o then n else 0 := by
  have hsame : o ∉ W.owned p → ((W.owned p).map fun c => (W'.ctx c).definedBytes).sum =
      ((W.owned p).map fun c => (W.ctx c).definedBytes).sum := by
    intro hno
    refine congrArg List.sum (List.map_congr_left fun c hc => ?_)
    have hne : c ≠ o := fun he => hno (he ▸ hc)
    rw [hdefined, if_neg hne, Nat.add_zero]
  rw [account, account, howned, hheap, hdefined]
  cases hb : (W.ctx o).budgetCtx with
  | none =>
    have hroot : W.root o = o := by simp [World.root, hb]
    have hno : o ∉ W.owned p := fun hm => by
      have := hC.owns p o hm
      rw [hb] at this
      cases this
    rw [hroot, hsame hno]
    omega
  | some q =>
    have hroot : W.root o = q := by simp [World.root, hb]
    have hpo : p ≠ o := by
      rintro rfl
      rw [hb] at hp
      cases hp
    rw [hroot, if_neg hpo]
    by_cases hpq : p = q
    · subst hpq
      have hmem := (hC.rooted o p hb).2.1
      have hgrown := sum_map_grown (hA.nodup p) hmem (f := fun c => (W.ctx c).definedBytes)
        (g := fun c => (W'.ctx c).definedBytes) (n := n)
        (fun c _ hne => by rw [hdefined, if_neg hne, Nat.add_zero]) (by rw [hdefined, if_pos rfl])
      rw [hgrown, if_pos rfl]
      omega
    · have hno : o ∉ W.owned p := fun hm => by
        have := hC.owns p o hm
        rw [hb] at this
        exact hpq (Option.some_injective _ this).symm
      rw [hsame hno, if_neg hpq]
      omega

theorem foldl_set_store (f : LinkCtx → LinkCtx) (l : List CtxId) (W : World) :
    (l.foldl (fun V t => V.set t f) W).store = W.store := by
  induction l generalizing W with
  | nil => rfl
  | cons t rest ih => exact ih _

theorem growTo_store {ctx fctx : CtxId} {k : Kind} {i : Nat} {s : Slot} {newSize deltaBytes : Nat} {data : Ptr}
    {fill : Cell} : (W.growTo ctx fctx k i s newSize deltaBytes data fill).store = W.store := by
  unfold growTo
  dsimp only
  rw [foldl_set_store]
  split_ifs <;> rfl

theorem Accounted.grow (hA : Accounted W) (hC : Coherent W) {ctx fctx : CtxId} {k : Kind} {i delta : Nat} {fill : Cell}
    {alloc : Option Ptr} {r : Int} (hsh : (W.ctx (W.root fctx)).mayShareRefs = true)
    (hf : alloc.isSome = true → ∀ s, W.slot fctx k i = some s → ∀ newSize deltaBytes,
      s.growPlan delta k = .to newSize deltaBytes → (W.ctx (W.root (ownerOf fctx s i).1)).budget.Fits deltaBytes)
    (h : W.grow ctx fctx k i delta fill alloc = some (r, W')) : Accounted W' := by
  obtain ⟨s, hs, ⟨-, rfl⟩ | ⟨-, ⟨-, rfl⟩ | ⟨newSize, deltaBytes, data, hp, rfl, hcheck, rfl⟩⟩⟩ := grow_cases h
  · exact hA
  · exact hA
  · have hfit := hf rfl s hs newSize deltaBytes hp
    have hg := growTo_grown ctx newSize deltaBytes data (k.fill fill) hs
    have hdef := hC.owner_defined hsh hs
    obtain ⟨d, hd, -, -, hsize⟩ := hC.owner_of_shared hsh hs
    have hbytes : k.bytes newSize = k.bytes d.size + deltaBytes := by
      rw [← hsize]; exact (growPlan_to hp).2.1
    have hdefined := grown_definedBytes hC hg hdef hd hbytes
    have hbudget := growTo_budget W ctx fctx k i s newSize deltaBytes data (k.fill fill)
    have hstore : (W.growTo ctx fctx k i s newSize deltaBytes data (k.fill fill)).store = W.store := growTo_store
    generalize W.growTo ctx fctx k i s newSize deltaBytes data (k.fill fill) = W' at hg hdefined hbudget hstore
    obtain ⟨hcom, hwith, -⟩ := hfit.charge (hA.within _) hcheck
    generalize ho : (ownerOf fctx s i).1 = o at *
    have hshape : ∀ c, (W.ctx c).SameShape (W'.ctx c) := fun c => (hg.refreshed c).shape
    have howned : ∀ c, W'.owned c = W.owned c := fun c => by simp [World.owned, (hshape c).linked]
    have hheap : ∀ c, (W'.ctx c).heapBytes = (W.ctx c).heapBytes := fun c => by
      simp [LinkCtx.heapBytes, (hshape c).gc]
    constructor
    case committed =>
      intro p hp'
      rw [(hshape p).budgetCtx] at hp'
      rw [account_grown hC hA hdefined howned hheap hp', hbudget, ← hA.committed p hp']
      split_ifs with he
      · subst he; exact hcom
      · rfl
    case within =>
      intro p
      rw [hbudget]
      split_ifs with he
      · subst he; exact hwith
      · exact hA.within p
    case ownedBudget =>
      intro c p hp'
      rw [(hshape c).budgetCtx] at hp'
      rw [hbudget, (hshape c).gc, if_neg]
      · exact hA.ownedBudget c p hp'
      · rintro rfl
        rw [hC.root_primary] at hp'
        cases hp'
    case nodup => intro p; rw [howned]; exact hA.nodup p
    case tallied =>
      intro p g hg'
      rw [(hshape p).gc] at hg'
      have ht := hA.tallied p g hg'
      rw [hstore, hbudget]
      split_ifs with he
      · refine ⟨ht.objects, ht.exceptions, ht.bytes, ht.covered.trans ?_⟩
        subst he
        rw [hcom]
        exact Nat.le_add_right _ _
      · exact ht

/-! ### Heaps -/

/-- what an operation on a heap has to do: charge or release what it adds or removes, keep the limit and the counters,
and leave the objects of other heaps alone -/
structure HeapChange (S : Store) (g : GcState) (b : Budget) (S' : Store) (g' : GcState) (b' : Budget)
    (others : Addr → Prop) : Prop where
  committed : b'.committed + g.allocatedBytes = b.committed + g'.allocatedBytes
  within : b'.Within
  tallied : Tallied S' g' b'
  kept : ∀ a, others a → S'.obj a = S.obj a

/-- the primary `p` has another heap and budget -/
theorem Accounted.heap (hA : Accounted W) {g' : GcState} {b' : Budget} (hprim : (W.ctx p).budgetCtx = none)
    (hp : W'.ctx p = { W.ctx p with gc := some g', budget := b' }) (hother : ∀ d, d ≠ p → W'.ctx d = W.ctx d)
    (hcom : b'.committed + (W.ctx p).heapBytes = (W.ctx p).budget.committed + g'.allocatedBytes) (hwith : b'.Within)
    (htal : Tallied W'.store g' b')
    (hkept : ∀ q h, q ≠ p → (W.ctx q).gc = some h → ∀ a ∈ h.allObjects, W'.store.obj a = W.store.obj a) :
    Accounted W' := by
  have hcases : ∀ d, W'.ctx d = W.ctx d ∧ d ≠ p ∨ d = p := by
    intro d
    by_cases hd : d = p
    · exact .inr hd
    · exact .inl ⟨hother d hd, hd⟩
  have hdefined : ∀ d, (W'.ctx d).definedBytes = (W.ctx d).definedBytes := by
    intro d
    rcases hcases d with ⟨he, -⟩ | rfl
    · rw [he]
    · rw [hp]; rfl
  have howned : ∀ d, W'.owned d = W.owned d := by
    intro d
    rcases hcases d with ⟨he, -⟩ | rfl
    · rw [World.owned, he]; rfl
    · rw [World.owned, hp]; rfl
  constructor
  case committed =>
    intro q hq
    rw [account, howned]
    simp only [hdefined]
    rcases hcases q with ⟨he, -⟩ | rfl
    · rw [he] at hq ⊢
      exact hA.committed q hq
    · have hold := hA.committed q hprim
      rw [account] at hold
      rw [hp]
      simp only [LinkCtx.heapBytes, Option.map_some, Option.getD_some]
      omega
  case within =>
    intro q
    rcases hcases q with ⟨he, -⟩ | rfl
    · rw [he]; exact hA.within q
    · rw [hp]; exact hwith
  case ownedBudget =>
    intro d q hq
    rcases hcases d with ⟨he, -⟩ | rfl
    · rw [he] at hq ⊢; exact hA.ownedBudget d q hq
    · rw [hp] at hq
      rw [hprim] at hq
      cases hq
  case nodup => intro q; rw [howned]; exact hA.nodup q
  case tallied =>
    intro q h hq
    rcases hcases q with ⟨he, hne⟩ | rfl
    · rw [he] at hq ⊢
      have ht := hA.tallied q h hq
      have hk := hkept q h hne hq
      refine ⟨ht.objects, ?_, ?_, ?_⟩
      · rw [exnCount_congr hk]; exact ht.exceptions
      · rw [bytesOf_congr hk]; exact ht.bytes
      · rw [bytesOf_congr hk]; exact ht.covered
    · rw [hp] at hq ⊢
      cases hq
      exact htal

theorem Accounted.onHeap (hA : Accounted W) (hC : Coherent W)
    (f : GcState → Budget → Option (Store × GcState × Budget))
    (hf : ∀ g S' g' b', (W.ctx (W.root c)).gc = some g → f g (W.ctx (W.root c)).budget = some (S', g', b') →
      HeapChange W.store g (W.ctx (W.root c)).budget S' g' b' fun a =>
        ∃ q h, q ≠ W.root c ∧ (W.ctx q).gc = some h ∧ a ∈ h.allObjects) :
    Accounted (W.onHeap c f) := by
  unfold World.onHeap
  split
  · exact hA
  · rename_i g hg
    split
    · exact hA
    · rename_i S' g' b' hres
      have hch := hf g S' g' b' hg hres
      have hother : ∀ d, d ≠ W.root c →
          (W.set (W.root c) fun x => { x with gc := some g', budget := b' }).ctx d = W.ctx d := fun d hd => set_other _ hd
      have hself : (W.set (W.root c) fun x => { x with gc := some g', budget := b' }).ctx (W.root c) =
          { W.ctx (W.root c) with gc := some g', budget := b' } := set_self _
      refine hA.heap (p := W.root c) (hC.root_primary c) hself hother ?_ hch.within hch.tallied ?_
      · have hheap : (W.ctx (W.root c)).heapBytes = g.allocatedBytes := by simp [LinkCtx.heapBytes, hg]
        rw [hheap]
        exact hch.committed
      · exact fun q h hq hh a ha => hch.kept a ⟨q, h, hq, hh, ha⟩

/-- a sweep releases exactly what it removes -/
theorem HeapChange.of_swept {S : Store} {dead : Addr → Bool} {g g' : GcState} {b b' : Budget} {others : Addr → Prop}
    (ht : Tallied S g b) (hw : b.Within) (h : Swept S dead g b g' b') : HeapChange S g b S g' b' others := by
  have hle : bytesOf S g'.allObjects ≤ bytesOf S g.allObjects := by
    rw [h.objects]; exact bytesOf_filter_le _ _
  have hcom := h.committed
  refine ⟨?_, ?_, h.tallied, fun _ _ => rfl⟩
  · rw [ht.bytes, h.tallied.bytes]; exact hcom
  · intro m hm
    rw [h.maxBytes] at hm
    obtain ⟨h1, h2⟩ := hw m hm
    exact ⟨by omega, h2⟩

/-- an allocation charges exactly what it adds -/
theorem HeapChange.of_gcAlloc {S S' : Store} {g g' : GcState} {b b' : Budget} {mod : Option ModuleId} {reprId : Int}
    {payload : Nat} {fresh : Option Addr} {a : Addr} {others : Addr → Prop} (ht : Tallied S g b) (hw : b.Within)
    (hexn : reprId ≠ reprExn) (hfresh : a ∉ g.allObjects) (hothers : ¬ others a) (hf : b.Fits (headerSize + payload))
    (h : gcAlloc S g b mod reprId payload fresh = some (a, S', g', b')) : HeapChange S g b S' g' b' others := by
  obtain ⟨hcheck, -, hS, hg, hb⟩ := gcAlloc_cases h
  obtain ⟨hcom, hwith, hlt⟩ := hf.charge hw hcheck
  refine ⟨?_, ?_, ht.gcAlloc hexn hfresh hlt h, ?_⟩
  · rw [hb, hg, hcom]; simp only [GcState.link]; omega
  · rw [hb]; exact hwith
  · intro x hx
    have hne : x ≠ a := fun he => hothers (he ▸ hx)
    rw [hS]
    exact Function.update_of_ne hne _ _

theorem gcAllocException_fresh {S : Store} {g : GcState} {b : Budget} {n : Nat} {fresh : Option Addr} {a : Addr}
    {r : Store × GcState × Budget} (h : gcAllocException S g b n fresh = some (a, r)) : fresh = some a := by
  unfold gcAllocException at h
  dsimp only at h
  split_ifs at h
  obtain ⟨⟨x, S₁, g₁, b₁⟩, hal, he⟩ := Option.map_eq_some_iff.1 h
  obtain ⟨-, rfl, -⟩ := gcAlloc_cases hal
  exact congrArg some (Prod.mk.inj he).1

theorem HeapChange.of_gcAllocException {S S' : Store} {g g' : GcState} {b b' : Budget} {n : Nat} {fresh : Option Addr}
    {a : Addr} {others : Addr → Prop} (ht : Tallied S g b) (hw : b.Within) (hfresh : a ∉ g.allObjects)
    (hothers : ¬ others a) (hf : b.Fits (headerSize + (exceptionFieldsSize + n * exceptionValueSize)))
    (h : gcAllocException S g b n fresh = some (a, S', g', b')) : HeapChange S g b S' g' b' others := by
  have htallied := fun hlt => ht.gcAllocException hfresh hlt h
  unfold gcAllocException at h
  dsimp only at h
  split_ifs at h
  obtain ⟨⟨x, S₁, g₁, b₁⟩, hal, he⟩ := Option.map_eq_some_iff.1 h
  simp only [Prod.mk.injEq] at he
  obtain ⟨rfl, rfl, rfl, rfl⟩ := he
  obtain ⟨hcheck, -, hS, hg, hb⟩ := gcAlloc_cases hal
  obtain ⟨hcom, hwith, hlt⟩ := hf.charge hw hcheck
  refine ⟨?_, ?_, htallied hlt, ?_⟩
  · rw [hb, hg, hcom]; simp only [GcState.link]; omega
  · rw [hb]; exact hwith
  · intro y hy
    have hne : y ≠ x := fun he => hothers (he ▸ hy)
    rw [hS]
    exact Function.update_of_ne hne _ _

theorem Accounted.gcStart (hA : Accounted W) (hg : (W.ctx p).gc = none) (hp : (W.ctx p).budgetCtx = none) :
    Accounted (W.set p fun x => { x with gc := some {} }) := by
  refine hA.heap (p := p) hp (set_self _) (fun d hd => set_other _ hd) ?_ (hA.within p) (tallied_start _)
    fun _ _ _ _ _ _ => rfl
  simp [LinkCtx.heapBytes, hg]

theorem Accounted.setLimits (hA : Accounted W) (m : UInt64) (hp : (W.ctx p).budgetCtx = none) :
    Accounted (W.setLimits p m) := by
  unfold World.setLimits
  split_ifs with hlt
  · exact hA
  · have hcases := set_cases W p fun x => { x with budget := { x.budget with maxBytes := limitBytes m } }
    constructor
    case committed =>
      intro q hq
      have haccount : (W.set p fun x => { x with budget := { x.budget with maxBytes := limitBytes m } }).account q =
          W.account q := by
        apply account_congr
        · intro d
          rcases hcases d with he | rfl
          · rw [he]
          · rw [set_self]; rfl
        · rcases hcases q with he | rfl
          · rw [World.owned, he]; rfl
          · rw [World.owned, set_self]; rfl
        · rcases hcases q with he | rfl
          · rw [he]
          · rw [set_self]
      rw [haccount]
      rcases hcases q with he | rfl
      · rw [he] at hq ⊢; exact hA.committed q hq
      · rw [set_self]; exact hA.committed q hp
    case within =>
      intro q
      rcases hcases q with he | rfl
      · rw [he]; exact hA.within q
      · rw [set_self]
        intro n hn
        simp only [limitBytes] at hn
        split_ifs at hn
        cases hn
        exact ⟨by simpa using hlt, m.toNat_lt⟩
    case ownedBudget =>
      intro d q hq
      rcases hcases d with he | rfl
      · rw [he] at hq ⊢; exact hA.ownedBudget d q hq
      · rw [set_self] at hq
        rw [hp] at hq
        cases hq
    case nodup =>
      intro q
      rcases hcases q with he | rfl
      · rw [World.owned, he]; exact hA.nodup q
      · rw [World.owned, set_self]; exact hA.nodup q
    case tallied =>
      intro q g hg
      rcases hcases q with he | rfl
      · rw [he] at hg ⊢; exact hA.tallied q g hg
      · rw [set_self] at hg ⊢
        have ht := hA.tallied q g hg
        exact ⟨ht.objects, ht.exceptions, ht.bytes, ht.covered⟩

/-! ## Runs -/

/-- no charge of the operation wraps -/
def Fits (W : World) : ShareOp → Prop
  | .newContext _ spec limit =>
    (∀ k, ∀ d ∈ spec.defs k, d.data.isSome = true) → Budget.Fits ⟨limitBytes limit, 0⟩ spec.charged
  | .createOwned p _ _ spec => (W.ctx p).budget.Fits spec.charged
  | .grow _ fctx k i delta _ (some _) =>
    ∀ s, W.slot fctx k i = some s → ∀ newSize deltaBytes, s.growPlan delta k = .to newSize deltaBytes →
      (W.ctx (W.root (ownerOf fctx s i).1)).budget.Fits deltaBytes
  | .gcAlloc c _ _ payload (some _) => (W.ctx (W.root c)).budget.Fits (headerSize + payload)
  | .gcAllocException c n (some _) =>
    (W.ctx (W.root c)).budget.Fits (headerSize + (exceptionFieldsSize + n * exceptionValueSize))
  | _ => True

/-- the worlds reached by operations whose charges all fit -/
inductive ReachedFitting : World → Prop where
  | start : ReachedFitting empty
  | step {W W' : World} {op : ShareOp} (h : ReachedFitting W) (hf : W.Fresh op) (hfit : W.Fits op)
      (hs : W.step op = some W') : ReachedFitting W'

theorem ReachedFitting.reached (h : ReachedFitting W) : Reached W := by
  induction h with
  | start => exact .start
  | step _ hf _ hs ih => exact ih.step hf hs

theorem createSlots_allocated {spec : ModuleSpec} {b : Budget} (h : (createSlots spec b).2.2 = true) (k : Kind) :
    ∀ d ∈ spec.defs k, d.data.isSome = true := by
  unfold createSlots at h
  dsimp only at h
  split_ifs at h with hok
  have hm := defineSlots_allocated (k := .memory) (l := spec.defs .memory) (b := b) (by simpa using hok)
  have ht := defineSlots_allocated h
  simp only [List.all_eq_true] at hm ht
  cases k with
  | memory => exact hm
  | table => exact ht

/-- every operation whose charges fit keeps the accounts exact -/
theorem Accounted.step (hA : Accounted W) (hC : Coherent W) {op : ShareOp} (hf : W.Fresh op) (hfit : W.Fits op)
    (h : W.step op = some W') : Accounted W' := by
  cases op with
  | newContext c spec limit => exact hA.newContext hC (fun hok => hfit (createSlots_allocated hok)) h
  | linkModule p => exact hA.linkModule h
  | linkContext p q registered => exact hA.linkContext h
  | createOwned p j c spec => exact hA.createOwned hC hfit h
  | bindImport c k i q qi registered gcRegistered => exact hA.bindImport h
  | finishOwned c => exact hA.finishOwned h
  | share p => exact hA.share h
  | finish p => exact hA.finish h
  | fail p => exact hA.fail h
  | grow ctx fctx k i delta fill alloc =>
    simp only [World.step] at h
    split_ifs at h with hsh
    obtain ⟨⟨r, W''⟩, hg, rfl⟩ := Option.map_eq_some_iff.1 h
    refine hA.grow hC hsh ?_ hg
    cases alloc with
    | none => intro hno; cases hno
    | some data => exact fun _ => hfit
  | write c k i n v =>
    simp only [World.step] at h
    split_ifs at h
    cases h
    have hctx := write_ctx (W := W) (c := c) k i n v
    refine hA.same ?_ ?_ ?_ ?_ ?_ ?_
    case refine_6 =>
      unfold World.write
      split
      · rfl
      · split_ifs <;> rfl
    all_goals
      intro d
      simp only [World.owned, hctx]
  | gcStart p =>
    simp only [World.step] at h
    split_ifs at h with hg hgc
    · cases h; exact hA
    · cases h
      simp only [Bool.and_eq_true, Option.isNone_iff_eq_none] at hg
      exact hA.gcStart (by simpa using hgc) hg.2
  | gcAlloc c mod reprId payload fresh =>
    simp only [World.step] at h
    split_ifs at h with hexn
    cases h
    refine hA.onHeap hC _ fun g S' g' b' hg hres => ?_
    obtain ⟨⟨a, r⟩, hal, rfl⟩ := Option.map_eq_some_iff.1 hres
    obtain ⟨-, rfl, -⟩ := gcAlloc_cases hal
    refine .of_gcAlloc (hA.tallied _ g hg) (hA.within _) hexn (hf _ g hg) ?_ hfit hal
    rintro ⟨q, h, -, hq, ha⟩
    exact hf q h hq ha
  | gcAllocException c n fresh =>
    cases h
    refine hA.onHeap hC _ fun g S' g' b' hg hres => ?_
    obtain ⟨⟨a, r⟩, hal, rfl⟩ := Option.map_eq_some_iff.1 hres
    cases gcAllocException_fresh hal
    refine .of_gcAllocException (hA.tallied _ g hg) (hA.within _) (hf _ g hg) ?_ hfit hal
    rintro ⟨q, h, -, hq, ha⟩
    exact hf q h hq ha
  | collect c marked =>
    cases h
    refine hA.onHeap hC _ fun g S' g' b' hg hres => ?_
    cases hres
    exact .of_swept (hA.tallied _ g hg) (hA.within _) (stepSweep_swept marked (hA.tallied _ g hg))
  | sweepExceptions c marked =>
    cases h
    refine hA.onHeap hC _ fun g S' g' b' hg hres => ?_
    cases hres
    exact .of_swept (hA.tallied _ g hg) (hA.within _) (sweepExceptions_swept marked (hA.tallied _ g hg))
  | setLimits p m =>
    simp only [World.step] at h
    split_ifs at h with hg
    cases h
    simp only [Bool.and_eq_true, Option.isNone_iff_eq_none] at hg
    exact hA.setLimits m hg.2

theorem ReachedFitting.accounted (h : ReachedFitting W) : Accounted W := by
  induction h with
  | start => exact accounted_empty
  | step hW hf hfit hs ih => exact ih.step hW.reached.coherent hf hfit hs

/-- what any sweep of a heap releases is part of what is committed -/
theorem bytesOf_sublist {S : Store} {l l' : List Addr} (h : l.Sublist l') : bytesOf S l ≤ bytesOf S l' := by
  induction h with
  | slnil => exact Nat.le_refl _
  | cons a _ ih => rw [bytesOf_cons]; omega
  | cons_cons a _ ih => rw [bytesOf_cons, bytesOf_cons]; omega

/-- the budget is exact: every primary has committed what it answers for, within its limit; contexts it owns commit
nothing; and whatever part of a heap is released, no release underflows -/
structure BudgetExact (W : World) : Prop where
  committed : ∀ p, (W.ctx p).budgetCtx = none → (W.ctx p).budget.committed = W.account p
  limit : ∀ p m, (W.ctx p).budget.maxBytes = some m → (W.ctx p).budget.committed ≤ m
  ownedNone : ∀ c, (W.ctx c).budgetCtx.isSome = true → (W.ctx c).budget.committed = 0
  releases : ∀ p g, (W.ctx p).gc = some g → g.allocatedBytes = bytesOf W.store g.allObjects ∧
    ∀ l, l.Sublist g.allObjects → bytesOf W.store l ≤ (W.ctx p).budget.committed

/-- **The memory budget is exact.** In every state of every run whose charges fit, after instantiations that succeeded
or failed at any point, grows by any context through any slot, allocations, collections, sweeps and changes of the
limit.
-/
theorem budget_exact (hW : ReachedFitting W) : BudgetExact W := by
  have hA := hW.accounted
  refine ⟨hA.committed, fun p m hm => (hA.within p m hm).1, fun c hc => ?_, fun p g hg => ?_⟩
  · obtain ⟨q, hq⟩ := Option.isSome_iff_exists.1 hc
    rw [(hA.ownedBudget c q hq).1]
  · have ht := hA.tallied p g hg
    exact ⟨ht.bytes, fun l hl => (bytesOf_sublist hl).trans ht.covered⟩

theorem ReachedFitting.run (hW : ReachedFitting W) {ops : List ShareOp}
    (hf : ∀ op ∈ ops, ∀ V : World, V.Fresh op ∧ V.Fits op) (h : W.run ops = some W') : ReachedFitting W' := by
  induction ops generalizing W with
  | nil => cases h; exact hW
  | cons op rest ih =>
    simp only [World.run, List.foldlM_cons, Option.bind_eq_bind, Option.bind_eq_some_iff] at h
    obtain ⟨V, hs, hrest⟩ := h
    obtain ⟨h1, h2⟩ := hf op (by simp) W
    exact ih (hW.step h1 h2 hs) (fun o ho => hf o (List.mem_cons_of_mem _ ho)) hrest

theorem budget_exact_sample : (sharedWorld.ctx 0).budget.committed = pageSize ∧ BudgetExact sharedWorld := by
  refine ⟨rfl, budget_exact (ReachedFitting.start.run ?_ (Option.some_get (x := empty.run sharedMemory) rfl).symm)⟩
  simp [sharedMemory, Fresh, Fits, Budget.Fits, limitBytes, ModuleSpec.charged, chargedBytes, Kind.hasByteSize, Kind.bytes,
    pageSize]

/-- a context with a heap, before the host allocates an object of 1000 bytes -/
def heapOnly : World :=
  (empty.run [.newContext 0 ⟨fun _ => 0, fun _ => []⟩ (-1), .gcStart 0]).get rfl

/-- the object is there, and a module with a table of 2^60 - 1 elements was linked: instantiating fails for want of
memory, after the table was charged -/
def wrapped : World :=
  (heapOnly.run [.gcAlloc 0 none reprHost 1000 (some 1), .linkModule 0,
    .createOwned 0 0 1 ⟨fun _ => 0, fun | .memory => [] | .table => [⟨2 ^ 60 - 1, 2 ^ 60 - 1, none⟩]⟩]).get rfl

theorem heapOnly_reached : Reached heapOnly := by
  refine Reached.start.run ?_ (Option.some_get (x := empty.run _) rfl).symm
  simp [Fresh]

theorem committed_wraps : Reached wrapped ∧ (wrapped.ctx 0).instantiateFailed = true ∧
    (wrapped.ctx 0).budget.committed < wrapped.account 0 ∧
    ∃ g, (wrapped.ctx 0).gc = some g ∧ (wrapped.ctx 0).budget.committed < bytesOf wrapped.store g.allObjects := by
  have hfresh : heapOnly.Fresh (.gcAlloc 0 none reprHost 1000 (some 1)) := by
    intro p g hg
    match p with
    | 0 => cases hg; simp
    | p + 1 => cases hg
  have hrest : Reached wrapped := by
    have hstep := heapOnly_reached.step hfresh rfl
    refine hstep.run ?_ (show World.run _ [.linkModule 0, .createOwned 0 0 1
      ⟨fun _ => 0, fun | .memory => [] | .table => [⟨2 ^ 60 - 1, 2 ^ 60 - 1, none⟩]⟩] = some wrapped from rfl)
    simp [Fresh]
  exact ⟨hrest, rfl, by decide, _, rfl, by decide⟩

end World

end Wah
