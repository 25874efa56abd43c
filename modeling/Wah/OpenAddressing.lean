/-
Sets of keys by open addressing with linear probing, over any keys and hash.

Model:
- a table is a list of slots, some of which hold the key `empty`; the home of a key is its hash modulo the size;
- `probe` walks from the home of a key, around the table, up to the key or an empty slot. `insert` writes the key there,
  and `rehash` inserts the keys of a table into another;
- `Placed`: every key in the table is where its own probe first stops.

Results: while a slot is empty the probe stops within one turn, it finds exactly the keys of the table, and insertion
and rehashing keep the keys placed and add exactly the new ones.
-/
import Mathlib.Data.List.Basic
import Mathlib.Tactic.Ring
import Mathlib.Tactic.SplitIfs

namespace Wah

namespace OpenAddressing

variable {κ : Type*} (empty : κ) (hash : κ → Nat)

/-- the content of a slot -/
def slotAt (t : List κ) (i : Nat) : κ := (t[i]?).getD empty

/-- the walk from the home of `key` passes `d` slots, none of which is empty or holds the key -/
def Passed (t : List κ) (key : κ) (d : Nat) : Prop :=
  ∀ e < d, slotAt empty t ((hash key + e) % t.length) ≠ empty ∧ slotAt empty t ((hash key + e) % t.length) ≠ key

/-- every key is where its walk first stops -/
def Placed (t : List κ) : Prop :=
  ∀ i < t.length, slotAt empty t i ≠ empty →
    ∃ d < t.length, (hash (slotAt empty t i) + d) % t.length = i ∧ Passed empty hash t (slotAt empty t i) d

section
variable {empty hash} {t : List κ} {key : κ} {i : Nat}

theorem slotAt_set (hi : i < t.length) (j : Nat) :
    slotAt empty (t.set i key) j = if j = i then key else slotAt empty t j := by
  unfold slotAt
  rw [List.getElem?_set]
  by_cases hj : j = i
  · subst hj
    simp [hi]
  · rw [if_neg (Ne.symm hj), if_neg hj]

theorem mem_of_slotAt (h : slotAt empty t i = key) (hkey : key ≠ empty) : key ∈ t := by
  unfold slotAt at h
  cases hi : t[i]? with
  | none =>
    rw [hi] at h
    exact absurd h.symm hkey
  | some k =>
    rw [hi] at h
    exact h ▸ List.mem_of_getElem? hi

theorem slotAt_of_mem (empty : κ) (h : key ∈ t) : ∃ i < t.length, slotAt empty t i = key := by
  obtain ⟨i, hi, hkey⟩ := List.getElem_of_mem h
  exact ⟨i, hi, by simp [slotAt, List.getElem?_eq_getElem hi, hkey]⟩

theorem placed_replicate (empty : κ) (hash : κ → Nat) (n : Nat) : Placed empty hash (List.replicate n empty) := by
  intro i hi hslot
  rw [List.length_replicate] at hi
  simp [slotAt, hi] at hslot

end

variable [DecidableEq κ]

/-- the walk from the slot `i`, for at most `steps` slots -/
def probe (t : List κ) (key : κ) : Nat → Nat → Nat
  | 0, i => i
  | steps + 1, i =>
    if slotAt empty t i ≠ empty ∧ slotAt empty t i ≠ key then probe t key steps ((i + 1) % t.length) else i

/-- the slot of a key, or the empty slot where it goes -/
def find (t : List κ) (key : κ) : Nat := probe empty t key t.length (hash key % t.length)

def has (t : List κ) (key : κ) : Bool := decide (slotAt empty t (find empty hash t key) = key)

def insert (t : List κ) (key : κ) : List κ := t.set (find empty hash t key) key

/-- the keys of `old`, into `t` -/
def rehash (old t : List κ) : List κ := old.foldl (fun t k => if k ≠ empty then insert empty hash t k else t) t

/-- the number of slots that are not empty -/
def occupied (t : List κ) : Nat := t.countP fun k => decide (k ≠ empty)

variable {empty hash} {t old : List κ} {key k : κ} {i : Nat}

/-! ## The walk -/

/-- the walk stops at the first slot, in its order, that is empty or holds the key -/
theorem probe_eq {d steps : Nat} (hd : d < steps)
    (hpassed : ∀ e < d, slotAt empty t ((i + e) % t.length) ≠ empty ∧ slotAt empty t ((i + e) % t.length) ≠ key)
    (hstop : slotAt empty t ((i + d) % t.length) = empty ∨ slotAt empty t ((i + d) % t.length) = key) :
    probe empty t key steps (i % t.length) = (i + d) % t.length := by
  induction steps generalizing i d with
  | zero => omega
  | succ steps ih =>
    rw [probe]
    cases d with
    | zero =>
      rw [Nat.add_zero] at hstop ⊢
      exact if_neg fun ⟨hempty, hkey⟩ => hstop.elim hempty hkey
    | succ d =>
      have hfirst := hpassed 0 (Nat.succ_pos d)
      rw [Nat.add_zero] at hfirst
      have hshift : ∀ e, i + 1 + e = i + (e + 1) := by
        intro e
        omega
      rw [if_pos hfirst, Nat.mod_add_mod, ← hshift d]
      apply ih (Nat.lt_of_succ_lt_succ hd)
      · intro e he
        rw [hshift]
        exact hpassed (e + 1) (Nat.succ_lt_succ he)
      · rwa [hshift]

/-- a walk that meets an empty slot or the key within one turn has a first such slot -/
theorem exists_first (h : ∃ d < t.length, slotAt empty t ((hash key + d) % t.length) = empty ∨
    slotAt empty t ((hash key + d) % t.length) = key) :
    ∃ d < t.length, Passed empty hash t key d ∧ find empty hash t key = (hash key + d) % t.length ∧
      (slotAt empty t (find empty hash t key) = empty ∨ slotAt empty t (find empty hash t key) = key) := by
  classical
  have hfirst := Nat.find_spec h
  have hbefore := fun e => Nat.find_min (m := e) h
  generalize Nat.find h = d at hfirst hbefore
  have hpassed : Passed empty hash t key d := by
    intro e he
    have hno := hbefore e he
    push Not at hno
    exact hno (he.trans hfirst.1)
  have hfind : find empty hash t key = (hash key + d) % t.length := probe_eq hfirst.1 hpassed hfirst.2
  exact ⟨d, hfirst.1, hpassed, hfind, hfind ▸ hfirst.2⟩

/-- every slot is met within one turn -/
theorem exists_offset {n i : Nat} (h : Nat) (hi : i < n) : ∃ d < n, (h + d) % n = i := by
  have hpos : 0 < n := by omega
  have hmod : h % n < n := Nat.mod_lt _ hpos
  refine ⟨(i + (n - h % n)) % n, Nat.mod_lt _ hpos, ?_⟩
  rw [Nat.add_mod_mod, ← Nat.mod_add_mod]
  have hsum : h % n + (i + (n - h % n)) = i + n := by omega
  rw [hsum, Nat.add_mod_right, Nat.mod_eq_of_lt hi]

/-- while a slot is empty, the walk of any key stops within one turn -/
theorem find_stops (hash : κ → Nat) (hfree : empty ∈ t) (key : κ) :
    ∃ d < t.length, Passed empty hash t key d ∧ find empty hash t key = (hash key + d) % t.length ∧
      (slotAt empty t (find empty hash t key) = empty ∨ slotAt empty t (find empty hash t key) = key) := by
  obtain ⟨i, hi, hslot⟩ := slotAt_of_mem empty hfree
  obtain ⟨d, hd, rfl⟩ := exists_offset (hash key) hi
  exact exists_first ⟨d, hd, Or.inl hslot⟩

/-- the walk finds exactly the keys of the table -/
theorem has_iff (hplaced : Placed empty hash t) (hkey : key ≠ empty) : has empty hash t key = true ↔ key ∈ t := by
  rw [has, decide_eq_true_iff]
  refine ⟨fun h => mem_of_slotAt h hkey, fun h => ?_⟩
  obtain ⟨i, hi, rfl⟩ := slotAt_of_mem empty h
  obtain ⟨d, hd, hdi, hpassed⟩ := hplaced i hi hkey
  have hfind : find empty hash t (slotAt empty t i) = i := by
    calc find empty hash t (slotAt empty t i)
        = (hash (slotAt empty t i) + d) % t.length := probe_eq hd hpassed (Or.inr (by rw [hdi]))
      _ = i := hdi
  rw [hfind]

/-! ## Insertion -/

@[simp] theorem insert_length (t : List κ) (key : κ) : (insert empty hash t key).length = t.length := by
  simp [insert]

/-- what insertion changes: one slot, which was empty or held the key -/
theorem slotAt_insert (hfree : empty ∈ t) (key : κ) (j : Nat) :
    slotAt empty (insert empty hash t key) j = if j = find empty hash t key then key else slotAt empty t j := by
  obtain ⟨d, hd, -, hfind, -⟩ := find_stops hash hfree key
  have hpos : 0 < t.length := by omega
  have hlt : find empty hash t key < t.length := hfind ▸ Nat.mod_lt _ hpos
  exact slotAt_set hlt j

/-- a slot that is not empty keeps its key -/
theorem slotAt_insert_of_ne_empty (hfree : empty ∈ t) {j : Nat} (hj : slotAt empty t j ≠ empty) :
    slotAt empty (insert empty hash t key) j = slotAt empty t j := by
  rw [slotAt_insert hfree]
  split_ifs with heq
  · obtain ⟨-, -, -, -, hempty | hkey⟩ := find_stops hash hfree key
    · exact absurd (heq ▸ hempty) hj
    · rw [heq, hkey]
  · rfl

theorem Passed.insert (hfree : empty ∈ t) {d : Nat} (h : Passed empty hash t k d) :
    Passed empty hash (insert empty hash t key) k d := by
  intro e he
  rw [insert_length, slotAt_insert_of_ne_empty hfree (h e he).1]
  exact h e he

theorem Placed.insert (hplaced : Placed empty hash t) (hfree : empty ∈ t) (key : κ) :
    Placed empty hash (insert empty hash t key) := by
  intro i hi hslot
  rw [insert_length] at hi ⊢
  rw [slotAt_insert hfree] at hslot ⊢
  split_ifs at hslot ⊢ with heq
  · obtain ⟨d, hd, hpassed, hfind, -⟩ := find_stops hash hfree key
    exact ⟨d, hd, by rw [heq, hfind], hpassed.insert hfree⟩
  · obtain ⟨d, hd, hdi, hpassed⟩ := hplaced i hi hslot
    exact ⟨d, hd, hdi, hpassed.insert hfree⟩

theorem mem_insert_iff (hfree : empty ∈ t) (hkey : key ≠ empty) (hk : k ≠ empty) :
    k ∈ insert empty hash t key ↔ k ∈ t ∨ k = key := by
  constructor
  · intro hmem
    obtain ⟨i, -, hslot⟩ := slotAt_of_mem empty hmem
    rw [slotAt_insert hfree] at hslot
    split_ifs at hslot with heq
    · exact Or.inr hslot.symm
    · exact Or.inl (mem_of_slotAt hslot hk)
  · rintro (hmem | rfl)
    · obtain ⟨i, -, rfl⟩ := slotAt_of_mem empty hmem
      exact mem_of_slotAt (slotAt_insert_of_ne_empty hfree hk) hk
    · apply mem_of_slotAt (i := find empty hash t k) _ hk
      rw [slotAt_insert hfree, if_pos rfl]

theorem occupied_insert_le (empty : κ) (hash : κ → Nat) (t : List κ) (key : κ) : occupied empty (insert empty hash t key) ≤ occupied empty t + 1 := by
  unfold occupied insert
  by_cases hlt : find empty hash t key < t.length
  · rw [List.countP_set hlt]
    split_ifs <;> omega
  · rw [List.set_eq_of_length_le (Nat.not_lt.1 hlt)]
    omega

/-- a table with fewer keys than slots has an empty slot -/
theorem empty_mem_of_lt (h : occupied empty t < t.length) : empty ∈ t := by
  by_contra hno
  have hall : ∀ k ∈ t, decide (k ≠ empty) = true := by
    intro k hk
    rw [decide_eq_true_iff]
    rintro rfl
    exact hno hk
  rw [occupied, List.countP_eq_length.2 hall] at h
  exact lt_irrefl _ h

/-! ## Rehashing -/

theorem occupied_replicate (n : Nat) : occupied empty (List.replicate n empty) = 0 := by
  simp [occupied]

/-- what rehashing leaves, when there is room for all keys and one empty slot -/
structure Rehashed (empty : κ) (hash : κ → Nat) (old t t' : List κ) : Prop where
  length : t'.length = t.length
  placed : Placed empty hash t'
  mem : ∀ k, k ≠ empty → (k ∈ t' ↔ k ∈ t ∨ k ∈ old)
  occupied : occupied empty t' ≤ occupied empty t + occupied empty old

theorem rehash_spec (hplaced : Placed empty hash t) (hroom : occupied empty t + occupied empty old < t.length) :
    Rehashed empty hash old t (rehash empty hash old t) := by
  induction old generalizing t with
  | nil => exact ⟨rfl, hplaced, by simp [rehash], by simp [rehash]⟩
  | cons key old ih =>
    rw [rehash, List.foldl_cons, ← rehash]
    by_cases hkey : key = empty
    · have hocc : occupied empty (key :: old) = occupied empty old := by simp [occupied, hkey]
      rw [if_neg (not_not.2 hkey)]
      rw [hocc] at hroom
      obtain ⟨hlen, hpl, hmem, hle⟩ := ih hplaced hroom
      refine ⟨hlen, hpl, fun k hk => ?_, by rwa [hocc]⟩
      rw [hmem k hk, List.mem_cons, hkey]
      exact or_congr_right (by simp [hk])
    · have hocc : occupied empty (key :: old) = occupied empty old + 1 := by simp [occupied, hkey]
      rw [if_pos hkey]
      have hfree : empty ∈ t := empty_mem_of_lt (by omega)
      have hins := occupied_insert_le empty hash t key
      obtain ⟨hlen, hpl, hmem, hle⟩ := ih (hplaced.insert hfree key) (by rw [insert_length]; omega)
      refine ⟨hlen.trans (insert_length t key), hpl, fun k hk => ?_, by omega⟩
      rw [hmem k hk, mem_insert_iff hfree hkey hk, List.mem_cons, or_assoc]

end OpenAddressing

end Wah
