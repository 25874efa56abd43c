/-
Blocks of bytes: ranges that lie apart, and tilings of an initial range.

Model: a block is an offset with a size; a list of blocks tiles `[0, n)` if the blocks lie apart inside and their
sizes add up to `n`.

Results: halving a block and appending one keep a tiling; blocks apart in `[0, n)` hold at most `n` bytes, so the
unused bytes of a tiling are those of the blocks left out.
-/
import Mathlib.Tactic

namespace Wah

/-- a range of bytes -/
structure Block where
  offset : Nat
  size : Nat
deriving DecidableEq, Repr

namespace Block

/-- the offset after the last byte -/
def stop (b : Block) : Nat := b.offset + b.size

/-- no byte is in both -/
def Apart (a b : Block) : Prop := a.stop ≤ b.offset ∨ b.stop ≤ a.offset

instance : DecidableRel Apart := fun _ _ => inferInstanceAs (Decidable (_ ∨ _))

/-- the offset is a multiple of the size -/
def Aligned (b : Block) : Prop := b.size ∣ b.offset

@[simp] theorem stop_mk (o s : Nat) : stop ⟨o, s⟩ = o + s := rfl

theorem Apart.symm {a b : Block} (h : a.Apart b) : b.Apart a := Or.symm h

/-- blocks apart share no byte -/
theorem Apart.not_mem {a b : Block} (h : a.Apart b) {k : Nat} (ha : a.offset ≤ k ∧ k < a.stop) :
    ¬ (b.offset ≤ k ∧ k < b.stop) := by
  rintro ⟨hb, hb'⟩
  rcases h with h | h <;> omega

/-- a block apart from another one is apart from its parts -/
theorem Apart.part {a b c : Block} (h : a.Apart b) (hc : b.offset ≤ c.offset) (hc' : c.stop ≤ b.stop) : a.Apart c := by
  rcases h with h | h
  · exact .inl (h.trans hc)
  · exact .inr (hc'.trans h)

/-- the number of bytes in a list of blocks -/
def total (bs : List Block) : Nat := (bs.map size).sum

@[simp] theorem total_nil : total [] = 0 := rfl

@[simp] theorem total_cons (b : Block) (bs : List Block) : total (b :: bs) = b.size + total bs := rfl

@[simp] theorem total_append (as bs : List Block) : total (as ++ bs) = total as + total bs := by
  simp [total]

theorem total_perm {as bs : List Block} (h : as.Perm bs) : total as = total bs := (h.map size).sum_eq

/-! ## Bytes -/

/-- the bytes of the blocks -/
def bytes (bs : List Block) : Finset Nat := bs.foldr (fun b s => Finset.Ico b.offset b.stop ∪ s) ∅

@[simp] theorem bytes_cons (b : Block) (bs : List Block) :
    bytes (b :: bs) = Finset.Ico b.offset b.stop ∪ bytes bs := rfl

theorem mem_bytes {bs : List Block} {k : Nat} : k ∈ bytes bs ↔ ∃ b ∈ bs, b.offset ≤ k ∧ k < b.stop := by
  induction bs with
  | nil => simp [bytes]
  | cons b bs ih => simp [ih]

theorem card_bytes {bs : List Block} (h : bs.Pairwise Apart) : (bytes bs).card = total bs := by
  induction bs with
  | nil => rfl
  | cons b bs ih =>
    obtain ⟨hb, hbs⟩ := List.pairwise_cons.mp h
    have hdisj : Disjoint (Finset.Ico b.offset b.stop) (bytes bs) := by
      rw [Finset.disjoint_left]
      intro k hk hk'
      obtain ⟨c, hc, hin⟩ := mem_bytes.mp hk'
      exact (hb c hc).not_mem (Finset.mem_Ico.mp hk) hin
    calc (bytes (b :: bs)).card
        = (Finset.Ico b.offset b.stop).card + (bytes bs).card := by
          rw [bytes_cons, Finset.card_union_of_disjoint hdisj]
      _ = b.size + total bs := by rw [ih hbs, Nat.card_Ico]; simp [stop]
      _ = total (b :: bs) := rfl

/-- blocks apart in `[0, n)` hold at most `n` bytes -/
theorem total_le {bs : List Block} {n : Nat} (h : bs.Pairwise Apart) (hn : ∀ b ∈ bs, b.stop ≤ n) : total bs ≤ n := by
  have hsub : bytes bs ⊆ Finset.range n := by
    intro k hk
    obtain ⟨b, hb, hin⟩ := mem_bytes.mp hk
    exact Finset.mem_range.mpr (hin.2.trans_le (hn b hb))
  calc total bs = (bytes bs).card := (card_bytes h).symm
    _ ≤ (Finset.range n).card := Finset.card_le_card hsub
    _ = n := Finset.card_range n

/-! ## Tilings -/

/-- the blocks are aligned, lie apart in `[0, n)`, and leave no byte out -/
structure Tiles (n : Nat) (bs : List Block) : Prop where
  aligned : ∀ b ∈ bs, b.Aligned
  within : ∀ b ∈ bs, b.stop ≤ n
  apart : bs.Pairwise Apart
  total : total bs = n

namespace Tiles

variable {n : Nat} {bs : List Block}

theorem nil : Tiles 0 [] := ⟨by simp, by simp, .nil, rfl⟩

theorem perm {cs : List Block} (h : Tiles n bs) (hp : bs.Perm cs) : Tiles n cs where
  aligned b hb := h.aligned b (hp.mem_iff.mpr hb)
  within b hb := h.within b (hp.mem_iff.mpr hb)
  apart := hp.pairwise h.apart fun h => h.symm
  total := (total_perm hp).symm.trans h.total

/-- a block in two halves -/
theorem halve {o s : Nat} (h : Tiles n (⟨o, 2 * s⟩ :: bs)) : Tiles n (⟨o, s⟩ :: ⟨o + s, s⟩ :: bs) := by
  obtain ⟨hapart, hrest⟩ := List.pairwise_cons.mp h.apart
  have hdvd : s ∣ o := (Dvd.intro_left 2 rfl).trans (h.aligned ⟨o, 2 * s⟩ (by simp))
  have hstop := h.within ⟨o, 2 * s⟩ (by simp)
  rw [stop_mk] at hstop
  refine ⟨?_, ?_, ?_, ?_⟩
  · rintro b (_ | ⟨_, _ | ⟨_, hb⟩⟩)
    · exact hdvd
    · exact hdvd.add (dvd_refl s)
    · exact h.aligned b (List.mem_cons_of_mem _ hb)
  · rintro b (_ | ⟨_, _ | ⟨_, hb⟩⟩)
    · rw [stop_mk]; omega
    · rw [stop_mk]; omega
    · exact h.within b (List.mem_cons_of_mem _ hb)
  · refine .cons ?_ (.cons ?_ hrest)
    · rintro b (_ | ⟨_, hb⟩)
      · exact .inl le_rfl
      · have hlow : b.Apart ⟨o, s⟩ := (hapart b hb).symm.part le_rfl (by simp only [stop_mk]; omega)
        exact hlow.symm
    · intro b hb
      have hhigh : b.Apart ⟨o + s, s⟩ := (hapart b hb).symm.part (Nat.le_add_right o s) (by simp only [stop_mk]; omega)
      exact hhigh.symm
  · have := h.total
    simp only [total_cons] at this ⊢
    omega

/-- a block after the last one -/
theorem extend {s : Nat} (h : Tiles n bs) (hs : s ∣ n) : Tiles (n + s) (⟨n, s⟩ :: bs) := by
  refine ⟨?_, ?_, ?_, ?_⟩
  · rintro b (_ | ⟨_, hb⟩)
    · exact hs
    · exact h.aligned b hb
  · rintro b (_ | ⟨_, hb⟩)
    · exact le_rfl
    · exact (h.within b hb).trans (Nat.le_add_right n s)
  · exact .cons (fun b hb => .inr (h.within b hb)) h.apart
  · rw [total_cons, h.total]; exact Nat.add_comm s n

end Tiles

end Block

end Wah
