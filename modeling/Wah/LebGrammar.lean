/-
The grammar of variable-length integers in base 128 (LEB128), unsigned and signed.

An encoding is a string of bytes; all but the last have the top bit set, and each byte carries 7 bits, the lowest
first. An integer type of `N` bits leaves `N - 7` bits after a byte that continues, and the last byte must fit in what
is left (`LastByte`): the two kinds of integers differ in nothing else.

Results: an encoding is read in one way (`Enc.unique`), no encoding is a proper prefix of another, `readEnc` finds the
one at the start of a string (`readEnc_iff`), and the encodings of `n` are its padded forms (`enc_padded_unsigned`,
`enc_padded_signed`).
-/
import Mathlib.Tactic.Common
import Mathlib.Tactic.Ring
import Mathlib.Algebra.Order.Ring.Int

namespace Wah

/-- the value of a last byte where `N` bits are left, if it fits -/
abbrev LastByte := Nat → Nat → Option Int

/-- the last byte of an `uN` -/
def unsignedLast : LastByte := fun N b => if b < 2 ^ N then some b else none

/-- the last byte of an `sN`: bit 6 is the sign -/
def signedLast : LastByte := fun N b =>
  if b < 2 ^ 6 then if b < 2 ^ (N - 1) then some b else none
  else if 2 ^ 7 ≤ b + 2 ^ (N - 1) then some (b - 2 ^ 7) else none

/-! ## The grammar -/

/-- `bs` is an encoding of `n` in `N` bits -/
inductive Enc (last : LastByte) : Nat → List (BitVec 8) → Int → Prop where
  | final {N : Nat} {b : BitVec 8} {n : Int} : b.toNat < 2 ^ 7 → last N b.toNat = some n → Enc last N [b] n
  | more {N : Nat} {b : BitVec 8} {bs : List (BitVec 8)} {m : Int} : 2 ^ 7 ≤ b.toNat → 7 < N →
      Enc last (N - 7) bs m → Enc last N (b :: bs) (2 ^ 7 * m + (b.toNat - 2 ^ 7))

/-- the encoding at the start of a string: its value and its length -/
def readEnc (last : LastByte) : Nat → List (BitVec 8) → Option (Int × Nat)
  | _, [] => none
  | N, b :: bs =>
    if b.toNat < 2 ^ 7 then (last N b.toNat).map (·, 1)
    else if 7 < N then (readEnc last (N - 7) bs).map fun r => (2 ^ 7 * r.1 + (b.toNat - 2 ^ 7), r.2 + 1)
    else none

section Reading

variable {last : LastByte}

theorem Enc.ne_nil {N : Nat} {bs : List (BitVec 8)} {n : Int} (h : Enc last N bs n) : bs ≠ [] := by
  cases h <;> simp

theorem readEnc_of_enc {N : Nat} {bs : List (BitVec 8)} {n : Int} (h : Enc last N bs n) (rest : List (BitVec 8)) :
    readEnc last N (bs ++ rest) = some (n, bs.length) := by
  induction h with
  | final hb hn => simp only [List.singleton_append, readEnc, if_pos hb, hn, Option.map_some, List.length_singleton]
  | more hb hN _ ih =>
    simp only [List.cons_append, readEnc, if_neg (Nat.not_lt.2 hb), if_pos hN, ih]
    rfl

theorem enc_of_readEnc {N : Nat} {bytes : List (BitVec 8)} {n : Int} {k : Nat}
    (h : readEnc last N bytes = some (n, k)) : ∃ bs, bs <+: bytes ∧ bs.length = k ∧ Enc last N bs n := by
  induction bytes generalizing N n k with
  | nil => simp [readEnc] at h
  | cons b bytes ih =>
    simp only [readEnc] at h
    split_ifs at h with hb hN
    · obtain ⟨v, hv, hvn⟩ := Option.map_eq_some_iff.1 h
      obtain ⟨rfl, rfl⟩ := Prod.mk.injEq .. ▸ hvn
      exact ⟨[b], ⟨bytes, rfl⟩, rfl, .final hb hv⟩
    · obtain ⟨⟨m, j⟩, hm, hmn⟩ := Option.map_eq_some_iff.1 h
      obtain ⟨rfl, rfl⟩ := Prod.mk.injEq .. ▸ hmn
      obtain ⟨bs, hpre, hlen, henc⟩ := ih hm
      exact ⟨b :: bs, List.cons_prefix_cons.2 ⟨rfl, hpre⟩, by simp [hlen], .more (Nat.not_lt.1 hb) hN henc⟩

/-- the reader finds exactly the encodings at the start of a string -/
theorem readEnc_iff {N : Nat} {bytes bs : List (BitVec 8)} (hpre : bs <+: bytes) {n : Int} :
    readEnc last N bytes = some (n, bs.length) ↔ Enc last N bs n := by
  obtain ⟨rest, rfl⟩ := hpre
  constructor
  · intro h
    obtain ⟨bs', hpre, hlen, henc⟩ := enc_of_readEnc h
    have hbs : bs' = bs :=
      (List.prefix_of_prefix_length_le hpre (List.prefix_append bs rest) hlen.le).eq_of_length hlen
    exact hbs ▸ henc
  · exact fun h => readEnc_of_enc h rest

/-- a string starts with at most one encoding, of one value -/
theorem Enc.unique {N : Nat} {bytes bs bs' : List (BitVec 8)} {n n' : Int} (h : Enc last N bs n)
    (h' : Enc last N bs' n') (hpre : bs <+: bytes) (hpre' : bs' <+: bytes) : bs = bs' ∧ n = n' := by
  have heq := ((readEnc_iff hpre).2 h).symm.trans ((readEnc_iff hpre').2 h')
  simp only [Option.some.injEq, Prod.mk.injEq] at heq
  exact ⟨(List.prefix_of_prefix_length_le hpre hpre' heq.2.le).eq_of_length heq.2, heq.1⟩

end Reading

/-! ## Padded encodings -/

/-- `n` in exactly `k` bytes -/
def padded : Nat → Int → List (BitVec 8)
  | 0, _ => []
  | 1, n => [BitVec.ofInt 8 (n % 2 ^ 7)]
  | k + 2, n => BitVec.ofInt 8 (n % 2 ^ 7 + 2 ^ 7) :: padded (k + 1) (n / 2 ^ 7)

@[simp] theorem padded_length (k : Nat) (n : Int) : (padded k n).length = k := by
  induction k, n using padded.induct with
  | case1 => rfl
  | case2 => rfl
  | case3 k n ih => rw [padded, List.length_cons, ih]

theorem lowByte_toNat (n : Int) : ((BitVec.ofInt 8 (n % 2 ^ 7)).toNat : Int) = n % 2 ^ 7 := by
  rw [BitVec.toNat_ofInt]
  omega

theorem moreByte_toNat (n : Int) : ((BitVec.ofInt 8 (n % 2 ^ 7 + 2 ^ 7)).toNat : Int) = n % 2 ^ 7 + 2 ^ 7 := by
  rw [BitVec.toNat_ofInt]
  omega

/-- a padded form is an encoding when the bits above its first byte have one -/
theorem enc_padded_step {last : LastByte} {N k : Nat} {n : Int} (hN : 7 < N)
    (h : Enc last (N - 7) (padded (k + 1) (n / 2 ^ 7)) (n / 2 ^ 7)) : Enc last N (padded (k + 2) n) n := by
  have hb := moreByte_toNat n
  have hmod : 0 ≤ n % 2 ^ 7 := Int.emod_nonneg n (by decide)
  have henc := Enc.more (b := BitVec.ofInt 8 (n % 2 ^ 7 + 2 ^ 7)) (by omega) hN h
  have hval : 2 ^ 7 * (n / 2 ^ 7) + (((BitVec.ofInt 8 (n % 2 ^ 7 + 2 ^ 7)).toNat : Int) - 2 ^ 7) = n := by
    rw [hb]
    omega
  rwa [hval] at henc

/-- an unsigned integer of `N` bits has an encoding in every number of bytes that holds it and is allowed -/
theorem enc_padded_unsigned {N k : Nat} (hk : 7 * k < N) {n : Int} (h0 : 0 ≤ n) (hN : n < 2 ^ N)
    (hn : n < 2 ^ (7 * (k + 1))) : Enc unsignedLast N (padded (k + 1) n) n := by
  induction k generalizing N n with
  | zero =>
    have hb := lowByte_toNat n
    have hlow : n % 2 ^ 7 = n := Int.emod_eq_of_lt h0 hn
    have hcast : ((2 ^ N : Nat) : Int) = 2 ^ N := by push_cast; rfl
    have hfit : (BitVec.ofInt 8 (n % 2 ^ 7)).toNat < 2 ^ N := by omega
    refine .final (by omega) ?_
    rw [unsignedLast, if_pos hfit, hb, hlow]
  | succ k ih =>
    have hsplit : (2 : Int) ^ N = 2 ^ (N - 7) * 2 ^ 7 := by rw [← pow_add]; congr 1; omega
    have hpow : (2 : Int) ^ (7 * (k + 1 + 1)) = 2 ^ (7 * (k + 1)) * 2 ^ 7 := by rw [← pow_add]; congr 1
    refine enc_padded_step (by omega) (ih (by omega) (by omega) ?_ ?_)
    · exact Int.ediv_lt_of_lt_mul (by decide) (hsplit ▸ hN)
    · exact Int.ediv_lt_of_lt_mul (by decide) (hpow ▸ hn)

/-- a signed integer of `N` bits has an encoding in every number of bytes that holds it and is allowed -/
theorem enc_padded_signed {N k : Nat} (hk : 7 * k < N) {n : Int} (hlo : -2 ^ (N - 1) ≤ n) (hhi : n < 2 ^ (N - 1))
    (hnlo : -2 ^ (7 * k + 6) ≤ n) (hnhi : n < 2 ^ (7 * k + 6)) : Enc signedLast N (padded (k + 1) n) n := by
  induction k generalizing N n with
  | zero =>
    have hb := lowByte_toNat n
    have hcast : ((2 ^ (N - 1) : Nat) : Int) = 2 ^ (N - 1) := by push_cast; rfl
    refine .final (by omega) ?_
    rw [signedLast]
    rcases Int.lt_or_le n 0 with hneg | hpos
    · rw [if_neg (by omega), if_pos (by omega)]
      exact congrArg some (by omega)
    · rw [if_pos (by omega), if_pos (by omega)]
      exact congrArg some (by omega)
  | succ k ih =>
    have hsplit : (2 : Int) ^ (N - 1) = 2 ^ (N - 7 - 1) * 2 ^ 7 := by rw [← pow_add]; congr 1; omega
    have hpow : (2 : Int) ^ (7 * (k + 1) + 6) = 2 ^ (7 * k + 6) * 2 ^ 7 := by rw [← pow_add]; congr 1
    refine enc_padded_step (by omega) (ih (by omega) ?_ ?_ ?_ ?_)
    · exact (Int.le_ediv_iff_mul_le (by decide)).2 (by rw [Int.neg_mul, ← hsplit]; exact hlo)
    · exact Int.ediv_lt_of_lt_mul (by decide) (hsplit ▸ hhi)
    · exact (Int.le_ediv_iff_mul_le (by decide)).2 (by rw [Int.neg_mul, ← hpow]; exact hnlo)
    · exact Int.ediv_lt_of_lt_mul (by decide) (hpow ▸ hnhi)

end Wah
