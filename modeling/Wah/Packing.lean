/-
Packed data: numbers as little-endian bytes, and halves of 32-bit words.

Model: `leBytes n x` is `n` bytes of `x`, and `readLe` reads a number at an offset of a byte list. `half` is one of the
two 16-bit halves of a word, and halves are set in order: the even one overwrites its word.

Results: a field is read back modulo its width wherever it stands (`readLe_field`), also in a list of records
(`readLe_record`); halves set in order are read back (`Halves.half`).
-/
import Mathlib.Data.Nat.Digits.Defs
import Mathlib.Tactic.Ring
import Mathlib.Data.List.GetD

namespace Wah

/-! ## Little-endian bytes -/

/-- `n` bytes of a number, the lowest first -/
def leBytes : Nat → Nat → List UInt8
  | 0, _ => []
  | n + 1, x => UInt8.ofNat x :: leBytes n (x / 256)

/-- the number in bytes, the lowest first -/
def leValue (bs : List UInt8) : Nat := Nat.ofDigits 256 (bs.map UInt8.toNat)

/-- the number in `n` bytes at an offset -/
def readLe (n : Nat) (bs : List UInt8) (off : Nat) : Nat := leValue ((bs.drop off).take n)

@[simp] theorem leBytes_length (n x : Nat) : (leBytes n x).length = n := by
  induction n generalizing x with
  | zero => rfl
  | succ n ih => rw [leBytes, List.length_cons, ih]

theorem leValue_leBytes (n x : Nat) : leValue (leBytes n x) = x % 256 ^ n := by
  induction n generalizing x with
  | zero => rw [pow_zero, Nat.mod_one]; rfl
  | succ n ih =>
    have hcons : leValue (leBytes (n + 1) x) = (UInt8.ofNat x).toNat + 256 * leValue (leBytes n (x / 256)) := by
      simp [leValue, leBytes, Nat.ofDigits_cons]
    calc leValue (leBytes (n + 1) x)
        = x % 256 + 256 * (x / 256 % 256 ^ n) := by rw [hcons, ih]; rfl
      _ = x % 256 ^ (n + 1) := by rw [pow_succ', Nat.mod_mul]

/-- a field is read back modulo its width -/
theorem readLe_field {n x off : Nat} {bs pre post : List UInt8} (hbs : bs = pre ++ (leBytes n x ++ post))
    (hoff : off = pre.length) : readLe n bs off = x % 256 ^ n := by
  have htake : (leBytes n x ++ post).take n = leBytes n x := List.take_left' (leBytes_length n x)
  rw [readLe, hbs, hoff, List.drop_left, htake, leValue_leBytes]

section
variable {α : Type} {f : α → List UInt8} {k : Nat}

theorem length_flatMap_const (hf : ∀ a, (f a).length = k) (xs : List α) : (xs.flatMap f).length = k * xs.length := by
  induction xs with
  | nil => rfl
  | cons x xs ih => rw [List.flatMap_cons, List.length_append, hf, ih, List.length_cons]; ring

/-- a field of one of many records of the same size -/
theorem readLe_record {n x off i skip : Nat} {bs pre post before after : List UInt8} {xs : List α} {a : α}
    (hf : ∀ a, (f a).length = k) (hbs : bs = pre ++ (xs.flatMap f ++ post)) (ha : xs[i]? = some a)
    (hfield : f a = before ++ (leBytes n x ++ after)) (hskip : skip = before.length)
    (hoff : off = pre.length + k * i + skip) : readLe n bs off = x % 256 ^ n := by
  obtain ⟨hi, rfl⟩ := List.getElem?_eq_some_iff.mp ha
  have hsplit : xs.flatMap f = (xs.take i).flatMap f ++ (f xs[i] ++ (xs.drop (i + 1)).flatMap f) := by
    calc xs.flatMap f = (xs.take i ++ xs.drop i).flatMap f := by rw [List.take_append_drop]
      _ = (xs.take i).flatMap f ++ (f xs[i] ++ (xs.drop (i + 1)).flatMap f) := by
        rw [List.flatMap_append, List.drop_eq_getElem_cons hi, List.flatMap_cons]
  have hlen : ((xs.take i).flatMap f).length = k * i := by
    rw [length_flatMap_const hf, List.length_take, Nat.min_eq_left hi.le]
  have hbytes : bs = (pre ++ (xs.take i).flatMap f ++ before) ++
      (leBytes n x ++ (after ++ ((xs.drop (i + 1)).flatMap f ++ post))) := by
    rw [hbs, hsplit, hfield]
    simp only [List.append_assoc]
  apply readLe_field hbytes
  rw [List.length_append, List.length_append, hlen, hoff, hskip]

end

/-! ## Halves of words -/

/-- half `i`, counted from word `base` on; the even one is the lower -/
def half (ws : List UInt32) (base i : Nat) : UInt32 :=
  (ws.getD (base + i / 2) 0 >>> UInt32.ofNat (i % 2 * 16)) &&& 0xffff

/-- sets half `i`, once the halves before it are set -/
def setHalf (ws : List UInt32) (base i : Nat) (x : UInt32) : List UInt32 :=
  ws.set (base + i / 2) (if i % 2 = 1 then ws.getD (base + i / 2) 0 ||| x <<< 16 else x)

theorem pair_toNat {a b : UInt32} (ha : a.toNat < 2 ^ 16) (hb : b.toNat < 2 ^ 16) :
    (a ||| b <<< 16).toNat = b.toNat * 2 ^ 16 + a.toNat := by
  have hfits : b.toNat <<< 16 < 2 ^ 32 := by rw [Nat.shiftLeft_eq]; omega
  rw [UInt32.toNat_or, UInt32.toNat_shiftLeft]
  show a.toNat ||| (b.toNat <<< 16) % 2 ^ 32 = _
  rw [Nat.mod_eq_of_lt hfits, Nat.or_comm, ← Nat.shiftLeft_add_eq_or_of_lt ha, Nat.shiftLeft_eq]

theorem mask_toNat (a : UInt32) : (a &&& 0xffff).toNat = a.toNat % 2 ^ 16 := by
  rw [UInt32.toNat_and]
  exact Nat.and_two_pow_sub_one_eq_mod _ 16

theorem pair_low {a b : UInt32} (ha : a.toNat < 2 ^ 16) (hb : b.toNat < 2 ^ 16) :
    ((a ||| b <<< 16) >>> 0) &&& 0xffff = a := by
  rw [← UInt32.toNat_inj, mask_toNat, UInt32.toNat_shiftRight, pair_toNat ha hb]
  show (_ >>> 0) % _ = _
  rw [Nat.shiftRight_zero]
  omega

theorem pair_high {a b : UInt32} (ha : a.toNat < 2 ^ 16) (hb : b.toNat < 2 ^ 16) :
    ((a ||| b <<< 16) >>> 16) &&& 0xffff = b := by
  rw [← UInt32.toNat_inj, mask_toNat, UInt32.toNat_shiftRight, pair_toNat ha hb]
  show (_ >>> 16) % _ = _
  rw [Nat.shiftRight_eq_div_pow]
  omega

/-- halves set so far, in order: a word whose upper half is not set has zeros there -/
structure Halves (ws : List UInt32) (base : Nat) (xs : List UInt32) : Prop where
  small : ∀ x ∈ xs, x.toNat < 2 ^ 16
  words : ∀ k, 2 * k < xs.length → ws[base + k]? = some (xs.getD (2 * k) 0 ||| xs.getD (2 * k + 1) 0 <<< 16)

section
variable {ws : List UInt32} {base : Nat} {xs : List UInt32}

theorem halves_nil (ws : List UInt32) (base : Nat) : Halves ws base [] :=
  ⟨fun _ h => absurd h List.not_mem_nil, fun _ h => absurd h (Nat.not_lt_zero _)⟩

theorem Halves.getD_small (h : Halves ws base xs) (i : Nat) : (xs.getD i 0).toNat < 2 ^ 16 := by
  by_cases hi : i < xs.length
  · rw [List.getD_eq_getElem _ _ hi]
    exact h.small _ (List.getElem_mem hi)
  · rw [List.getD_eq_default _ _ (Nat.not_lt.mp hi)]
    decide

/-- halves are read back -/
theorem Halves.half (h : Halves ws base xs) {i : Nat} (hi : i < xs.length) : half ws base i = xs.getD i 0 := by
  have hword := h.words (i / 2) (by omega)
  have hget : ws.getD (base + i / 2) 0 = xs.getD (2 * (i / 2)) 0 ||| xs.getD (2 * (i / 2) + 1) 0 <<< 16 := by
    rw [List.getD_eq_getElem?_getD, hword, Option.getD_some]
  unfold Wah.half
  rw [hget]
  rcases Nat.mod_two_eq_zero_or_one i with hpar | hpar
  · have hi2 : 2 * (i / 2) = i := by omega
    rw [hpar, hi2]
    exact pair_low (h.getD_small i) (h.getD_small (i + 1))
  · have hi2 : 2 * (i / 2) + 1 = i := by omega
    rw [hpar, hi2]
    exact pair_high (h.getD_small _) (h.getD_small i)

/-- other words do not matter -/
theorem Halves.congr {ws' : List UInt32} (h : Halves ws base xs) (hws : ∀ k, ws'[base + k]? = ws[base + k]?) :
    Halves ws' base xs :=
  ⟨h.small, fun k hk => (hws k).trans (h.words k hk)⟩

/-- setting the next half -/
theorem Halves.snoc (h : Halves ws base xs) {x : UInt32} (hx : x.toNat < 2 ^ 16)
    (hroom : base + xs.length / 2 < ws.length) : Halves (setHalf ws base xs.length x) base (xs ++ [x]) := by
  refine ⟨fun y hy => ?_, fun k hk => ?_⟩
  · rcases List.mem_append.mp hy with hy | hy
    · exact h.small y hy
    · rw [List.mem_singleton.mp hy]
      exact hx
  · rw [List.length_append, List.length_singleton] at hk
    have hold (j : Nat) (hj : j < xs.length) : (xs ++ [x]).getD j 0 = xs.getD j 0 := by
      rw [List.getD_append _ _ _ _ hj]
    have hnew : (xs ++ [x]).getD xs.length 0 = x := by
      rw [List.getD_append_right _ _ _ _ le_rfl, Nat.sub_self, List.getD_cons_zero]
    have hpast (j : Nat) (hj : xs.length < j) : (xs ++ [x]).getD j 0 = 0 := by
      rw [List.getD_eq_default]
      rw [List.length_append, List.length_singleton]
      exact hj
    unfold setHalf
    rw [List.getElem?_set]
    by_cases hk2 : xs.length / 2 = k
    · rw [if_pos (by omega), if_pos (hk2 ▸ hroom)]
      rcases Nat.mod_two_eq_zero_or_one xs.length with hpar | hpar
      · -- the lower half, above which nothing is set
        have heq : 2 * k = xs.length := by omega
        rw [if_neg (by omega), heq, hnew, hpast (xs.length + 1) (by omega)]
        simp
      · have heq : 2 * k + 1 = xs.length := by omega
        have hlow := h.words k (by omega)
        have hzero : xs.getD (2 * k + 1) 0 = 0 := by rw [heq, List.getD_eq_default _ _ le_rfl]
        rw [hzero] at hlow
        rw [if_pos hpar, hk2, List.getD_eq_getElem?_getD, hlow, heq, hnew, hold (2 * k) (by omega), Option.getD_some]
        simp
    · rw [if_neg (by omega), h.words k (by omega), hold (2 * k) (by omega), hold (2 * k + 1) (by omega)]

end

end Wah
