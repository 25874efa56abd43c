/-
The four LEB128 decoders of the binary reader.

Model:
- `buf` is what the reader may look at, up to `end`; the cursor `*ptr` is an index. A read at or after the end is
  `fault`, which no decoder checks for;
- a decoder leaves its status, with the value it stores through `result`, and the cursor, on failure too;
- the accumulator is 64 bits wide in all four, and shifts drop what they push out.

Result: each decoder accepts exactly the encodings of its integer type at the cursor, gives their value and stops after
them, and the cursor never passes the end (`leb128_exact`).
-/
import Wah.LebGrammar
import Mathlib.Tactic.IntervalCases

namespace Wah

/-! ## Decoders -/

inductive LebError where
  | unexpectedEof | tooLarge | fault
deriving DecidableEq, Repr

/-- what a decoder leaves behind -/
structure Decoded (α : Type) where
  result : Except LebError α
  ptr : Nat

/-- `(uint64_t)(byte & 0x7F) << shift` -/
def lebGroup (byte : BitVec 8) (shift : Nat) : BitVec 64 := (byte &&& 0x7f).setWidth 64 <<< shift

/-- `if (val & sign_bit) val |= ~0ULL << shift`, where `shift` counts the bits read -/
def lebSignExtend (val : BitVec 64) (shift : Nat) : BitVec 64 :=
  if shift < 64 ∧ val &&& (1#64 <<< (shift - 1)) ≠ 0 then val ||| (BitVec.allOnes 64 <<< shift) else val

section Loop

variable {α : Type}

/-- `for (int i = 0; i < max; ++i)`, with `left` rounds to go; `finish` is what follows the last byte -/
def lebFor (finish : Nat → Nat → BitVec 64 → BitVec 8 → Except LebError α) (buf : List (BitVec 8)) :
    Nat → Nat → Nat → BitVec 64 → Nat → Decoded α
  | 0, _, ptr, _, _ => ⟨.error .tooLarge, ptr⟩
  | left + 1, i, ptr, val, shift =>
    if ptr < buf.length then
      match buf[ptr]? with
      | none => ⟨.error .fault, ptr⟩
      | some byte =>
        if byte &&& 0x80 = 0 then ⟨finish i shift (val ||| lebGroup byte shift) byte, ptr + 1⟩
        else lebFor finish buf left (i + 1) (ptr + 1) (val ||| lebGroup byte shift) (shift + 7)
    else ⟨.error .unexpectedEof, ptr⟩

end Loop

/-- the end of `wah_decode_uleb128` -/
def uleb128Finish (_ _ : Nat) (val : BitVec 64) (_ : BitVec 8) : Except LebError (BitVec 32) :=
  if val.toNat ≤ 0xFFFFFFFF then .ok (val.setWidth 32) else .error .tooLarge

def decodeUleb128 (buf : List (BitVec 8)) (ptr : Nat) : Decoded (BitVec 32) := lebFor uleb128Finish buf 5 0 ptr 0 0

/-- the end of `wah_decode_uleb128_64` -/
def uleb128Finish64 (i _ : Nat) (val : BitVec 64) (byte : BitVec 8) : Except LebError (BitVec 64) :=
  if i = 9 ∧ 1 < byte.toNat then .error .tooLarge else .ok val

def decodeUleb128_64 (buf : List (BitVec 8)) (ptr : Nat) : Decoded (BitVec 64) :=
  lebFor uleb128Finish64 buf 10 0 ptr 0 0

/-- the end of `wah_decode_sleb128_32`, which has counted the last byte already -/
def sleb128Finish32 (_ shift : Nat) (val : BitVec 64) (_ : BitVec 8) : Except LebError (BitVec 32) :=
  let val := lebSignExtend val (shift + 7)
  if -0x80000000 ≤ val.toInt ∧ val.toInt ≤ 0x7FFFFFFF then .ok (val.setWidth 32) else .error .tooLarge

def decodeSleb128_32 (buf : List (BitVec 8)) (ptr : Nat) : Decoded (BitVec 32) := lebFor sleb128Finish32 buf 5 0 ptr 0 0

/-- the end of `wah_decode_sleb128_64` -/
def sleb128Finish64 (shift : Nat) (val : BitVec 64) (byte : BitVec 8) : Except LebError (BitVec 64) :=
  if shift = 70 then
    if byte = 0x00 ∨ byte = 0x7f then .ok val else .error .tooLarge
  else .ok (lebSignExtend val shift)

/-- the `do … while (byte & 0x80)` loop of `wah_decode_sleb128_64` -/
def sleb128Do64 (buf : List (BitVec 8)) (ptr : Nat) (val : BitVec 64) (shift : Nat) : Decoded (BitVec 64) :=
  if ptr < buf.length then
    if shift < 64 then
      match buf[ptr]? with
      | none => ⟨.error .fault, ptr⟩
      | some byte =>
        if byte &&& 0x80 = 0 then ⟨sleb128Finish64 (shift + 7) (val ||| lebGroup byte shift) byte, ptr + 1⟩
        else sleb128Do64 buf (ptr + 1) (val ||| lebGroup byte shift) (shift + 7)
    else ⟨.error .tooLarge, ptr⟩
  else ⟨.error .unexpectedEof, ptr⟩
termination_by 64 - shift

def decodeSleb128_64 (buf : List (BitVec 8)) (ptr : Nat) : Decoded (BitVec 64) := sleb128Do64 buf ptr 0 0

/-! ## The accumulator -/

theorem continues_iff (byte : BitVec 8) : byte &&& 0x80 = 0 ↔ byte.toNat < 2 ^ 7 := by
  revert byte
  decide

theorem lowBits_toNat (byte : BitVec 8) : (byte &&& 0x7f).toNat = byte.toNat % 2 ^ 7 := by
  rw [BitVec.toNat_and]
  exact Nat.and_two_pow_sub_one_eq_mod byte.toNat 7

/-- a byte adds its 7 bits above what was read, as far as 64 bits hold them -/
theorem lebGroup_or (val : BitVec 64) (byte : BitVec 8) (shift : Nat) (hs : shift < 64) (hv : val.toNat < 2 ^ shift) :
    (val ||| lebGroup byte shift).toNat = val.toNat + 2 ^ shift * (byte.toNat % 2 ^ 7 % 2 ^ (64 - shift)) := by
  have hlow : byte.toNat % 2 ^ 7 < 2 ^ 64 := by omega
  have hgroup : (lebGroup byte shift).toNat = 2 ^ shift * (byte.toNat % 2 ^ 7 % 2 ^ (64 - shift)) := by
    have hpow : 2 ^ 64 = 2 ^ shift * 2 ^ (64 - shift) := by rw [← pow_add]; congr 1; omega
    rw [lebGroup, BitVec.toNat_shiftLeft, BitVec.toNat_setWidth, lowBits_toNat, Nat.mod_eq_of_lt hlow,
      Nat.shiftLeft_eq, Nat.mul_comm, hpow, Nat.mul_mod_mul_left]
  rw [BitVec.toNat_or, hgroup, Nat.or_comm, ← Nat.two_pow_add_eq_or_of_lt hv, Nat.add_comm]

/-- while a whole group fits, nothing is lost -/
theorem lebGroup_or_fits (val : BitVec 64) (byte : BitVec 8) (shift : Nat) (hs : shift ≤ 57)
    (hv : val.toNat < 2 ^ shift) :
    (val ||| lebGroup byte shift).toNat = val.toNat + 2 ^ shift * (byte.toNat % 2 ^ 7) := by
  have hpow : 2 ^ 7 ≤ 2 ^ (64 - shift) := Nat.pow_le_pow_right (by decide) (by omega)
  have hlow : byte.toNat % 2 ^ 7 < 2 ^ 7 := Nat.mod_lt _ (by decide)
  rw [lebGroup_or val byte shift (by omega) hv, Nat.mod_eq_of_lt (hlow.trans_le hpow)]

theorem lebGroup_or_lt (val : BitVec 64) (byte : BitVec 8) (shift : Nat) (hs : shift ≤ 57)
    (hv : val.toNat < 2 ^ shift) : (val ||| lebGroup byte shift).toNat < 2 ^ (shift + 7) := by
  have hlow : byte.toNat % 2 ^ 7 < 2 ^ 7 := Nat.mod_lt _ (by decide)
  calc (val ||| lebGroup byte shift).toNat
      = val.toNat + 2 ^ shift * (byte.toNat % 2 ^ 7) := lebGroup_or_fits val byte shift hs hv
    _ < 2 ^ shift + 2 ^ shift * (byte.toNat % 2 ^ 7) := Nat.add_lt_add_right hv _
    _ = 2 ^ shift * (byte.toNat % 2 ^ 7 + 1) := by ring
    _ ≤ 2 ^ shift * 2 ^ 7 := Nat.mul_le_mul_left _ hlow
    _ = 2 ^ (shift + 7) := (pow_add 2 shift 7).symm

/-- the sign bit of what was read -/
theorem signBit_iff (val : BitVec 64) {shift : Nat} (hs : shift < 64) (hv : val.toNat < 2 ^ (shift + 1)) :
    val &&& (1#64 <<< shift) ≠ 0 ↔ 2 ^ shift ≤ val.toNat := by
  have hone : (1#64 <<< shift) = BitVec.twoPow 64 shift := (BitVec.twoPow_eq 64 shift).symm
  have hdiv : val.toNat / 2 ^ shift < 2 := Nat.div_lt_of_lt_mul (by rw [← pow_succ]; exact hv)
  have hbit : val.getLsbD shift = true ↔ 2 ^ shift ≤ val.toNat := by
    rw [BitVec.getLsbD, Nat.testBit_eq_decide_div_mod_eq, decide_eq_true_iff, Nat.mod_eq_of_lt hdiv]
    constructor
    · intro h
      exact (Nat.one_le_div_iff (by positivity)).1 h.ge
    · intro h
      exact Nat.le_antisymm (Nat.le_of_lt_succ hdiv) ((Nat.one_le_div_iff (by positivity)).2 h)
  rw [hone, BitVec.and_twoPow, ← hbit]
  cases val.getLsbD shift with
  | false => simp
  | true =>
    have hne : BitVec.twoPow 64 shift ≠ 0#64 := fun h => by
      have := congrArg BitVec.toNat h
      rw [BitVec.toNat_twoPow, Nat.mod_eq_of_lt (Nat.pow_lt_pow_right (by decide) hs)] at this
      exact absurd this (by positivity)
    simpa using hne

/-- `lebSignExtend` reads the bits as a signed number -/
theorem lebSignExtend_toInt (val : BitVec 64) (shift : Nat) (hs : shift + 1 < 64) (hv : val.toNat < 2 ^ (shift + 1)) :
    (lebSignExtend val (shift + 1)).toInt =
      if val.toNat < 2 ^ shift then (val.toNat : Int) else val.toNat - 2 ^ (shift + 1) := by
  have hsign := signBit_iff val (by omega) hv
  have hpow : 2 ^ (shift + 1) ≤ 2 ^ 63 := Nat.pow_le_pow_right (by decide) (by omega)
  rw [lebSignExtend, Nat.add_sub_cancel]
  by_cases hlow : val.toNat < 2 ^ shift
  · rw [if_neg (fun h => absurd (hsign.1 h.2) (by omega)), if_pos hlow, BitVec.toInt_eq_toNat_of_lt (by omega)]
  · rw [if_pos ⟨hs, hsign.2 (by omega)⟩, if_neg hlow]
    have hsplit : 2 ^ 64 = 2 ^ (shift + 1) * 2 ^ (63 - shift) := by rw [← pow_add]; congr 1; omega
    have hones : (BitVec.allOnes 64 <<< (shift + 1)).toNat = 2 ^ (shift + 1) * (2 ^ (63 - shift) - 1) := by
      rw [BitVec.toNat_shiftLeft, BitVec.toNat_allOnes, Nat.shiftLeft_eq, Nat.mul_comm, hsplit,
        Nat.mul_mod_mul_left]
      congr 1
      have hpos : 0 < 2 ^ (63 - shift) := by positivity
      have hle : 1 ≤ 2 ^ (shift + 1) := Nat.one_le_two_pow
      calc (2 ^ (shift + 1) * 2 ^ (63 - shift) - 1) % 2 ^ (63 - shift)
          = ((2 ^ (63 - shift) - 1) + 2 ^ (63 - shift) * (2 ^ (shift + 1) - 1)) % 2 ^ (63 - shift) := by
            congr 1
            rw [Nat.mul_sub, Nat.mul_comm (2 ^ (63 - shift))]
            have := Nat.mul_le_mul_right (2 ^ (63 - shift)) hle
            omega
        _ = 2 ^ (63 - shift) - 1 := by
            rw [Nat.add_mul_mod_self_left, Nat.mod_eq_of_lt (by omega)]
    have hval : (val ||| (BitVec.allOnes 64 <<< (shift + 1))).toNat = val.toNat + 2 ^ 64 - 2 ^ (shift + 1) := by
      rw [BitVec.toNat_or, hones, Nat.or_comm, ← Nat.two_pow_add_eq_or_of_lt hv, Nat.mul_sub, ← hsplit]
      omega
    have hge : 2 ^ 63 ≤ val.toNat + 2 ^ 64 - 2 ^ (shift + 1) := by omega
    rw [BitVec.toInt_eq_toNat_cond, hval, if_neg (by omega)]
    have hcast : ((2 ^ (shift + 1) : Nat) : Int) = 2 ^ (shift + 1) := by push_cast; rfl
    omega

/-! ## One step of a loop -/

section Steps

variable {α : Type} (last : LastByte) (toInt : α → Int)

/-- what a decoder leaves when it stands at `ptr` with `N` bits left and has read `base` in `shift` bits: the value and
the end of the encoding there, or an error with the cursor inside the buffer -/
def LebAgrees (N : Nat) (buf : List (BitVec 8)) (ptr : Nat) (base : Int) (shift : Nat) (d : Decoded α) : Prop :=
  match readEnc last N (buf.drop ptr) with
  | some (m, k) => ∃ v, d = ⟨.ok v, ptr + k⟩ ∧ toInt v = base + 2 ^ shift * m
  | none => (∃ e, d.result = .error e ∧ e ≠ .fault) ∧ ptr ≤ d.ptr ∧ d.ptr ≤ max ptr buf.length

variable {last toInt} {N : Nat} {buf : List (BitVec 8)} {ptr : Nat} {base : Int} {shift : Nat} {d : Decoded α}

theorem drop_of_byte {b : BitVec 8} (hb : buf[ptr]? = some b) : buf.drop ptr = b :: buf.drop (ptr + 1) := by
  obtain ⟨hlt, rfl⟩ := List.getElem?_eq_some_iff.1 hb
  exact List.drop_eq_getElem_cons hlt

theorem agrees_eof (h : buf.length ≤ ptr) : LebAgrees last toInt N buf ptr base shift ⟨.error .unexpectedEof, ptr⟩ := by
  simp [LebAgrees, List.drop_eq_nil_of_le h, readEnc]

/-- a byte that continues where the integer has no bits left -/
theorem agrees_stop {b : BitVec 8} (hb : buf[ptr]? = some b) (hmore : 2 ^ 7 ≤ b.toNat) (hN : N ≤ 7) {e : LebError}
    (he : e ≠ .fault) : LebAgrees last toInt N buf ptr base shift ⟨.error e, ptr + 1⟩ := by
  have hlt : ptr < buf.length := (List.getElem?_eq_some_iff.1 hb).1
  have hread : readEnc last N (buf.drop ptr) = none := by
    rw [drop_of_byte hb, readEnc, if_neg (Nat.not_lt.2 hmore), if_neg (Nat.not_lt.2 hN)]
  rw [LebAgrees, hread]
  exact ⟨⟨e, rfl, he⟩, Nat.le_succ ptr, hlt.trans_le (le_max_right _ _)⟩

/-- a byte that continues hands the rest of the integer to the bytes after it -/
theorem agrees_more {b : BitVec 8} (hb : buf[ptr]? = some b) (hmore : 2 ^ 7 ≤ b.toNat) (hN : 7 < N)
    (h : LebAgrees last toInt (N - 7) buf (ptr + 1) (base + 2 ^ shift * ((b.toNat : Int) - 2 ^ 7)) (shift + 7) d) :
    LebAgrees last toInt N buf ptr base shift d := by
  have hlt : ptr < buf.length := (List.getElem?_eq_some_iff.1 hb).1
  have hread : readEnc last N (buf.drop ptr) = (readEnc last (N - 7) (buf.drop (ptr + 1))).map
      fun r => (2 ^ 7 * r.1 + ((b.toNat : Int) - 2 ^ 7), r.2 + 1) := by
    rw [drop_of_byte hb, readEnc, if_neg (Nat.not_lt.2 hmore), if_pos hN]
  unfold LebAgrees at h ⊢
  rw [hread]
  cases hrest : readEnc last (N - 7) (buf.drop (ptr + 1)) with
  | none =>
    rw [hrest] at h
    obtain ⟨herr, hle, hmax⟩ := h
    exact ⟨herr, by omega, by omega⟩
  | some r =>
    rw [hrest] at h
    obtain ⟨v, hd, hv⟩ := h
    refine ⟨v, by rw [hd, Nat.add_assoc, Nat.add_comm 1], ?_⟩
    rw [hv]
    ring

/-- a last byte, and what the decoder makes of it -/
theorem agrees_final {b : BitVec 8} (hb : buf[ptr]? = some b) (hlast : b.toNat < 2 ^ 7) {r : Except LebError α}
    (h : match last N b.toNat with
      | some m => ∃ v, r = .ok v ∧ toInt v = base + 2 ^ shift * m
      | none => ∃ e, r = .error e ∧ e ≠ .fault) :
    LebAgrees last toInt N buf ptr base shift ⟨r, ptr + 1⟩ := by
  have hlt : ptr < buf.length := (List.getElem?_eq_some_iff.1 hb).1
  have hread : readEnc last N (buf.drop ptr) = (last N b.toNat).map (·, 1) := by
    rw [drop_of_byte hb, readEnc, if_pos hlast]
  unfold LebAgrees
  rw [hread]
  cases hm : last N b.toNat with
  | none =>
    rw [hm] at h
    exact ⟨h, Nat.le_succ ptr, hlt.trans_le (le_max_right _ _)⟩
  | some m =>
    rw [hm] at h
    obtain ⟨v, rfl, hv⟩ := h
    exact ⟨v, rfl, hv⟩

end Steps

/-! ## The loops -/

/-- what `finish` makes of a last byte, in the round `i` of a decoder of `W` bits -/
def Finishes {α : Type} (last : LastByte) (toInt : α → Int) (W : Nat)
    (finish : Nat → Nat → BitVec 64 → BitVec 8 → Except LebError α) : Prop :=
  ∀ (i : Nat) (val : BitVec 64) (b : BitVec 8), 7 * i < W → val.toNat < 2 ^ (7 * i) → b.toNat < 2 ^ 7 →
    match last (W - 7 * i) b.toNat with
    | some m => ∃ v, finish i (7 * i) (val ||| lebGroup b (7 * i)) b = .ok v ∧ toInt v = val.toNat + 2 ^ (7 * i) * m
    | none => ∃ e, finish i (7 * i) (val ||| lebGroup b (7 * i)) b = .error e ∧ e ≠ .fault

/-- the accumulator after a byte that continues -/
theorem lebGroup_or_more (val : BitVec 64) (b : BitVec 8) (shift : Nat) (hs : shift ≤ 57) (hv : val.toNat < 2 ^ shift)
    (hmore : 2 ^ 7 ≤ b.toNat) :
    ((val ||| lebGroup b shift).toNat : Int) = val.toNat + 2 ^ shift * ((b.toNat : Int) - 2 ^ 7) := by
  have hmod : b.toNat % 2 ^ 7 = b.toNat - 2 ^ 7 := by omega
  rw [lebGroup_or_fits val b shift hs hv, hmod, Nat.cast_add, Nat.cast_mul, Nat.cast_sub hmore]
  push_cast
  rfl

/-- the loop by induction on the rounds left; the accumulator holds `7 * i` bits -/
theorem lebFor_agrees {α : Type} {last : LastByte} {toInt : α → Int} {W : Nat}
    {finish : Nat → Nat → BitVec 64 → BitVec 8 → Except LebError α} (hfin : Finishes last toInt W finish) (hW : W ≤ 64)
    (buf : List (BitVec 8)) (left i : Nat) (hlo : W ≤ 7 * (i + left)) (hhi : 7 * (i + left) < W + 7) (hi : 7 * i < W)
    (ptr : Nat) (val : BitVec 64) (hv : val.toNat < 2 ^ (7 * i)) :
    LebAgrees last toInt (W - 7 * i) buf ptr val.toNat (7 * i) (lebFor finish buf left i ptr val (7 * i)) := by
  induction left generalizing i ptr val with
  | zero => omega
  | succ left ih =>
    rw [lebFor]
    by_cases hptr : ptr < buf.length
    · rw [if_pos hptr]
      obtain ⟨b, hb⟩ : ∃ b, buf[ptr]? = some b := ⟨_, List.getElem?_eq_getElem hptr⟩
      rw [hb]
      by_cases hlast : b &&& 0x80 = 0
      · have hb7 := (continues_iff b).1 hlast
        simp only [if_pos hlast]
        exact agrees_final hb hb7 (hfin i val b hi hv hb7)
      · have hmore : 2 ^ 7 ≤ b.toNat := Nat.not_lt.1 fun h => hlast ((continues_iff b).2 h)
        simp only [if_neg hlast]
        cases left with
        | zero => exact agrees_stop hb hmore (by omega) (by decide)
        | succ left =>
          have hval := lebGroup_or_more val b (7 * i) (by omega) hv hmore
          have hnext := ih (i + 1) (by omega) (by omega) (by omega) (ptr + 1) (val ||| lebGroup b (7 * i))
            (lebGroup_or_lt val b _ (by omega) hv)
          refine agrees_more hb hmore (by omega) ?_
          rw [hval] at hnext
          exact hnext
    · rw [if_neg hptr]
      exact agrees_eof (by omega)

theorem uleb128_finishes : Finishes unsignedLast (fun v : BitVec 32 => v.toNat) 32 uleb128Finish := by
  intro i val b hi hv hb
  have hval := lebGroup_or_fits val b (7 * i) (by omega) hv
  rw [Nat.mod_eq_of_lt hb] at hval
  have hfits : b.toNat < 2 ^ (32 - 7 * i) ↔ (val ||| lebGroup b (7 * i)).toNat ≤ 0xFFFFFFFF := by
    rw [hval]
    have : i < 5 := by omega
    interval_cases i <;> omega
  rw [unsignedLast, uleb128Finish]
  by_cases h : b.toNat < 2 ^ (32 - 7 * i)
  · rw [if_pos h, if_pos (hfits.1 h)]
    have hlt : (val ||| lebGroup b (7 * i)).toNat < 2 ^ 32 := Nat.lt_succ_of_le (hfits.1 h)
    refine ⟨_, rfl, ?_⟩
    show (((val ||| lebGroup b (7 * i)).setWidth 32).toNat : Int) = _
    rw [BitVec.toNat_setWidth, Nat.mod_eq_of_lt hlt, hval]
    push_cast
    rfl
  · rw [if_neg h, if_neg (fun h' => h (hfits.2 h'))]
    exact ⟨_, rfl, by decide⟩

theorem uleb128_64_finishes : Finishes unsignedLast (fun v : BitVec 64 => v.toNat) 64 uleb128Finish64 := by
  intro i val b hi hv hb
  have hval := lebGroup_or val b (7 * i) (by omega) hv
  rw [Nat.mod_eq_of_lt hb] at hval
  have hfits : b.toNat < 2 ^ (64 - 7 * i) ↔ ¬(i = 9 ∧ 1 < b.toNat) := by
    have : i < 10 := by omega
    interval_cases i <;> omega
  rw [unsignedLast, uleb128Finish64]
  by_cases h : b.toNat < 2 ^ (64 - 7 * i)
  · rw [if_pos h, if_neg (hfits.1 h)]
    refine ⟨_, rfl, ?_⟩
    show ((val ||| lebGroup b (7 * i)).toNat : Int) = _
    rw [hval, Nat.mod_eq_of_lt h]
    push_cast
    rfl
  · rw [if_neg h, if_pos (not_not.1 fun h' => h (hfits.2 h'))]
    exact ⟨_, rfl, by decide⟩

/-- the 7 bits of a last byte as a signed number -/
def signedGroup (b : Nat) : Int := if b < 2 ^ 6 then b else b - 2 ^ 7

theorem signedLast_eq (N : Nat) {b : Nat} (hb7 : b < 2 ^ 7) : signedLast N b =
    if -2 ^ (N - 1) ≤ signedGroup b ∧ signedGroup b < 2 ^ (N - 1) then some (signedGroup b) else none := by
  have hcast : ((2 ^ (N - 1) : Nat) : Int) = 2 ^ (N - 1) := by push_cast; rfl
  have hpos : 0 < 2 ^ (N - 1) := by positivity
  unfold signedLast signedGroup
  by_cases hb : b < 2 ^ 6
  · simp only [if_pos hb]
    exact if_congr (by omega) rfl rfl
  · simp only [if_neg hb]
    exact if_congr (by omega) rfl rfl

/-- sign extension after a last byte, while fewer than 64 bits were read -/
theorem lebSignExtend_group (val : BitVec 64) (b : BitVec 8) (shift : Nat) (hs : shift < 57)
    (hv : val.toNat < 2 ^ shift) (hb : b.toNat < 2 ^ 7) :
    (lebSignExtend (val ||| lebGroup b shift) (shift + 7)).toInt = val.toNat + 2 ^ shift * signedGroup b.toNat := by
  have hval := lebGroup_or_fits val b shift (by omega) hv
  have hcast : ((2 ^ shift : Nat) : Int) = 2 ^ shift := by push_cast; rfl
  rw [Nat.mod_eq_of_lt hb] at hval
  rw [lebSignExtend_toInt _ (shift + 6) (by omega) (lebGroup_or_lt val b _ (by omega) hv), hval, signedGroup]
  have hsix : 2 ^ (shift + 6) = 2 ^ shift * 2 ^ 6 := pow_add 2 shift 6
  have hseven : (2 : Int) ^ (shift + 6 + 1) = 2 ^ shift * 2 ^ 7 := pow_add 2 shift 7
  by_cases hlow : b.toNat < 2 ^ 6
  · have hlt : val.toNat + 2 ^ shift * b.toNat < 2 ^ (shift + 6) := by
      calc val.toNat + 2 ^ shift * b.toNat < 2 ^ shift + 2 ^ shift * b.toNat := Nat.add_lt_add_right hv _
        _ = 2 ^ shift * (b.toNat + 1) := by ring
        _ ≤ 2 ^ (shift + 6) := hsix ▸ Nat.mul_le_mul_left _ hlow
    rw [if_pos hlt, if_pos hlow]
    push_cast
    rfl
  · have hge : ¬val.toNat + 2 ^ shift * b.toNat < 2 ^ (shift + 6) := by
      have := Nat.mul_le_mul_left (2 ^ shift) (Nat.not_lt.1 hlow)
      omega
    rw [if_neg hge, if_neg hlow, hseven]
    push_cast
    ring

theorem setWidth_toInt {v : BitVec 64} (hlo : -0x80000000 ≤ v.toInt) (hhi : v.toInt ≤ 0x7FFFFFFF) :
    (v.setWidth 32).toInt = v.toInt := by
  rw [BitVec.toInt_eq_toNat_cond] at hlo hhi ⊢
  rw [BitVec.toInt_eq_toNat_cond, BitVec.toNat_setWidth]
  split_ifs at * <;> omega

theorem sleb128_32_finishes : Finishes signedLast (fun v : BitVec 32 => v.toInt) 32 sleb128Finish32 := by
  intro i val b hi hv hb
  have hval := lebSignExtend_group val b (7 * i) (by omega) hv hb
  have hfits : (-2 ^ (32 - 7 * i - 1) ≤ signedGroup b.toNat ∧ signedGroup b.toNat < 2 ^ (32 - 7 * i - 1)) ↔
      -0x80000000 ≤ (lebSignExtend (val ||| lebGroup b (7 * i)) (7 * i + 7)).toInt ∧
        (lebSignExtend (val ||| lebGroup b (7 * i)) (7 * i + 7)).toInt ≤ 0x7FFFFFFF := by
    rw [hval]
    have : i < 5 := by omega
    interval_cases i <;> omega
  rw [signedLast_eq _ hb, sleb128Finish32]
  by_cases h : -2 ^ (32 - 7 * i - 1) ≤ signedGroup b.toNat ∧ signedGroup b.toNat < 2 ^ (32 - 7 * i - 1)
  · simp only [if_pos h, if_pos (hfits.1 h)]
    refine ⟨_, rfl, ?_⟩
    show ((lebSignExtend (val ||| lebGroup b (7 * i)) (7 * i + 7)).setWidth 32).toInt = _
    rw [setWidth_toInt (hfits.1 h).1 (hfits.1 h).2, hval]
  · simp only [if_neg h, if_neg (fun h' => h (hfits.2 h'))]
    exact ⟨_, rfl, by decide⟩

theorem signBit_repeated (b : BitVec 8) : b.toNat < 2 ^ 7 →
    ((-2 ^ (1 - 1) ≤ signedGroup b.toNat ∧ signedGroup b.toNat < 2 ^ (1 - 1)) ↔ b = 0x00 ∨ b = 0x7f) := by
  revert b
  decide

/-- the tenth byte of `wah_decode_sleb128_64` can only repeat the sign bit -/
theorem sleb128_64_tenth (val : BitVec 64) {b : BitVec 8} (hv : val.toNat < 2 ^ 63) (hb : b.toNat < 2 ^ 7) :
    match signedLast 1 b.toNat with
    | some m => ∃ v, sleb128Finish64 70 (val ||| lebGroup b 63) b = .ok v ∧ v.toInt = val.toNat + 2 ^ 63 * m
    | none => ∃ e, sleb128Finish64 70 (val ||| lebGroup b 63) b = .error e ∧ e ≠ .fault := by
  have hval := lebGroup_or val b 63 (by decide) hv
  rw [Nat.mod_eq_of_lt hb] at hval
  rw [signedLast_eq 1 hb, sleb128Finish64, if_pos rfl]
  have hends := signBit_repeated b hb
  by_cases h : b = 0x00 ∨ b = 0x7f
  · rw [if_pos (hends.2 h), if_pos h]
    refine ⟨_, rfl, ?_⟩
    rw [BitVec.toInt_eq_toNat_cond, hval]
    rcases h with rfl | rfl
    · have hzero : signedGroup (BitVec.toNat (0x00 : BitVec 8)) = 0 := by decide
      rw [hzero, if_pos (by simp; omega)]
      simp
    · have hones : signedGroup (BitVec.toNat (0x7f : BitVec 8)) = -1 := by decide
      have htop : BitVec.toNat (0x7f : BitVec 8) % 2 ^ (64 - 63) = 1 := by decide
      rw [hones, htop, if_neg (by omega)]
      omega
  · rw [if_neg (fun h' => h (hends.1 h')), if_neg h]
    exact ⟨_, rfl, by decide⟩

/-- the loop of `wah_decode_sleb128_64` by induction on the bytes that may follow -/
theorem sleb128Do64_agrees (buf : List (BitVec 8)) (left i : Nat) (hleft : i + left = 9) (ptr : Nat) (val : BitVec 64)
    (hv : val.toNat < 2 ^ (7 * i)) :
    LebAgrees signedLast BitVec.toInt (64 - 7 * i) buf ptr val.toNat (7 * i) (sleb128Do64 buf ptr val (7 * i)) := by
  induction left generalizing i ptr val with
  | zero =>
    obtain rfl : i = 9 := hleft
    rw [sleb128Do64]
    by_cases hptr : ptr < buf.length
    · obtain ⟨b, hb⟩ : ∃ b, buf[ptr]? = some b := ⟨_, List.getElem?_eq_getElem hptr⟩
      rw [if_pos hptr, if_pos (by decide), hb]
      by_cases hlast : b &&& 0x80 = 0
      · simp only [if_pos hlast]
        have hb7 := (continues_iff b).1 hlast
        exact agrees_final hb hb7 (sleb128_64_tenth val hv hb7)
      · have hmore : 2 ^ 7 ≤ b.toNat := Nat.not_lt.1 fun h => hlast ((continues_iff b).2 h)
        simp only [if_neg hlast]
        -- the eleventh byte is asked for before its shift is looked at, so the end of the buffer is found first
        rw [sleb128Do64, if_neg (show ¬7 * 9 + 7 < 64 by decide)]
        split_ifs
        · exact agrees_stop hb hmore (by decide) (by decide)
        · exact agrees_stop hb hmore (by decide) (by decide)
    · rw [if_neg hptr]
      exact agrees_eof (by omega)
  | succ left ih =>
    rw [sleb128Do64]
    by_cases hptr : ptr < buf.length
    · obtain ⟨b, hb⟩ : ∃ b, buf[ptr]? = some b := ⟨_, List.getElem?_eq_getElem hptr⟩
      rw [if_pos hptr, if_pos (by omega), hb]
      by_cases hlast : b &&& 0x80 = 0
      · simp only [if_pos hlast]
        have hb7 := (continues_iff b).1 hlast
        refine agrees_final hb hb7 ?_
        have hfits : -2 ^ (64 - 7 * i - 1) ≤ signedGroup b.toNat ∧ signedGroup b.toNat < 2 ^ (64 - 7 * i - 1) := by
          have hpow : (2 : Int) ^ 7 ≤ 2 ^ (64 - 7 * i - 1) := pow_le_pow_right₀ (by decide) (by omega)
          unfold signedGroup
          split_ifs <;> omega
        rw [signedLast_eq _ hb7, if_pos hfits, sleb128Finish64, if_neg (by omega)]
        exact ⟨_, rfl, lebSignExtend_group val b (7 * i) (by omega) hv hb7⟩
      · have hmore : 2 ^ 7 ≤ b.toNat := Nat.not_lt.1 fun h => hlast ((continues_iff b).2 h)
        simp only [if_neg hlast]
        have hnext := ih (i + 1) (by omega) (ptr + 1) (val ||| lebGroup b (7 * i))
          (lebGroup_or_lt val b _ (by omega) hv)
        rw [lebGroup_or_more val b (7 * i) (by omega) hv hmore] at hnext
        exact agrees_more hb hmore (by omega) hnext
    · rw [if_neg hptr]
      exact agrees_eof (by omega)

/-! ## Result -/

/-- what a decoder of `N` bits leaves at `ptr`: its cursor stays between there and the end, and it accepts exactly the
encodings, with their value and length -/
structure DecodesEnc {α : Type} (last : LastByte) (N : Nat) (toInt : α → Int) (buf : List (BitVec 8)) (ptr : Nat)
    (d : Decoded α) : Prop where
  cursor : ptr ≤ d.ptr ∧ d.ptr ≤ max ptr buf.length
  inBounds : d.result ≠ .error .fault
  sound : ∀ v, d.result = .ok v → ∃ bs, bs <+: buf.drop ptr ∧ Enc last N bs (toInt v) ∧ d.ptr = ptr + bs.length
  complete : ∀ bs n, bs <+: buf.drop ptr → Enc last N bs n →
    ∃ v, d.result = .ok v ∧ toInt v = n ∧ d.ptr = ptr + bs.length

theorem decodesEnc_of_agrees {α : Type} {last : LastByte} {N : Nat} {toInt : α → Int} {buf : List (BitVec 8)}
    {ptr : Nat} {d : Decoded α} (h : LebAgrees last toInt N buf ptr 0 0 d) : DecodesEnc last N toInt buf ptr d := by
  unfold LebAgrees at h
  cases hread : readEnc last N (buf.drop ptr) with
  | none =>
    rw [hread] at h
    obtain ⟨⟨e, he, hne⟩, hcur⟩ := h
    refine ⟨hcur, fun h => hne (by simpa [he] using h), fun v hv => absurd (he.symm.trans hv) (by simp), ?_⟩
    intro bs n hpre henc
    exact absurd (hread.symm.trans ((readEnc_iff hpre).2 henc)) (by simp)
  | some r =>
    obtain ⟨m, k⟩ := r
    rw [hread] at h
    obtain ⟨v, rfl, hv⟩ := h
    obtain ⟨bs, hpre, rfl, henc⟩ := enc_of_readEnc hread
    have hm : toInt v = m := by rw [hv]; ring
    have hlen := hpre.length_le
    rw [List.length_drop] at hlen
    have hne := List.length_pos_iff.2 henc.ne_nil
    refine ⟨⟨by simp, by simp only; omega⟩, by simp, ?_, ?_⟩
    · intro v' hv'
      obtain rfl : v = v' := by simpa using hv'
      exact ⟨bs, hpre, hm ▸ henc, rfl⟩
    · intro bs' n hpre' henc'
      obtain ⟨rfl, rfl⟩ := henc.unique henc' hpre hpre'
      exact ⟨v, rfl, hm, rfl⟩

theorem lebFor_decodes {α : Type} {last : LastByte} {toInt : α → Int} {W : Nat}
    {finish : Nat → Nat → BitVec 64 → BitVec 8 → Except LebError α} (hfin : Finishes last toInt W finish) (hpos : 0 < W)
    (hW : W ≤ 64) (max : Nat) (hlo : W ≤ 7 * max) (hhi : 7 * max < W + 7) (buf : List (BitVec 8)) (ptr : Nat) :
    DecodesEnc last W toInt buf ptr (lebFor finish buf max 0 ptr 0 0) :=
  decodesEnc_of_agrees <|
    lebFor_agrees hfin hW buf max 0 (by omega) (by omega) hpos ptr 0 (by decide)

/-- the encoding of `n` in `k + 1` bytes is allowed in an `uN` -/
def UnsignedFits (N k : Nat) (n : Int) : Prop := 7 * k < N ∧ 0 ≤ n ∧ n < 2 ^ N ∧ n < 2 ^ (7 * (k + 1))

/-- the encoding of `n` in `k + 1` bytes is allowed in an `sN` -/
def SignedFits (N k : Nat) (n : Int) : Prop :=
  7 * k < N ∧ (-2 ^ (N - 1) ≤ n ∧ n < 2 ^ (N - 1)) ∧ -2 ^ (7 * k + 6) ≤ n ∧ n < 2 ^ (7 * k + 6)

/-- a decoder reads each allowed encoding of `n`, wherever it stands, and stops after it -/
def ReadsPadded {α : Type} (fits : Nat → Int → Prop) (toInt : α → Int) (decode : List (BitVec 8) → Nat → Decoded α) :
    Prop :=
  ∀ (before after : List (BitVec 8)) (k : Nat) (n : Int), fits k n →
    ∃ v, (decode (before ++ (padded (k + 1) n ++ after)) before.length).result = .ok v ∧ toInt v = n ∧
      (decode (before ++ (padded (k + 1) n ++ after)) before.length).ptr = before.length + (k + 1)

theorem readsPadded_of_decodes {α : Type} {last : LastByte} {N : Nat} {toInt : α → Int} {fits : Nat → Int → Prop}
    {decode : List (BitVec 8) → Nat → Decoded α} (h : ∀ buf ptr, DecodesEnc last N toInt buf ptr (decode buf ptr))
    (henc : ∀ k n, fits k n → Enc last N (padded (k + 1) n) n) : ReadsPadded fits toInt decode := by
  intro before after k n hfits
  have hpre : padded (k + 1) n <+: (before ++ (padded (k + 1) n ++ after)).drop before.length := by
    rw [List.drop_left]
    exact List.prefix_append _ _
  obtain ⟨v, hok, hv, hptr⟩ := (h _ _).complete _ n hpre (henc k n hfits)
  exact ⟨v, hok, hv, by rw [hptr, padded_length]⟩

/-- **Variable-length integers.** From every start position of every buffer, each of the four decoders accepts exactly
where an encoding of its integer type begins, with its value and its length, and its cursor never passes the end; so
every encoding of a number in an allowed length, padded or not, is read back as that number. -/
theorem leb128_exact (buf : List (BitVec 8)) (ptr : Nat) :
    (DecodesEnc unsignedLast 32 (fun v => v.toNat) buf ptr (decodeUleb128 buf ptr) ∧
      DecodesEnc unsignedLast 64 (fun v => v.toNat) buf ptr (decodeUleb128_64 buf ptr) ∧
      DecodesEnc signedLast 32 BitVec.toInt buf ptr (decodeSleb128_32 buf ptr) ∧
      DecodesEnc signedLast 64 BitVec.toInt buf ptr (decodeSleb128_64 buf ptr)) ∧
    ReadsPadded (UnsignedFits 32) (fun v => v.toNat) decodeUleb128 ∧
      ReadsPadded (UnsignedFits 64) (fun v => v.toNat) decodeUleb128_64 ∧
      ReadsPadded (SignedFits 32) BitVec.toInt decodeSleb128_32 ∧
      ReadsPadded (SignedFits 64) BitVec.toInt decodeSleb128_64 := by
  have hu32 := lebFor_decodes uleb128_finishes (by decide) (by decide) 5 (by decide) (by decide)
  have hu64 := lebFor_decodes uleb128_64_finishes (by decide) (by decide) 10 (by decide) (by decide)
  have hs32 := lebFor_decodes sleb128_32_finishes (by decide) (by decide) 5 (by decide) (by decide)
  have hs64 : ∀ buf ptr, DecodesEnc signedLast 64 BitVec.toInt buf ptr (decodeSleb128_64 buf ptr) := fun buf ptr =>
    decodesEnc_of_agrees (sleb128Do64_agrees buf 9 0 rfl ptr 0 (by decide))
  have hunsigned : ∀ N k n, UnsignedFits N k n → Enc unsignedLast N (padded (k + 1) n) n :=
    fun N k n ⟨hk, h0, hN, hn⟩ => enc_padded_unsigned hk h0 hN hn
  have hsigned : ∀ N k n, SignedFits N k n → Enc signedLast N (padded (k + 1) n) n :=
    fun N k n ⟨hk, ⟨hlo, hhi⟩, hnlo, hnhi⟩ => enc_padded_signed hk hlo hhi hnlo hnhi
  refine ⟨⟨hu32 buf ptr, hu64 buf ptr, hs32 buf ptr, hs64 buf ptr⟩, ?_, ?_, ?_, ?_⟩
  · exact readsPadded_of_decodes hu32 (hunsigned 32)
  · exact readsPadded_of_decodes hu64 (hunsigned 64)
  · exact readsPadded_of_decodes hs32 (hsigned 32)
  · exact readsPadded_of_decodes hs64 (hsigned 64)

end Wah
