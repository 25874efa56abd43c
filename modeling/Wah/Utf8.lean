/-
The UTF-8 validator of names.

Model: `bytes` is the string with its length; a read at or beyond the length is `none`, and conditions are evaluated
from left to right and no further than C does (`anyOf`). The specification is the encoding of scalar values in the
shortest form.

Result: the validator never reads outside the string, and accepts it iff it is a concatenation of encodings
(`is_valid_utf8_exact`).
-/
import Mathlib.Tactic.Common

namespace Wah

/-! ## Scalar values -/

/-- a Unicode scalar value: a code point which is no surrogate -/
structure Scalar where
  val : Nat
  isScalar : val < 0xD800 ∨ 0xE000 ≤ val ∧ val < 0x110000

/-- a continuation byte -/
def utf8Tail (bits : Nat) : BitVec 8 := BitVec.ofNat 8 (0x80 + bits % 64)

/-- the shortest encoding of a code point -/
def utf8Encode (c : Nat) : List (BitVec 8) :=
  if c < 0x80 then [BitVec.ofNat 8 c]
  else if c < 0x800 then [BitVec.ofNat 8 (0xC0 + c / 64), utf8Tail c]
  else if c < 0x10000 then [BitVec.ofNat 8 (0xE0 + c / 4096), utf8Tail (c / 64), utf8Tail c]
  else [BitVec.ofNat 8 (0xF0 + c / 262144), utf8Tail (c / 4096), utf8Tail (c / 64), utf8Tail c]

/-! ## The validator -/

/-- `a || b || …` -/
def anyOf : List (Option Bool) → Option Bool
  | [] => some false
  | c :: cs => c.bind fun b => if b then some true else anyOf cs

section Validator

variable (bytes : List (BitVec 8))

/-- `(bytes[i] & 0xC0) != 0x80` -/
def notTail (i : Nat) : Option Bool := bytes[i]?.map fun b => b &&& 0xC0 != 0x80

/-- `byte == lead && bytes[i] < bound` -/
def leadBelow (byte lead : BitVec 8) (i bound : Nat) : Option Bool :=
  if byte = lead then bytes[i]?.map fun b => b.toNat < bound else some false

/-- `byte == lead && bytes[i] >= bound` -/
def leadFrom (byte lead : BitVec 8) (i bound : Nat) : Option Bool :=
  if byte = lead then bytes[i]?.map fun b => bound ≤ b.toNat else some false

/-- a sequence of `n` bytes, unless one of the conditions refuses it -/
def takeUnless (conds : List (Option Bool)) (n : Nat) : Option (Option Nat) :=
  (anyOf conds).map fun refused => if refused then none else some n

/-- one round of the loop of `wah_is_valid_utf8`: how far it goes, or that the string is refused -/
def utf8Round (i : Nat) : Option (Option Nat) :=
  bytes[i]?.bind fun byte =>
    if byte.toNat < 0x80 then some (some 1)
    else if byte &&& 0xE0 = 0xC0 then
      takeUnless [some (bytes.length ≤ i + 1), notTail bytes (i + 1), some (byte &&& 0xFE == 0xC0)] 2
    else if byte &&& 0xF0 = 0xE0 then
      takeUnless [some (bytes.length ≤ i + 2), notTail bytes (i + 1), notTail bytes (i + 2),
        leadBelow bytes byte 0xE0 (i + 1) 0xA0, leadFrom bytes byte 0xED (i + 1) 0xA0] 3
    else if byte &&& 0xF8 = 0xF0 then
      takeUnless [some (0xF4 < byte.toNat), some (bytes.length ≤ i + 3), notTail bytes (i + 1), notTail bytes (i + 2),
        notTail bytes (i + 3), leadBelow bytes byte 0xF0 (i + 1) 0x90, leadFrom bytes byte 0xF4 (i + 1) 0x90] 4
    else some none

/-- `while (i < len)`; `fuel` bounds the rounds, each of which goes at least one byte forward -/
def utf8Loop : Nat → Nat → Option Bool
  | 0, _ => none
  | fuel + 1, i =>
    if i < bytes.length then
      (utf8Round bytes i).bind fun
        | none => some false
        | some n => utf8Loop fuel (i + n)
    else some true

end Validator

def isValidUtf8 (bytes : List (BitVec 8)) : Option Bool := utf8Loop bytes (bytes.length + 1) 0

/-! ## The sequence at the start of a string -/

/-- a continuation byte by its value -/
def IsTail (b : BitVec 8) : Prop := 0x80 ≤ b.toNat ∧ b.toNat < 0xC0

instance : DecidablePred IsTail := fun b => inferInstanceAs (Decidable (0x80 ≤ b.toNat ∧ b.toNat < 0xC0))

/-- what may follow a byte of the range `C2` to `DF` -/
def seqTwo : List (BitVec 8) → Option Nat
  | b :: _ => if IsTail b then some 2 else none
  | _ => none

/-- what may follow a byte `a` of the range `E0` to `EF` -/
def seqThree (a : BitVec 8) : List (BitVec 8) → Option Nat
  | b :: c :: _ =>
    if IsTail b ∧ IsTail c ∧ (a = 0xE0 → 0xA0 ≤ b.toNat) ∧ (a = 0xED → b.toNat < 0xA0) then some 3 else none
  | _ => none

/-- what may follow a byte `a` of the range `F0` to `F4` -/
def seqFour (a : BitVec 8) : List (BitVec 8) → Option Nat
  | b :: c :: d :: _ =>
    if IsTail b ∧ IsTail c ∧ IsTail d ∧ (a = 0xF0 → 0x90 ≤ b.toNat) ∧ (a = 0xF4 → b.toNat < 0x90) then some 4
    else none
  | _ => none

/-- the length of the encoding at the start of a string, by the ranges of its bytes -/
def leadLength : List (BitVec 8) → Option Nat
  | [] => none
  | a :: t =>
    if a.toNat < 0x80 then some 1
    else if 0xC2 ≤ a.toNat ∧ a.toNat < 0xE0 then seqTwo t
    else if 0xE0 ≤ a.toNat ∧ a.toNat < 0xF0 then seqThree a t
    else if 0xF0 ≤ a.toNat ∧ a.toNat < 0xF5 then seqFour a t
    else none

theorem notTail_iff (b : BitVec 8) : (b &&& 0xC0 != 0x80) = !decide (IsTail b) := by
  revert b
  decide

theorem leadTwo_iff (b : BitVec 8) : b &&& 0xE0 = 0xC0 ↔ 0xC0 ≤ b.toNat ∧ b.toNat < 0xE0 := by
  revert b
  decide

theorem leadOverlong_iff (b : BitVec 8) : (b &&& 0xFE == 0xC0) = decide (0xC0 ≤ b.toNat ∧ b.toNat < 0xC2) := by
  revert b
  decide

theorem leadThree_iff (b : BitVec 8) : b &&& 0xF0 = 0xE0 ↔ 0xE0 ≤ b.toNat ∧ b.toNat < 0xF0 := by
  revert b
  decide

theorem leadFour_iff (b : BitVec 8) : b &&& 0xF8 = 0xF0 ↔ 0xF0 ≤ b.toNat ∧ b.toNat < 0xF8 := by
  revert b
  decide

/-- a round looks at what is left of the string only -/
theorem utf8Round_drop (bytes : List (BitVec 8)) (i : Nat) : utf8Round bytes i = utf8Round (bytes.drop i) 0 := by
  have hlen : ∀ k : Nat, (bytes.drop i).length ≤ k ↔ bytes.length ≤ i + k := fun k => by
    rw [List.length_drop]
    omega
  simp only [utf8Round, notTail, leadBelow, leadFrom, List.getElem?_drop, hlen, Nat.add_zero, Nat.zero_add]

@[simp] theorem takeUnless_nil (n : Nat) : takeUnless [] n = some (some n) := rfl

@[simp] theorem takeUnless_cons (b : Bool) (conds : List (Option Bool)) (n : Nat) :
    takeUnless (some b :: conds) n = if b then some none else takeUnless conds n := by
  cases b <;> rfl

@[simp] theorem notTail_one (a b : BitVec 8) (t : List (BitVec 8)) :
    notTail (a :: b :: t) 1 = some (!decide (IsTail b)) := congrArg some (notTail_iff b)

@[simp] theorem notTail_two (a b c : BitVec 8) (t : List (BitVec 8)) :
    notTail (a :: b :: c :: t) 2 = some (!decide (IsTail c)) := congrArg some (notTail_iff c)

@[simp] theorem notTail_three (a b c d : BitVec 8) (t : List (BitVec 8)) :
    notTail (a :: b :: c :: d :: t) 3 = some (!decide (IsTail d)) := congrArg some (notTail_iff d)

@[simp] theorem leadBelow_one (a b lead : BitVec 8) (t : List (BitVec 8)) (bound : Nat) :
    leadBelow (a :: b :: t) a lead 1 bound = some (decide (a = lead ∧ b.toNat < bound)) := by
  unfold leadBelow
  split_ifs with h <;> simp [h]

@[simp] theorem leadFrom_one (a b lead : BitVec 8) (t : List (BitVec 8)) (bound : Nat) :
    leadFrom (a :: b :: t) a lead 1 bound = some (decide (a = lead ∧ bound ≤ b.toNat)) := by
  unfold leadFrom
  split_ifs with h <;> simp [h]

/-- a string that ends too early is refused before a byte beyond it is read -/
theorem takeUnless_short (conds : List (Option Bool)) (n : Nat) {len need : Nat} (h : len ≤ need) :
    takeUnless (some (decide (len ≤ need)) :: conds) n = some none := by
  rw [takeUnless_cons, decide_eq_true h, if_pos rfl]

theorem round_two (a : BitVec 8) (t : List (BitVec 8)) :
    takeUnless [some ((a :: t).length ≤ 1), notTail (a :: t) 1, some (a &&& 0xFE == 0xC0)] 2 =
      some (if 0xC0 ≤ a.toNat ∧ a.toNat < 0xC2 then none else seqTwo t) := by
  rw [leadOverlong_iff]
  match t with
  | [] =>
    rw [takeUnless_short _ _ (by simp)]
    split_ifs <;> rfl
  | b :: t =>
    simp only [takeUnless_cons, takeUnless_nil, notTail_one, seqTwo]
    by_cases hb : IsTail b
    · simp [hb, apply_ite]
    · simp [hb]

theorem round_three (a : BitVec 8) (t : List (BitVec 8)) :
    takeUnless [some ((a :: t).length ≤ 2), notTail (a :: t) 1, notTail (a :: t) 2, leadBelow (a :: t) a 0xE0 1 0xA0,
      leadFrom (a :: t) a 0xED 1 0xA0] 3 = some (seqThree a t) := by
  match t with
  | [] | [_] => rw [takeUnless_short _ _ (by simp)]; rfl
  | b :: c :: t =>
    have hlen : ¬(a :: b :: c :: t).length ≤ 2 := by simp
    simp only [takeUnless_cons, takeUnless_nil, notTail_one, notTail_two, leadBelow_one, leadFrom_one, seqThree,
      decide_eq_true_eq, Bool.not_eq_true', decide_eq_false_iff_not, if_neg hlen]
    split_ifs <;> grind

theorem round_four (a : BitVec 8) (t : List (BitVec 8)) :
    takeUnless [some (0xF4 < a.toNat), some ((a :: t).length ≤ 3), notTail (a :: t) 1, notTail (a :: t) 2,
      notTail (a :: t) 3, leadBelow (a :: t) a 0xF0 1 0x90, leadFrom (a :: t) a 0xF4 1 0x90] 4 =
      some (if 0xF4 < a.toNat then none else seqFour a t) := by
  rw [takeUnless_cons]
  by_cases ha : 0xF4 < a.toNat
  · rw [decide_eq_true ha, if_pos rfl, if_pos ha]
  · rw [decide_eq_false ha, if_neg (by decide), if_neg ha]
    match t with
    | [] | [_] | [_, _] => rw [takeUnless_short _ _ (by simp)]; rfl
    | b :: c :: d :: t =>
      have hlen : ¬(a :: b :: c :: d :: t).length ≤ 3 := by simp
      simp only [takeUnless_cons, takeUnless_nil, notTail_one, notTail_two, notTail_three, leadBelow_one, leadFrom_one,
        seqFour, decide_eq_true_eq, Bool.not_eq_true', decide_eq_false_iff_not, if_neg hlen]
      split_ifs <;> grind

/-- a round of the loop finds the sequence that starts where it stands, and reads nothing outside the string -/
theorem utf8Round_cons (a : BitVec 8) (t : List (BitVec 8)) : utf8Round (a :: t) 0 = some (leadLength (a :: t)) := by
  simp only [utf8Round, leadTwo_iff, leadThree_iff, leadFour_iff, Nat.zero_add, List.getElem?_cons_zero,
    Option.bind_some, round_two, round_three, round_four, leadLength]
  split_ifs <;> first | rfl | omega

theorem utf8Round_eq (bytes : List (BitVec 8)) {i : Nat} (hi : i < bytes.length) :
    utf8Round bytes i = some (leadLength (bytes.drop i)) := by
  rw [utf8Round_drop, List.drop_eq_getElem_cons hi]
  exact utf8Round_cons _ _

/-! ## Sequences are encodings -/

theorem ofNat_toNat {n : Nat} (h : n < 0x100) : (BitVec.ofNat 8 n).toNat = n := by
  rw [BitVec.toNat_ofNat, Nat.mod_eq_of_lt h]

theorem utf8Tail_toNat (bits : Nat) : (utf8Tail bits).toNat = 0x80 + bits % 64 := ofNat_toNat (by omega)

theorem isTail_utf8Tail (bits : Nat) : IsTail (utf8Tail bits) := by
  rw [IsTail, utf8Tail_toNat]
  omega

theorem eq_lit_iff {a : BitVec 8} (n : Nat) (h : n < 0x100) : a = BitVec.ofNat 8 n ↔ a.toNat = n := by
  rw [← BitVec.toNat_inj, ofNat_toNat h]

/-- the encoding of a scalar value is found at the start of a string -/
theorem leadLength_encode (c : Scalar) (rest : List (BitVec 8)) :
    leadLength (utf8Encode c.val ++ rest) = some (utf8Encode c.val).length := by
  have hc := c.isScalar
  unfold utf8Encode
  split_ifs with h1 h2 h3
  · have ha : (BitVec.ofNat 8 c.val).toNat = c.val := ofNat_toNat (by omega)
    rw [List.singleton_append, leadLength, ha, if_pos h1, List.length_singleton]
  · have ha : (BitVec.ofNat 8 (0xC0 + c.val / 64)).toNat = 0xC0 + c.val / 64 := ofNat_toNat (by omega)
    rw [List.cons_append, leadLength, ha, if_neg (by omega), if_pos (by omega), List.cons_append, seqTwo,
      if_pos (isTail_utf8Tail _)]
    rfl
  · have ha : (BitVec.ofNat 8 (0xE0 + c.val / 4096)).toNat = 0xE0 + c.val / 4096 := ofNat_toNat (by omega)
    have hlow : BitVec.ofNat 8 (0xE0 + c.val / 4096) = 0xE0 → 0xA0 ≤ (utf8Tail (c.val / 64)).toNat := fun h => by
      have := (eq_lit_iff 0xE0 (by decide)).1 h
      rw [utf8Tail_toNat]
      omega
    have hhigh : BitVec.ofNat 8 (0xE0 + c.val / 4096) = 0xED → (utf8Tail (c.val / 64)).toNat < 0xA0 := fun h => by
      have := (eq_lit_iff 0xED (by decide)).1 h
      rw [utf8Tail_toNat]
      omega
    rw [List.cons_append, leadLength, ha, if_neg (by omega), if_neg (by omega), if_pos (by omega), List.cons_append,
      List.cons_append, seqThree, if_pos ⟨isTail_utf8Tail _, isTail_utf8Tail _, hlow, hhigh⟩]
    rfl
  · have ha : (BitVec.ofNat 8 (0xF0 + c.val / 262144)).toNat = 0xF0 + c.val / 262144 := ofNat_toNat (by omega)
    have hlow : BitVec.ofNat 8 (0xF0 + c.val / 262144) = 0xF0 → 0x90 ≤ (utf8Tail (c.val / 4096)).toNat := fun h => by
      have := (eq_lit_iff 0xF0 (by decide)).1 h
      rw [utf8Tail_toNat]
      omega
    have hhigh : BitVec.ofNat 8 (0xF0 + c.val / 262144) = 0xF4 → (utf8Tail (c.val / 4096)).toNat < 0x90 := fun h => by
      have := (eq_lit_iff 0xF4 (by decide)).1 h
      rw [utf8Tail_toNat]
      omega
    rw [List.cons_append, leadLength, ha, if_neg (by omega), if_neg (by omega), if_neg (by omega), if_pos (by omega),
      List.cons_append, List.cons_append, List.cons_append, seqFour,
      if_pos ⟨isTail_utf8Tail _, isTail_utf8Tail _, isTail_utf8Tail _, hlow, hhigh⟩]
    rfl

/-- the payload of a continuation byte gives the byte back -/
theorem utf8Tail_eq {b : BitVec 8} (hb : IsTail b) {bits : Nat} (h : bits % 64 = b.toNat - 0x80) :
    utf8Tail bits = b := by
  apply BitVec.eq_of_toNat_eq
  rw [utf8Tail_toNat, h]
  exact Nat.add_sub_cancel' hb.1

theorem lead_eq (a : BitVec 8) {n : Nat} (h : n = a.toNat) : BitVec.ofNat 8 n = a := by
  rw [h, BitVec.ofNat_toNat, BitVec.setWidth_eq]

theorem scalar_prefix {n k : Nat} {enc l : List (BitVec 8)} (henc : utf8Encode n = enc)
    (hn : n < 0xD800 ∨ 0xE000 ≤ n ∧ n < 0x110000) (hpre : enc <+: l) (hlen : enc.length = k) :
    ∃ c : Scalar, utf8Encode c.val <+: l ∧ (utf8Encode c.val).length = k := by
  subst henc
  exact ⟨⟨n, hn⟩, hpre, hlen⟩

/-- a sequence that is found is the encoding of a scalar value -/
theorem encode_of_leadLength {l : List (BitVec 8)} {n : Nat} (h : leadLength l = some n) :
    ∃ c : Scalar, utf8Encode c.val <+: l ∧ (utf8Encode c.val).length = n := by
  match l with
  | [] => exact absurd h (by simp [leadLength])
  | a :: t =>
    have ha := a.isLt
    rw [leadLength] at h
    split_ifs at h with h1 h2 h3 h4
    · obtain rfl : 1 = n := Option.some.inj h
      have henc : utf8Encode a.toNat = [a] := by rw [utf8Encode, if_pos h1, lead_eq a rfl]
      exact scalar_prefix henc (by omega) ⟨t, rfl⟩ rfl
    · match t with
      | [] => exact absurd h (by simp [seqTwo])
      | b :: t =>
        rw [seqTwo] at h
        split_ifs at h with hb
        obtain rfl : 2 = n := Option.some.inj h
        have hb' := hb
        unfold IsTail at hb'
        have henc : utf8Encode ((a.toNat - 0xC0) * 64 + (b.toNat - 0x80)) = [a, b] := by
          rw [utf8Encode, if_neg (by omega), if_pos (by omega), lead_eq a (by omega),
            utf8Tail_eq hb (by omega)]
        exact scalar_prefix henc (by omega) ⟨t, rfl⟩ rfl
    · match t with
      | [] | [_] => exact absurd h (by simp [seqThree])
      | b :: c :: t =>
        rw [seqThree] at h
        split_ifs at h with hok
        obtain rfl : 3 = n := Option.some.inj h
        obtain ⟨hb, hc, hlow, hhigh⟩ := hok
        have hlow' := fun h' => hlow ((eq_lit_iff 0xE0 (by decide)).2 h')
        have hhigh' := fun h' => hhigh ((eq_lit_iff 0xED (by decide)).2 h')
        have hb' := hb
        have hc' := hc
        unfold IsTail at hb' hc'
        have henc : utf8Encode ((a.toNat - 0xE0) * 4096 + (b.toNat - 0x80) * 64 + (c.toNat - 0x80)) = [a, b, c] := by
          rw [utf8Encode, if_neg (by omega), if_neg (by omega), if_pos (by omega), lead_eq a (by omega),
            utf8Tail_eq hb (by omega), utf8Tail_eq hc (by omega)]
        exact scalar_prefix henc (by omega) ⟨t, rfl⟩ rfl
    · match t with
      | [] | [_] | [_, _] => exact absurd h (by simp [seqFour])
      | b :: c :: d :: t =>
        rw [seqFour] at h
        split_ifs at h with hok
        obtain rfl : 4 = n := Option.some.inj h
        obtain ⟨hb, hc, hd, hlow, hhigh⟩ := hok
        have hlow' := fun h' => hlow ((eq_lit_iff 0xF0 (by decide)).2 h')
        have hhigh' := fun h' => hhigh ((eq_lit_iff 0xF4 (by decide)).2 h')
        have hb' := hb
        have hc' := hc
        have hd' := hd
        unfold IsTail at hb' hc' hd'
        have henc : utf8Encode ((a.toNat - 0xF0) * 262144 + (b.toNat - 0x80) * 4096 + (c.toNat - 0x80) * 64 +
            (d.toNat - 0x80)) = [a, b, c, d] := by
          rw [utf8Encode, if_neg (by omega), if_neg (by omega), if_neg (by omega), lead_eq a (by omega),
            utf8Tail_eq hb (by omega), utf8Tail_eq hc (by omega), utf8Tail_eq hd (by omega)]
        exact scalar_prefix henc (by omega) ⟨t, rfl⟩ rfl

/-! ## Result -/

/-- the string of some scalar values -/
def utf8String (cs : List Scalar) : List (BitVec 8) := cs.flatMap fun c => utf8Encode c.val

/-- a string starts with at most one encoding, so that its first sequence can be taken off -/
theorem utf8String_drop {l : List (BitVec 8)} {n : Nat} (h : leadLength l = some n) :
    (∃ cs, l = utf8String cs) ↔ ∃ cs, l.drop n = utf8String cs := by
  obtain ⟨c, ⟨rest, rfl⟩, rfl⟩ := encode_of_leadLength h
  rw [List.drop_left]
  constructor
  · rintro ⟨cs, hcs⟩
    match cs with
    | [] =>
      have hnil : utf8Encode c.val ++ rest = [] := hcs
      exact absurd (hnil ▸ h) (by simp [leadLength])
    | c' :: cs =>
      have hcons : utf8Encode c.val ++ rest = utf8Encode c'.val ++ utf8String cs := hcs
      have hlen : (utf8Encode c.val).length = (utf8Encode c'.val).length := by
        have h' := leadLength_encode c' (utf8String cs)
        rw [← hcons, h] at h'
        exact Option.some.inj h'
      exact ⟨cs, (List.append_inj hcons hlen).2⟩
  · rintro ⟨cs, rfl⟩
    exact ⟨c :: cs, rfl⟩

/-- the loop by induction on the bytes left -/
theorem utf8Loop_exact (bytes : List (BitVec 8)) {fuel i : Nat} (hi : i ≤ bytes.length)
    (hfuel : bytes.length - i < fuel) :
    utf8Loop bytes fuel i = some true ∧ (∃ cs, bytes.drop i = utf8String cs) ∨
      utf8Loop bytes fuel i = some false ∧ ¬∃ cs, bytes.drop i = utf8String cs := by
  induction fuel generalizing i with
  | zero => omega
  | succ fuel ih =>
    rw [utf8Loop]
    by_cases hlt : i < bytes.length
    · rw [if_pos hlt, utf8Round_eq bytes hlt, Option.bind_some]
      cases hlead : leadLength (bytes.drop i) with
      | none =>
        refine .inr ⟨rfl, ?_⟩
        rintro ⟨cs, hcs⟩
        match cs with
        | [] => exact absurd (congrArg List.length hcs) (by simp [utf8String]; omega)
        | c :: cs =>
          have hcons : bytes.drop i = utf8Encode c.val ++ utf8String cs := hcs
          exact absurd (hlead.symm.trans (hcons ▸ leadLength_encode c _)) (by simp)
      | some n =>
        obtain ⟨c, hpre, rfl⟩ := encode_of_leadLength hlead
        have hle := hpre.length_le
        rw [List.length_drop] at hle
        have hpos : 0 < (utf8Encode c.val).length := by unfold utf8Encode; split_ifs <;> simp
        simp only [utf8String_drop hlead, List.drop_drop]
        exact ih (by omega) (by omega)
    · refine .inl ⟨if_neg hlt, [], ?_⟩
      rw [List.drop_eq_nil_of_le (by omega)]
      rfl

/-- **Names are UTF-8.** On every string of bytes the validator gives an answer without a read outside the string, and
it accepts exactly the concatenations of shortest encodings of scalar values. -/
theorem is_valid_utf8_exact (bytes : List (BitVec 8)) :
    ∃ valid, isValidUtf8 bytes = some valid ∧ (valid = true ↔ ∃ cs, bytes = utf8String cs) := by
  rcases utf8Loop_exact bytes (Nat.zero_le _) (Nat.lt_succ_self bytes.length) with ⟨h, hcs⟩ | ⟨h, hcs⟩
  · exact ⟨true, h, by simpa using hcs⟩
  · exact ⟨false, h, by simpa using hcs⟩

end Wah
