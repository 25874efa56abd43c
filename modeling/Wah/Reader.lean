/-
Reading the binary: bytes, integers and counts at a cursor.

Model: a read outside the buffer is `fault`; a reader gives its value with the cursor after it.
-/
import Wah.Leb128

namespace Wah

inductive ReadError where
  | unexpectedEof | tooLarge | malformed | validationFailed | disabledFeature | outOfMemory | fault
deriving DecidableEq, Repr

def LebError.read : LebError → ReadError
  | .unexpectedEof => .unexpectedEof
  | .tooLarge => .tooLarge
  | .fault => .fault

/-- `WAH_ENSURE` -/
def readEnsure (p : Prop) [Decidable p] (e : ReadError) : Except ReadError Unit := if p then .ok () else .error e

def readByte (buf : List (BitVec 8)) (ptr : Nat) : Except ReadError (BitVec 8) :=
  if ptr < buf.length then
    match buf[ptr]? with
    | none => .error .fault
    | some b => .ok b
  else .error .unexpectedEof

/-- a decoder of an integer, with the cursor after it -/
def lebValue {α : Type} (d : Decoded α) : Except ReadError (α × Nat) :=
  match d.result with
  | .ok v => .ok (v, d.ptr)
  | .error e => .error e.read

/-- `wah_decode_and_validate_count` -/
def readCount (buf : List (BitVec 8)) (ptr minBytes : Nat) : Except ReadError (Nat × Nat) := do
  let (count, ptr) ← lebValue (decodeUleb128 buf ptr)
  readEnsure (0 < minBytes → count.toNat ≤ 0xFFFFFFFF / minBytes) .tooLarge
  readEnsure (count.toNat * minBytes ≤ buf.length - ptr) .malformed
  pure (count.toNat, ptr)

theorem readBind_ok {α β : Type} {x : Except ReadError α} {f : α → Except ReadError β} {b : β}
    (h : (x >>= f) = .ok b) : ∃ a, x = .ok a ∧ f a = .ok b := by
  cases x with
  | error e => cases h
  | ok a => exact ⟨a, rfl, h⟩

theorem readEnsure_ok {p : Prop} [Decidable p] {e : ReadError} {u : Unit} (h : readEnsure p e = .ok u) : p := by
  unfold readEnsure at h
  split_ifs at h with hp
  exact hp

/-- a count is a 32-bit integer -/
theorem readCount_lt {buf : List (BitVec 8)} {ptr minBytes count ptr' : Nat}
    (h : readCount buf ptr minBytes = .ok (count, ptr')) : count < 2 ^ 32 := by
  obtain ⟨⟨n, next⟩, -, h⟩ := readBind_ok h
  obtain ⟨-, -, h⟩ := readBind_ok h
  obtain ⟨-, -, h⟩ := readBind_ok h
  have hn : n.toNat = count := (Prod.mk.inj (Except.ok.inj h)).1
  exact hn ▸ n.isLt

end Wah
