/-
Function, memory and tag sections.

Model:
- `Declared` is what these sections read and write beside what `wah_parse_module` does; allocation failures are left out;
- a vector section is `vecSection` with a reader of its items.

Results:
- `declarations_exact`: the three sections are accepted exactly when they are vectors of well-formed entries with the
  features they use enabled, and then they declare these entries;
- `declSections_gated`: they look at the enabled features by asking only;
- `accepted_module_declares`: in a module that is accepted, what they have declared fits its types and limits.
-/
import Wah.Features
import Wah.Formats
import Wah.Lifecycle
import Wah.Types

namespace Wah

open Formats Gating LengthPrefixed

/-! ## Model -/

/-- `wah_memory_type_t` -/
structure MemoryDecl where
  /-- `addr_type` -/
  is64 : Bool
  minPages : Nat
  maxPages : Nat
deriving DecidableEq, Repr

/-- the part of `wah_module_t` that function, memory and tag sections read and write -/
structure Declared where
  /-- `kind` of all `type_defs` -/
  kinds : List CompKind := []
  functionTypeIndices : List Nat := []
  importMemoryCount : Nat := 0
  memories : List MemoryDecl := []
  /-- `type_index` of all tags -/
  tags : List Nat := []

abbrev DeclModule : Type := ModuleState Declared

/-- an integer of 32 bits -/
def readU32 (buf : List (BitVec 8)) (ptr : Nat) : Except ReadError (Nat × Nat) :=
  (lebValue (decodeUleb128 buf ptr)).map fun r => (r.1.toNat, r.2)

/-- an integer of 64 bits -/
def readU64 (buf : List (BitVec 8)) (ptr : Nat) : Except ReadError (Nat × Nat) :=
  (lebValue (decodeUleb128_64 buf ptr)).map fun r => (r.1.toNat, r.2)

/-- an iteration of `wah_parse_function_section` -/
def readFunctionType : Reader (BitVec 8) DeclModule ReadError Nat := fun buf ptr s => do
  let (i, ptr) ← readU32 buf ptr
  readEnsure (i < s.rest.kinds.length) .validationFailed
  readEnsure (s.rest.kinds[i]? = some .func) .validationFailed
  pure (i, ptr, s)

/-- `page_limit` -/
def pageLimit (is64 : Bool) : Nat := if is64 then 2 ^ 48 else 65536

/-- the address type in the flags of a memory -/
def isMemory64 (flags : BitVec 8) : Bool := decide (flags = 0x04 ∨ flags = 0x05)

/-- the maximum, where the flags say that there is one -/
def readMaxPages (flags : BitVec 8) (buf : List (BitVec 8)) (ptr : Nat) : Except ReadError (Nat × Nat) :=
  if flags &&& 0x01 = 0 then .ok (uint64Max, ptr) else readU64 buf ptr

/-- an iteration of `wah_parse_memory_section` -/
def readMemory : Reader (BitVec 8) DeclModule ReadError MemoryDecl := fun buf ptr s => do
  let flags ← readByte buf ptr
  readEnsure (flags = 0x00 ∨ flags = 0x01 ∨ flags = 0x04 ∨ flags = 0x05) .malformed
  let s ← s.requireIf (isMemory64 flags) .memory64
  let (minPages, ptr) ← readU64 buf (ptr + 1)
  let (maxPages, ptr) ← readMaxPages flags buf ptr
  readEnsure (minPages ≤ pageLimit (isMemory64 flags)) .validationFailed
  readEnsure (flags &&& 0x01 = 0 ∨ maxPages ≤ pageLimit (isMemory64 flags)) .validationFailed
  readEnsure (minPages ≤ maxPages) .validationFailed
  pure (⟨isMemory64 flags, minPages, maxPages⟩, ptr, s)

/-- an iteration of `wah_parse_tag_section` -/
def readTag : Reader (BitVec 8) DeclModule ReadError Nat := fun buf ptr s => do
  let attr ← readByte buf ptr
  readEnsure (attr = 0) .malformed
  let (i, ptr) ← readU32 buf (ptr + 1)
  readEnsure (i < s.rest.kinds.length) .validationFailed
  readEnsure (s.rest.kinds[i]? = some .func) .validationFailed
  readEnsure (s.resultCounts[i]? = some 0) .validationFailed
  pure (i, ptr, s)

/-- a section that is a vector; `before` is what is done between the count and the items. The allocation of the array of
items succeeds here. -/
def vecSection {α : Type} (minBytes : Nat) (item : Reader (BitVec 8) DeclModule ReadError α)
    (before : Nat → DeclModule → Except ReadError DeclModule) (store : List α → DeclModule → DeclModule)
    (payload : List (BitVec 8)) (s : DeclModule) : Except ReadError (Nat × DeclModule) := do
  let (count, ptr) ← readCount payload 0 minBytes
  let s ← before count s
  let (as, ptr, s) ← many item count payload ptr s
  pure (ptr, store as s)

/-- `wah_parse_function_section` -/
def parseFunctionSection : List (BitVec 8) → DeclModule → Except ReadError (Nat × DeclModule) :=
  vecSection 1 readFunctionType (fun count s => .ok { s with wasmFunctionCount := count }) fun is s =>
    { s with rest := { s.rest with functionTypeIndices := is } }

/-- `wah_parse_memory_section` -/
def parseMemorySection : List (BitVec 8) → DeclModule → Except ReadError (Nat × DeclModule) :=
  vecSection 2 readMemory (fun count s => s.requireIf (1 < s.rest.importMemoryCount + count) .multiMemory) fun ms s =>
    { s with rest := { s.rest with memories := ms } }

/-- `wah_parse_tag_section` -/
def parseTagSection (payload : List (BitVec 8)) (s : DeclModule) : Except ReadError (Nat × DeclModule) := do
  let s ← s.require .exception
  vecSection 2 readTag (fun _ s => .ok s) (fun is s => { s with rest := { s.rest with tags := is } }) payload s

/-- the parsers of sections, where `others` gives all but function, memory and tag sections -/
def declSections (others : SectionParsers Declared) : SectionParsers Declared
  | .function => parseFunctionSection
  | .memory => parseMemorySection
  | .tag => parseTagSection
  | id => others id

/-! ## Entries -/

def EncTypeIdx (bs : List (BitVec 8)) (i : Nat) : Prop := Enc unsignedLast 32 bs i

def EncTag (bs : List (BitVec 8)) (i : Nat) : Prop := ∃ idx, bs = 0 :: idx ∧ EncTypeIdx idx i

/-- flags of a memory -/
def memoryFlags (is64 hasMax : Bool) : BitVec 8 := (if is64 then 0x04 else 0x00) ||| (if hasMax then 0x01 else 0x00)

/-- a memory with its limits in pages -/
inductive EncMemory : List (BitVec 8) → MemoryDecl → Prop where
  | unbounded {is64 : Bool} {bs : List (BitVec 8)} {min : Nat} (hmin : Enc unsignedLast 64 bs min)
      (hlimit : min ≤ pageLimit is64) : EncMemory (memoryFlags is64 false :: bs) ⟨is64, min, uint64Max⟩
  | bounded {is64 : Bool} {bs bs' : List (BitVec 8)} {min max : Nat} (hmin : Enc unsignedLast 64 bs min)
      (hmax : Enc unsignedLast 64 bs' max) (hlimit : max ≤ pageLimit is64) (hle : min ≤ max) :
      EncMemory (memoryFlags is64 true :: (bs ++ bs')) ⟨is64, min, max⟩

/-- a vector: the number of its items, and the items -/
def EncVec {α : Type} (enc : List (BitVec 8) → α → Prop) (payload : List (BitVec 8)) (as : List α) : Prop :=
  ∃ len body, payload = len ++ body ∧ Enc unsignedLast 32 len as.length ∧ EncAll enc body as

/-- a function or tag of the type is allowed -/
def useIf (allowed : Nat → DeclModule → Prop) [∀ i s, Decidable (allowed i s)] (i : Nat) (s : DeclModule) :
    Option DeclModule :=
  if allowed i s then some s else none

def useMemory (m : MemoryDecl) (s : DeclModule) : Option DeclModule := (s.requireIf m.is64 .memory64).toOption

/-! ## Readers -/

theorem readU32_ok_iff {buf : List (BitVec 8)} {ptr n ptr' : Nat} : readU32 buf ptr = .ok (n, ptr') ↔
    ∃ bs, bs <+: buf.drop ptr ∧ Enc unsignedLast 32 bs n ∧ ptr' = ptr + bs.length :=
  decode_ok_iff (decodeUleb128_decodes buf ptr)

theorem readU64_ok_iff {buf : List (BitVec 8)} {ptr n ptr' : Nat} : readU64 buf ptr = .ok (n, ptr') ↔
    ∃ bs, bs <+: buf.drop ptr ∧ Enc unsignedLast 64 bs n ∧ ptr' = ptr + bs.length :=
  decode_ok_iff (lebFor_decodes uleb128_64_finishes (by decide) (by decide) 10 (by decide) (by decide) buf ptr)

theorem readByte_ok_iff {buf : List (BitVec 8)} {ptr : Nat} {b : BitVec 8} :
    readByte buf ptr = .ok b ↔ [b] <+: buf.drop ptr := by
  constructor
  · intro h
    unfold readByte at h
    split_ifs at h with hlt
    rw [List.getElem?_eq_getElem hlt] at h
    obtain rfl := Except.ok.inj h
    rw [List.drop_eq_getElem_cons hlt]
    exact List.prefix_append [buf[ptr]] _
  · rintro ⟨tail, htail⟩
    have hb : buf[ptr]? = some b := by
      rw [← List.head?_drop, ← htail]
      rfl
    obtain ⟨hlt, -⟩ := List.getElem?_eq_some_iff.1 hb
    rw [readByte, if_pos hlt, hb]

theorem readCount_ok_iff {buf : List (BitVec 8)} {minBytes n ptr : Nat} : readCount buf 0 minBytes = .ok (n, ptr) ↔
    (∃ len, len <+: buf ∧ Enc unsignedLast 32 len n ∧ ptr = len.length) ∧ (0 < minBytes → n ≤ 0xFFFFFFFF / minBytes) ∧
      n * minBytes ≤ buf.length - ptr := by
  have hdec := decodeUleb128_decodes buf 0
  constructor
  · intro h
    obtain ⟨⟨v, ptr'⟩, hv, h⟩ := readBind_ok h
    obtain ⟨_, hmax, h⟩ := readBind_ok h
    obtain ⟨_, hroom, h⟩ := readBind_ok h
    obtain ⟨rfl, rfl⟩ := Prod.mk.inj (Except.ok.inj h)
    have hread : readU32 buf 0 = .ok (v.toNat, ptr') := by
      rw [readU32, hv]
      rfl
    obtain ⟨len, hpre, henc, hptr⟩ := readU32_ok_iff.1 hread
    exact ⟨⟨len, hpre, henc, by rw [hptr, Nat.zero_add]⟩, readEnsure_ok hmax, readEnsure_ok hroom⟩
  · rintro ⟨⟨len, hpre, henc, rfl⟩, hmax, hroom⟩
    obtain ⟨v, hv, hn, hptr⟩ := hdec.complete len n hpre henc
    obtain rfl : v.toNat = n := by exact_mod_cast hn
    rw [readCount, lebValue, hv, hptr]
    simp only [bind, Except.bind, Nat.zero_add, readEnsure, if_pos hmax, if_pos hroom]
    rfl

section Vectors

variable {α : Type} {minBytes : Nat} {item : Reader (BitVec 8) DeclModule ReadError α}
  {enc : List (BitVec 8) → α → Prop} {use : α → DeclModule → Option DeclModule}
  {before : Nat → DeclModule → Except ReadError DeclModule} {store : List α → DeclModule → DeclModule}

/-- a section that is a vector, to its last byte -/
theorem vecSection_ok_iff (hitem : Reads item enc use) (hmin : ∀ bs a, enc bs a → minBytes ≤ bs.length)
    (hpos : 0 < minBytes) {payload : List (BitVec 8)} (hsize : payload.length < 2 ^ 32) {s s' : DeclModule} :
    vecSection minBytes item before store payload s = .ok (payload.length, s') ↔
      ∃ as, EncVec enc payload as ∧
        ∃ s₁ s₂, before as.length s = .ok s₁ ∧ useAll use as s₁ = some s₂ ∧ s' = store as s₂ := by
  constructor
  · intro h
    obtain ⟨⟨count, ptr⟩, hcount, h⟩ := readBind_ok h
    obtain ⟨s₁, hbefore, h⟩ := readBind_ok h
    obtain ⟨⟨as, ptr', s₂⟩, hmany, h⟩ := readBind_ok h
    obtain ⟨hend, rfl⟩ := Prod.mk.inj (Except.ok.inj h)
    obtain ⟨⟨len, ⟨rest, rfl⟩, hlen, rfl⟩, -, -⟩ := readCount_ok_iff.1 hcount
    obtain ⟨body, hbody, hptr, ⟨rfl, hall⟩, huse⟩ := (hitem.many count).sound hmany
    rw [List.drop_left] at hbody
    obtain rfl : body = rest := by
      refine hbody.eq_of_length ?_
      rw [hptr, List.length_append] at hend
      exact Nat.add_left_cancel hend
    exact ⟨as, ⟨len, body, rfl, hlen, hall⟩, s₁, s₂, hbefore, huse, rfl⟩
  · rintro ⟨as, ⟨len, body, rfl, hlen, hall⟩, s₁, s₂, hbefore, huse, rfl⟩
    have hroom : as.length * minBytes ≤ body.length := hall.length_le hmin
    have hcount : readCount (len ++ body) 0 minBytes = .ok (as.length, len.length) := by
      refine readCount_ok_iff.2 ⟨⟨len, List.prefix_append len body, hlen, rfl⟩, fun _ => ?_, ?_⟩
      · rw [Nat.le_div_iff_mul_le hpos]
        rw [List.length_append] at hsize
        omega
      · rw [List.length_append, Nat.add_sub_cancel_left]
        exact hroom
    have hmany : many item as.length (len ++ body) len.length s₁ = .ok (as, len.length + body.length, s₂) :=
      (hitem.many as.length).complete (by rw [List.drop_left]) ⟨rfl, hall⟩ huse
    rw [vecSection, hcount]
    simp only [bind, Except.bind]
    rw [hbefore]
    simp only [hmany, List.length_append]
    rfl

end Vectors

/-! ## Items -/

theorem readFunctionType_reads :
    Reads readFunctionType EncTypeIdx (useIf fun i s => s.rest.kinds[i]? = some .func) where
  sound := by
    intro buf ptr s i ptr' s' h
    obtain ⟨⟨i', ptr₁⟩, hi, h⟩ := readBind_ok h
    obtain ⟨_, -, h⟩ := readBind_ok h
    obtain ⟨_, hkind, h⟩ := readBind_ok h
    obtain ⟨rfl, hstate⟩ := Prod.mk.inj (Except.ok.inj h)
    obtain ⟨rfl, rfl⟩ := Prod.mk.inj hstate
    obtain ⟨bs, hpre, henc, rfl⟩ := readU32_ok_iff.1 hi
    exact ⟨bs, hpre, rfl, henc, if_pos (readEnsure_ok hkind)⟩
  complete := by
    intro buf ptr s bs i s' hpre henc huse
    rw [useIf] at huse
    split_ifs at huse with hkind
    obtain rfl := Option.some.inj huse
    obtain ⟨hlt, -⟩ := List.getElem?_eq_some_iff.1 hkind
    rw [readFunctionType, readU32_ok_iff.2 ⟨bs, hpre, henc, rfl⟩]
    simp only [bind, Except.bind, readEnsure, if_pos hlt, if_pos hkind]
    rfl

theorem readTag_reads :
    Reads readTag EncTag (useIf fun i s => s.rest.kinds[i]? = some .func ∧ s.resultCounts[i]? = some 0) where
  sound := by
    intro buf ptr s i ptr' s' h
    obtain ⟨attr, hbyte, h⟩ := readBind_ok h
    obtain ⟨_, hattr, h⟩ := readBind_ok h
    obtain ⟨⟨i', ptr₁⟩, hi, h⟩ := readBind_ok h
    obtain ⟨_, -, h⟩ := readBind_ok h
    obtain ⟨_, hkind, h⟩ := readBind_ok h
    obtain ⟨_, hresults, h⟩ := readBind_ok h
    obtain ⟨rfl, hstate⟩ := Prod.mk.inj (Except.ok.inj h)
    obtain ⟨rfl, rfl⟩ := Prod.mk.inj hstate
    obtain rfl := readEnsure_ok hattr
    obtain ⟨bs, hpre, henc, rfl⟩ := readU32_ok_iff.1 hi
    refine ⟨[0] ++ bs, prefix_append_of_drop (readByte_ok_iff.1 hbyte) hpre, ?_, ⟨bs, rfl, henc⟩, ?_⟩
    · rw [List.length_append, List.length_singleton, Nat.add_assoc]
    · exact if_pos ⟨readEnsure_ok hkind, readEnsure_ok hresults⟩
  complete := by
    rintro buf ptr s bs i s' hpre ⟨idx, rfl, henc⟩ huse
    rw [useIf] at huse
    split_ifs at huse with hallowed
    obtain rfl := Option.some.inj huse
    obtain ⟨hkind, hresults⟩ := hallowed
    obtain ⟨hlt, -⟩ := List.getElem?_eq_some_iff.1 hkind
    obtain ⟨hbyte, hidx⟩ := drop_append_of_prefix (show [0] ++ idx <+: buf.drop ptr from hpre)
    have hi : readU32 buf (ptr + 1) = .ok (i, ptr + 1 + idx.length) := readU32_ok_iff.2 ⟨idx, hidx, henc, rfl⟩
    rw [readTag, readByte_ok_iff.2 hbyte]
    simp only [bind, Except.bind, readEnsure, if_true, hi, if_pos hlt, if_pos hkind, if_pos hresults]
    rw [List.length_cons, Nat.add_assoc, Nat.add_comm 1]
    rfl

theorem memoryFlags_iff {flags : BitVec 8} : (flags = 0x00 ∨ flags = 0x01 ∨ flags = 0x04 ∨ flags = 0x05) ↔
    ∃ is64 hasMax, flags = memoryFlags is64 hasMax := by
  constructor
  · rintro (rfl | rfl | rfl | rfl)
    · exact ⟨false, false, rfl⟩
    · exact ⟨false, true, rfl⟩
    · exact ⟨true, false, rfl⟩
    · exact ⟨true, true, rfl⟩
  · rintro ⟨is64, hasMax, rfl⟩
    cases is64 <;> cases hasMax <;> decide

@[simp] theorem isMemory64_memoryFlags (is64 hasMax : Bool) : isMemory64 (memoryFlags is64 hasMax) = is64 := by
  cases is64 <;> cases hasMax <;> decide

@[simp] theorem memoryFlags_max (is64 hasMax : Bool) : memoryFlags is64 hasMax &&& 0x01 = 0 ↔ hasMax = false := by
  cases is64 <;> cases hasMax <;> decide

theorem pageLimit_le (is64 : Bool) : pageLimit is64 ≤ uint64Max := by
  cases is64 <;> decide

theorem require_ok_iff {τ : Type} {s s' : ModuleState τ} {f : ModuleFeature} :
    s.require f = .ok s' ↔ s.enabled f = true ∧ s' = { s with required := f :: s.required } := by
  unfold ModuleState.require
  split_ifs with hf
  · exact ⟨fun h => ⟨hf, (Except.ok.inj h).symm⟩, fun h => congrArg Except.ok h.2.symm⟩
  · exact ⟨(nomatch ·), fun h => absurd h.1 hf⟩

theorem requireIf_ok_iff {τ : Type} {s s' : ModuleState τ} {used : Bool} {f : ModuleFeature} :
    s.requireIf used f = .ok s' ↔
      (used = true → s.enabled f = true) ∧ s' = { s with required := (if used then [f] else []) ++ s.required } := by
  cases used with
  | false => exact ⟨fun h => ⟨(nomatch ·), (Except.ok.inj h).symm⟩, fun h => congrArg Except.ok h.2.symm⟩
  | true => exact require_ok_iff.trans (and_congr_left' (true_imp_iff.symm.trans (by simp)))

theorem useMemory_iff {m : MemoryDecl} {s s' : DeclModule} :
    useMemory m s = some s' ↔ s.requireIf m.is64 .memory64 = .ok s' := by
  rw [useMemory]
  cases s.requireIf m.is64 .memory64 with
  | error e => exact ⟨(nomatch ·), (nomatch ·)⟩
  | ok s₁ => exact ⟨fun h => congrArg Except.ok (Option.some.inj h), fun h => congrArg some (Except.ok.inj h)⟩

theorem readMemory_reads : Reads readMemory EncMemory useMemory where
  sound := by
    intro buf ptr s m ptr' s' h
    obtain ⟨flags, hbyte, h⟩ := readBind_ok h
    obtain ⟨_, hflags, h⟩ := readBind_ok h
    obtain ⟨is64, hasMax, rfl⟩ := memoryFlags_iff.1 (readEnsure_ok hflags)
    obtain ⟨s₁, huse, h⟩ := readBind_ok h
    obtain ⟨⟨min, ptr₁⟩, hmin, h⟩ := readBind_ok h
    obtain ⟨⟨max, ptr₂⟩, hmax, h⟩ := readBind_ok h
    obtain ⟨_, hlimit, h⟩ := readBind_ok h
    obtain ⟨_, hlimit', h⟩ := readBind_ok h
    obtain ⟨_, hle, h⟩ := readBind_ok h
    obtain ⟨rfl, hstate⟩ := Prod.mk.inj (Except.ok.inj h)
    obtain ⟨rfl, rfl⟩ := Prod.mk.inj hstate
    obtain ⟨bs, hpre, henc, rfl⟩ := readU64_ok_iff.1 hmin
    have hstart : [memoryFlags is64 hasMax] ++ bs <+: buf.drop ptr :=
      prefix_append_of_drop (readByte_ok_iff.1 hbyte) hpre
    have hminLimit := readEnsure_ok hlimit
    have hmaxLimit := readEnsure_ok hlimit'
    simp only [readMaxPages, isMemory64_memoryFlags, memoryFlags_max] at huse hminLimit hmaxLimit hmax ⊢
    cases hasMax with
    | false =>
      obtain ⟨rfl, rfl⟩ := Prod.mk.inj (Except.ok.inj hmax)
      refine ⟨_, hstart, ?_, .unbounded henc hminLimit, useMemory_iff.2 huse⟩
      rw [List.length_append, List.length_singleton, Nat.add_assoc]
    | true =>
      obtain ⟨bs', hpre', henc', rfl⟩ := readU64_ok_iff.1 hmax
      have hentry : EncMemory (memoryFlags is64 true :: (bs ++ bs')) ⟨is64, min, max⟩ :=
        .bounded henc henc' (hmaxLimit.resolve_left (by decide)) (readEnsure_ok hle)
      refine ⟨[memoryFlags is64 true] ++ (bs ++ bs'), ?_, ?_, hentry, useMemory_iff.2 huse⟩
      · rw [← List.append_assoc]
        refine prefix_append_of_drop hstart ?_
        rw [List.length_append, List.length_singleton, ← Nat.add_assoc]
        exact hpre'
      · rw [List.length_append, List.length_append, List.length_singleton, Nat.add_assoc, Nat.add_assoc]
  complete := by
    intro buf ptr s bs m s' hpre henc huse
    rw [useMemory_iff] at huse
    cases henc with
    | unbounded hmin hlimit =>
      rename_i is64 bs min
      obtain ⟨hbyte, hbs⟩ := drop_append_of_prefix (show [memoryFlags is64 false] ++ bs <+: buf.drop ptr from hpre)
      have hread : readU64 buf (ptr + 1) = .ok (min, ptr + 1 + bs.length) := readU64_ok_iff.2 ⟨bs, hbs, hmin, rfl⟩
      have hle : min ≤ uint64Max := hlimit.trans (pageLimit_le is64)
      rw [readMemory, readByte_ok_iff.2 hbyte]
      simp only [bind, Except.bind, readEnsure, if_pos (memoryFlags_iff.2 ⟨is64, false, rfl⟩), isMemory64_memoryFlags,
        huse, hread, readMaxPages, memoryFlags_max, if_true, pure, Except.pure, if_pos hlimit, true_or, if_pos hle]
      rw [List.length_cons, Nat.add_assoc, Nat.add_comm 1]
    | bounded hmin hmax hlimit hle =>
      rename_i is64 bs bs' min max
      obtain ⟨hbyte, hrest⟩ := drop_append_of_prefix (show [memoryFlags is64 true] ++ (bs ++ bs') <+: buf.drop ptr from hpre)
      obtain ⟨hbs, hbs'⟩ := drop_append_of_prefix hrest
      have hread : readU64 buf (ptr + 1) = .ok (min, ptr + 1 + bs.length) := readU64_ok_iff.2 ⟨bs, hbs, hmin, rfl⟩
      have hread' : readU64 buf (ptr + 1 + bs.length) = .ok (max, ptr + 1 + bs.length + bs'.length) :=
        readU64_ok_iff.2 ⟨bs', hbs', hmax, rfl⟩
      have hlimit' : min ≤ pageLimit is64 := hle.trans hlimit
      rw [readMemory, readByte_ok_iff.2 hbyte]
      simp only [bind, Except.bind, readEnsure, if_pos (memoryFlags_iff.2 ⟨is64, true, rfl⟩), isMemory64_memoryFlags,
        huse, hread, hread', readMaxPages, memoryFlags_max, if_pos hlimit, if_pos hlimit', if_pos hle, pure, Except.pure,
        Bool.true_eq_false, if_false, false_or]
      congr 3
      simp only [List.length_cons, List.length_append]
      omega

/-! ## States -/

theorem useAll_useIf {allowed : Nat → DeclModule → Prop} [∀ i s, Decidable (allowed i s)] {is : List Nat}
    {s s' : DeclModule} : useAll (useIf allowed) is s = some s' ↔ (∀ i ∈ is, allowed i s) ∧ s' = s := by
  induction is with
  | nil =>
    constructor
    · intro h
      exact ⟨fun i hi => absurd hi List.not_mem_nil, (Option.some.inj h).symm⟩
    · rintro ⟨-, rfl⟩
      rfl
  | cons i is ih =>
    rw [useAll_cons, useIf, List.forall_mem_cons]
    by_cases hi : allowed i s
    · rw [if_pos hi]
      exact ih.trans (and_congr_left' (and_iff_right hi).symm)
    · rw [if_neg hi]
      exact ⟨(nomatch ·), fun h => absurd h.1.1 hi⟩

theorem replicate_countP_cons (m : MemoryDecl) (ms : List MemoryDecl) (f : ModuleFeature) (fs : List ModuleFeature) :
    List.replicate ((m :: ms).countP MemoryDecl.is64) f ++ fs =
      List.replicate (ms.countP MemoryDecl.is64) f ++ ((if m.is64 then [f] else []) ++ fs) := by
  rw [List.countP_cons]
  cases m.is64 with
  | false => rfl
  | true => simp [List.replicate_succ']

theorem useAll_useMemory {ms : List MemoryDecl} {s s' : DeclModule} :
    useAll useMemory ms s = some s' ↔ (∀ m ∈ ms, m.is64 = true → s.enabled .memory64 = true) ∧
      s' = { s with required := List.replicate (ms.countP MemoryDecl.is64) .memory64 ++ s.required } := by
  induction ms generalizing s with
  | nil =>
    constructor
    · intro h
      exact ⟨fun m hm => absurd hm List.not_mem_nil, (Option.some.inj h).symm⟩
    · rintro ⟨-, rfl⟩
      rfl
  | cons m ms ih =>
    rw [useAll_cons, Option.bind_eq_bind, Option.bind_eq_some_iff, List.forall_mem_cons]
    constructor
    · rintro ⟨s₁, huse, huses⟩
      obtain ⟨hm, rfl⟩ := requireIf_ok_iff.1 (useMemory_iff.1 huse)
      obtain ⟨hms, rfl⟩ := ih.1 huses
      refine ⟨⟨hm, hms⟩, ?_⟩
      rw [replicate_countP_cons]
    · rintro ⟨⟨hm, hms⟩, rfl⟩
      refine ⟨_, useMemory_iff.2 (requireIf_ok_iff.2 ⟨hm, rfl⟩), ih.2 ⟨hms, ?_⟩⟩
      rw [replicate_countP_cons]

/-! ## Gates -/

theorem many_gated {α : Type} {item : Reader (BitVec 8) DeclModule ReadError α}
    (hitem : ∀ buf ptr, FeatureGated (item buf ptr)) (n : Nat) (buf : List (BitVec 8)) (ptr : Nat) :
    FeatureGated (many item n buf ptr) := by
  induction n generalizing ptr with
  | zero => exact Gated.pure (fun _ => rfl) fun _ _ => rfl
  | succ n ih =>
    refine Gated.bind (hitem buf ptr) (Gated.onSnd fun a => Gated.onSnd fun ptr => ?_)
    exact Gated.bind (ih ptr) (Gated.onSnd fun as => Gated.onSnd fun ptr => Gated.pure (fun _ => rfl) fun _ _ => rfl)

theorem vecSection_gated {α : Type} {minBytes : Nat} {item : Reader (BitVec 8) DeclModule ReadError α}
    {before : Nat → DeclModule → Except ReadError DeclModule} {store : List α → DeclModule → DeclModule}
    (hitem : ∀ buf ptr, FeatureGated (item buf ptr)) (hbefore : ∀ n, FeatureGated (before n))
    (hasked : ∀ as s, (store as s).required = s.required)
    (hopen : ∀ as s enabled, store as (s.withFeatures enabled) = (store as s).withFeatures enabled)
    (payload : List (BitVec 8)) : FeatureGated (vecSection minBytes item before store payload) := by
  refine Gated.look (fun _ _ => rfl) ?_
  rintro ⟨count, ptr⟩
  refine Gated.bind (hbefore count) (Gated.bind (many_gated hitem count payload ptr) ?_)
  exact Gated.onSnd fun as => Gated.onSnd fun ptr => Gated.pure (hasked as) fun s enabled =>
    congrArg (Prod.mk ptr) (hopen as s enabled)

theorem readFunctionType_gated (buf : List (BitVec 8)) (ptr : Nat) : FeatureGated (readFunctionType buf ptr) := by
  refine Gated.look (fun _ _ => rfl) ?_
  rintro ⟨i, ptr⟩
  refine Gated.look (fun _ _ => rfl) fun _ => Gated.look (fun _ _ => rfl) fun _ => ?_
  exact Gated.pure (fun _ => rfl) fun _ _ => rfl

theorem readTag_gated (buf : List (BitVec 8)) (ptr : Nat) : FeatureGated (readTag buf ptr) := by
  refine Gated.look (fun _ _ => rfl) fun attr => Gated.look (fun _ _ => rfl) fun _ => Gated.look (fun _ _ => rfl) ?_
  rintro ⟨i, ptr⟩
  refine Gated.look (fun _ _ => rfl) fun _ => Gated.look (fun _ _ => rfl) fun _ => Gated.look (fun _ _ => rfl) fun _ => ?_
  exact Gated.pure (fun _ => rfl) fun _ _ => rfl

theorem readMemory_gated (buf : List (BitVec 8)) (ptr : Nat) : FeatureGated (readMemory buf ptr) := by
  refine Gated.look (fun _ _ => rfl) fun flags => Gated.look (fun _ _ => rfl) fun _ => ?_
  refine Gated.bind (requireIf_gated .memory64 fun _ _ => rfl) (Gated.look (fun _ _ => rfl) ?_)
  rintro ⟨minPages, ptr⟩
  refine Gated.look (fun _ _ => rfl) ?_
  rintro ⟨maxPages, ptr⟩
  refine Gated.look (fun _ _ => rfl) fun _ => Gated.look (fun _ _ => rfl) fun _ => Gated.look (fun _ _ => rfl) fun _ => ?_
  exact Gated.pure (fun _ => rfl) fun _ _ => rfl

theorem parseFunctionSection_gated (payload : List (BitVec 8)) : FeatureGated (parseFunctionSection payload) := by
  refine vecSection_gated readFunctionType_gated ?_ ?_ ?_ payload
  · exact fun _ => Gated.pure (fun _ => rfl) fun _ _ => rfl
  · exact fun _ _ => rfl
  · exact fun _ _ _ => rfl

theorem parseMemorySection_gated (payload : List (BitVec 8)) : FeatureGated (parseMemorySection payload) := by
  refine vecSection_gated readMemory_gated ?_ ?_ ?_ payload
  · exact fun _ => requireIf_gated .multiMemory fun _ _ => rfl
  · exact fun _ _ => rfl
  · exact fun _ _ _ => rfl

theorem parseTagSection_gated (payload : List (BitVec 8)) : FeatureGated (parseTagSection payload) := by
  refine Gated.bind (require_gated .exception) ?_
  refine vecSection_gated readTag_gated ?_ ?_ ?_ payload
  · exact fun _ => Gated.pure (fun _ => rfl) fun _ _ => rfl
  · exact fun _ _ => rfl
  · exact fun _ _ _ => rfl

/-- these parsers look at the enabled features by asking only, if the others do -/
theorem declSections_gated {others : SectionParsers Declared} (hothers : ∀ id payload, FeatureGated (others id payload))
    (id : SectionId) (payload : List (BitVec 8)) : FeatureGated (declSections others id payload) := by
  cases id with
  | function => exact parseFunctionSection_gated payload
  | memory => exact parseMemorySection_gated payload
  | tag => exact parseTagSection_gated payload
  | _ => exact hothers _ payload

/-! ## Results -/

theorem EncTypeIdx.length_pos {bs : List (BitVec 8)} {i : Nat} (h : EncTypeIdx bs i) : 1 ≤ bs.length :=
  List.length_pos_iff.2 h.ne_nil

theorem EncTag.length_le {bs : List (BitVec 8)} {i : Nat} (h : EncTag bs i) : 2 ≤ bs.length := by
  obtain ⟨idx, rfl, henc⟩ := h
  exact Nat.succ_le_succ henc.length_pos

theorem EncMemory.length_le {bs : List (BitVec 8)} {m : MemoryDecl} (h : EncMemory bs m) : 2 ≤ bs.length := by
  cases h with
  | unbounded hmin => exact Nat.succ_le_succ (List.length_pos_iff.2 hmin.ne_nil)
  | bounded hmin =>
    have := List.length_pos_iff.2 hmin.ne_nil
    simp only [List.length_cons, List.length_append]
    omega

theorem parseFunctionSection_ok_iff {payload : List (BitVec 8)} (hsize : payload.length < 2 ^ 32) {s s' : DeclModule} :
    parseFunctionSection payload s = .ok (payload.length, s') ↔
      ∃ is, EncVec EncTypeIdx payload is ∧ (∀ i ∈ is, s.rest.kinds[i]? = some .func) ∧
        s' = { s with wasmFunctionCount := is.length, rest := { s.rest with functionTypeIndices := is } } := by
  refine (vecSection_ok_iff readFunctionType_reads (fun _ _ h => h.length_pos) (by decide) hsize).trans ?_
  refine exists_congr fun is => and_congr_right fun _ => ?_
  constructor
  · rintro ⟨s₁, s₂, hbefore, huse, rfl⟩
    obtain rfl := Except.ok.inj hbefore
    obtain ⟨hkinds, rfl⟩ := useAll_useIf.1 huse
    exact ⟨hkinds, rfl⟩
  · rintro ⟨hkinds, rfl⟩
    exact ⟨_, _, rfl, useAll_useIf.2 ⟨hkinds, rfl⟩, rfl⟩

/-- the features that the memories of a section ask for, after those that are imported -/
def memoryFeatures (imported : Nat) (ms : List MemoryDecl) : List ModuleFeature :=
  List.replicate (ms.countP MemoryDecl.is64) .memory64 ++ if 1 < imported + ms.length then [.multiMemory] else []

theorem memoryFeatures_enabled {imported : Nat} {ms : List MemoryDecl} {enabled : ModuleFeature → Bool} :
    (∀ f ∈ memoryFeatures imported ms, enabled f = true) ↔
      (∀ m ∈ ms, m.is64 = true → enabled .memory64 = true) ∧
        (1 < imported + ms.length → enabled .multiMemory = true) := by
  rw [memoryFeatures, List.forall_mem_append]
  refine and_congr ?_ (by split_ifs with h <;> simp [h])
  constructor
  · intro h m hm hm64
    exact h _ (List.mem_replicate.2 ⟨fun hnone => List.countP_eq_zero.1 hnone m hm hm64, rfl⟩)
  · intro h f hf
    obtain ⟨hsome, rfl⟩ := List.mem_replicate.1 hf
    obtain ⟨m, hm, hm64⟩ := List.countP_pos_iff.1 (Nat.pos_of_ne_zero hsome)
    exact h m hm hm64

theorem parseMemorySection_ok_iff {payload : List (BitVec 8)} (hsize : payload.length < 2 ^ 32) {s s' : DeclModule} :
    parseMemorySection payload s = .ok (payload.length, s') ↔
      ∃ ms, EncVec EncMemory payload ms ∧ (∀ f ∈ memoryFeatures s.rest.importMemoryCount ms, s.enabled f = true) ∧
        s' = { s with
          required := memoryFeatures s.rest.importMemoryCount ms ++ s.required
          rest := { s.rest with memories := ms } } := by
  refine (vecSection_ok_iff readMemory_reads (fun _ _ h => h.length_le) (by decide) hsize).trans ?_
  refine exists_congr fun ms => and_congr_right fun _ => ?_
  constructor
  · rintro ⟨s₁, s₂, hbefore, huse, rfl⟩
    obtain ⟨hmulti, rfl⟩ := requireIf_ok_iff.1 hbefore
    obtain ⟨h64, rfl⟩ := useAll_useMemory.1 huse
    refine ⟨memoryFeatures_enabled.2 ⟨h64, by simpa using hmulti⟩, ?_⟩
    simp only [memoryFeatures, List.append_assoc, decide_eq_true_eq]
  · rintro ⟨hon, rfl⟩
    obtain ⟨h64, hmulti⟩ := memoryFeatures_enabled.1 hon
    refine ⟨_, _, requireIf_ok_iff.2 ⟨by simpa using hmulti, rfl⟩, useAll_useMemory.2 ⟨h64, rfl⟩, ?_⟩
    simp only [memoryFeatures, List.append_assoc, decide_eq_true_eq]

theorem parseTagSection_ok_iff {payload : List (BitVec 8)} (hsize : payload.length < 2 ^ 32) {s s' : DeclModule} :
    parseTagSection payload s = .ok (payload.length, s') ↔
      ∃ is, EncVec EncTag payload is ∧ s.enabled .exception = true ∧
        (∀ i ∈ is, s.rest.kinds[i]? = some .func ∧ s.resultCounts[i]? = some 0) ∧
        s' = { s with required := .exception :: s.required, rest := { s.rest with tags := is } } := by
  constructor
  · intro h
    obtain ⟨s₁, hrequire, h⟩ := readBind_ok h
    obtain ⟨hon, rfl⟩ := require_ok_iff.1 hrequire
    obtain ⟨is, hvec, s₁, s₂, hbefore, huse, rfl⟩ :=
      (vecSection_ok_iff readTag_reads (fun _ _ h => h.length_le) (by decide) hsize).1 h
    obtain rfl := Except.ok.inj hbefore
    obtain ⟨hallowed, rfl⟩ := useAll_useIf.1 huse
    exact ⟨is, hvec, hon, hallowed, rfl⟩
  · rintro ⟨is, hvec, hon, hallowed, rfl⟩
    rw [parseTagSection, require_ok_iff.2 ⟨hon, rfl⟩]
    simp only [bind, Except.bind]
    refine (vecSection_ok_iff readTag_reads (fun _ _ h => h.length_le) (by decide) hsize).2 ⟨is, hvec, ?_⟩
    exact ⟨_, _, rfl, useAll_useIf.2 ⟨hallowed, rfl⟩, rfl⟩

/-- **Declarations.** A section of functions, memories or tags is accepted to its last byte exactly when it is a vector of
well-formed entries, the types they refer to are right, and the features they use are enabled; it declares these entries
and records these features. -/
theorem declarations_exact {payload : List (BitVec 8)} (hsize : payload.length < 2 ^ 32) (s s' : DeclModule) :
    (parseFunctionSection payload s = .ok (payload.length, s') ↔
      ∃ is, EncVec EncTypeIdx payload is ∧ (∀ i ∈ is, s.rest.kinds[i]? = some .func) ∧
        s' = { s with wasmFunctionCount := is.length, rest := { s.rest with functionTypeIndices := is } }) ∧
    (parseMemorySection payload s = .ok (payload.length, s') ↔
      ∃ ms, EncVec EncMemory payload ms ∧ (∀ f ∈ memoryFeatures s.rest.importMemoryCount ms, s.enabled f = true) ∧
        s' = { s with
          required := memoryFeatures s.rest.importMemoryCount ms ++ s.required
          rest := { s.rest with memories := ms } }) ∧
    (parseTagSection payload s = .ok (payload.length, s') ↔
      ∃ is, EncVec EncTag payload is ∧ s.enabled .exception = true ∧
        (∀ i ∈ is, s.rest.kinds[i]? = some .func ∧ s.resultCounts[i]? = some 0) ∧
        s' = { s with required := .exception :: s.required, rest := { s.rest with tags := is } }) :=
  ⟨parseFunctionSection_ok_iff hsize, parseMemorySection_ok_iff hsize, parseTagSection_ok_iff hsize⟩

theorem declarations_exact_memory :
    parseMemorySection [1, 0x05, 1, 2] { enabled := fun _ => true, rest := {} } =
      .ok (4, { enabled := fun _ => true, required := [.memory64], rest := { memories := [⟨true, 1, 2⟩] } }) := by
  have hmin : Enc unsignedLast 64 [1] (1 : Nat) := .final (by decide) (by decide)
  have hmax : Enc unsignedLast 64 [2] (2 : Nat) := .final (by decide) (by decide)
  have hm : EncMemory [memoryFlags true true, 1, 2] ⟨true, 1, 2⟩ := EncMemory.bounded hmin hmax (by decide) (by decide)
  refine (declarations_exact (by decide) _ _).2.1.2
    ⟨[⟨true, 1, 2⟩], ⟨[1], [memoryFlags true true, 1, 2], by decide, ?_, ?_⟩, fun _ _ => rfl, rfl⟩
  · exact .final (by decide) (by decide)
  · exact EncAll.cons hm .nil

/-! ## Accepted modules -/

/-- limits in order, and within the page limit where they are given -/
def MemoryDecl.Valid (m : MemoryDecl) : Prop :=
  m.minPages ≤ pageLimit m.is64 ∧ m.minPages ≤ m.maxPages ∧ (m.maxPages ≤ pageLimit m.is64 ∨ m.maxPages = uint64Max)

/-- what is declared fits the types of the module -/
structure Declares (s : DeclModule) : Prop where
  functions : ∀ i ∈ s.rest.functionTypeIndices, s.rest.kinds[i]? = some .func
  memories : ∀ m ∈ s.rest.memories, m.Valid
  tags : ∀ i ∈ s.rest.tags, s.rest.kinds[i]? = some .func ∧ s.resultCounts[i]? = some 0

/-- the types and the declarations are the same -/
structure SameDecls (s s' : DeclModule) : Prop where
  kinds : s'.rest.kinds = s.rest.kinds
  resultCounts : s'.resultCounts = s.resultCounts
  functions : s'.rest.functionTypeIndices = s.rest.functionTypeIndices
  memories : s'.rest.memories = s.rest.memories
  tags : s'.rest.tags = s.rest.tags

/-- the other parsers declare nothing, and only the one of type sections changes the types -/
structure OthersKeep (others : SectionParsers Declared) : Prop where
  types : ∀ {payload s n s'}, others .type payload s = .ok (n, s') →
    s'.rest.functionTypeIndices = s.rest.functionTypeIndices ∧ s'.rest.memories = s.rest.memories ∧
      s'.rest.tags = s.rest.tags
  rest : ∀ {id payload s n s'}, id ≠ .type → others id payload s = .ok (n, s') → SameDecls s s'

/-- the declarations after a section of order `last`; nothing refers to a type before the types are there -/
structure DeclInv (last : Nat) (s : DeclModule) : Prop extends Declares s where
  early : last = 0 → s.rest.functionTypeIndices = [] ∧ s.rest.tags = []

theorem Declares.same {s s' : DeclModule} (h : Declares s) (hs : SameDecls s s') : Declares s' where
  functions := by
    rw [hs.functions, hs.kinds]
    exact h.functions
  memories := by
    rw [hs.memories]
    exact h.memories
  tags := by
    rw [hs.tags, hs.kinds, hs.resultCounts]
    exact h.tags

theorem EncMemory.valid {bs : List (BitVec 8)} {m : MemoryDecl} (h : EncMemory bs m) : m.Valid := by
  cases h with
  | unbounded _ hlimit => exact ⟨hlimit, hlimit.trans (pageLimit_le _), .inr rfl⟩
  | bounded _ _ hlimit hle => exact ⟨hle.trans hlimit, hle, .inl hlimit⟩

theorem parseCustomSection_same {payload : List (BitVec 8)} {s s' : DeclModule} {n : Nat}
    (h : parseCustomSection payload s = .ok (n, s')) : s' = s := by
  obtain ⟨⟨nameLen, ptr⟩, -, h⟩ := readBind_ok h
  obtain ⟨_, -, h⟩ := readBind_ok h
  cases hutf8 : isValidUtf8 ((payload.drop ptr).take nameLen.toNat) with
  | none =>
    rw [hutf8] at h
    cases h
  | some ok =>
    rw [hutf8] at h
    obtain ⟨_, -, h⟩ := readBind_ok h
    exact (Prod.mk.inj (Except.ok.inj h)).2.symm

theorem parseDatacountSection_same {payload : List (BitVec 8)} {s s' : DeclModule} {n : Nat}
    (h : parseDatacountSection payload s = .ok (n, s')) : SameDecls s s' := by
  obtain ⟨s₁, hrequire, h⟩ := readBind_ok h
  obtain ⟨-, rfl⟩ := require_ok_iff.1 hrequire
  obtain ⟨⟨count, ptr⟩, -, h⟩ := readBind_ok h
  obtain ⟨-, rfl⟩ := Prod.mk.inj (Except.ok.inj h)
  exact ⟨rfl, rfl, rfl, rfl, rfl⟩

theorem finishModule_same {s s' : DeclModule} (h : finishModule s = .ok s') : SameDecls s s' := by
  obtain ⟨_, -, h⟩ := readBind_ok h
  obtain ⟨_, -, h⟩ := readBind_ok h
  obtain ⟨_, -, h⟩ := readBind_ok h
  obtain ⟨_, -, h⟩ := readBind_ok h
  obtain ⟨s₁, h₁, h⟩ := readBind_ok h
  obtain ⟨s₂, h₂, h⟩ := readBind_ok h
  obtain ⟨s₃, h₃, h⟩ := readBind_ok h
  obtain ⟨-, rfl⟩ := requireIf_ok_iff.1 h₁
  obtain ⟨-, rfl⟩ := requireIf_ok_iff.1 h₂
  obtain ⟨-, rfl⟩ := requireIf_ok_iff.1 h₃
  obtain rfl := Except.ok.inj h
  exact ⟨rfl, rfl, rfl, rfl, rfl⟩

section Accepted

variable {others : SectionParsers Declared}

/-- one section; what it declares is checked against the types, which no later section changes -/
theorem DeclInv.parse (hothers : OthersKeep others) {last : Nat} {s s' : DeclModule} (hinv : DeclInv last s)
    {id : SectionId} (horder : id ≠ .custom → last < id.order) {body : List (BitVec 8)} (hsize : body.length < 2 ^ 32)
    (h : parserFunc (declSections others) id body s = .ok (body.length, s')) :
    DeclInv (if id = .custom then last else id.order) s' := by
  have hlate : ∀ {P : Prop}, 0 < id.order → id.order = 0 → P := fun hpos h0 => absurd h0 hpos.ne'
  cases id with
  | custom =>
    obtain rfl := parseCustomSection_same h
    exact hinv
  | dataCount => exact ⟨hinv.toDeclares.same (parseDatacountSection_same h), hlate (by decide)⟩
  | function =>
    obtain ⟨is, -, hkinds, rfl⟩ := (parseFunctionSection_ok_iff hsize).1 h
    exact ⟨⟨hkinds, hinv.memories, hinv.tags⟩, hlate (by decide)⟩
  | memory =>
    obtain ⟨ms, ⟨len, bytes, -, -, hall⟩, -, rfl⟩ := (parseMemorySection_ok_iff hsize).1 h
    refine ⟨⟨hinv.functions, fun m hm => ?_, hinv.tags⟩, hlate (by decide)⟩
    obtain ⟨bs, hbs⟩ := hall.exists_of_mem hm
    exact hbs.valid
  | tag =>
    obtain ⟨is, -, -, hallowed, rfl⟩ := (parseTagSection_ok_iff hsize).1 h
    exact ⟨⟨hinv.functions, hinv.memories, hallowed⟩, hlate (by decide)⟩
  | type =>
    obtain ⟨hfunctions, hmemories, htags⟩ := hothers.types h
    obtain ⟨hnoFunctions, hnoTags⟩ := hinv.early (Nat.lt_one_iff.1 (horder (by decide)))
    refine ⟨⟨?_, ?_, ?_⟩, hlate (by decide)⟩
    · rw [hfunctions, hnoFunctions]
      exact fun i hi => absurd hi List.not_mem_nil
    · rw [hmemories]
      exact hinv.memories
    · rw [htags, hnoTags]
      exact fun i hi => absurd hi List.not_mem_nil
  | _ => exact ⟨hinv.toDeclares.same (hothers.rest (by decide) h), hlate (by decide)⟩

theorem DeclInv.sections (hothers : OthersKeep others) {cs : List (Chunk (BitVec 8))} (hcs : ∀ c ∈ cs, FramedSection c)
    {last : Nat} {s s' : DeclModule} (hread : SectionsRead (declSections others) cs s s')
    (hchain : (last :: sectionOrders cs).IsChain (· < ·)) (hinv : DeclInv last s) : Declares s' := by
  induction hread generalizing last with
  | nil => exact hinv.toDeclares
  | cons hid hparse _ ih =>
    rename_i c cs id s s₁ s₂ _
    obtain ⟨hc, hcs⟩ := List.forall_mem_cons.1 hcs
    obtain ⟨horder, hchain⟩ := (sectionOrders_chain hid).1 hchain
    exact ih hcs hchain (hinv.parse hothers horder (FramedSection.size_lt hc) hparse)

/-- **Accepted modules.** Whatever is declared has been checked against types that stay the same: a module that is parsed
refers to function types only, from its functions and tags, and its memories keep their limits. -/
theorem accepted_module_declares (hothers : OthersKeep others) {compiled : ModuleFeature → Bool}
    {defaults requested : BitVec 64} {binary : List (BitVec 8)} {s : DeclModule}
    (h : parseModule (declSections others) (initialModule compiled defaults requested {}) binary = .ok s) :
    Declares s := by
  obtain ⟨cs, hcs, rfl, ⟨last, s₁⟩, hbodies, hfinish⟩ := parseModule_ok_iff.1 h
  obtain ⟨hchain, hread⟩ := runBodies_iff.1 ⟨last, hbodies⟩
  have hnone : ∀ {P : Nat → Prop}, ∀ i ∈ ([] : List Nat), P i := fun i hi => absurd hi List.not_mem_nil
  have hstart : DeclInv 0 (initialModule compiled defaults requested {}) :=
    ⟨⟨hnone, fun m hm => absurd hm List.not_mem_nil, hnone⟩, fun _ => ⟨rfl, rfl⟩⟩
  exact (DeclInv.sections hothers hcs hread hchain hstart).same (finishModule_same hfinish)

end Accepted

/-- parsers that keep nothing -/
def idleParsers : SectionParsers Declared := fun _ payload s => .ok (payload.length, s)

theorem idleParsers_keep : OthersKeep idleParsers where
  types := by
    intro payload s n s' h
    obtain ⟨-, rfl⟩ := Prod.mk.inj (Except.ok.inj h)
    exact ⟨rfl, rfl, rfl⟩
  rest := by
    intro id payload s n s' _ h
    obtain ⟨-, rfl⟩ := Prod.mk.inj (Except.ok.inj h)
    exact ⟨rfl, rfl, rfl, rfl, rfl⟩

/-- a module with all features, before its sections -/
def openModule : DeclModule := initialModule (fun _ => true) (BitVec.allOnes 64) 0 {}

theorem accepted_module_declares_memory :
    Declares { openModule with required := [.memory64], rest := { memories := [⟨true, 1, 2⟩] } } := by
  have hparsed : parseModule (declSections idleParsers) openModule (moduleHeader ++ [5, 4, 1, 0x05, 1, 2]) =
      .ok { openModule with required := [.memory64], rest := { memories := [⟨true, 1, 2⟩] } } := by
    refine parseModule_ok_iff.2 ⟨[⟨5, [4], [1, 0x05, 1, 2]⟩], ?_, rfl, (5, _), rfl, rfl⟩
    rw [List.forall_mem_singleton]
    exact .final (by decide) (by decide)
  exact accepted_module_declares idleParsers_keep hparsed

end Wah
