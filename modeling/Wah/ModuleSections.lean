/-
The sections of a binary.

Model:
- a cursor with the end of its buffer is the list of the bytes in between. A section parser gets the bytes of its section
  and answers how many it has consumed;
- `ModuleState` is what `wah_parse_module` itself reads and writes. The parsers of all but custom and data count sections
  are a parameter, with a state of their own.

Results:
- `module_framing_exact`: a binary is accepted exactly when it is the header and sections that tile the rest, in the order
  of the specification and none of them twice, each consumed by its parser to the last byte, and the final checks pass;
- `custom_sections_ignored`: a custom section anywhere changes nothing.
-/
import Wah.LengthPrefixed
import Wah.Reader
import Wah.Utf8

namespace Wah

open LengthPrefixed

/-! ## Sections -/

/-- the index into `wah_section_handlers` -/
inductive SectionId where
  | custom | type | imports | function | table | memory | global | exports | start | element | code | data | dataCount
  | tag
deriving DecidableEq, Repr

def SectionId.ofByte (b : BitVec 8) : Option SectionId :=
  match b.toNat with
  | 0 => some .custom | 1 => some .type | 2 => some .imports | 3 => some .function | 4 => some .table | 5 => some .memory
  | 6 => some .global | 7 => some .exports | 8 => some .start | 9 => some .element | 10 => some .code | 11 => some .data
  | 12 => some .dataCount | 13 => some .tag
  | _ => none

/-- `order` in `wah_section_handlers` -/
def SectionId.order : SectionId → Nat
  | custom => 0 | type => 1 | imports => 2 | function => 3 | table => 4 | memory => 5 | tag => 6 | global => 7
  | exports => 8 | start => 9 | element => 10 | dataCount => 11 | code => 12 | data => 13

theorem SectionId.order_pos {id : SectionId} (h : id ≠ .custom) : 0 < id.order := by
  cases id <;> first | exact absurd rfl h | decide

inductive ModuleError where
  | read (e : ReadError)
  | invalidMagicNumber | invalidVersion
deriving DecidableEq, Repr

/-- the features that may be disabled, in the order of their shifts -/
inductive ModuleFeature where
  | multiValue | mutableGlobals | signExt | nontrappingF2I | bulkMemory | refTypes | simd | tailCall | exception | gc
  | typedFuncref | memory64 | relaxedSimd | extendedConst | multiMemory
deriving DecidableEq, Repr

/-- the part of `wah_module_t` that `wah_parse_module` reads and writes, and the rest -/
structure ModuleState (τ : Type) where
  enabled : ModuleFeature → Bool
  required : List ModuleFeature := []
  /-- `result_count` of all types -/
  resultCounts : List Nat := []
  /-- `is_mutable` of all imported globals -/
  globalImports : List Bool := []
  importFunctionCount : Nat := 0
  wasmFunctionCount : Nat := 0
  codeCount : Nat := 0
  /-- `wah_table_index_limit` -/
  tableIndexLimit : Nat := 0
  hasDataCountSection : Bool := false
  dataSegmentCount : Nat := 0
  /-- `data_segments` is allocated -/
  dataSegments : Bool := false
  minDataSegmentCountRequired : Nat := 0
  /-- `local_idx` and `global_idx` of `functions` -/
  functions : List (Nat × Nat) := []
  localFunctionCount : Nat := 0
  rest : τ

section Parsing

variable {τ : Type}

/-- `wah_require_feature` -/
def ModuleState.require (s : ModuleState τ) (f : ModuleFeature) : Except ReadError (ModuleState τ) :=
  if s.enabled f = true then .ok { s with required := f :: s.required } else .error .disabledFeature

/-- `wah_parse_custom_section` -/
def parseCustomSection (payload : List (BitVec 8)) (s : ModuleState τ) : Except ReadError (Nat × ModuleState τ) := do
  let (nameLen, ptr) ← lebValue (decodeUleb128 payload 0)
  readEnsure (nameLen.toNat ≤ payload.length - ptr) .unexpectedEof
  match isValidUtf8 ((payload.drop ptr).take nameLen.toNat) with
  | none => .error .fault
  | some ok => readEnsure (ok = true) .malformed
  pure (payload.length, s)

/-- `wah_parse_datacount_section` -/
def parseDatacountSection (payload : List (BitVec 8)) (s : ModuleState τ) : Except ReadError (Nat × ModuleState τ) := do
  let s ← s.require .bulkMemory
  let (count, ptr) ← lebValue (decodeUleb128 payload 0)
  pure (ptr, { s with dataSegmentCount := count.toNat, hasDataCountSection := true })

/-- the parsers of the other sections -/
abbrev SectionParsers (τ : Type) :=
  SectionId → List (BitVec 8) → ModuleState τ → Except ReadError (Nat × ModuleState τ)

variable (sections : SectionParsers τ)

/-- `parser_func` in `wah_section_handlers` -/
def parserFunc : SectionParsers τ
  | .custom => parseCustomSection
  | .dataCount => parseDatacountSection
  | id => sections id

/-- one iteration of the loop of `wah_parse_module` after the header of the section; `p` holds `last_parsed_order` -/
def parseSection (byte : BitVec 8) (size : Nat) (bytes : List (BitVec 8)) (p : Nat × ModuleState τ) :
    Except ReadError (Nat × ModuleState τ) :=
  match SectionId.ofByte byte with
  | none => .error .malformed
  | some id => do
    readEnsure (id ≠ .custom → p.1 < id.order) .malformed
    readEnsure (size ≤ bytes.length) .unexpectedEof
    let (consumed, s) ← parserFunc sections id (bytes.take size) p.2
    readEnsure (consumed = size) .malformed
    pure (if id = .custom then p.1 else id.order, s)

/-- the size in a section header, and the bytes it takes -/
def sectionSize (bytes : List (BitVec 8)) : Except ReadError (Nat × Nat) :=
  (lebValue (decodeUleb128 bytes 0)).map fun r => (r.1.toNat, r.2)

/-- asks for a feature that is used -/
def ModuleState.requireIf (s : ModuleState τ) (used : Bool) (f : ModuleFeature) : Except ReadError (ModuleState τ) :=
  if used then s.require f else .ok s

/-- `wah_parse_module` after the sections; the allocation of the table of functions succeeds here -/
def finishModule (s : ModuleState τ) : Except ReadError (ModuleState τ) := do
  readEnsure (s.wasmFunctionCount = s.codeCount) .malformed
  readEnsure (0 < s.minDataSegmentCountRequired → s.hasDataCountSection = true) .malformed
  readEnsure (s.minDataSegmentCountRequired ≤ s.dataSegmentCount) .validationFailed
  readEnsure (s.hasDataCountSection = true ∧ 0 < s.dataSegmentCount → s.dataSegments = true) .malformed
  let s ← s.requireIf (s.resultCounts.any fun n => 1 < n) .multiValue
  let s ← s.requireIf (s.globalImports.any fun m => m) .mutableGlobals
  let s ← s.requireIf (1 < s.tableIndexLimit) .refTypes
  pure { s with
    functions := (List.range s.wasmFunctionCount).map fun i => (i, s.importFunctionCount + i)
    localFunctionCount := s.wasmFunctionCount }

/-- `wah_read_u32_le`: shifts and disjoint bits, as a sum -/
def readU32Le (bytes : List (BitVec 8)) : Nat := Nat.ofDigits 256 ((bytes.take 4).map BitVec.toNat)

/-- `wah_parse_module`, from the module that it has initialized -/
def parseModule (start : ModuleState τ) (binary : List (BitVec 8)) : Except ModuleError (ModuleState τ) :=
  if binary.length < 8 then .error (.read .unexpectedEof)
  else if readU32Le binary ≠ 0x6D736100 then .error .invalidMagicNumber
  else if readU32Le (binary.drop 4) ≠ 0x01 then .error .invalidVersion
  else (run sectionSize (parseSection sections) (binary.drop 8) (0, start) >>= fun p => finishModule p.2).mapError .read

/-! ## Framing -/

/-- the magic number and the version -/
def moduleHeader : List (BitVec 8) := [0x00, 0x61, 0x73, 0x6D, 0x01, 0x00, 0x00, 0x00]

/-- the bytes of a section, with its size in front of its payload -/
def FramedSection (c : Chunk (BitVec 8)) : Prop := Enc unsignedLast 32 c.len c.body.length

/-- the places of sections in the order of the specification; custom sections have none -/
def sectionOrders (cs : List (Chunk (BitVec 8))) : List Nat :=
  ((cs.filterMap fun c => SectionId.ofByte c.tag).filter (· ≠ .custom)).map SectionId.order

/-- in order, and none twice -/
def InOrder (cs : List (Chunk (BitVec 8))) : Prop := (sectionOrders cs).Pairwise (· < ·)

/-- known sections, each consumed by its parser to the last byte -/
inductive SectionsRead : List (Chunk (BitVec 8)) → ModuleState τ → ModuleState τ → Prop where
  | nil {s : ModuleState τ} : SectionsRead [] s s
  | cons {c : Chunk (BitVec 8)} {cs : List (Chunk (BitVec 8))} {id : SectionId} {s s₁ s₂ : ModuleState τ}
      (hid : SectionId.ofByte c.tag = some id) (hparse : parserFunc sections id c.body s = .ok (c.body.length, s₁))
      (hrest : SectionsRead cs s₁ s₂) : SectionsRead (c :: cs) s s₂

variable {sections}

theorem decodeUleb128_decodes (buf : List (BitVec 8)) (ptr : Nat) :
    DecodesEnc unsignedLast 32 (fun v : BitVec 32 => v.toNat) buf ptr (decodeUleb128 buf ptr) :=
  lebFor_decodes uleb128_finishes (by decide) (by decide) 5 (by decide) (by decide) buf ptr

/-- an integer is read where the buffer goes on with one of its encodings -/
theorem decode_ok_iff {w N : Nat} {buf : List (BitVec 8)} {ptr : Nat} {d : Decoded (BitVec w)}
    (h : DecodesEnc unsignedLast N (fun v : BitVec w => (v.toNat : Int)) buf ptr d) {n ptr' : Nat} :
    ((lebValue d).map fun r => (r.1.toNat, r.2)) = .ok (n, ptr') ↔
      ∃ bs, bs <+: buf.drop ptr ∧ Enc unsignedLast N bs n ∧ ptr' = ptr + bs.length := by
  constructor
  · intro hr
    rw [lebValue] at hr
    cases hd : d.result with
    | error e =>
      rw [hd] at hr
      cases hr
    | ok v =>
      rw [hd] at hr
      obtain ⟨rfl, rfl⟩ := Prod.mk.inj (Except.ok.inj hr)
      exact h.sound v hd
  · rintro ⟨bs, hpre, henc, rfl⟩
    obtain ⟨v, hv, hn, hptr⟩ := h.complete bs n hpre henc
    have hn : v.toNat = n := by exact_mod_cast hn
    rw [lebValue, hv, hptr, ← hn]
    rfl

theorem sectionSize_encodes : Encodes sectionSize fun len n => Enc unsignedLast 32 len n where
  sound := by
    intro bs n k h
    obtain ⟨len, hpre, henc, hk⟩ := (decode_ok_iff (decodeUleb128_decodes bs 0)).1 h
    exact ⟨len, hpre, by rw [hk, Nat.zero_add], henc⟩
  complete := by
    intro len n h rest
    refine (decode_ok_iff (decodeUleb128_decodes _ 0)).2 ⟨len, List.prefix_append len rest, h, ?_⟩
    rw [Nat.zero_add]

theorem FramedSection.size_lt {c : Chunk (BitVec 8)} (h : FramedSection c) : c.body.length < 2 ^ 32 := by
  obtain ⟨v, -, hv, -⟩ := (decodeUleb128_decodes c.len 0).complete c.len c.body.length (List.prefix_refl c.len) h
  have hn : v.toNat = c.body.length := by exact_mod_cast hv
  exact hn ▸ v.isLt

theorem parseSection_onBodies :
    OnBodies (parseSection sections) fun byte body p => parseSection sections byte body.length body p where
  whole := by
    intro n bs hn byte p
    have hlen : (bs.take n).length = n := List.length_take_of_le hn
    simp only [parseSection, hlen, List.take_take, Nat.min_self, hn, le_refl]
  cut := by
    intro n bs hn byte p p' h
    rw [parseSection] at h
    split at h
    · cases h
    · obtain ⟨-, -, h⟩ := readBind_ok h
      obtain ⟨_, hsize, -⟩ := readBind_ok h
      exact absurd (readEnsure_ok hsize) (Nat.not_le_of_lt hn)

/-- an accepted section -/
theorem parseSection_ok_iff {byte : BitVec 8} {body : List (BitVec 8)} {p p' : Nat × ModuleState τ} :
    parseSection sections byte body.length body p = .ok p' ↔
      ∃ id, SectionId.ofByte byte = some id ∧ (id ≠ .custom → p.1 < id.order) ∧
        parserFunc sections id body p.2 = .ok (body.length, p'.2) ∧ p'.1 = if id = .custom then p.1 else id.order := by
  constructor
  · intro h
    rw [parseSection] at h
    split at h
    · cases h
    · rename_i id hid
      obtain ⟨_, horder, h⟩ := readBind_ok h
      obtain ⟨-, -, h⟩ := readBind_ok h
      obtain ⟨⟨consumed, s⟩, hparse, h⟩ := readBind_ok h
      obtain ⟨_, hconsumed, hlast⟩ := readBind_ok h
      obtain rfl := readEnsure_ok hconsumed
      obtain rfl := Except.ok.inj hlast
      rw [List.take_length] at hparse
      exact ⟨id, hid, readEnsure_ok horder, hparse, rfl⟩
  · rintro ⟨id, hid, horder, hparse, hlast⟩
    obtain ⟨last, s⟩ := p'
    obtain rfl : last = _ := hlast
    rw [parseSection, hid]
    simp only [readEnsure, if_pos horder, le_refl, if_true, List.take_length]
    rw [hparse]
    simp only [bind, Except.bind, if_true]
    rfl

theorem sectionOrders_cons {c : Chunk (BitVec 8)} {id : SectionId} (hid : SectionId.ofByte c.tag = some id)
    (cs : List (Chunk (BitVec 8))) :
    sectionOrders (c :: cs) = if id = .custom then sectionOrders cs else id.order :: sectionOrders cs := by
  by_cases h : id = .custom
  · simp [sectionOrders, hid, h]
  · simp [sectionOrders, hid, h]

/-- the first section is in order, and so are the others after it -/
theorem sectionOrders_chain {c : Chunk (BitVec 8)} {id : SectionId} (hid : SectionId.ofByte c.tag = some id)
    {cs : List (Chunk (BitVec 8))} {last : Nat} :
    (last :: sectionOrders (c :: cs)).IsChain (· < ·) ↔ (id ≠ .custom → last < id.order) ∧
      ((if id = .custom then last else id.order) :: sectionOrders cs).IsChain (· < ·) := by
  rw [sectionOrders_cons hid]
  split_ifs with hcustom
  · exact ⟨fun h => ⟨fun hne => absurd hcustom hne, h⟩, fun h => h.2⟩
  · rw [List.isChain_cons_cons]
    exact ⟨fun h => ⟨fun _ => h.1, h.2⟩, fun h => ⟨h.1 hcustom, h.2⟩⟩

/-- the sections of a module that is accepted: `last` is the order of the last section before them -/
theorem runBodies_iff {cs : List (Chunk (BitVec 8))} {last : Nat} {s s' : ModuleState τ} :
    (∃ last', runBodies (fun byte body p => parseSection sections byte body.length body p) cs (last, s) =
        .ok (last', s')) ↔
      (last :: sectionOrders cs).IsChain (· < ·) ∧ SectionsRead sections cs s s' := by
  induction cs generalizing last s with
  | nil =>
    constructor
    · rintro ⟨last', h⟩
      obtain ⟨-, rfl⟩ := Prod.mk.inj (Except.ok.inj h)
      exact ⟨List.isChain_singleton last, .nil⟩
    · rintro ⟨-, ⟨⟩⟩
      exact ⟨last, rfl⟩
  | cons c cs ih =>
    constructor
    · rintro ⟨last', h⟩
      rw [runBodies, List.foldlM_cons] at h
      obtain ⟨⟨last₁, s₁⟩, hc, hrest⟩ := readBind_ok h
      obtain ⟨id, hid, horder, hparse, hlast⟩ := parseSection_ok_iff.1 hc
      obtain ⟨hchain, hread⟩ := ih.1 ⟨last', hrest⟩
      obtain rfl : last₁ = _ := hlast
      exact ⟨(sectionOrders_chain hid).2 ⟨horder, hchain⟩, .cons hid hparse hread⟩
    · rintro ⟨hchain, ⟨⟩⟩
      rename_i id s₁ hid hparse hread
      obtain ⟨horder, hchain⟩ := (sectionOrders_chain hid).1 hchain
      obtain ⟨last', hruns⟩ := ih.2 ⟨hchain, hread⟩
      refine ⟨last', ?_⟩
      have hc : parseSection sections c.tag c.body.length c.body (last, s) =
          .ok (if id = .custom then last else id.order, s₁) :=
        parseSection_ok_iff.2 ⟨id, hid, horder, hparse, rfl⟩
      rw [runBodies, List.foldlM_cons, hc]
      exact hruns

theorem inOrder_iff (cs : List (Chunk (BitVec 8))) : (0 :: sectionOrders cs).IsChain (· < ·) ↔ InOrder cs := by
  have hpos : ∀ n ∈ sectionOrders cs, 0 < n := by
    intro n hn
    obtain ⟨id, hid, rfl⟩ := List.mem_map.1 hn
    exact SectionId.order_pos (by simpa using (List.mem_filter.1 hid).2)
  rw [List.isChain_iff_pairwise, List.pairwise_cons]
  exact ⟨fun h => h.2, fun h => ⟨hpos, h⟩⟩

/-! ## The header -/

theorem readU32Le_eq (a b c d : BitVec 8) (rest : List (BitVec 8)) :
    readU32Le (a :: b :: c :: d :: rest) = a.toNat + 256 * (b.toNat + 256 * (c.toNat + 256 * d.toNat)) := by
  simp [readU32Le, Nat.ofDigits]

theorem readU32Le_inj {a b c d a' b' c' d' : BitVec 8} {rest rest' : List (BitVec 8)}
    (h : readU32Le (a :: b :: c :: d :: rest) = readU32Le (a' :: b' :: c' :: d' :: rest')) :
    a = a' ∧ b = b' ∧ c = c' ∧ d = d' := by
  rw [readU32Le_eq, readU32Le_eq] at h
  have := a.isLt
  have := a'.isLt
  have := b.isLt
  have := b'.isLt
  have := c.isLt
  have := c'.isLt
  simp only [BitVec.toNat_eq]
  omega

theorem header_iff {binary : List (BitVec 8)} (hlen : 8 ≤ binary.length) :
    readU32Le binary = 0x6D736100 ∧ readU32Le (binary.drop 4) = 0x01 ↔ moduleHeader <+: binary := by
  match binary, hlen with
  | a :: b :: c :: d :: e :: f :: g :: i :: rest, _ =>
    have hmagic : 0x6D736100 = readU32Le moduleHeader := by decide
    have hversion : 0x01 = readU32Le (moduleHeader.drop 4) := by decide
    constructor
    · rintro ⟨h, h'⟩
      rw [hmagic] at h
      rw [hversion] at h'
      obtain ⟨rfl, rfl, rfl, rfl⟩ := readU32Le_inj h
      obtain ⟨rfl, rfl, rfl, rfl⟩ := readU32Le_inj h'
      exact ⟨rest, rfl⟩
    · rintro ⟨rest', h⟩
      simp only [moduleHeader, List.cons_append, List.nil_append, List.cons.injEq] at h
      obtain ⟨rfl, rfl, rfl, rfl, rfl, rfl, rfl, rfl, -⟩ := h
      rw [hmagic, hversion]
      exact ⟨rfl, rfl⟩

theorem parseModule_header (start : ModuleState τ) (tail : List (BitVec 8)) :
    parseModule sections start (moduleHeader ++ tail) =
      (run sectionSize (parseSection sections) tail (0, start) >>= fun p => finishModule p.2).mapError .read := by
  have hlen : 8 ≤ (moduleHeader ++ tail).length := by simp [moduleHeader]
  obtain ⟨hmagic, hversion⟩ := (header_iff hlen).2 (List.prefix_append moduleHeader tail)
  rw [parseModule, if_neg (Nat.not_lt_of_le hlen), if_neg (not_not_intro hmagic), if_neg (not_not_intro hversion)]
  rfl

theorem header_of_parseModule {start s : ModuleState τ} {binary : List (BitVec 8)}
    (h : parseModule sections start binary = .ok s) : moduleHeader <+: binary := by
  rw [parseModule] at h
  split_ifs at h with hlen hmagic hversion
  exact (header_iff (Nat.le_of_not_lt hlen)).1 ⟨not_not.1 hmagic, not_not.1 hversion⟩

theorem mapError_ok_iff {α ε δ : Type} {x : Except ε α} {f : ε → δ} {a : α} : x.mapError f = .ok a ↔ x = .ok a := by
  cases x with
  | error e => exact ⟨(nomatch ·), (nomatch ·)⟩
  | ok b => exact ⟨fun h => congrArg Except.ok (Except.ok.inj h), fun h => congrArg Except.ok (Except.ok.inj h)⟩

/-- parsing what has been cut into sections -/
theorem parseModule_chunks {cs : List (Chunk (BitVec 8))} (hcs : ∀ c ∈ cs, FramedSection c) (start : ModuleState τ) :
    parseModule sections start (moduleHeader ++ cs.flatMap Chunk.units) =
      (runBodies (fun byte body p => parseSection sections byte body.length body p) cs (0, start) >>= fun p =>
        finishModule p.2).mapError .read := by
  rw [parseModule_header, run_chunks sectionSize_encodes parseSection_onBodies hcs]

/-- what is accepted has been cut into sections -/
theorem parseModule_ok_iff {start s' : ModuleState τ} {binary : List (BitVec 8)} :
    parseModule sections start binary = .ok s' ↔
      ∃ cs, (∀ c ∈ cs, FramedSection c) ∧ binary = moduleHeader ++ cs.flatMap Chunk.units ∧
        ∃ p, runBodies (fun byte body p => parseSection sections byte body.length body p) cs (0, start) = .ok p ∧
          finishModule p.2 = .ok s' := by
  constructor
  · intro h
    obtain ⟨tail, rfl⟩ := header_of_parseModule h
    rw [parseModule_header, mapError_ok_iff] at h
    obtain ⟨p, hrun, hfinish⟩ := readBind_ok h
    obtain ⟨cs, hcs, rfl, hbodies⟩ := (run_ok_iff sectionSize_encodes parseSection_onBodies tail _ _).1 hrun
    exact ⟨cs, hcs, rfl, p, hbodies, hfinish⟩
  · rintro ⟨cs, hcs, rfl, p, hbodies, hfinish⟩
    rw [parseModule_chunks hcs, mapError_ok_iff, hbodies]
    exact hfinish

/-! ## Results -/

/-- **Framing.** A binary is accepted exactly when it is the header and sections that tile the rest, in the order of the
specification and none of them twice, each with its size in front and consumed by its parser to the last byte, and the
final checks pass. There is one way at most to cut it so. -/
theorem module_framing_exact (sections : SectionParsers τ) (start s' : ModuleState τ) (binary : List (BitVec 8)) :
    parseModule sections start binary = .ok s' ↔
      ∃ cs s, (binary = moduleHeader ++ cs.flatMap Chunk.units ∧ ∀ c ∈ cs, FramedSection c) ∧
        (∀ ds, binary = moduleHeader ++ ds.flatMap Chunk.units → (∀ d ∈ ds, FramedSection d) → ds = cs) ∧
        InOrder cs ∧ SectionsRead sections cs start s ∧ finishModule s = .ok s' := by
  constructor
  · intro h
    obtain ⟨cs, hcs, rfl, ⟨last, s⟩, hbodies, hfinish⟩ := parseModule_ok_iff.1 h
    obtain ⟨hchain, hread⟩ := runBodies_iff.1 ⟨last, hbodies⟩
    refine ⟨cs, s, ⟨rfl, hcs⟩, ?_, (inOrder_iff cs).1 hchain, hread, hfinish⟩
    intro ds hbytes hds
    exact (chunks_unique sectionSize_encodes hcs hds (List.append_cancel_left hbytes)).symm
  · rintro ⟨cs, s, ⟨rfl, hcs⟩, -, horder, hread, hfinish⟩
    obtain ⟨last, hbodies⟩ := runBodies_iff.2 ⟨(inOrder_iff cs).2 horder, hread⟩
    exact parseModule_ok_iff.2 ⟨cs, hcs, rfl, (last, s), hbodies, hfinish⟩

/-- what a custom section may hold: a name in UTF-8 with its length in front, and any bytes -/
def IsCustomPayload (payload : List (BitVec 8)) : Prop :=
  ∃ len name extra, payload = len ++ (name ++ extra) ∧ Enc unsignedLast 32 len name.length ∧
    isValidUtf8 name = some true

theorem parseCustomSection_ok {payload : List (BitVec 8)} (h : IsCustomPayload payload) (s : ModuleState τ) :
    parseCustomSection payload s = .ok (payload.length, s) := by
  obtain ⟨len, name, extra, rfl, henc, hutf8⟩ := h
  obtain ⟨v, hr, hv, hptr⟩ := (decodeUleb128_decodes (len ++ (name ++ extra)) 0).complete len _
    (List.prefix_append _ _) henc
  have hn : v.toNat = name.length := by exact_mod_cast hv
  have hroom : v.toNat ≤ (len ++ (name ++ extra)).length - len.length := by
    simp only [List.length_append]
    omega
  rw [Nat.zero_add] at hptr
  rw [parseCustomSection, lebValue, hr, hptr]
  simp only [bind, Except.bind, readEnsure, if_pos hroom, List.drop_left]
  rw [hn, List.take_left, hutf8]
  rfl

/-- a custom section is read and forgotten -/
theorem parseSection_custom {c : Chunk (BitVec 8)} (hid : c.tag = 0) (hpayload : IsCustomPayload c.body)
    (p : Nat × ModuleState τ) : parseSection sections c.tag c.body.length c.body p = .ok p := by
  refine parseSection_ok_iff.2 ⟨.custom, by rw [hid]; rfl, fun h => absurd rfl h, ?_, rfl⟩
  exact parseCustomSection_ok hpayload p.2

/-- **Custom sections.** Wherever one is inserted between sections, whatever follows, the outcome stays the same, be it a
module or an error. -/
theorem custom_sections_ignored (sections : SectionParsers τ) (start : ModuleState τ) {cs : List (Chunk (BitVec 8))}
    (hcs : ∀ d ∈ cs, FramedSection d) {c : Chunk (BitVec 8)} (hc : FramedSection c) (hid : c.tag = 0)
    (hpayload : IsCustomPayload c.body) (tail : List (BitVec 8)) :
    parseModule sections start (moduleHeader ++ (cs.flatMap Chunk.units ++ (c.units ++ tail))) =
      parseModule sections start (moduleHeader ++ (cs.flatMap Chunk.units ++ tail)) := by
  have hskip : run sectionSize (parseSection sections) (c.units ++ tail) = run sectionSize (parseSection sections) tail := by
    funext p
    rw [run_units sectionSize_encodes parseSection_onBodies hc, parseSection_custom hid hpayload]
    rfl
  rw [parseModule_header, parseModule_header, run_append sectionSize_encodes parseSection_onBodies hcs,
    run_append sectionSize_encodes parseSection_onBodies hcs, hskip]

/-- a module with all features, and parsers that keep nothing -/
def plainModule : ModuleState Unit := { enabled := fun _ => true, rest := () }

def plainParsers : SectionParsers Unit := fun _ payload s => .ok (payload.length, s)

theorem custom_sections_ignored_named :
    parseModule plainParsers plainModule (moduleHeader ++ ([⟨12, [1], [0]⟩].flatMap Chunk.units ++
        (Chunk.units ⟨0, [3], [1, 0x61, 0x62]⟩ ++ [10, 1, 0]))) =
      parseModule plainParsers plainModule (moduleHeader ++ ([⟨12, [1], [0]⟩].flatMap Chunk.units ++ [10, 1, 0])) := by
  refine custom_sections_ignored plainParsers plainModule ?_ ?_ rfl ?_ [10, 1, 0]
  · intro d hd
    rw [List.mem_singleton.1 hd]
    exact .final (by decide) (by decide)
  · exact .final (by decide) (by decide)
  · exact ⟨[1], [0x61], [0x62], rfl, .final (by decide) (by decide), by decide⟩

end Parsing

end Wah
