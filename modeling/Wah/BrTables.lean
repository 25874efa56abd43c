/-
Branch tables: targets are grouped by label into records, through stamps shared by all tables of a module.

Model:
- `wah_br_table_labels_t` is a map from labels to records that is emptied by its serial (`BrTableLabels`), and a table is
  one array of words: labels of records, drops of records, then records of targets, two in a word (`BrTable`). The array
  comes from `malloc`, so its first contents are arbitrary;
- `validateBrTableOn` is the validator of one table: targets are read one at a time, and reading may fail midway;
- `BrTable.lower` are the bytes lowering emits after the opcode, and `runBrTable` is what the interpreter reads.

Result: `br_tables_exact`: after any tables before it, failed ones too, a table is accepted or rejected as one that
looks every label up in the list of those before it, and every operand is led to the label written at its position.
-/
import Wah.Packing
import Wah.Stamped
import Wah.StackMoves
import Wah.Trace
import Wah.Exec

namespace Wah

/-! ## Tables -/

/-- `wah_br_table_labels_t`: the record of each label in the current table -/
abbrev BrTableLabels := Stamped UInt16

/-- entries of `stamps` and `records` -/
def labelCount : Nat := maxControlDepth + 1

/-- `wah_br_table_imm_t` -/
structure BrTable where
  targetCount : Nat
  recordCount : Nat := 0
  recordCap : Nat
  keep : Nat := 0
  /-- label of each record, drop of each record, then packed records of the targets and the default -/
  rest : List UInt32
deriving DecidableEq, Repr

namespace BrTable

/-- `wah_br_table_imm_size`, in words of `rest` -/
def restSize (targetCount recordCap : Nat) : Nat := recordCap * 2 + (targetCount + 2) / 2

/-- `wah_br_table_symbols` -/
def symbol (bt : BrTable) (r : Nat) : Nat := (bt.rest.getD r 0).toNat

/-- `wah_br_table_drops` -/
def drop (bt : BrTable) (r : Nat) : Nat := (bt.rest.getD (bt.recordCap + r) 0).toNat

/-- `wah_br_table_target` -/
def target (bt : BrTable) (i : Nat) : Nat := (half bt.rest (bt.recordCap * 2) i).toNat

def setSymbol (bt : BrTable) (r l : Nat) : BrTable := { bt with rest := bt.rest.set r (UInt32.ofNat l) }

def setDrop (bt : BrTable) (r d : Nat) : BrTable :=
  { bt with rest := bt.rest.set (bt.recordCap + r) (UInt32.ofNat d) }

/-- `wah_br_table_set_target` -/
def setTarget (bt : BrTable) (i : Nat) (record : UInt16) : BrTable :=
  { bt with rest := setHalf bt.rest (bt.recordCap * 2) i record.toUInt32 }

/-- labels of the first `n` records -/
def symbols (bt : BrTable) (n : Nat) : List Nat := (List.range n).map bt.symbol

end BrTable

/-! ## Validation -/

/-- the labels, the table under construction, and `record_count` -/
structure BrTableScan where
  labels : BrTableLabels
  bt : BrTable
  recordCount : Nat := 0
deriving DecidableEq, Repr

/-- a label gets a record when it is seen first -/
def BrTableScan.record (s : BrTableScan) (label : Nat) : BrTableScan :=
  if s.labels.Has label then s
  else
    { labels := s.labels.insert label (UInt16.ofNat s.recordCount), bt := s.bt.setSymbol s.recordCount label,
      recordCount := s.recordCount + 1 }

/-- target `i` gets the record of its label -/
def BrTableScan.setTarget (s : BrTableScan) (i label : Nat) : BrTableScan :=
  { s with bt := s.bt.setTarget i (s.labels.values.getD label 0) }

/-- the targets in order, each of which may fail to decode -/
def scanTargets (depth : Nat) : BrTableScan → Nat → List (Except WahError Nat) → BrTableScan × Except WahError Unit
  | s, _, [] => (s, .ok ())
  | s, _, .error e :: _ => (s, .error e)
  | s, i, .ok label :: rest =>
    if label ≤ depth then scanTargets depth ((s.record label).setTarget i label) (i + 1) rest else (s, .error .validationFailed)

section
variable (M : Module) (ft : FuncType) (v : VCtx)

/-- every label takes as many values as the default -/
def checkCounts (n : Nat) : List Nat → Except WahError Unit
  | [] => .ok ()
  | l :: ls => do
    let (ts, _) ← look (v.brTarget ft l)
    ensure (ts.length = n)
    checkCounts n ls

/-- operands dropped by a branch to a label at height `h` with `n` values -/
def dropTo (h n : Nat) : Nat := if v.isUnreachable then 0 else v.height - h - n

/-- the drop of every record -/
def fillDrops (n : Nat) : BrTable → Nat → List Nat → Except WahError BrTable
  | bt, _, [] => .ok bt
  | bt, r, l :: ls => do
    let (_, h) ← look (v.brTarget ft l)
    ensure (v.isUnreachable = true ∨ h + n ≤ v.height)
    fillDrops n (bt.setDrop r (dropTo v h n)) (r + 1) ls

/-- the values a label takes -/
def labelTypes (l : Nat) : List Ty := ((v.brTarget ft l).map Prod.fst).getD []

/-- the rest of the case, after the targets -/
def finishBrTable (s : BrTableScan) : Except WahError (VCtx × BrTable) := do
  let v ← v.popMatch M .i32
  let symbols := s.bt.symbols s.recordCount
  let (ts, _) ← look (v.brTarget ft (s.bt.symbol (s.bt.target s.bt.targetCount)))
  checkCounts ft v ts.length symbols
  let bt ← fillDrops ft v ts.length { s.bt with recordCount := s.recordCount } 0 symbols
  let keep := if v.isUnreachable then 0 else ts.length
  let v ← popBrTable M v ts (symbols.map fun l => (labelTypes ft v l, l, 0))
  return (v.markUnreachable, { bt with keep := keep })

/-- `record_cap` -/
def recordCapOf (targets depth : Nat) : Nat := if targets < depth then targets + 1 else depth + 1

/-- the table as allocated -/
def newBrTable (targets depth : Nat) (junk : Nat → UInt32) : BrTable :=
  { targetCount := targets, recordCap := recordCapOf targets depth
    rest := (List.range (BrTable.restSize targets (recordCapOf targets depth))).map junk }

/-- the BR_TABLE case of `wah_validate_opcode`; the labels are handed on also when it fails -/
def validateBrTableOn (labels : BrTableLabels) (decoded : List (Except WahError Nat)) (junk : Nat → UInt32) :
    BrTableLabels × Except WahError (VCtx × BrTable) :=
  let targets := decoded.length - 1
  if uint32Max ≤ targets then (labels, .error .tooLarge)
  else
    let bt := newBrTable targets v.ctrl.length junk
    match scanTargets v.ctrl.length { labels := labels.next, bt := bt } 0 decoded with
    | (s, .error e) => (s.labels, .error e)
    | (s, .ok ()) => (s.labels, finishBrTable M ft v s)

end

/-- one br_table of a module, in a context with room for it -/
structure BrTableUse where
  module : Module
  func : FuncType
  v : VCtx
  fits : v.Fits
  /-- the targets and the default as they decode -/
  decoded : List (Except WahError Nat)
  default : decoded ≠ []
  junk : Nat → UInt32

def BrTableUse.run (u : BrTableUse) (labels : BrTableLabels) : BrTableLabels × Except WahError (VCtx × BrTable) :=
  validateBrTableOn u.module u.func u.v labels u.decoded u.junk

/-- the labels after some tables -/
def labelsAfter (us : List BrTableUse) : BrTableLabels :=
  us.foldl (fun labels u => (u.run labels).1) (Stamped.zero labelCount 0)

/-! ## Lowered tables -/

/-- what `wah_lower_analyzed_code` emits after the opcode, once offsets are patched: `dest` is where a label goes -/
def BrTable.lower (bt : BrTable) (dest : Nat → Nat) : List UInt8 :=
  leBytes 4 bt.targetCount ++ (leBytes 4 bt.keep ++
    ((List.range (bt.targetCount + 1)).flatMap (fun i => leBytes 2 (bt.target i)) ++
      (List.range bt.recordCount).flatMap fun r => leBytes 4 (dest (bt.symbol r)) ++ leBytes 4 (bt.drop r)))

/-- the immediates of a lowered table -/
def brTableBytes (keep : Nat) (targets : List Nat) (records : List (Nat × Nat)) : List UInt8 :=
  leBytes 4 (targets.length - 1) ++ (leBytes 4 keep ++
    (targets.flatMap (leBytes 2) ++ records.flatMap fun r => leBytes 4 r.1 ++ leBytes 4 r.2))

/-- `WAH_RUN(BR_TABLE)`: keep, target and drop -/
def runBrTable (code : List UInt8) (ip : Nat) (index : UInt32) : Nat × Nat × Nat :=
  let numTargets := readLe 4 code ip
  let keep := readLe 4 code (ip + 4)
  let ip := ip + 8
  let targetIdx := if index.toNat < numTargets then index.toNat else numTargets
  let record := readLe 2 code (ip + targetIdx * 2)
  let recordIp := ip + (numTargets + 1) * 2 + record * 8
  (keep, readLe 4 code recordIp, readLe 4 code (recordIp + 4))

/-! ## Records of labels -/

theorem recordLabels_snoc (ps : List Nat) (l : Nat) :
    recordLabels (ps ++ [l]) = if l ∈ recordLabels ps then recordLabels ps else recordLabels ps ++ [l] := by
  unfold recordLabels
  rw [List.foldl_append, List.foldl_cons, List.foldl_nil]

theorem recordLabels_nodup (ps : List Nat) : (recordLabels ps).Nodup := by
  induction ps using List.reverseRecOn with
  | nil => exact .nil
  | append_singleton ps l ih =>
    rw [recordLabels_snoc]
    split_ifs with hl
    · exact ih
    · exact List.nodup_append.mpr ⟨ih, List.nodup_singleton l, fun a ha b hb => by
        rw [List.mem_singleton.mp hb]
        exact fun he => hl (he ▸ ha)⟩

theorem recordLabels_length_le (ps : List Nat) : (recordLabels ps).length ≤ ps.length := by
  induction ps using List.reverseRecOn with
  | nil => exact le_rfl
  | append_singleton ps l ih =>
    rw [recordLabels_snoc, List.length_append, List.length_singleton]
    split_ifs
    · exact ih.trans (Nat.le_succ _)
    · rw [List.length_append, List.length_singleton]
      exact Nat.succ_le_succ ih

/-- distinct labels up to a depth -/
theorem length_le_depth {rl : List Nat} {depth : Nat} (hnd : rl.Nodup) (hle : ∀ l ∈ rl, l ≤ depth) :
    rl.length ≤ depth + 1 := by
  have hsub : rl ⊆ List.range (depth + 1) := fun l hl => List.mem_range.mpr (Nat.lt_succ_of_le (hle l hl))
  calc rl.length ≤ (List.range (depth + 1)).length := (List.subperm_of_subset hnd hsub).length_le
    _ = depth + 1 := List.length_range

theorem toUInt32_ofNat {k : Nat} (hk : k < 2 ^ 16) : (UInt16.ofNat k).toUInt32 = UInt32.ofNat k := by
  rw [← UInt32.toNat_inj, UInt16.toNat_toUInt32, UInt16.toNat_ofNat', UInt32.toNat_ofNat',
    Nat.mod_eq_of_lt hk, Nat.mod_eq_of_lt (by omega)]

/-! ## One target after another -/

/-- records `rl` are made, and targets to the labels `ps` are set -/
structure Grouped (n depth : Nat) (ps rl : List Nat) (s : BrTableScan) : Prop where
  wf : s.labels.WF labelCount
  found : ∀ l < labelCount, s.labels.find? l = if l ∈ rl then some (UInt16.ofNat (rl.idxOf l)) else none
  distinct : rl.Nodup
  small : ∀ l ∈ rl, l ≤ depth
  count : s.recordCount = rl.length
  targetCount : s.bt.targetCount = n
  cap : s.bt.recordCap = recordCapOf n depth
  size : s.bt.rest.length = BrTable.restSize n (recordCapOf n depth)
  room : rl.length ≤ recordCapOf n depth
  symbols : ∀ r l : Nat, rl[r]? = some l → s.bt.rest[r]? = some (UInt32.ofNat l)
  known : ∀ l ∈ ps, l ∈ rl
  halves : Halves s.bt.rest (recordCapOf n depth * 2) (ps.map fun l => UInt32.ofNat (rl.idxOf l))

section
variable {n depth : Nat} {ps rl : List Nat} {s : BrTableScan} {l : Nat}

/-- an empty table, after tables that left the labels well formed -/
theorem grouped_new {labels : BrTableLabels} (h : labels.WF labelCount) (n depth : Nat) (junk : Nat → UInt32) :
    Grouped n depth [] [] { labels := labels.next, bt := newBrTable n depth junk } where
  wf := h.next
  found l _ := Stamped.find?_next h l
  distinct := .nil
  small l hl := absurd hl List.not_mem_nil
  count := rfl
  targetCount := rfl
  cap := rfl
  size := by simp [newBrTable]
  room := Nat.zero_le _
  symbols r l hr := by cases hr
  known l hl := absurd hl List.not_mem_nil
  halves := halves_nil _ _

/-- a label seen before has its record, a new one gets the next -/
theorem Grouped.record (h : Grouped n depth ps rl s) (hl : l ≤ depth) (hdepth : depth ≤ maxControlDepth)
    (hroom : l ∉ rl → rl.length < recordCapOf n depth) :
    Grouped n depth ps (if l ∈ rl then rl else rl ++ [l]) (s.record l) := by
  have hlt : l < labelCount := Nat.lt_succ_of_le (hl.trans hdepth)
  have hhas : s.labels.Has l ↔ l ∈ rl := by
    rw [Stamped.has_iff h.wf, h.found l hlt]
    split_ifs with hmem <;> simp [hmem]
  unfold BrTableScan.record
  by_cases hmem : l ∈ rl
  · rw [if_pos (hhas.mpr hmem), if_pos hmem]
    exact h
  · have hfree := hroom hmem
    have hidx {k : Nat} (hk : k ∈ rl) : (rl ++ [l]).idxOf k = rl.idxOf k := List.idxOf_append_of_mem hk
    have hnew : (rl ++ [l]).idxOf l = rl.length := by rw [List.idxOf_append_of_notMem hmem]; simp
    rw [if_neg (hhas.not.mpr hmem), if_neg hmem]
    refine ⟨h.wf.insert l _, fun k hk => ?_, ?_, fun k hk => ?_, ?_, h.targetCount, h.cap, ?_, ?_, fun r k hr => ?_,
      fun k hk => List.mem_append_left _ (h.known k hk), ?_⟩
    · rw [Stamped.find?_insert h.wf hlt]
      by_cases hkl : l = k
      · subst hkl
        rw [if_pos rfl, if_pos (by simp), hnew, h.count]
      · rw [if_neg hkl, h.found k hk]
        by_cases hkm : k ∈ rl
        · rw [if_pos hkm, if_pos (List.mem_append_left _ hkm), hidx hkm]
        · rw [if_neg hkm, if_neg (by simp [hkm, Ne.symm hkl])]
    · exact List.nodup_append.mpr ⟨h.distinct, List.nodup_singleton l, fun a ha b hb => by
        rw [List.mem_singleton.mp hb]
        exact fun he => hmem (he ▸ ha)⟩
    · rcases List.mem_append.mp hk with hk | hk
      · exact h.small k hk
      · exact (List.mem_singleton.mp hk) ▸ hl
    · simp [h.count]
    · simp only [BrTable.setSymbol, List.length_set]
      exact h.size
    · rw [List.length_append, List.length_singleton]
      exact hfree
    · -- the new symbol does not touch the old ones
      have hsize : rl.length < s.bt.rest.length := by
        rw [h.size, BrTable.restSize]
        omega
      simp only [BrTable.setSymbol, h.count, List.getElem?_set]
      by_cases hrl : rl.length = r
      · subst hrl
        rw [List.getElem?_append_right le_rfl, Nat.sub_self] at hr
        rw [if_pos rfl, if_pos hsize, ← Option.some.inj hr]
      · have hr' : r < rl.length := by
          have := (List.getElem?_eq_some_iff.mp hr).1
          rw [List.length_append, List.length_singleton] at this
          omega
        rw [List.getElem?_append_left hr'] at hr
        rw [if_neg hrl, h.symbols r k hr]
    · have hmap : (ps.map fun k => UInt32.ofNat ((rl ++ [l]).idxOf k)) = ps.map fun k => UInt32.ofNat (rl.idxOf k) :=
        List.map_congr_left fun k hk => by rw [hidx (h.known k hk)]
      rw [hmap]
      refine h.halves.congr fun k => ?_
      simp only [BrTable.setSymbol, h.count]
      rw [List.getElem?_set_ne (by omega)]

/-- a target gets the record of its label, whatever words were there before -/
theorem Grouped.setTarget (h : Grouped n depth ps rl s) (hl : l ∈ rl) (hdepth : depth ≤ maxControlDepth)
    (hn : ps.length ≤ n) : Grouped n depth (ps ++ [l]) rl (s.setTarget ps.length l) := by
  have hlt : l < labelCount := Nat.lt_succ_of_le ((h.small l hl).trans hdepth)
  have hidx : rl.idxOf l < 2 ^ 16 := by
    have hle := length_le_depth h.distinct h.small
    have hlt := List.idxOf_lt_length_iff.mpr hl
    simp only [maxControlDepth] at hdepth
    omega
  have hvalue : (s.labels.values.getD l 0).toUInt32 = UInt32.ofNat (rl.idxOf l) := by
    have hfound := h.found l hlt
    rw [if_pos hl] at hfound
    unfold Stamped.find? at hfound
    split_ifs at hfound
    rw [List.getD_eq_getElem?_getD, hfound, Option.getD_some, toUInt32_ofNat hidx]
  have hsmall : (UInt32.ofNat (rl.idxOf l)).toNat < 2 ^ 16 := by
    rw [UInt32.toNat_ofNat', Nat.mod_eq_of_lt (by omega)]
    exact hidx
  have hlen : (ps.map fun k => UInt32.ofNat (rl.idxOf k)).length = ps.length := List.length_map _
  have hset : (s.setTarget ps.length l).bt.rest =
      setHalf s.bt.rest (recordCapOf n depth * 2) ps.length (UInt32.ofNat (rl.idxOf l)) := by
    simp only [BrTableScan.setTarget, BrTable.setTarget, h.cap, hvalue]
  refine ⟨h.wf, h.found, h.distinct, h.small, h.count, h.targetCount, h.cap, ?_, h.room, fun r k hr => ?_, fun k hk => ?_,
    ?_⟩
  · rw [hset, setHalf, List.length_set]
    exact h.size
  · have hr' := (List.getElem?_eq_some_iff.mp hr).1.trans_le h.room
    rw [hset, setHalf, List.getElem?_set_ne (by omega)]
    exact h.symbols r k hr
  · rcases List.mem_append.mp hk with hk | hk
    · exact h.known k hk
    · exact (List.mem_singleton.mp hk) ▸ hl
  · rw [hset, List.map_append, ← hlen]
    apply h.halves.snoc hsmall
    rw [hlen, h.size, BrTable.restSize]
    omega

/-- one target -/
theorem Grouped.next (h : Grouped n depth ps (recordLabels ps) s) (hl : l ≤ depth) (hdepth : depth ≤ maxControlDepth)
    (hn : ps.length ≤ n) :
    Grouped n depth (ps ++ [l]) (recordLabels (ps ++ [l])) ((s.record l).setTarget ps.length l) := by
  have hroom (hmem : l ∉ recordLabels ps) : (recordLabels ps).length < recordCapOf n depth := by
    have hcount := recordLabels_length_le ps
    have hall : (recordLabels (ps ++ [l])).length ≤ depth + 1 := by
      refine length_le_depth (recordLabels_nodup _) fun k hk => ?_
      rw [recordLabels_snoc, if_neg hmem] at hk
      rcases List.mem_append.mp hk with hk | hk
      · exact h.small k hk
      · exact (List.mem_singleton.mp hk) ▸ hl
    rw [recordLabels_snoc, if_neg hmem, List.length_append, List.length_singleton] at hall
    unfold recordCapOf
    split_ifs <;> omega
  have hrecord := h.record hl hdepth hroom
  rw [← recordLabels_snoc] at hrecord
  exact hrecord.setTarget (mem_recordLabels.mpr (by simp)) hdepth hn

/-- all targets: the labels stay well formed also when one fails to decode -/
theorem scanTargets_spec {decoded : List (Except WahError Nat)} (h : Grouped n depth ps (recordLabels ps) s)
    (hdepth : depth ≤ maxControlDepth) (hlen : ps.length + decoded.length ≤ n + 1) :
    (scanTargets depth s ps.length decoded).1.labels.WF labelCount ∧
      ((scanTargets depth s ps.length decoded).2 = .ok () → ∃ ls, decoded = ls.map .ok ∧
        Grouped n depth (ps ++ ls) (recordLabels (ps ++ ls)) (scanTargets depth s ps.length decoded).1) := by
  induction decoded generalizing ps s with
  | nil => exact ⟨h.wf, fun _ => ⟨[], rfl, (List.append_nil ps).symm ▸ h⟩⟩
  | cons r decoded ih =>
    rw [List.length_cons] at hlen
    cases r with
    | error e => exact ⟨h.wf, fun hok => by cases hok⟩
    | ok l =>
      unfold scanTargets
      split_ifs with hl
      · have hnext := h.next hl hdepth (by omega)
        have hps : (ps ++ [l]).length = ps.length + 1 := by rw [List.length_append, List.length_singleton]
        obtain ⟨hwf, hok⟩ := ih hnext (by omega)
        rw [hps] at hwf hok
        refine ⟨hwf, fun hdone => ?_⟩
        obtain ⟨ls, rfl, hgrouped⟩ := hok hdone
        rw [List.append_assoc] at hgrouped
        exact ⟨l :: ls, rfl, hgrouped⟩
      · exact ⟨h.wf, fun hok => by cases hok⟩

theorem scanTargets_decoded (depth : Nat) (s : BrTableScan) (i : Nat) (ls : List Nat) :
    (scanTargets depth s i (ls.map .ok)).2 = ensure (∀ l ∈ ls, l ≤ depth) := by
  induction ls generalizing s i with
  | nil => simp [scanTargets, ensure]
  | cons l ls ih =>
    rw [List.map_cons, scanTargets]
    by_cases hl : l ≤ depth
    · rw [if_pos hl, ih]
      unfold ensure
      simp [hl]
    · rw [if_neg hl]
      unfold ensure
      simp [hl]

/-! ## The scanned table -/

theorem Grouped.symbol (h : Grouped n depth ps rl s) (hdepth : depth ≤ maxControlDepth) {r l : Nat}
    (hr : rl[r]? = some l) : s.bt.symbol r = l := by
  have hl := (h.small l (List.mem_of_getElem? hr)).trans hdepth
  simp only [maxControlDepth] at hl
  rw [BrTable.symbol, List.getD_eq_getElem?_getD, h.symbols r l hr, Option.getD_some, UInt32.toNat_ofNat',
    Nat.mod_eq_of_lt (by omega)]

theorem Grouped.symbols_eq (h : Grouped n depth ps rl s) (hdepth : depth ≤ maxControlDepth) :
    s.bt.symbols s.recordCount = rl := by
  apply List.ext_getElem?
  intro r
  unfold BrTable.symbols
  rw [List.getElem?_map, h.count]
  by_cases hr : r < rl.length
  · rw [List.getElem?_range hr, Option.map_some, List.getElem?_eq_getElem hr]
    exact congrArg some (h.symbol hdepth (List.getElem?_eq_getElem hr))
  · rw [List.getElem?_eq_none (Nat.not_lt.mp hr), List.getElem?_eq_none (by simpa using hr), Option.map_none]

theorem Grouped.idx_lt (h : Grouped n depth ps rl s) (hdepth : depth ≤ maxControlDepth) {l : Nat} (hl : l ∈ rl) :
    rl.idxOf l < 2 ^ 32 := by
  have hle := length_le_depth h.distinct h.small
  have hlt := List.idxOf_lt_length_iff.mpr hl
  simp only [maxControlDepth] at hdepth
  omega

theorem Grouped.target (h : Grouped n depth ps rl s) (hdepth : depth ≤ maxControlDepth) {i l : Nat}
    (hi : ps[i]? = some l) : s.bt.target i = rl.idxOf l := by
  have hlt := (List.getElem?_eq_some_iff.mp hi).1
  have hhalf := h.halves.half (i := i) (by rwa [List.length_map])
  rw [List.getD_eq_getElem?_getD, List.getElem?_map, hi, Option.map_some, Option.getD_some] at hhalf
  rw [BrTable.target, h.cap, hhalf, UInt32.toNat_ofNat', Nat.mod_eq_of_lt]
  exact h.idx_lt hdepth (h.known l (List.mem_of_getElem? hi))

end

/-! ## Drops -/

section
variable {M : Module} {ft : FuncType} {v : VCtx} {n : Nat} {ls : List Nat} {recs : List (List Ty × Nat × Nat)}

/-- the table with other words -/
def BrTable.withRest (bt : BrTable) (rest : List UInt32) : BrTable := { bt with rest := rest }

/-- drops are written after the labels, and nothing else is -/
theorem fillDrops_ok (h : brTableRecords v ft n ls = .ok recs) (bt : BrTable) (r : Nat)
    (hroom : bt.recordCap + r + ls.length ≤ bt.rest.length) :
    ∃ rest, fillDrops ft v n bt r ls = .ok (bt.withRest rest) ∧ rest.length = bt.rest.length ∧
      (∀ j : Nat, j < bt.recordCap + r ∨ bt.recordCap + r + ls.length ≤ j → rest[j]? = bt.rest[j]?) ∧
      ∀ (k : Nat) rec, recs[k]? = some rec → rest[bt.recordCap + r + k]? = some (UInt32.ofNat rec.2.2) := by
  induction ls generalizing bt r recs with
  | nil =>
    obtain rfl := Except.ok.inj h
    exact ⟨bt.rest, rfl, rfl, fun _ _ => rfl, fun k rec hk => by cases hk⟩
  | cons l ls ih =>
    simp only [brTableRecords, brTableRecord, bind_eq_ok, pure_eq_ok, look_eq_ok, ensure_eq_ok] at h
    obtain ⟨-, ⟨⟨ts, height⟩, htarget, -, -, -, hbelow, rfl⟩, recs, hrecs, rfl⟩ := h
    rw [List.length_cons] at hroom
    obtain ⟨rest, hfill, hlen, hframe, hdrops⟩ := ih hrecs (bt.setDrop r (dropTo v height n)) (r + 1) (by
      simp only [BrTable.setDrop, List.length_set]
      omega)
    simp only [BrTable.setDrop, List.length_set] at hlen hframe hdrops
    refine ⟨rest, ?_, hlen, fun j hj => ?_, fun k rec hk => ?_⟩
    · simp only [fillDrops, htarget, look, ok_bind]
      rw [(ensure_eq_ok (u := ())).mpr hbelow]
      exact hfill
    · rw [List.length_cons] at hj
      rw [hframe j (by omega), List.getElem?_set_ne (by omega)]
    · cases k with
      | zero =>
        rw [hframe _ (by omega), Nat.add_zero, List.getElem?_set_self (by omega), ← Option.some.inj hk]
        rfl
      | succ k =>
        have hnext := hdrops k rec hk
        rwa [show bt.recordCap + (r + 1) + k = bt.recordCap + r + (k + 1) by omega] at hnext

theorem checkCounts_ok (h : brTableRecords v ft n ls = .ok recs) :
    checkCounts ft v n ls = .ok () ∧ recs.map Prod.fst = ls.map (labelTypes ft v) := by
  induction ls generalizing recs with
  | nil =>
    obtain rfl := Except.ok.inj h
    exact ⟨rfl, rfl⟩
  | cons l ls ih =>
    simp only [brTableRecords, brTableRecord, bind_eq_ok, pure_eq_ok, look_eq_ok, ensure_eq_ok] at h
    obtain ⟨-, ⟨⟨ts, height⟩, htarget, -, hcount, -, -, rfl⟩, recs, hrecs, rfl⟩ := h
    obtain ⟨hrest, htypes⟩ := ih hrecs
    refine ⟨?_, ?_⟩
    · simp only [checkCounts, htarget, look, ok_bind]
      rw [(ensure_eq_ok (u := ())).mpr hcount]
      exact hrest
    · rw [List.map_cons, List.map_cons, htypes, labelTypes, htarget]
      rfl

/-- the loops over records fail in one way -/
theorem brTableRecords_error {e : WahError} (h : brTableRecords v ft n ls = .error e) : e = .validationFailed := by
  induction ls with
  | nil => cases h
  | cons l ls ih =>
    simp only [brTableRecords, brTableRecord, bind_eq_error, bind_eq_ok] at h
    rcases h with (hlook | ⟨_, _, hcount | ⟨_, _, hbelow | ⟨_, _, hpure⟩⟩⟩) | ⟨_, _, hrest | ⟨_, _, hpure⟩⟩
    · exact look_error hlook
    · exact ensure_error hcount
    · exact ensure_error hbelow
    · cases hpure
    · exact ih hrest
    · cases hpure

theorem checkCounts_error {e : WahError} (h : checkCounts ft v n ls = .error e) : e = .validationFailed := by
  induction ls with
  | nil => cases h
  | cons l ls ih =>
    simp only [checkCounts, bind_eq_error] at h
    rcases h with hlook | ⟨_, _, hcount | ⟨_, _, hrest⟩⟩
    · exact look_error hlook
    · exact ensure_error hcount
    · exact ih hrest

theorem fillDrops_error {e : WahError} {bt : BrTable} {r : Nat} (h : fillDrops ft v n bt r ls = .error e) :
    e = .validationFailed := by
  induction ls generalizing bt r with
  | nil => cases h
  | cons l ls ih =>
    simp only [fillDrops, bind_eq_error] at h
    rcases h with hlook | ⟨_, _, hbelow | ⟨_, _, hrest⟩⟩
    · exact look_error hlook
    · exact ensure_error hbelow
    · exact ih hrest

theorem brTableRecords_of_loops {bt bt' : BrTable} {r : Nat} (hcounts : checkCounts ft v n ls = .ok ())
    (hdrops : fillDrops ft v n bt r ls = .ok bt') : ∃ recs, brTableRecords v ft n ls = .ok recs := by
  induction ls generalizing bt r with
  | nil => exact ⟨[], rfl⟩
  | cons l ls ih =>
    simp only [checkCounts, bind_eq_ok, look_eq_ok, ensure_eq_ok] at hcounts
    simp only [fillDrops, bind_eq_ok, look_eq_ok, ensure_eq_ok] at hdrops
    obtain ⟨⟨ts, height⟩, htarget, -, hcount, hcounts⟩ := hcounts
    obtain ⟨t, htarget', -, hbelow, hdrops⟩ := hdrops
    obtain rfl : (ts, height) = t := Option.some.inj (htarget.symm.trans htarget')
    obtain ⟨recs, hrecs⟩ := ih hcounts hdrops
    refine ⟨(ts, l, dropTo v height n) :: recs, ?_⟩
    simp only [brTableRecords, brTableRecord, bind_eq_ok, pure_eq_ok, look_eq_ok, ensure_eq_ok]
    exact ⟨_, ⟨_, htarget, (), hcount, (), hbelow, rfl⟩, recs, hrecs, rfl⟩

/-- two loops over the records fail when the one over records fails -/
theorem records_error {e : WahError} (h : brTableRecords v ft n ls = .error e) (bt : BrTable) (r : Nat) :
    checkCounts ft v n ls = .error e ∨ checkCounts ft v n ls = .ok () ∧ fillDrops ft v n bt r ls = .error e := by
  rw [brTableRecords_error h]
  cases hcounts : checkCounts ft v n ls with
  | error e' => exact .inl (congrArg _ (checkCounts_error hcounts))
  | ok u =>
    cases hdrops : fillDrops ft v n bt r ls with
    | error e' => exact .inr ⟨rfl, congrArg _ (fillDrops_error hdrops)⟩
    | ok bt' =>
      obtain ⟨recs, hrecs⟩ := brTableRecords_of_loops hcounts hdrops
      rw [h] at hrecs
      cases hrecs

end

/-! ## The validated table -/

/-- a table holds what a list of records and targets says -/
structure BrTable.Encodes (bt : BrTable) (imm : BrTableImm) : Prop where
  keep : bt.keep = imm.keep
  targetCount : imm.targets.length = bt.targetCount + 1
  targets : ∀ i : Nat, i ≤ bt.targetCount → imm.targets[i]? = some (bt.target i)
  recordCount : imm.records.length = bt.recordCount
  records : ∀ r : Nat, r < bt.recordCount → imm.records[r]? = some (bt.symbol r, bt.drop r)
  cap : bt.recordCount ≤ bt.recordCap
  distinct : (bt.symbols bt.recordCount).Nodup

/-- the same outcome, with the table encoded -/
inductive TableOutcome : Except WahError (VCtx × BrTable) → Except WahError (VCtx × BrTableImm) → Prop where
  | error (e : WahError) : TableOutcome (.error e) (.error e)
  | ok (v : VCtx) {bt : BrTable} {imm : BrTableImm} (h : bt.Encodes imm) : TableOutcome (.ok (v, bt)) (.ok (v, imm))

/-- `validateBrTable` after the labels are checked -/
def restBrTable (M : Module) (ft : FuncType) (v : VCtx) (ls : List Nat) (default : Nat) :
    Except WahError (VCtx × BrTableImm) := do
  let labels := ls ++ [default]
  let records := recordLabels labels
  let v ← v.popMatch M .i32
  let (ts, _) ← look (v.brTarget ft default)
  let recs ← brTableRecords v ft ts.length records
  let keep := if v.isUnreachable then 0 else ts.length
  let v ← popBrTable M v ts recs
  return (v.markUnreachable,
    { keep := keep, records := recs.map Prod.snd, targets := labels.map fun l => records.idxOf l })

theorem validateBrTable_eq (M : Module) (ft : FuncType) (v : VCtx) (ls : List Nat) (d : Nat) :
    validateBrTable M ft v ls d =
      (ensure (∀ l ∈ ls ++ [d], l ≤ v.ctrl.length) >>= fun _ => restBrTable M ft v ls d) := rfl

section
variable {M : Module} {ft : FuncType} {v : VCtx} {ls : List Nat} {d : Nat} {s : BrTableScan}

theorem popBrTable_congr {ts : List Ty} {recs recs' : List (List Ty × Nat × Nat)}
    (h : recs.map Prod.fst = recs'.map Prod.fst) : popBrTable M v ts recs = popBrTable M v ts recs' := by
  have hall (as : List Ty) : (∀ r ∈ recs, typesMatch M as r.1) ↔ ∀ r ∈ recs', typesMatch M as r.1 := by
    have hfst (rs : List (List Ty × Nat × Nat)) :
        (∀ r ∈ rs, typesMatch M as r.1) ↔ ∀ t ∈ rs.map Prod.fst, typesMatch M as t := by
      simp
    rw [hfst, hfst, h]
  unfold popBrTable
  simp only [hall]

theorem brTableRecords_drop_le {n : Nat} {recs : List (List Ty × Nat × Nat)} (h : brTableRecords v ft n ls = .ok recs) :
    ∀ rec ∈ recs, rec.2.2 ≤ v.height := by
  induction ls generalizing recs with
  | nil =>
    obtain rfl := Except.ok.inj h
    exact fun rec hrec => absurd hrec List.not_mem_nil
  | cons l ls ih =>
    simp only [brTableRecords, brTableRecord, bind_eq_ok, pure_eq_ok] at h
    obtain ⟨-, ⟨⟨ts, height⟩, -, -, -, -, -, rfl⟩, recs, hrecs, rfl⟩ := h
    intro rec hrec
    rcases List.mem_cons.mp hrec with rfl | hrec
    · dsimp only
      split_ifs <;> omega
    · exact ih hrecs rec hrec

/-- a scanned table with other words outside of labels and targets -/
theorem Grouped.withRest {n depth : Nat} {ps rl : List Nat} {rest : List UInt32} (h : Grouped n depth ps rl s)
    (hlen : rest.length = s.bt.rest.length)
    (hframe : ∀ j : Nat, j < s.bt.recordCap ∨ s.bt.recordCap + rl.length ≤ j → rest[j]? = s.bt.rest[j]?) :
    Grouped n depth ps rl { s with bt := s.bt.withRest rest } := by
  rw [h.cap] at hframe
  have hroom := h.room
  refine { h with size := hlen.trans h.size, symbols := fun r l hr => ?_, halves := h.halves.congr fun k => ?_ }
  · have hr' := (List.getElem?_eq_some_iff.mp hr).1.trans_le hroom
    exact (hframe r (.inl hr')).trans (h.symbols r l hr)
  · exact hframe _ (.inr (by omega))

/-- the words of a scanned table with its drops filled in -/
theorem Grouped.encodes {w : VCtx} {n : Nat} {recs : List (List Ty × Nat × Nat)} {rest : List UInt32} {keep : Nat}
    (h : Grouped ls.length v.ctrl.length (ls ++ [d]) (recordLabels (ls ++ [d])) s)
    (hdepth : v.ctrl.length ≤ maxControlDepth) (hw : w.height ≤ maxTypeStackSize)
    (hrecs : brTableRecords w ft n (recordLabels (ls ++ [d])) = .ok recs)
    (hlen : rest.length = s.bt.rest.length)
    (hframe : ∀ j : Nat, j < s.bt.recordCap ∨ s.bt.recordCap + (recordLabels (ls ++ [d])).length ≤ j →
      rest[j]? = s.bt.rest[j]?)
    (hdrops : ∀ (k : Nat) rec, recs[k]? = some rec → rest[s.bt.recordCap + k]? = some (UInt32.ofNat rec.2.2)) :
    ({ s.bt.withRest rest with recordCount := s.recordCount, keep := keep } : BrTable).Encodes
      { keep := keep, records := recs.map Prod.snd
        targets := (ls ++ [d]).map fun l => (recordLabels (ls ++ [d])).idxOf l } := by
  have hfilled := h.withRest hlen hframe
  have hlabels : recs.map (fun r => r.2.1) = recordLabels (ls ++ [d]) := (brTableRecords_spec hrecs).1
  have hcount : recs.length = s.recordCount := by rw [h.count, ← hlabels, List.length_map]
  refine ⟨rfl, ?_, fun i hi => ?_, (List.length_map _).trans hcount, fun r hr => ?_, ?_, ?_⟩
  · show ((ls ++ [d]).map _).length = s.bt.targetCount + 1
    rw [List.length_map, List.length_append, h.targetCount]
    rfl
  · have hlt : i < (ls ++ [d]).length := by
      rw [List.length_append, List.length_singleton, ← h.targetCount]
      exact Nat.lt_succ_of_le hi
    have htarget := hfilled.target hdepth (List.getElem?_eq_getElem hlt)
    rw [List.getElem?_map, List.getElem?_eq_getElem hlt, Option.map_some]
    exact congrArg some htarget.symm
  · have hr' : r < recs.length := hcount.symm ▸ hr
    have hrec := List.getElem?_eq_getElem hr'
    have hsymbol : (s.bt.withRest rest).symbol r = recs[r].2.1 := by
      apply hfilled.symbol hdepth
      rw [← hlabels, List.getElem?_map, hrec, Option.map_some]
    have hle := (brTableRecords_drop_le hrecs _ (List.getElem_mem hr')).trans hw
    have hdrop : (s.bt.withRest rest).drop r = recs[r].2.2 := by
      simp only [maxTypeStackSize] at hle
      show (rest.getD (s.bt.recordCap + r) 0).toNat = _
      rw [List.getD_eq_getElem?_getD, hdrops r _ hrec, Option.getD_some, UInt32.toNat_ofNat',
        Nat.mod_eq_of_lt (by omega)]
    rw [List.getElem?_map, hrec, Option.map_some]
    exact congrArg some (Prod.ext hsymbol.symm hdrop.symm)
  · show s.recordCount ≤ s.bt.recordCap
    rw [h.count, h.cap]
    exact h.room
  · have hsymbols := hfilled.symbols_eq hdepth
    exact hsymbols.symm ▸ h.distinct

/-- the rest of the case is the rest of the table that looks labels up -/
theorem finishBrTable_same (h : Grouped ls.length v.ctrl.length (ls ++ [d]) (recordLabels (ls ++ [d])) s)
    (hv : v.Fits) : TableOutcome (finishBrTable M ft v s) (restBrTable M ft v ls d) := by
  have hsymbols : s.bt.symbols s.recordCount = recordLabels (ls ++ [d]) := h.symbols_eq hv.ctrl
  have hdefault : s.bt.symbol (s.bt.target s.bt.targetCount) = d := by
    have hlast : (ls ++ [d])[ls.length]? = some d := by simp
    have hmem : d ∈ recordLabels (ls ++ [d]) := mem_recordLabels.mpr (by simp)
    rw [h.targetCount, h.target hv.ctrl hlast]
    exact h.symbol hv.ctrl (List.getElem?_idxOf hmem)
  unfold finishBrTable restBrTable
  simp only [hsymbols, hdefault]
  cases hpop : v.popMatch M .i32 with
  | error e => exact .error e
  | ok w =>
    have hmoves := popMatch_moves hpop
    have hw : w.height ≤ maxTypeStackSize := hmoves.room hv.stack
    simp only [ok_bind]
    cases htarget : look (w.brTarget ft d) with
    | error e => exact .error e
    | ok t =>
      obtain ⟨ts, height⟩ := t
      simp only [ok_bind]
      cases hrecs : brTableRecords w ft ts.length (recordLabels (ls ++ [d])) with
      | error e =>
        rcases records_error hrecs { s.bt with recordCount := s.recordCount } 0 with hcounts | ⟨hcounts, hdrops⟩
        · rw [hcounts]
          exact .error e
        · rw [hcounts, ok_bind, hdrops]
          exact .error e
      | ok recs =>
        obtain ⟨hcounts, htypes⟩ := checkCounts_ok hrecs
        have hsize : s.bt.recordCap + 0 + (recordLabels (ls ++ [d])).length ≤ s.bt.rest.length := by
          have hroom := h.room
          rw [h.size, h.cap, BrTable.restSize]
          omega
        obtain ⟨rest, hfill, hlen, hframe, hdrops⟩ :=
          fillDrops_ok hrecs { s.bt with recordCount := s.recordCount } 0 hsize
        have hpopped : popBrTable M w ts ((recordLabels (ls ++ [d])).map fun l => (labelTypes ft w l, l, 0)) =
            popBrTable M w ts recs := popBrTable_congr (by rw [htypes, List.map_map]; rfl)
        rw [hcounts, ok_bind, hfill, ok_bind, ok_bind, hpopped]
        cases popBrTable M w ts recs with
        | error e => exact .error e
        | ok u => exact .ok _ (h.encodes hv.ctrl hw hrecs hlen hframe hdrops)

/-- one use of the labels: they stay well formed, and a table whose targets decode has the outcome it should have -/
theorem BrTableUse.run_spec {labels : BrTableLabels} (u : BrTableUse) (h : labels.WF labelCount) :
    (u.run labels).1.WF labelCount ∧
      (∀ ls d, u.decoded = (ls ++ [d]).map .ok → ls.length < uint32Max →
        TableOutcome (u.run labels).2 (validateBrTable u.module u.func u.v ls d)) ∧
      ∀ r, (u.run labels).2 = .ok r → ∃ ls d, u.decoded = (ls ++ [d]).map .ok ∧ ls.length < uint32Max := by
  obtain ⟨M, ft, v, hfits, decoded, hne, junk⟩ := u
  have hnew := grouped_new h (decoded.length - 1) v.ctrl.length junk
  have hlen : ([] : List Nat).length + decoded.length ≤ decoded.length - 1 + 1 := by
    have := List.length_pos_iff.mpr hne
    simp only [List.length_nil]
    omega
  obtain ⟨hwf, hok⟩ := scanTargets_spec hnew hfits.ctrl hlen
  simp only [BrTableUse.run, validateBrTableOn]
  by_cases hmax : uint32Max ≤ decoded.length - 1
  · rw [if_pos hmax]
    refine ⟨h, fun ls d hdec hlt => ?_, fun r hr => by cases hr⟩
    rw [hdec, List.length_map, List.length_append, List.length_singleton] at hmax
    omega
  · rw [if_neg hmax]
    have hout := scanTargets_decoded v.ctrl.length
      { labels := labels.next, bt := newBrTable (decoded.length - 1) v.ctrl.length junk } 0
    simp only [List.length_nil, List.nil_append] at hwf hok
    generalize hscan : scanTargets v.ctrl.length _ 0 decoded = r at hwf hok ⊢
    obtain ⟨s, res⟩ := r
    refine ⟨?_, fun ls d hdec hlt => ?_, fun r hr => ?_⟩
    · cases res <;> exact hwf
    · have hres : res = ensure (∀ l ∈ ls ++ [d], l ≤ v.ctrl.length) := by
        rw [← hout (ls ++ [d]), ← hdec, hscan]
      rw [validateBrTable_eq, ← hres]
      cases res with
      | error e => exact .error e
      | ok =>
        obtain ⟨labels', hdec', hgrouped⟩ := hok rfl
        have hsame : labels' = ls ++ [d] := List.map_injective_iff.mpr (fun _ _ => Except.ok.inj) (hdec'.symm.trans hdec)
        rw [hdec, List.length_map, List.length_append, List.length_singleton, Nat.add_sub_cancel, hsame] at hgrouped
        exact finishBrTable_same hgrouped hfits
    · cases res with
      | error e => cases hr
      | ok =>
        obtain ⟨labels', hdec', -⟩ := hok rfl
        have hne' : labels' ≠ [] := fun hnil => hne (by rw [hdec', hnil]; rfl)
        refine ⟨labels'.dropLast, labels'.getLast hne', by rw [List.dropLast_append_getLast, hdec'], ?_⟩
        rw [hdec', List.length_map] at hmax
        rw [List.length_dropLast]
        omega

theorem foldl_run_wf {labels : BrTableLabels} (h : labels.WF labelCount) (us : List BrTableUse) :
    (us.foldl (fun labels u => (u.run labels).1) labels).WF labelCount := by
  induction us generalizing labels with
  | nil => exact h
  | cons u us ih => exact ih (u.run_spec h).1

/-- labels are well formed after any tables, failed ones too -/
theorem labelsAfter_wf (us : List BrTableUse) : (labelsAfter us).WF labelCount :=
  foldl_run_wf (Stamped.wf_zero labelCount 0) us

end

/-! ## Lowered tables are read back -/

/-- label written at a position, the default from the end on -/
def labelAt (ls : List Nat) (d index : Nat) : Nat := (ls[index]?).getD d

section
variable {M : Module} {ft : FuncType} {v v' w : VCtx} {ls : List Nat} {d : Nat} {bt : BrTable} {imm : BrTableImm}

/-- the bytes of a table are those of the instruction it stands for -/
theorem BrTable.Encodes.lower_eq (h : bt.Encodes imm) (dest : Nat → Nat) :
    bt.lower dest = brTableBytes imm.keep imm.targets (imm.records.map fun r => (dest r.1, r.2)) := by
  have htargets : imm.targets = (List.range (bt.targetCount + 1)).map bt.target := by
    apply List.ext_getElem?
    intro i
    rw [List.getElem?_map]
    by_cases hi : i ≤ bt.targetCount
    · rw [h.targets i hi, List.getElem?_range (Nat.lt_succ_of_le hi), Option.map_some]
    · rw [List.getElem?_eq_none (by rw [h.targetCount]; omega), List.getElem?_eq_none (by rw [List.length_range]; omega),
        Option.map_none]
  have hrecords : imm.records = (List.range bt.recordCount).map fun r => (bt.symbol r, bt.drop r) := by
    apply List.ext_getElem?
    intro r
    rw [List.getElem?_map]
    by_cases hr : r < bt.recordCount
    · rw [h.records r hr, List.getElem?_range hr, Option.map_some]
    · rw [List.getElem?_eq_none (by rw [h.recordCount]; omega), List.getElem?_eq_none (by rw [List.length_range]; omega),
        Option.map_none]
  unfold BrTable.lower brTableBytes
  rw [h.targetCount, Nat.add_sub_cancel, ← h.keep, htargets, hrecords]
  simp only [List.flatMap_map, List.map_map, Function.comp_def]

/-- with the opcode, as many bytes as lowering counts -/
theorem brTableBytes_length {keep : Nat} {targets : List Nat} {records : List (Nat × Nat)} :
    (brTableBytes keep targets records).length + 2 = (LInstr.brTable keep targets records).size := by
  have htargets : (targets.flatMap (leBytes 2)).length = 2 * targets.length := length_flatMap_const (leBytes_length 2) _
  have hrecords : (records.flatMap fun r => leBytes 4 r.1 ++ leBytes 4 r.2).length = 8 * records.length :=
    length_flatMap_const (fun r => by rw [List.length_append, leBytes_length, leBytes_length]) _
  simp only [brTableBytes, List.length_append, leBytes_length, htargets, hrecords, LInstr.size]
  omega

/-- fields fit in their bytes -/
structure BrTableFits (keep : Nat) (targets : List Nat) (records : List (Nat × Nat)) : Prop where
  count : 0 < targets.length ∧ targets.length ≤ 256 ^ 4
  keep : keep < 256 ^ 4
  targets : ∀ t ∈ targets, t < 256 ^ 2
  records : ∀ r ∈ records, r.1 < 256 ^ 4 ∧ r.2 < 256 ^ 4

/-- the interpreter reads the record of its operand -/
theorem runBrTable_bytes {keep : Nat} {targets : List Nat} {records : List (Nat × Nat)} {code pre post : List UInt8}
    {index : UInt32} {r : Nat × Nat} (hfits : BrTableFits keep targets records)
    (hcode : code = pre ++ (brTableBytes keep targets records ++ post))
    (hr : brTableRecordAt targets records index.toNat = some r) :
    runBrTable code pre.length index = (keep, r.1, r.2) := by
  obtain ⟨⟨hpos, hcount⟩, hkeep, htargets, hrecords⟩ := hfits
  obtain ⟨record, htarget, hrecord⟩ := Option.bind_eq_some_iff.mp hr
  obtain ⟨hdest, hdrop⟩ := hrecords r (List.mem_of_getElem? hrecord)
  have hpair (r : Nat × Nat) : (leBytes 4 r.1 ++ leBytes 4 r.2).length = 8 := by
    rw [List.length_append, leBytes_length, leBytes_length]
  -- the code, cut at each of the four parts
  have hcount_at : code = pre ++ (leBytes 4 (targets.length - 1) ++ (leBytes 4 keep ++ (targets.flatMap (leBytes 2) ++
      (records.flatMap (fun r => leBytes 4 r.1 ++ leBytes 4 r.2) ++ post)))) := by
    rw [hcode, brTableBytes]
    simp only [List.append_assoc]
  have hkeep_at : code = (pre ++ leBytes 4 (targets.length - 1)) ++ (leBytes 4 keep ++ (targets.flatMap (leBytes 2) ++
      (records.flatMap (fun r => leBytes 4 r.1 ++ leBytes 4 r.2) ++ post))) := by
    rw [hcount_at]
    simp only [List.append_assoc]
  have htargets_at : code = (pre ++ leBytes 4 (targets.length - 1) ++ leBytes 4 keep) ++ (targets.flatMap (leBytes 2) ++
      (records.flatMap (fun r => leBytes 4 r.1 ++ leBytes 4 r.2) ++ post)) := by
    rw [hcount_at]
    simp only [List.append_assoc]
  have hrecords_at : code = (pre ++ leBytes 4 (targets.length - 1) ++ leBytes 4 keep ++ targets.flatMap (leBytes 2)) ++
      (records.flatMap (fun r => leBytes 4 r.1 ++ leBytes 4 r.2) ++ post) := by
    rw [hcount_at]
    simp only [List.append_assoc]
  have hbase : (pre ++ leBytes 4 (targets.length - 1) ++ leBytes 4 keep ++ targets.flatMap (leBytes 2)).length =
      pre.length + 8 + targets.length * 2 := by
    simp only [List.length_append, leBytes_length, length_flatMap_const (leBytes_length 2)]
    omega
  -- every field in turn
  have hnum : readLe 4 code pre.length = targets.length - 1 := by
    rw [readLe_field hcount_at rfl, Nat.mod_eq_of_lt (by omega)]
  have hkept : readLe 4 code (pre.length + 4) = keep := by
    rw [readLe_field hkeep_at (by rw [List.length_append, leBytes_length]), Nat.mod_eq_of_lt hkeep]
  have hidx : (if index.toNat < targets.length - 1 then index.toNat else targets.length - 1) =
      min index.toNat (targets.length - 1) := by
    split_ifs <;> omega
  have hread : readLe 2 code (pre.length + 8 + min index.toNat (targets.length - 1) * 2) = record := by
    have hfield : leBytes 2 record = [] ++ (leBytes 2 record ++ []) := by rw [List.append_nil, List.nil_append]
    have hoff : pre.length + 8 + min index.toNat (targets.length - 1) * 2 =
        (pre ++ leBytes 4 (targets.length - 1) ++ leBytes 4 keep).length +
          2 * min index.toNat (targets.length - 1) + 0 := by
      simp only [List.length_append, leBytes_length]
      omega
    rw [readLe_record (leBytes_length 2) htargets_at htarget hfield rfl hoff,
      Nat.mod_eq_of_lt (htargets record (List.mem_of_getElem? htarget))]
  have hcount' : targets.length - 1 + 1 = targets.length := by omega
  have hto : readLe 4 code (pre.length + 8 + targets.length * 2 + record * 8) = r.1 := by
    have hfield : leBytes 4 r.1 ++ leBytes 4 r.2 = [] ++ (leBytes 4 r.1 ++ leBytes 4 r.2) := rfl
    rw [readLe_record hpair hrecords_at hrecord hfield rfl (by rw [hbase, List.length_nil]; omega),
      Nat.mod_eq_of_lt hdest]
  have hdropped : readLe 4 code (pre.length + 8 + targets.length * 2 + record * 8 + 4) = r.2 := by
    have hfield : leBytes 4 r.1 ++ leBytes 4 r.2 = leBytes 4 r.1 ++ (leBytes 4 r.2 ++ []) := by rw [List.append_nil]
    rw [readLe_record hpair hrecords_at hrecord hfield (leBytes_length 4 r.1).symm (by rw [hbase]; omega),
      Nat.mod_eq_of_lt hdrop]
  unfold runBrTable
  simp only [hnum, hkept, hidx, hread, hcount', hto, hdropped]

/-- a label of a validated table takes as many values as the others, and has a record -/
theorem brTableRecords_mem {n l : Nat} {recs : List (List Ty × Nat × Nat)} (h : brTableRecords w ft n ls = .ok recs)
    (hl : l ∈ ls) : ∃ ts height, w.brTarget ft l = some (ts, height) ∧ ts.length = n ∧
      (w.isUnreachable = true ∨ height + n ≤ w.height) ∧
      recs[ls.idxOf l]? = some (ts, l, dropTo w height n) := by
  induction ls generalizing recs with
  | nil => cases hl
  | cons l' ls ih =>
    simp only [brTableRecords, brTableRecord, bind_eq_ok, pure_eq_ok, look_eq_ok, ensure_eq_ok] at h
    obtain ⟨-, ⟨⟨ts, height⟩, htarget, -, hcount, -, hbelow, rfl⟩, recs, hrecs, rfl⟩ := h
    by_cases heq : l' = l
    · subst heq
      rw [List.idxOf_cons_self]
      exact ⟨ts, height, htarget, hcount, hbelow, rfl⟩
    · have hmem : l ∈ ls := (List.mem_cons.mp hl).resolve_left (Ne.symm heq)
      rw [List.idxOf_cons_ne _ heq]
      exact ih hrecs hmem

/-- values a table keeps -/
def keepOf (v : VCtx) (ts : List Ty) : Nat := if v.isUnreachable then 0 else ts.length

/-- every operand has a record, that of the label it is led to -/
theorem validateBrTable_records (h : validateBrTable M ft v ls d = .ok (v', imm)) :
    imm.targets.length = ls.length + 1 ∧ ∃ w, v.popMatch M .i32 = .ok w ∧ ∀ index : Nat, ∃ ts height,
      w.brTarget ft (labelAt ls d index) = some (ts, height) ∧ imm.keep = keepOf w ts ∧ imm.keep ≤ w.height ∧
      brTableRecordAt imm.targets imm.records index = some (labelAt ls d index, dropTo w height ts.length) := by
  simp only [validateBrTable, bind_eq_ok, look_eq_ok, ensure_eq_ok, pure_eq_ok, Prod.mk.injEq] at h
  obtain ⟨-, -, w, hpop, ⟨ts, height⟩, -, recs, hrecs, u, -, -, rfl⟩ := h
  refine ⟨by simp, w, hpop, fun index => ?_⟩
  have hget : (ls ++ [d])[min index ls.length]? = some (labelAt ls d index) := by
    by_cases hi : index < ls.length
    · rw [Nat.min_eq_left hi.le, List.getElem?_append_left hi, labelAt, List.getElem?_eq_getElem hi]
      rfl
    · rw [Nat.min_eq_right (by omega), List.getElem?_append_right le_rfl, labelAt,
        List.getElem?_eq_none (Nat.not_lt.mp hi), Nat.sub_self]
      rfl
  have hmem : labelAt ls d index ∈ recordLabels (ls ++ [d]) := mem_recordLabels.mpr (List.mem_of_getElem? hget)
  obtain ⟨ts', height', htarget, hcount, hbelow, hrec⟩ := brTableRecords_mem hrecs hmem
  dsimp only at hcount hbelow hrec
  refine ⟨ts', height', htarget, ?_, ?_, ?_⟩
  · simp only [keepOf, hcount]
  · dsimp only
    split_ifs with hdead
    · exact Nat.zero_le _
    · exact (Nat.le_add_left _ _).trans (hbelow.resolve_left hdead)
  · have hlen : ((ls ++ [d]).map fun l => (recordLabels (ls ++ [d])).idxOf l).length - 1 = ls.length := by simp
    simp only [brTableRecordAt, hlen]
    rw [List.getElem?_map, hget, Option.map_some, Option.bind_some, List.getElem?_map, hrec, hcount]
    rfl

/-- a table in a context with room for it fits in its bytes -/
theorem BrTable.Encodes.fits (h : bt.Encodes imm) {dest : Nat → Nat} (hn : bt.targetCount < uint32Max)
    (hkeep : imm.keep ≤ maxTypeStackSize) (hdest : ∀ l, dest l < 256 ^ 4) :
    BrTableFits imm.keep imm.targets (imm.records.map fun r => (dest r.1, r.2)) where
  count := by
    simp only [uint32Max] at hn
    rw [h.targetCount]
    omega
  keep := hkeep.trans_lt (by decide)
  targets t ht := by
    obtain ⟨i, hi⟩ := List.mem_iff_getElem?.mp ht
    have hlt := (List.getElem?_eq_some_iff.mp hi).1
    rw [h.targetCount] at hlt
    rw [h.targets i (Nat.le_of_lt_succ hlt)] at hi
    rw [← Option.some.inj hi, BrTable.target, half, mask_toNat]
    exact Nat.mod_lt _ (by decide)
  records r hr := by
    obtain ⟨rec, hrec, rfl⟩ := List.mem_map.mp hr
    obtain ⟨i, hi⟩ := List.mem_iff_getElem?.mp hrec
    have hlt := (List.getElem?_eq_some_iff.mp hi).1
    rw [h.recordCount] at hlt
    rw [h.records i hlt] at hi
    rw [← Option.some.inj hi]
    exact ⟨hdest _, UInt32.toNat_lt _⟩

/-- every context an analysis reaches has room -/
theorem Steps.fits {C : FuncCtx} {s s' : AState} {is : List Instr} (h : Steps C s is s') (hs : s.v.Fits) :
    s'.v.Fits := by
  induction h with
  | nil => exact hs
  | @cons s s' s'' i is hi hstep hrest ih =>
    refine ih ?_
    simp only [AState.step, bind_eq_ok, pure_eq_ok] at hstep
    obtain ⟨⟨w, d⟩, hw, rfl⟩ := hstep
    obtain ⟨hprepared, -⟩ := prepare_fields C s i
    obtain ⟨hemitted, -⟩ := emit_fields { (s.prepare C i).1 with v := w } (s.prepare C i).2 d
    have hsame {v w : VCtx} (h : Same v w) (hv : v.Fits) : w.Fits :=
      ⟨by rw [VCtx.height, h.stack]; exact hv.stack, by rw [h.ctrl]; exact hv.ctrl⟩
    exact hsame hemitted (validateOpcode_fits hw (hsame hprepared hs))

/-- **Branch tables.** After any tables of the module, failed ones too, a table is accepted or rejected as one that looks
labels up in a list. An accepted one has at most one record per label, no more than there is room for, reads back the
record of every target, and its lowered bytes lead every operand to the label written at its position, the default
from the end on, wherever labels go. -/
theorem br_tables_exact (earlier : List BrTableUse) (u : BrTableUse) :
    (∀ ls d, u.decoded = (ls ++ [d]).map .ok → ls.length < uint32Max →
      (u.run (labelsAfter earlier)).2.map Prod.fst = (validateBrTable u.module u.func u.v ls d).map Prod.fst) ∧
    ∀ v' bt, (u.run (labelsAfter earlier)).2 = .ok (v', bt) →
      ∃ ls d w, u.decoded = (ls ++ [d]).map .ok ∧ u.v.popMatch u.module .i32 = .ok w ∧
        bt.recordCount ≤ bt.recordCap ∧ (bt.symbols bt.recordCount).Nodup ∧
        (∀ i : Nat, i ≤ ls.length → bt.target i < bt.recordCount ∧ bt.symbol (bt.target i) = labelAt ls d i) ∧
        ∀ (dest : Nat → Nat) (code pre post : List UInt8) (index : UInt32), (∀ l, dest l < 256 ^ 4) →
          code = pre ++ (bt.lower dest ++ post) → ∃ ts height,
            w.brTarget u.func (labelAt ls d index.toNat) = some (ts, height) ∧ runBrTable code pre.length index =
              (keepOf w ts, dest (labelAt ls d index.toNat), dropTo w height ts.length) := by
  obtain ⟨-, houtcome, hdecoded⟩ := u.run_spec (labelsAfter_wf earlier)
  refine ⟨fun ls d hdec hlt => ?_, fun v' bt hrun => ?_⟩
  · have hout := houtcome ls d hdec hlt
    generalize (u.run (labelsAfter earlier)).2 = r, validateBrTable u.module u.func u.v ls d = r' at hout
    cases hout with
    | error e => rfl
    | ok v h => rfl
  · obtain ⟨ls, d, hdec, hlt⟩ := hdecoded _ hrun
    have hout := houtcome ls d hdec hlt
    rw [hrun] at hout
    generalize hvalid : validateBrTable u.module u.func u.v ls d = r at hout
    cases hout with
    | @ok _ _ imm henc =>
      obtain ⟨hcount, w, hpop, hrecords⟩ := validateBrTable_records hvalid
      have htargets : bt.targetCount = ls.length := Nat.succ.inj (henc.targetCount.symm.trans hcount)
      refine ⟨ls, d, w, hdec, hpop, henc.cap, henc.distinct, fun i hi => ?_, fun dest code pre post index hdest hcode => ?_⟩
      · obtain ⟨ts, height, -, -, -, hat⟩ := hrecords i
        rw [brTableRecordAt, hcount, Nat.add_sub_cancel, Nat.min_eq_left hi, henc.targets i (htargets.symm ▸ hi),
          Option.bind_some] at hat
        have hr : bt.target i < bt.recordCount := henc.recordCount ▸ (List.getElem?_eq_some_iff.mp hat).1
        rw [henc.records _ hr] at hat
        exact ⟨hr, congrArg Prod.fst (Option.some.inj hat)⟩
      · obtain ⟨ts, height, htarget, hkeep, hle, hat⟩ := hrecords index.toNat
        have hroom : w.height ≤ maxTypeStackSize := (popMatch_moves hpop).room u.fits.stack
        have hrecord : brTableRecordAt imm.targets (imm.records.map fun r => (dest r.1, r.2)) index.toNat =
            some (dest (labelAt ls d index.toNat), dropTo w height ts.length) := by
          obtain ⟨r, htgt, hrec⟩ := Option.bind_eq_some_iff.mp hat
          rw [brTableRecordAt, htgt, Option.bind_some, List.getElem?_map, hrec, Option.map_some]
        rw [henc.lower_eq] at hcode
        refine ⟨ts, height, htarget, ?_⟩
        rw [runBrTable_bytes (henc.fits (htargets.symm ▸ hlt) (hle.trans hroom) hdest) hcode hrecord, hkeep]

end

/-- a table inside one block, and one whose second target does not decode -/
def tableUse (decoded : List (Except WahError Nat)) (h : decoded ≠ []) : BrTableUse :=
  { module := {}, func := ⟨[], []⟩, v := { stack := [.i32], ctrl := [{ opcode := .block, params := [], results := [] }] }
    fits := ⟨by decide, by decide⟩, decoded := decoded, default := h, junk := fun _ => 7 }

theorem br_tables_exact_after_failure : ∃ v' bt,
    ((tableUse [.ok 0, .ok 1, .ok 0] (by decide)).run (labelsAfter [tableUse [.ok 1, .error .malformed] (by decide)])).2 =
      .ok (v', bt) ∧ bt.recordCount ≤ bt.recordCap ∧ (bt.symbols bt.recordCount).Nodup := by
  obtain ⟨hsame, hexact⟩ := br_tables_exact [tableUse [.ok 1, .error .malformed] (by decide)]
    (tableUse [.ok 0, .ok 1, .ok 0] (by decide))
  have haccepted := hsame [0, 1] 0 rfl (by decide)
  generalize (tableUse [.ok 0, .ok 1, .ok 0] (by decide)).run _ = r at hexact haccepted ⊢
  obtain ⟨labels, res⟩ := r
  cases res with
  | error e =>
    clear hexact
    cases haccepted
  | ok a =>
    obtain ⟨ls, d, w, -, -, hcap, hdistinct, -⟩ := hexact a.1 a.2 rfl
    exact ⟨a.1, a.2, rfl, hcap, hdistinct⟩

end Wah
