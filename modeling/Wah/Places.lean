/-
The places of a record in lowered code.

A record of a metered function is in the fast code and in a slow island, and control may be at any instruction of
either copy, or at the jump that leads from an island to it. `Place` lists these offsets, with two numbers: how many
instructions may still come before the record's own, an upper bound that every step lowers; and how many visits have
been paid for in advance, by the METER of the chunk or the TICK of the record.

- `Plan.Closed`: the last record is the function's END, and every branch leads to a record; in metered code to one that
  starts a chunk, so no branch gets around a METER.
- `Place.stands`: what stands at a place, and the place after it; no visit comes before it has been paid for.
- `Place.of_target`: branches lead to places, where nothing has been paid for in metered code.
-/
import Wah.Refine

namespace Wah

/-! ## Where branches lead -/

/-- a plan whose branches lead to its records -/
structure Plan.Closed (p : Plan) : Prop where
  last : ∃ rs r, p.records = rs ++ [r] ∧ r.poll = none ∧ r.main = some .end_
  lands : ∀ rec ∈ p.records, ∀ i ∈ rec.main, ∀ t ∈ i.targets, t ≠ .func →
    ∃ rec', p.records[p.index t]? = some rec' ∧ (p.emitMeter = true → rec'.meter = true)
  mains : ∀ rec ∈ p.records, ∀ i ∈ rec.main, i.IsMain

namespace Plan

variable {p : Plan} {ii : Nat}

/-- the function's END completes the names of a plan without open constructs -/
theorem WF.closed (h : p.WF ii) (hc : p.ctrl = []) (d : DInstr) : (p.planFuncEnd d).Closed := by
  have hrecords : (p.planFuncEnd d).records = p.records ++ [newRecord p none none (some .end_) d.refMap] := by
    simp [planFuncEnd, add_records]
  have hends : (p.planFuncEnd d).ends = p.ends := by simp [planFuncEnd]
  have hmeter : (p.planFuncEnd d).emitMeter = p.emitMeter := by simp [planFuncEnd]
  have hlands : ∀ r, p.Lands r → ∃ rec', (p.planFuncEnd d).records[r]? = some rec' ∧
      ((p.planFuncEnd d).emitMeter = true → rec'.meter = true) := by
    intro r hr
    have hadd := lands_add p none none (some .end_) d.refMap hr
    rcases hadd with ⟨rec', hrec, hm⟩ | ⟨hlast, -⟩
    · exact ⟨rec', by simpa [planFuncEnd] using hrec, by simpa [planFuncEnd] using hm⟩
    · rw [add_size] at hlast
      rcases hr with ⟨rec', hrec, -⟩ | ⟨hsize, -⟩
      · have hlt : r < p.size := (List.getElem?_eq_some_iff.mp hrec).1
        omega
      · omega
  have hlookup : ∀ t r, (t, r) ∈ p.ends → p.ends.lookup t = some r := fun t r ht => lookup_of_mem h.distinct ht
  refine ⟨⟨_, _, hrecords, rfl, rfl⟩, ?_, ?_⟩
  · intro rec hrec i hi t ht hne
    have hknown : p.Known t := by
      rw [hrecords, List.mem_append, List.mem_singleton] at hrec
      rcases hrec with hrec | rfl
      · refine h.known i ?_ t ht
        exact List.mem_flatMap.mpr ⟨rec, hrec, by simp [Record.code, Record.content, Option.mem_def.mp hi]⟩
      · simp only [newRecord, Option.mem_def, Option.some.injEq] at hi
        simp [← hi, LInstr.targets] at ht
    cases t with
    | func => exact absurd rfl hne
    | record r => exact hlands r hknown.2
    | endOf id =>
      rcases hknown with ⟨g, hg, -⟩ | ⟨r, hr, hl⟩
      · simp [hc] at hg
      · simpa [index, hends, hlookup _ _ hr] using hlands r hl
    | falseOf id =>
      rcases hknown with ⟨g, hg, -⟩ | ⟨r, hr, hl⟩
      · simp [hc] at hg
      · simpa [index, hends, hlookup _ _ hr] using hlands r hl
  · intro rec hrec i hi
    rw [hrecords, List.mem_append, List.mem_singleton] at hrec
    rcases hrec with hrec | rfl
    · exact (h.mains rec hrec).2 i hi
    · simp only [newRecord, Option.mem_def, Option.some.injEq] at hi
      simp [← hi, LInstr.IsMain]

theorem WF.closedFrom {marked : List Nat} {ds : List DInstr} (h : p.WF ii) (ha : p.AcceptsFrom marked ii ds) :
    (planFrom marked p ii ds).Closed := by
  induction ds generalizing p ii with
  | nil => exact absurd ha (by simp [AcceptsFrom])
  | cons d ds ih =>
    cases ds with
    | nil =>
      obtain ⟨hop, hc⟩ := ha
      simpa only [planFrom, planInstr, hop, hc] using h.closed hc d
    | cons d' ds => exact ih (planInstr_wf h ha.1) ha.2

end Plan

theorem planOf_closed {m : Bool} {ds : List DInstr}
    (ha : Plan.AcceptsFrom (loopHasTry ds) { emitMeter := m, needNewChunk := m } 0 ds) : (planOf m ds).Closed :=
  (refines_init id m).wf.closedFrom ha

theorem Func.Accepted.closed {m : Bool} {F : Func} (h : F.Accepted m) : (F.plan m).Closed := by
  obtain ⟨A, hA⟩ := h
  have hd : F.decoded m = A.instrs := by simp [Func.decoded, hA]
  rw [Func.plan, hd]
  exact planOf_closed (analyzeStream_acceptsFrom hA)

/-! ## Offsets -/

namespace Plan

variable {p : Plan}

theorem recordOffset_zero (p : Plan) : p.recordOffset 0 = 0 := by simp [recordOffset, layout, codeSize]

theorem recordOffset_succ {r : Nat} {rec : Record} (h : p.records[r]? = some rec) :
    p.recordOffset (r + 1) = p.recordOffset r + codeSize rec.code := by
  obtain ⟨hlt, rfl⟩ := List.getElem?_eq_some_iff.mp h
  rw [recordOffset, recordOffset, List.take_succ_eq_append_getElem hlt, layout_append, codeSize_append, layout_singleton]

/-- names stand for the offsets of their records -/
theorem offset_eq (p : Plan) {t : Target} (h : t ≠ .func) : p.offset p.recordOffset t = p.recordOffset (p.index t) := by
  cases t with
  | func => exact absurd rfl h
  | record r => rfl
  | endOf id | falseOf id =>
    simp only [offset, valuation, index]
    cases p.ends.lookup _ with
    | none => simp [recordOffset_zero]
    | some r => rfl

end Plan

/-! ## Places -/

/-- what the fast code has before the record's own instruction -/
def Record.fastLead (cost slow : Nat) (rec : Record) : List (LInstr Nat) :=
  (rec.pre.map LInstr.poll).toList ++ (if rec.meter then [.meter cost slow] else []) ++ (rec.poll.map LInstr.poll).toList

/-- what a slow island has before it -/
def Record.slowLead (rec : Record) : List (LInstr Nat) := .tick rec.refMap :: (rec.poll.map LInstr.poll).toList

/-- the record's own instruction, with its targets -/
def Record.mainCode (val : Target → Nat) (rec : Record) : List (LInstr Nat) := rec.main.toList.map (LInstr.map val)

theorem Record.content_map (val : Target → Nat) (rec : Record) :
    rec.content.map (LInstr.map val) = (rec.poll.map LInstr.poll).toList ++ rec.mainCode val := by
  unfold Record.content Record.mainCode
  cases rec.poll <;> simp [LInstr.map]

theorem Record.fastCode_eq (val : Target → Nat) (cost slow : Nat) (rec : Record) :
    rec.fastCode val cost slow = rec.fastLead cost slow ++ rec.mainCode val := by
  simp only [Record.fastCode, Record.fastLead, Record.content_map, List.append_assoc]

theorem Record.codeSize_fastCode (val : Target → Nat) (cost slow : Nat) (rec : Record) :
    codeSize (rec.fastCode val cost slow) = codeSize rec.code := by
  rw [Record.fastCode, Record.code, codeSize_append, codeSize_append, codeSize_append, codeSize_map]
  have hpre : codeSize (rec.pre.map (LInstr.poll (τ := Nat))).toList =
      codeSize (rec.pre.map (LInstr.poll (τ := Target))).toList := by
    cases rec.pre <;> rfl
  have hmeter : codeSize (if rec.meter then [(.meter cost slow : LInstr Nat)] else []) =
      codeSize (if rec.meter then [(.meter 0 0 : LInstr Target)] else []) := by
    cases rec.meter <;> rfl
  rw [hpre, hmeter, Record.head, codeSize_append]

/-! ## Visits and their METERs -/

/-- whether fuel is paid -/
def LInstr.pays {τ : Type} : LInstr τ → Bool
  | .meter _ _ | .tick _ => true
  | _ => false

/-- the visits of a record -/
def Record.visits (rec : Record) : Nat := if (rec.main.bind LInstr.visit).isSome then 1 else 0

/-- the visits from a record to the end of its chunk -/
def owed (rs : List Record) (r : Nat) : Nat :=
  ((rs[r]?).map Record.visits).getD 0 + (((rs.drop (r + 1)).takeWhile fun rec => !rec.meter).map Record.visits).sum

/-- visits paid for where `lead` is still to come, if `n` visits are paid for after it -/
def paidFor (lead : List (LInstr Nat)) (n : Nat) : Nat := if lead.any LInstr.pays then 0 else n

theorem Record.visits_le (rec : Record) : rec.visits ≤ 1 := by
  unfold visits
  split <;> omega

section Owed

variable {rs : List Record} {r : Nat} {rec rec' : Record}

theorem visits_le_owed (hr : rs[r]? = some rec) : rec.visits ≤ owed rs r := by
  simp only [owed, hr, Option.map_some, Option.getD_some]
  exact Nat.le_add_right _ _

/-- a METER pays for the visits of its chunk -/
theorem owed_le (rs : List Record) (r : Nat) : owed rs r ≤ chunkCost rs r := by
  have hhead : ((rs[r]?).map Record.visits).getD 0 ≤ 1 := by
    cases rs[r]? with
    | none => exact Nat.zero_le 1
    | some rec => exact rec.visits_le
  have htail : ∀ recs : List Record, (recs.map Record.visits).sum ≤ recs.length := by
    intro recs
    induction recs with
    | nil => exact Nat.le_refl 0
    | cons rec recs ih =>
      have := rec.visits_le
      simp only [List.map_cons, List.sum_cons, List.length_cons]
      omega
  exact Nat.add_le_add hhead (htail _)

theorem owed_succ (hr : rs[r]? = some rec) (hr' : rs[r + 1]? = some rec') (hm : rec'.meter = false) :
    owed rs r = rec.visits + owed rs (r + 1) := by
  obtain ⟨hlt, hget⟩ := List.getElem?_eq_some_iff.mp hr'
  have hdrop : rs.drop (r + 1) = rec' :: rs.drop (r + 1 + 1) := by rw [List.drop_eq_getElem_cons hlt, hget]
  simp only [owed, hr, hr', Option.map_some, Option.getD_some]
  rw [hdrop, List.takeWhile_cons]
  simp [hm]

end Owed

section Place

variable (p : Plan) (code : List (LInstr Nat)) (slow : Nat → Nat)

/-- an offset at which control may be before it executes a record, by the number of instructions that may come before
the record's own one, and by the number of visits that have been paid for -/
inductive Place : Nat → Nat → Nat → Nat → Prop where
  | fast {r : Nat} {rec : Record} {a b : List (LInstr Nat)} (hr : p.records[r]? = some rec)
      (hlead : rec.fastLead (chunkCost p.records r) (slow r) = a ++ b) :
      Place (b.length + 3) (paidFor b (owed p.records r)) r (p.recordOffset r + codeSize a)
  | slow {r : Nat} {rec : Record} {a b : List (LInstr Nat)} (hm : p.emitMeter = true) (hr : p.records[r]? = some rec)
      (hlead : rec.slowLead = a ++ b) : Place b.length (paidFor b rec.visits) r (slow r + codeSize a)
  -- islands are left for METERs only
  | exit {r o : Nat} {rec : Record} (hr : p.records[r]? = some rec) (hm : rec.meter = true)
      (hc : CodeAt code o [.else_ (p.recordOffset r)]) : Place 7 0 r o

/-- what stands at a place -/
inductive Stands (lead paid r o : Nat) : Prop where
  | poll {map l : Nat} (hf : fetch code o = some (.poll map)) (hl : l < lead) (h : Place p code slow l paid r (o + 6))
  | meter {cost l n : Nat} (hf : fetch code o = some (.meter cost (slow r))) (hm : p.emitMeter = true) (hl : l < lead)
      (hn : n ≤ cost) (h : Place p code slow l n r (o + 8)) {l' : Nat} (hl' : l' < lead)
      (h' : Place p code slow l' 0 r (slow r))
  | tick {map l n : Nat} (hf : fetch code o = some (.tick map)) (hl : l < lead) (hn : n ≤ 1)
      (h : Place p code slow l n r (o + 6))
  | exit {l : Nat} (hf : fetch code o = some (.else_ (p.recordOffset r))) (hl : l < lead)
      (h : Place p code slow l 0 r (p.recordOffset r))
  | main {rec : Record} {i : LInstr Target} (hr : p.records[r]? = some rec) (hi : rec.main = some i)
      (hf : fetch code o = some (i.map (p.offset p.recordOffset))) (hn : rec.visits ≤ paid)
      (h : i.noFallthrough = false → ∃ l n, Place p code slow l n (r + 1) (o + i.size) ∧ rec.visits + n ≤ paid)
  | none {rec : Record} (hr : p.records[r]? = some rec) (hi : rec.main = none)
      (h : ∃ l n, Place p code slow l n (r + 1) o ∧ n ≤ paid)

end Place

section Place

variable {p : Plan} {code : List (LInstr Nat)} {slow : Nat → Nat}

/-- nothing is paid for before the METER of a record -/
theorem Record.paidFor_fastLead {rec : Record} (hm : rec.meter = true) (cost slow n : Nat) :
    paidFor (rec.fastLead cost slow) n = 0 := by
  simp [paidFor, fastLead, hm, LInstr.pays]

/-- nothing is paid for before its TICK -/
theorem Record.paidFor_slowLead (rec : Record) (n : Nat) : paidFor rec.slowLead n = 0 := by
  simp [paidFor, slowLead, LInstr.pays]

theorem paidFor_le (lead : List (LInstr Nat)) (n : Nat) : paidFor lead n ≤ n := by
  unfold paidFor
  split <;> omega

variable (code slow) in
/-- the first place of a record -/
theorem Place.start {r : Nat} {rec : Record} (hr : p.records[r]? = some rec) :
    ∃ l n, Place p code slow l n r (p.recordOffset r) ∧ n ≤ owed p.records r ∧ (rec.meter = true → n = 0) :=
  ⟨_, _, .fast (a := []) (b := rec.fastLead (chunkCost p.records r) (slow r)) hr rfl, paidFor_le _ _,
    fun hm => rec.paidFor_fastLead hm _ _ _⟩

/-- control does not run past the last record -/
theorem Plan.Closed.next (h : p.Closed) {r : Nat} {rec : Record} (hr : p.records[r]? = some rec)
    (hm : ∀ i ∈ rec.main, i.noFallthrough = false) : ∃ rec', p.records[r + 1]? = some rec' := by
  obtain ⟨rs, last, hrs, -, hlast⟩ := h.last
  have hlt : r < p.records.length := (List.getElem?_eq_some_iff.mp hr).1
  rw [hrs, List.length_append, List.length_singleton] at hlt
  rcases Nat.lt_or_ge r rs.length with hlt' | hge
  · have hlt'' : r + 1 < p.records.length := by
      rw [hrs, List.length_append, List.length_singleton]
      omega
    exact ⟨p.records[r + 1], List.getElem?_eq_getElem hlt''⟩
  · have hr' : r = rs.length := by omega
    rw [hrs, hr', List.getElem?_concat_length, Option.some.injEq] at hr
    subst hr
    have := hm _ hlast
    simp [LInstr.noFallthrough] at this

/-- what stands before the record's own instruction in its fast copy -/
theorem Record.mem_fastLead {cost slow : Nat} {rec : Record} {i : LInstr Nat} (h : i ∈ rec.fastLead cost slow) :
    (∃ map, i = .poll map) ∨ (rec.meter = true ∧ i = .meter cost slow) := by
  simp only [fastLead, List.mem_append, Option.mem_toList, Option.map_eq_some_iff] at h
  rcases h with (⟨map, -, rfl⟩ | h) | ⟨map, -, rfl⟩
  · exact .inl ⟨map, rfl⟩
  · cases hm : rec.meter with
    | false => simp [hm] at h
    | true =>
      simp only [hm, if_true, List.mem_singleton] at h
      exact .inr ⟨rfl, h⟩
  · exact .inl ⟨map, rfl⟩

theorem Record.length_slowLead_le (rec : Record) : rec.slowLead.length ≤ 2 := by
  unfold slowLead
  cases rec.poll <;> simp

theorem Record.length_fastLead_le (cost slow : Nat) (rec : Record) : (rec.fastLead cost slow).length ≤ 3 := by
  unfold fastLead
  cases rec.pre <;> cases rec.meter <;> cases rec.poll <;> simp

/-- the island of a chunk -/
theorem Place.island (hm : p.emitMeter = true) {r : Nat} {rec : Record} (hr : p.records[r]? = some rec) :
    ∃ l ≤ 2, Place p code slow l 0 r (slow r) := by
  have h : Place p code slow rec.slowLead.length (paidFor rec.slowLead rec.visits) r (slow r) := .slow (a := []) hm hr rfl
  rw [rec.paidFor_slowLead] at h
  exact ⟨_, rec.length_slowLead_le, h⟩

section Stands

variable (hplaced : Placed p code slow) (hclosed : p.Closed)
include hplaced hclosed

variable (code slow) in
omit hplaced in
/-- the place after a record's own instruction, in the fast code -/
theorem Place.after_fast {r : Nat} {rec : Record} (hr : p.records[r]? = some rec)
    (hm : ∀ i ∈ rec.main, i.noFallthrough = false) :
    ∃ l n, Place p code slow l n (r + 1) (p.recordOffset r + codeSize rec.code) ∧
      rec.visits + n ≤ owed p.records r := by
  obtain ⟨rec', hr'⟩ := hclosed.next hr hm
  obtain ⟨l, n, h, hle, hzero⟩ := Place.start code slow hr'
  rw [← p.recordOffset_succ hr]
  refine ⟨l, n, h, ?_⟩
  cases hmeter : rec'.meter with
  | true =>
    rw [hzero hmeter, Nat.add_zero]
    exact visits_le_owed hr
  | false =>
    rw [owed_succ hr hr' hmeter]
    omega

/-- the place after it in a slow island: the next record of the chunk, or the jump out of the island -/
theorem Place.after_slow (he : p.emitMeter = true) {r : Nat} {rec : Record} (hr : p.records[r]? = some rec)
    (hm : ∀ i ∈ rec.main, i.noFallthrough = false) :
    ∃ l, Place p code slow l 0 (r + 1) (slow r + 6 + codeSize rec.content) := by
  obtain ⟨rec', hr'⟩ := hclosed.next hr hm
  by_cases hmeter : rec'.meter = true
  · have hends : EndsChunk p.records r := by
      intro rec'' hr''
      rw [hr', Option.some.injEq] at hr''
      exact hr'' ▸ hmeter
    have hfall : rec.content.head?.any LInstr.noFallthrough = false := by
      unfold Record.content
      cases rec.poll with
      | some map => rfl
      | none =>
        cases hmain : rec.main with
        | none => rfl
        | some i => simpa using hm i hmain
    exact ⟨7, .exit hr' hmeter (hplaced.back he r rec hr hends hfall)⟩
  · have hnext := hplaced.next he r rec rec' hr hr' (by simpa using hmeter)
    rw [← hnext]
    obtain ⟨l, -, h⟩ : ∃ l ≤ 2, Place p code slow l 0 (r + 1) (slow (r + 1)) := Place.island he hr'
    exact ⟨l, h⟩

/-- **What stands at a place.** -/
theorem Place.stands {lead paid r o : Nat} (h : Place p code slow lead paid r o) :
    Stands p code slow lead paid r o := by
  cases h with
  | @fast r rec a b hr hlead =>
    have hcode := hplaced.fast r rec hr
    rw [Record.fastCode_eq, hlead, List.append_assoc] at hcode
    have hhere := hcode.append.2
    cases b with
    | nil =>
      have hsize : codeSize a + codeSize (rec.mainCode (p.offset p.recordOffset)) = codeSize rec.code := by
        rw [← rec.codeSize_fastCode (p.offset p.recordOffset) (chunkCost p.records r) (slow r), Record.fastCode_eq, hlead,
          List.append_nil, codeSize_append]
      rw [List.nil_append] at hhere
      cases hmain : rec.main with
      | none =>
        have hempty : rec.mainCode (p.offset p.recordOffset) = [] := by simp [Record.mainCode, hmain]
        have ha : codeSize a = codeSize rec.code := by simpa [hempty, codeSize] using hsize
        obtain ⟨l, n, hnext, hle⟩ := Place.after_fast code slow hclosed hr (by simp [hmain])
        rw [ha]
        exact .none hr hmain ⟨l, n, hnext, Nat.le_trans (Nat.le_add_left _ _) hle⟩
      | some i =>
        have hone : rec.mainCode (p.offset p.recordOffset) = [i.map (p.offset p.recordOffset)] := by
          simp [Record.mainCode, hmain]
        rw [hone] at hhere hsize
        refine .main hr hmain hhere.fetch (visits_le_owed hr) fun hi => ?_
        have ha : p.recordOffset r + codeSize a + i.size = p.recordOffset r + codeSize rec.code := by
          rw [← hsize]
          simp [codeSize, Nat.add_assoc]
        rw [ha]
        exact Place.after_fast code slow hclosed hr (by simpa [hmain] using hi)
    | cons i b =>
      rw [List.cons_append] at hhere
      have hmem : i ∈ rec.fastLead (chunkCost p.records r) (slow r) := by simp [hlead]
      have hsize : p.recordOffset r + codeSize a + i.size = p.recordOffset r + codeSize (a ++ [i]) := by
        simp [codeSize, Nat.add_assoc]
      have hnext : Place p code slow (b.length + 3) (paidFor b (owed p.records r)) r
          (p.recordOffset r + codeSize a + i.size) := by
        rw [hsize]
        exact .fast hr (by simp [hlead])
      have hlt : b.length + 3 < (i :: b).length + 3 := by simp
      rcases Record.mem_fastLead hmem with ⟨map, rfl⟩ | ⟨hm, rfl⟩
      · exact .poll hhere.fetch hlt hnext
      · have he : p.emitMeter = true := by
          by_contra hne
          have := hplaced.unmetered (by simpa using hne) rec (List.mem_of_getElem? hr)
          simp [hm] at this
        obtain ⟨l', hl', hslow⟩ : ∃ l ≤ 2, Place p code slow l 0 r (slow r) := Place.island he hr
        have hpaid : paidFor b (owed p.records r) ≤ chunkCost p.records r := (paidFor_le _ _).trans (owed_le _ r)
        exact .meter hhere.fetch he hlt hpaid hnext (by simp; omega) hslow
  | @slow r rec a b hm hr hlead =>
    have hcode := hplaced.island hm r rec hr
    have hwhole : LInstr.tick rec.refMap :: rec.content.map (LInstr.map (p.offset p.recordOffset)) =
        rec.slowLead ++ rec.mainCode (p.offset p.recordOffset) := by
      rw [Record.content_map, Record.slowLead, List.cons_append]
    have htotal : codeSize (rec.slowLead ++ rec.mainCode (p.offset p.recordOffset)) = 6 + codeSize rec.content := by
      rw [← hwhole, ← codeSize_map (p.offset p.recordOffset) rec.content]
      simp [codeSize, LInstr.size]
    rw [hwhole, hlead, List.append_assoc] at hcode
    have hhere := hcode.append.2
    cases b with
    | nil =>
      rw [hlead, List.append_nil, codeSize_append] at htotal
      rw [List.nil_append] at hhere
      cases hmain : rec.main with
      | none =>
        have hempty : rec.mainCode (p.offset p.recordOffset) = [] := by simp [Record.mainCode, hmain]
        have ha : codeSize a = 6 + codeSize rec.content := by simpa [hempty, codeSize] using htotal
        obtain ⟨l, hnext⟩ := Place.after_slow hplaced hclosed hm hr (by simp [hmain])
        rw [ha, ← Nat.add_assoc]
        exact .none hr hmain ⟨l, 0, hnext, Nat.zero_le _⟩
      | some i =>
        have hone : rec.mainCode (p.offset p.recordOffset) = [i.map (p.offset p.recordOffset)] := by
          simp [Record.mainCode, hmain]
        rw [hone] at hhere htotal
        refine .main hr hmain hhere.fetch (Nat.le_refl _) fun hi => ?_
        have ha : slow r + codeSize a + i.size = slow r + 6 + codeSize rec.content := by
          rw [Nat.add_assoc (slow r) 6, ← htotal]
          simp [codeSize, Nat.add_assoc]
        obtain ⟨l, hnext⟩ := Place.after_slow hplaced hclosed hm hr (by simpa [hmain] using hi)
        rw [ha]
        exact ⟨l, 0, hnext, Nat.le_refl _⟩
    | cons i b =>
      rw [List.cons_append] at hhere
      have hsize : slow r + codeSize a + i.size = slow r + codeSize (a ++ [i]) := by simp [codeSize, Nat.add_assoc]
      have hnext : Place p code slow b.length (paidFor b rec.visits) r (slow r + codeSize a + i.size) := by
        rw [hsize]
        exact .slow hm hr (by simp [hlead])
      have hlt : b.length < (i :: b).length := by simp
      have hmem : i ∈ rec.slowLead := by simp [hlead]
      simp only [Record.slowLead, List.mem_cons, Option.mem_toList, Option.map_eq_some_iff] at hmem
      rcases hmem with rfl | ⟨map, -, rfl⟩
      · exact .tick hhere.fetch hlt ((paidFor_le _ _).trans rec.visits_le) hnext
      · exact .poll hhere.fetch hlt hnext
  | @exit r o rec hr hm hc =>
    have hlead := rec.length_fastLead_le (chunkCost p.records r) (slow r)
    have hnext : Place p code slow ((rec.fastLead (chunkCost p.records r) (slow r)).length + 3)
        (paidFor (rec.fastLead (chunkCost p.records r) (slow r)) (owed p.records r)) r (p.recordOffset r) :=
      .fast (a := []) hr rfl
    rw [rec.paidFor_fastLead hm] at hnext
    exact .exit hc.fetch (by omega) hnext

end Stands

variable (code slow) in
/-- **Branches lead to places.** -/
theorem Place.of_target (hclosed : p.Closed) {rec : Record} (hr : rec ∈ p.records) {i : LInstr Target}
    (hi : i ∈ rec.main) {t : Target} (ht : t ∈ i.targets) :
    ∃ l n, Place p code slow l n (p.index t) (p.offset p.recordOffset t) ∧ (p.emitMeter = true → n = 0) := by
  by_cases hf : t = .func
  · -- the name of the function stands for its END, past what may be before it
    subst hf
    obtain ⟨rs, last, hrs, hpoll, hmain⟩ := hclosed.last
    have hlast : p.records[p.index .func]? = some last := by
      rw [Plan.index, Plan.size, hrs, List.length_append, List.length_singleton, Nat.add_sub_cancel,
        List.getElem?_concat_length]
    have hsize : p.offset p.recordOffset .func = p.recordOffset (p.index .func) +
        codeSize (last.fastLead (chunkCost p.records (p.index .func)) (slow (p.index .func))) := by
      have htotal := last.codeSize_fastCode (p.offset p.recordOffset) (chunkCost p.records (p.index .func))
        (slow (p.index .func))
      rw [Record.fastCode_eq, codeSize_append] at htotal
      have hend : codeSize (last.mainCode (p.offset p.recordOffset)) = 2 := by
        simp [Record.mainCode, hmain, codeSize, LInstr.map, LInstr.size]
      have htake : p.records.take (p.index .func) = rs := by
        rw [Plan.index, Plan.size, hrs, List.length_append, List.length_singleton, Nat.add_sub_cancel, List.take_left]
      have hoff : p.offset p.recordOffset .func = codeSize (layout p.records) - 2 := rfl
      rw [hoff, Plan.recordOffset, htake]
      rw [hrs, layout_append, layout_singleton, codeSize_append]
      rw [hrs] at htotal
      omega
    have hend : owed p.records (p.index .func) = 0 := by
      have hdrop : p.records.drop (p.index .func + 1) = [] := by
        apply List.drop_of_length_le
        rw [hrs, List.length_append, List.length_singleton, Plan.index, Plan.size, hrs, List.length_append,
          List.length_singleton]
        omega
      simp [owed, hlast, hdrop, Record.visits, hmain, LInstr.visit]
    rw [hsize]
    exact ⟨_, _, .fast (b := []) hlast (by simp), fun _ => hend⟩
  · obtain ⟨rec', hrec', hmeter⟩ := hclosed.lands rec hr i hi t ht hf
    obtain ⟨l, n, h, -, hzero⟩ := Place.start code slow hrec'
    rw [p.offset_eq hf]
    exact ⟨l, n, h, fun he => hzero (hmeter he)⟩

end Place

end Wah
