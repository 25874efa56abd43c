/-
The bytes of lowered code: where each record stands, in the fast code and in its slow island.

`fetch` reads the instruction at a byte offset, if one starts there. `Placed` collects what later proofs use of
`lowerAnalyzedCode`: every record is in the fast code at its offset; in metered code every record is also in a slow
island behind a TICK, records of a chunk follow each other there, and the last one is followed by a jump to the next
chunk. `lowerAnalyzedCode_placed` establishes it.
-/
import Wah.LowerPass

namespace Wah

/-! ## Code at an offset -/

/-- the instruction that starts at a byte offset -/
def fetch {τ : Type} : List (LInstr τ) → Nat → Option (LInstr τ)
  | [], _ => none
  | i :: is, n => if n = 0 then some i else if i.size ≤ n then fetch is (n - i.size) else none

/-- `c` stands at offset `o` of the code -/
def CodeAt {τ : Type} (code : List (LInstr τ)) (o : Nat) (c : List (LInstr τ)) : Prop :=
  ∃ a b, code = a ++ c ++ b ∧ codeSize a = o

section CodeAt

variable {τ : Type} {code : List (LInstr τ)} {o : Nat} {i : LInstr τ} {c d : List (LInstr τ)}

theorem fetch_append (a b : List (LInstr τ)) (n : Nat) : fetch (a ++ b) (codeSize a + n) = fetch b n := by
  induction a with
  | nil => simp [codeSize]
  | cons i is ih =>
    have hs : codeSize (i :: is) = i.size + codeSize is := by simp [codeSize]
    have hpos := i.size_pos
    simp only [List.cons_append, fetch, hs]
    rw [if_neg (by omega), if_pos (by omega)]
    have : i.size + codeSize is + n - i.size = codeSize is + n := by omega
    rw [this, ih]

theorem CodeAt.fetch (h : CodeAt code o (i :: c)) : fetch code o = some i := by
  obtain ⟨a, b, rfl, rfl⟩ := h
  have := fetch_append a (i :: c ++ b) 0
  simpa [Wah.fetch] using this

theorem CodeAt.append (h : CodeAt code o (c ++ d)) : CodeAt code o c ∧ CodeAt code (o + codeSize c) d := by
  obtain ⟨a, b, rfl, rfl⟩ := h
  exact ⟨⟨a, d ++ b, by simp, rfl⟩, ⟨a ++ c, b, by simp, codeSize_append a c⟩⟩

theorem CodeAt.tail (h : CodeAt code o (i :: c)) : CodeAt code (o + i.size) c := by
  have := (CodeAt.append (c := [i]) (d := c) h).2
  simpa [codeSize] using this

theorem CodeAt.extend {code' : List (LInstr τ)} (h : CodeAt code o c) : CodeAt (code ++ code') o c := by
  obtain ⟨a, b, rfl, rfl⟩ := h
  exact ⟨a, b ++ code', by simp, rfl⟩

end CodeAt

/-! ## What lowered code looks like -/

/-- the fast code of a record, with the operands of its METER -/
def Record.fastCode (val : Target → Nat) (cost slow : Nat) (r : Record) : List (LInstr Nat) :=
  (r.pre.map LInstr.poll).toList ++ (if r.meter then [.meter cost slow] else []) ++ r.content.map (LInstr.map val)

/-- the number of records of the chunk that starts at a record -/
def chunkCost (rs : List Record) (r : Nat) : Nat := 1 + ((rs.drop (r + 1)).takeWhile fun rec => !rec.meter).length

/-- the last record of a chunk, or of the code -/
def EndsChunk (rs : List Record) (r : Nat) : Prop := ∀ rec, rs[r + 1]? = some rec → rec.meter = true

/-- the records of a plan in the lowered code; `slow` gives the offsets of their TICKs -/
structure Placed (p : Plan) (code : List (LInstr Nat)) (slow : Nat → Nat) : Prop where
  fast : ∀ (r : Nat) (rec : Record), p.records[r]? = some rec →
    CodeAt code (p.recordOffset r) (rec.fastCode (p.offset p.recordOffset) (chunkCost p.records r) (slow r))
  first : p.emitMeter = true → ∀ rec, p.records[0]? = some rec → rec.meter = true
  unmetered : p.emitMeter = false → ∀ rec ∈ p.records, rec.meter = false
  island : p.emitMeter = true → ∀ (r : Nat) (rec : Record), p.records[r]? = some rec →
    CodeAt code (slow r) (.tick rec.refMap :: rec.content.map (LInstr.map (p.offset p.recordOffset)))
  next : p.emitMeter = true → ∀ (r : Nat) (rec rec' : Record), p.records[r]? = some rec →
    p.records[r + 1]? = some rec' → rec'.meter = false → slow (r + 1) = slow r + 6 + codeSize rec.content
  back : p.emitMeter = true → ∀ (r : Nat) (rec : Record), p.records[r]? = some rec → EndsChunk p.records r →
    rec.content.head?.any LInstr.noFallthrough = false →
    CodeAt code (slow r + 6 + codeSize rec.content) [.else_ (p.recordOffset (r + 1))]

/-! ## The fast code -/

theorem codeSize_take_layout (p : Plan) {r : Nat} {rec : Record} (h : p.records[r]? = some rec) :
    p.records = p.records.take r ++ rec :: p.records.drop (r + 1) := by
  obtain ⟨hlt, hr⟩ := List.getElem?_eq_some_iff.mp h
  rw [← hr, List.getElem_cons_drop, List.take_append_drop]

/-- code that strips to a record of the layout -/
theorem codeAt_of_strip {buf : List (LInstr Nat)} {val : Target → Nat} {rs1 rs2 : List Record} {rec : Record}
    (hb : buf.map LInstr.strip = (layout (rs1 ++ rec :: rs2)).map (LInstr.map val)) (tail : List (LInstr Nat)) :
    ∃ b1 b2 b3, buf = b1 ++ b2 ++ b3 ∧ b1.length = (layout rs1).length ∧ codeSize b1 = codeSize (layout rs1) ∧
      b2.map LInstr.strip = rec.code.map (LInstr.map val) ∧ CodeAt (buf ++ tail) (codeSize (layout rs1)) b2 := by
  have hl : layout (rs1 ++ rec :: rs2) = layout rs1 ++ (rec.code ++ layout rs2) := by
    simp [layout]
  rw [hl, List.map_append, List.map_append] at hb
  obtain ⟨b1, b', rfl, h1, h'⟩ := List.map_eq_append_iff.mp hb
  obtain ⟨b2, b3, rfl, h2, h3⟩ := List.map_eq_append_iff.mp h'
  have hsize : codeSize b1 = codeSize (layout rs1) := by
    have := congrArg codeSize h1
    rwa [codeSize_strip, codeSize_map] at this
  refine ⟨b1, b2, b3, by simp, by simpa using congrArg List.length h1, hsize, h2, ?_⟩
  exact ⟨b1, b3 ++ tail, by simp, hsize⟩

theorem strip_eq_self {x : LInstr Nat} {y : LInstr Target} {val : Target → Nat} (h : x.strip = y.map val)
    (hy : ∀ a b, y ≠ .meter a b) : x = y.map val := by
  cases x with
  | meter a b =>
    cases y <;> simp [LInstr.strip, LInstr.map] at h
    exact absurd rfl (hy _ _)
  | _ => exact h

theorem map_strip_eq_self {xs : List (LInstr Nat)} {ys : List (LInstr Target)} {val : Target → Nat}
    (h : xs.map LInstr.strip = ys.map (LInstr.map val)) (hy : ∀ y ∈ ys, ∀ a b, y ≠ .meter a b) :
    xs = ys.map (LInstr.map val) := by
  induction xs generalizing ys with
  | nil =>
    cases ys with
    | nil => rfl
    | cons y ys => simp at h
  | cons x xs ih =>
    cases ys with
    | nil => simp at h
    | cons y ys =>
      simp only [List.map_cons, List.cons.injEq] at h ⊢
      exact ⟨strip_eq_self h.1 (hy y (by simp)), ih h.2 fun y' hy' => hy y' (by simp [hy'])⟩

theorem content_not_meter {p : Plan} {ii : Nat} (hw : p.WF ii) {rec : Record} (hr : rec ∈ p.records) :
    ∀ y ∈ rec.content, ∀ a b, y ≠ .meter a b := by
  intro y hy a b
  simp only [Record.content, List.mem_append, Option.mem_toList, Option.map_eq_some_iff] at hy
  rintro rfl
  rcases hy with ⟨m, -, h⟩ | h
  · simp at h
  · exact (hw.mains rec hr).2 _ h

/-! ## Islands -/

/-- the copies of the records of a chunk -/
def islandBody (val : Target → Nat) (l : List Record) : List (LInstr Nat) :=
  l.flatMap fun r => .tick r.refMap :: r.content.map (LInstr.map val)

/-- the jump behind a chunk, unless its last record never gets there -/
def islandExit (next : Nat) (l : List Record) : List (LInstr Nat) :=
  match l.getLast? with
  | none => []
  | some r => if r.content.head?.any LInstr.noFallthrough then [] else [.else_ next]

/-- the islands of chunks that start with record `st` -/
def islandsOf (val : Target → Nat) (off : Nat → Nat) (st : Nat) : List (List Record) → List (LInstr Nat)
  | [] => []
  | l :: ls => islandBody val l ++ islandExit (off (st + l.length)) l ++ islandsOf val off (st + l.length) ls

theorem noFallthrough_map {τ υ : Type} (f : τ → υ) (i : LInstr τ) : (i.map f).noFallthrough = i.noFallthrough := by
  cases i with
  | op j m => cases j <;> rfl
  | _ => rfl

theorem any_noFallthrough_map (val : Target → Nat) (c : List (LInstr Target)) :
    (c.map (LInstr.map val)).head?.any LInstr.noFallthrough = c.head?.any LInstr.noFallthrough := by
  cases c with
  | nil => rfl
  | cons i is => simp [noFallthrough_map]

/-- a buffer that holds the records of the plan, whatever the operands of its METERs -/
structure Holds (val : Target → Nat) (rs : List Record) (buf : List (LInstr Nat)) : Prop where
  strip : buf.map LInstr.strip = (layout rs).map (LInstr.map val)
  contents : ∀ rec ∈ rs, ∀ y ∈ rec.content, ∀ a b, y ≠ .meter a b

/-- the bytes of a record in the buffer -/
theorem Holds.slice {val : Target → Nat} {rs1 rs2 : List Record} {rec : Record} {buf : List (LInstr Nat)}
    (h : Holds val (rs1 ++ rec :: rs2) buf) (tail : List (LInstr Nat)) :
    ((buf ++ tail).drop ((layout rs1).length + rec.head.length)).take rec.content.length =
      rec.content.map (LInstr.map val) := by
  obtain ⟨b1, b2, b3, rfl, hlen, -, h2, -⟩ := codeAt_of_strip h.strip tail
  rw [Record.code, List.map_append] at h2
  obtain ⟨x, y, rfl, hx, hy⟩ := List.map_eq_append_iff.mp h2
  have hy' := map_strip_eq_self hy (h.contents rec (by simp))
  have hxl : x.length = rec.head.length := by simpa using congrArg List.length hx
  have hyl : y.length = rec.content.length := by simp [hy']
  have e : b1 ++ (x ++ y) ++ b3 ++ tail = (b1 ++ x) ++ (y ++ (b3 ++ tail)) := by simp
  rw [e, ← hlen, ← hxl, ← hyl, ← List.length_append, List.drop_left', List.take_left', hy']
  · rfl
  · rfl

theorem Holds.body {val : Target → Nat} {rs1 rs2 l : List Record} {buf : List (LInstr Nat)}
    (h : Holds val (rs1 ++ l ++ rs2) buf) (tail : List (LInstr Nat)) :
    ((recTable (layout rs1).length l).flatMap fun r =>
        .tick r.refMap :: ((buf ++ tail).drop r.start).take r.count) = islandBody val l := by
  induction l generalizing rs1 with
  | nil => rfl
  | cons rec l ih =>
    have hs := Holds.slice (show Holds val (rs1 ++ rec :: (l ++ rs2)) buf by simpa using h) tail
    have hidx : (layout rs1).length + rec.code.length = (layout (rs1 ++ [rec])).length := by
      simp [layout_append, layout_singleton]
    have := ih (show Holds val (rs1 ++ [rec] ++ l ++ rs2) buf by simpa using h)
    simp only [recTable, List.flatMap_cons, islandBody, hs, hidx]
    rw [this]
    rfl

/-- the island of a chunk, from the tables of the pass -/
theorem Holds.islandCode {val : Target → Nat} {rs1 rs2 l : List Record} {buf : List (LInstr Nat)}
    (h : Holds val (rs1 ++ l ++ rs2) buf) (tail : List (LInstr Nat)) {c : MeterChunk} (hs : c.recordStart = rs1.length)
    (hc : c.recordCount = l.length) :
    islandCode (buf ++ tail) (recTable 0 (rs1 ++ l ++ rs2)) c =
      islandBody val l ++ islandExit c.nextFastOffset l := by
  have hrecs : ((recTable 0 (rs1 ++ l ++ rs2)).drop c.recordStart).take c.recordCount =
      recTable (layout rs1).length l := by
    rw [hs, hc, List.append_assoc, recTable_append, Nat.zero_add, recTable_append, List.drop_left' (by simp),
      List.take_left' (by simp)]
  unfold Wah.islandCode
  dsimp only
  rw [hrecs, h.body tail]
  rcases List.eq_nil_or_concat l with rfl | ⟨l', r, rfl⟩
  · simp [recTable, islandExit]
  · have hsl := Holds.slice (show Holds val (rs1 ++ l' ++ r :: rs2) buf by simpa using h) tail
    rw [layout_append, List.length_append] at hsl
    simp only [List.concat_eq_append, recTable_append, recTable, islandExit, List.getLast?_append,
      List.getLast?_singleton, Option.some_or, hsl, any_noFallthrough_map]
    split <;> simp

/-- the operands of METERs may change -/
theorem Holds.modify {val : Target → Nat} {rs : List Record} {buf : List (LInstr Nat)} (h : Holds val rs buf)
    {k a b a' b' : Nat} (hk : buf[k]? = some (.meter a b)) : Holds val rs (buf.modify k fun _ => .meter a' b') := by
  refine ⟨?_, h.contents⟩
  rw [← h.strip]
  apply List.ext_getElem?
  intro j
  simp only [List.getElem?_map, List.getElem?_modify]
  by_cases hj : k = j
  · subst hj; simp [hk, LInstr.strip]
  · simp [hj]

/-- METERs of a list of chunks, laid out from instruction `idx` on, with the islands after `base` bytes -/
structure Meters (val : Target → Nat) (off : Nat → Nat) (buf : List (LInstr Nat)) (base : Nat) (st idx : Nat)
    (ls : List (List Record)) : Prop where
  at_ : ∀ (ls1 : List (List Record)) (l : List Record) (ls2 : List (List Record)), ls = ls1 ++ l :: ls2 →
    buf[idx + (layout ls1.flatten).length + preLen l]? = some (.meter l.length (base + codeSize (islandsOf val off st ls1)))

theorem length_islandsOf_append (val : Target → Nat) (off : Nat → Nat) (st : Nat) (l : List Record)
    (ls : List (List Record)) :
    codeSize (islandsOf val off st (l :: ls)) =
      codeSize (islandBody val l ++ islandExit (off (st + l.length)) l) + codeSize (islandsOf val off (st + l.length) ls) := by
  simp [islandsOf, codeSize_append, Nat.add_assoc]

theorem Holds.codeSize {val : Target → Nat} {rs : List Record} {buf : List (LInstr Nat)} (h : Holds val rs buf) :
    codeSize buf = codeSize (layout rs) := by
  have := congrArg Wah.codeSize h.strip
  rwa [codeSize_strip, codeSize_map] at this

theorem islands_spec (val : Target → Nat) (off : Nat → Nat) (ls : List (List Record)) :
    ∀ (rs0 : List Record) (buf tail : List (LInstr Nat)), Holds val (rs0 ++ ls.flatten) buf → (∀ l ∈ ls, IsChunk l) →
      (∀ ch ∈ chunkTable off rs0.length (layout rs0).length ls, ∃ a b, buf[ch.meter]? = some (.meter a b)) →
      ∃ buf', islands (recTable 0 (rs0 ++ ls.flatten)) (buf ++ tail)
          (chunkTable off rs0.length (layout rs0).length ls) = buf' ++ tail ++ islandsOf val off rs0.length ls ∧
        Holds val (rs0 ++ ls.flatten) buf' ∧ (∀ k < (layout rs0).length, buf'[k]? = buf[k]?) ∧
        Meters val off buf' (codeSize (buf ++ tail)) rs0.length (layout rs0).length ls := by
  induction ls with
  | nil =>
    intro rs0 buf tail h _ _
    exact ⟨buf, by simp [islands, chunkTable, islandsOf], h, fun _ _ => rfl, ⟨by simp⟩⟩
  | cons l ls ih =>
    intro rs0 buf tail h hl hm
    set c : MeterChunk := { meter := (layout rs0).length + preLen l, nextFastOffset := off (rs0.length + l.length),
                            recordStart := rs0.length, cost := l.length, recordCount := l.length } with hc
    obtain ⟨a, b, hab⟩ := hm c (by simp [chunkTable, hc])
    have hlt : c.meter < buf.length := (List.getElem?_eq_some_iff.mp hab).1
    have hcl : c.meter < (layout (rs0 ++ l)).length := by
      have := chunkTable_meter_lt off [l] rs0.length (layout rs0).length (by simpa using hl l (by simp)) c
        (by simp [chunkTable, hc])
      simpa [layout_append] using this
    set start := codeSize (buf ++ tail) with hstart
    set buf1 := buf.modify c.meter (fun _ => .meter c.cost start) with hbuf1
    have h1 : Holds val (rs0 ++ (l :: ls).flatten) buf1 := h.modify hab
    have hisl := Holds.islandCode (show Holds val (rs0 ++ l ++ ls.flatten) _ by simpa using h1) tail (c := c) rfl rfl
    have hflat : rs0 ++ l ++ ls.flatten = rs0 ++ (l :: ls).flatten := by simp
    rw [hflat] at hisl
    set island := islandBody val l ++ islandExit (off (rs0.length + l.length)) l with hisland
    have hm1 : ∀ ch ∈ chunkTable off (rs0 ++ l).length (layout (rs0 ++ l)).length ls,
        ∃ a b, buf1[ch.meter]? = some (.meter a b) := by
      intro ch hch
      rw [List.length_append, layout_append, List.length_append] at hch
      obtain ⟨a', b', h'⟩ := hm ch (by simp [chunkTable, hch])
      rw [hbuf1, List.getElem?_modify, h']
      by_cases he : c.meter = ch.meter
      · exact ⟨c.cost, start, by simp [he]⟩
      · exact ⟨a', b', by simp [he]⟩
    obtain ⟨buf', e, h', hk, hms⟩ := ih (rs0 ++ l) buf1 (tail ++ island) (by simpa using h1)
      (fun l' hl' => hl l' (by simp [hl'])) hm1
    refine ⟨buf', ?_, by simpa using h', fun k hk' => ?_, ⟨?_⟩⟩
    · have hstep : islands (recTable 0 (rs0 ++ (l :: ls).flatten)) (buf ++ tail)
          (chunkTable off rs0.length (layout rs0).length (l :: ls)) =
          islands (recTable 0 (rs0 ++ (l :: ls).flatten)) (buf1 ++ (tail ++ island))
            (chunkTable off (rs0 ++ l).length (layout (rs0 ++ l)).length ls) := by
        rw [List.length_append, layout_append, List.length_append, ← List.append_assoc, ← hisl, hbuf1,
          ← modify_append_of_lt buf tail c.meter _ hlt]
        rfl
      rw [hstep, ← hflat, e]
      simp [islandsOf, hisland]
    · rw [hk k (by simp only [layout_append, List.length_append]; omega), hbuf1, List.getElem?_modify]
      have hne : c.meter ≠ k := by simp only [hc]; omega
      simp [hne]
    · intro ls1 l' ls2 hsplit
      cases ls1 with
      | nil =>
        simp only [List.nil_append, List.cons.injEq] at hsplit
        obtain ⟨rfl, rfl⟩ := hsplit
        have hidx : (layout rs0).length + (layout (List.flatten [])).length + preLen l = c.meter := by
          simp [layout, hc]
        rw [hidx, hk c.meter hcl, hbuf1, List.getElem?_modify, hab]
        simp [islandsOf, hc, hstart, Wah.codeSize]
      | cons l0 ls1 =>
        simp only [List.cons_append, List.cons.injEq] at hsplit
        obtain ⟨rfl, rfl⟩ := hsplit
        have := hms.at_ ls1 l' ls2 rfl
        have hbase : Wah.codeSize (buf1 ++ (tail ++ island)) = start + Wah.codeSize island := by
          rw [hstart]
          simp only [codeSize_append, h1.codeSize, h.codeSize]
          omega
        rw [hbase, List.length_append] at this
        rw [length_islandsOf_append, ← hisland]
        simp only [layout_append, List.length_append, List.flatten_cons, ← Nat.add_assoc] at this ⊢
        exact this

/-! ## Assembling -/

/-- the offset of a record's TICK, in islands after `base` bytes -/
def slowFrom (val : Target → Nat) (off : Nat → Nat) (base st : Nat) : List (List Record) → Nat → Nat
  | [], _ => base
  | l :: ls, r =>
    if r < l.length then base + codeSize (islandBody val (l.take r))
    else slowFrom val off (base + codeSize (islandBody val l ++ islandExit (off (st + l.length)) l)) (st + l.length) ls
      (r - l.length)

theorem slowFrom_split (val : Target → Nat) (off : Nat → Nat) {l1 l2 : List Record} {rec : Record}
    (ls2 : List (List Record)) (ls1 : List (List Record)) : ∀ base st : Nat,
    slowFrom val off base st (ls1 ++ (l1 ++ rec :: l2) :: ls2) (ls1.flatten.length + l1.length) =
      base + codeSize (islandsOf val off st ls1) + codeSize (islandBody val l1) := by
  induction ls1 with
  | nil =>
    intro base st
    have hlt : l1.length < (l1 ++ rec :: l2).length := by simp
    simp [slowFrom, islandsOf, codeSize]
  | cons l ls1 ih =>
    intro base st
    have hlen : (l :: ls1).flatten.length + l1.length = l.length + (ls1.flatten.length + l1.length) := by
      simp [Nat.add_assoc]
    rw [hlen, List.cons_append, slowFrom, if_neg (by omega), Nat.add_sub_cancel_left, ih, length_islandsOf_append]
    omega

/-- a record of a list of chunks -/
theorem flatten_split {ls : List (List Record)} {r : Nat} {rec : Record} (h : ls.flatten[r]? = some rec) :
    ∃ ls1 l1 l2 ls2, ls = ls1 ++ (l1 ++ rec :: l2) :: ls2 ∧ r = ls1.flatten.length + l1.length := by
  induction ls generalizing r with
  | nil => simp at h
  | cons l ls ih =>
    rw [List.flatten_cons] at h
    by_cases hr : r < l.length
    · rw [List.getElem?_append_left hr] at h
      obtain ⟨hlt, hget⟩ := List.getElem?_eq_some_iff.mp h
      have hl : l = l.take r ++ rec :: l.drop (r + 1) := by
        rw [← hget, List.getElem_cons_drop, List.take_append_drop]
      refine ⟨[], l.take r, l.drop (r + 1), ls, ?_, by simp [Nat.min_eq_left (Nat.le_of_lt hr)]⟩
      rw [← hl, List.nil_append]
    · rw [List.getElem?_append_right (by omega)] at h
      obtain ⟨ls1, l1, l2, ls2, rfl, hr'⟩ := ih h
      refine ⟨l :: ls1, l1, l2, ls2, rfl, ?_⟩
      rw [List.flatten_cons, List.length_append]
      omega

theorem islandsOf_append (val : Target → Nat) (off : Nat → Nat) (ls1 ls2 : List (List Record)) : ∀ st : Nat,
    islandsOf val off st (ls1 ++ ls2) = islandsOf val off st ls1 ++ islandsOf val off (st + ls1.flatten.length) ls2 := by
  induction ls1 with
  | nil => intro st; simp [islandsOf]
  | cons l ls1 ih => intro st; simp [islandsOf, ih, Nat.add_assoc]

theorem islandBody_append (val : Target → Nat) (l1 l2 : List Record) :
    islandBody val (l1 ++ l2) = islandBody val l1 ++ islandBody val l2 := by simp [islandBody]

theorem codeSize_islandBody_singleton (val : Target → Nat) (rec : Record) :
    codeSize (islandBody val [rec]) = 6 + codeSize rec.content := by
  have : islandBody val [rec] = [.tick rec.refMap] ++ rec.content.map (LInstr.map val) := by simp [islandBody]
  rw [this, codeSize_append, codeSize_map]
  simp [codeSize, LInstr.size]

/-- chunks after a record, and what that says of the next one -/
theorem chunk_tail {ls1 ls2 : List (List Record)} {l1 l2 : List Record} {rec : Record}
    (hl : ∀ l ∈ ls1 ++ (l1 ++ rec :: l2) :: ls2, IsChunk l) :
    (∀ r ∈ l2, r.meter = false) ∧ (∀ r, ls2.flatten.head? = some r → r.meter = true) ∧
      (rec.meter = true ↔ l1 = []) := by
  obtain ⟨r0, rs, he, hm0, hrs⟩ := hl (l1 ++ rec :: l2) (by simp)
  refine ⟨?_, ?_, ?_⟩
  · intro r hr
    apply hrs
    cases l1 with
    | nil =>
      simp only [List.nil_append, List.cons.injEq] at he
      exact he.2 ▸ hr
    | cons x xs =>
      simp only [List.cons_append, List.cons.injEq] at he
      rw [← he.2]
      simp [hr]
  · intro r hr
    cases ls2 with
    | nil => simp at hr
    | cons l ls2 =>
      obtain ⟨r1, rs1, rfl, hm1, -⟩ := hl l (by simp)
      simp only [List.flatten_cons, List.cons_append, List.head?_cons, Option.some.injEq] at hr
      exact hr ▸ hm1
  · constructor
    · intro hrec
      cases l1 with
      | nil => rfl
      | cons x xs =>
        simp only [List.cons_append, List.cons.injEq] at he
        have := hrs rec (by rw [← he.2]; simp)
        simp [hrec] at this
    · rintro rfl
      simp only [List.nil_append, List.cons.injEq] at he
      exact he.1 ▸ hm0

theorem chunkCost_split {ls1 ls2 : List (List Record)} {l2 : List Record} {rec : Record}
    (hl : ∀ l ∈ ls1 ++ ([] ++ rec :: l2) :: ls2, IsChunk l) :
    chunkCost (ls1 ++ ([] ++ rec :: l2) :: ls2).flatten ls1.flatten.length = (rec :: l2).length := by
  obtain ⟨h2, h3, -⟩ := chunk_tail hl
  have hdrop : (ls1 ++ ([] ++ rec :: l2) :: ls2).flatten.drop (ls1.flatten.length + 1) = l2 ++ ls2.flatten := by
    rw [← List.drop_drop, List.flatten_append, List.drop_left' rfl]
    simp
  unfold chunkCost
  rw [hdrop, List.takeWhile_append_of_pos (by simpa using h2)]
  have : (ls2.flatten.takeWhile fun rec => !rec.meter) = [] := by
    cases hf : ls2.flatten with
    | nil => rfl
    | cons r rs =>
      have := h3 r (by simp [hf])
      simp [this]
  simp [this, Nat.add_comm]

/-- the fast code of a record, given the operands of its METER -/
theorem Holds.fast {val : Target → Nat} {rs1 rs2 : List Record} {rec : Record} {buf : List (LInstr Nat)}
    (tail : List (LInstr Nat)) (cost slow : Nat) (h : Holds val (rs1 ++ rec :: rs2) buf)
    (hm : rec.meter = true → buf[(layout rs1).length + rec.pre.toList.length]? = some (.meter cost slow)) :
    CodeAt (buf ++ tail) (Wah.codeSize (layout rs1)) (rec.fastCode val cost slow) := by
  obtain ⟨b1, b2, b3, rfl, hlen, -, h2, hat⟩ := codeAt_of_strip h.strip tail
  have hc := h.contents rec (by simp)
  have hb2 : b2 = rec.fastCode val cost slow := by
    rw [Record.code, Record.head, List.map_append, List.map_append] at h2
    obtain ⟨x, y, rfl, hx, hy⟩ := List.map_eq_append_iff.mp h2
    obtain ⟨x1, x2, rfl, hx1, hx2⟩ := List.map_eq_append_iff.mp hx
    have hy' := map_strip_eq_self hy hc
    have hx1' : x1 = (rec.pre.map LInstr.poll).toList := by
      have := map_strip_eq_self hx1 (by cases rec.pre <;> simp)
      rw [this]
      cases rec.pre <;> simp [LInstr.map]
    unfold Record.fastCode
    rw [hy', hx1']
    congr 2
    cases hrm : rec.meter with
    | false => simpa [hrm] using hx2
    | true =>
      have hm' := hm hrm
      have hxl : x1.length = rec.pre.toList.length := by rw [hx1']; cases rec.pre <;> rfl
      simp only [hrm, if_true, List.map_cons, List.map_nil] at hx2 ⊢
      obtain ⟨m, rfl⟩ : ∃ m, x2 = [m] := List.length_eq_one_iff.mp (by simpa using congrArg List.length hx2)
      have e : b1 ++ (x1 ++ [m] ++ y) ++ b3 = (b1 ++ x1) ++ m :: (y ++ b3) := by simp
      rw [e, ← hlen, ← hxl, ← List.length_append, List.getElem?_append_right (Nat.le_refl _)] at hm'
      simpa using hm'
  rw [← hb2]
  exact hat

section Placed

variable {off : Nat → Nat} {s : LState} {p : Plan}

theorem Done.holds (h : Done off s p) : Holds (p.offset off) p.records s.buf := by
  obtain ⟨ii, hw⟩ := h.wf
  exact ⟨h.buf, fun rec hr => content_not_meter hw hr⟩

theorem Done.placed_unmetered (h : Done p.recordOffset s p) (he : p.emitMeter = false) :
    Placed p s.buf (fun _ => 0) := by
  obtain ⟨ii, hw⟩ := h.wf
  have hun : ∀ rec ∈ p.records, rec.meter = false := by
    intro rec hr
    cases hm : rec.meter with
    | false => rfl
    | true => simpa [he] using (hw.mains rec hr).1 hm
  refine ⟨fun r rec hr => ?_, by simp [he], fun _ => hun, by simp [he], by simp [he], by simp [he]⟩
  have hh := h.holds
  rw [codeSize_take_layout p hr] at hh
  have := hh.fast [] (chunkCost p.records r) 0
    (by simp [hun rec (List.mem_of_getElem? hr)])
  simpa [Plan.recordOffset] using this

theorem Done.placed_metered (h : Done p.recordOffset s p) (he : p.emitMeter = true) :
    ∃ slow, Placed p (islands s.records s.buf s.chunks) slow := by
  obtain ⟨ii, hw⟩ := h.wf
  obtain ⟨closed, cur, ht, -⟩ := h.meter.tables he
  obtain rfl := MeterRel.cur_nil ht (h.cost he)
  have hR : p.records = closed.flatten := by simpa using ht.split
  set val := p.offset p.recordOffset with hval
  have hh := h.holds
  rw [hR] at hh
  have hspec := islands_spec val p.recordOffset closed [] s.buf [] (by simpa using hh) ht.chunks
  simp only [List.nil_append, List.append_nil, List.length_nil, layout, List.flatMap_nil] at hspec
  rw [← ht.table, ← hR, ← ht.records] at hspec
  obtain ⟨buf', e, hh', -, hms⟩ := hspec fun ch hch => ⟨ch.cost, 0, (ht.meters ch hch).2⟩
  rw [hR] at hh'
  set base := codeSize s.buf with hbase
  have hsize : codeSize buf' = base := by rw [hh'.codeSize, hbase, hh.codeSize]
  set slow := slowFrom val p.recordOffset base 0 closed with hslow
  -- where a record stands among the chunks
  have hloc : ∀ (r : Nat) (rec : Record), p.records[r]? = some rec → ∃ ls1 l1 l2 ls2,
      closed = ls1 ++ (l1 ++ rec :: l2) :: ls2 ∧ r = ls1.flatten.length + l1.length ∧
      slow r = base + codeSize (islandsOf val p.recordOffset 0 ls1) + codeSize (islandBody val l1) := by
    intro r rec hr
    rw [hR] at hr
    obtain ⟨ls1, l1, l2, ls2, hcl, hri⟩ := flatten_split hr
    exact ⟨ls1, l1, l2, ls2, hcl, hri, by rw [hslow, hcl, hri]; exact slowFrom_split val _ ls2 ls1 base 0⟩
  have hisl : ∀ ls1 l1 l2 ls2 rec, closed = ls1 ++ (l1 ++ rec :: l2) :: ls2 →
      CodeAt (buf' ++ islandsOf val p.recordOffset 0 closed)
        (base + codeSize (islandsOf val p.recordOffset 0 ls1) + codeSize (islandBody val l1))
        (islandBody val (rec :: l2) ++ islandExit (p.recordOffset (ls1.flatten.length + (l1 ++ rec :: l2).length))
          (l1 ++ rec :: l2)) := by
    intro ls1 l1 l2 ls2 rec hcl
    refine ⟨buf' ++ islandsOf val p.recordOffset 0 ls1 ++ islandBody val l1,
      islandsOf val p.recordOffset (ls1.flatten.length + (l1 ++ rec :: l2).length) ls2, ?_, ?_⟩
    · rw [hcl, islandsOf_append, islandsOf, Nat.zero_add, islandBody_append]
      simp only [List.append_assoc]
    · rw [codeSize_append, codeSize_append, hsize]
  have hbody : ∀ (rec : Record) (l2 : List Record), islandBody val (rec :: l2) =
      (.tick rec.refMap :: rec.content.map (LInstr.map val)) ++ islandBody val l2 := by
    intro rec l2
    simp [islandBody]
  have htick : ∀ rec : Record, codeSize (LInstr.tick rec.refMap :: rec.content.map (LInstr.map val)) =
      6 + codeSize rec.content := by
    intro rec
    have := codeSize_islandBody_singleton val rec
    simpa [islandBody] using this
  refine ⟨slow, ?_⟩
  rw [e]
  refine ⟨?_, ?_, by simp [he], ?_, ?_, ?_⟩
  · intro r rec hr
    obtain ⟨ls1, l1, l2, ls2, hcl, hri, hsl⟩ := hloc r rec hr
    have hR' : p.records = (ls1.flatten ++ l1) ++ rec :: (l2 ++ ls2.flatten) := by rw [hR, hcl]; simp
    have htake : p.records.take r = ls1.flatten ++ l1 := by
      rw [hR', hri, ← List.length_append, List.take_left']
      rfl
    have hoffr : p.recordOffset r = codeSize (layout (ls1.flatten ++ l1)) := by rw [Plan.recordOffset, htake]
    rw [← hR, hR'] at hh'
    rw [hoffr]
    refine hh'.fast _ _ _ fun hm => ?_
    have hl1 : l1 = [] := (chunk_tail (hcl ▸ ht.chunks)).2.2.mp hm
    subst hl1
    have hmeter := hms.at_ ls1 ([] ++ rec :: l2) ls2 hcl
    have hcost : chunkCost p.records r = (rec :: l2).length := by
      rw [hR, hcl, hri]
      exact chunkCost_split (hcl ▸ ht.chunks)
    rw [hcost, hsl]
    simpa [preLen, islandBody, codeSize, layout] using hmeter
  · intro _ rec hr
    obtain ⟨ls1, l1, l2, ls2, hcl, hri, -⟩ := hloc 0 rec hr
    refine (chunk_tail (hcl ▸ ht.chunks)).2.2.mpr ?_
    exact List.eq_nil_of_length_eq_zero (by omega)
  · intro _ r rec hr
    obtain ⟨ls1, l1, l2, ls2, hcl, hri, hsl⟩ := hloc r rec hr
    have := hisl ls1 l1 l2 ls2 rec hcl
    rw [hbody, List.append_assoc] at this
    rw [hsl]
    exact this.append.1
  · intro _ r rec rec' hr hr' hm
    obtain ⟨ls1, l1, l2, ls2, hcl, hri, hsl⟩ := hloc r rec hr
    obtain ⟨h2, h3, -⟩ := chunk_tail (hcl ▸ ht.chunks)
    have hR' : p.records = (ls1.flatten ++ l1 ++ [rec]) ++ (l2 ++ ls2.flatten) := by rw [hR, hcl]; simp
    have hlen : r + 1 = (ls1.flatten ++ l1 ++ [rec]).length := by simp only [List.length_append, List.length_singleton]; omega
    rw [hR', hlen, List.getElem?_append_right (Nat.le_refl _), Nat.sub_self] at hr'
    cases l2 with
    | nil =>
      have := h3 rec' (by simpa [List.head?_eq_getElem?] using hr')
      simp [hm] at this
    | cons x l2 =>
      simp only [List.cons_append, List.getElem?_cons_zero, Option.some.injEq] at hr'
      subst hr'
      have hcl' : closed = ls1 ++ ((l1 ++ [rec]) ++ x :: l2) :: ls2 := by rw [hcl]; simp
      have hri' : r + 1 = ls1.flatten.length + (l1 ++ [rec]).length := by
        simp only [List.length_append, List.length_singleton]; omega
      have hslow' : slow (r + 1) = base + codeSize (islandsOf val p.recordOffset 0 ls1) +
          codeSize (islandBody val (l1 ++ [rec])) := by
        rw [hslow, hcl', hri']
        exact slowFrom_split val _ ls2 ls1 base 0
      rw [hslow', hsl, islandBody_append, codeSize_append, codeSize_islandBody_singleton]
      omega
  · intro _ r rec hr hend hnf
    obtain ⟨ls1, l1, l2, ls2, hcl, hri, hsl⟩ := hloc r rec hr
    obtain ⟨h2, h3, -⟩ := chunk_tail (hcl ▸ ht.chunks)
    have hl2 : l2 = [] := by
      cases l2 with
      | nil => rfl
      | cons x l2 =>
        have hR' : p.records = (ls1.flatten ++ l1 ++ [rec]) ++ (x :: l2 ++ ls2.flatten) := by rw [hR, hcl]; simp
        have hlen : r + 1 = (ls1.flatten ++ l1 ++ [rec]).length := by
          simp only [List.length_append, List.length_singleton]; omega
        have := hend x (by rw [hR', hlen, List.getElem?_append_right (Nat.le_refl _)]; simp)
        simp [h2 x (by simp)] at this
    subst hl2
    have := hisl ls1 l1 [] ls2 rec hcl
    rw [hbody, List.append_assoc] at this
    have := this.append.2
    rw [htick] at this
    have hexit : islandExit (p.recordOffset (ls1.flatten.length + (l1 ++ [rec]).length)) (l1 ++ [rec]) =
        [.else_ (p.recordOffset (r + 1))] := by
      have hr1 : ls1.flatten.length + (l1 ++ [rec]).length = r + 1 := by
        simp only [List.length_append, List.length_singleton]; omega
      rw [hr1]
      simp [islandExit, hnf]
    rw [hexit] at this
    rw [hsl]
    simpa [islandBody, Nat.add_assoc] using this

/-- **Placement.** In the lowered code of an accepted body, every record stands at its offset, and in metered code also
behind its TICK. -/
theorem lowerAnalyzedCode_placed (fuelMetering : Bool) (ds : List DInstr)
    (ha : Plan.AcceptsFrom (loopHasTry ds) { emitMeter := fuelMetering, needNewChunk := fuelMetering } 0 ds) :
    ∃ slow, Placed (planOf fuelMetering ds) (lowerAnalyzedCode fuelMetering ds) slow := by
  have hd := lowerFrom_planOf fuelMetering ds ha
  have he := planOf_emitMeter fuelMetering ds
  unfold lowerAnalyzedCode
  cases fuelMetering with
  | false => exact ⟨_, hd.placed_unmetered he⟩
  | true => exact hd.placed_metered he

end Placed

end Wah
