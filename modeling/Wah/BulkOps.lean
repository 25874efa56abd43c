/-
The chunks and the loop of bulk operations, which stop for interrupts and when the fuel runs out.

`chunkLoop` is the loop of all `wah_bulk_*` and `wah_memory_*_internal` helpers: the next chunk is bounded by
`WAH_BULK_CHECK_INTERVAL` and by what the fuel affords, is handled and charged, and the loop returns early if it should
stop. A `Sweep` is the loop of one operation with the operands it pushes for the rest.

- `chunkLoop_spec`: what the loop has done when it returns, and why it does; the fuel is overdrawn by one unit at most.
- `chunkLoop_cost`: chunks of whole units cost what their items do.
- `Sweeps.lawful`, `Sweeps.left`, `Sweeps.priced`: operations that set out on sweeps may be stopped and resumed.
-/
import Wah.Spaces
import Wah.Types

namespace Wah

open Resumable

/-! ## Fuel -/

/-- `WAH_BULK_ITEMS_PER_FUEL` and `WAH_BULK_CHECK_INTERVAL` -/
def itemsPerFuel : Nat := 4096
def checkInterval : Nat := 16777216

/-- what an operation meets: the fuel left, if there is metering, and `interrupt_flag` at each of its checks -/
structure Ration where
  fuel : Option Int
  flags : Nat → Bool

/-- the fuel was not overdrawn -/
def Ration.Solvent (fuel : Option Int) : Prop := ∀ x ∈ fuel, 0 ≤ x

/-- `wah_bulk_fuel_limit` -/
def bulkFuelLimit (fuel : Option Int) (chunk : Nat) : Nat :=
  match fuel with
  | none => chunk
  | some fuel =>
    if fuel < 0 then 0
    else
      let fuelU := fuel.toNat + 1
      if uint64Max / itemsPerFuel < fuelU then chunk else min chunk (fuelU * itemsPerFuel)

/-- the units `wah_bulk_fuel_charge` takes -/
def bulkFuelUnits (chunk : Nat) : Nat := (chunk + itemsPerFuel - 1) / itemsPerFuel

/-- `wah_bulk_should_stop`, with `interrupt_flag` -/
def bulkShouldStop (fuel : Option Int) (flag : Bool) : Bool := flag || fuel.any fun f => decide (f < 0)

theorem bulkFuelUnits_mono {a b : Nat} (h : a ≤ b) : bulkFuelUnits a ≤ bulkFuelUnits b :=
  Nat.div_le_div_right (by omega)

/-- whole units are paid for separately -/
theorem bulkFuelUnits_add {a : Nat} (b : Nat) (h : itemsPerFuel ∣ a) :
    bulkFuelUnits (a + b) = bulkFuelUnits a + bulkFuelUnits b := by
  unfold bulkFuelUnits itemsPerFuel at *
  omega

theorem bulkFuelLimit_le (fuel : Option Int) (chunk : Nat) : bulkFuelLimit fuel chunk ≤ chunk := by
  unfold bulkFuelLimit
  split
  · exact Nat.le_refl _
  · dsimp only
    split
    · exact Nat.zero_le _
    · split <;> omega

theorem bulkFuelLimit_pos {fuel : Option Int} {chunk : Nat} (hc : 0 < chunk) (hf : Ration.Solvent fuel) :
    0 < bulkFuelLimit fuel chunk := by
  unfold bulkFuelLimit
  cases fuel with
  | none => exact hc
  | some x =>
    have hx := hf x rfl
    dsimp only
    rw [if_neg (by omega)]
    unfold itemsPerFuel
    split <;> omega

/-- the fuel pays for the chunk, but for one unit -/
theorem bulkFuelLimit_afford {x : Int} (hx : 0 ≤ x) (chunk : Nat) (hc : chunk ≤ uint64Max) :
    (bulkFuelUnits (bulkFuelLimit (some x) chunk) : Int) ≤ x + 1 := by
  have hunits : ∀ c k : Nat, c ≤ k * itemsPerFuel → bulkFuelUnits c ≤ k := by
    intro c k hck
    unfold bulkFuelUnits itemsPerFuel at *
    omega
  have hlimit : bulkFuelLimit (some x) chunk ≤ (x.toNat + 1) * itemsPerFuel := by
    unfold bulkFuelLimit
    dsimp only
    rw [if_neg (by omega)]
    split
    · rename_i hbig
      unfold uint64Max itemsPerFuel at *
      omega
    · exact Nat.min_le_right _ _
  have := hunits _ _ hlimit
  omega

/-! ## Chunks -/

/-- the chunk of memory and table helpers -/
def plainChunk (fuel : Option Int) (rest : Nat) : Nat := bulkFuelLimit fuel (min rest checkInterval)

/-- whole elements of `esz` bytes, at least one: the chunk of `array.copy` and `array.init_data` -/
def arrayChunk (esz : Nat) (fuel : Option Int) (rest : Nat) : Nat :=
  let chunk := bulkFuelLimit fuel (min rest checkInterval)
  let chunk := if esz < chunk then chunk - chunk % esz else esz
  min chunk rest

/-- the chunk of `wah_bulk_array_fill`, in elements -/
def fillChunk (esz : Nat) (fuel : Option Int) (rest : Nat) : Nat :=
  let chunk := min rest checkInterval
  let bytes := bulkFuelLimit fuel (chunk * esz)
  if bytes < chunk * esz then (if esz < bytes then bytes / esz else 1) else chunk

/-- a chunk is within the rest, not empty unless the fuel was overdrawn, no more than a unit beyond what is left, and a
multiple of `grain` unless it is all of the rest -/
structure ChunkOk (next : Option Int → Nat → Nat) (unit grain : Nat) : Prop where
  le : ∀ fuel rest, 0 < rest → next fuel rest ≤ rest
  pos : ∀ fuel rest, 0 < rest → Ration.Solvent fuel → 0 < next fuel rest
  afford : ∀ (x : Int) rest, 0 ≤ x → (bulkFuelUnits (next (some x) rest * unit) : Int) ≤ x + 1
  whole : ∀ fuel rest, next fuel rest < rest → grain ∣ next fuel rest

theorem plainChunk_ok : ChunkOk plainChunk 1 itemsPerFuel where
  le fuel rest _ := Nat.le_trans (bulkFuelLimit_le _ _) (Nat.min_le_left _ _)
  pos fuel rest hr hf := bulkFuelLimit_pos (by unfold checkInterval; omega) hf
  afford x rest hx := by
    rw [Nat.mul_one]
    exact bulkFuelLimit_afford hx _ (by unfold uint64Max checkInterval; omega)
  whole fuel rest h := by
    unfold plainChunk bulkFuelLimit itemsPerFuel checkInterval at *
    cases fuel with
    | none =>
      dsimp only at h ⊢
      omega
    | some x =>
      dsimp only at h ⊢
      split at h <;> rename_i hx
      · simp [hx]
      · rw [if_neg hx]
        split at h <;> rename_i hbig
        · rw [if_pos hbig]
          omega
        · rw [if_neg hbig]
          omega

section Chunks

variable {esz : Nat} (hesz : 0 < esz) (hsmall : esz ≤ itemsPerFuel)

include hesz hsmall

theorem arrayChunk_ok : ChunkOk (arrayChunk esz) 1 esz where
  le fuel rest _ := Nat.min_le_right _ _
  pos fuel rest hr hf := by
    unfold arrayChunk
    dsimp only
    split
    · have := Nat.mod_lt (bulkFuelLimit fuel (min rest checkInterval)) hesz
      omega
    · omega
  afford x rest hx := by
    have hlimit := bulkFuelLimit_afford hx (min rest checkInterval)
      (by unfold uint64Max checkInterval; omega)
    have hone : bulkFuelUnits esz ≤ 1 := by
      unfold bulkFuelUnits itemsPerFuel at *
      omega
    unfold arrayChunk
    dsimp only
    rw [Nat.mul_one]
    split
    · have := bulkFuelUnits_mono (a := min (bulkFuelLimit (some x) (min rest checkInterval) -
        bulkFuelLimit (some x) (min rest checkInterval) % esz) rest)
        (b := bulkFuelLimit (some x) (min rest checkInterval)) (by omega)
      omega
    · have := bulkFuelUnits_mono (Nat.min_le_left esz rest)
      omega
  whole fuel rest h := by
    unfold arrayChunk at h ⊢
    dsimp only at h ⊢
    rw [Nat.min_eq_left (by omega)]
    split
    · exact Nat.dvd_sub_mod _
    · exact Nat.dvd_refl _

theorem fillChunk_ok : ChunkOk (fillChunk esz) esz 1 where
  le fuel rest hr := by
    unfold fillChunk
    dsimp only
    split
    · rename_i hlt
      split
      · have hdiv : bulkFuelLimit fuel (min rest checkInterval * esz) / esz < min rest checkInterval :=
          Nat.div_lt_of_lt_mul (by rw [Nat.mul_comm esz]; exact hlt)
        omega
      · omega
    · exact Nat.min_le_left _ _
  pos fuel rest hr hf := by
    unfold fillChunk
    dsimp only
    split
    · split
      · exact Nat.div_pos (by omega) hesz
      · exact Nat.one_pos
    · unfold checkInterval
      omega
  afford x rest hx := by
    have hone : bulkFuelUnits esz ≤ 1 := by
      unfold bulkFuelUnits itemsPerFuel at *
      omega
    have hle : min rest checkInterval * esz ≤ uint64Max := by
      have : min rest checkInterval * esz ≤ checkInterval * itemsPerFuel :=
        Nat.mul_le_mul (Nat.min_le_right _ _) hsmall
      unfold uint64Max
      unfold checkInterval itemsPerFuel at *
      omega
    have hlimit := bulkFuelLimit_afford hx _ hle
    unfold fillChunk
    dsimp only
    split
    · split
      · have := bulkFuelUnits_mono (Nat.div_mul_le_self (bulkFuelLimit (some x) (min rest checkInterval * esz)) esz)
        omega
      · rw [Nat.one_mul]
        omega
    · rename_i hge
      have := bulkFuelUnits_mono (Nat.le_of_not_lt hge)
      omega
  whole _ _ _ := Nat.one_dvd _

end Chunks

/-! ## Ranges -/

/-- `wah_u64_range_in_bounds` -/
def u64RangeInBounds (offset size limit : Nat) : Bool := offset ≤ limit && size ≤ limit - offset

theorem u64RangeInBounds_iff {offset size limit : Nat} :
    u64RangeInBounds offset size limit = true ↔ offset + size ≤ limit := by
  unfold u64RangeInBounds
  rw [Bool.and_eq_true, decide_eq_true_eq, decide_eq_true_eq]
  omega

/-! ## The loop -/

/-- `wah_bulk_fuel_charge` of so many units -/
def bulkFuelCharge (fuel : Option Int) (units : Nat) : Option Int := fuel.map fun f => f - (units : Int)

/-- what the loop returns: items handled, units charged -/
structure Looped (σ : Type) where
  done : Nat
  cost : Nat
  state : σ

section Loop

variable {σ : Type} (next : Option Int → Nat → Nat) (unit : Nat) (act : Nat → Nat → σ → σ) (flags : Nat → Bool)
  (size : Nat)

/-- the loop of a bulk operation from item `done` on, at its `k`-th check; `unit` is what an item is charged as. `n` bounds
the number of chunks. -/
def chunkLoop : Nat → Nat → Nat → Option Int → σ → Looped σ
  | 0, _, done, _, s => ⟨done, 0, s⟩
  | n + 1, k, done, fuel, s =>
    if done < size then
      let chunk := next fuel (size - done)
      let units := bulkFuelUnits (chunk * unit)
      if done + chunk < size && bulkShouldStop (bulkFuelCharge fuel units) (flags k) then
        ⟨done + chunk, units, act done chunk s⟩
      else
        let r := chunkLoop n (k + 1) (done + chunk) (bulkFuelCharge fuel units) (act done chunk s)
        { r with cost := units + r.cost }
    else ⟨size, 0, s⟩

/-- what a chunk leads to -/
inductive Chunked (n k done : Nat) (fuel : Option Int) (s : σ) (r : Looped σ) : Prop where
  | stop {chunk : Nat} (hc : next fuel (size - done) = chunk) (hlt : done + chunk < size)
      (hstop : bulkShouldStop (bulkFuelCharge fuel (bulkFuelUnits (chunk * unit))) (flags k) = true)
      (hr : r = ⟨done + chunk, bulkFuelUnits (chunk * unit), act done chunk s⟩)
  | last {chunk : Nat} (hc : next fuel (size - done) = chunk) (hlast : done + chunk = size)
      (hr : r = ⟨size, bulkFuelUnits (chunk * unit), act done chunk s⟩)
  | more {chunk : Nat} (hc : next fuel (size - done) = chunk) (hlt : done + chunk < size) (hpos : 0 < chunk)
      (hsolvent : Ration.Solvent fuel) (hleft : Ration.Solvent (bulkFuelCharge fuel (bulkFuelUnits (chunk * unit))))
      {rest : Looped σ}
      (hrest : rest = chunkLoop next unit act flags size n (k + 1) (done + chunk)
        (bulkFuelCharge fuel (bulkFuelUnits (chunk * unit))) (act done chunk s))
      (hr : r = ⟨rest.done, bulkFuelUnits (chunk * unit) + rest.cost, rest.state⟩)

/-- what the loop has done from item `done` on -/
structure LoopOk (grain done : Nat) (fuel : Option Int) (s : σ) (r : Looped σ) : Prop where
  ge : done ≤ r.done
  le : r.done ≤ size
  state : r.state = act done (r.done - done) s
  aligned : r.done < size → grain ∣ r.done - done
  progress : done < size → Ration.Solvent fuel → done < r.done
  /-- for an interrupt, or without fuel -/
  stopped : r.done < size → (∃ k, flags k = true) ∨ ∃ x ∈ fuel, x - r.cost < 0
  overdrawn : ∀ x ∈ fuel, 0 ≤ x → -1 ≤ x - r.cost

variable {next unit act flags size} {grain n k done : Nat} {fuel : Option Int} {s : σ}

theorem mem_bulkFuelCharge {x : Int} (hx : x ∈ fuel) (units : Nat) : x - (units : Int) ∈ bulkFuelCharge fuel units := by
  cases hx
  exact rfl

theorem solvent_of_charge {units : Nat} (h : Ration.Solvent (bulkFuelCharge fuel units)) : Ration.Solvent fuel := by
  intro x hx
  have := h _ (mem_bulkFuelCharge hx units)
  omega

/-- the loop stops if the fuel is overdrawn -/
theorem solvent_of_not_stop {flag : Bool} (h : ¬ bulkShouldStop fuel flag = true) : Ration.Solvent fuel := by
  intro x hx
  cases hx
  rw [bulkShouldStop, Bool.or_eq_true, not_or] at h
  simpa using h.2

theorem stop_cases {flag : Bool} (h : bulkShouldStop fuel flag = true) : flag = true ∨ ∃ x ∈ fuel, x < 0 := by
  rw [bulkShouldStop, Bool.or_eq_true] at h
  rcases h with h | h
  · exact Or.inl h
  · cases fuel with
    | none => simp at h
    | some x => exact Or.inr ⟨x, rfl, by simpa using h⟩

theorem chunkLoop_all (n k : Nat) (fuel : Option Int) (s : σ) :
    chunkLoop next unit act flags size n k size fuel s = ⟨size, 0, s⟩ := by
  cases n with
  | zero => rfl
  | succ n => rw [chunkLoop, if_neg (Nat.lt_irrefl _)]

theorem chunkLoop_chunk (act : Nat → Nat → σ → σ) (flags : Nat → Bool) (n k : Nat) (s : σ)
    (hchunk : ChunkOk next unit grain) (hlt : done < size) :
    Chunked next unit act flags size n k done fuel s (chunkLoop next unit act flags size (n + 1) k done fuel s) := by
  have hle := hchunk.le fuel (size - done) (by omega)
  rw [chunkLoop, if_pos hlt]
  dsimp only
  by_cases hmore : done + next fuel (size - done) < size
  · split <;> rename_i hstop <;> rw [decide_eq_true hmore, Bool.true_and] at hstop
    · exact .stop rfl hmore hstop rfl
    · have hleft := solvent_of_not_stop hstop
      have hsolvent := solvent_of_charge hleft
      exact .more rfl hmore (hchunk.pos fuel _ (by omega) hsolvent) hsolvent hleft rfl rfl
  · have hlast : done + next fuel (size - done) = size := by omega
    rw [if_neg (by simp [hmore]), hlast, chunkLoop_all]
    exact .last rfl hlast rfl

theorem chunkLoop_spec (hchunk : ChunkOk next unit grain) (hadd : Additive size act) (flags : Nat → Bool) (k : Nat)
    (fuel : Option Int) (s : σ) (hdone : done ≤ size) (hn : size - done ≤ n) :
    LoopOk act flags size grain done fuel s (chunkLoop next unit act flags size n k done fuel s) := by
  induction n generalizing done k fuel s with
  | zero =>
    obtain rfl : done = size := by omega
    exact ⟨Nat.le_refl _, Nat.le_refl _, by simp [chunkLoop, hadd.zero], fun h => absurd h (Nat.lt_irrefl _),
      fun h => absurd h (Nat.lt_irrefl _), fun h => absurd h (Nat.lt_irrefl _), fun x _ hx => by simp [chunkLoop]; omega⟩
  | succ n ih =>
    rcases Nat.eq_or_lt_of_le hdone with rfl | hlt
    · rw [chunkLoop_all]
      exact ⟨Nat.le_refl _, Nat.le_refl _, by simp [hadd.zero], fun h => absurd h (Nat.lt_irrefl _),
        fun h => absurd h (Nat.lt_irrefl _), fun h => absurd h (Nat.lt_irrefl _), fun x _ hx => by simp; omega⟩
    have hafford : ∀ (x : Int) {chunk : Nat}, next fuel (size - done) = chunk → x ∈ fuel → 0 ≤ x →
        -1 ≤ x - (bulkFuelUnits (chunk * unit) : Int) := by
      intro x chunk hc hx h0
      cases hx
      have := hchunk.afford x (size - done) h0
      rw [hc] at this
      omega
    cases chunkLoop_chunk act flags n k s hchunk hlt with
    | @stop chunk hc hlt' hstop hr =>
      rw [hr]
      refine ⟨Nat.le_add_right _ _, Nat.le_of_lt hlt', by simp, fun _ => ?_, fun _ hf => ?_, fun _ => ?_,
        fun x hx h0 => hafford x hc hx h0⟩
      · have := hchunk.whole fuel (size - done) (by omega)
        rw [hc] at this
        simpa using this
      · have := hchunk.pos fuel (size - done) (by omega) hf
        rw [hc] at this
        exact Nat.lt_add_of_pos_right this
      · rcases stop_cases hstop with h | ⟨y, hy, hneg⟩
        · exact Or.inl ⟨k, h⟩
        · simp only [bulkFuelCharge, Option.mem_def, Option.map_eq_some_iff] at hy
          obtain ⟨x, hx, rfl⟩ := hy
          exact Or.inr ⟨x, hx, hneg⟩
    | @last chunk hc hlast hr =>
      rw [hr]
      refine ⟨hdone, Nat.le_refl _, ?_, fun h => absurd h (Nat.lt_irrefl _), fun _ _ => hlt,
        fun h => absurd h (Nat.lt_irrefl _), fun x hx h0 => hafford x hc hx h0⟩
      rw [← hlast, Nat.add_sub_cancel_left]
    | @more chunk hc hlt' hpos hsolvent hleft rest hrest hr =>
      obtain ⟨hge, hle, hstate, haligned, -, hstopped, hover⟩ := hrest ▸ ih (k + 1)
        (bulkFuelCharge fuel (bulkFuelUnits (chunk * unit))) (act done chunk s) (by omega : done + chunk ≤ size) (by omega)
      obtain ⟨d, hd⟩ := Nat.exists_eq_add_of_le hge
      rw [hr]
      refine ⟨by dsimp only; omega, hle, ?_, fun hstop => ?_, fun _ _ => by dsimp only; omega, fun hstop => ?_,
        fun x hx h0 => ?_⟩
      · rw [hstate, hadd.add done chunk _ s (by omega)]
        dsimp only
        congr 1
        omega
      · have h1 := haligned hstop
        have h2 := hchunk.whole fuel (size - done) (by omega)
        rw [hc] at h2
        have hsplit : rest.done - done = chunk + (rest.done - (done + chunk)) := by omega
        rw [hsplit]
        exact Nat.dvd_add h2 h1
      · rcases hstopped hstop with h | ⟨y, hy, hneg⟩
        · exact Or.inl h
        · simp only [bulkFuelCharge, Option.mem_def, Option.map_eq_some_iff] at hy
          obtain ⟨x, hx, rfl⟩ := hy
          exact Or.inr ⟨x, hx, by push_cast; omega⟩
      · have := hover _ (mem_bulkFuelCharge hx _) (hleft _ (mem_bulkFuelCharge hx _))
        push_cast
        omega

/-- what is done does not depend on the items -/
theorem chunkLoop_done {τ : Type} (act' : Nat → Nat → τ → τ) (fuel : Option Int) (s : σ) (t : τ) :
    (chunkLoop next unit act flags size n k done fuel s).done =
      (chunkLoop next unit act' flags size n k done fuel t).done := by
  induction n generalizing k done fuel s t with
  | zero => rfl
  | succ n ih =>
    rw [chunkLoop, chunkLoop]
    split_ifs with hlt
    · dsimp only
      split_ifs
      · rfl
      · exact ih _ _ _
    · rfl

/-- chunks of whole units cost together what their items cost -/
theorem chunkLoop_cost (hchunk : ChunkOk next 1 itemsPerFuel) (hadd : Additive size act) (flags : Nat → Bool)
    (k : Nat) (fuel : Option Int) (s : σ) (hdone : done ≤ size) (hn : size - done ≤ n) :
    (chunkLoop next 1 act flags size n k done fuel s).cost =
      bulkFuelUnits ((chunkLoop next 1 act flags size n k done fuel s).done - done) := by
  have hzero : bulkFuelUnits 0 = 0 := rfl
  induction n generalizing done k fuel s with
  | zero =>
    rw [chunkLoop, Nat.sub_self, hzero]
  | succ n ih =>
    rcases Nat.eq_or_lt_of_le hdone with rfl | hlt
    · rw [chunkLoop_all, Nat.sub_self, hzero]
    cases chunkLoop_chunk act flags n k s hchunk hlt with
    | @stop chunk hc hlt' hstop hr =>
      rw [hr, Nat.mul_one, Nat.add_sub_cancel_left]
    | @last chunk hc hlast hr =>
      rw [hr, Nat.mul_one, ← hlast, Nat.add_sub_cancel_left]
    | @more chunk hc hlt' hpos hsolvent hleft rest hrest hr =>
      have hcost := ih (k + 1) (bulkFuelCharge fuel (bulkFuelUnits (chunk * 1))) (act done chunk s)
        (by omega : done + chunk ≤ size) (by omega)
      have hge := (chunkLoop_spec hchunk hadd flags (k + 1) (bulkFuelCharge fuel (bulkFuelUnits (chunk * 1)))
        (act done chunk s) (by omega : done + chunk ≤ size) (by omega : size - (done + chunk) ≤ n)).ge
      rw [← hrest] at hcost hge
      have hwhole := hchunk.whole fuel (size - done) (by omega)
      rw [hc] at hwhole
      have hsplit : rest.done - done = chunk + (rest.done - (done + chunk)) := by omega
      rw [hr, Nat.mul_one, hcost, hsplit, bulkFuelUnits_add _ hwhole]

end Loop

/-! ## Operations -/

/-- `WAH_ERROR_MEMORY_OUT_OF_BOUNDS` and `WAH_ERROR_TRAP`; anything else is ruled out by validation -/
inductive BulkFault where
  | memoryOutOfBounds | trap | invalid
deriving DecidableEq, Repr

/-- the loop of an operation -/
structure Sweep (σ : Type) where
  next : Option Int → Nat → Nat := plainChunk
  /-- what an item is charged as -/
  unit : Nat := 1
  /-- it stops at multiples of so many items only -/
  grain : Nat := itemsPerFuel
  size : Nat
  act : Nat → Nat → σ → σ
  /-- operands pushed once so many items are handled -/
  rest : Nat → List Nat

section Sweep

variable {σ : Type}

/-- an operation up to its end or `WAH_BULK_YIELD` -/
def Sweep.run (w : Sweep σ) (b : Ration) (s : σ) : Visited (List Nat × σ) σ BulkFault :=
  let r := chunkLoop w.next w.unit w.act b.flags w.size w.size 0 0 b.fuel s
  if r.done < w.size then .part (w.rest r.done, r.state) r.cost else .done r.state r.cost

/-- an operation on its operands: it fails, or sets out on a sweep -/
def sweeps (op : List Nat → σ → Except BulkFault (Sweep σ)) (b : Ration) (x : List Nat × σ) :
    Visited (List Nat × σ) σ BulkFault :=
  match op x.1 x.2 with
  | .error e => .fail e x
  | .ok w => w.run b x.2

/-- items an operation still has to handle -/
def itemsLeft (op : List Nat → σ → Except BulkFault (Sweep σ)) (x : List Nat × σ) : Nat :=
  match op x.1 x.2 with
  | .error _ => 0
  | .ok w => w.size

/-- what an operation costs by its items -/
def itemsPrice (op : List Nat → σ → Except BulkFault (Sweep σ)) (x : List Nat × σ) : Nat :=
  bulkFuelUnits (itemsLeft op x)

/-- wherever a sweep may stop, its operands lead to a sweep over the rest -/
structure Sweep.Ok (op : List Nat → σ → Except BulkFault (Sweep σ)) (w : Sweep σ) (s : σ) : Prop where
  chunk : ChunkOk w.next w.unit w.grain
  additive : Additive w.size w.act
  rest : ∀ d, d < w.size → w.grain ∣ d → ∃ w', op (w.rest d) (w.act 0 d s) = .ok w' ∧ w'.size = w.size - d ∧
    w'.act 0 w'.size (w.act 0 d s) = w.act 0 w.size s

/-- on its operands, an operation does the whole by a sweep -/
def BySweep (op : List Nat → σ → Except BulkFault (Sweep σ)) (whole : List Nat × σ → Except BulkFault σ)
    (args : List Nat) (s : σ) : Prop :=
  match op args s with
  | .error e => whole (args, s) = .error e
  | .ok w => whole (args, s) = .ok (w.act 0 w.size s) ∧ w.Ok op s

def Sweeps (op : List Nat → σ → Except BulkFault (Sweep σ)) (whole : List Nat × σ → Except BulkFault σ) : Prop :=
  ∀ args s, BySweep op whole args s

variable {op : List Nat → σ → Except BulkFault (Sweep σ)} {whole : List Nat × σ → Except BulkFault σ}

theorem BySweep.fails {args : List Nat} {s : σ} {e : BulkFault} (he : op args s = .error e)
    (hw : whole (args, s) = .error e) : BySweep op whole args s := by
  rw [BySweep, he]
  exact hw

theorem BySweep.does {args : List Nat} {s : σ} {w : Sweep σ} (hw : op args s = .ok w)
    (hall : whole (args, s) = .ok (w.act 0 w.size s)) (hok : w.Ok op s) : BySweep op whole args s := by
  rw [BySweep, hw]
  exact ⟨hall, hok⟩

theorem Sweeps.error (h : Sweeps op whole) {args : List Nat} {s : σ} {e : BulkFault} (he : op args s = .error e) :
    whole (args, s) = .error e := by
  have := h args s
  rwa [BySweep, he] at this

theorem Sweeps.ok (h : Sweeps op whole) {args : List Nat} {s : σ} {w : Sweep σ} (hw : op args s = .ok w) :
    whole (args, s) = .ok (w.act 0 w.size s) ∧ w.Ok op s := by
  have := h args s
  rwa [BySweep, hw] at this

/-- where a sweep stops -/
theorem Sweep.Ok.run {w : Sweep σ} {s : σ} (h : w.Ok op s) (b : Ration) :
    (∃ cost, w.run b s = .done (w.act 0 w.size s) cost) ∨
    ∃ d cost, w.run b s = .part (w.rest d, w.act 0 d s) cost ∧ d < w.size ∧ w.grain ∣ d ∧
      (Ration.Solvent b.fuel → 0 < d) := by
  have hspec := chunkLoop_spec h.chunk h.additive b.flags 0 b.fuel s (Nat.zero_le _) (Nat.le_refl w.size)
  unfold Sweep.run
  dsimp only
  generalize chunkLoop w.next w.unit w.act b.flags w.size w.size 0 0 b.fuel s = r at hspec
  have hstate := hspec.state
  rw [Nat.sub_zero] at hstate
  split
  · rename_i hlt
    refine Or.inr ⟨r.done, r.cost, by rw [hstate], hlt, ?_, hspec.progress (by omega)⟩
    simpa using hspec.aligned hlt
  · rename_i hge
    have hall := Nat.le_antisymm hspec.le (Nat.le_of_not_lt hge)
    exact Or.inl ⟨r.cost, by rw [hstate, hall]⟩

/-- what a visit of an operation comes to -/
inductive SweepVisit (op : List Nat → σ → Except BulkFault (Sweep σ)) (b : Ration) (x : List Nat × σ) :
    Visited (List Nat × σ) σ BulkFault → Prop where
  | fail {e : BulkFault} (he : op x.1 x.2 = .error e) : SweepVisit op b x (.fail e x)
  | done {w : Sweep σ} {cost : Nat} (hw : op x.1 x.2 = .ok w) : SweepVisit op b x (.done (w.act 0 w.size x.2) cost)
  | part {w w' : Sweep σ} {d cost : Nat} (hw : op x.1 x.2 = .ok w) (hd : d < w.size)
      (hpos : Ration.Solvent b.fuel → 0 < d) (hw' : op (w.rest d) (w.act 0 d x.2) = .ok w') (hsize : w'.size = w.size - d)
      (hall : w'.act 0 w'.size (w.act 0 d x.2) = w.act 0 w.size x.2) :
      SweepVisit op b x (.part (w.rest d, w.act 0 d x.2) cost)

theorem Sweeps.visit (h : Sweeps op whole) (b : Ration) (x : List Nat × σ) : SweepVisit op b x (sweeps op b x) := by
  rw [sweeps]
  split
  · rename_i e he
    exact .fail he
  · rename_i w hw
    obtain ⟨-, hok⟩ := h.ok hw
    rcases hok.run b with ⟨cost, hr⟩ | ⟨d, cost, hr, hd, hgrain, hpos⟩
    · rw [hr]
      exact .done hw
    · rw [hr]
      obtain ⟨w', hw', hsize, hall⟩ := hok.rest d hd hgrain
      exact .part hw hd hpos hw' hsize hall

/-- stopping an operation does not change what it comes to -/
theorem Sweeps.lawful (h : Sweeps op whole) : Lawful whole (sweeps op) where
  done b x r cost hv := by
    cases hv ▸ h.visit b x with
    | done hw => exact (h.ok hw).1
  part b x x' cost hv := by
    cases hv ▸ h.visit b x with
    | part hw hd hpos hw' hsize hall => exact ⟨_, (h.ok hw).1, hall ▸ (h.ok hw').1⟩
  fail b x e x' hv := by
    cases hv ▸ h.visit b x with
    | fail he => exact ⟨h.error he, rfl⟩

/-- visits handle some items, unless the fuel was overdrawn before -/
theorem Sweeps.left (h : Sweeps op whole) {b : Ration} {x x' : List Nat × σ} {cost : Nat}
    (hv : sweeps op b x = .part x' cost) :
    itemsLeft op x' ≤ itemsLeft op x ∧ (Ration.Solvent b.fuel → itemsLeft op x' < itemsLeft op x) := by
  cases hv ▸ h.visit b x with
  | @part w w' d _ hw hd hpos hw' hsize _ =>
    simp only [itemsLeft, hw, hw', hsize]
    exact ⟨Nat.sub_le _ _, fun hb => by have := hpos hb; omega⟩

/-- sweeps by chunks of whole units pay for their items once -/
theorem Sweeps.priced (h : Sweeps op whole)
    (hplain : ∀ args s w, op args s = .ok w → w.unit = 1 ∧ w.grain = itemsPerFuel) :
    Priced (itemsPrice op) (sweeps op) where
  done b x r cost hv := by
    rw [sweeps] at hv
    split at hv
    · cases hv
    · rename_i w hw
      obtain ⟨hunit, hgrain⟩ := hplain _ _ _ hw
      have hok := (h.ok hw).2
      have hcost := chunkLoop_cost (hunit ▸ hgrain ▸ hok.chunk) hok.additive b.flags 0 b.fuel x.2 (Nat.zero_le _)
        (Nat.le_refl w.size)
      have hspec := chunkLoop_spec hok.chunk hok.additive b.flags 0 b.fuel x.2 (Nat.zero_le _) (Nat.le_refl w.size)
      rw [Sweep.run, hunit] at hv
      rw [hunit] at hspec
      split at hv
      · cases hv
      · rename_i hge
        have hall := Nat.le_antisymm hspec.le (Nat.le_of_not_lt hge)
        cases hv
        rw [hcost, hall, itemsPrice, itemsLeft, hw, Nat.sub_zero]
  part b x x' cost hv := by
    rw [sweeps] at hv
    split at hv
    · cases hv
    · rename_i w hw
      obtain ⟨hunit, hgrain⟩ := hplain _ _ _ hw
      have hok := (h.ok hw).2
      have hcost := chunkLoop_cost (hunit ▸ hgrain ▸ hok.chunk) hok.additive b.flags 0 b.fuel x.2 (Nat.zero_le _)
        (Nat.le_refl w.size)
      have hspec := chunkLoop_spec hok.chunk hok.additive b.flags 0 b.fuel x.2 (Nat.zero_le _) (Nat.le_refl w.size)
      rw [Sweep.run, hunit] at hv
      rw [hunit] at hspec
      generalize chunkLoop w.next 1 w.act b.flags w.size w.size 0 0 b.fuel x.2 = r at hv hcost hspec
      split at hv
      · rename_i hlt
        have hdvd := hspec.aligned hlt
        have hstate := hspec.state
        rw [Nat.sub_zero] at hdvd hstate hcost
        obtain ⟨w', hw', hsize, -⟩ := hok.rest r.done hlt hdvd
        cases hv
        have hleft : itemsLeft op x = r.done + itemsLeft op (w.rest r.done, r.state) := by
          simp only [itemsLeft, hw, hstate, hw', hsize]
          omega
        rw [itemsPrice, itemsPrice, hleft, bulkFuelUnits_add _ (hgrain ▸ hdvd), hcost]
      · cases hv

end Sweep

end Wah
