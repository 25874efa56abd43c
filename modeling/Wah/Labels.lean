/-
Names of the plan: which are in use, which are resolved, and what stands where they lead.

`Plan.WF` holds after every instruction of an accepted body (`planInstr_wf`): a target in the code is the header of a
loop, a construct that is still open, or a resolved name; constructs have distinct names. In metered code every
resolved name leads to a record with a METER (`Plan.Lands`), except for the function's END.
-/
import Wah.Records

namespace Wah

/-- instructions a record can hold: POLL, METER and TICK are put there by the layout -/
def LInstr.IsMain {τ : Type} : LInstr τ → Prop
  | .poll _ | .meter _ _ | .tick _ => False
  | _ => True

/-- constructs opened before instruction `ii` -/
def Target.Below (ii : Nat) : Target → Prop
  | .record _ | .func => True
  | .endOf id | .falseOf id => id < ii

theorem Target.Below.mono {ii jj : Nat} {t : Target} (h : t.Below ii) (hij : ii ≤ jj) : t.Below jj := by
  cases t <;> simp only [Target.Below] at * <;> omega

namespace Plan

/-- a record that exists, or the next one; in metered code it starts a chunk -/
def Lands (p : Plan) (r : Nat) : Prop :=
  (∃ rec, p.records[r]? = some rec ∧ (p.emitMeter = true → rec.meter = true)) ∨
    (r = p.size ∧ (p.emitMeter = true → p.needNewChunk = true))

/-- a name that stands for an open construct or for a record -/
def Known (p : Plan) : Target → Prop
  | .func => True
  | .record r => r < p.size ∧ p.Lands r
  | .endOf id => (∃ g ∈ p.ctrl, g.id = id ∧ g.opcode ≠ .loop ∧ g.isTarget = true) ∨
      ∃ r, (.endOf id, r) ∈ p.ends ∧ p.Lands r
  | .falseOf id => (∃ g ∈ p.ctrl, g.id = id ∧ g.opcode = .if_) ∨ ∃ r, (.falseOf id, r) ∈ p.ends ∧ p.Lands r

/-- invariant of the plan after `ii` instructions -/
structure WF (ii : Nat) (p : Plan) : Prop where
  known : ∀ i ∈ layout p.records, ∀ t ∈ i.targets, p.Known t
  ends : ∀ e ∈ p.ends, e.1.Below ii ∧ e.2 ≤ p.size
  ids : ∀ g ∈ p.ctrl, g.id < ii
  headers : ∀ g ∈ p.ctrl, g.opcode = .loop → g.header < p.size ∧ p.Lands g.header
  unresolved : ∀ g ∈ p.ctrl, ∀ e ∈ p.ends, e.1 ≠ .endOf g.id ∧ (g.opcode = .if_ → e.1 ≠ .falseOf g.id)
  nodup : (p.ctrl.map PFrame.id).Nodup
  distinct : (p.ends.map Prod.fst).Nodup
  trims : ∀ g ∈ p.ctrl, g.needsTrim = true → g.opcode ≠ .loop → g.isTarget = true
  mains : ∀ rec ∈ p.records, (rec.meter = true → p.emitMeter = true) ∧ ∀ i ∈ rec.main, i.IsMain

end Plan

theorem layout_append (rs rs' : List Record) : layout (rs ++ rs') = layout rs ++ layout rs' := by
  simp [layout]

theorem layout_singleton (r : Record) : layout [r] = r.code := by simp [layout]

/-- the record appended by the plan -/
def newRecord (p : Plan) (pre poll : Option Nat) (main : Option (LInstr Target)) (map : Option Nat) : Record :=
  ⟨pre, p.emitMeter && p.needNewChunk, poll, main, map.getD uint32Max⟩

theorem add_records (p : Plan) (pre poll : Option Nat) (main : Option (LInstr Target)) (map : Option Nat) :
    (p.add pre poll main map).records = p.records ++ [newRecord p pre poll main map] := by
  unfold Plan.add newRecord
  dsimp only
  repeat' split
  all_goals rfl

namespace Plan

variable {p : Plan} {ii : Nat}

/-! ## Fields -/

@[simp] theorem add_ctrl (p : Plan) (pre poll : Option Nat) (main : Option (LInstr Target)) (map : Option Nat) :
    (p.add pre poll main map).ctrl = p.ctrl := by
  unfold Plan.add; dsimp only; repeat' split
  all_goals rfl

@[simp] theorem add_ends (p : Plan) (pre poll : Option Nat) (main : Option (LInstr Target)) (map : Option Nat) :
    (p.add pre poll main map).ends = p.ends := by
  unfold Plan.add; dsimp only; repeat' split
  all_goals rfl

@[simp] theorem add_tryDepth (p : Plan) (pre poll : Option Nat) (main : Option (LInstr Target)) (map : Option Nat) :
    (p.add pre poll main map).tryDepth = p.tryDepth := by
  unfold Plan.add; dsimp only; repeat' split
  all_goals rfl

@[simp] theorem add_emitMeter (p : Plan) (pre poll : Option Nat) (main : Option (LInstr Target)) (map : Option Nat) :
    (p.add pre poll main map).emitMeter = p.emitMeter := by
  unfold Plan.add; dsimp only; repeat' split
  all_goals rfl

@[simp] theorem add_size (p : Plan) (pre poll : Option Nat) (main : Option (LInstr Target)) (map : Option Nat) :
    (p.add pre poll main map).size = p.size + 1 := by
  simp [size, add_records]

@[simp] theorem closeChunk_records (p : Plan) : p.closeChunk.records = p.records := by
  unfold closeChunk; split <;> rfl

@[simp] theorem closeChunk_ctrl (p : Plan) : p.closeChunk.ctrl = p.ctrl := by
  unfold closeChunk; split <;> rfl

@[simp] theorem closeChunk_ends (p : Plan) : p.closeChunk.ends = p.ends := by
  unfold closeChunk; split <;> rfl

@[simp] theorem closeChunk_tryDepth (p : Plan) : p.closeChunk.tryDepth = p.tryDepth := by
  unfold closeChunk; split <;> rfl

@[simp] theorem closeChunk_emitMeter (p : Plan) : p.closeChunk.emitMeter = p.emitMeter := by
  unfold closeChunk; split <;> rfl

@[simp] theorem closeChunk_size (p : Plan) : p.closeChunk.size = p.size := by simp [size]

theorem closeChunk_needNewChunk (p : Plan) : p.closeChunk.needNewChunk = (p.emitMeter || p.needNewChunk) := by
  cases h : p.emitMeter <;> simp [closeChunk, h]

theorem closeChunk_cost (p : Plan) : p.closeChunk.cost = if p.emitMeter then 0 else p.cost := by
  cases h : p.emitMeter <;> simp [closeChunk, h]

theorem closeChunk_need (p : Plan) (h : p.emitMeter = true) : p.closeChunk.needNewChunk = true := by
  simp [closeChunk, h]

/-! ## Names survive -/

/-- nothing that was known is lost -/
structure Grows (p q : Plan) : Prop where
  lands : ∀ r, p.Lands r → q.Lands r
  size : p.size ≤ q.size
  open_ : ∀ g ∈ p.ctrl, ∃ g' ∈ q.ctrl, g'.id = g.id ∧ g'.opcode = g.opcode ∧ g'.header = g.header ∧
    (g.isTarget = true → g'.isTarget = true)
  ends : ∀ e ∈ p.ends, e ∈ q.ends

theorem Grows.known {q : Plan} (h : Grows p q) {t : Target} (ht : p.Known t) : q.Known t := by
  cases t with
  | func => trivial
  | record r => exact ⟨Nat.lt_of_lt_of_le ht.1 h.size, h.lands r ht.2⟩
  | endOf id =>
    rcases ht with ⟨g, hg, hid, hop, hit⟩ | ⟨r, hr, hl⟩
    · obtain ⟨g', hg', h1, h2, -, h3⟩ := h.open_ g hg
      exact .inl ⟨g', hg', h1.trans hid, h2 ▸ hop, h3 hit⟩
    · exact .inr ⟨r, h.ends _ hr, h.lands r hl⟩
  | falseOf id =>
    rcases ht with ⟨g, hg, hid, hop⟩ | ⟨r, hr, hl⟩
    · obtain ⟨g', hg', h1, h2, -, -⟩ := h.open_ g hg
      exact .inl ⟨g', hg', h1.trans hid, h2.trans hop⟩
    · exact .inr ⟨r, h.ends _ hr, h.lands r hl⟩

theorem lands_add (p : Plan) (pre poll : Option Nat) (main : Option (LInstr Target)) (map : Option Nat) {r : Nat}
    (h : p.Lands r) : (p.add pre poll main map).Lands r := by
  rcases h with ⟨rec, hr, hm⟩ | ⟨rfl, hn⟩
  · refine .inl ⟨rec, ?_, by simpa using hm⟩
    rw [add_records, List.getElem?_append_left (List.getElem?_eq_some_iff.mp hr).1]
    exact hr
  · refine .inl ⟨newRecord p pre poll main map, by simp [add_records, size], fun he => ?_⟩
    have he' : p.emitMeter = true := by simpa using he
    simp [newRecord, he', hn he']

theorem grows_add (p : Plan) (pre poll : Option Nat) (main : Option (LInstr Target)) (map : Option Nat) :
    Grows p (p.add pre poll main map) :=
  ⟨fun _ => lands_add p pre poll main map, by simp, fun g hg => ⟨g, by simpa using hg, rfl, rfl, rfl, id⟩,
    fun e he => by simpa using he⟩

theorem lands_closeChunk {r : Nat} (h : p.Lands r) : p.closeChunk.Lands r := by
  rcases h with ⟨rec, hr, hm⟩ | ⟨rfl, hn⟩
  · exact .inl ⟨rec, by simpa using hr, by simpa using hm⟩
  · exact .inr ⟨by simp, fun he => closeChunk_need p (by simpa using he)⟩

/-- the record after a chunk's end starts the next one -/
theorem lands_closeChunk_size (p : Plan) : p.closeChunk.Lands p.size :=
  .inr ⟨by simp, fun he => closeChunk_need p (by simpa using he)⟩

theorem grows_closeChunk (p : Plan) : Grows p p.closeChunk :=
  ⟨fun _ => lands_closeChunk, by simp, fun g hg => ⟨g, by simpa using hg, rfl, rfl, rfl, id⟩,
    fun e he => by simpa using he⟩

theorem mem_mark {l : Nat} {g : PFrame} (hg : g ∈ (p.mark l).ctrl) :
    ∃ g0 ∈ p.ctrl, g.id = g0.id ∧ g.opcode = g0.opcode ∧ g.header = g0.header ∧
      (g.needsTrim = true ∧ g.opcode ≠ .loop → g.isTarget = true ∨ g.needsTrim = g0.needsTrim ∧ g.isTarget = g0.isTarget) := by
  obtain ⟨k, hk⟩ := List.mem_iff_getElem?.mp hg
  simp only [mark, List.getElem?_modify] at hk
  cases hc : p.ctrl[k]? with
  | none => simp [hc] at hk
  | some g0 =>
    refine ⟨g0, List.mem_of_getElem? hc, ?_⟩
    simp only [hc, Option.map_eq_map, Option.map_some, Option.some.injEq] at hk
    subst hk
    split <;> simp +contextual

theorem grows_mark (p : Plan) (l : Nat) : Grows p (p.mark l) := by
  refine ⟨fun _ h => h, Nat.le_refl _, fun g hg => ?_, fun _ h => h⟩
  obtain ⟨k, hk⟩ := List.mem_iff_getElem?.mp hg
  by_cases hl : l = k
  · subst hl
    refine ⟨_, List.mem_iff_getElem?.mpr ⟨l, by simp only [mark, List.getElem?_modify, hk]; rfl⟩, ?_⟩
    simp +contextual
  · exact ⟨g, List.mem_iff_getElem?.mpr ⟨k, by simp [mark, hl, hk]⟩, rfl, rfl, rfl, id⟩

@[simp] theorem map_id_mark (p : Plan) (l : Nat) : (p.mark l).ctrl.map PFrame.id = p.ctrl.map PFrame.id := by
  apply List.ext_getElem?
  intro k
  simp only [mark, List.getElem?_map, List.getElem?_modify]
  cases p.ctrl[k]? <;> simp
  split <;> rfl

@[simp] theorem length_mark (p : Plan) (l : Nat) : (p.mark l).ctrl.length = p.ctrl.length := by simp [mark]

/-! ## Steps that keep the invariant -/

theorem WF.add (h : p.WF ii) (pre poll : Option Nat) (main : Option (LInstr Target)) (map : Option Nat)
    (hm : ∀ i ∈ main, i.IsMain ∧ ∀ t ∈ i.targets, p.Known t) : (p.add pre poll main map).WF ii := by
  have hg := grows_add p pre poll main map
  refine ⟨?_, ?_, by simpa using h.ids, ?_, by simpa using h.unresolved, by simpa using h.nodup, by simpa using h.distinct,
    by simpa using h.trims, ?_⟩
  · intro i hi t ht
    apply hg.known
    rw [add_records, layout_append, layout_singleton] at hi
    rcases List.mem_append.mp hi with hi | hi
    · exact h.known i hi t ht
    · have hcase : i ∈ main ∨ i.targets = [] := by
        simp only [Record.code, Record.head, Record.content, newRecord, List.mem_append, Option.mem_toList,
          Option.map_eq_some_iff] at hi
        rcases hi with (⟨m, -, rfl⟩ | hi) | (⟨m, -, rfl⟩ | hi)
        · exact .inr rfl
        · cases hn : p.emitMeter && p.needNewChunk with
          | false => simp [hn] at hi
          | true =>
            simp only [hn, if_true, List.mem_singleton] at hi
            exact .inr (by rw [hi]; rfl)
        · exact .inr rfl
        · exact .inl hi
      rcases hcase with hi | hi
      · exact (hm i hi).2 t ht
      · simp [hi] at ht
  · intro e he
    obtain ⟨h1, h2⟩ := h.ends e (by simpa using he)
    exact ⟨h1, by simp; omega⟩
  · intro g hgm hop
    obtain ⟨h1, h2⟩ := h.headers g (by simpa using hgm) hop
    exact ⟨by simp; omega, hg.lands _ h2⟩
  · intro rec hrec
    rw [add_records, List.mem_append, List.mem_singleton] at hrec
    rcases hrec with hrec | rfl
    · simpa using h.mains rec hrec
    · exact ⟨by simp +contextual [newRecord], fun i hi => (hm i hi).1⟩

theorem WF.closeChunk (h : p.WF ii) : p.closeChunk.WF ii := by
  have hg := grows_closeChunk p
  refine ⟨?_, by simpa using h.ends, by simpa using h.ids, ?_, by simpa using h.unresolved, by simpa using h.nodup,
    by simpa using h.distinct, by simpa using h.trims, by simpa using h.mains⟩
  · intro i hi t ht
    exact hg.known (h.known i (by simpa using hi) t ht)
  · intro g hgm hop
    obtain ⟨h1, h2⟩ := h.headers g (by simpa using hgm) hop
    exact ⟨by simpa using h1, hg.lands _ h2⟩

theorem WF.mark (h : p.WF ii) (l : Nat) : (p.mark l).WF ii := by
  have hg := grows_mark p l
  refine ⟨fun i hi t ht => hg.known (h.known i hi t ht), h.ends, ?_, ?_, ?_, by simpa using h.nodup, h.distinct, ?_, h.mains⟩
  · intro g hgm
    obtain ⟨g0, h0, h1, -⟩ := mem_mark hgm
    exact h1 ▸ h.ids g0 h0
  · intro g hgm hop
    obtain ⟨g0, h0, -, h2, h3, -⟩ := mem_mark hgm
    exact h3 ▸ h.headers g0 h0 (h2 ▸ hop)
  · intro g hgm e he
    obtain ⟨g0, h0, h1, h2, -⟩ := mem_mark hgm
    exact h1 ▸ h2 ▸ h.unresolved g0 h0 e he
  · intro g hgm ht hop
    obtain ⟨g0, h0, -, h2, -, h4⟩ := mem_mark hgm
    rcases h4 ⟨ht, hop⟩ with h4 | ⟨h4, h5⟩
    · exact h4
    · exact h5 ▸ h.trims g0 h0 (h4 ▸ ht) (h2 ▸ hop)

theorem WF.markAll {ls : List Nat} (h : p.WF ii) : (p.markAll ls).WF ii := by
  induction ls generalizing p with
  | nil => exact h
  | cons l ls ih => exact ih (h.mark l)

/-- a construct named by the current instruction -/
theorem WF.push (h : p.WF ii) {g : PFrame} (hid : g.id = ii) (hnt : g.needsTrim = false)
    (hh : g.opcode = .loop → g.header < p.size ∧ p.Lands g.header) : (p.push g).WF (ii + 1) := by
  have hg : Grows p (p.push g) :=
    ⟨fun _ h => h, Nat.le_refl _, fun g' hg' => ⟨g', by simp [Plan.push, hg'], rfl, rfl, rfl, id⟩, fun _ h => h⟩
  refine ⟨fun i hi t ht => hg.known (h.known i hi t ht), fun e he => ?_, ?_, ?_, ?_, ?_, h.distinct, ?_, h.mains⟩
  · exact ⟨(h.ends e he).1.mono (by omega), (h.ends e he).2⟩
  · intro g' hg'
    simp only [Plan.push, List.mem_cons] at hg'
    rcases hg' with rfl | hg'
    · omega
    · have := h.ids g' hg'
      omega
  · intro g' hg' hop
    simp only [Plan.push, List.mem_cons] at hg'
    rcases hg' with rfl | hg'
    · exact hh hop
    · exact h.headers g' hg' hop
  · intro g' hg' e he
    simp only [Plan.push, List.mem_cons] at hg'
    rcases hg' with rfl | hg'
    · have hb := (h.ends e he).1
      constructor
      · intro he'
        rw [he', hid] at hb
        exact Nat.lt_irrefl _ hb
      · intro _ he'
        rw [he', hid] at hb
        exact Nat.lt_irrefl _ hb
    · exact h.unresolved g' hg' e he
  · simp only [Plan.push, List.map_cons, List.nodup_cons, List.mem_map, not_exists, not_and]
    refine ⟨fun g' hg' => ?_, h.nodup⟩
    have := h.ids g' hg'
    omega
  · intro g' hg' ht hop
    rcases List.mem_cons.mp hg' with rfl | hg'
    · simp [hnt] at ht
    · exact h.trims g' hg' ht hop

theorem WF.mono {jj : Nat} (h : p.WF ii) (hij : ii ≤ jj) : p.WF jj :=
  ⟨h.known, fun e he => ⟨(h.ends e he).1.mono hij, (h.ends e he).2⟩, fun g hg => Nat.lt_of_lt_of_le (h.ids g hg) hij,
    h.headers, h.unresolved, h.nodup, h.distinct, h.trims, h.mains⟩

/-- `add` and `closeChunk` do not look at open constructs or names -/
theorem add_with (p : Plan) (c : List PFrame) (e : List (Target × Nat)) (t : Nat) (pre poll : Option Nat)
    (main : Option (LInstr Target)) (map : Option Nat) :
    ({ p with ctrl := c, ends := e, tryDepth := t } : Plan).add pre poll main map =
      { p.add pre poll main map with ctrl := c, ends := e, tryDepth := t } := by
  unfold Plan.add
  dsimp only
  repeat' split
  all_goals rfl

theorem WF.tryDepth (h : p.WF ii) (n : Nat) : ({ p with tryDepth := n } : Plan).WF ii :=
  ⟨fun i hi t ht => by have := h.known i hi t ht; cases t <;> exact this, h.ends, h.ids, h.headers, h.unresolved, h.nodup,
    h.distinct, h.trims, h.mains⟩

/-- the names resolved when a construct is left -/
def endNames (g : PFrame) (r : Nat) : List (Target × Nat) :=
  (.endOf g.id, r) :: if g.opcode = .if_ then [(.falseOf g.id, r)] else []

/-- the innermost construct is left -/
def leave (p : Plan) (g : PFrame) (gs : List PFrame) : Plan :=
  { p with ends := p.ends ++ endNames g p.size, ctrl := gs }

theorem mem_endNames {g : PFrame} {r : Nat} {e : Target × Nat} (h : e ∈ endNames g r) :
    e.2 = r ∧ (e.1 = .endOf g.id ∨ (g.opcode = .if_ ∧ e.1 = .falseOf g.id)) := by
  simp only [endNames, List.mem_cons] at h
  rcases h with rfl | h
  · exact ⟨rfl, .inl rfl⟩
  · split at h
    · rename_i hop
      simp only [List.mem_singleton] at h
      exact ⟨by rw [h], .inr ⟨hop, by rw [h]⟩⟩
    · simp at h

theorem WF.leave {g : PFrame} {gs : List PFrame} (h : p.WF ii) (hc : p.ctrl = g :: gs)
    (hl : g.isTarget = true ∨ g.opcode = .if_ → p.Lands p.size) : (p.leave g gs).WF ii := by
  have hmem : ∀ g' ∈ gs, g' ∈ p.ctrl := fun g' hg' => by simp [hc, hg']
  have hnd := h.nodup
  rw [hc, List.map_cons, List.nodup_cons] at hnd
  have hne : ∀ g' ∈ gs, g'.id ≠ g.id := fun g' hg' he => hnd.1 (by rw [← he]; exact List.mem_map_of_mem hg')
  have hknown : ∀ t, p.Known t → (p.leave g gs).Known t := by
    intro t ht
    cases t with
    | func => trivial
    | record r => exact ht
    | endOf id =>
      rcases ht with ⟨g', hg', hid, hop, hit⟩ | ⟨r, hr, hr'⟩
      · rw [hc] at hg'
        rcases List.mem_cons.mp hg' with rfl | hg'
        · exact .inr ⟨p.size, by simp [Plan.leave, endNames, hid], hl (.inl hit)⟩
        · exact .inl ⟨g', hg', hid, hop, hit⟩
      · exact .inr ⟨r, List.mem_append_left _ hr, hr'⟩
    | falseOf id =>
      rcases ht with ⟨g', hg', hid, hop⟩ | ⟨r, hr, hr'⟩
      · rw [hc] at hg'
        rcases List.mem_cons.mp hg' with rfl | hg'
        · exact .inr ⟨p.size, by simp [Plan.leave, endNames, hid, hop], hl (.inr hop)⟩
        · exact .inl ⟨g', hg', hid, hop⟩
      · exact .inr ⟨r, List.mem_append_left _ hr, hr'⟩
  refine ⟨fun i hi t ht => hknown t (h.known i hi t ht), ?_, fun g' hg' => h.ids g' (hmem g' hg'),
    fun g' hg' => h.headers g' (hmem g' hg'), ?_, hnd.2, ?_, fun g' hg' => h.trims g' (hmem g' hg'), h.mains⟩
  · intro e he
    rcases List.mem_append.mp he with he | he
    · exact h.ends e he
    · obtain ⟨h1, h2⟩ := mem_endNames he
      have hid := h.ids g (by simp [hc])
      refine ⟨?_, Nat.le_of_eq h1⟩
      rcases h2 with h2 | ⟨-, h2⟩ <;> rw [h2] <;> exact hid
  · intro g' hg' e he
    rcases List.mem_append.mp he with he | he
    · exact h.unresolved g' (hmem g' hg') e he
    · obtain ⟨-, h2⟩ := mem_endNames he
      have := hne g' hg'
      rcases h2 with h2 | ⟨-, h2⟩ <;> rw [h2] <;> simp [Ne.symm this]
  · have hun := h.unresolved g (by simp [hc])
    have hdis : ∀ e ∈ p.ends, ∀ e' ∈ endNames g p.size, e.1 ≠ e'.1 := by
      intro e he e' he' hee
      obtain ⟨-, h2⟩ := mem_endNames he'
      rcases h2 with h2 | ⟨hop, h2⟩
      · exact (hun e he).1 (hee.trans h2)
      · exact (hun e he).2 hop (hee.trans h2)
    have hself : ((endNames g p.size).map Prod.fst).Nodup := by
      by_cases hop : g.opcode = .if_ <;> simp [endNames, hop]
    simp only [Plan.leave, List.map_append]
    refine List.nodup_append.mpr ⟨h.distinct, hself, ?_⟩
    intro a ha b hb
    obtain ⟨e, he, rfl⟩ := List.mem_map.mp ha
    obtain ⟨e', he', rfl⟩ := List.mem_map.mp hb
    exact hdis e he e' he'

/-- ELSE, whose own jump leads to the end of the `if` -/
def switch (p : Plan) (g : PFrame) (gs : List PFrame) : Plan :=
  { p with ends := p.ends ++ [(.falseOf g.id, p.size)], ctrl := { g with opcode := .else_, isTarget := true } :: gs }

theorem WF.switch {g : PFrame} {gs : List PFrame} (h : p.WF ii) (hc : p.ctrl = g :: gs) (hop : g.opcode = .if_)
    (hl : p.Lands p.size) : (p.switch g gs).WF ii := by
  have hhead : g ∈ p.ctrl := by simp [hc]
  have hnd := h.nodup
  rw [hc, List.map_cons, List.nodup_cons] at hnd
  have hne : ∀ g' ∈ gs, g'.id ≠ g.id := fun g' hg' he => hnd.1 (by rw [← he]; exact List.mem_map_of_mem hg')
  have hknown : ∀ t, p.Known t → (p.switch g gs).Known t := by
    intro t ht
    cases t with
    | func => trivial
    | record r => exact ht
    | endOf id =>
      rcases ht with ⟨g', hg', hid, hop', hit⟩ | ⟨r, hr, hr'⟩
      · rw [hc] at hg'
        rcases List.mem_cons.mp hg' with rfl | hg'
        · exact .inl ⟨_, List.mem_cons_self, hid, by simp, rfl⟩
        · exact .inl ⟨g', List.mem_cons_of_mem _ hg', hid, hop', hit⟩
      · exact .inr ⟨r, List.mem_append_left _ hr, hr'⟩
    | falseOf id =>
      rcases ht with ⟨g', hg', hid, hop'⟩ | ⟨r, hr, hr'⟩
      · rw [hc] at hg'
        rcases List.mem_cons.mp hg' with rfl | hg'
        · exact .inr ⟨p.size, by simp [Plan.switch, hid], hl⟩
        · exact .inl ⟨g', List.mem_cons_of_mem _ hg', hid, hop'⟩
      · exact .inr ⟨r, List.mem_append_left _ hr, hr'⟩
  refine ⟨fun i hi t ht => hknown t (h.known i hi t ht), ?_, ?_, ?_, ?_, ?_, ?_, ?_, h.mains⟩
  · intro e he
    rcases List.mem_append.mp he with he | he
    · exact h.ends e he
    · simp only [List.mem_singleton] at he
      subst he
      exact ⟨h.ids g hhead, Nat.le_refl _⟩
  · intro g' hg'
    rcases List.mem_cons.mp hg' with rfl | hg'
    · exact h.ids g hhead
    · exact h.ids g' (by simp [hc, hg'])
  · intro g' hg' hloop
    rcases List.mem_cons.mp hg' with rfl | hg'
    · simp at hloop
    · exact h.headers g' (by simp [hc, hg']) hloop
  · intro g' hg' e he
    rcases List.mem_append.mp he with he | he
    · rcases List.mem_cons.mp hg' with rfl | hg'
      · exact ⟨(h.unresolved g hhead e he).1, by simp⟩
      · exact h.unresolved g' (by simp [hc, hg']) e he
    · simp only [List.mem_singleton] at he
      subst he
      rcases List.mem_cons.mp hg' with rfl | hg'
      · simp
      · simp [Ne.symm (hne g' hg')]
  · simpa [Plan.switch, hc] using h.nodup
  · simp only [Plan.switch, List.map_append, List.map_cons, List.map_nil]
    refine List.nodup_append.mpr ⟨h.distinct, by simp, ?_⟩
    intro a ha b hb
    obtain ⟨e, he, rfl⟩ := List.mem_map.mp ha
    simp only [List.mem_singleton] at hb
    subst hb
    exact (h.unresolved g hhead e he).2 hop
  · intro g' hg' ht hop'
    rcases List.mem_cons.mp hg' with rfl | hg'
    · rfl
    · exact h.trims g' (by simp [hc, hg']) ht hop'

/-! ## Branches -/

theorem target_mark (p : Plan) (l k : Nat) : (p.mark l).target k = p.target k := by
  simp only [target, mark, List.getElem?_modify]
  cases p.ctrl[k]? with
  | none => rfl
  | some g =>
    simp only [Option.map_eq_map, Option.map_some]
    split <;> rfl

theorem target_markAll (p : Plan) (ls : List Nat) (k : Nat) : (p.markAll ls).target k = p.target k := by
  induction ls generalizing p with
  | nil => rfl
  | cons l ls ih => exact (ih (p.mark l)).trans (target_mark p l k)

/-- a label is known once it is marked -/
theorem WF.known_mark (h : p.WF ii) (l : Nat) : (p.mark l).Known (p.target l) := by
  unfold target
  cases hg : p.ctrl[l]? with
  | none => trivial
  | some g =>
    have hmem : g ∈ p.ctrl := List.mem_of_getElem? hg
    by_cases hop : g.opcode = .loop
    · simp only [hop, if_true]
      exact h.headers g hmem hop
    · simp only [hop, if_false]
      refine .inl ⟨_, List.mem_iff_getElem?.mpr ⟨l, by simp only [Plan.mark, List.getElem?_modify, hg]; rfl⟩, ?_⟩
      simp [hop]

theorem grows_markAll (p : Plan) (ls : List Nat) : Grows p (p.markAll ls) := by
  induction ls generalizing p with
  | nil => exact ⟨fun _ h => h, Nat.le_refl _, fun g hg => ⟨g, hg, rfl, rfl, rfl, id⟩, fun _ h => h⟩
  | cons l ls ih =>
    have h1 := grows_mark p l
    have h2 := ih (p.mark l)
    refine ⟨fun r hr => h2.lands r (h1.lands r hr), Nat.le_trans h1.size h2.size, fun g hg => ?_,
      fun e he => h2.ends e (h1.ends e he)⟩
    obtain ⟨g1, hg1, a1, b1, c1, d1⟩ := h1.open_ g hg
    obtain ⟨g2, hg2, a2, b2, c2, d2⟩ := h2.open_ g1 hg1
    exact ⟨g2, hg2, a2.trans a1, b2.trans b1, c2.trans c1, fun h => d2 (d1 h)⟩

theorem WF.known_markAll {ls : List Nat} (h : p.WF ii) : ∀ l ∈ ls, (p.markAll ls).Known (p.target l) := by
  induction ls generalizing p with
  | nil => simp
  | cons k ks ih =>
    intro l hl
    rcases List.mem_cons.mp hl with rfl | hl
    · exact (grows_markAll (p.mark l) ks).known (h.known_mark l)
    · have := ih (h.mark k) l hl
      rwa [target_mark] at this

/-! ## One instruction -/

/-- what the analysis guarantees about instruction `ii` -/
def Accepts (p : Plan) (ii : Nat) (d : DInstr) : Prop :=
  match d.op with
  | .block _ => d.poll = true → ii = 0
  | .loop _ => d.poll = true
  | .tryTable _ cs => (d.poll = true → ii = 0) ∧ ∀ c ∈ cs, c.label ≤ p.ctrl.length
  | .else_ => ∃ g gs, p.ctrl = g :: gs ∧ g.opcode = .if_
  | .end_ => p.ctrl ≠ []
  | .br l _ _ | .brIf l _ _ | .brOnNull l _ _ | .brOnNonNull l _ _ | .brOnCast _ _ _ l _ _ => l ≤ p.ctrl.length
  | .brTable imm => ∀ r ∈ imm.records, r.1 ≤ p.ctrl.length
  | .op _ | .if_ _ => True

/-- END's own record, after which a new chunk starts if a branch leads there -/
def endRecord (p : Plan) (g : PFrame) (d : DInstr) : Plan :=
  let isTry := decide (g.opcode = .tryTable)
  let q := p.add none none (if isTry then some .endTryTable else none) d.refMap
  let q := { q with tryDepth := if isTry then q.tryDepth - 1 else q.tryDepth }
  if g.isTarget || decide (g.opcode = .if_) then q.closeChunk else q

theorem planEnd_eq (p : Plan) {g : PFrame} {gs : List PFrame} (hc : p.ctrl = g :: gs) (d : DInstr) (next : Option Nat) :
    p.planEnd g d next =
      if g.needsTrim && decide (g.opcode ≠ .loop) then
        ((p.endRecord g d).leave g gs).add none none (some (.trimHandlers g.tryDepth)) next
      else (p.endRecord g d).leave g gs := by
  unfold planEnd leave endNames resolve endRecord
  cases hop : g.opcode <;> cases g.isTarget <;> simp [hc, size, closeChunk_needNewChunk, closeChunk_cost]

@[simp] theorem endRecord_ctrl (p : Plan) (g : PFrame) (d : DInstr) : (p.endRecord g d).ctrl = p.ctrl := by
  unfold endRecord; dsimp only; split <;> simp

@[simp] theorem endRecord_ends (p : Plan) (g : PFrame) (d : DInstr) : (p.endRecord g d).ends = p.ends := by
  unfold endRecord; dsimp only; split <;> simp

@[simp] theorem endRecord_size (p : Plan) (g : PFrame) (d : DInstr) : (p.endRecord g d).size = p.size + 1 := by
  unfold endRecord; dsimp only; split <;> simp [size, add_records]

theorem WF.endRecord (h : p.WF ii) (g : PFrame) (d : DInstr) : (p.endRecord g d).WF ii := by
  have h1 := h.add none none (if decide (g.opcode = .tryTable) then some .endTryTable else none) d.refMap (by
    intro i hi
    split at hi
    · simp only [Option.mem_def, Option.some.injEq] at hi
      simp [← hi, LInstr.targets, LInstr.IsMain]
    · simp at hi)
  unfold Plan.endRecord
  dsimp only
  split
  · exact (h1.tryDepth _).closeChunk
  · exact h1.tryDepth _

theorem lands_endRecord (p : Plan) {g : PFrame} (d : DInstr) (h : g.isTarget = true ∨ g.opcode = .if_) :
    (p.endRecord g d).Lands (p.endRecord g d).size := by
  unfold Plan.endRecord
  rw [if_pos (by simpa using h), closeChunk_size]
  exact lands_closeChunk_size _

theorem WF.planEnd {g : PFrame} {gs : List PFrame} (h : p.WF ii) (hc : p.ctrl = g :: gs) (d : DInstr)
    (next : Option Nat) : (p.planEnd g d next).WF ii := by
  rw [planEnd_eq p hc]
  have h2 := (h.endRecord g d).leave (show (p.endRecord g d).ctrl = g :: gs by simpa using hc) (lands_endRecord p d)
  split
  · exact h2.add none none _ next (by simp [LInstr.targets, LInstr.IsMain])
  · exact h2

theorem planElse_eq (p : Plan) {g : PFrame} {gs : List PFrame} (hc : p.ctrl = g :: gs) {d : DInstr}
    (hd : d.op = .else_) (ii : Nat) :
    p.planPlain ii d =
      ((({ p with ctrl := { g with isTarget := true } :: gs } : Plan).add none (pollOf d)
        (some (.else_ (.endOf g.id))) d.refMap).closeChunk).switch g gs := by
  have h1 := add_with p ({ g with isTarget := true } :: gs) p.ends p.tryDepth none (pollOf d)
    (some (.else_ (.endOf g.id))) d.refMap
  simp only at h1
  rw [h1]
  simp only [planPlain, hd, marks, mainOf, hc, List.head?_cons, Option.map_some, planFrames, add_ctrl,
    DOp.endsLongChunk, Bool.false_eq_true, if_false, if_true, resolve]
  cases he : p.emitMeter <;> simp [switch, size, closeChunk, he]

theorem WF.planElse {g : PFrame} {gs : List PFrame} (h : p.WF ii) (hc : p.ctrl = g :: gs) (hop : g.opcode = .if_)
    {d : DInstr} (hd : d.op = .else_) : (p.planPlain ii d).WF ii := by
  rw [planElse_eq p hc hd]
  have hm : ({ p with ctrl := { g with isTarget := true } :: gs } : Plan).WF ii := by
    have hknown : ∀ t, p.Known t → ({ p with ctrl := { g with isTarget := true } :: gs } : Plan).Known t := by
      have hg : Grows p { p with ctrl := { g with isTarget := true } :: gs } := by
        refine ⟨fun _ h => h, Nat.le_refl _, fun g' hg' => ?_, fun _ h => h⟩
        rw [hc] at hg'
        rcases List.mem_cons.mp hg' with rfl | hg'
        · exact ⟨_, List.mem_cons_self, rfl, rfl, rfl, fun _ => rfl⟩
        · exact ⟨g', List.mem_cons_of_mem _ hg', rfl, rfl, rfl, id⟩
      exact fun t => hg.known
    have hall : ∀ Q : PFrame → Prop, (Q g → Q { g with isTarget := true }) → (∀ g' ∈ p.ctrl, Q g') →
        ∀ g' ∈ { g with isTarget := true } :: gs, Q g' := by
      intro Q hQ hp g' hg'
      rcases List.mem_cons.mp hg' with rfl | hg'
      · exact hQ (hp g (by simp [hc]))
      · exact hp g' (by simp [hc, hg'])
    exact ⟨fun i hi t ht => hknown t (h.known i hi t ht), h.ends, hall _ id h.ids, hall _ id h.headers,
      hall _ id h.unresolved, by simpa [hc] using h.nodup, h.distinct, hall _ (fun _ _ _ => rfl) h.trims, h.mains⟩
  have h2 := hm.add none (pollOf d) (some (.else_ (.endOf g.id))) d.refMap (by
    simp only [Option.mem_def, Option.some.injEq, forall_eq', LInstr.targets, List.mem_singleton, forall_eq]
    exact ⟨trivial, .inl ⟨_, List.mem_cons_self, rfl, by simp [hop], rfl⟩⟩)
  exact h2.closeChunk.switch (g := { g with isTarget := true }) (by simp) hop
    (by rw [closeChunk_size]; exact lands_closeChunk_size _)

theorem WF.marks (h : p.WF ii) (d : DOp) : (p.marks d).WF ii := by
  cases d <;> first | exact h.mark _ | exact h.markAll | exact h

/-- targets of an instruction other than IF and ELSE are known once its labels are marked -/
theorem WF.known_mainOf (h : p.WF ii) {d : DInstr} {i : LInstr Target} (hif : ∀ bt, d.op ≠ .if_ bt)
    (helse : d.op ≠ .else_) (hi : p.mainOf ii d = some i) : ∀ t ∈ i.targets, (p.marks d.op).Known t := by
  cases hd : d.op with
  | if_ bt => exact absurd hd (hif bt)
  | else_ => exact absurd hd helse
  | op j =>
    simp only [mainOf, hd, Option.some.injEq] at hi
    simp [← hi, LInstr.targets]
  | br l | brIf l | brOnNull l | brOnNonNull l | brOnCast _ _ _ l =>
    simp only [mainOf, hd, Option.some.injEq] at hi
    simp only [← hi, LInstr.targets, List.mem_singleton, forall_eq, Plan.marks]
    exact h.known_mark l
  | brTable imm =>
    simp only [mainOf, hd, Option.some.injEq] at hi
    intro t ht
    simp only [← hi, LInstr.targets, List.map_map, List.mem_map, Function.comp_apply] at ht
    obtain ⟨r, hr, rfl⟩ := ht
    exact h.known_markAll _ (List.mem_map_of_mem hr)
  | block | loop | end_ | tryTable => simp [mainOf, hd] at hi

theorem mainOf_isMain {d : DInstr} {i : LInstr Target} (hi : p.mainOf ii d = some i) : i.IsMain := by
  unfold mainOf at hi
  split at hi
  all_goals first
    | (simp only [Option.some.injEq] at hi; subst hi; trivial)
    | (simp only [Option.map_eq_some_iff] at hi; obtain ⟨g, -, rfl⟩ := hi; trivial)
    | simp at hi

/-- the end of `planPlain`: a long chunk ends after branches and calls -/
def endPlain (p : Plan) (d : DInstr) : Plan :=
  if d.op.endsLongChunk then (if meterMaxChunkCost ≤ p.cost then p.closeChunk else p)
  else if d.op = .else_ then p.closeChunk
  else p

theorem WF.endPlain (h : p.WF ii) (d : DInstr) : (p.endPlain d).WF ii := by
  unfold Plan.endPlain
  repeat' split
  all_goals first | exact h.closeChunk | exact h

theorem planIf_eq (p : Plan) (ii : Nat) {d : DInstr} {bt : BlockType} (hd : d.op = .if_ bt) :
    p.planPlain ii d =
      ((p.push { opcode := .if_, id := ii, tryDepth := p.tryDepth }).add none (pollOf d)
        (some (.if_ (.falseOf ii))) d.refMap).endPlain d := by
  have h1 := add_with p ({ opcode := .if_, id := ii, tryDepth := p.tryDepth } :: p.ctrl) p.ends p.tryDepth none
    (pollOf d) (some (.if_ (.falseOf ii))) d.refMap
  simp only [push] at h1 ⊢
  rw [h1]
  simp [planPlain, hd, marks, mainOf, planFrames, push, endPlain]

theorem planPlain_eq (p : Plan) (ii : Nat) {d : DInstr} (hif : ∀ bt, d.op ≠ .if_ bt) (helse : d.op ≠ .else_) :
    p.planPlain ii d = ((p.marks d.op).add none (pollOf d) (p.mainOf ii d) d.refMap).endPlain d := by
  have h1 : ∀ q : Plan, q.planFrames ii d.op = q := by
    intro q
    unfold planFrames
    split
    · rename_i hd; exact absurd hd (hif _)
    · rename_i hd; exact absurd hd helse
    · rfl
  simp [planPlain, h1, endPlain]

theorem WF.planPlain (h : p.WF ii) {d : DInstr} (ha : p.Accepts ii d) : (p.planPlain ii d).WF (ii + 1) := by
  by_cases helse : d.op = .else_
  · obtain ⟨g, gs, hc, hop⟩ : ∃ g gs, p.ctrl = g :: gs ∧ g.opcode = .if_ := by simpa [Accepts, helse] using ha
    exact (h.planElse hc hop helse).mono (by omega)
  · by_cases hif : ∃ bt, d.op = .if_ bt
    · obtain ⟨bt, hif⟩ := hif
      rw [planIf_eq p ii hif]
      refine WF.endPlain (WF.add (h.push rfl rfl (by simp)) _ _ _ _ ?_) d
      simp only [Option.mem_def, Option.some.injEq, forall_eq', LInstr.targets, List.mem_singleton, forall_eq]
      exact ⟨trivial, .inl ⟨_, List.mem_cons_self, rfl, rfl⟩⟩
    · simp only [not_exists] at hif
      rw [planPlain_eq p ii hif helse]
      refine (WF.endPlain (WF.add (h.marks d.op) _ _ _ _ ?_) d).mono (by omega)
      exact fun i hi => ⟨mainOf_isMain hi, h.known_mainOf hif helse hi⟩

theorem WF.planLoop (h : p.WF ii) (hasTry : Bool) {d : DInstr} (hp : d.poll = true) :
    (p.planLoop ii hasTry d).WF (ii + 1) := by
  unfold Plan.planLoop
  rw [if_pos hp]
  refine WF.push (h.closeChunk.add _ _ _ _ ?_) rfl rfl fun _ => ⟨by simp, ?_⟩
  · cases hasTry <;> simp [LInstr.targets, LInstr.IsMain]
  · exact lands_add _ _ _ _ _ (by simpa using lands_closeChunk_size p)

theorem WF.planTryTable (h : p.WF ii) (d : DInstr) (cs : List DCatch) : (p.planTryTable ii d cs).WF (ii + 1) := by
  refine WF.tryDepth (WF.push (h.markAll.add _ _ _ _ ?_) rfl rfl (by simp)) _
  simp only [Option.mem_def, Option.some.injEq, forall_eq', LInstr.targets, List.map_map, List.mem_map,
    Function.comp_apply]
  refine ⟨trivial, fun t ht => ?_⟩
  obtain ⟨c, hc, rfl⟩ := ht
  exact h.known_markAll _ (List.mem_map_of_mem hc)

end Plan

/-- **Names of the plan.** Every instruction keeps the invariant. -/
theorem planInstr_wf {p : Plan} {ii : Nat} (h : p.WF ii) {hasTry : Bool} {d : DInstr} {next : Option Nat}
    (ha : p.Accepts ii d) : (planInstr p ii hasTry d next).WF (ii + 1) := by
  unfold planInstr
  split
  · exact (h.add _ _ _ _ (by simp)).push rfl rfl (by simp)
  · rename_i bt hd
    exact h.planLoop hasTry (by simpa [Plan.Accepts, hd] using ha)
  · exact h.planTryTable d _
  · rename_i hd
    cases hc : p.ctrl with
    | nil => simp [Plan.Accepts, hd, hc] at ha
    | cons g gs => exact (h.planEnd hc d next).mono (by omega)
  · exact h.planPlain ha

end Wah
