/-
Strings of tagged chunks, each with its length in front.

The reader takes a tag and a length, as `lenAt` reads it, and hands what follows to the step of the tag. `Encodes` says
what `lenAt` takes for a length, and `OnBodies` that a step looks at the body alone and refuses one that is cut off.

- `run_append`: chunks in front of any string are read one by one, and what follows them as if it stood alone.
- `run_ok_iff`: a string is accepted exactly when it consists of chunks whose bodies are accepted one after the other.
- `chunks_unique`: there is only one way to cut a string into chunks.
-/
import Mathlib.Data.List.Basic
import Mathlib.Tactic

namespace Wah.LengthPrefixed

variable {β σ ε : Type}

/-- a tag, a length as it is written, and a body -/
structure Chunk (β : Type) where
  tag : β
  len : List β
  body : List β

def Chunk.units (c : Chunk β) : List β := c.tag :: (c.len ++ c.body)

/-- chunk after chunk; `lenAt` gives a length, and how many units it takes -/
def run (lenAt : List β → Except ε (Nat × Nat)) (step : β → Nat → List β → σ → Except ε σ) : List β → σ → Except ε σ
  | [], s => .ok s
  | tag :: rest, s =>
    match lenAt rest with
    | .error e => .error e
    | .ok (n, k) =>
      match step tag n (rest.drop k) s with
      | .error e => .error e
      | .ok s' => run lenAt step ((rest.drop k).drop n) s'
termination_by bs => bs.length
decreasing_by simp only [List.length_drop, List.length_cons]; omega

/-- the bodies of chunks, one after the other -/
def runBodies (onBody : β → List β → σ → Except ε σ) (cs : List (Chunk β)) (s : σ) : Except ε σ :=
  cs.foldlM (fun s c => onBody c.tag c.body s) s

/-- `enc` are the strings taken for a length -/
structure Encodes (lenAt : List β → Except ε (Nat × Nat)) (enc : List β → Nat → Prop) : Prop where
  sound : ∀ {bs n k}, lenAt bs = .ok (n, k) → ∃ len, len <+: bs ∧ len.length = k ∧ enc len n
  complete : ∀ {len n}, enc len n → ∀ rest, lenAt (len ++ rest) = .ok (n, len.length)

/-- a step is about the body of a chunk, and refuses a body that is cut off -/
structure OnBodies (step : β → Nat → List β → σ → Except ε σ) (onBody : β → List β → σ → Except ε σ) : Prop where
  whole : ∀ {n : Nat} {bs : List β}, n ≤ bs.length → ∀ tag s, step tag n bs s = onBody tag (bs.take n) s
  cut : ∀ {n : Nat} {bs : List β}, bs.length < n → ∀ tag s s', step tag n bs s ≠ .ok s'

variable {lenAt : List β → Except ε (Nat × Nat)} {step : β → Nat → List β → σ → Except ε σ}
  {enc : List β → Nat → Prop} {onBody : β → List β → σ → Except ε σ}

/-- the length in front of the body is its length -/
def Chunk.Framed (enc : List β → Nat → Prop) (c : Chunk β) : Prop := enc c.len c.body.length

/-! ## Reading -/

theorem run_nil (s : σ) : run lenAt step [] s = .ok s := by rw [run]

theorem run_units (henc : Encodes lenAt enc) (hstep : OnBodies step onBody) {c : Chunk β} (hc : c.Framed enc)
    (tail : List β) (s : σ) : run lenAt step (c.units ++ tail) s = onBody c.tag c.body s >>= run lenAt step tail := by
  have hbody : (c.len ++ c.body ++ tail).drop c.len.length = c.body ++ tail := by
    rw [List.append_assoc, List.drop_left]
  have hlen : lenAt (c.len ++ c.body ++ tail) = .ok (c.body.length, c.len.length) := by
    rw [List.append_assoc]
    exact henc.complete hc _
  rw [Chunk.units, List.cons_append, run, hlen]
  simp only [hbody, List.drop_left]
  rw [hstep.whole (by simp), List.take_left]
  cases onBody c.tag c.body s <;> rfl

theorem run_append (henc : Encodes lenAt enc) (hstep : OnBodies step onBody) {cs : List (Chunk β)}
    (hcs : ∀ c ∈ cs, c.Framed enc) (tail : List β) (s : σ) :
    run lenAt step (cs.flatMap Chunk.units ++ tail) s = runBodies onBody cs s >>= run lenAt step tail := by
  induction cs generalizing s with
  | nil => rfl
  | cons c cs ih =>
    have hc : c.Framed enc := hcs c List.mem_cons_self
    rw [List.flatMap_cons, List.append_assoc, run_units henc hstep hc, runBodies, List.foldlM_cons, bind_assoc]
    congr 1
    funext s'
    exact ih (fun d hd => hcs d (List.mem_cons_of_mem c hd)) s'

theorem run_chunks (henc : Encodes lenAt enc) (hstep : OnBodies step onBody) {cs : List (Chunk β)}
    (hcs : ∀ c ∈ cs, c.Framed enc) (s : σ) : run lenAt step (cs.flatMap Chunk.units) s = runBodies onBody cs s := by
  have happ := run_append henc hstep hcs [] s
  rw [List.append_nil] at happ
  rw [happ]
  cases runBodies onBody cs s with
  | error e => rfl
  | ok s' => exact run_nil s'

/-- what is accepted starts with a chunk -/
theorem run_cons_ok (henc : Encodes lenAt enc) (hstep : OnBodies step onBody) {tag : β} {rest : List β} {s s' : σ}
    (h : run lenAt step (tag :: rest) s = .ok s') :
    ∃ c tail, Chunk.Framed enc c ∧ tag :: rest = c.units ++ tail ∧
      ∃ s₁, onBody c.tag c.body s = .ok s₁ ∧ run lenAt step tail s₁ = .ok s' := by
  rw [run] at h
  cases hlen : lenAt rest with
  | error e =>
    rw [hlen] at h
    cases h
  | ok r =>
    obtain ⟨n, k⟩ := r
    simp only [hlen] at h
    cases hs : step tag n (rest.drop k) s with
    | error e =>
      rw [hs] at h
      cases h
    | ok s₁ =>
      simp only [hs] at h
      obtain ⟨len, ⟨after, rfl⟩, rfl, hl⟩ := henc.sound hlen
      rw [List.drop_left] at hs h
      have hn : n ≤ after.length := by
        by_contra hn
        exact hstep.cut (Nat.lt_of_not_le hn) _ _ _ hs
      rw [hstep.whole hn] at hs
      refine ⟨⟨tag, len, after.take n⟩, after.drop n, ?_, ?_, s₁, hs, h⟩
      · rw [Chunk.Framed, List.length_take, Nat.min_eq_left hn]
        exact hl
      · rw [Chunk.units, List.cons_append, List.append_assoc, List.take_append_drop]

/-- **Accepted strings.** They consist of chunks, whose bodies are accepted one after the other. -/
theorem run_ok_iff (henc : Encodes lenAt enc) (hstep : OnBodies step onBody) (bs : List β) (s s' : σ) :
    run lenAt step bs s = .ok s' ↔
      ∃ cs, (∀ c ∈ cs, Chunk.Framed enc c) ∧ bs = cs.flatMap Chunk.units ∧ runBodies onBody cs s = .ok s' := by
  constructor
  · intro h
    induction hn : bs.length using Nat.strongRecOn generalizing bs s with
    | ind n ih =>
      cases bs with
      | nil =>
        rw [run_nil] at h
        exact ⟨[], by simp, rfl, h⟩
      | cons tag rest =>
        obtain ⟨c, tail, hc, hbs, s₁, hbody, hrest⟩ := run_cons_ok henc hstep h
        have hlt : tail.length < n := by
          rw [← hn, hbs, List.length_append, Chunk.units, List.length_cons]
          omega
        obtain ⟨cs, hcs, rfl, hrun⟩ := ih _ hlt tail s₁ hrest rfl
        refine ⟨c :: cs, List.forall_mem_cons.2 ⟨hc, hcs⟩, by rw [hbs, List.flatMap_cons], ?_⟩
        rw [runBodies, List.foldlM_cons, hbody]
        exact hrun
  · rintro ⟨cs, hcs, rfl, h⟩
    rw [run_chunks henc hstep hcs]
    exact h

/-! ## Cutting -/

theorem units_inj (henc : Encodes lenAt enc) {c d : Chunk β} (hc : c.Framed enc) (hd : d.Framed enc) {x y : List β}
    (h : c.units ++ x = d.units ++ y) : c = d ∧ x = y := by
  rw [Chunk.units, Chunk.units, List.cons_append, List.cons_append, List.append_assoc, List.append_assoc] at h
  obtain ⟨htag, hrest⟩ := List.cons.inj h
  have hlens : (c.body.length, c.len.length) = (d.body.length, d.len.length) := by
    have := henc.complete hc (c.body ++ x)
    rw [hrest, henc.complete hd] at this
    exact (Except.ok.inj this).symm
  obtain ⟨hbody, hlen⟩ := Prod.mk.inj hlens
  obtain ⟨hl, hbodies⟩ := List.append_inj hrest hlen
  obtain ⟨hb, hxy⟩ := List.append_inj hbodies hbody
  cases c
  cases d
  exact ⟨by rw [Chunk.mk.injEq]; exact ⟨htag, hl, hb⟩, hxy⟩

theorem chunks_unique (henc : Encodes lenAt enc) {cs ds : List (Chunk β)} (hcs : ∀ c ∈ cs, c.Framed enc)
    (hds : ∀ d ∈ ds, d.Framed enc) (h : cs.flatMap Chunk.units = ds.flatMap Chunk.units) : cs = ds := by
  induction cs generalizing ds with
  | nil =>
    cases ds with
    | nil => rfl
    | cons d ds => simp [Chunk.units] at h
  | cons c cs ih =>
    cases ds with
    | nil => simp [Chunk.units] at h
    | cons d ds =>
      rw [List.forall_mem_cons] at hcs hds
      obtain ⟨rfl, htails⟩ := units_inj henc hcs.1 hds.1 h
      rw [ih hcs.2 hds.2 htails]

end Wah.LengthPrefixed
