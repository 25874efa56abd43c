/-
Readers of binary formats and the strings they take.

A reader gets a buffer, a cursor and a state, and gives a value with the cursor after it and the state. `Reads` says which
strings are taken for which values, and what a value does to the state: `use` refuses a value that the state does not allow.

- `Reads.many`: a reader of a number of items takes exactly the strings of as many items.
-/
import Mathlib.Data.List.Basic
import Mathlib.Tactic

namespace Wah.Formats

variable {β σ ε α : Type}

/-- a reader at a cursor -/
abbrev Reader (β σ ε α : Type) : Type := List β → Nat → σ → Except ε (α × Nat × σ)

/-- the reader `p` takes the strings `enc`, and does `use` to the state -/
structure Reads (p : Reader β σ ε α) (enc : List β → α → Prop) (use : α → σ → Option σ) : Prop where
  sound : ∀ {buf ptr s a ptr' s'}, p buf ptr s = .ok (a, ptr', s') →
    ∃ bs, bs <+: buf.drop ptr ∧ ptr' = ptr + bs.length ∧ enc bs a ∧ use a s = some s'
  complete : ∀ {buf ptr s bs a s'}, bs <+: buf.drop ptr → enc bs a → use a s = some s' →
    p buf ptr s = .ok (a, ptr + bs.length, s')

/-- a number of items -/
def many (p : Reader β σ ε α) : Nat → Reader β σ ε (List α)
  | 0, _, ptr, s => .ok ([], ptr, s)
  | n + 1, buf, ptr, s => do
    let (a, ptr, s) ← p buf ptr s
    let (as, ptr, s) ← many p n buf ptr s
    pure (a :: as, ptr, s)

/-- a string of items -/
inductive EncAll (enc : List β → α → Prop) : List β → List α → Prop where
  | nil : EncAll enc [] []
  | cons {bs rest : List β} {a : α} {as : List α} (hitem : enc bs a) (hrest : EncAll enc rest as) :
      EncAll enc (bs ++ rest) (a :: as)

def useAll (use : α → σ → Option σ) (as : List α) (s : σ) : Option σ := as.foldlM (fun s a => use a s) s

variable {p : Reader β σ ε α} {enc : List β → α → Prop} {use : α → σ → Option σ}

theorem useAll_cons (a : α) (as : List α) (s : σ) : useAll use (a :: as) s = use a s >>= useAll use as := by
  rw [useAll, List.foldlM_cons]
  rfl

/-- items take room -/
theorem EncAll.length_le {k : Nat} (hmin : ∀ bs a, enc bs a → k ≤ bs.length) {bs : List β} {as : List α}
    (h : EncAll enc bs as) : as.length * k ≤ bs.length := by
  induction h with
  | nil => simp
  | cons hitem _ ih =>
    have := hmin _ _ hitem
    simp only [List.length_cons, List.length_append, Nat.succ_mul]
    omega

theorem EncAll.exists_of_mem {bs : List β} {as : List α} (h : EncAll enc bs as) {a : α} (ha : a ∈ as) : ∃ bs, enc bs a := by
  induction h with
  | nil => exact absurd ha List.not_mem_nil
  | cons hitem _ ih =>
    obtain rfl | ha := List.mem_cons.1 ha
    · exact ⟨_, hitem⟩
    · exact ih ha

theorem drop_append_of_prefix {bs rest l : List β} {n : Nat} (h : bs ++ rest <+: l.drop n) :
    bs <+: l.drop n ∧ rest <+: l.drop (n + bs.length) := by
  obtain ⟨tail, htail⟩ := h
  refine ⟨⟨rest ++ tail, by rw [← htail, List.append_assoc]⟩, tail, ?_⟩
  rw [← List.drop_drop, ← htail, List.append_assoc, List.drop_left]

theorem prefix_append_of_drop {bs rest l : List β} {n : Nat} (h : bs <+: l.drop n)
    (hrest : rest <+: l.drop (n + bs.length)) : bs ++ rest <+: l.drop n := by
  obtain ⟨tail, htail⟩ := h
  rw [← List.drop_drop, ← htail, List.drop_left] at hrest
  rw [← htail]
  exact (List.prefix_append_right_inj bs).2 hrest

theorem Reads.many (h : Reads p enc use) (n : Nat) :
    Reads (Formats.many p n) (fun bs as => as.length = n ∧ EncAll enc bs as) (useAll use) where
  sound := by
    induction n with
    | zero =>
      intro buf ptr s as ptr' s' hr
      obtain ⟨rfl, hstate⟩ := Prod.mk.inj (Except.ok.inj hr)
      obtain ⟨rfl, rfl⟩ := Prod.mk.inj hstate
      exact ⟨[], List.nil_prefix, rfl, ⟨rfl, .nil⟩, rfl⟩
    | succ n ih =>
      intro buf ptr s as ptr' s' hr
      rw [Formats.many] at hr
      cases hp : p buf ptr s with
      | error e =>
        rw [hp] at hr
        cases hr
      | ok r =>
        obtain ⟨a, ptr₁, s₁⟩ := r
        simp only [hp, bind, Except.bind] at hr
        cases hrest : Formats.many p n buf ptr₁ s₁ with
        | error e =>
          rw [hrest] at hr
          cases hr
        | ok r =>
          obtain ⟨as', ptr₂, s₂⟩ := r
          rw [hrest] at hr
          obtain ⟨rfl, hstate⟩ := Prod.mk.inj (Except.ok.inj hr)
          obtain ⟨rfl, rfl⟩ := Prod.mk.inj hstate
          obtain ⟨bs, hpre, rfl, hitem, huse⟩ := h.sound hp
          obtain ⟨rest, hpre', hptr, ⟨hlen, henc⟩, huses⟩ := ih hrest
          refine ⟨bs ++ rest, prefix_append_of_drop hpre hpre', ?_, ⟨?_, .cons hitem henc⟩, ?_⟩
          · rw [hptr, List.length_append, Nat.add_assoc]
          · rw [List.length_cons, hlen]
          · rw [useAll_cons, huse]
            exact huses
  complete := by
    intro buf ptr s bs as s' hpre henc huses
    obtain ⟨hlen, henc⟩ := henc
    induction henc generalizing n ptr s with
    | nil =>
      subst hlen
      obtain rfl := Option.some.inj huses
      rfl
    | cons hitem hrest ih =>
      rename_i bs rest a as
      obtain ⟨hbs, hrestpre⟩ := drop_append_of_prefix hpre
      rw [useAll_cons, Option.bind_eq_bind, Option.bind_eq_some_iff] at huses
      obtain ⟨s₁, huse, huses⟩ := huses
      obtain rfl : n = as.length + 1 := by rw [← hlen, List.length_cons]
      rw [Formats.many, h.complete hbs hitem huse]
      have htail := ih as.length hrestpre huses rfl
      simp only [bind, Except.bind]
      rw [htail, List.length_append, Nat.add_assoc]
      rfl

end Wah.Formats
