/-
Grammars over tokens with arguments, and parsers of them.

A grammar relates the tokens that a phrase consists of, and the arguments that it takes in order, to what it denotes. A
parser works on a state of which it sees the tokens and the arguments ahead; it may leave anything behind when it fails.

Results: a list of items carries over to a grammar that agrees on its parts (`OptList.transport`), and ends in a
separator at most where the grammar allows one (`OptList.getLast`).
-/
import Mathlib.Tactic.Common

namespace Wah

/-- tokens, arguments taken, and what they denote -/
abbrev Grammar (τ β α : Type) := List τ → List β → α → Prop

section Parsers

variable {S τ β α : Type}

/-- the parser succeeds exactly on the phrases of the grammar, and stops after them -/
structure Parses (view : S → List τ × List β) (p : S → Option α × S) (G : Grammar τ β α) : Prop where
  sound : ∀ {s s' : S} {x : α}, p s = (some x, s') →
    ∃ u v, view s = (u ++ (view s').1, v ++ (view s').2) ∧ G u v x
  complete : ∀ {s : S} {u ts : List τ} {v bs : List β} {x : α}, view s = (u ++ ts, v ++ bs) → G u v x →
    ∃ s', p s = (some x, s') ∧ view s' = (ts, bs)

/-- the same of phrases that nothing follows -/
structure ParsesAtEnd (view : S → List τ × List β) (p : S → Option α × S) (G : Grammar τ β α) : Prop where
  sound : ∀ {s s' : S} {x : α}, p s = (some x, s') →
    ∃ u v, view s = (u ++ (view s').1, v ++ (view s').2) ∧ G u v x
  complete : ∀ {s : S} {u : List τ} {v bs : List β} {x : α}, view s = (u, v ++ bs) → G u v x →
    ∃ s', p s = (some x, s') ∧ view s' = ([], bs)

theorem Parses.atEnd {view : S → List τ × List β} {p : S → Option α × S} {G : Grammar τ β α} (h : Parses view p G) :
    ParsesAtEnd view p G :=
  ⟨h.sound, fun hs hG => h.complete (hs.trans (by rw [List.append_nil])) hG⟩

end Parsers

/-! ## Separated lists -/

section Lists

variable {τ β α : Type}

/-- one or more items with `sep` between them, and after the last one if `trailing` -/
inductive SepList (sep : τ) (trailing : Bool) (item : Grammar τ β α) : Grammar τ β (List α) where
  | last {u : List τ} {v : List β} {x : α} (h : item u v x) : SepList sep trailing item u v [x]
  | trail {u : List τ} {v : List β} {x : α} (ht : trailing = true) (h : item u v x) :
      SepList sep trailing item (u ++ [sep]) v [x]
  | cons {u us : List τ} {v vs : List β} {x : α} {xs : List α} (h : item u v x)
      (hs : SepList sep trailing item us vs xs) : SepList sep trailing item (u ++ sep :: us) (v ++ vs) (x :: xs)

/-- nothing, or a list -/
inductive OptList (sep : τ) (trailing : Bool) (item : Grammar τ β α) : Grammar τ β (List α) where
  | nil : OptList sep trailing item [] [] []
  | list {us : List τ} {vs : List β} {xs : List α} (h : SepList sep trailing item us vs xs) :
      OptList sep trailing item us vs xs

variable {sep : τ} {trailing trailing' : Bool} {item item' : Grammar τ β α} {u : List τ} {v : List β} {xs : List α}

/-- a list carries over to a grammar of items that agrees on its parts, and to one without a separator at the end if it
has none -/
theorem SepList.transport (h : SepList sep trailing item u v xs)
    (ht : trailing = true → trailing' = true ∨ u.getLast? ≠ some sep)
    (hi : ∀ {a b x}, a ⊆ u → b ⊆ v → item a b x → item' a b x) : SepList sep trailing' item' u v xs := by
  induction h with
  | last h => exact .last (hi (List.Subset.refl _) (List.Subset.refl _) h)
  | trail h1 h =>
    refine .trail ?_ (hi (List.subset_append_left _ _) (List.Subset.refl _) h)
    rcases ht h1 with ht | ht
    · exact ht
    · exact absurd (by simp) ht
  | @cons a us b vs x xs h hs ih =>
    have hus : us ⊆ a ++ sep :: us := 
      List.Subset.trans (List.subset_cons_self _ _) (List.subset_append_right _ _)
    refine .cons (hi (List.subset_append_left _ _) (List.subset_append_left _ _) h) (ih ?_ ?_)
    · intro h1
      refine (ht h1).imp_right fun hne hlast => hne ?_
      rw [List.getLast?_append, List.getLast?_cons, hlast]
      rfl
    · intro a' b' x' ha hb
      exact hi (List.Subset.trans ha hus) (List.Subset.trans hb (List.subset_append_right _ _))

theorem OptList.transport (h : OptList sep trailing item u v xs)
    (ht : trailing = true → trailing' = true ∨ u.getLast? ≠ some sep)
    (hi : ∀ {a b x}, a ⊆ u → b ⊆ v → item a b x → item' a b x) : OptList sep trailing' item' u v xs := by
  cases h with
  | nil => exact .nil
  | list h => exact .list (h.transport ht hi)

/-- a list as long as its items and separators -/
theorem SepList.length_le (h : SepList sep trailing item u v xs) (hne : ∀ {a b x}, item a b x → a ≠ []) :
    xs.length ≤ u.length := by
  induction h with
  | last h => exact List.length_pos_iff.2 (hne h)
  | trail _ h =>
    have := List.length_pos_iff.2 (hne h)
    simp only [List.length_cons, List.length_nil, List.length_append]
    omega
  | cons h _ ih =>
    have := List.length_pos_iff.2 (hne h)
    simp only [List.length_cons, List.length_append]
    omega

theorem head?_append_left {a b : List τ} (h : a ≠ []) : (a ++ b).head? = a.head? := by
  cases a with
  | nil => exact absurd rfl h
  | cons x a => rfl

/-- a list starts with an item -/
theorem SepList.head (h : SepList sep trailing item u v xs) (hne : ∀ {a b x}, item a b x → a ≠ []) :
    ∃ a b x, item a b x ∧ u.head? = a.head? := by
  cases h with
  | last h => exact ⟨_, _, _, h, rfl⟩
  | trail _ h => exact ⟨_, _, _, h, head?_append_left (hne h)⟩
  | cons h _ => exact ⟨_, _, _, h, head?_append_left (hne h)⟩

/-- what holds of the tokens of the items and of the separator holds of the tokens of a list -/
theorem OptList.forall_tokens (h : OptList sep trailing item u v xs) {P : τ → Prop} (hsep : P sep)
    (hitem : ∀ {a b x}, item a b x → ∀ t ∈ a, P t) : ∀ t ∈ u, P t := by
  cases h with
  | nil => simp
  | list h =>
    induction h with
    | last h => exact hitem h
    | trail _ h => exact List.forall_mem_append.2 ⟨hitem h, by simpa using hsep⟩
    | cons h _ ih => exact List.forall_mem_append.2 ⟨hitem h, List.forall_mem_cons.2 ⟨hsep, ih⟩⟩

/-- what holds of the arguments of the items holds of the arguments of a list -/
theorem OptList.forall_args (h : OptList sep trailing item u v xs) {P : β → Prop}
    (hitem : ∀ {a b x}, item a b x → ∀ c ∈ b, P c) : ∀ c ∈ v, P c := by
  cases h with
  | nil => simp
  | list h =>
    induction h with
    | last h => exact hitem h
    | trail _ h => exact hitem h
    | cons h _ ih => exact List.forall_mem_append.2 ⟨hitem h, ih⟩

/-- what holds of the items that phrases denote holds of the items of a list -/
theorem OptList.forall_items (h : OptList sep trailing item u v xs) {P : α → Prop}
    (hitem : ∀ {a b x}, item a b x → P x) : ∀ x ∈ xs, P x := by
  cases h with
  | nil => simp
  | list h =>
    induction h with
    | last h => exact List.forall_mem_singleton.2 (hitem h)
    | trail _ h => exact List.forall_mem_singleton.2 (hitem h)
    | cons h _ ih => exact List.forall_mem_cons.2 ⟨hitem h, ih⟩

/-- a list takes as many arguments as it has tokens `p`, if that is so of its items -/
theorem OptList.count [DecidableEq τ] {p : τ} (h : OptList sep trailing item u v xs) (hsep : sep ≠ p)
    (hitem : ∀ {a b x}, item a b x → b.length = a.count p) : v.length = u.count p := by
  cases h with
  | nil => rfl
  | list h =>
    induction h with
    | last h => exact hitem h
    | trail _ h => rw [List.count_append, List.count_singleton, hitem h, beq_eq_false_iff_ne.2 hsep]; rfl
    | cons h _ ih => rw [List.count_append, List.count_cons_of_ne hsep, List.length_append, hitem h, ih]

/-- items that do not end in a separator leave one at the end only where the grammar allows it -/
theorem OptList.getLast (h : OptList sep false item u v xs)
    (hitem : ∀ {a b x}, item a b x → ∃ t, a.getLast? = some t ∧ t ≠ sep) : u.getLast? ≠ some sep := by
  cases h with
  | nil => simp
  | list h =>
    suffices ∃ t, u.getLast? = some t ∧ t ≠ sep by
      obtain ⟨t, ht, hne⟩ := this
      rw [ht]
      exact fun heq => hne (Option.some.inj heq)
    induction h with
    | last h => exact hitem h
    | trail ht _ => cases ht
    | cons h _ ih =>
      obtain ⟨t, ht, hne⟩ := ih
      refine ⟨t, ?_, hne⟩
      rw [List.getLast?_append, List.getLast?_cons, ht]
      rfl

end Lists

end Wah
