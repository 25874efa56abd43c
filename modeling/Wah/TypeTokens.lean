/-
The tokens of the type specification language.

Model: `nextTok` skips white space and takes a maximal run of identifier characters, `%T`, `->` or one character.
`lex` gives all the tokens of a text.

Results: each of the takers of the parser takes exactly one kind of token (`takeKw_takes`, `takeLit_takes`,
`takeChar_takes`), and a keyword table gives the type of the word that comes next (`takeKwType_iff`).
-/
import Wah.TypeSpec

namespace Wah

namespace TypeSpec

/-- a token; a word is a keyword or nothing that the language knows -/
inductive Tok where
  | word (name : List Char)
  | pct
  | arrow
  | sym (c : Char)
deriving DecidableEq, Repr

/-- the token that comes next, and what follows it -/
def nextTok (cur : List Char) : Option (Tok × List Char) :=
  match skipWs cur with
  | [] => none
  | c :: rest =>
    if isIdentChar c then some (.word ((c :: rest).takeWhile isIdentChar), (c :: rest).dropWhile isIdentChar)
    else if c = '%' ∧ rest.head? = some 'T' then some (.pct, rest.tail)
    else if c = '-' ∧ rest.head? = some '>' then some (.arrow, rest.tail)
    else some (.sym c, rest)

/-- every token takes a character -/
def lexTurns : Nat → List Char → List Tok
  | 0, _ => []
  | turns + 1, cur =>
    match nextTok cur with
    | none => []
    | some (t, rest) => t :: lexTurns turns rest

def lex (cur : List Char) : List Tok := lexTurns cur.length cur

theorem skipWs_length_le (cur : List Char) : (skipWs cur).length ≤ cur.length :=
  (List.dropWhile_sublist _).length_le

theorem nextTok_length {cur rest : List Char} {t : Tok} (h : nextTok cur = some (t, rest)) :
    rest.length < cur.length := by
  have hws := skipWs_length_le cur
  unfold nextTok at h
  cases hs : skipWs cur with
  | nil => simp [hs] at h
  | cons c cs =>
    simp only [hs, List.length_cons] at h hws
    have htail : cs.tail.length ≤ cs.length := by simp
    split at h
    · rename_i hc
      obtain ⟨-, rfl⟩ := Prod.mk.inj (Option.some.inj h)
      have hle := (List.dropWhile_sublist isIdentChar (l := cs)).length_le
      rw [List.dropWhile_cons_of_pos hc]
      omega
    · split at h
      · obtain ⟨-, rfl⟩ := Prod.mk.inj (Option.some.inj h)
        omega
      · split at h
        · obtain ⟨-, rfl⟩ := Prod.mk.inj (Option.some.inj h)
          omega
        · obtain ⟨-, rfl⟩ := Prod.mk.inj (Option.some.inj h)
          omega

theorem lexTurns_eq {turns turns' : Nat} {cur : List Char} (h : cur.length ≤ turns) (h' : cur.length ≤ turns') :
    lexTurns turns cur = lexTurns turns' cur := by
  induction turns generalizing turns' cur with
  | zero =>
    obtain rfl : cur = [] := List.length_eq_zero_iff.1 (Nat.le_zero.1 h)
    cases turns' with
    | zero => rfl
    | succ m => rfl
  | succ k ih =>
    cases turns' with
    | zero =>
      obtain rfl : cur = [] := List.length_eq_zero_iff.1 (Nat.le_zero.1 h')
      rfl
    | succ m =>
      unfold lexTurns
      cases hn : nextTok cur with
      | none => rfl
      | some p =>
        obtain ⟨t, rest⟩ := p
        have := nextTok_length hn
        simp only [List.cons.injEq, true_and]
        exact ih (by omega) (by omega)

theorem lex_of_none {cur : List Char} (h : nextTok cur = none) : lex cur = [] := by
  unfold lex
  cases hc : cur.length with
  | zero => rfl
  | succ k => simp [lexTurns, h]

theorem lex_of_some {cur rest : List Char} {t : Tok} (h : nextTok cur = some (t, rest)) :
    lex cur = t :: lex rest := by
  have hlt := nextTok_length h
  unfold lex
  obtain ⟨k, hk⟩ : ∃ k, cur.length = k + 1 := ⟨cur.length - 1, by omega⟩
  rw [hk]
  simp only [lexTurns, h, List.cons.injEq, true_and]
  exact lexTurns_eq (by omega) le_rfl

/-- no more tokens than characters -/
theorem lex_length_le (cur : List Char) : (lex cur).length ≤ cur.length := by
  have h : ∀ turns cur, (lexTurns turns cur).length ≤ turns := by
    intro turns
    induction turns with
    | zero => exact fun _ => le_rfl
    | succ k ih =>
      intro cur
      unfold lexTurns
      split
      · exact Nat.zero_le _
      · exact Nat.succ_le_succ (ih _)
  exact h _ _

/-- the first token of a text is the next one -/
theorem lex_cons {cur : List Char} {t : Tok} {ts : List Tok} (h : lex cur = t :: ts) :
    ∃ rest, nextTok cur = some (t, rest) ∧ lex rest = ts := by
  cases hn : nextTok cur with
  | none =>
    rw [lex_of_none hn] at h
    cases h
  | some p =>
    obtain ⟨t', rest⟩ := p
    rw [lex_of_some hn] at h
    obtain ⟨rfl, rfl⟩ := List.cons.inj h
    exact ⟨rest, rfl, rfl⟩

/-- a text without tokens is white space -/
theorem lex_eq_nil {cur : List Char} : lex cur = [] ↔ skipWs cur = [] := by
  have hnext : nextTok cur = none ↔ skipWs cur = [] := by
    unfold nextTok
    cases skipWs cur with
    | nil => simp
    | cons c cs =>
      simp only [reduceCtorEq, iff_false]
      split_ifs <;> simp
  rw [← hnext]
  constructor
  · intro h
    cases hn : nextTok cur with
    | none => rfl
    | some p =>
      obtain ⟨t, rest⟩ := p
      rw [lex_of_some hn] at h
      cases h
  · exact lex_of_none

/-! ## Takers -/

/-- the function takes the token `t`, and nothing else -/
def TakesTok (take : List Char → Option (List Char)) (t : Tok) : Prop :=
  ∀ cur rest, take cur = some rest ↔ nextTok cur = some (t, rest)

section Takers

variable {take : List Char → Option (List Char)} {t : Tok} {cur rest : List Char} {ts : List Tok}

theorem TakesTok.lex_eq (h : TakesTok take t) (ht : take cur = some rest) : lex cur = t :: lex rest :=
  lex_of_some ((h cur rest).1 ht)

theorem TakesTok.of_lex (h : TakesTok take t) (hl : lex cur = t :: ts) :
    ∃ rest, take cur = some rest ∧ lex rest = ts := by
  obtain ⟨rest, hn, hr⟩ := lex_cons hl
  exact ⟨rest, (h cur rest).2 hn, hr⟩

theorem TakesTok.eq_none (h : TakesTok take t) (hl : (lex cur).head? ≠ some t) : take cur = none := by
  cases ht : take cur with
  | none => rfl
  | some rest =>
    rw [h.lex_eq ht] at hl
    exact absurd rfl hl

theorem TakesTok.head (h : TakesTok take t) : (take cur).isSome = true ↔ (lex cur).head? = some t := by
  constructor
  · intro hs
    obtain ⟨rest, hr⟩ := Option.isSome_iff_exists.1 hs
    rw [h.lex_eq hr]
    rfl
  · intro hl
    by_contra hs
    cases hlex : lex cur with
    | nil => simp [hlex] at hl
    | cons t' ts =>
      obtain rfl : t' = t := by simpa [hlex] using hl
      obtain ⟨rest, hr, -⟩ := h.of_lex hlex
      simp [hr] at hs

end Takers

theorem takeWhile_append_stop {p : Char → Bool} {w rest : List Char} (hw : ∀ c ∈ w, p c = true)
    (hr : rest.head?.all (fun c => !p c) = true) :
    (w ++ rest).takeWhile p = w ∧ (w ++ rest).dropWhile p = rest := by
  have hrest : rest.takeWhile p = [] ∧ rest.dropWhile p = rest := by
    cases rest with
    | nil => exact ⟨rfl, rfl⟩
    | cons c cs =>
      have hc : ¬ p c = true := by simpa using hr
      exact ⟨List.takeWhile_cons_of_neg hc, List.dropWhile_cons_of_neg hc⟩
  rw [List.takeWhile_append_of_pos hw, List.dropWhile_append_of_pos hw, hrest.1, hrest.2, List.append_nil]
  exact ⟨rfl, rfl⟩

theorem dropWhile_head {p : Char → Bool} (l : List Char) : (l.dropWhile p).head?.all (fun c => !p c) = true := by
  induction l with
  | nil => rfl
  | cons c cs ih =>
    by_cases hc : p c = true
    · rw [List.dropWhile_cons_of_pos hc]
      exact ih
    · rw [List.dropWhile_cons_of_neg hc]
      simpa using hc

/-- what the keywords look like -/
def isWord (w : List Char) : Bool := !w.isEmpty && w.all isIdentChar

theorem isWord_iff {w : List Char} : isWord w = true ↔ w ≠ [] ∧ ∀ c ∈ w, isIdentChar c = true := by
  simp [isWord]

/-- a keyword is taken where it is the next word, to the end of that word -/
theorem takeKw_takes {kw : String} (hk : isWord kw.toList = true) : TakesTok (takeKw kw) (.word kw.toList) := by
  intro cur rest
  rw [isWord_iff] at hk
  obtain ⟨c, w, hw⟩ := List.exists_cons_of_ne_nil hk.1
  have hc : isIdentChar c = true := hk.2 c (hw ▸ List.mem_cons_self)
  unfold takeKw nextTok
  dsimp only
  constructor
  · intro h
    split at h
    · rename_i hcond
      obtain ⟨⟨tail, htail⟩, hhead⟩ := hcond
      cases h
      have hdrop : (skipWs cur).drop kw.toList.length = tail := by rw [← htail, List.drop_left]
      rw [hdrop] at hhead ⊢
      obtain ⟨htake, hdropw⟩ := takeWhile_append_stop hk.2 hhead
      rw [← htail]
      rw [hw] at htake hdropw ⊢
      simp only [List.cons_append] at htake hdropw ⊢
      rw [if_pos hc, htake, hdropw]
    · cases h
  · intro h
    cases hs : skipWs cur with
    | nil => simp [hs] at h
    | cons d ds =>
      simp only [hs] at h
      split at h
      · obtain ⟨htake, hdrop⟩ := Prod.mk.inj (Option.some.inj h)
        have htake := Tok.word.inj htake
        have hsplit : kw.toList ++ rest = d :: ds := by
          rw [← htake, ← hdrop]
          exact List.takeWhile_append_dropWhile
        have hrest : (d :: ds).drop kw.toList.length = rest := by rw [← hsplit, List.drop_left]
        rw [hrest, if_pos ⟨⟨rest, hsplit⟩, hdrop ▸ dropWhile_head _⟩]
      · split_ifs at h <;> cases h

/-- the characters that are tokens of their own -/
def isSym (c : Char) : Bool := !isIdentChar c && !decide (c = '%') && !decide (c = '-')

theorem takeChar_takes {c : Char} (hc : isSym c = true) : TakesTok (takeChar c) (.sym c) := by
  intro cur rest
  obtain ⟨hid, hp, hm⟩ : isIdentChar c = false ∧ c ≠ '%' ∧ c ≠ '-' := by
    simpa [isSym, and_assoc] using hc
  unfold takeChar nextTok
  cases skipWs cur with
  | nil => simp
  | cons d ds =>
    by_cases hd : d = c
    · subst hd
      simp [hid, hp, hm]
    · simp only [if_neg hd, reduceCtorEq, false_iff]
      intro h
      split_ifs at h
      · cases h
      · cases h
      · cases h
      · obtain ⟨hs, -⟩ := Prod.mk.inj (Option.some.inj h)
        exact hd (Tok.sym.inj hs)

theorem takeLit_sym (c : Char) (cur : List Char) : takeLit [c] cur = takeChar c cur := by
  unfold takeLit takeChar
  cases skipWs cur with
  | nil => simp
  | cons d ds =>
    by_cases hd : d = c
    · subst hd
      simp
    · simp [hd, Ne.symm hd]

theorem takeLit_takes {c : Char} (hc : isSym c = true) : TakesTok (takeLit [c]) (.sym c) := by
  intro cur rest
  rw [takeLit_sym]
  exact takeChar_takes hc cur rest

/-- a literal of two characters of which the first is no token by itself -/
theorem takeLit_two (a b : Char) (cur : List Char) :
    takeLit [a, b] cur = match skipWs cur with
      | [] => none
      | c :: rest => if c = a ∧ rest.head? = some b then some rest.tail else none := by
  unfold takeLit
  cases skipWs cur with
  | nil => simp
  | cons c cs =>
    cases cs with
    | nil => simp
    | cons d ds => simp [eq_comm]

theorem takeLit_pct : TakesTok (takeLit ['%', 'T']) .pct := by
  intro cur rest
  rw [takeLit_two]
  unfold nextTok
  cases skipWs cur with
  | nil => simp
  | cons c cs =>
    by_cases h : c = '%' ∧ cs.head? = some 'T'
    · obtain ⟨rfl, -⟩ := id h
      simp [h, show isIdentChar '%' = false from rfl]
    · simp only [if_neg h, reduceCtorEq, false_iff]
      intro heq
      split_ifs at heq <;> cases heq

theorem takeLit_arrow : TakesTok (takeLit ['-', '>']) .arrow := by
  intro cur rest
  rw [takeLit_two]
  unfold nextTok
  cases skipWs cur with
  | nil => simp
  | cons c cs =>
    by_cases h : c = '-' ∧ cs.head? = some '>'
    · obtain ⟨rfl, -⟩ := id h
      simp [h, show isIdentChar '-' = false from rfl]
    · simp only [if_neg h, reduceCtorEq, false_iff]
      intro heq
      split_ifs at heq <;> cases heq

/-! ## Keyword tables -/

/-- a table of words that differ gives the type of the word that comes next -/
theorem takeKwType_iff {kws : List SpecKw} (hwords : ∀ k ∈ kws, isWord k.kw.toList = true)
    (hdiff : kws.Pairwise fun a b => a.kw.toList ≠ b.kw.toList) {packed : Bool} {cur rest : List Char} {t : Ty} :
    takeKwType kws packed cur = some (t, rest) ↔
      ∃ k ∈ kws, (k.packed = true → packed = true) ∧ k.type = t ∧ nextTok cur = some (.word k.kw.toList, rest) := by
  induction kws with
  | nil => simp [takeKwType]
  | cons k kws ih =>
    obtain ⟨hk, hdiff⟩ := List.pairwise_cons.1 hdiff
    have ih := ih (fun k' h => hwords k' (List.mem_cons_of_mem _ h)) hdiff
    have htake := takeKw_takes (hwords k List.mem_cons_self)
    unfold takeKwType
    by_cases hp : (k.packed && !packed) = true
    · rw [if_pos hp, ih]
      have hnot : ¬ (k.packed = true → packed = true) := by
        simp only [Bool.and_eq_true, Bool.not_eq_true'] at hp
        simp [hp]
      constructor
      · rintro ⟨k', hk', h⟩
        exact ⟨k', List.mem_cons_of_mem _ hk', h⟩
      · rintro ⟨k', hk', h⟩
        rcases List.mem_cons.1 hk' with rfl | hk'
        · exact absurd h.1 hnot
        · exact ⟨k', hk', h⟩
    · have hallow : k.packed = true → packed = true := by
        simpa only [Bool.and_eq_true, Bool.not_eq_true', not_and, Bool.not_eq_false] using hp
      rw [if_neg hp]
      cases hr : takeKw k.kw cur with
      | some r =>
        have hn := (htake cur r).1 hr
        simp only [Option.some.injEq, Prod.mk.injEq]
        constructor
        · rintro ⟨rfl, rfl⟩
          exact ⟨k, List.mem_cons_self, hallow, rfl, hn⟩
        · rintro ⟨k', hk', -, rfl, hn'⟩
          rw [hn] at hn'
          obtain ⟨hw, rfl⟩ := Prod.mk.inj (Option.some.inj hn')
          rcases List.mem_cons.1 hk' with rfl | hk'
          · exact ⟨rfl, rfl⟩
          · exact absurd (Tok.word.inj hw) (hk k' hk')
      | none =>
        simp only [ih]
        constructor
        · rintro ⟨k', hk', h⟩
          exact ⟨k', List.mem_cons_of_mem _ hk', h⟩
        · rintro ⟨k', hk', h⟩
          rcases List.mem_cons.1 hk' with rfl | hk'
          · rw [(htake cur rest).2 h.2.2] at hr
            cases hr
          · exact ⟨k', hk', h⟩

end TypeSpec

end Wah
