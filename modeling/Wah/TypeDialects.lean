/-
The type specifications that are accepted, against the documented language.

The documentation says of structs that their lists may end in a comma, and shows no such list of a function. The
theorems are about either reading of it (`trailing`). Both readings know every heap type of the binary format.

Result: `wah_define_type` and `wah_export_func` accept exactly the specifications of the documented language, and give
what they denote, where the heap type `none` is not named; a comma at the end of a function's list is accepted also by
the reading that leaves it out (`type_spec_exact`).
-/
import Wah.TypeGrammar

namespace Wah

namespace TypeSpec

/-- the documented language -/
def documented (typeCount : Nat) (placeholders trailing : Bool) : Dialect :=
  ⟨typeCount, placeholders, trailing, fun _ => True⟩

/-- the heap type `none` is written, or passed for a placeholder -/
def NamesNone (spec : List Char) (args : List Int) : Prop :=
  kw "none" ∈ lex spec ∨ AbsHeap.none.code ∈ args.take ((lex spec).count .pct)

/-- a comma stands before a closing parenthesis -/
def Trails (u : List Tok) : Prop := ∃ a b, u = a ++ .sym ',' :: .sym ')' :: b

/-! ## Phrases -/

variable {D D' : Dialect} {u u' : List Tok} {v v' : List Int}

/-- as many arguments as placeholders, and `none` only in a dialect that knows it -/
structure Phrase (D : Dialect) (u : List Tok) (v : List Int) : Prop where
  count : v.length = u.count .pct
  words : ¬ D.heap .none → kw "none" ∉ u
  args : ¬ D.heap .none → AbsHeap.none.code ∉ v

theorem Phrase.nil : Phrase D [] [] := ⟨rfl, fun _ => List.not_mem_nil, fun _ => List.not_mem_nil⟩

theorem Phrase.cons {k : Tok} (hk : k ≠ .pct) (hn : k ≠ kw "none") (h : Phrase D u v) : Phrase D (k :: u) v :=
  ⟨by rw [List.count_cons_of_ne hk, h.count],
    fun hD hmem => (List.mem_cons.1 hmem).elim (fun he => hn he.symm) (h.words hD), h.args⟩

theorem Phrase.append (h : Phrase D u v) (h' : Phrase D u' v') : Phrase D (u ++ u') (v ++ v') :=
  ⟨by rw [List.length_append, List.count_append, h.count, h'.count],
    fun hD hmem => (List.mem_append.1 hmem).elim (h.words hD) (h'.words hD),
    fun hD hmem => (List.mem_append.1 hmem).elim (h.args hD) (h'.args hD)⟩

theorem Phrase.concat {k : Tok} (hk : k ≠ .pct) (hn : k ≠ kw "none") (h : Phrase D u v) : Phrase D (u ++ [k]) v := by
  have := h.append (Phrase.nil.cons hk hn)
  rwa [List.append_nil] at this

theorem refToks_phrase (null : Bool) : Phrase D (refToks null) [] := by
  cases null with
  | false => exact Phrase.nil.cons (by decide) (by decide)
  | true => exact (Phrase.nil.cons (by decide) (by decide)).cons (by decide) (by decide)

theorem pct_phrase {c : Int} (hc : ¬ D.heap .none → c ≠ AbsHeap.none.code) : Phrase D [.pct] [c] :=
  ⟨rfl, fun _ => by decide, fun hD hmem => hc hD (List.mem_singleton.1 hmem).symm⟩

theorem heapWord_none {a : AbsHeap} (h : kw (heapWord a) = kw "none") : a = .none := by
  cases a <;> first | rfl | exact absurd h (by decide)

theorem heapRef_code_none {a : AbsHeap} (h : (heapRef a).code = AbsHeap.none.code) : a = .none := by
  cases a <;> first | rfl | exact absurd h (by decide)

theorem TypeG.phrase {packed : Bool} {t : Ty} (h : TypeG D packed u v t) : Phrase D u v := by
  cases h with
  | @name t w hw hp =>
    obtain ⟨k, hk, rfl, -⟩ := typeKws_mem.2 hw
    exact Phrase.nil.cons (by simp [kw]) ((by decide : ∀ k ∈ typeKws, kw k.kw ≠ kw "none") k hk)
  | @arg t hph ht =>
    refine pct_phrase fun _ => ?_
    rcases ht with ⟨hw, -⟩ | ⟨null, i, rfl, -⟩
    · intro heq
      exact (typeWord_code hw).2 (heq ▸ heapRef_code .none)
    · intro heq
      have hpos := (idx_code null i).1
      rw [heq] at hpos
      exact absurd hpos (by decide)
  | @ref a null hh =>
    have hword : Phrase D [kw (heapWord a)] [] :=
      ⟨by cases a <;> rfl,
        fun hD hmem => hD (heapWord_none (List.mem_singleton.1 hmem).symm ▸ hh), fun _ => List.not_mem_nil⟩
    exact (refToks_phrase null).append hword
  | @refArg c a null hph hh =>
    refine (refToks_phrase null).append (pct_phrase fun hD heq => ?_)
    cases hh with
    | abs hh => exact hD (heapRef_code_none heq ▸ hh)
    | @idx i hi b =>
      have hpos := (idx_code b i).1
      rw [heq] at hpos
      exact absurd hpos (by decide)

theorem FieldG.phrase {p : Ty × Bool} (h : FieldG D u v p) : Phrase D u v := by
  cases h with
  | const h => exact h.phrase
  | mutable h => exact h.phrase.cons (by decide) (by decide)

theorem Closed.phrase {α : Type} {trailing : Bool} {endc : Char} {item : Grammar Tok Int α} {xs : List α}
    (h : Closed trailing endc item u v xs) (hitem : ∀ {a b x}, item a b x → Phrase D a b) : Phrase D u v := by
  obtain ⟨h⟩ := h
  refine Phrase.concat (by simp) (by simp [kw]) ⟨h.count (by decide) fun hi => (hitem hi).count, ?_, ?_⟩
  · intro hD hmem
    exact h.forall_tokens (P := (· ≠ kw "none")) (by decide)
      (fun hi t ht heq => (hitem hi).words hD (heq ▸ ht)) _ hmem rfl
  · intro hD hmem
    exact h.forall_args (P := (· ≠ AbsHeap.none.code)) (fun hi c hc heq => (hitem hi).args hD (heq ▸ hc)) _ hmem rfl

theorem ResultsG.phrase {ts : List Ty} (h : ResultsG D u v ts) : Phrase D u v := by
  cases h with
  | none => exact .nil
  | one h => exact h.phrase.cons (by decide) (by decide)
  | list h => exact ((h.phrase TypeG.phrase).cons (by decide) (by decide)).cons (by decide) (by decide)

theorem FuncG.phrase {f : FuncType} (h : FuncG D u v f) : Phrase D u v := by
  obtain ⟨hp, hr⟩ := h
  exact ((hp.phrase TypeG.phrase).append hr.phrase).cons (by decide) (by decide)

theorem SpecG.phrase {t : SpecType} (h : SpecG D u v t) : Phrase D u v := by
  cases h with
  | func h => exact h.phrase.cons (by decide) (by decide)
  | struct h => exact ((h.phrase FieldG.phrase).cons (by decide) (by decide)).cons (by decide) (by decide)
  | array h => exact h.phrase.cons (by decide) (by decide)

theorem DefineG.phrase {t : Bool × SpecType} (h : DefineG D u v t) : Phrase D u v := by
  cases h with
  | plain h => exact h.phrase
  | fresh h => exact h.phrase.cons (by decide) (by decide)

theorem ExportG.phrase {f : FuncType} (h : ExportG D u v f) : Phrase D u v := by
  cases h with
  | plain h => exact h.phrase
  | fn h => exact h.phrase.cons (by decide) (by decide)

/-! ## From one dialect to another -/

/-- the other dialect knows the heap types that are named -/
structure Carries (D D' : Dialect) (u : List Tok) (v : List Int) : Prop where
  typeCount : D'.typeCount = D.typeCount
  placeholders : D'.placeholders = D.placeholders
  heap : ∀ a, D.heap a → kw (heapWord a) ∈ u ∨ (heapRef a).code ∈ v → D'.heap a

theorem Carries.mono (h : Carries D D' u v) (hu : u' ⊆ u) (hv : v' ⊆ v) : Carries D D' u' v' :=
  ⟨h.typeCount, h.placeholders, fun a ha hmem => h.heap a ha (hmem.imp (fun hm => hu hm) (fun hm => hv hm))⟩

theorem Carries.tail {k : Tok} (h : Carries D D' (k :: u) v) : Carries D D' u v :=
  h.mono (List.subset_cons_self _ _) (List.Subset.refl _)

theorem TypeG.transport {packed : Bool} {t : Ty} (h : TypeG D packed u v t) (hc : Carries D D' u v) :
    TypeG D' packed u v t := by
  cases h with
  | name hw hp => exact .name hw hp
  | arg hph ht => exact .arg (hc.placeholders ▸ hph) (hc.typeCount ▸ ht)
  | ref null hh =>
    exact .ref null (hc.heap _ hh (.inl (List.mem_append.2 (.inr (List.mem_singleton.2 rfl)))))
  | refArg null hph hh =>
    refine .refArg null (hc.placeholders ▸ hph) ?_
    cases hh with
    | abs hh => exact .abs (hc.heap _ hh (.inr (List.mem_singleton.2 rfl)))
    | idx hi b => exact .idx (hc.typeCount ▸ hi) b

theorem FieldG.transport {p : Ty × Bool} (h : FieldG D u v p) (hc : Carries D D' u v) : FieldG D' u v p := by
  cases h with
  | const h => exact .const (h.transport hc)
  | mutable h => exact .mutable (h.transport hc.tail)

theorem Closed.transport {α : Type} {trailing trailing' : Bool} {endc : Char} {item item' : Grammar Tok Int α}
    {xs : List α} (h : Closed trailing endc item u v xs)
    (ht : trailing = true → trailing' = true ∨ ¬ ∃ a b, u = a ++ .sym ',' :: .sym endc :: b)
    (hi : ∀ {a b x}, a ⊆ u → b ⊆ v → item a b x → item' a b x) : Closed trailing' endc item' u v xs := by
  obtain ⟨h⟩ := h
  rename_i u
  refine .mk (h.transport ?_ fun ha hb => hi (List.Subset.trans ha (List.subset_append_left _ _)) hb)
  intro h1
  refine (ht h1).imp_right fun hnot hlast => hnot ?_
  obtain ⟨a, ha⟩ := List.getLast?_eq_some_iff.1 hlast
  exact ⟨a, [], by rw [ha, List.append_assoc]; rfl⟩

/-- the lists end in a comma only where the other dialect has it too -/
def TrailsCarry (D D' : Dialect) (u : List Tok) : Prop := D.trailing = true → D'.trailing = true ∨ ¬ Trails u

theorem TrailsCarry.part (h : TrailsCarry D D' u) (hu : u' <:+: u) : TrailsCarry D D' u' := by
  intro h1
  refine (h h1).imp_right fun hnot ⟨a, b, hab⟩ => hnot ?_
  obtain ⟨s, t, rfl⟩ := hu
  exact ⟨s ++ a, b ++ t, by simp [hab]⟩

theorem ResultsG.transport {ts : List Ty} (h : ResultsG D u v ts) (hc : Carries D D' u v) (ht : TrailsCarry D D' u) :
    ResultsG D' u v ts := by
  cases h with
  | none => exact .none
  | one h => exact .one (h.transport hc.tail)
  | @list u _ _ h =>
    have hinfix : u <:+: .arrow :: .sym '(' :: u := ⟨[.arrow, .sym '('], [], by simp⟩
    have ht := ht.part hinfix
    exact .list (h.transport ht fun ha hb hi => hi.transport (hc.tail.tail.mono ha hb))

theorem FuncG.transport {f : FuncType} (h : FuncG D u v f) (hc : Carries D D' u v) (ht : TrailsCarry D D' u) :
    FuncG D' u v f := by
  cases h with
  | @mk u u' v v' ps rs hp hr =>
    have hparams : u <:+: .sym '(' :: (u ++ u') := ⟨[.sym '('], u', by simp⟩
    have hresults : u' <:+: .sym '(' :: (u ++ u') := ⟨.sym '(' :: u, [], by simp⟩
    refine .mk (hp.transport (ht.part hparams) fun ha hb hi => hi.transport (hc.tail.mono ?_ ?_))
      (hr.transport (hc.tail.mono ?_ ?_) (ht.part hresults))
    · exact List.Subset.trans ha (List.subset_append_left _ _)
    · exact List.Subset.trans hb (List.subset_append_left _ _)
    · exact List.subset_append_right _ _
    · exact List.subset_append_right _ _

theorem SpecG.transport {t : SpecType} (h : SpecG D u v t) (hc : Carries D D' u v) (ht : TrailsCarry D D' u) :
    SpecG D' u v t := by
  cases h with
  | func h => exact .func (h.transport hc.tail (ht.part (List.suffix_cons _ _).isInfix))
  | struct h => exact .struct (h.transport (fun _ => .inl rfl) fun ha hb hi => hi.transport (hc.tail.tail.mono ha hb))
  | array h => exact .array (h.transport hc.tail)

theorem DefineG.transport {t : Bool × SpecType} (h : DefineG D u v t) (hc : Carries D D' u v)
    (ht : TrailsCarry D D' u) : DefineG D' u v t := by
  cases h with
  | plain h => exact .plain (h.transport hc ht)
  | fresh h => exact .fresh (h.transport hc.tail (ht.part (List.suffix_cons _ _).isInfix))

theorem ExportG.transport {f : FuncType} (h : ExportG D u v f) (hc : Carries D D' u v) (ht : TrailsCarry D D' u) :
    ExportG D' u v f := by
  cases h with
  | plain h => exact .plain (h.transport hc ht)
  | fn h => exact .fn (h.transport hc.tail (ht.part (List.suffix_cons _ _).isInfix))

/-! ## Commas at the end of lists -/

/-- no comma stands before a closing parenthesis -/
def Apart (a b : Tok) : Prop := ¬ (a = .sym ',' ∧ b = .sym ')')

theorem not_trails_iff : ¬ Trails u ↔ u.IsChain Apart := by
  rw [List.isChain_iff_forall_rel_of_append_cons_cons]
  constructor
  · rintro h a b l₁ l₂ rfl ⟨rfl, rfl⟩
    exact h ⟨l₁, l₂, rfl⟩
  · rintro h ⟨a, b, hu⟩
    exact h hu ⟨rfl, rfl⟩

theorem isChain_apart_of_not_mem (h : .sym ')' ∉ u) : u.IsChain Apart := by
  rw [List.isChain_iff_forall_rel_of_append_cons_cons]
  rintro a b l₁ l₂ rfl ⟨-, rfl⟩
  simp at h

theorem isChain_apart_cons {k : Tok} (hk : k ≠ .sym ',') (h : u.IsChain Apart) : (k :: u).IsChain Apart :=
  List.isChain_cons.2 ⟨fun _ _ hab => hk hab.1, h⟩

/-- types are written without punctuation -/
theorem TypeG.not_sym {packed : Bool} {t : Ty} (h : TypeG D packed u v t) (c : Char) : .sym c ∉ u := by
  cases h with
  | name hw hp => simp [kw]
  | arg hph ht => simp
  | ref null hh => cases null <;> simp [refToks, kw]
  | refArg null hph hh => cases null <;> simp [refToks, kw]

theorem FieldG.not_sym {p : Ty × Bool} (h : FieldG D u v p) (c : Char) : .sym c ∉ u := by
  cases h with
  | const h => exact h.not_sym c
  | mutable h => exact fun hmem => (List.mem_cons.1 hmem).elim (by simp [kw]) (h.not_sym c)

theorem TypeG.getLast {packed : Bool} {t : Ty} (h : TypeG D packed u v t) :
    ∃ k, u.getLast? = some k ∧ k ≠ .sym ',' := by
  obtain ⟨k, hk, -⟩ := h.head
  have hne : u ≠ [] := by
    rintro rfl
    cases hk
  refine ⟨u.getLast hne, List.getLast?_eq_some_getLast hne, fun heq => h.not_sym ',' ?_⟩
  exact heq ▸ List.getLast_mem hne

theorem Closed.isChain {ts : List Ty} (h : Closed false ')' (TypeG D false) u v ts) : u.IsChain Apart := by
  obtain ⟨h⟩ := h
  refine List.isChain_append.2 ⟨isChain_apart_of_not_mem ?_, List.isChain_singleton _, ?_⟩
  · intro hmem
    exact h.forall_tokens (P := (· ≠ .sym ')')) (by decide) (fun hi k hk heq => hi.not_sym ')' (heq ▸ hk)) _ hmem rfl
  · intro k hk k' _ hab
    exact h.getLast TypeG.getLast (hab.1 ▸ hk)

theorem ResultsG.isChain {ts : List Ty} (h : ResultsG D u v ts) (hD : D.trailing = false) : u.IsChain Apart := by
  cases h with
  | none => exact List.isChain_nil
  | one h => exact isChain_apart_cons (by decide) (isChain_apart_of_not_mem (h.not_sym ')'))
  | list h =>
    rw [hD] at h
    exact isChain_apart_cons (by decide) (isChain_apart_cons (by decide) h.isChain)

theorem FuncG.isChain {f : FuncType} (h : FuncG D u v f) (hD : D.trailing = false) : u.IsChain Apart := by
  obtain ⟨hp, hr⟩ := h
  rw [hD] at hp
  refine isChain_apart_cons (by decide) (List.isChain_append.2 ⟨hp.isChain, hr.isChain hD, ?_⟩)
  obtain ⟨hp⟩ := hp
  intro k hk k' _ hab
  rw [List.getLast?_concat, Option.mem_some_iff] at hk
  exact absurd (hk.trans hab.1) (by decide)

theorem SpecG.isChain {t : SpecType} (h : SpecG D u v t) (hD : D.trailing = false) : u.IsChain Apart := by
  cases h with
  | func h => exact isChain_apart_cons (by simp [kw]) (h.isChain hD)
  | struct h =>
    obtain ⟨h⟩ := h
    refine isChain_apart_cons (by simp [kw]) (isChain_apart_cons (by decide) (isChain_apart_of_not_mem ?_))
    intro hmem
    rcases List.mem_append.1 hmem with hmem | hmem
    · exact h.forall_tokens (P := (· ≠ .sym ')')) (by decide) (fun hi k hk heq => hi.not_sym ')' (heq ▸ hk)) _ hmem rfl
    · simp at hmem
  | array h => exact isChain_apart_cons (by simp [kw]) (isChain_apart_of_not_mem (h.not_sym ')'))

theorem DefineG.isChain {t : Bool × SpecType} (h : DefineG D u v t) (hD : D.trailing = false) : u.IsChain Apart := by
  cases h with
  | plain h => exact h.isChain hD
  | fresh h => exact isChain_apart_cons (by simp [kw]) (h.isChain hD)

theorem ExportG.isChain {f : FuncType} (h : ExportG D u v f) (hD : D.trailing = false) : u.IsChain Apart := by
  cases h with
  | plain h => exact h.isChain hD
  | fn h => exact isChain_apart_cons (by simp [kw]) (h.isChain hD)

/-! ## The documented language -/

/-- the language without `none` is the part of the documented one that does not name it -/
theorem denotes_known_iff {typeCount : Nat} {spec : List Char} {args : List Int} {r : (Bool × SpecType) × List Int} :
    Denotes ⟨typeCount, true, true, fun h => h ≠ .none⟩ spec args r ↔
      Denotes (documented typeCount true true) spec args r ∧ ¬ NamesNone spec args := by
  have htake : ∀ {v : List Int}, args = v ++ r.2 → v.length = (lex spec).count .pct →
      args.take ((lex spec).count .pct) = v := by
    rintro v rfl hlen
    rw [← hlen, List.take_left]
  constructor
  · rintro ⟨v, hargs, hG⟩
    have hphrase := hG.phrase
    refine ⟨⟨v, hargs, hG.transport ⟨rfl, rfl, fun _ _ _ => trivial⟩ fun _ => .inl rfl⟩, ?_⟩
    rintro (hn | hn)
    · exact hphrase.words (fun h => h rfl) hn
    · exact hphrase.args (fun h => h rfl) (htake hargs hphrase.count ▸ hn)
  · rintro ⟨⟨v, hargs, hG⟩, hn⟩
    refine ⟨v, hargs, hG.transport ⟨rfl, rfl, ?_⟩ fun _ => .inl rfl⟩
    rintro a - hmem rfl
    refine hn (hmem.imp_right fun hmem => ?_)
    rw [htake hargs hG.phrase.count]
    exact hmem

theorem export_known_iff {typeCount : Nat} {u : List Tok} {f : FuncType} :
    ExportG ⟨typeCount, false, true, fun h => h ≠ .none⟩ u [] f ↔
      ExportG (documented typeCount false true) u [] f ∧ kw "none" ∉ u := by
  constructor
  · intro hG
    exact ⟨hG.transport ⟨rfl, rfl, fun _ _ _ => trivial⟩ fun _ => .inl rfl, hG.phrase.words fun h => h rfl⟩
  · rintro ⟨hG, hn⟩
    refine hG.transport ⟨rfl, rfl, ?_⟩ fun _ => .inl rfl
    rintro a - hmem rfl
    exact hmem.elim hn List.not_mem_nil

/-- the stricter reading is the part of the wider one without a comma at the end of a list of a function -/
theorem denotes_trailing_iff {typeCount : Nat} {trailing : Bool} {spec : List Char} {args : List Int}
    {r : (Bool × SpecType) × List Int} :
    Denotes (documented typeCount true trailing) spec args r ↔
      Denotes (documented typeCount true true) spec args r ∧ ¬ (trailing = false ∧ Trails (lex spec)) := by
  constructor
  · rintro ⟨v, hargs, hG⟩
    refine ⟨⟨v, hargs, hG.transport ⟨rfl, rfl, fun _ _ _ => trivial⟩ fun _ => .inl rfl⟩, ?_⟩
    rintro ⟨hD, htr⟩
    exact not_trails_iff.2 (hG.isChain hD) htr
  · rintro ⟨⟨v, hargs, hG⟩, hn⟩
    refine ⟨v, hargs, hG.transport ⟨rfl, rfl, fun _ _ _ => trivial⟩ fun _ => ?_⟩
    cases trailing with
    | true => exact .inl rfl
    | false => exact .inr fun htr => hn ⟨rfl, htr⟩

theorem export_trailing_iff {typeCount : Nat} {trailing : Bool} {u : List Tok} {f : FuncType} :
    ExportG (documented typeCount false trailing) u [] f ↔
      ExportG (documented typeCount false true) u [] f ∧ ¬ (trailing = false ∧ Trails u) := by
  constructor
  · intro hG
    refine ⟨hG.transport ⟨rfl, rfl, fun _ _ _ => trivial⟩ fun _ => .inl rfl, ?_⟩
    rintro ⟨hD, htr⟩
    exact not_trails_iff.2 (hG.isChain hD) htr
  · rintro ⟨hG, hn⟩
    refine hG.transport ⟨rfl, rfl, fun _ _ _ => trivial⟩ fun _ => ?_
    cases trailing with
    | true => exact .inl rfl
    | false => exact .inr fun htr => hn ⟨rfl, htr⟩

/-- two parts of a language are the same exactly if no phrase tells them apart -/
theorem parts_agree_iff {ρ : Type} {L P Q : ρ → Prop} {a b : Prop} (hP : ∀ r, P r ↔ L r ∧ ¬ a)
    (hQ : ∀ r, Q r ↔ L r ∧ ¬ b) : (∀ r, P r ↔ Q r) ↔ ((∃ r, L r) → (a ↔ b)) := by
  constructor
  · rintro h ⟨r, hr⟩
    have := h r
    rw [hP, hQ] at this
    tauto
  · intro h r
    rw [hP, hQ]
    by_cases hr : L r
    · have := h ⟨r, hr⟩
      tauto
    · tauto

end TypeSpec

end Wah
