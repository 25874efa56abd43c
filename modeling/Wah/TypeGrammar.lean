/-
The grammar of type specifications, and the parser as a parser of it.

Model: a grammar over the tokens of a specification and the arguments of its placeholders, with the dialects that differ
in the heap types known and in whether the lists of a function may end in a comma, which the documentation only says of
structs.

Result: `wah_define_type` and `wah_export_func` accept exactly the specifications of the dialect without the heap type
`none`, whose lists may end in a comma, and give what these denote (`defineSpec_eq`, `exportSpec_eq`).
-/
import Wah.TokenGrammar
import Wah.TypeTokens

namespace Wah

namespace TypeSpec

/-! ## The grammar -/

/-- the name of the nullable reference to an abstract heap type -/
def refWord : AbsHeap → String
  | .func => "funcref" | .externRef => "externref" | .any => "anyref" | .eq => "eqref" | .i31 => "i31ref"
  | .struct => "structref" | .array => "arrayref" | .exn => "exnref" | .nofunc => "nullfuncref"
  | .noexternRef => "nullexternref" | .none => "nullref" | .noexn => "nullexnref"

/-- the name of an abstract heap type -/
def heapWord : AbsHeap → String
  | .func => "func" | .externRef => "extern" | .any => "any" | .eq => "eq" | .i31 => "i31" | .struct => "struct"
  | .array => "array" | .exn => "exn" | .nofunc => "nofunc" | .noexternRef => "noextern" | .none => "none"
  | .noexn => "noexn"

/-- the name of a type that has one -/
def typeWord : Ty → Option String
  | .i32 => some "i32" | .i64 => some "i64" | .f32 => some "f32" | .f64 => some "f64" | .v128 => some "v128"
  | .packedI8 => some "i8" | .packedI16 => some "i16"
  | .ref true (.abs h) => some (refWord h)
  | _ => none

def kw (name : String) : Tok := .word name.toList

/-- what the readings of the documentation differ in -/
structure Dialect where
  typeCount : Nat
  placeholders : Bool
  /-- the lists of a function may end in a comma -/
  trailing : Bool
  /-- the heap types that are known after `ref` -/
  heap : AbsHeap → Prop

variable (D : Dialect)

/-- a type that `%T` may stand for -/
def ValueTy (typeCount : Nat) (packed : Bool) (t : Ty) : Prop :=
  ((typeWord t).isSome = true ∧ (t.isPacked = true → packed = true)) ∨
    ∃ null i, t = .ref null (.idx i) ∧ i < typeCount

/-- an argument that `ref %T` takes, and its heap type: the nullability of a type index does not matter -/
inductive HeapArg : Int → HeapTy → Prop where
  | abs {h : AbsHeap} (hh : D.heap h) : HeapArg (heapRef h).code (.abs h)
  | idx {i : Nat} (hi : i < D.typeCount) (null : Bool) : HeapArg (Ty.ref null (.idx i)).code (.idx i)

def refToks (null : Bool) : List Tok := if null then [kw "ref", kw "null"] else [kw "ref"]

inductive TypeG (packed : Bool) : Grammar Tok Int Ty where
  | name {t : Ty} {w : String} (hw : typeWord t = some w) (hp : t.isPacked = true → packed = true) :
      TypeG packed [kw w] [] t
  | arg {t : Ty} (hph : D.placeholders = true) (ht : ValueTy D.typeCount packed t) : TypeG packed [.pct] [t.code] t
  | ref {h : AbsHeap} (null : Bool) (hh : D.heap h) :
      TypeG packed (refToks null ++ [kw (heapWord h)]) [] (.ref null (.abs h))
  | refArg {c : Int} {h : HeapTy} (null : Bool) (hph : D.placeholders = true) (hh : HeapArg D c h) :
      TypeG packed (refToks null ++ [.pct]) [c] (.ref null h)

inductive FieldG : Grammar Tok Int (Ty × Bool) where
  | const {u : List Tok} {v : List Int} {t : Ty} (h : TypeG D true u v t) : FieldG u v (t, false)
  | mutable {u : List Tok} {v : List Int} {t : Ty} (h : TypeG D true u v t) : FieldG (kw "mut" :: u) v (t, true)

/-- a list up to its closing character -/
inductive Closed {α : Type} (trailing : Bool) (endc : Char) (item : Grammar Tok Int α) : Grammar Tok Int (List α) where
  | mk {u : List Tok} {v : List Int} {xs : List α} (h : OptList (.sym ',') trailing item u v xs) :
      Closed trailing endc item (u ++ [.sym endc]) v xs

inductive ResultsG : Grammar Tok Int (List Ty) where
  | none : ResultsG [] [] []
  | one {u : List Tok} {v : List Int} {t : Ty} (h : TypeG D false u v t) : ResultsG (.arrow :: u) v [t]
  | list {u : List Tok} {v : List Int} {ts : List Ty} (h : Closed D.trailing ')' (TypeG D false) u v ts) :
      ResultsG (.arrow :: .sym '(' :: u) v ts

/-- a function type after `fn` -/
inductive FuncG : Grammar Tok Int FuncType where
  | mk {u u' : List Tok} {v v' : List Int} {ps rs : List Ty} (hp : Closed D.trailing ')' (TypeG D false) u v ps)
      (hr : ResultsG D u' v' rs) : FuncG (.sym '(' :: (u ++ u')) (v ++ v') ⟨ps, rs⟩

inductive SpecG : Grammar Tok Int SpecType where
  | func {u : List Tok} {v : List Int} {f : FuncType} (h : FuncG D u v f) : SpecG (kw "fn" :: u) v (.func f)
  | struct {u : List Tok} {v : List Int} {fs : List (Ty × Bool)} (h : Closed true '}' (FieldG D) u v fs) :
      SpecG (kw "struct" :: .sym '{' :: u) v (.struct fs)
  | array {u : List Tok} {v : List Int} {e : Ty × Bool} (h : FieldG D u v e) : SpecG (kw "array" :: u) v (.array e)

/-- what `wah_define_type` documents -/
inductive DefineG : Grammar Tok Int (Bool × SpecType) where
  | plain {u : List Tok} {v : List Int} {t : SpecType} (h : SpecG D u v t) : DefineG u v (false, t)
  | fresh {u : List Tok} {v : List Int} {t : SpecType} (h : SpecG D u v t) : DefineG (kw "fresh" :: u) v (true, t)

/-- what `wah_export_func` documents -/
inductive ExportG : Grammar Tok Int FuncType where
  | plain {u : List Tok} {v : List Int} {f : FuncType} (h : FuncG D u v f) : ExportG u v f
  | fn {u : List Tok} {v : List Int} {f : FuncType} (h : FuncG D u v f) : ExportG (kw "fn" :: u) v f

/-- the specification denotes the type, taking its arguments from the front of those given, in order -/
def Denotes (spec : List Char) (args : List Int) (r : (Bool × SpecType) × List Int) : Prop :=
  ∃ v, args = v ++ r.2 ∧ DefineG D (lex spec) v r.1

/-! ## Arguments -/

/-- the dialect of the parser -/
def SpecEnv.dialect (E : SpecEnv) : Dialect := ⟨E.typeCount, E.placeholders, true, fun h => h ≠ .none⟩

/-- a named type is in the table under its name -/
theorem typeKws_mem {t : Ty} {w : String} :
    (∃ k ∈ typeKws, k.kw = w ∧ k.type = t) ↔ typeWord t = some w := by
  constructor
  · rintro ⟨k, hk, rfl, rfl⟩
    exact (by decide : ∀ k ∈ typeKws, typeWord k.type = some k.kw) k hk
  · intro h
    have hnamed : ∀ null a, typeWord (.ref null (.abs a)) = some w →
        ∃ k ∈ typeKws, k.kw = w ∧ k.type = .ref null (.abs a) := by
      intro null a h
      cases null with
      | false => cases h
      | true =>
        cases h
        cases a <;> decide
    cases t with
    | ref null h' =>
      cases h' with
      | abs a => exact hnamed null a h
      | idx i => cases null <;> cases h
    | bot => cases h
    | _ =>
      cases h
      decide

/-- only the packed types are marked as such -/
theorem typeKws_packed : ∀ k ∈ typeKws, k.packed = k.type.isPacked := by decide

/-- the heap types of the table, `none` left out -/
theorem heapKws_mem {t : Ty} {w : String} :
    (∃ k ∈ heapKws, k.kw = w ∧ k.type = t) ↔ ∃ h, h ≠ AbsHeap.none ∧ heapWord h = w ∧ heapRef h = t := by
  constructor
  · rintro ⟨k, hk, rfl, rfl⟩
    revert k
    simp only [heapKws, List.forall_mem_cons, List.not_mem_nil, IsEmpty.forall_iff, implies_true, and_true]
    exact ⟨⟨.func, by decide⟩, ⟨.externRef, by decide⟩, ⟨.exn, by decide⟩, ⟨.any, by decide⟩, ⟨.eq, by decide⟩,
      ⟨.i31, by decide⟩, ⟨.struct, by decide⟩, ⟨.array, by decide⟩, ⟨.nofunc, by decide⟩, ⟨.noexternRef, by decide⟩,
      ⟨.noexn, by decide⟩⟩
  · rintro ⟨h, hne, rfl, rfl⟩
    cases h <;> first | decide | exact absurd rfl hne

/-- the built-in types the parser knows: the named ones, and the heap types except `none` -/
theorem knownBuiltin_iff {c : Int} {t : Ty} :
    knownBuiltin c = some t ↔
      ((typeWord t).isSome = true ∨ ∃ h, h ≠ AbsHeap.none ∧ heapRef h = t) ∧ t.code = c := by
  have hmem : t ∈ (typeKws ++ heapKws).map SpecKw.type ↔
      ((typeWord t).isSome = true ∨ ∃ h, h ≠ AbsHeap.none ∧ heapRef h = t) := by
    rw [Option.isSome_iff_exists]
    simp only [List.map_append, List.mem_append, List.mem_map, ← typeKws_mem]
    refine or_congr ?_ ?_
    · exact ⟨fun ⟨k, hk, ht⟩ => ⟨k.kw, k, hk, rfl, ht⟩, fun ⟨_, k, hk, _, ht⟩ => ⟨k, hk, ht⟩⟩
    · constructor
      · rintro ⟨k, hk, ht⟩
        obtain ⟨h, hne, -, hr⟩ := heapKws_mem.1 ⟨k, hk, rfl, ht⟩
        exact ⟨h, hne, hr⟩
      · rintro ⟨h, hne, hr⟩
        obtain ⟨k, hk, -, ht⟩ := heapKws_mem.2 ⟨h, hne, rfl, hr⟩
        exact ⟨k, hk, ht⟩
  have hinj : ∀ a ∈ (typeKws ++ heapKws).map SpecKw.type, ∀ b ∈ (typeKws ++ heapKws).map SpecKw.type,
      a.code = b.code → a = b := by decide
  rw [← hmem]
  constructor
  · intro h
    exact ⟨List.mem_of_find?_eq_some h, by simpa using List.find?_some h⟩
  · rintro ⟨ht, rfl⟩
    unfold knownBuiltin
    cases hf : ((typeKws ++ heapKws).map SpecKw.type).find? fun ty => ty.code = t.code with
    | none =>
      have hnot := List.find?_eq_none.1 hf t ht
      simp at hnot
    | some t' =>
      have hc : t'.code = t.code := by simpa using List.find?_some hf
      rw [hinj t' (List.mem_of_find?_eq_some hf) t ht hc]

/-- the code of a heap type is an even number in the range that is checked, and that of a named type is not -/
theorem heapRef_code (h : AbsHeap) : (heapRef h).code ≤ -32 ∧ -54 ≤ (heapRef h).code ∧ (heapRef h).code % 2 = 0 := by
  cases h <;> decide

theorem typeWord_code {t : Ty} (h : (typeWord t).isSome = true) :
    t.code < 0 ∧ ¬ (t.code ≤ -32 ∧ -54 ≤ t.code ∧ t.code % 2 = 0) := by
  obtain ⟨w, hw⟩ := Option.isSome_iff_exists.1 h
  obtain ⟨k, hk, -, rfl⟩ := typeKws_mem.2 hw
  exact (by decide : ∀ k ∈ typeKws,
    k.type.code < 0 ∧ ¬ (k.type.code ≤ -32 ∧ -54 ≤ k.type.code ∧ k.type.code % 2 = 0)) k hk

theorem idx_code (null : Bool) (i : Nat) :
    0 ≤ (Ty.ref null (.idx i)).code ∧ ((Ty.ref null (.idx i)).code / 2).toNat = i ∧
      indexType (Ty.ref null (.idx i)).code = .ref null (.idx i) := by
  have hc : (Ty.ref null (.idx i)).code = 2 * (i : Int) + (if null then 1 else 0) := rfl
  rw [hc]
  cases null with
  | false =>
    simp only [Bool.false_eq_true, if_false, add_zero, indexType, Ty.ref.injEq, HeapTy.idx.injEq,
      decide_eq_false_iff_not]
    omega
  | true =>
    simp only [if_true, indexType, Ty.ref.injEq, HeapTy.idx.injEq, decide_eq_true_eq]
    omega

/-- an argument that is not negative is the code of a reference to a type index -/
theorem code_indexType {c : Int} (hc : 0 ≤ c) : (indexType c).code = c := by
  have hc2 : (indexType c).code = 2 * ((c / 2).toNat : Int) + (if decide (c % 2 = 1) then 1 else 0) := rfl
  rw [hc2]
  by_cases h : c % 2 = 1
  · simp only [h, decide_true, if_true]
    omega
  · simp only [h, decide_false, Bool.false_eq_true, if_false]
    omega

theorem valueArg_iff {E : SpecEnv} {packed : Bool} {c : Int} {t : Ty} :
    valueArg E packed c = some t ↔ c = t.code ∧ ValueTy E.typeCount packed t := by
  unfold valueArg ValueTy checkTypeIdx
  constructor
  · intro h
    by_cases hneg : c < 0
    · rw [if_pos hneg] at h
      cases hk : knownBuiltin c with
      | none => simp [hk] at h
      | some ty =>
        simp only [hk] at h
        split_ifs at h with h1 h2
        cases h
        obtain ⟨hty, rfl⟩ := knownBuiltin_iff.1 hk
        refine ⟨rfl, .inl ⟨hty.resolve_right ?_, by simpa using h1⟩⟩
        rintro ⟨a, -, rfl⟩
        exact h2 (heapRef_code a)
    · rw [if_neg hneg] at h
      split_ifs at h with h1
      cases h
      exact ⟨(code_indexType (by omega)).symm, .inr ⟨_, _, rfl, of_decide_eq_true h1⟩⟩
  · rintro ⟨rfl, ⟨hw, hp⟩ | ⟨null, i, rfl, hi⟩⟩
    · obtain ⟨hneg, hnot⟩ := typeWord_code hw
      rw [if_pos hneg, knownBuiltin_iff.2 ⟨.inl hw, rfl⟩]
      simp only [if_neg hnot]
      rw [if_neg]
      simpa using hp
    · obtain ⟨hpos, hidx, hty⟩ := idx_code null i
      rw [if_neg (by omega), hidx, if_pos (decide_eq_true hi), hty]

theorem heapArg_iff {E : SpecEnv} {null : Bool} {c : Int} {t : Ty} :
    heapArg E null c = some t ↔ ∃ h, HeapArg E.dialect c h ∧ t = .ref null h := by
  have hnull : ∀ a, (if null then (heapRef a).asNullable else heapRef a) = .ref null (.abs a) := by
    intro a
    cases null <;> rfl
  unfold heapArg checkTypeIdx
  constructor
  · intro h
    by_cases hneg : c < 0
    · rw [if_pos hneg] at h
      cases hk : knownBuiltin c with
      | none => simp [hk] at h
      | some ty =>
        simp only [hk] at h
        obtain ⟨hty | ⟨a, ha, rfl⟩, rfl⟩ := knownBuiltin_iff.1 hk
        · rw [if_neg (typeWord_code hty).2] at h
          cases h
        · rw [if_pos (heapRef_code a), hnull] at h
          exact ⟨.abs a, .abs ha, (Option.some.inj h).symm⟩
    · rw [if_neg hneg] at h
      split_ifs at h with h1
      cases h
      refine ⟨_, ?_, rfl⟩
      have := HeapArg.idx (D := E.dialect) (of_decide_eq_true h1) (decide (c % 2 = 1))
      rwa [show (Ty.ref (decide (c % 2 = 1)) (.idx (c / 2).toNat)).code = c from code_indexType (by omega)] at this
  · rintro ⟨h, hh, rfl⟩
    cases hh with
    | abs hh =>
      rename_i a
      have hcode := heapRef_code a
      rw [if_pos (by omega), knownBuiltin_iff.2 ⟨.inr ⟨a, hh, rfl⟩, rfl⟩]
      simp only [if_pos hcode, hnull]
    | @idx i hi b =>
      have hi : i < E.typeCount := hi
      obtain ⟨hpos, hidx, -⟩ := idx_code b i
      rw [if_neg (by omega), hidx, if_pos (decide_eq_true hi)]

/-! ## What the parsers read -/

/-- the tokens and the arguments ahead -/
def SpecState.view (st : SpecState) : List Tok × List Int := (lex st.cur, st.args)

/-- the tokens that a type starts with -/
def startsType (k : Tok) : Bool := decide (k = .pct) || decide (k = kw "ref") || typeKws.any fun x => k = kw x.kw

theorem startsType_word {t : Ty} {w : String} (h : typeWord t = some w) : startsType (kw w) = true := by
  obtain ⟨k, hk, rfl, -⟩ := typeKws_mem.2 h
  unfold startsType
  rw [List.any_eq_true.2 ⟨k, hk, decide_eq_true rfl⟩, Bool.or_true]

theorem TypeG.head {D : Dialect} {packed : Bool} {u : List Tok} {v : List Int} {t : Ty} (h : TypeG D packed u v t) :
    ∃ k, u.head? = some k ∧ startsType k = true := by
  cases h with
  | name hw hp => exact ⟨_, rfl, startsType_word hw⟩
  | arg hph ht => exact ⟨_, rfl, rfl⟩
  | ref null hh => cases null <;> exact ⟨_, rfl, by decide⟩
  | refArg null hph hh => cases null <;> exact ⟨_, rfl, by decide⟩

theorem takeArg_iff {E : SpecEnv} {accept : Int → Option Ty} {st st' : SpecState} {t : Ty} :
    takeArg E accept st = (some t, st') ↔
      E.placeholders = true ∧ ∃ c, st.args = c :: st'.args ∧ accept c = some t ∧ st'.cur = st.cur := by
  unfold takeArg
  obtain ⟨cur, args⟩ := st
  obtain ⟨cur', args'⟩ := st'
  by_cases hE : E.placeholders = true
  · rw [if_pos hE]
    cases args with
    | nil => simp
    | cons c args =>
      constructor
      · intro h
        obtain ⟨hacc, hst⟩ := Prod.mk.inj h
        cases hst
        exact ⟨hE, c, rfl, hacc, rfl⟩
      · rintro ⟨-, c', hc, h, hcur⟩
        cases hc
        cases hcur
        rw [← h]
  · simp [hE]

theorem parsePlaceholder_parses (E : SpecEnv) (packed : Bool) :
    Parses SpecState.view (parsePlaceholder E packed) fun u v t =>
      E.placeholders = true ∧ ValueTy E.typeCount packed t ∧ u = [.pct] ∧ v = [t.code] := by
  constructor
  · intro st st' t h
    unfold parsePlaceholder at h
    cases hp : takeLit ['%', 'T'] st.cur with
    | none => simp [hp] at h
    | some cur =>
      simp only [hp] at h
      obtain ⟨hE, c, hargs, hc, hcur⟩ := takeArg_iff.1 h
      obtain ⟨rfl, hty⟩ := valueArg_iff.1 hc
      have hcur : st'.cur = cur := hcur
      have hargs : st.args = t.code :: st'.args := hargs
      refine ⟨[.pct], [t.code], ?_, hE, hty, rfl, rfl⟩
      simp only [SpecState.view, takeLit_pct.lex_eq hp, hcur, hargs, List.cons_append, List.nil_append]
  · rintro st u ts v bs t hv ⟨hE, hty, rfl, rfl⟩
    obtain ⟨hl, hargs⟩ := Prod.mk.inj hv
    obtain ⟨cur, hp, hcur⟩ := takeLit_pct.of_lex hl
    refine ⟨⟨cur, bs⟩, ?_, ?_⟩
    · unfold parsePlaceholder
      simp only [hp]
      exact takeArg_iff.2 ⟨hE, t.code, hargs, valueArg_iff.2 ⟨rfl, hty⟩, rfl⟩
    · exact Prod.ext hcur rfl

/-- an alternative that fails has taken an argument only where there is a placeholder -/
theorem parsePlaceholder_none {E : SpecEnv} {packed : Bool} {st st' : SpecState}
    (h : parsePlaceholder E packed st = (none, st')) :
    st'.args = st.args ∨ (lex st.cur).head? = some .pct := by
  unfold parsePlaceholder at h
  cases hp : takeLit ['%', 'T'] st.cur with
  | none =>
    simp only [hp, Prod.mk.injEq, true_and] at h
    exact .inl (h ▸ rfl)
  | some cur => exact .inr (by rw [takeLit_pct.lex_eq hp]; rfl)

theorem typeKws_words : (∀ k ∈ typeKws, isWord k.kw.toList = true) ∧
    typeKws.Pairwise fun a b => a.kw.toList ≠ b.kw.toList := by decide

theorem heapKws_words : (∀ k ∈ heapKws, isWord k.kw.toList = true) ∧
    heapKws.Pairwise fun a b => a.kw.toList ≠ b.kw.toList := by decide

theorem takeKwType_types {packed : Bool} {cur rest : List Char} {t : Ty} :
    takeKwType typeKws packed cur = some (t, rest) ↔
      ∃ w, typeWord t = some w ∧ (t.isPacked = true → packed = true) ∧ nextTok cur = some (kw w, rest) := by
  rw [takeKwType_iff typeKws_words.1 typeKws_words.2]
  constructor
  · rintro ⟨k, hk, hp, rfl, hn⟩
    exact ⟨k.kw, typeKws_mem.1 ⟨k, hk, rfl, rfl⟩, typeKws_packed k hk ▸ hp, hn⟩
  · rintro ⟨w, hw, hp, hn⟩
    obtain ⟨k, hk, rfl, rfl⟩ := typeKws_mem.2 hw
    exact ⟨k, hk, (typeKws_packed k hk).symm ▸ hp, rfl, hn⟩

theorem takeKwType_heaps {cur rest : List Char} {t : Ty} :
    takeKwType heapKws false cur = some (t, rest) ↔
      ∃ h, h ≠ AbsHeap.none ∧ heapRef h = t ∧ nextTok cur = some (kw (heapWord h), rest) := by
  rw [takeKwType_iff heapKws_words.1 heapKws_words.2]
  constructor
  · rintro ⟨k, hk, -, rfl, hn⟩
    obtain ⟨h, hne, hw, hr⟩ := heapKws_mem.1 ⟨k, hk, rfl, rfl⟩
    exact ⟨h, hne, hr, hw ▸ hn⟩
  · rintro ⟨h, hne, rfl, hn⟩
    obtain ⟨k, hk, hw, hr⟩ := heapKws_mem.2 ⟨h, hne, rfl, rfl⟩
    exact ⟨k, hk, fun hp => absurd hp ((by decide : ∀ k ∈ heapKws, ¬ k.packed = true) k hk), hr, hw ▸ hn⟩

theorem parseNamedScalar_parses (packed : Bool) :
    Parses SpecState.view (parseNamedScalar packed) fun u v t =>
      ∃ w, typeWord t = some w ∧ (t.isPacked = true → packed = true) ∧ u = [kw w] ∧ v = [] := by
  constructor
  · intro st st' t h
    unfold parseNamedScalar at h
    cases hk : takeKwType typeKws packed st.cur with
    | none => simp [hk] at h
    | some p =>
      obtain ⟨t, rest⟩ := p
      simp only [hk, Prod.mk.injEq, Option.some.injEq] at h
      obtain ⟨rfl, rfl⟩ := h
      obtain ⟨w, hw, hp, hn⟩ := takeKwType_types.1 hk
      exact ⟨[kw w], [], by rw [SpecState.view, lex_of_some hn]; rfl, w, hw, hp, rfl, rfl⟩
  · rintro st u ts v bs t hv ⟨w, hw, hp, rfl, rfl⟩
    obtain ⟨hl, hargs⟩ := Prod.mk.inj hv
    obtain ⟨rest, hn, hr⟩ := lex_cons hl
    refine ⟨⟨rest, bs⟩, ?_, Prod.ext hr rfl⟩
    unfold parseNamedScalar
    have hargs : st.args = bs := hargs
    rw [takeKwType_types.2 ⟨w, hw, hp, hn⟩, ← hargs]

theorem parseNamedScalar_none {packed : Bool} {st st' : SpecState} (h : parseNamedScalar packed st = (none, st')) :
    st' = st := by
  unfold parseNamedScalar at h
  split at h
  · exact (Prod.mk.inj h).2.symm
  · cases h

theorem isWord_ref : isWord "ref".toList = true ∧ isWord "null".toList = true ∧ isWord "mut".toList = true := by decide

/-- `ref` and `null` in front of what follows them -/
theorem refType_head {cur : List Char} {null : Bool} {ts : List Tok} (hts : ts.head? ≠ some (kw "null"))
    (h : lex cur = refToks null ++ ts) :
    ∃ cur', takeKw "ref" cur = some cur' ∧ (takeKw "null" cur').isSome = null ∧
      lex ((takeKw "null" cur').getD cur') = ts := by
  have href := takeKw_takes isWord_ref.1
  have hnull := takeKw_takes isWord_ref.2.1
  cases null with
  | false =>
    obtain ⟨cur', hr, hl⟩ := href.of_lex (show lex cur = kw "ref" :: ts from h)
    have hnone : takeKw "null" cur' = none := hnull.eq_none (hl ▸ hts)
    exact ⟨cur', hr, by rw [hnone]; rfl, by rw [hnone]; exact hl⟩
  | true =>
    obtain ⟨cur', hr, hl⟩ := href.of_lex (show lex cur = kw "ref" :: kw "null" :: ts from h)
    obtain ⟨cur'', hn, hl'⟩ := hnull.of_lex hl
    exact ⟨cur', hr, by rw [hn]; rfl, by rw [hn]; exact hl'⟩

theorem refType_toks {cur cur' : List Char} (hr : takeKw "ref" cur = some cur') :
    lex cur = refToks (takeKw "null" cur').isSome ++ lex ((takeKw "null" cur').getD cur') := by
  rw [(takeKw_takes isWord_ref.1).lex_eq hr]
  cases hn : takeKw "null" cur' with
  | none => rfl
  | some cur'' =>
    rw [(takeKw_takes isWord_ref.2.1).lex_eq hn]
    rfl

/-- what `wah_type_spec_parse_ref_type` reads -/
inductive RefG (D : Dialect) : Grammar Tok Int Ty where
  | ref {h : AbsHeap} (null : Bool) (hh : D.heap h) : RefG D (refToks null ++ [kw (heapWord h)]) [] (.ref null (.abs h))
  | refArg {c : Int} {h : HeapTy} (null : Bool) (hph : D.placeholders = true) (hh : HeapArg D c h) :
      RefG D (refToks null ++ [.pct]) [c] (.ref null h)

theorem parseRefType_parses (E : SpecEnv) : Parses SpecState.view (parseRefType E) (RefG E.dialect) := by
  have hasNull : ∀ null a, (if null = true then (heapRef a).asNullable else heapRef a) = .ref null (.abs a) := by
    intro null a
    cases null <;> rfl
  constructor
  · intro st st' t h
    unfold parseRefType at h
    cases hr : takeKw "ref" st.cur with
    | none => simp [hr] at h
    | some cur =>
      have htoks := refType_toks hr
      simp only [hr] at h
      cases hp : takeLit ['%', 'T'] ((takeKw "null" cur).getD cur) with
      | some cur' =>
        simp only [hp] at h
        obtain ⟨hE, c, hargs, hc, hcur⟩ := takeArg_iff.1 h
        obtain ⟨ht, hh, rfl⟩ := heapArg_iff.1 hc
        have hcur : st'.cur = cur' := hcur
        refine ⟨_, [c], ?_, .refArg (takeKw "null" cur).isSome hE hh⟩
        exact Prod.ext (by rw [SpecState.view, htoks, takeLit_pct.lex_eq hp, ← hcur, List.append_assoc]; rfl) hargs
      | none =>
        simp only [hp] at h
        cases hk : takeKwType heapKws false ((takeKw "null" cur).getD cur) with
        | none => simp [hk] at h
        | some p =>
          obtain ⟨t', rest⟩ := p
          simp only [hk, Prod.mk.injEq, Option.some.injEq] at h
          obtain ⟨rfl, rfl⟩ := h
          obtain ⟨a, hne, rfl, hn⟩ := takeKwType_heaps.1 hk
          rw [hasNull]
          refine ⟨_, [], ?_, .ref (takeKw "null" cur).isSome hne⟩
          exact Prod.ext (by rw [SpecState.view, htoks, lex_of_some hn, List.append_assoc]; rfl) rfl
  · intro st u ts v bs t hv hG
    obtain ⟨hl, hargs⟩ := Prod.mk.inj hv
    cases hG with
    | @ref a null hne =>
      have hnull : (kw (heapWord a) :: ts).head? ≠ some (kw "null") := by
        rw [List.head?_cons]
        cases a <;> decide
      rw [List.append_assoc] at hl
      obtain ⟨cur, hr, hnull, hl⟩ := refType_head hnull hl
      obtain ⟨rest, hn, hrest⟩ := lex_cons hl
      have hpct : takeLit ['%', 'T'] ((takeKw "null" cur).getD cur) = none :=
        takeLit_pct.eq_none (by rw [hl]; simp [kw])
      refine ⟨⟨rest, st.args⟩, ?_, Prod.ext hrest hargs⟩
      unfold parseRefType
      simp only [hr, hpct, takeKwType_heaps.2 ⟨a, hne, rfl, hn⟩, hnull, hasNull]
    | @refArg c h null hph hh =>
      rw [List.append_assoc] at hl
      obtain ⟨cur, hr, hnull, hl⟩ := refType_head (by simp [kw]) hl
      obtain ⟨rest, hp, hrest⟩ := takeLit_pct.of_lex hl
      refine ⟨⟨rest, bs⟩, ?_, Prod.ext hrest rfl⟩
      unfold parseRefType
      simp only [hr, hp, hnull]
      exact takeArg_iff.2 ⟨hph, c, hargs, heapArg_iff.2 ⟨h, hh, rfl⟩, rfl⟩

/-- every alternative starts where the first one did, and an argument is only lost where no other alternative fits -/
theorem parseType_parses (E : SpecEnv) (packed : Bool) :
    Parses SpecState.view (parseType E packed) (TypeG E.dialect packed) := by
  have hrestore : ∀ {st st₁ : SpecState}, parsePlaceholder E packed st = (none, st₁) →
      (lex st.cur).head? ≠ some .pct → { st₁ with cur := st.cur } = st := by
    intro st st₁ h hne
    have hargs := (parsePlaceholder_none h).resolve_right hne
    rw [hargs]
  constructor
  · intro st st' t h
    unfold parseType at h
    split at h
    · rename_i t₁ st₁ hp
      cases h
      obtain ⟨u, v, hv, hE, hty, rfl, rfl⟩ := (parsePlaceholder_parses E packed).sound hp
      exact ⟨_, _, hv, .arg hE hty⟩
    · rename_i st₁ hp
      split at h
      · rename_i t₂ st₂ hs
        cases h
        obtain ⟨u, v, hv, w, hw, hpk, rfl, rfl⟩ := (parseNamedScalar_parses packed).sound hs
        have hl : lex st.cur = kw w :: (lex st'.cur) := (Prod.mk.inj hv).1
        rw [hrestore hp (by rw [hl]; simp [kw])] at hv
        exact ⟨_, _, hv, .name hw hpk⟩
      · rename_i st₂ hs
        have hs := parseNamedScalar_none hs
        subst hs
        split at h
        · rename_i t₃ st₃ hr
          cases h
          obtain ⟨u, v, hv, hG⟩ := (parseRefType_parses E).sound hr
          have hl : lex st.cur = u ++ lex st'.cur := (Prod.mk.inj hv).1
          have hhead : (lex st.cur).head? ≠ some .pct := by
            rw [hl]
            cases hG with
            | ref null hh => cases null <;> simp [refToks, kw]
            | refArg null hph hh => cases null <;> simp [refToks, kw]
          rw [show ({ st₁ with cur := st.cur } : SpecState) = st from hrestore hp hhead] at hv
          refine ⟨u, v, hv, ?_⟩
          cases hG with
          | ref null hh => exact .ref null hh
          | refArg null hph hh => exact .refArg null hph hh
        · cases h
  · intro st u ts v bs t hv hG
    have hl : lex st.cur = u ++ ts := (Prod.mk.inj hv).1
    have hplace : (lex st.cur).head? ≠ some .pct → ∃ st₁, parsePlaceholder E packed st = (none, st₁) ∧
        { st₁ with cur := st.cur } = st := by
      intro hne
      cases hp : parsePlaceholder E packed st with
      | mk o st₁ =>
        cases o with
        | none => exact ⟨st₁, rfl, hrestore hp hne⟩
        | some t =>
          obtain ⟨u, v, hv, -, -, rfl, rfl⟩ := (parsePlaceholder_parses E packed).sound hp
          exact absurd (by rw [(Prod.mk.inj hv).1]; rfl) hne
    have hscalar : u.head? = some (kw "ref") → ∃ st₂, parseNamedScalar packed st = (none, st₂) := by
      intro h
      cases hs : parseNamedScalar packed st with
      | mk o st₂ =>
        cases o with
        | none => exact ⟨st₂, rfl⟩
        | some t =>
          obtain ⟨u', v', hv', w, hw, -, rfl, rfl⟩ := (parseNamedScalar_parses packed).sound hs
          have hhead : (lex st.cur).head? = some (kw w) := by rw [(Prod.mk.inj hv').1]; rfl
          rw [hl, head?_append_left (by rintro rfl; cases h), h] at hhead
          obtain ⟨k, hk, rfl, -⟩ := typeKws_mem.2 hw
          exact absurd (Option.some.inj hhead) ((by decide : ∀ k ∈ typeKws, kw "ref" ≠ kw k.kw) k hk)
    have href : RefG E.dialect u v t → ∃ st', parseType E packed st = (some t, st') ∧ st'.view = (ts, bs) := by
      intro hR
      have hhead : u.head? = some (kw "ref") := by
        cases hR with
        | ref null hh => cases null <;> rfl
        | refArg null hph hh => cases null <;> rfl
      have hne : (lex st.cur).head? ≠ some .pct := by
        rw [hl, head?_append_left (by rintro rfl; cases hhead), hhead]
        simp [kw]
      obtain ⟨st₁, hp, hst⟩ := hplace hne
      obtain ⟨st₂, hs⟩ := hscalar hhead
      obtain ⟨st', hr, hst'⟩ := (parseRefType_parses E).complete hv hR
      refine ⟨st', ?_, hst'⟩
      unfold parseType
      have hs₂ := parseNamedScalar_none hs
      subst hs₂
      simp only [hp, hst, hs, hr]
    cases hG with
    | name hw hpk =>
      obtain ⟨st₁, hp, hst⟩ := hplace (by rw [hl]; simp [kw])
      obtain ⟨st', hs, hst'⟩ := (parseNamedScalar_parses packed).complete hv ⟨_, hw, hpk, rfl, rfl⟩
      refine ⟨st', ?_, hst'⟩
      unfold parseType
      simp only [hp, hst, hs]
    | arg hph ht =>
      obtain ⟨st', hp, hst'⟩ := (parsePlaceholder_parses E packed).complete hv ⟨hph, ht, rfl, rfl⟩
      refine ⟨st', ?_, hst'⟩
      unfold parseType
      simp only [hp]
    | ref null hh => exact href (.ref null hh)
    | refArg null hph hh => exact href (.refArg null hph hh)

/-! ## Lists -/

section Lists

variable {α : Type} {item : SpecParser α} {G : Grammar Tok Int α} {endc : Char}

theorem takeComma : TakesTok (takeChar ',') (.sym ',') := takeChar_takes (by decide)

theorem parseItems_sound (hp : Parses SpecState.view item G) {turns : Nat} {st st' : SpecState}
    {xs : List α} (h : parseItems item endc turns st = (some xs, st')) :
    ∃ u v, st.view = (u ++ st'.view.1, v ++ st'.view.2) ∧ SepList (.sym ',') true G u v xs := by
  induction turns generalizing st xs with
  | zero => cases h
  | succ k ih =>
    unfold parseItems at h
    split at h
    · cases h
    · rename_i x st₁ hi
      obtain ⟨u, v, hv, hG⟩ := hp.sound hi
      obtain ⟨hl, hargs⟩ := Prod.mk.inj hv
      split at h
      · cases h
        exact ⟨u, v, hv, .last hG⟩
      · rename_i cur hc
        have hcomma : lex st₁.cur = .sym ',' :: lex cur := takeComma.lex_eq hc
        have hl : lex st.cur = u ++ .sym ',' :: lex cur := hl.trans (congrArg (u ++ ·) hcomma)
        split at h
        · cases h
          refine ⟨u ++ [.sym ','], v, Prod.ext ?_ hargs, .trail rfl hG⟩
          rw [SpecState.view, hl, List.append_assoc]
          rfl
        · split at h
          · cases h
          · rename_i xs' st₂ hrest
            cases h
            obtain ⟨us, vs, hv', hG'⟩ := ih hrest
            obtain ⟨hl', hargs'⟩ := Prod.mk.inj hv'
            have hl' : lex cur = us ++ lex st'.cur := hl'
            have hargs' : st₁.args = vs ++ st'.args := hargs'
            have hargs : st.args = v ++ st₁.args := hargs
            refine ⟨u ++ .sym ',' :: us, v ++ vs, Prod.ext ?_ ?_, .cons hG hG'⟩
            · rw [SpecState.view, hl, hl', List.append_assoc]
              rfl
            · exact (hargs.trans (congrArg (v ++ ·) hargs')).trans (List.append_assoc _ _ _).symm

/-- a list is read up to the closing character: an item does not start with it, so that another one follows a comma -/
theorem parseItems_complete (hp : Parses SpecState.view item G) (hend : isSym endc = true) (hcomma : endc ≠ ',')
    (hG : ∀ {u v x}, G u v x → u.head? ≠ none ∧ u.head? ≠ some (.sym endc)) {turns : Nat} {st : SpecState}
    {u ts : List Tok} {v bs : List Int} {xs : List α} (hL : SepList (.sym ',') true G u v xs)
    (hv : st.view = (u ++ .sym endc :: ts, v ++ bs)) (hturns : xs.length ≤ turns) :
    ∃ st', parseItems item endc turns st = (some xs, st') ∧ st'.view = (.sym endc :: ts, bs) := by
  have htake := takeChar_takes hend
  induction hL generalizing turns st with
  | last h =>
    obtain ⟨k, rfl⟩ : ∃ k, turns = k + 1 := ⟨turns - 1, by simp at hturns; omega⟩
    obtain ⟨st', hi, hst'⟩ := hp.complete hv h
    have hnone : takeChar ',' st'.cur = none :=
      takeComma.eq_none (by rw [show lex st'.cur = _ from (Prod.mk.inj hst').1]; simpa using hcomma)
    refine ⟨st', ?_, hst'⟩
    unfold parseItems
    simp only [hi, hnone]
  | trail _ h =>
    obtain ⟨k, rfl⟩ : ∃ k, turns = k + 1 := ⟨turns - 1, by simp at hturns; omega⟩
    rw [List.append_assoc] at hv
    obtain ⟨st', hi, hst'⟩ := hp.complete hv h
    obtain ⟨hl, hargs⟩ := Prod.mk.inj hst'
    obtain ⟨cur, hc, hcur⟩ := takeComma.of_lex hl
    have hsome : (takeChar endc cur).isSome = true := htake.head.2 (by rw [hcur]; rfl)
    refine ⟨{ st' with cur }, ?_, Prod.ext hcur hargs⟩
    unfold parseItems
    simp only [hi, hc, hsome, if_true]
  | @cons a us b vs x xs h hs ih =>
    obtain ⟨k, rfl⟩ : ∃ k, turns = k + 1 := ⟨turns - 1, by simp at hturns; omega⟩
    rw [List.append_assoc, List.append_assoc] at hv
    obtain ⟨st', hi, hst'⟩ := hp.complete hv h
    obtain ⟨hl, hargs⟩ := Prod.mk.inj hst'
    obtain ⟨cur, hc, hcur⟩ := takeComma.of_lex hl
    have hnot : ¬ (takeChar endc cur).isSome = true := by
      rw [htake.head, hcur]
      obtain ⟨a', b', x', ha, hhead⟩ := hs.head (by rintro _ _ _ h rfl; exact (hG h).1 rfl)
      have hne : us ≠ [] := by
        rintro rfl
        exact (hG ha).1 hhead.symm
      change (us ++ _).head? ≠ _
      rw [head?_append_left hne, hhead]
      exact (hG ha).2
    have hview : SpecState.view { st' with cur } = (us ++ .sym endc :: ts, vs ++ bs) := Prod.ext hcur hargs
    obtain ⟨st'', hrest, hst''⟩ := ih hview (show xs.length ≤ k by simpa using hturns)
    refine ⟨st'', ?_, hst''⟩
    unfold parseItems
    simp only [hi, hc, hnot, hrest, Bool.false_eq_true, if_false]

/-- a list, empty or not, and its closing character -/
theorem close_parses (hp : Parses SpecState.view item G) (hend : isSym endc = true) (hcomma : endc ≠ ',')
    (hG : ∀ {u v x}, G u v x → u.head? ≠ none ∧ u.head? ≠ some (.sym endc)) :
    Parses SpecState.view
      (fun st => close [endc] (if (takeChar endc st.cur).isSome then (some [], st)
        else parseItems item endc (st.cur.length + 1) st)) (Closed true endc G) := by
  have htake := takeChar_takes hend
  have hlit := takeLit_takes hend
  have hclose : ∀ {o : Option (List α) × SpecState} {xs st'}, close [endc] o = (some xs, st') →
      ∃ st₁, o = (some xs, st₁) ∧ lex st₁.cur = .sym endc :: lex st'.cur ∧ st₁.args = st'.args := by
    rintro ⟨_ | xs', st₁⟩ xs st' h
    · cases h
    · unfold close at h
      dsimp only at h
      split at h
      · cases h
      · rename_i cur hc
        cases h
        exact ⟨st₁, rfl, hlit.lex_eq hc, rfl⟩
  constructor
  · intro st st' xs h
    obtain ⟨st₁, ho, hl, hargs⟩ := hclose h
    split at ho
    · cases ho
      exact ⟨[.sym endc], [], Prod.ext hl hargs, .mk .nil⟩
    · obtain ⟨u, v, hv, hL⟩ := parseItems_sound hp ho
      obtain ⟨hlv, hav⟩ := Prod.mk.inj hv
      refine ⟨_, v, Prod.ext ?_ ?_, .mk (.list hL)⟩
      · exact (hlv.trans (congrArg (u ++ ·) hl)).trans (by rw [List.append_assoc]; rfl)
      · exact hav.trans (congrArg (v ++ ·) hargs)
  · rintro st u ts v bs xs hv ⟨hL⟩
    obtain ⟨hl, hargs⟩ := Prod.mk.inj hv
    cases hL with
    | nil =>
      obtain ⟨cur, hc, hcur⟩ := hlit.of_lex hl
      have hsome : (takeChar endc st.cur).isSome = true := htake.head.2 (by rw [hl]; rfl)
      refine ⟨{ st with cur }, ?_, Prod.ext hcur hargs⟩
      simp only [hsome, if_true, close, hc]
    | list hL =>
      rename_i u
      have hne : u ≠ [] ∧ u.head? ≠ some (.sym endc) := by
        obtain ⟨a, b, x, ha, hhead⟩ := hL.head (by rintro _ _ _ h rfl; exact (hG h).1 rfl)
        rw [hhead]
        refine ⟨?_, (hG ha).2⟩
        rintro rfl
        exact (hG ha).1 hhead.symm
      rw [List.append_assoc] at hl hv
      have hnot : ¬ (takeChar endc st.cur).isSome = true := by
        rw [htake.head, hl, head?_append_left hne.1]
        exact hne.2
      have hturns : xs.length ≤ st.cur.length + 1 := by
        have hlen := hL.length_le (by rintro _ _ _ h rfl; exact (hG h).1 rfl)
        have hlex := lex_length_le st.cur
        rw [hl, List.length_append] at hlex
        omega
      obtain ⟨st', hi, hst'⟩ := parseItems_complete hp hend hcomma hG hL hv hturns
      obtain ⟨hl', hargs'⟩ := Prod.mk.inj hst'
      obtain ⟨cur, hc, hcur⟩ := hlit.of_lex hl'
      refine ⟨{ st' with cur }, ?_, Prod.ext hcur hargs'⟩
      simp only [hnot, hi, close, hc, Bool.false_eq_true, if_false]

end Lists

/-! ## Whole specifications -/

theorem isWord_kinds : isWord "fn".toList = true ∧ isWord "struct".toList = true ∧ isWord "array".toList = true ∧
    isWord "fresh".toList = true := by
  decide

/-- a type does not start with a token that types do not start with -/
theorem TypeG.head_ne {D : Dialect} {packed : Bool} {u : List Tok} {v : List Int} {t : Ty} (h : TypeG D packed u v t)
    {k : Tok} (hk : startsType k = false) : u.head? ≠ none ∧ u.head? ≠ some k := by
  obtain ⟨k', hk', hs⟩ := h.head
  rw [hk']
  refine ⟨by simp, ?_⟩
  intro heq
  rw [Option.some.inj heq, hk] at hs
  cases hs

theorem parseTypes_parses (E : SpecEnv) :
    Parses SpecState.view (fun st => close [')'] (parseTypesUntil E ')' false st))
      (Closed true ')' (TypeG E.dialect false)) :=
  close_parses (parseType_parses E false) (by decide) (by decide) (fun h => h.head_ne (by decide))

/-- the results of a function take all that is left -/
theorem parseResults_parses (E : SpecEnv) : ParsesAtEnd SpecState.view (parseResults E) (ResultsG E.dialect) := by
  have hparen : TakesTok (takeLit ['(']) (.sym '(') := takeLit_takes (by decide)
  constructor
  · intro st st' ts h
    unfold parseResults at h
    cases ha : takeLit ['-', '>'] st.cur with
    | none =>
      simp only [ha, Prod.mk.injEq, Option.some.injEq] at h
      obtain ⟨rfl, rfl⟩ := h
      exact ⟨[], [], rfl, .none⟩
    | some cur =>
      have hl := takeLit_arrow.lex_eq ha
      simp only [ha] at h
      cases hp : takeLit ['('] cur with
      | some cur' =>
        simp only [hp] at h
        obtain ⟨u, v, hv, hG⟩ := (parseTypes_parses E).sound h
        obtain ⟨hlv, hav⟩ := Prod.mk.inj hv
        refine ⟨_, v, Prod.ext ?_ hav, .list hG⟩
        rw [SpecState.view, hl, hparen.lex_eq hp]
        exact congrArg (fun l => .arrow :: .sym '(' :: l) hlv
      | none =>
        simp only [hp] at h
        split at h
        · cases h
        · rename_i t st₁ ht
          cases h
          obtain ⟨u, v, hv, hG⟩ := (parseType_parses E false).sound ht
          obtain ⟨hlv, hav⟩ := Prod.mk.inj hv
          refine ⟨_, v, Prod.ext ?_ hav, .one hG⟩
          rw [SpecState.view, hl]
          exact congrArg (fun l => .arrow :: l) hlv
  · intro st u v bs ts hv hG
    obtain ⟨hl, hargs⟩ := Prod.mk.inj hv
    cases hG with
    | none =>
      have hnone : takeLit ['-', '>'] st.cur = none := takeLit_arrow.eq_none (by rw [hl]; simp)
      refine ⟨st, ?_, hv⟩
      unfold parseResults
      simp only [hnone]
    | one hG =>
      obtain ⟨cur, ha, hcur⟩ := takeLit_arrow.of_lex hl
      have hnone : takeLit ['('] cur = none := hparen.eq_none (by rw [hcur]; exact (hG.head_ne (by decide)).2)
      obtain ⟨st', ht, hst'⟩ :=
        (parseType_parses E false).atEnd.complete (s := { st with cur }) (Prod.ext hcur hargs) hG
      refine ⟨st', ?_, hst'⟩
      unfold parseResults
      simp only [ha, hnone, ht]
    | list hG =>
      obtain ⟨cur, ha, hcur⟩ := takeLit_arrow.of_lex hl
      obtain ⟨cur', hp, hcur'⟩ := hparen.of_lex hcur
      obtain ⟨st', ht, hst'⟩ :=
        (parseTypes_parses E).atEnd.complete (s := { st with cur := cur' }) (Prod.ext hcur' hargs) hG
      refine ⟨st', ?_, hst'⟩
      unfold parseResults
      simp only [ha, hp]
      exact ht

/-- a function type, from its parenthesis on -/
theorem parseFunc_parses (E : SpecEnv) : ParsesAtEnd SpecState.view (parseFunc E true) (FuncG E.dialect) := by
  have hparen : TakesTok (takeLit ['(']) (.sym '(') := takeLit_takes (by decide)
  constructor
  · intro st st' f h
    unfold parseFunc at h
    simp only [if_true] at h
    cases hp : takeLit ['('] st.cur with
    | none => simp [hp] at h
    | some cur =>
      simp only [hp] at h
      split at h
      · cases h
      · rename_i ps st₁ hps
        split at h
        · cases h
        · rename_i rs st₂ hrs
          cases h
          obtain ⟨u, v, hv, hG⟩ := (parseTypes_parses E).sound hps
          obtain ⟨u', v', hv', hG'⟩ := (parseResults_parses E).sound hrs
          obtain ⟨hl, hargs⟩ := Prod.mk.inj hv
          obtain ⟨hl', hargs'⟩ := Prod.mk.inj hv'
          refine ⟨_, _, Prod.ext ?_ ?_, .mk hG hG'⟩
          · rw [SpecState.view, hparen.lex_eq hp]
            exact congrArg (Tok.sym '(' :: ·) ((hl.trans (congrArg (u ++ ·) hl')).trans (List.append_assoc _ _ _).symm)
          · exact (hargs.trans (congrArg (v ++ ·) hargs')).trans (List.append_assoc _ _ _).symm
  · rintro st u v bs f hv ⟨hG, hG'⟩
    obtain ⟨hl, hargs⟩ := Prod.mk.inj hv
    obtain ⟨cur, hp, hcur⟩ := hparen.of_lex hl
    rw [List.append_assoc] at hargs
    obtain ⟨st₁, hps, hst₁⟩ := (parseTypes_parses E).complete (s := { st with cur }) (Prod.ext hcur hargs) hG
    obtain ⟨st₂, hrs, hst₂⟩ := (parseResults_parses E).complete hst₁ hG'
    refine ⟨st₂, ?_, hst₂⟩
    have hps : close [')'] (parseTypesUntil E ')' false { st with cur }) = (some _, st₁) := hps
    unfold parseFunc
    simp only [if_true, hp, hps, hrs]

theorem FuncG.head {D : Dialect} {u : List Tok} {v : List Int} {f : FuncType} (h : FuncG D u v f) :
    ∃ u', u = .sym '(' :: u' := by
  cases h
  exact ⟨_, rfl⟩

/-- with `fn` in front, the rest is read as without -/
theorem parseFunc_fn (E : SpecEnv) {st : SpecState} {cur : List Char} (h : takeKw "fn" st.cur = some cur) :
    ∀ f st', parseFunc E false st = (some f, st') ↔ parseFunc E true { st with cur } = (some f, st') := by
  intro f st'
  unfold parseFunc
  simp only [Bool.false_eq_true, if_false, h, if_true]
  cases takeLit ['('] cur with
  | none => simp
  | some cur' => rfl

theorem parseField_parses (E : SpecEnv) : Parses SpecState.view (parseField E) (FieldG E.dialect) := by
  have hmut := takeKw_takes isWord_ref.2.2
  constructor
  · intro st st' p h
    unfold parseField at h
    dsimp only at h
    split at h
    · cases h
    · rename_i t st₁ ht
      cases h
      obtain ⟨u, v, hv, hG⟩ := (parseType_parses E true).sound ht
      cases hm : takeKw "mut" st.cur with
      | none =>
        rw [hm] at hv
        exact ⟨u, v, hv, .const hG⟩
      | some cur =>
        rw [hm] at hv
        obtain ⟨hl, hargs⟩ := Prod.mk.inj hv
        refine ⟨_, v, Prod.ext ?_ hargs, .mutable hG⟩
        rw [SpecState.view, hmut.lex_eq hm]
        exact congrArg (kw "mut" :: ·) hl
  · intro st u ts v bs p hv hG
    obtain ⟨hl, hargs⟩ := Prod.mk.inj hv
    cases hG with
    | const hG =>
      have hnone : takeKw "mut" st.cur = none := by
        refine hmut.eq_none ?_
        have hne := hG.head_ne (k := kw "mut") (by decide)
        rw [hl, head?_append_left (by rintro rfl; exact hne.1 rfl)]
        exact hne.2
      obtain ⟨st', ht, hst'⟩ := (parseType_parses E true).complete hv hG
      refine ⟨st', ?_, hst'⟩
      unfold parseField
      simp only [hnone, Option.isSome_none, Option.getD_none, ht]
    | mutable hG =>
      obtain ⟨cur, hm, hcur⟩ := hmut.of_lex hl
      obtain ⟨st', ht, hst'⟩ := (parseType_parses E true).complete (s := { st with cur }) (Prod.ext hcur hargs) hG
      refine ⟨st', ?_, hst'⟩
      unfold parseField
      simp only [hm, Option.isSome_some, Option.getD_some, ht]

theorem FieldG.head_ne {D : Dialect} {u : List Tok} {v : List Int} {p : Ty × Bool} (h : FieldG D u v p) {k : Tok}
    (hk : startsType k = false) (hmut : k ≠ kw "mut") : u.head? ≠ none ∧ u.head? ≠ some k := by
  cases h with
  | const h => exact h.head_ne hk
  | mutable h => exact ⟨by simp, fun heq => hmut (Option.some.inj heq).symm⟩

/-- the fields of a struct up to the closing brace -/
theorem parseFields_parses (E : SpecEnv) :
    Parses SpecState.view
      (fun st => close ['}'] (if (takeChar '}' st.cur).isSome then (some [], st)
        else parseItems (parseField E) '}' (st.cur.length + 1) st)) (Closed true '}' (FieldG E.dialect)) :=
  close_parses (parseField_parses E) (by decide) (by decide) (fun h => h.head_ne (by decide) (by decide))

/-- what follows a kind word is read from after it -/
theorem parseDefined_parses (E : SpecEnv) : ParsesAtEnd SpecState.view (parseDefined E) (SpecG E.dialect) := by
  have hfn := takeKw_takes isWord_kinds.1
  have hstruct := takeKw_takes isWord_kinds.2.1
  have harray := takeKw_takes isWord_kinds.2.2.1
  have hbrace : TakesTok (takeLit ['{']) (.sym '{') := takeLit_takes (by decide)
  constructor
  · intro st st' t h
    unfold parseDefined at h
    split at h
    · rename_i hf
      obtain ⟨cur, hf⟩ := Option.isSome_iff_exists.1 hf
      split at h
      · cases h
      · rename_i f st₁ hp
        cases h
        obtain ⟨u, v, hv, hG⟩ := (parseFunc_parses E).sound ((parseFunc_fn E hf _ _).1 hp)
        obtain ⟨hl, hargs⟩ := Prod.mk.inj hv
        refine ⟨_, v, Prod.ext ?_ hargs, .func hG⟩
        rw [SpecState.view, hfn.lex_eq hf]
        exact congrArg (kw "fn" :: ·) hl
    · split at h
      · rename_i hs
        obtain ⟨cur, hs⟩ := Option.isSome_iff_exists.1 hs
        split at h
        · cases h
        · rename_i fs st₁ hp
          cases h
          unfold parseStruct at hp
          simp only [hs] at hp
          cases hb : takeLit ['{'] cur with
          | none => simp [hb] at hp
          | some cur' =>
            simp only [hb, ← apply_ite (close ['}'])] at hp
            obtain ⟨u, v, hv, hG⟩ := (parseFields_parses E).sound (s := { st with cur := cur' }) hp
            obtain ⟨hl, hargs⟩ := Prod.mk.inj hv
            refine ⟨_, v, Prod.ext ?_ hargs, .struct hG⟩
            rw [SpecState.view, hstruct.lex_eq hs, hbrace.lex_eq hb]
            exact congrArg (fun l => kw "struct" :: .sym '{' :: l) hl
      · split at h
        · rename_i ha
          obtain ⟨cur, ha⟩ := Option.isSome_iff_exists.1 ha
          split at h
          · cases h
          · rename_i e st₁ hp
            cases h
            unfold parseArray at hp
            simp only [ha] at hp
            obtain ⟨u, v, hv, hG⟩ := (parseField_parses E).sound hp
            obtain ⟨hl, hargs⟩ := Prod.mk.inj hv
            refine ⟨_, v, Prod.ext ?_ hargs, .array hG⟩
            rw [SpecState.view, harray.lex_eq ha]
            exact congrArg (kw "array" :: ·) hl
        · cases h
  · intro st u v bs t hv hG
    obtain ⟨hl, hargs⟩ := Prod.mk.inj hv
    have hnot : ∀ {name : String}, TakesTok (takeKw name) (kw name) → (lex st.cur).head? ≠ some (kw name) →
        (takeKw name st.cur).isSome = false := by
      intro name htake hne
      rw [htake.eq_none hne]
      rfl
    cases hG with
    | func hG =>
      obtain ⟨cur, hf, hcur⟩ := hfn.of_lex hl
      obtain ⟨st', hp, hst'⟩ := (parseFunc_parses E).complete (s := { st with cur }) (Prod.ext hcur hargs) hG
      refine ⟨st', ?_, hst'⟩
      unfold parseDefined
      simp only [hf, Option.isSome_some, if_true, (parseFunc_fn E hf _ _).2 hp]
    | struct hG =>
      obtain ⟨cur, hs, hcur⟩ := hstruct.of_lex hl
      obtain ⟨cur', hb, hcur'⟩ := hbrace.of_lex hcur
      obtain ⟨st', hp, hst'⟩ :=
        (parseFields_parses E).atEnd.complete (s := { st with cur := cur' }) (Prod.ext hcur' hargs) hG
      refine ⟨st', ?_, hst'⟩
      unfold parseDefined parseStruct
      simp only [hs, hb, hnot hfn (by rw [hl]; simp [kw]), Option.isSome_some, if_true, Bool.false_eq_true, if_false,
        ← apply_ite (close ['}'])]
      simp only at hp
      rw [hp]
    | array hG =>
      obtain ⟨cur, ha, hcur⟩ := harray.of_lex hl
      obtain ⟨st', hp, hst'⟩ := (parseField_parses E).atEnd.complete (s := { st with cur }) (Prod.ext hcur hargs) hG
      refine ⟨st', ?_, hst'⟩
      unfold parseDefined parseArray
      simp only [ha, hnot hfn (by rw [hl]; simp [kw]), hnot hstruct (by rw [hl]; simp [kw]), Option.isSome_some,
        if_true, Bool.false_eq_true, if_false, hp]

theorem finish_iff {α : Type} {p : SpecParser α} {G : Grammar Tok Int α} (h : ParsesAtEnd SpecState.view p G)
    {st : SpecState} {x : α} {rest : List Int} :
    finish (p st) = some (x, rest) ↔ ∃ v, st.args = v ++ rest ∧ G (lex st.cur) v x := by
  constructor
  · intro hf
    cases hp : p st with
    | mk o st' =>
      rw [hp] at hf
      cases o with
      | none => cases hf
      | some x' =>
        unfold finish at hf
        dsimp only at hf
        split at hf
        · rename_i hws
          cases hf
          obtain ⟨u, v, hv, hG⟩ := h.sound hp
          obtain ⟨hl, hargs⟩ := Prod.mk.inj hv
          have hnil : lex st'.cur = [] := lex_eq_nil.2 hws
          have hu : lex st.cur = u := hl.trans ((congrArg (u ++ ·) hnil).trans (List.append_nil u))
          exact ⟨v, hargs, hu ▸ hG⟩
        · cases hf
  · rintro ⟨v, hargs, hG⟩
    obtain ⟨st', hp, hst'⟩ := h.complete (u := lex st.cur) (Prod.ext rfl hargs) hG
    obtain ⟨hl, hargs'⟩ := Prod.mk.inj hst'
    have hws : skipWs st'.cur = [] := lex_eq_nil.1 hl
    have hargs' : st'.args = rest := hargs'
    rw [hp, finish, if_pos hws, hargs']

/-- `wah_define_type` accepts the specifications of its dialect, and gives what they denote -/
theorem defineSpec_eq (typeCount : Nat) (spec : List Char) (args : List Int) (r : (Bool × SpecType) × List Int) :
    defineSpec typeCount spec args = some r ↔ Denotes ⟨typeCount, true, true, fun h => h ≠ .none⟩ spec args r := by
  have hfresh := takeKw_takes isWord_kinds.2.2.2
  have hstart : ∀ {D : Dialect} {u v t}, SpecG D u v t → u.head? ≠ some (kw "fresh") := by
    intro D u v t hG
    cases hG <;> simp [kw]
  obtain ⟨⟨b, t⟩, rest⟩ := r
  have hfin : defineSpec typeCount spec args = some ((b, t), rest) ↔ (takeKw "fresh" spec).isSome = b ∧
      finish (parseDefined ⟨typeCount, true⟩ ⟨(takeKw "fresh" spec).getD spec, args⟩) = some (t, rest) := by
    unfold defineSpec
    dsimp only
    cases parseDefined ⟨typeCount, true⟩ ⟨(takeKw "fresh" spec).getD spec, args⟩ with
    | mk o st' =>
      cases o with
      | none => simp [finish]
      | some t' =>
        simp only [finish]
        split_ifs with hws
        · simp only [Option.some.injEq, Prod.mk.injEq, and_assoc]
        · simp
  rw [hfin, finish_iff (parseDefined_parses _)]
  constructor
  · rintro ⟨rfl, v, hargs, hG⟩
    refine ⟨v, hargs, ?_⟩
    cases hf : takeKw "fresh" spec with
    | none =>
      rw [hf] at hG
      exact .plain hG
    | some cur =>
      rw [hf] at hG
      rw [hfresh.lex_eq hf]
      exact .fresh hG
  · rintro ⟨v, hargs, hG⟩
    generalize hl : lex spec = toks at hG
    cases hG with
    | plain hG =>
      have hnone : takeKw "fresh" spec = none := hfresh.eq_none (hl ▸ hstart hG)
      rw [hnone]
      exact ⟨rfl, v, hargs, hl ▸ hG⟩
    | fresh hG =>
      obtain ⟨cur, hf, hcur⟩ := hfresh.of_lex hl
      rw [hf]
      exact ⟨rfl, v, hargs, hcur ▸ hG⟩

/-- `wah_export_func` accepts the function types of its dialect, which has no placeholders -/
theorem exportSpec_eq (typeCount : Nat) (types : List Char) (f : FuncType) :
    exportSpec typeCount types = some f ↔ ExportG ⟨typeCount, false, true, fun h => h ≠ .none⟩ (lex types) [] f := by
  have hfn := takeKw_takes isWord_kinds.1
  have hpar := parseFunc_parses ⟨typeCount, false⟩
  have hmap : ∀ o : Option (FuncType × List Int), o.map Prod.fst = some f ↔ ∃ rest, o = some (f, rest) := by
    rintro (_ | ⟨f', rest⟩)
    · simp
    · simp
  have hargs : ∀ {v rest : List Int}, ([] : List Int) = v ++ rest ↔ v = [] ∧ rest = [] := by
    intro v rest
    rw [eq_comm, List.append_eq_nil_iff]
  unfold exportSpec
  dsimp only
  rw [hmap]
  cases hf : takeKw "fn" types with
  | none =>
    simp only [Option.isSome_none, Bool.not_false]
    simp only [finish_iff hpar, hargs]
    constructor
    · rintro ⟨rest, v, ⟨rfl, rfl⟩, hG⟩
      exact .plain hG
    · intro hG
      generalize hl : lex types = toks at hG
      cases hG with
      | plain hG => exact ⟨[], [], ⟨rfl, rfl⟩, hG⟩
      | fn hG =>
        obtain ⟨cur, hf', -⟩ := hfn.of_lex hl
        rw [hf] at hf'
        cases hf'
  | some cur =>
    have hfin : ∀ rest, finish (parseFunc ⟨typeCount, false⟩ false ⟨types, []⟩) = some (f, rest) ↔
        finish (parseFunc ⟨typeCount, false⟩ true ⟨cur, []⟩) = some (f, rest) := by
      intro rest
      have hiff := parseFunc_fn ⟨typeCount, false⟩ (show takeKw "fn" (SpecState.mk types []).cur = some cur from hf)
      have hfinish : ∀ o : Option FuncType × SpecState, finish o = some (f, rest) ↔
          ∃ st', o = (some f, st') ∧ finish (some f, st') = some (f, rest) := by
        rintro ⟨_ | f', st'⟩
        · simp [finish]
        · simp only [finish, Prod.mk.injEq, Option.some.injEq]
          split_ifs with hws <;> grind
      rw [hfinish, hfinish]
      exact exists_congr fun st' => and_congr_left fun _ => hiff f st'
    simp only [Option.isSome_some, Bool.not_true, hfin, finish_iff hpar, hargs, hfn.lex_eq hf]
    constructor
    · rintro ⟨rest, v, ⟨rfl, rfl⟩, hG⟩
      exact .fn hG
    · intro hG
      generalize hl : (Tok.word "fn".toList :: lex cur) = toks at hG
      cases hG with
      | plain hG =>
        obtain ⟨u, rfl⟩ := hG.head
        cases hl
      | fn hG =>
        obtain ⟨-, rfl⟩ := List.cons.inj hl
        exact ⟨[], [], ⟨rfl, rfl⟩, hG⟩

end TypeSpec

end Wah
