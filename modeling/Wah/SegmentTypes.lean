/-
The type of an element segment where it is written to a table or to an array.

Model:
- a segment of the element section is its decoded fields (`SegmentEntry`), of which the parser reads those its flags ask
  for. Whether a constant expression compiles at a type and whether a function can be noted as declared are parameters;
- an instruction is accepted if it validates on some operand stack.

Result: the active form, `table.init`, `array.new_elem` and `array.init_elem` accept a segment exactly when its type is
a subtype of the element type, except that the instructions refuse function indices where that is `(ref func)`
(`segment_type_agreement`).
-/
import Wah.Effects
import Wah.Subtyping
import Wah.LocalRuns

namespace Wah

/-! ## The element section -/

/-- the fields of a segment in the binary; `long` is whether the reference type is written with a prefix -/
structure SegmentEntry (X : Type) where
  flags : Nat
  table : Nat
  offset : X
  elemkind : Nat
  long : Bool
  type : Ty
  funcs : List Nat
  exprs : List X

/-- what the parser keeps of a segment, its items aside -/
structure ParsedSegment where
  isActive : Bool
  isExprElem : Bool
  isDeclarative : Bool
  table : Nat
  elemType : Ty
deriving DecidableEq, Repr

/-- the module, its features and its constant expressions -/
structure SegmentEnv (X : Type) where
  module : Module
  types : DeclEnv
  bulkMemory : Bool
  compiles : X → Ty → Except ReadError Unit
  declares : Nat → Except ReadError Unit

section Parsing

variable {X : Type} (S : SegmentEnv X)

/-- `WAH_TYPE_FUNCREF` -/
def funcrefTy : Ty := .ref true (.abs .func)

/-- `elemkind` or the reference type, which are not there in mode 0 -/
def readElemType (e : SegmentEntry X) : Except ReadError Ty :=
  if 0 < e.flags % 4 then
    if 4 ≤ e.flags then do
      readEnsure (e.long = true → S.types.enabled .typedFuncref = true) .disabledFeature
      readEnsure (e.type.isRef = true) .validationFailed
      readEnsure (tyInRange S.module e.type) .validationFailed
      (if e.type = funcrefTy then pure () else requireTypeFeatures S.types e.type)
      pure e.type
    else do
      readEnsure (e.elemkind = 0) .malformed
      pure funcrefTy
  else pure funcrefTy

/-- the type of an active segment against that of its table; nullability is skipped for function indices -/
def checkActiveType (isExprElem : Bool) (elemType : Ty) (tt : TableType) : Except ReadError Unit :=
  if isExprElem then readEnsure (S.module.typeMatches elemType tt.elemType = true) .validationFailed
  else readEnsure (S.module.typeIsSubtype elemType.asNonNull tt.elemType.asNonNull = true) .validationFailed

def compileItems (t : Ty) : List X → Except ReadError Unit
  | [] => .ok ()
  | x :: xs => do
    S.compiles x t
    compileItems t xs

def readFuncs : List Nat → Except ReadError Unit
  | [] => .ok ()
  | f :: fs => do
    readEnsure (f < S.module.funcs.length) .validationFailed
    S.declares f
    readFuncs fs

/-- the items at the type of the segment -/
def readItems (e : SegmentEntry X) (t : Ty) : Except ReadError Unit :=
  if 4 ≤ e.flags then compileItems S t e.exprs else readFuncs S e.funcs

/-- an iteration of the loop of `wah_parse_element_section` -/
def parseSegment (e : SegmentEntry X) : Except ReadError ParsedSegment := do
  readEnsure (e.flags ≤ 7) .malformed
  let mode := e.flags % 4
  readEnsure (e.flags ≠ 0 → S.bulkMemory = true) .disabledFeature
  readEnsure (mode = 3 → S.types.enabled .refTypes = true) .disabledFeature
  let table := if mode = 2 then e.table else 0
  if mode = 0 ∨ mode = 2 then
    match S.module.tables[table]? with
    | none => .error .validationFailed
    | some tt =>
      S.compiles e.offset (if tt.addrType = .i64 then .i64 else .i32)
      let elemType ← readElemType S e
      checkActiveType S (decide (4 ≤ e.flags)) elemType tt
      readItems S e elemType
      pure ⟨true, decide (4 ≤ e.flags), false, table, elemType⟩
  else do
    let elemType ← readElemType S e
    readItems S e elemType
    pure ⟨false, decide (4 ≤ e.flags), decide (mode = 3), table, elemType⟩

end Parsing

/-! ## The forms of a segment -/

/-- a segment apart from where it goes: function indices, or expressions of a declared type -/
inductive SegmentForm (X : Type) where
  | funcs (indices : List Nat)
  | exprs (long : Bool) (type : Ty) (items : List X)

namespace SegmentForm

variable {X : Type}

def isExpr : SegmentForm X → Bool
  | .funcs _ => false
  | .exprs _ _ _ => true

/-- the type that the specification gives to a segment -/
def specType : SegmentForm X → Ty
  | .funcs _ => .ref false (.abs .func)
  | .exprs _ t _ => t

def entry (mode table : Nat) (offset : X) : SegmentForm X → SegmentEntry X
  | .funcs fs => ⟨mode, table, offset, 0, false, funcrefTy, fs, []⟩
  | .exprs long t xs => ⟨mode + 4, table, offset, 0, long, t, [], xs⟩

/-- the passive form; nothing reads its offset -/
def passive (s : SegmentForm X) (unused : X) : SegmentEntry X := s.entry 1 0 unused

/-- the active forms; that of table 0 without a type is for functions and for funcref -/
inductive Active (s : SegmentForm X) (offset : X) : Nat → SegmentEntry X → Prop where
  | explicit (table : Nat) : Active s offset table (s.entry 2 table offset)
  | implicit (h : ∀ long t xs, s = .exprs long t xs → t = funcrefTy) : Active s offset 0 (s.entry 0 0 offset)

end SegmentForm

/-! ## Agreement -/

/-- the instruction validates on some operand stack -/
def InstrAccepted (M : Module) (p : PlainOp) : Prop := ∃ v v', validateData M v (.plain p) = .ok v'

/-- type `a` is an array of elements of type `t` -/
def IsArrayOf (M : Module) (a : Nat) (t : Ty) : Prop :=
  ∃ td, M.typeDefs[a]? = some td ∧ td.kind = .array ∧ td.fieldTypes[0]? = some t

/-- wherever the segment meets the type `t` it is accepted exactly when `ok` holds; `k` is the index of its passive
form -/
structure SegmentAgrees {X : Type} (S : SegmentEnv X) (s : SegmentForm X) (k : Nat) (t : Ty) (ok : Prop) : Prop where
  active : ∀ table tt offset e, S.module.tables[table]? = some tt → tt.elemType = t →
    S.compiles offset (if tt.addrType = .i64 then .i64 else .i32) = .ok () → s.Active offset table e →
    ((∃ p, parseSegment S e = .ok p) ↔ ok)
  tableInit : ∀ table tt, S.module.tables[table]? = some tt → tt.elemType = t →
    (InstrAccepted S.module (.tableInit k table) ↔ ok)
  arrayNewElem : ∀ a, IsArrayOf S.module a t → (InstrAccepted S.module (.arrayNewElem a k) ↔ ok)
  arrayInitElem : ∀ a td, IsArrayOf S.module a t → S.module.typeDefs[a]? = some td →
    td.fieldMutables[0]? = some true → (InstrAccepted S.module (.arrayInitElem a k) ↔ ok)

/-- nothing in the module has the element type `t` -/
def NoTargets (M : Module) (t : Ty) : Prop :=
  (∀ tt ∈ M.tables, tt.elemType ≠ t) ∧ ∀ a, ¬ IsArrayOf M a t

/-! ## Types of a module -/

/-- the module has the types of an accepted type section -/
structure HasTypes (M : Module) (L : LinkModule) : Prop where
  typeDefs : M.typeDefs = L.typeDefs
  canonicalMap : M.canonicalMap = L.canonicalMap

section Types

variable {M : Module} {L : LinkModule}

theorem HasTypes.walkSupertypes (h : HasTypes M L) (sup fuel t : Nat) :
    M.walkSupertypes sup fuel t = L.walkSupertypes sup fuel t := by
  have hcanon : M.canon = L.canon := funext fun n => by rw [Module.canon, Module.canon, h.canonicalMap]
  induction fuel generalizing t with
  | zero => rfl
  | succ fuel ih =>
    simp only [Module.walkSupertypes, Module.supertype, h.typeDefs, hcanon, ih]

theorem HasTypes.typeIsSubtype (h : HasTypes M L) (a b : Ty) : M.typeIsSubtype a b = L.typeIsSubtype a b := by
  have hcanon : M.canon = L.canon := funext fun n => by rw [Module.canon, Module.canon, h.canonicalMap]
  have hkind : M.typeDefKind = L.typeDefKind :=
    funext fun n => by rw [Module.typeDefKind, Module.typeDefKind, h.typeDefs]
  have hidx : M.idxIsSubtype = L.idxIsSubtype := by
    funext a b
    simp only [Module.idxIsSubtype, h.typeDefs, hcanon, h.walkSupertypes]
  have hheap : M.heapIsSubtype = L.heapIsSubtype := by
    funext a b
    simp only [Module.heapIsSubtype, hkind, hidx]
  simp only [Module.typeIsSubtype, hheap]

/-- a non-null reference is below a type exactly when it is below its non-null form -/
theorem typeIsSubtype_asNonNull (h : HeapTy) (t : Ty) :
    M.typeIsSubtype (.ref false h) t.asNonNull = M.typeIsSubtype (.ref false h) t := by
  cases t with
  | ref null h' => cases null <;> by_cases hh : h = h' <;> simp [Module.typeIsSubtype, Ty.asNonNull, hh]
  | _ => rfl

/-- nothing but `func` itself is above it -/
theorem heapIsSubtype_func (h : HeapTy) : M.heapIsSubtype (.abs .func) h = true ↔ h = .abs .func := by
  cases h with
  | idx n => simp [Module.heapIsSubtype]
  | abs a => cases a <;> simp [Module.heapIsSubtype, absIsSubtype]

/-- `funcref` is below the same types as `(ref func)`, except for that one -/
theorem funcref_below_iff (t : Ty) :
    (M.typeIsSubtype funcrefTy t = true ↔ M.typeIsSubtype (.ref false (.abs .func)) t = true) ↔
      t ≠ .ref false (.abs .func) := by
  cases t with
  | ref null h =>
    cases null with
    | false =>
      have hfunc : M.typeIsSubtype (.ref false (.abs .func)) (.ref false h) = true ↔ h = .abs .func := by
        rw [← heapIsSubtype_func (M := M)]
        by_cases hh : h = .abs .func
        · simp [hh]
        · simp [Module.typeIsSubtype, Ne.symm hh]
      have hnull : ¬ M.typeIsSubtype funcrefTy (.ref false h) = true := by simp [Module.typeIsSubtype, funcrefTy]
      rw [hfunc, iff_false_left hnull, ne_eq, Ty.ref.injEq, and_iff_right rfl]
    | true =>
      refine iff_of_true ?_ (by simp)
      by_cases hh : h = .abs .func
      · simp [Module.typeIsSubtype, funcrefTy, hh]
      · simp [Module.typeIsSubtype, funcrefTy, Ne.symm hh]
  | _ => exact iff_of_true (by simp [Module.typeIsSubtype, funcrefTy]) (by simp)

end Types

/-! ## Instructions -/

section Instructions

variable {M : Module}

/-- operands below the base of dead code match anything -/
theorem popMatches_dead {v : VCtx} (hdead : v.isUnreachable = true) (hbase : v.height ≤ v.baseHeight) (ts : List Ty) :
    v.popMatches M ts = .ok v := by
  have hpop : v.popType = .ok (.bot, v) := by rw [VCtx.popType, if_pos hbase, if_pos hdead]
  induction ts with
  | nil => rfl
  | cons t ts ih =>
    have hmatch : v.popMatch M t = .ok v := by
      have hensure : ensure (M.typeMatches .bot t = true) = .ok () := ensure_eq_ok.2 (M.typeMatches_bot t)
      rw [VCtx.popMatch, hpop, ok_bind]
      exact bind_eq_ok.2 ⟨(), hensure, rfl⟩
    rw [VCtx.popMatches, hmatch]
    exact ih

/-- an instruction that pushes no more than one operand is accepted when its immediates are -/
theorem instrAccepted_iff {p : PlainOp} {c : Prop} (pops pushes : List Ty) (hpush : pushes.length ≤ 1)
    (hsig : ∀ r, plainSig M p = .ok r ↔ c ∧ (pops, pushes) = r) : InstrAccepted M p ↔ c := by
  constructor
  · rintro ⟨v, v', h⟩
    obtain ⟨r, hr, -⟩ := bind_eq_ok.1 h
    exact ((hsig r).1 hr).1
  · intro hc
    have hpops := popMatches_dead (M := M) (v := { isUnreachable := true }) rfl (Nat.le_refl _) pops
    have hnote : (p.noteData { isUnreachable := true }).stack = [] := by cases p <;> rfl
    refine ⟨{ isUnreachable := true }, ?_⟩
    rw [validateData, (hsig _).2 ⟨hc, rfl⟩, ok_bind]
    show ∃ v', (VCtx.popMatches M _ pops >>= fun v => _) = Except.ok v'
    rw [hpops, ok_bind]
    cases pushes with
    | nil => exact ⟨_, rfl⟩
    | cons t ts =>
      obtain rfl : ts = [] := List.length_eq_zero_iff.1 (Nat.le_zero.1 (Nat.le_of_succ_le_succ hpush))
      refine ⟨_, bind_eq_ok.2 ⟨_, if_pos ?_, rfl⟩⟩
      rw [VCtx.height, hnote]
      decide

variable {k a : Nat} {seg t : Ty}

theorem tableInit_accepted {table : Nat} {tt : TableType} (hk : M.elemSegments[k]? = some seg)
    (ht : M.tables[table]? = some tt) :
    InstrAccepted M (.tableInit k table) ↔ M.typeIsSubtype seg tt.elemType = true := by
  refine instrAccepted_iff [.i32, .i32, tt.addrType] [] (Nat.zero_le _) fun r => ?_
  simp only [plainSig, bind_eq_ok, look_eq_ok, ensure_eq_ok, pure_eq_ok, hk, ht, M.typeMatches_eq, Option.some.injEq,
    exists_eq_left', exists_const]

theorem arrayNewElem_accepted (hk : M.elemSegments[k]? = some seg) (ha : IsArrayOf M a t) :
    InstrAccepted M (.arrayNewElem a k) ↔ M.typeIsSubtype seg t = true := by
  obtain ⟨td, htd, hkind, hfield⟩ := ha
  refine instrAccepted_iff [.i32, .i32] [idxRef false a] (Nat.le_refl _) fun r => ?_
  simp only [plainSig, typeDefOf, bind_eq_ok, look_eq_ok, ensure_eq_ok, pure_eq_ok, hk, htd, hkind, hfield,
    M.typeMatches_eq, Option.some.injEq, exists_eq_left', exists_const, true_and]

/-- only references are above a reference, so that asking for one refuses nothing more -/
theorem arrayInitElem_accepted {td : TypeDef} (hk : M.elemSegments[k]? = some seg) (href : seg.isRef = true)
    (ha : IsArrayOf M a t) (htd : M.typeDefs[a]? = some td) (hmut : td.fieldMutables[0]? = some true) :
    InstrAccepted M (.arrayInitElem a k) ↔ M.typeIsSubtype seg t = true := by
  obtain ⟨td', htd', hkind, hfield⟩ := ha
  obtain rfl : td' = td := Option.some.inj (htd'.symm.trans htd)
  have hisRef : M.typeIsSubtype seg t = true → t.isRef = true := by
    cases seg with
    | ref n h => cases t <;> simp [Module.typeIsSubtype, Ty.isRef]
    | _ => cases href
  refine instrAccepted_iff [.i32, .i32, .i32, idxRef true a] [] (Nat.zero_le _) fun r => ?_
  simp only [plainSig, typeDefOf, bind_eq_ok, look_eq_ok, ensure_eq_ok, pure_eq_ok, hk, htd, hkind, hfield, hmut,
    M.typeMatches_eq, Option.some.injEq, exists_eq_left', exists_const, true_and]
  exact ⟨fun h => h.2, fun h => ⟨hisRef h.1, h⟩⟩

end Instructions

/-! ## Parsing -/

section Forms

variable {X : Type} {S : SegmentEnv X} {s : SegmentForm X} {e : SegmentEntry X}

/-- the type the parser keeps for a segment -/
def SegmentForm.declaredType : SegmentForm X → Ty
  | .funcs _ => funcrefTy
  | .exprs _ t _ => t

theorem readElemType_ok {t : Ty} (h : readElemType S e = .ok t) :
    (t = if 0 < e.flags % 4 ∧ 4 ≤ e.flags then e.type else funcrefTy) ∧ t.isRef = true ∧ tyInRange S.module t := by
  unfold readElemType at h
  by_cases hmode : 0 < e.flags % 4
  · rw [if_pos hmode] at h
    by_cases hexpr : 4 ≤ e.flags
    · rw [if_pos hexpr] at h
      obtain ⟨_, -, h⟩ := readBind_ok h
      obtain ⟨_, href, h⟩ := readBind_ok h
      obtain ⟨_, hrange, h⟩ := readBind_ok h
      obtain ⟨_, -, h⟩ := readBind_ok h
      obtain rfl : e.type = t := Except.ok.inj h
      exact ⟨(if_pos ⟨hmode, hexpr⟩).symm, readEnsure_ok href, readEnsure_ok hrange⟩
    · rw [if_neg hexpr] at h
      obtain ⟨_, -, h⟩ := readBind_ok h
      obtain rfl : funcrefTy = t := Except.ok.inj h
      exact ⟨(if_neg fun h => hexpr h.2).symm, rfl, trivial⟩
  · rw [if_neg hmode] at h
    obtain rfl : funcrefTy = t := Except.ok.inj h
    exact ⟨(if_neg fun h => hmode h.1).symm, rfl, trivial⟩

/-- a passive segment is kept with its declared type, at which its items are accepted -/
theorem parseSegment_passive {unused : X} {p : ParsedSegment} (h : parseSegment S (s.passive unused) = .ok p) :
    S.bulkMemory = true ∧ p.elemType = s.declaredType ∧
      readElemType S (s.passive unused) = .ok s.declaredType ∧
      readItems S (s.passive unused) s.declaredType = .ok () := by
  have hmode : (s.passive unused).flags % 4 = 1 := by cases s <;> simp [SegmentForm.passive, SegmentForm.entry]
  obtain ⟨_, -, h⟩ := readBind_ok h
  obtain ⟨_, hbulk, h⟩ := readBind_ok h
  obtain ⟨_, -, h⟩ := readBind_ok h
  rw [if_neg (by omega)] at h
  obtain ⟨t, htype, h⟩ := readBind_ok h
  obtain ⟨_, hitems, h⟩ := readBind_ok h
  cases h
  have ht : t = s.declaredType := by
    rw [(readElemType_ok htype).1]
    cases s with
    | funcs fs => rfl
    | exprs long t' xs => exact if_pos ⟨by omega, Nat.le_add_left 4 1⟩
  subst ht
  exact ⟨readEnsure_ok hbulk (by omega), rfl, htype, hitems⟩

/-- an active segment whose parts are accepted is accepted when its type fits the table -/
theorem parseSegment_active {tt : TableType} {t : Ty} (hflags : e.flags ≤ 7) (hmode : e.flags % 4 = 0 ∨ e.flags % 4 = 2)
    (hbulk : S.bulkMemory = true) (htt : S.module.tables[if e.flags % 4 = 2 then e.table else 0]? = some tt)
    (hoffset : S.compiles e.offset (if tt.addrType = .i64 then .i64 else .i32) = .ok ())
    (htype : readElemType S e = .ok t) (hitems : readItems S e t = .ok ()) :
    (∃ p, parseSegment S e = .ok p) ↔ checkActiveType S (decide (4 ≤ e.flags)) t tt = .ok () := by
  have hrefs : e.flags % 4 = 3 → S.types.enabled .refTypes = true := fun h => by omega
  have heq : parseSegment S e = (checkActiveType S (decide (4 ≤ e.flags)) t tt).bind fun _ =>
      .ok ⟨true, decide (4 ≤ e.flags), false, if e.flags % 4 = 2 then e.table else 0, t⟩ := by
    unfold parseSegment
    simp only [readEnsure, if_pos hflags, if_pos (fun _ => hbulk : e.flags ≠ 0 → S.bulkMemory = true), if_pos hrefs,
      if_pos hmode, htt, hoffset, htype, bind, Except.bind]
    cases checkActiveType S (decide (4 ≤ e.flags)) t tt with
    | error err => rfl
    | ok u =>
      simp only [hitems]
      rfl
  rw [heq]
  cases checkActiveType S (decide (4 ≤ e.flags)) t tt with
  | error err => exact iff_of_false nofun nofun
  | ok u => exact iff_of_true ⟨_, rfl⟩ rfl

/-- the check of an active segment looks at the type of the specification -/
theorem checkActiveType_iff (tt : TableType) :
    checkActiveType S s.isExpr s.declaredType tt = .ok () ↔ S.module.typeIsSubtype s.specType tt.elemType = true := by
  cases s with
  | funcs fs =>
    show readEnsure (S.module.typeIsSubtype (.ref false (.abs .func)) tt.elemType.asNonNull = true) _ = _ ↔ _
    rw [typeIsSubtype_asNonNull, readEnsure]
    split_ifs with h
    · exact iff_of_true rfl h
    · exact iff_of_false nofun h
  | exprs long t xs =>
    show readEnsure (S.module.typeMatches t tt.elemType = true) _ = _ ↔ _
    rw [Module.typeMatches_eq, readEnsure]
    split_ifs with h
    · exact iff_of_true rfl h
    · exact iff_of_false nofun h

/-- the active forms have the type and the items of the passive one -/
theorem active_parts {unused offset : X} {table : Nat} (h : s.Active offset table e)
    (htype : readElemType S (s.passive unused) = .ok s.declaredType)
    (hitems : readItems S (s.passive unused) s.declaredType = .ok ()) :
    e.flags ≤ 7 ∧ (e.flags % 4 = 0 ∨ e.flags % 4 = 2) ∧ (if e.flags % 4 = 2 then e.table else 0) = table ∧
      e.offset = offset ∧ decide (4 ≤ e.flags) = s.isExpr ∧ readElemType S e = .ok s.declaredType ∧
      readItems S e s.declaredType = .ok () := by
  cases h with
  | explicit =>
    have htype' : readElemType S (s.entry 2 table offset) = readElemType S (s.passive unused) := by
      cases s with
      | funcs fs => rfl
      | exprs long t xs =>
        simp only [readElemType, SegmentForm.passive, SegmentForm.entry, Nat.reduceAdd, Nat.reduceMod, Nat.reduceLT,
          Nat.reduceLeDiff, if_true]
        rfl
    cases s with
    | funcs fs => exact ⟨Nat.le_of_ble_eq_true rfl, .inr rfl, rfl, rfl, rfl, rfl, hitems⟩
    | exprs long t xs =>
      have hitems' : readItems S (SegmentForm.entry 2 table offset (.exprs long t xs)) t = .ok () := hitems
      refine ⟨Nat.le_of_ble_eq_true rfl, ?_, ?_, rfl, rfl, htype'.trans htype, hitems'⟩ <;> simp [SegmentForm.entry]
  | implicit ht =>
    cases s with
    | funcs fs => exact ⟨Nat.zero_le _, .inl rfl, rfl, rfl, rfl, rfl, hitems⟩
    | exprs long t xs =>
      obtain rfl := ht long t xs rfl
      have htype' : readElemType S (SegmentForm.entry 0 0 offset (.exprs long funcrefTy xs)) = .ok funcrefTy := by
        simp [readElemType, SegmentForm.entry, pure, Except.pure]
      refine ⟨Nat.le_of_ble_eq_true rfl, ?_, ?_, rfl, rfl, htype', hitems⟩ <;> simp [SegmentForm.entry]

end Forms

/-! ## Result -/

theorem SegmentForm.specType_declared {X : Type} {S : SegmentEnv X} {s : SegmentForm X} {L : LinkModule}
    (hM : HasTypes S.module L) (href : s.declaredType.isRef = true) (hrange : tyInRange S.module s.declaredType) :
    L.Writes s.specType := by
  cases s with
  | funcs fs => trivial
  | exprs long t xs =>
    cases t with
    | ref null h =>
      cases h with
      | abs a => trivial
      | idx n => exact (congrArg (n < ·.length) hM.typeDefs).mp hrange
    | _ => cases href

/-- **The type of a segment.** In every module with an accepted type section, a segment that the parser accepts in
passive form meets an element type alike in its active forms, in `table.init`, in `array.new_elem` and in
`array.init_elem`, which accept it exactly when its type in the specification is a subtype, if and only if it consists
of expressions or the type is not `(ref func)` (or nothing has that element type). -/
theorem segment_type_agreement {X : Type} {S : SegmentEnv X} {mix : UInt64 → UInt64 → UInt64} {entries : List RecType}
    {L : LinkModule} {s : SegmentForm X} {unused : X} {p : ParsedSegment} {k : Nat} {t : Ty}
    (hL : parseTypeSection mix entries = some L) (hM : HasTypes S.module L)
    (hp : parseSegment S (s.passive unused) = .ok p) (hk : S.module.elemSegments[k]? = some p.elemType)
    (ht : L.Writes t) :
    SegmentAgrees S s k t (SpecSub L s.specType t) ↔
      s.isExpr = true ∨ t ≠ .ref false (.abs .func) ∨ NoTargets S.module t := by
  obtain ⟨hbulk, helem, htype, hitems⟩ := parseSegment_passive hp
  rw [helem] at hk
  obtain ⟨-, href, hrange⟩ := readElemType_ok htype
  have hspec : SpecSub L s.specType t ↔ S.module.typeIsSubtype s.specType t = true := by
    rw [hM.typeIsSubtype]
    exact ((subtyping_preorder hL).2.2.2.2 _ _ (SegmentForm.specType_declared hM href hrange) ht).symm
  rw [hspec]
  constructor
  · intro h
    by_contra hne
    push Not at hne
    obtain ⟨hexpr, rfl, htargets⟩ := hne
    obtain ⟨fs, rfl⟩ : ∃ fs, s = .funcs fs := by
      cases s with
      | funcs fs => exact ⟨fs, rfl⟩
      | exprs long t xs => exact absurd rfl hexpr
    -- the kept type is nullable, and so refused, while the type of the specification fits
    have hrefused : ¬ S.module.typeIsSubtype funcrefTy (.ref false (.abs .func)) = true := by
      simp [Module.typeIsSubtype, funcrefTy]
    refine htargets ⟨fun tt htt htt' => ?_, fun a ha => ?_⟩
    · obtain ⟨table, htable⟩ := List.mem_iff_getElem?.1 htt
      have hinit := (h.tableInit table tt htable htt').2 (S.module.typeIsSubtype_refl _)
      rw [tableInit_accepted hk htable, htt'] at hinit
      exact hrefused hinit
    · have hnew := (h.arrayNewElem a ha).2 (S.module.typeIsSubtype_refl _)
      rw [arrayNewElem_accepted hk ha] at hnew
      exact hrefused hnew
  · intro hcond
    have hkept : (∃ tt ∈ S.module.tables, tt.elemType = t) ∨ (∃ a, IsArrayOf S.module a t) →
        (S.module.typeIsSubtype s.declaredType t = true ↔ S.module.typeIsSubtype s.specType t = true) := by
      intro htarget
      cases s with
      | funcs fs =>
        refine (funcref_below_iff t).2 ?_
        rcases hcond with hexpr | hne | hnone
        · cases hexpr
        · exact hne
        · rcases htarget with ⟨tt, htt, htt'⟩ | ⟨a, ha⟩
          · exact absurd htt' (hnone.1 tt htt)
          · exact absurd ha (hnone.2 a)
      | exprs long t' xs => rfl
    refine ⟨fun table tt offset e htable htt hoffset hactive => ?_, fun table tt htable htt => ?_, fun a ha => ?_,
      fun a td ha htd hmut => ?_⟩
    · obtain ⟨hflags, hmode, rfl, rfl, hisExpr, htype', hitems'⟩ := active_parts hactive htype hitems
      rw [parseSegment_active hflags hmode hbulk htable hoffset htype' hitems', hisExpr, checkActiveType_iff, htt]
    · rw [tableInit_accepted hk htable, htt]
      exact hkept (.inl ⟨tt, List.mem_of_getElem? htable, htt⟩)
    · rw [arrayNewElem_accepted hk ha]
      exact hkept (.inr ⟨a, ha⟩)
    · rw [arrayInitElem_accepted hk href ha htd hmut]
      exact hkept (.inr ⟨a, ha⟩)

/-- one function and a passive segment of it, with tables of `(ref func)` and of `funcref` -/
def funcTables : SegmentEnv Unit where
  module :=
    { funcs := [0]
      tables := [⟨.ref false (.abs .func), .i32⟩, ⟨funcrefTy, .i32⟩]
      elemSegments := [funcrefTy] }
  types := ⟨[], fun _ => true, 0, fun _ => true⟩
  bulkMemory := true
  compiles := fun _ _ => .ok ()
  declares := fun _ => .ok ()

/-- the types of the empty type section -/
theorem noTypes : ∃ L, parseTypeSection recGroupHashMix [] = some L ∧ HasTypes funcTables.module L :=
  ⟨_, rfl, rfl, rfl⟩

theorem segment_type_agreement_funcref : ∃ L, parseTypeSection recGroupHashMix [] = some L ∧
    SegmentAgrees funcTables (.funcs [0]) 0 funcrefTy (SpecSub L (.ref false (.abs .func)) funcrefTy) := by
  obtain ⟨L, hL, hM⟩ := noTypes
  have hp : parseSegment funcTables ((SegmentForm.funcs [0]).passive ()) =
      .ok ⟨false, false, false, 0, funcrefTy⟩ := rfl
  exact ⟨L, hL, (segment_type_agreement (k := 0) (t := funcrefTy) hL hM hp rfl trivial).2 (.inr (.inl nofun))⟩

/-- the active form of a segment goes into a table of `(ref func)`, and `table.init` of its passive form does not -/
theorem table_init_refuses_functions :
    parseSegment funcTables ((SegmentForm.funcs [0]).entry 2 0 ()) = .ok ⟨true, false, false, 0, funcrefTy⟩ ∧
    parseSegment funcTables ((SegmentForm.funcs [0]).passive ()) = .ok ⟨false, false, false, 0, funcrefTy⟩ ∧
    ¬ InstrAccepted funcTables.module (.tableInit 0 0) := by
  refine ⟨rfl, rfl, ?_⟩
  have hk : funcTables.module.elemSegments[0]? = some funcrefTy := rfl
  have htable : funcTables.module.tables[0]? = some ⟨.ref false (.abs .func), .i32⟩ := rfl
  rw [tableInit_accepted hk htable]
  decide

end Wah
