/-
Local declarations: runs of declared locals, as the parser keeps them and as the validator and the collector read them.

Model:
- the parser works on the bytes, through the LEB128 decoders and the decoders of value types. Features are parameters,
  and `room` says whether the array of runs can be allocated;
- a read outside the array of runs is `none`; the index of its last run is computed in 32 bits.

Result: in every function body whose declarations are accepted, the runs are those of the expanded list of the
specification: its length, its types at each index, its references in a frame (`local_runs_exact`).
-/
import Wah.Validate
import Wah.Reader
import Wah.Bisect

namespace Wah

/-! ## Value types -/

/-- the features that value types ask for -/
inductive TypeFeature where
  | simd | typedFuncref | exception | gc | refTypes
deriving DecidableEq, Repr

/-- the bytes up to the end of the function body; `room` is whether an array of so many runs is allocated -/
structure DeclEnv where
  buf : List (BitVec 8)
  enabled : TypeFeature → Bool
  typeCount : Nat
  room : Nat → Bool

section Decoding

variable (E : DeclEnv)

def DeclEnv.require (f : TypeFeature) : Except ReadError Unit :=
  readEnsure (E.enabled f = true) .disabledFeature

/-- `wah_decode_abstract_heap_byte` -/
def abstractHeapByte (b : BitVec 8) : Option AbsHeap :=
  match b.toNat with
  | 0x70 => some .func
  | 0x6F => some .externRef
  | 0x6E => some .any
  | 0x6D => some .eq
  | 0x6C => some .i31
  | 0x6B => some .struct
  | 0x6A => some .array
  | 0x69 => some .exn
  | 0x74 => some .noexn
  | 0x73 => some .nofunc
  | 0x72 => some .noexternRef
  | 0x71 => some .none
  | _ => none

def decodeHeapType (ptr : Nat) : Except ReadError (HeapTy × Nat) := do
  let b ← readByte E.buf ptr
  match abstractHeapByte b with
  | some a => pure (.abs a, ptr + 1)
  | none =>
    let (idx, ptr) ← lebValue (decodeSleb128_32 E.buf ptr)
    readEnsure (0 ≤ idx.toInt) .malformed
    readEnsure (idx.toNat ≤ maxTypeIndex) .tooLarge
    pure (.idx idx.toNat, ptr)

def decodeRefType (ptr : Nat) : Except ReadError (Ty × Nat) := do
  let b ← readByte E.buf ptr
  match abstractHeapByte b with
  | some a => pure (.ref true (.abs a), ptr + 1)
  | none =>
    if b = 0x63 ∨ b = 0x64 then E.require .typedFuncref
    if b = 0x63 then
      let (h, ptr) ← decodeHeapType E (ptr + 1)
      pure (.ref true h, ptr)
    else if b = 0x64 then
      let (h, ptr) ← decodeHeapType E (ptr + 1)
      pure (.ref false h, ptr)
    else .error .malformed

def decodeValType (ptr : Nat) : Except ReadError (Ty × Nat) := do
  let b ← readByte E.buf ptr
  match b.toNat with
  | 0x7F => pure (.i32, ptr + 1)
  | 0x7E => pure (.i64, ptr + 1)
  | 0x7D => pure (.f32, ptr + 1)
  | 0x7C => pure (.f64, ptr + 1)
  | 0x7B => pure (.v128, ptr + 1)
  | _ => decodeRefType E ptr

/-- `wah_require_type_features` -/
def requireTypeFeatures : Ty → Except ReadError Unit
  | .v128 => E.require .simd
  | .ref null h => do
    match h, null with
    | .abs _, true => pure ()
    | _, _ => E.require .typedFuncref
    match h with
    | .abs .exn | .abs .noexn => E.require .exception
    | .abs .func | .abs .externRef => E.require .refTypes
    | .abs _ =>
      E.require .gc
      E.require .refTypes
    | .idx _ => E.require .refTypes
  | _ => .ok ()

/-! ## The parser -/

/-- `wah_local_run_t` -/
structure LocalRun where
  stop : Nat
  type : Ty
deriving DecidableEq, Repr

/-- the locals of `wah_code_body_t` -/
structure LocalBody where
  localCount : Nat
  runs : List LocalRun
deriving DecidableEq, Repr

/-- one entry: how many locals it declares, and their type -/
def decodeLocalEntry (ptr : Nat) : Except ReadError ((Nat × Ty) × Nat) := do
  let (n, ptr) ← lebValue (decodeUleb128 E.buf ptr)
  let (t, ptr) ← decodeValType E ptr
  pure ((n.toNat, t), ptr)

/-- the checks of an entry when `total` locals are declared before it -/
def checkLocalEntry (total : Nat) : Nat × Ty → Except ReadError Unit
  | (n, t) => do
    readEnsure (n ≤ 0xFFFFFFFF - total) .tooLarge
    readEnsure (total + n ≤ maxLocalCount) .tooLarge
    match t with
    | .ref _ (.idx i) => readEnsure (i < E.typeCount) .validationFailed
    | _ => .ok ()
    requireTypeFeatures E t

/-- the loop of `wah_parse_local_decls`, with `left` entries to go -/
def localDeclsLoop : Nat → Nat → LocalBody → Except ReadError (LocalBody × Nat)
  | 0, ptr, body => .ok (body, ptr)
  | left + 1, ptr, body => do
    let ((n, t), ptr) ← decodeLocalEntry E ptr
    checkLocalEntry E body.localCount (n, t)
    let total := body.localCount + n
    localDeclsLoop left ptr ⟨total, if 0 < n then body.runs ++ [⟨total, t⟩] else body.runs⟩

def parseLocalDecls (ptr : Nat) : Except ReadError (LocalBody × Nat) := do
  let (entries, ptr) ← readCount E.buf ptr 2
  readEnsure (E.room entries = true) .outOfMemory
  localDeclsLoop E entries ptr ⟨0, []⟩

end Decoding

/-! ## Readers of the runs -/

/-- `wah_local_run_start` -/
def LocalBody.runStart (body : LocalBody) (ri : Nat) : Option Nat :=
  if 0 < ri then body.runs[ri - 1]?.map LocalRun.stop else some 0

/-- `wah_local_type`: the first run that ends after `li` -/
def LocalBody.localType (body : LocalBody) (li : Nat) : Option Ty := do
  let last := (body.runs.length + 0xFFFFFFFF) % 2 ^ 32
  let ri ← bisect (fun i => body.runs[i]?.map fun r => decide (li < r.stop)) 0 last
  body.runs[ri]?.map LocalRun.type

/-- the type of a local in `wah_validate_opcode`: a parameter, or a declared local -/
def LocalBody.localOf (body : LocalBody) (params : List Ty) (n : Nat) : Option Ty :=
  if n < params.length then params[n]? else body.localType (n - params.length)

/-- `WAH_TYPE_IS_REF` on the integer of a type -/
def codeIsRef (t : Int) : Bool := t ≤ -31 ∧ -54 ≤ t ∨ 0 ≤ t

/-- the slots of one run that the collector visits in a frame with `params` parameters -/
def LocalBody.runSlots (body : LocalBody) (params ri : Nat) : Option (List Nat) := do
  let run ← body.runs[ri]?
  if codeIsRef run.type.code then
    let start ← body.runStart ri
    pure ((List.range' start (run.stop - start)).map (params + ·))
  else pure []

/-- parts 1a and 1b of `wah_gc_enumerate_roots` in a frame -/
def LocalBody.rootSlots (body : LocalBody) (params : List Ty) : Option (List Nat) := do
  let runs ← (List.range body.runs.length).mapM (body.runSlots params.length)
  pure (((List.range params.length).filter fun i => params[i]?.any fun t => codeIsRef t.code) ++ runs.flatten)

/-! ## What is accepted -/

section Accepted

variable {E : DeclEnv}

/-- the entries the decoders read from `ptr` on, and the cursor after them -/
inductive DeclVec (E : DeclEnv) : Nat → List (Nat × Ty) → Nat → Prop where
  | nil {ptr : Nat} : DeclVec E ptr [] ptr
  | cons {ptr ptr' ptr'' : Nat} {d : Nat × Ty} {ds : List (Nat × Ty)} : decodeLocalEntry E ptr = .ok (d, ptr') →
      DeclVec E ptr' ds ptr'' → DeclVec E ptr (d :: ds) ptr''

/-- the list of types that the declarations stand for -/
def expandDecls (ds : List (Nat × Ty)) : List Ty := ds.flatMap fun d => List.replicate d.1 d.2

/-- the runs of declarations that start at `start` -/
def runsOf : Nat → List (Nat × Ty) → List LocalRun
  | _, [] => []
  | start, (n, t) :: ds => if 0 < n then ⟨start + n, t⟩ :: runsOf (start + n) ds else runsOf start ds

@[simp] theorem expandDecls_nil : expandDecls [] = [] := rfl

@[simp] theorem expandDecls_cons (n : Nat) (t : Ty) (ds : List (Nat × Ty)) :
    expandDecls ((n, t) :: ds) = List.replicate n t ++ expandDecls ds := rfl

theorem runsOf_length_le (start : Nat) (ds : List (Nat × Ty)) : (runsOf start ds).length ≤ ds.length := by
  induction ds generalizing start with
  | nil => exact Nat.le_refl _
  | cons d ds ih =>
    obtain ⟨n, t⟩ := d
    rw [runsOf]
    split_ifs
    · exact Nat.succ_le_succ (ih _)
    · exact (ih start).trans (Nat.le_succ _)

/-- the loop by induction on the entries left: runs are added for the entries that declare something -/
theorem localDeclsLoop_ok {left ptr ptr' : Nat} {body body' : LocalBody}
    (h : localDeclsLoop E left ptr body = .ok (body', ptr')) (hmax : body.localCount ≤ maxLocalCount) :
    ∃ ds, DeclVec E ptr ds ptr' ∧ ds.length = left ∧ body'.localCount ≤ maxLocalCount ∧
      body' = ⟨body.localCount + (expandDecls ds).length, body.runs ++ runsOf body.localCount ds⟩ := by
  induction left generalizing ptr body with
  | zero =>
    obtain ⟨rfl, rfl⟩ := Prod.mk.injEq .. ▸ Except.ok.inj h
    exact ⟨[], .nil, rfl, hmax, by simp [runsOf]⟩
  | succ left ih =>
    obtain ⟨⟨⟨n, t⟩, next⟩, hentry, h⟩ := readBind_ok h
    obtain ⟨_, hcheck, h⟩ := readBind_ok h
    obtain ⟨-, -, hcheck⟩ := readBind_ok hcheck
    obtain ⟨_, hle, -⟩ := readBind_ok hcheck
    obtain ⟨ds, hvec, hlen, hmax', hbody⟩ := ih h (readEnsure_ok hle)
    refine ⟨(n, t) :: ds, .cons hentry hvec, congrArg (· + 1) hlen, hmax', ?_⟩
    rw [hbody, runsOf, expandDecls_cons, List.length_append, List.length_replicate, ← Nat.add_assoc]
    by_cases hn : 0 < n
    · simp only [if_pos hn, List.append_assoc, List.singleton_append]
    · obtain rfl : n = 0 := by omega
      rfl

theorem parseLocalDecls_ok {ptr ptr' : Nat} {body : LocalBody} (h : parseLocalDecls E ptr = .ok (body, ptr')) :
    ∃ start ds, readCount E.buf ptr 2 = .ok (ds.length, start) ∧ DeclVec E start ds ptr' ∧ ds.length < 2 ^ 32 ∧
      body.localCount ≤ maxLocalCount ∧ body = ⟨(expandDecls ds).length, runsOf 0 ds⟩ := by
  obtain ⟨⟨entries, start⟩, hcount, h⟩ := readBind_ok h
  obtain ⟨-, -, h⟩ := readBind_ok h
  obtain ⟨ds, hvec, rfl, hmax, hbody⟩ := localDeclsLoop_ok h (Nat.zero_le _)
  refine ⟨start, ds, hcount, hvec, readCount_lt hcount, hmax, ?_⟩
  rw [hbody, Nat.zero_add, List.nil_append]

end Accepted

/-! ## The runs are those of the list -/

section Runs

variable {start : Nat} {ds : List (Nat × Ty)}

/-- every run ends after the ones before it -/
theorem runsOf_stops (start : Nat) (ds : List (Nat × Ty)) :
    (runsOf start ds).Pairwise (·.stop < ·.stop) ∧
      ∀ r ∈ runsOf start ds, start < r.stop ∧ r.stop ≤ start + (expandDecls ds).length := by
  induction ds generalizing start with
  | nil => exact ⟨.nil, nofun⟩
  | cons d ds ih =>
    obtain ⟨n, t⟩ := d
    rw [runsOf, expandDecls_cons, List.length_append, List.length_replicate]
    split_ifs with hn
    · obtain ⟨hpair, hall⟩ := ih (start + n)
      refine ⟨List.pairwise_cons.2 ⟨fun r hr => (hall r hr).1, hpair⟩, fun r hr => ?_⟩
      rcases List.mem_cons.1 hr with rfl | hr
      · exact ⟨by simp only; omega, by simp only; omega⟩
      · have := hall r hr
        omega
    · obtain ⟨hpair, hall⟩ := ih start
      refine ⟨hpair, fun r hr => ?_⟩
      have := hall r hr
      omega

/-- the last run ends with the list -/
theorem runsOf_last (start : Nat) (ds : List (Nat × Ty)) (hne : expandDecls ds ≠ []) :
    (runsOf start ds).getLast?.map LocalRun.stop = some (start + (expandDecls ds).length) := by
  induction ds generalizing start with
  | nil => exact absurd rfl hne
  | cons d ds ih =>
    obtain ⟨n, t⟩ := d
    rw [runsOf, expandDecls_cons, List.length_append, List.length_replicate]
    rw [expandDecls_cons] at hne
    split_ifs with hn
    · by_cases hds : expandDecls ds = []
      · have hnil : runsOf (start + n) ds = [] := List.eq_nil_iff_forall_not_mem.2 fun r hr => by
          have := (runsOf_stops (start + n) ds).2 r hr
          rw [hds, List.length_nil] at this
          omega
        rw [hnil, hds]
        rfl
      · have hlast := ih (start + n) hds
        cases hruns : runsOf (start + n) ds with
        | nil => rw [hruns] at hlast; cases hlast
        | cons r rs =>
          rw [hruns] at hlast
          rw [List.getLast?_cons_cons, hlast, Nat.add_assoc]
    · obtain rfl : n = 0 := by omega
      rw [ih start hne, Nat.zero_add]

/-- the first run that ends after an index of the list has the type there -/
theorem runsOf_find (start : Nat) (ds : List (Nat × Ty)) (i : Nat) :
    ((runsOf start ds).find? fun r => decide (start + i < r.stop)).map LocalRun.type = (expandDecls ds)[i]? := by
  induction ds generalizing start i with
  | nil => rfl
  | cons d ds ih =>
    obtain ⟨n, t⟩ := d
    rw [runsOf, expandDecls_cons]
    split_ifs with hn
    · by_cases hi : i < n
      · rw [List.find?_cons_of_pos (by simpa using hi), List.getElem?_append_left (by simpa using hi),
          List.getElem?_replicate, if_pos hi]
        rfl
      · have hshift : start + i = start + n + (i - n) := by omega
        rw [List.find?_cons_of_neg (by simpa using hi), hshift, ih, List.getElem?_append_right (by simpa using hi),
          List.length_replicate]
    · obtain rfl : n = 0 := by omega
      exact ih start i

end Runs

/-! ## The search -/

theorem findIdx_lt_of_find? {α : Type} {p : α → Bool} {xs : List α} {x : α} (h : xs.find? p = some x) :
    xs.findIdx p < xs.length :=
  List.findIdx_lt_length_of_exists ⟨x, List.mem_of_find?_eq_some h, List.find?_some h⟩

/-- the type of a local is that of the list -/
theorem localType_eq {ds : List (Nat × Ty)} (hlen : ds.length < 2 ^ 32) {count i : Nat}
    (hi : i < (expandDecls ds).length) : (LocalBody.mk count (runsOf 0 ds)).localType i = (expandDecls ds)[i]? := by
  have hfind := runsOf_find 0 ds i
  rw [Nat.zero_add, List.getElem?_eq_getElem hi] at hfind
  obtain ⟨r, hr, -⟩ := Option.map_eq_some_iff.1 hfind
  have hlt := findIdx_lt_of_find? hr
  have hruns := (runsOf_length_le 0 ds).trans_lt hlen
  -- there is a run, so the index of the last one does not wrap
  have hlast : ((runsOf 0 ds).length + 0xFFFFFFFF) % 2 ^ 32 = (runsOf 0 ds).length - 1 := by omega
  have hmono : (runsOf 0 ds).Pairwise fun a b => decide (i < a.stop) = true → decide (i < b.stop) = true :=
    (runsOf_stops 0 ds).1.imp fun hab ha => decide_eq_true ((of_decide_eq_true ha).trans hab)
  have hsearch := bisect_findIdx hmono ((runsOf 0 ds).length - 1) (by omega) (by omega)
  simp only [LocalBody.localType, hlast, hsearch, Option.bind_eq_bind, Option.bind_some,
    ← List.find?_eq_getElem?_findIdx]
  rw [hfind, List.getElem?_eq_getElem hi]

/-! ## The collector -/

/-- the references of a list of types, by their indices from `start` on -/
def refSlotsFrom (start : Nat) (ts : List Ty) : List Nat := ((ts.zipIdx start).filter fun p => p.1.isRef).map Prod.snd

theorem refSlotsFrom_append (start : Nat) (ts us : List Ty) :
    refSlotsFrom start (ts ++ us) = refSlotsFrom start ts ++ refSlotsFrom (start + ts.length) us := by
  simp only [refSlotsFrom, List.zipIdx_append, List.filter_append, List.map_append]

theorem refSlotsFrom_replicate (start n : Nat) (t : Ty) :
    refSlotsFrom start (List.replicate n t) = if t.isRef then List.range' start n else [] := by
  have hall : ∀ p ∈ (List.replicate n t).zipIdx start, p.1.isRef = t.isRef := fun p hp => by
    rw [List.eq_of_mem_replicate (List.fst_mem_of_mem_zipIdx hp)]
  unfold refSlotsFrom
  cases ht : t.isRef with
  | false =>
    rw [List.filter_eq_nil_iff.2 fun p hp => by rw [hall p hp, ht]; decide]
    rfl
  | true =>
    rw [List.filter_eq_self.2 fun p hp => by rw [hall p hp, ht], List.zipIdx_map_snd, List.length_replicate]
    rfl

theorem mem_refSlotsFrom {ts : List Ty} {i : Nat} : i ∈ refSlotsFrom 0 ts ↔ ∃ t, ts[i]? = some t ∧ t.isRef = true := by
  simp only [refSlotsFrom, List.mem_map, List.mem_filter, Prod.exists, List.mem_zipIdx_iff_getElem?]
  constructor
  · rintro ⟨t, j, ⟨hj, ht⟩, rfl⟩
    exact ⟨t, hj, ht⟩
  · rintro ⟨t, hi, ht⟩
    exact ⟨t, i, ⟨hi, ht⟩, rfl⟩

/-- the macro on the integer tells references from the other types -/
theorem codeIsRef_code (t : Ty) : codeIsRef t.code = t.isRef := by
  cases t with
  | ref null h =>
    cases h with
    | abs a => cases a <;> cases null <;> rfl
    | idx n =>
      have hpos : (0 : Int) ≤ 2 * n + (if null then 1 else 0) := by split_ifs <;> omega
      exact decide_eq_true (.inr hpos)
  | _ => rfl

/-- the slots of all runs, from the run at `start` on -/
def scanRuns (params : Nat) : Nat → List LocalRun → List Nat
  | _, [] => []
  | start, r :: rs =>
    (if r.type.isRef then (List.range' start (r.stop - start)).map (params + ·) else []) ++ scanRuns params r.stop rs

/-- the collector's loop over the runs, by induction on the runs it has left -/
theorem runSlots_scan (count params : Nat) (done rs : List LocalRun) (start : Nat)
    (hstart : (LocalBody.mk count (done ++ rs)).runStart done.length = some start) :
    ((List.range' done.length rs.length).mapM ((LocalBody.mk count (done ++ rs)).runSlots params)).map List.flatten =
      some (scanRuns params start rs) := by
  induction rs generalizing done start with
  | nil => rfl
  | cons r rs ih =>
    have hrun : (done ++ r :: rs)[done.length]? = some r := by simp
    have hslots : (LocalBody.mk count (done ++ r :: rs)).runSlots params done.length =
        some (if r.type.isRef then (List.range' start (r.stop - start)).map (params + ·) else []) := by
      simp only [LocalBody.runSlots, hrun, hstart, codeIsRef_code, Option.bind_eq_bind, Option.bind_some]
      split_ifs <;> rfl
    have hnext : (LocalBody.mk count ((done ++ [r]) ++ rs)).runStart (done ++ [r]).length = some r.stop := by
      simp [LocalBody.runStart]
    have hrest := ih (done ++ [r]) r.stop hnext
    rw [List.append_assoc, List.singleton_append, List.length_append, List.length_singleton] at hrest
    obtain ⟨slots, hmap, hflat⟩ := Option.map_eq_some_iff.1 hrest
    rw [List.length_cons, List.range'_succ, List.mapM_cons, hslots, hmap, scanRuns, ← hflat]
    rfl

/-- the slots of the runs of some declarations are the references of their list -/
theorem scanRuns_eq (params start : Nat) (ds : List (Nat × Ty)) :
    scanRuns params start (runsOf start ds) = (refSlotsFrom start (expandDecls ds)).map (params + ·) := by
  induction ds generalizing start with
  | nil => rfl
  | cons d ds ih =>
    obtain ⟨n, t⟩ := d
    rw [runsOf, expandDecls_cons, refSlotsFrom_append, refSlotsFrom_replicate, List.length_replicate, List.map_append]
    split_ifs with hn ht ht
    · rw [scanRuns, if_pos ht, Nat.add_sub_cancel_left, ih]
    · rw [scanRuns, if_neg ht, ih]
      rfl
    · obtain rfl : n = 0 := by omega
      exact ih start
    · obtain rfl : n = 0 := by omega
      exact ih start

theorem refSlotsFrom_shift (params start : Nat) (ts : List Ty) :
    (refSlotsFrom start ts).map (params + ·) = refSlotsFrom (params + start) ts := by
  induction ts generalizing start with
  | nil => rfl
  | cons t ts ih =>
    have hone : ∀ k, refSlotsFrom k (t :: ts) = (if t.isRef then [k] else []) ++ refSlotsFrom (k + 1) ts := fun k => by
      unfold refSlotsFrom
      rw [List.zipIdx_cons, List.filter_cons]
      split_ifs <;> rfl
    rw [hone, hone, List.map_append, ih, Nat.add_assoc]
    split_ifs <;> rfl

theorem paramSlots_eq (params : List Ty) :
    ((List.range params.length).filter fun i => params[i]?.any fun t => codeIsRef t.code) = refSlotsFrom 0 params := by
  induction params using List.reverseRecOn with
  | nil => rfl
  | append_singleton ps t ih =>
    have hleft : ((List.range ps.length).filter fun i => (ps ++ [t])[i]?.any fun t => codeIsRef t.code) =
        (List.range ps.length).filter fun i => ps[i]?.any fun t => codeIsRef t.code :=
      List.filter_congr fun i hi => by rw [List.getElem?_append_left (List.mem_range.1 hi)]
    rw [List.length_append, List.length_singleton, List.range_succ, List.filter_append, hleft, ih, refSlotsFrom_append]
    congr 1
    rw [List.filter_cons, List.getElem?_append_right (Nat.le_refl _), Nat.sub_self]
    cases ht : t.isRef with
    | false => simp [codeIsRef_code, refSlotsFrom, ht]
    | true => simp [codeIsRef_code, refSlotsFrom, ht]

/-- the collector visits the references of the list, parameters first -/
theorem rootSlots_eq (params : List Ty) (ds : List (Nat × Ty)) (count : Nat) :
    (LocalBody.mk count (runsOf 0 ds)).rootSlots params = some (refSlotsFrom 0 (params ++ expandDecls ds)) := by
  have hscan := runSlots_scan count params.length [] (runsOf 0 ds) 0 rfl
  rw [List.nil_append, List.length_nil, ← List.range_eq_range', scanRuns_eq, refSlotsFrom_shift,
    Nat.add_zero] at hscan
  obtain ⟨slots, hmap, hflat⟩ := Option.map_eq_some_iff.1 hscan
  rw [LocalBody.rootSlots, hmap, refSlotsFrom_append, Nat.zero_add, ← hflat, paramSlots_eq]
  rfl

theorem refSlotsFrom_nodup (ts : List Ty) : (refSlotsFrom 0 ts).Nodup := by
  refine List.Nodup.sublist (List.filter_sublist.map Prod.snd) ?_
  rw [List.zipIdx_map_snd]
  exact List.nodup_range'

/-! ## Result -/

/-- the runs of a body stand for the list `locals` -/
structure StandsFor (body : LocalBody) (locals : List Ty) : Prop where
  count : body.localCount = locals.length
  increasing : (body.runs.map LocalRun.stop).Pairwise (· < ·)
  nonempty : ∀ r ∈ body.runs, 0 < r.stop
  last : (body.runs.map LocalRun.stop).getLast?.getD 0 = body.localCount
  types : ∀ i : Nat, i < body.localCount → body.localType i = locals[i]?
  validator : ∀ (params : List Ty) (n : Nat), n < params.length + body.localCount →
    body.localOf params n = (FuncCtx.mk {} ⟨params, []⟩ locals).localType n
  roots : ∀ params : List Ty, ∃ slots, body.rootSlots params = some slots ∧ slots.Nodup ∧
    ∀ i, i ∈ slots ↔ ∃ t, (params ++ locals)[i]? = some t ∧ t.isRef = true

theorem standsFor_runsOf {ds : List (Nat × Ty)} (hlen : ds.length < 2 ^ 32) :
    StandsFor ⟨(expandDecls ds).length, runsOf 0 ds⟩ (expandDecls ds) := by
  have hstops := runsOf_stops 0 ds
  refine ⟨rfl, List.pairwise_map.2 hstops.1, fun r hr => (hstops.2 r hr).1, ?_, fun i hi => localType_eq hlen hi, ?_,
    ?_⟩
  · by_cases hne : expandDecls ds = []
    · have hnil : runsOf 0 ds = [] := List.eq_nil_iff_forall_not_mem.2 fun r hr => by
        have := hstops.2 r hr
        rw [hne, List.length_nil] at this
        omega
      simp only [hnil, hne, List.map_nil, List.getLast?_nil, Option.getD_none, List.length_nil]
    · simp only [List.getLast?_map, runsOf_last 0 ds hne, Option.getD_some, Nat.zero_add]
  · intro params n hn
    unfold LocalBody.localOf FuncCtx.localType
    split_ifs with hparam
    · exact (List.getElem?_append_left hparam).symm
    · rw [List.getElem?_append_right (Nat.not_lt.1 hparam)]
      exact localType_eq hlen (by simp only at hn; omega)
  · exact fun params => ⟨_, rootSlots_eq params ds _, refSlotsFrom_nodup _, fun i => mem_refSlotsFrom⟩

/-- **Local declarations.** In every function body whose declarations are accepted, the runs stand for the list that
the entries expand to: its types at each index for the validator, its references in a frame for the collector, and the
ends of the runs increase up to its length. -/
theorem local_runs_exact {E : DeclEnv} {ptr ptr' : Nat} {body : LocalBody}
    (h : parseLocalDecls E ptr = .ok (body, ptr')) :
    ∃ start ds, readCount E.buf ptr 2 = .ok (ds.length, start) ∧ DeclVec E start ds ptr' ∧
      StandsFor body (expandDecls ds) := by
  obtain ⟨start, ds, hcount, hvec, hlen, -, rfl⟩ := parseLocalDecls_ok h
  exact ⟨start, ds, hcount, hvec, standsFor_runsOf hlen⟩

/-- no `i32`, two `i64` and one more, and three function references -/
def mixedDecls : DeclEnv := ⟨[4, 0, 0x7F, 2, 0x7E, 1, 0x7E, 3, 0x70], fun _ => true, 0, fun _ => true⟩

theorem local_runs_exact_mixed :
    ∃ start ds, readCount mixedDecls.buf 0 2 = .ok (ds.length, start) ∧ DeclVec mixedDecls start ds 9 ∧
      StandsFor ⟨6, [⟨2, .i64⟩, ⟨3, .i64⟩, ⟨6, .ref true (.abs .func)⟩]⟩ (expandDecls ds) :=
  have h : parseLocalDecls mixedDecls 0 =
      .ok (⟨6, [⟨2, .i64⟩, ⟨3, .i64⟩, ⟨6, .ref true (.abs .func)⟩]⟩, 9) := rfl
  local_runs_exact h

end Wah
