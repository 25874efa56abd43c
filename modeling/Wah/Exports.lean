/-
The export index of a module: its exports in the order they were added, and their indices in the order of the names.

Model:
- the export section is parsed from its bytes; `room` says whether the allocations of the parser succeed, and a module
  that is not accepted is none;
- an export call may fail at each of its allocations (`ExportAlloc`), and leaves a module in any case. A read or a write
  outside of an array is a fault (`none`), where the arrays have room for as many elements as `ExportCaps` says;
- names given to export calls are C strings, and those of the export section are any bytes.

Result: in every module that a sequence of export calls reaches, the order is a permutation that sorts the names
strictly, a lookup finds exactly the export with a name, and each call adds one entity with one export or leaves the
module as it was (`export_index_exact`).
-/
import Wah.Native
import Wah.LocalInits
import Wah.Reader
import Wah.Utf8
import Wah.Bisect

namespace Wah

/-! ## Names -/

abbrev Name := List (BitVec 8)

/-- the sign of `memcmp` on as many bytes as both have -/
def memcmp : Name → Name → Ordering
  | a :: x, b :: y => if a.toNat < b.toNat then .lt else if b.toNat < a.toNat then .gt else memcmp x y
  | _, _ => .eq

/-- `wah_export_name_cmp`: shorter names come first -/
def nameCmp (x y : Name) : Ordering :=
  if x.length ≠ y.length then if x.length < y.length then .lt else .gt else memcmp x y

theorem memcmp_eq {x y : Name} (h : x.length = y.length) : memcmp x y = .eq ↔ x = y := by
  induction x generalizing y with
  | nil =>
    obtain rfl : y = [] := List.length_eq_zero_iff.1 h.symm
    exact iff_of_true rfl rfl
  | cons a x ih =>
    cases y with
    | nil => cases h
    | cons b y =>
      rw [memcmp, List.cons.injEq, ← BitVec.toNat_inj]
      split_ifs with hlt hgt
      · exact iff_of_false nofun (fun h => by omega)
      · exact iff_of_false nofun (fun h => by omega)
      · rw [ih (Nat.succ.inj h)]
        exact ⟨fun h => ⟨by omega, h⟩, And.right⟩

theorem memcmp_swap (x y : Name) : memcmp y x = (memcmp x y).swap := by
  induction x generalizing y with
  | nil => cases y <;> rfl
  | cons a x ih =>
    cases y with
    | nil => rfl
    | cons b y =>
      rw [memcmp, memcmp]
      split_ifs with h1 h2 h2
      · omega
      · rfl
      · rfl
      · exact ih y

theorem memcmp_trans {x y z : Name} (hxy : x.length = y.length) (hyz : y.length = z.length) (h1 : memcmp x y = .lt)
    (h2 : memcmp y z = .lt) : memcmp x z = .lt := by
  induction x generalizing y z with
  | nil => cases h1
  | cons a x ih =>
    cases y with
    | nil => cases hxy
    | cons b y =>
      cases z with
      | nil => cases hyz
      | cons c z =>
        rw [memcmp] at h1 h2 ⊢
        split_ifs at h1 h2 ⊢ with hac hca
        all_goals first | rfl | omega | skip
        exact ih (Nat.succ.inj hxy) (Nat.succ.inj hyz) h1 h2

theorem nameCmp_eq {x y : Name} : nameCmp x y = .eq ↔ x = y := by
  unfold nameCmp
  split_ifs with hne hlt
  · exact iff_of_false nofun fun h => hne (congrArg List.length h)
  · exact iff_of_false nofun fun h => hne (congrArg List.length h)
  · exact memcmp_eq (not_not.1 hne)

theorem nameCmp_swap (x y : Name) : nameCmp y x = (nameCmp x y).swap := by
  unfold nameCmp
  split_ifs with h1 h2 h3 h4 h5
  all_goals first | rfl | omega | skip
  exact memcmp_swap x y

theorem nameCmp_trans {x y z : Name} (h1 : nameCmp x y = .lt) (h2 : nameCmp y z = .lt) : nameCmp x z = .lt := by
  unfold nameCmp at h1 h2 ⊢
  split_ifs at h1 h2 ⊢ with hxz hlt
  all_goals first | rfl | omega | skip
  exact memcmp_trans (by omega) (by omega) h1 h2

theorem nameCmp_gt {x y : Name} : nameCmp x y = .gt ↔ nameCmp y x = .lt := by
  rw [nameCmp_swap y x]
  cases nameCmp y x <;> decide

/-! ## Modules -/

structure Export where
  name : Name
  kind : ExternKind
  index : Nat
deriving DecidableEq, Repr

/-- an entry of the unified function table: a function of the binary, or one of the host -/
inductive FuncEntry where
  | wasm
  | host (name : Name) (globalIdx : Nat) (type : FuncType) (callback : Nat)
deriving DecidableEq, Repr

/-- a global, with the bits of a constant given through an export call -/
structure GlobalEntry where
  type : Ty
  mutable : Bool
  bits : Option Nat
deriving DecidableEq, Repr

structure MemoryEntry where
  minPages : Nat
  maxPages : Nat
deriving DecidableEq, Repr

/-- how many elements the arrays have room for; `order` may be ahead of `exports` -/
structure ExportCaps where
  exports : Nat
  order : Nat
  functions : Nat
  globals : Nat
  memories : Nat

/-- the part of `wah_module_t` that exports concern -/
structure ExportModule where
  /-- function types by type index, `none` for types of other kinds -/
  types : List (Option FuncType)
  imports : ExternKind → Nat
  importMutable : Nat → Bool
  functions : List FuncEntry
  globals : List GlobalEntry
  memories : List MemoryEntry
  tables : Nat
  tags : Nat
  exports : List Export
  exportOrder : List Nat
  caps : ExportCaps

/-- how many entities of a kind the module defines -/
def ExportModule.defined (m : ExportModule) : ExternKind → Nat
  | .func => m.functions.length
  | .table => m.tables
  | .memory => m.memories.length
  | .global => m.globals.length
  | .tag => m.tags

/-- the size of an index space -/
def ExportModule.space (m : ExportModule) (k : ExternKind) : Nat := m.imports k + m.defined k

/-! ## Lookups -/

/-- `exports[export_order[i]]` -/
def ExportModule.inOrder (m : ExportModule) (i : Nat) : Option Export := m.exportOrder[i]?.bind fun k => m.exports[k]?

/-- `wah_export_lower_bound` -/
def ExportModule.lowerBound (m : ExportModule) (name : Name) : Option Nat :=
  bisect (fun i => (m.inOrder i).map fun e => nameCmp e.name name != .lt) 0 m.exports.length

/-- `wah_find_export_by_name`; `none` is a fault -/
def ExportModule.findByName (m : ExportModule) (name : Name) : Option (Option Export) :=
  (m.lowerBound name).bind fun pos =>
    if m.exports.length ≤ pos then some none
    else (m.inOrder pos).map fun e => if nameCmp e.name name = .eq then some e else none

/-! ## The export section -/

/-- `declares` is whether a function can be noted as declared, which needs memory -/
structure ExportEnv where
  buf : List (BitVec 8)
  room : Nat → Bool
  declares : Nat → Bool
  mutableGlobals : Bool

/-- `wah_parse_name` -/
def readName (E : ExportEnv) (ptr : Nat) : Except ReadError (Name × Nat) := do
  let (len, ptr) ← lebValue (decodeUleb128 E.buf ptr)
  readEnsure (len.toNat ≤ E.buf.length - ptr) .unexpectedEof
  let bytes := (E.buf.drop ptr).take len.toNat
  match isValidUtf8 bytes with
  | none => .error .fault
  | some valid =>
    readEnsure (valid = true) .malformed
    readEnsure (E.room (len.toNat + 1) = true) .outOfMemory
    pure (bytes, ptr + len.toNat)

def exportKind (b : BitVec 8) : Option ExternKind :=
  match b.toNat with
  | 0 => some .func
  | 1 => some .table
  | 2 => some .memory
  | 3 => some .global
  | 4 => some .tag
  | _ => none

/-- `wah_global_is_mutable` -/
def ExportModule.globalMutable (m : ExportModule) (idx : Nat) : Bool :=
  if idx < m.imports .global then m.importMutable idx
  else m.globals[idx - m.imports .global]?.any GlobalEntry.mutable

/-- the checks of an index by the kind of the export -/
def checkExportIndex (E : ExportEnv) (m : ExportModule) (kind : ExternKind) (idx : Nat) : Except ReadError Unit := do
  readEnsure (idx < m.space kind % 2 ^ 32) .validationFailed
  match kind with
  | .func => readEnsure (E.declares idx = true) .outOfMemory
  | .global => readEnsure (m.globalMutable idx = true → E.mutableGlobals = true) .disabledFeature
  | _ => .ok ()

def readExport (E : ExportEnv) (m : ExportModule) (ptr : Nat) : Except ReadError (Export × Nat) := do
  let (name, ptr) ← readName E ptr
  let b ← readByte E.buf ptr
  let (idx, ptr) ← lebValue (decodeUleb128 E.buf (ptr + 1))
  match exportKind b with
  | none => .error .malformed
  | some kind =>
    checkExportIndex E m kind idx.toNat
    pure (⟨name, kind, idx.toNat⟩, ptr)

def readExports (E : ExportEnv) (m : ExportModule) : Nat → Nat → Except ReadError (List Export × Nat)
  | 0, ptr => .ok ([], ptr)
  | left + 1, ptr => do
    let (e, ptr) ← readExport E m ptr
    let (es, ptr) ← readExports E m left ptr
    pure (e :: es, ptr)

/-- the exports with their positions, as `qsort` leaves the pointers to them -/
def sortExports (es : List Export) : List (Export × Nat) :=
  es.zipIdx.mergeSort fun x y => nameCmp x.1.name y.1.name != .gt

/-- `wah_parse_export_section` -/
def parseExportSection (E : ExportEnv) (m : ExportModule) (ptr : Nat) : Except ReadError (ExportModule × Nat) := do
  let (count, ptr) ← readCount E.buf ptr 3
  readEnsure (E.room count = true) .outOfMemory
  let (exports, ptr) ← readExports E m count ptr
  let sorted := sortExports exports
  readEnsure (sorted.IsChain fun x y => nameCmp x.1.name y.1.name ≠ .eq) .validationFailed
  pure ({ m with
    exports
    exportOrder := sorted.map Prod.snd
    caps := { m.caps with exports := count, order := count } }, ptr)

/-! ## Export calls -/

inductive ExportError where
  | validationFailed | tooLarge | outOfMemory | misuse | badSpec
deriving DecidableEq, Repr

/-- the allocations of an export call, each of which is made at most once -/
inductive ExportAlloc where
  | order | exports | entities | name | params | results | initExpr
deriving DecidableEq, Repr

/-- a NUL-terminated name, without its terminator -/
structure CName where
  bytes : Name
  noNul : 0 ∉ bytes

/-- a module after a step, and whether to go on; `none` is a fault -/
abbrev ExportStep := Option (ExportModule × Except ExportError Unit)

def ExportStep.andThen (x : ExportStep) (f : ExportModule → ExportStep) : ExportStep :=
  x.bind fun
    | (m, .ok ()) => f m
    | (m, .error e) => some (m, .error e)

/-- `WAH_ENSURE` -/
def exportEnsure (p : Prop) [Decidable p] (e : ExportError) (m : ExportModule) : ExportStep :=
  some (m, if p then .ok () else .error e)

/-- `wah_grow_array`, as the capacity after it -/
def ensureCap (cap needed : Nat) (room : Bool) : Except ExportError Nat :=
  if needed ≤ cap then .ok cap
  else if uint32Max < needed then .error .tooLarge
  else
    match growCap 33 (if cap = 0 then 8 else cap) needed with
    | none => .error .tooLarge
    | some cap => if room then .ok cap else .error .outOfMemory

section Calls

variable (room : ExportAlloc → Bool)

/-- the two arrays grow one after the other; the order has grown already where the exports cannot -/
def growExports (newCap : Nat) (m : ExportModule) : ExportStep :=
  if room .order = false then some (m, .error .outOfMemory)
  else if room .exports = false then
    some ({ m with caps := { m.caps with order := newCap } }, .error .outOfMemory)
  else some ({ m with caps := { m.caps with order := newCap, exports := newCap } }, .ok ())

/-- `wah_module_ensure_export` -/
def ensureExport (name : Name) (m : ExportModule) : ExportStep :=
  (m.findByName name).bind fun found =>
    if found.isSome then some (m, .error .validationFailed)
    else if m.caps.exports ≤ m.exports.length then
      if uint32Max / 2 < m.caps.exports then some (m, .error .tooLarge)
      else growExports room (if m.caps.exports = 0 then 16 else m.caps.exports * 2) m
    else some (m, .ok ())

/-- `wah_module_append_export` -/
def appendExport (e : Export) (m : ExportModule) : ExportStep :=
  (m.lowerBound e.name).bind fun pos =>
    if m.exports.length < m.caps.exports ∧ m.exports.length < m.caps.order then
      some ({ m with
        exports := m.exports ++ [e]
        exportOrder := m.exportOrder.take pos ++ m.exports.length :: m.exportOrder.drop pos }, .ok ())
    else none

/-- room for one more function; the number of functions needed is a `uint32_t` -/
def growFunctions (m : ExportModule) : ExportStep :=
  match ensureCap m.caps.functions ((m.functions.length + 1) % 2 ^ 32) (room .entities) with
  | .error e => some (m, .error e)
  | .ok functions => some ({ m with caps := { m.caps with functions } }, .ok ())

def growGlobals (m : ExportModule) : ExportStep :=
  match ensureCap m.caps.globals (m.globals.length + 1) (room .entities) with
  | .error e => some (m, .error e)
  | .ok globals => some ({ m with caps := { m.caps with globals } }, .ok ())

def growMemories (m : ExportModule) : ExportStep :=
  match ensureCap m.caps.memories (m.memories.length + 1) (room .entities) with
  | .error e => some (m, .error e)
  | .ok memories => some ({ m with caps := { m.caps with memories } }, .ok ())

/-- the function table with one more function, in the slot after the last -/
def pushFunction (f : FuncEntry) (m : ExportModule) : ExportStep :=
  if m.functions.length < m.caps.functions then some ({ m with functions := m.functions ++ [f] }, .ok ()) else none

def pushGlobal (g : GlobalEntry) (m : ExportModule) : ExportStep :=
  if m.globals.length < m.caps.globals then some ({ m with globals := m.globals ++ [g] }, .ok ()) else none

def pushMemory (e : MemoryEntry) (m : ExportModule) : ExportStep :=
  if m.memories.length < m.caps.memories then some ({ m with memories := m.memories ++ [e] }, .ok ()) else none

/-- `wah_module_register_host_func` -/
def registerHostFunc (name : CName) (type : FuncType) (callback : Nat) (m : ExportModule) : ExportStep :=
  (((((ensureExport room name.bytes m).andThen (growFunctions room)).andThen
    (exportEnsure (room .name = true) .outOfMemory)).andThen
    (exportEnsure (type.params ≠ [] → room .params = true) .outOfMemory)).andThen
    (exportEnsure (type.results ≠ [] → room .results = true) .outOfMemory)).andThen fun m =>
      let idx := (m.imports .func + m.functions.length) % 2 ^ 32
      (pushFunction (.host name.bytes idx type callback) m).andThen (appendExport ⟨name.bytes, .func, idx⟩)

/-- `wah_new_const_expr` makes constants of numeric types only -/
def isConstType : Ty → Bool
  | .i32 | .i64 | .f32 | .f64 | .v128 => true
  | _ => false

/-- `wah_export_global_internal` -/
def exportGlobal (name : CName) (type : Ty) (mutable : Bool) (bits : Nat) (m : ExportModule) : ExportStep :=
  (((((ensureExport room name.bytes m).andThen (growGlobals room)).andThen
    (exportEnsure (room .name = true) .outOfMemory)).andThen
    (exportEnsure (isConstType type = true) .validationFailed)).andThen
    (exportEnsure (room .initExpr = true) .outOfMemory)).andThen fun m =>
      let idx := (m.imports .global + m.globals.length) % 2 ^ 32
      (pushGlobal ⟨type, mutable, some bits⟩ m).andThen (appendExport ⟨name.bytes, .global, idx⟩)

/-- `UINT64_MAX` stands for a memory without a maximum -/
def memoryBoundsOk (minPages maxPages : Nat) : Prop :=
  0 < minPages ∧ minPages ≤ maxPages ∧ minPages ≤ 65536 ∧ (maxPages ≤ 65536 ∨ maxPages = 2 ^ 64 - 1)

instance (minPages maxPages : Nat) : Decidable (memoryBoundsOk minPages maxPages) :=
  inferInstanceAs (Decidable (_ ∧ _))

def exportMemory (name : CName) (minPages maxPages : Nat) (m : ExportModule) : ExportStep :=
  ((((exportEnsure (memoryBoundsOk minPages maxPages) .misuse m).andThen (ensureExport room name.bytes)).andThen
    (growMemories room)).andThen (exportEnsure (room .name = true) .outOfMemory)).andThen fun m =>
      let idx := (m.imports .memory + m.memories.length) % 2 ^ 32
      (pushMemory ⟨minPages, maxPages⟩ m).andThen (appendExport ⟨name.bytes, .memory, idx⟩)

/-- an export call; `func` has the function type its specification was read as, if it was accepted -/
inductive ExportCall where
  | func (name : CName) (type : Except ExportError FuncType) (callback : Nat)
  | typedFunc (name : CName) (typeIdx : Nat) (callback : Nat)
  | global (name : CName) (type : Ty) (mutable : Bool) (bits : Nat)
  | memory (name : CName) (minPages maxPages : Nat)

def ExportCall.run (m : ExportModule) : ExportCall → ExportStep
  | .func name type callback =>
    match type with
    | .error e => some (m, .error e)
    | .ok type => registerHostFunc room name type callback m
  | .typedFunc name typeIdx callback =>
    match m.types[typeIdx]? with
    | some (some type) => registerHostFunc room name type callback m
    | _ => some (m, .error .misuse)
  | .global name type mutable bits => exportGlobal room name type mutable bits m
  | .memory name minPages maxPages => exportMemory room name minPages maxPages m

end Calls

/-! ## The order of the exports -/

/-- `a` comes before `b` -/
def Export.Before (a b : Export) : Prop := nameCmp a.name b.name = .lt

/-- `order` is a permutation of the positions that puts the exports in the order `sorted` -/
structure OrderedBy (exports : List Export) (order : List Nat) (sorted : List Export) : Prop where
  perm : order.Perm (List.range exports.length)
  at_order : order.map (fun i => exports[i]?) = sorted.map some
  strict : sorted.Pairwise Export.Before

section Ordered

variable {exports sorted : List Export} {order : List Nat}

theorem OrderedBy.length_eq (h : OrderedBy exports order sorted) : order.length = exports.length := by
  rw [h.perm.length_eq, List.length_range]

theorem OrderedBy.sorted_length (h : OrderedBy exports order sorted) : sorted.length = exports.length := by
  have := congrArg List.length h.at_order
  rw [List.length_map, List.length_map] at this
  exact this.symm.trans h.length_eq

/-- reading through the order reads the sorted list -/
theorem OrderedBy.read (h : OrderedBy exports order sorted) (i : Nat) :
    (order[i]?.bind fun k => exports[k]?) = sorted[i]? := by
  have hi := congrArg (·[i]?) h.at_order
  simp only [List.getElem?_map] at hi
  cases ho : order[i]? with
  | none =>
    rw [ho] at hi
    cases hs : sorted[i]? with
    | none => rfl
    | some e => rw [hs] at hi; cases hi
  | some k =>
    rw [ho] at hi
    cases hs : sorted[i]? with
    | none => rw [hs] at hi; cases hi
    | some e =>
      rw [hs] at hi
      exact Option.some.inj hi

theorem range_map_getElem? (es : List Export) : (List.range es.length).map (fun i => es[i]?) = es.map some := by
  apply List.ext_getElem?
  intro i
  rw [List.getElem?_map, List.getElem?_map]
  by_cases hi : i < es.length
  · rw [List.getElem?_range hi, Option.map_some, List.getElem?_eq_getElem hi]
    rfl
  · rw [List.getElem?_eq_none (by simpa using hi), List.getElem?_eq_none (by omega)]
    rfl

theorem OrderedBy.mem_iff (h : OrderedBy exports order sorted) (e : Export) : e ∈ sorted ↔ e ∈ exports := by
  have hperm := h.perm.map fun i => exports[i]?
  rw [h.at_order, range_map_getElem?] at hperm
  have hmem := hperm.mem_iff (a := some e)
  rwa [List.mem_map_of_injective (Option.some_injective _), List.mem_map_of_injective (Option.some_injective _)] at hmem

end Ordered

/-! ## Searching and inserting -/

/-- not before a name -/
def Export.from (name : Name) (e : Export) : Bool := nameCmp e.name name != .lt

section Search

variable {m : ExportModule} {sorted : List Export}

theorem Export.from_mono {name : Name} {a b : Export} (hab : a.Before b) (ha : a.from name = true) :
    b.from name = true := by
  simp only [Export.from, bne_iff_ne, ne_eq] at ha ⊢
  exact fun hb => ha (nameCmp_trans hab hb)

theorem lowerBound_eq (h : OrderedBy m.exports m.exportOrder sorted) (name : Name) :
    m.lowerBound name = some (sorted.findIdx (Export.from name)) := by
  have hread : (fun i => (m.inOrder i).map fun e => nameCmp e.name name != .lt) =
      fun i => sorted[i]?.map (Export.from name) := funext fun i => by rw [ExportModule.inOrder, h.read]; rfl
  have hmono : sorted.Pairwise fun a b => a.from name = true → b.from name = true := h.strict.imp Export.from_mono
  rw [ExportModule.lowerBound, hread, ← h.sorted_length]
  exact bisect_findIdx hmono _ List.findIdx_le_length (Nat.le_refl _)

/-- elements below the boundary come before the name -/
theorem before_of_lt_findIdx {name : Name} {i : Nat} {e : Export} (hi : i < sorted.findIdx (Export.from name))
    (he : sorted[i]? = some e) : nameCmp e.name name = .lt := by
  obtain ⟨hlt, rfl⟩ := List.getElem?_eq_some_iff.1 he
  simpa [Export.from] using List.not_of_lt_findIdx hi

/-- elements from the boundary on do not -/
theorem from_of_findIdx_le (hsorted : sorted.Pairwise Export.Before) {name : Name} {i : Nat} {e : Export}
    (hi : sorted.findIdx (Export.from name) ≤ i) (he : sorted[i]? = some e) : e.from name = true := by
  obtain ⟨hlt, rfl⟩ := List.getElem?_eq_some_iff.1 he
  have hfound : sorted.findIdx (Export.from name) < sorted.length := hi.trans_lt hlt
  have hp : Export.from name sorted[sorted.findIdx (Export.from name)] = true := List.findIdx_getElem
  rcases Nat.lt_or_eq_of_le hi with hi | hi
  · exact Export.from_mono (List.pairwise_iff_getElem.1 hsorted _ _ hfound hlt hi) hp
  · simpa only [hi] using hp

/-- an export with the name can only be at the boundary -/
theorem at_findIdx (hsorted : sorted.Pairwise Export.Before) {name : Name} {e : Export} (he : e ∈ sorted)
    (hname : e.name = name) : sorted[sorted.findIdx (Export.from name)]? = some e := by
  obtain ⟨i, hi⟩ := List.getElem?_of_mem he
  have heq : nameCmp e.name name = .eq := nameCmp_eq.2 hname
  rcases Nat.lt_trichotomy i (sorted.findIdx (Export.from name)) with hlt | rfl | hgt
  · exact absurd (before_of_lt_findIdx hlt hi) (by rw [heq]; decide)
  · exact hi
  · -- the boundary is at the export or after it, as whatever comes before the export comes before the name
    obtain ⟨hlt, hget⟩ := List.getElem?_eq_some_iff.1 hi
    have hlt' : sorted.findIdx (Export.from name) < sorted.length := hgt.trans hlt
    have hbefore := List.pairwise_iff_getElem.1 hsorted _ _ hlt' hlt hgt
    rw [hget, Export.Before, hname] at hbefore
    have hp : Export.from name sorted[sorted.findIdx (Export.from name)] = true := List.findIdx_getElem
    rw [Export.from, hbefore] at hp
    exact absurd hp (by decide)

/-- a lookup gives the export with the name if there is one -/
theorem findByName_spec (h : OrderedBy m.exports m.exportOrder sorted) (name : Name) :
    ∃ found, m.findByName name = some found ∧ ∀ e, found = some e ↔ e ∈ m.exports ∧ e.name = name := by
  rw [ExportModule.findByName, lowerBound_eq h, Option.bind_some]
  by_cases hend : m.exports.length ≤ sorted.findIdx (Export.from name)
  · refine ⟨none, if_pos hend, fun e => iff_of_false nofun fun ⟨he, hname⟩ => ?_⟩
    have hat := at_findIdx h.strict ((h.mem_iff e).2 he) hname
    rw [List.getElem?_eq_none (h.sorted_length ▸ hend)] at hat
    cases hat
  · have hlt : sorted.findIdx (Export.from name) < sorted.length := h.sorted_length ▸ Nat.not_le.1 hend
    obtain ⟨x, hx⟩ : ∃ x, sorted[sorted.findIdx (Export.from name)]? = some x := ⟨_, List.getElem?_eq_getElem hlt⟩
    rw [if_neg hend, ExportModule.inOrder, h.read, hx]
    refine ⟨if nameCmp x.name name = .eq then some x else none, rfl, fun e => ?_⟩
    split_ifs with heq
    · constructor
      · rintro ⟨rfl⟩
        exact ⟨(h.mem_iff x).1 (List.mem_of_getElem? hx), nameCmp_eq.1 heq⟩
      · rintro ⟨he, hname⟩
        exact hx.symm.trans (at_findIdx h.strict ((h.mem_iff e).2 he) hname)
    · refine iff_of_false nofun fun ⟨he, hname⟩ => heq ?_
      have hxe := hx.symm.trans (at_findIdx h.strict ((h.mem_iff e).2 he) hname)
      rw [Option.some.inj hxe]
      exact nameCmp_eq.2 hname

/-- a new export goes to the boundary of its name -/
theorem OrderedBy.insert {exports : List Export} {order : List Nat} (h : OrderedBy exports order sorted) {e : Export}
    (hnew : ∀ x ∈ exports, x.name ≠ e.name) {pos : Nat} (hpos : pos = sorted.findIdx (Export.from e.name)) :
    OrderedBy (exports ++ [e]) (order.take pos ++ exports.length :: order.drop pos)
      (sorted.take pos ++ e :: sorted.drop pos) := by
  refine ⟨?_, ?_, ?_⟩
  · rw [List.length_append, List.length_singleton, List.range_succ]
    have hcons := (h.perm.cons exports.length).trans (List.perm_append_singleton _ _).symm
    rw [← List.take_append_drop pos order] at hcons
    exact List.perm_middle.trans hcons
  · have hold : order.map (fun i => (exports ++ [e])[i]?) = order.map fun i => exports[i]? :=
      List.map_congr_left fun i hi =>
        List.getElem?_append_left (List.mem_range.1 (h.perm.mem_iff.1 hi))
    have hlast : (exports ++ [e])[exports.length]? = some e := by simp
    rw [List.map_append, List.map_cons, List.map_take, List.map_drop, hold, h.at_order, hlast, List.map_append,
      List.map_cons, List.map_take, List.map_drop]
  · have hbefore : ∀ x ∈ sorted.take pos, x.Before e := fun x hx => by
      obtain ⟨i, hi, hx⟩ := List.mem_take_iff_getElem.1 hx
      exact before_of_lt_findIdx (i := i) (by omega) (List.getElem?_eq_some_iff.2 ⟨by omega, hx⟩)
    have hafter : ∀ x ∈ sorted.drop pos, e.Before x := fun x hx => by
      obtain ⟨i, hi⟩ := List.getElem?_of_mem hx
      rw [List.getElem?_drop] at hi
      have hfrom := from_of_findIdx_le h.strict (hpos.symm.le.trans (Nat.le_add_right pos i)) hi
      have hne := hnew x ((h.mem_iff x).1 (List.mem_of_getElem? hi))
      rw [Export.Before, ← nameCmp_gt]
      simp only [Export.from, bne_iff_ne, ne_eq] at hfrom
      cases hcmp : nameCmp x.name e.name with
      | lt => exact absurd hcmp hfrom
      | eq => exact absurd (nameCmp_eq.1 hcmp) hne
      | gt => rfl
    refine List.pairwise_append.2 ⟨h.strict.sublist (List.take_sublist _ _),
      List.pairwise_cons.2 ⟨hafter, h.strict.sublist (List.drop_sublist _ _)⟩, fun a ha b hb => ?_⟩
    rcases List.mem_cons.1 hb with rfl | hb
    · exact hbefore a ha
    · exact nameCmp_trans (hbefore a ha) (hafter b hb)

end Search

/-! ## Sorting -/

/-- not after, in the order of the names -/
def Export.notAfter (a b : Export) : Bool := nameCmp a.name b.name != .gt

theorem Export.notAfter_iff {a b : Export} : a.notAfter b = true ↔ a.Before b ∨ a.name = b.name := by
  rw [Export.notAfter, Export.Before, ← nameCmp_eq]
  cases nameCmp a.name b.name <;> decide

theorem Export.notAfter_trans {a b c : Export} (hab : a.notAfter b = true) (hbc : b.notAfter c = true) :
    a.notAfter c = true := by
  rw [Export.notAfter_iff] at *
  rcases hab with hab | hab
  · rcases hbc with hbc | hbc
    · exact .inl (nameCmp_trans hab hbc)
    · exact .inl (show nameCmp a.name c.name = .lt from hbc ▸ hab)
  · rcases hbc with hbc | hbc
    · exact .inl (show nameCmp a.name c.name = .lt from hab ▸ hbc)
    · exact .inr (hab.trans hbc)

theorem Export.notAfter_total (a b : Export) : (a.notAfter b || b.notAfter a) = true := by
  rw [Export.notAfter, Export.notAfter, nameCmp_swap a.name b.name]
  cases nameCmp a.name b.name <;> decide

instance : Trans Export.Before Export.Before Export.Before := ⟨nameCmp_trans⟩

/-- sorting and finding no equal neighbours gives a strict order -/
theorem sortExports_ordered {es : List Export}
    (hchain : (sortExports es).IsChain fun x y => nameCmp x.1.name y.1.name ≠ .eq) :
    OrderedBy es ((sortExports es).map Prod.snd) ((sortExports es).map Prod.fst) := by
  have hperm : (sortExports es).Perm es.zipIdx := List.mergeSort_perm _ _
  refine ⟨?_, ?_, ?_⟩
  · have := hperm.map Prod.snd
    rwa [List.zipIdx_map_snd, ← List.range_eq_range'] at this
  · rw [List.map_map, List.map_map]
    refine List.map_congr_left fun x hx => ?_
    obtain ⟨e, i⟩ := x
    exact List.mem_zipIdx_iff_getElem?.1 (hperm.mem_iff.1 hx)
  · have hsorted : (sortExports es).Pairwise fun x y => x.1.notAfter y.1 = true :=
      @List.pairwise_mergeSort _ (fun x y => x.1.notAfter y.1) (fun _ _ _ => Export.notAfter_trans)
        (fun a b => Export.notAfter_total a.1 b.1) es.zipIdx
    have hbefore : (sortExports es).IsChain fun x y => x.1.Before y.1 := by
      rw [List.isChain_iff_getElem] at hchain ⊢
      intro i hi
      have hle := List.pairwise_iff_getElem.1 hsorted i (i + 1) (by omega) hi (Nat.lt_succ_self i)
      rcases Export.notAfter_iff.1 hle with hlt | heq
      · exact hlt
      · exact absurd (nameCmp_eq.2 heq) (hchain i hi)
    exact ((List.isChain_map Prod.fst).2 hbefore).pairwise

/-! ## The invariant of a module -/

/-- there is room for what the arrays hold, and the order has room for as many exports as there are -/
structure CapsOk (m : ExportModule) : Prop where
  exports : m.exports.length ≤ m.caps.exports
  order : m.caps.exports ≤ m.caps.order
  exportsMax : m.caps.exports ≤ uint32Max
  functions : m.functions.length ≤ m.caps.functions
  functionsMax : m.caps.functions < uint32Max
  globals : m.globals.length ≤ m.caps.globals
  memories : m.memories.length ≤ m.caps.memories

structure IndexInv (m : ExportModule) : Prop where
  ordered : ∃ sorted, OrderedBy m.exports m.exportOrder sorted
  inSpace : ∀ e ∈ m.exports, e.index < m.space e.kind
  caps : CapsOk m

/-- the same module, but for how much room its arrays have -/
def SameContents (m m' : ExportModule) : Prop := ∃ caps, m' = { m with caps }

theorem SameContents.refl (m : ExportModule) : SameContents m m := ⟨m.caps, rfl⟩

theorem SameContents.trans {a b c : ExportModule} (h1 : SameContents a b) (h2 : SameContents b c) :
    SameContents a c := by
  obtain ⟨_, rfl⟩ := h1
  obtain ⟨_, rfl⟩ := h2
  exact ⟨_, rfl⟩

theorem IndexInv.withCaps {m : ExportModule} (h : IndexInv m) {caps : ExportCaps} (hcaps : CapsOk { m with caps }) :
    IndexInv { m with caps } := ⟨h.ordered, h.inSpace, hcaps⟩

/-! ## Steps that keep the contents -/

/-- a step that does not fault, keeps the contents, and leaves `Q` when the call goes on -/
def Prepares (m : ExportModule) (x : ExportStep) (Q : ExportModule → Prop) : Prop :=
  ∃ m' r, x = some (m', r) ∧ SameContents m m' ∧ IndexInv m' ∧ (r = .ok () → Q m')

section Steps

variable {m : ExportModule} {Q R : ExportModule → Prop}

theorem Prepares.andThen {x : ExportStep} {f : ExportModule → ExportStep} (hx : Prepares m x Q)
    (hf : ∀ m', IndexInv m' → Q m' → Prepares m' (f m') R) : Prepares m (x.andThen f) R := by
  obtain ⟨m1, r, rfl, hsame, hinv, hQ⟩ := hx
  cases r with
  | error e => exact ⟨m1, .error e, rfl, hsame, hinv, nofun⟩
  | ok u =>
    obtain ⟨m2, r, hx, hsame', hinv', hR⟩ := hf m1 hinv (hQ rfl)
    exact ⟨m2, r, hx, hsame.trans hsame', hinv', hR⟩

theorem exportEnsure_prepares {p : Prop} [Decidable p] {e : ExportError} (h : IndexInv m) (hQ : Q m) :
    Prepares m (exportEnsure p e m) Q := ⟨m, _, rfl, .refl m, h, fun _ => hQ⟩

/-- no export has the name, and there is room for one more -/
structure Ready (name : Name) (m : ExportModule) : Prop where
  fresh : ∀ e ∈ m.exports, e.name ≠ name
  room : m.exports.length < m.caps.exports

theorem growExports_prepares (room : ExportAlloc → Bool) {name : Name} (h : IndexInv m) {newCap : Nat}
    (hgrow : m.caps.exports < newCap) (hmax : newCap ≤ uint32Max) (hfresh : ∀ e ∈ m.exports, e.name ≠ name) :
    Prepares m (growExports room newCap m) (Ready name) := by
  have hcaps := h.caps
  unfold growExports
  by_cases horder : room .order = false
  · exact ⟨m, _, if_pos horder, .refl m, h, nofun⟩
  rw [if_neg horder]
  by_cases hexports : room .exports = false
  · rw [if_pos hexports]
    exact ⟨_, _, rfl, ⟨_, rfl⟩, h.withCaps { hcaps with order := hgrow.le }, nofun⟩
  · rw [if_neg hexports]
    refine ⟨_, _, rfl, ⟨_, rfl⟩, h.withCaps ?_, fun _ => ⟨hfresh, hcaps.exports.trans_lt hgrow⟩⟩
    exact { hcaps with exports := hcaps.exports.trans hgrow.le, order := Nat.le_refl _, exportsMax := hmax }

theorem ensureExport_prepares (room : ExportAlloc → Bool) (name : Name) (h : IndexInv m) :
    Prepares m (ensureExport room name m) (Ready name) := by
  obtain ⟨sorted, hordered⟩ := h.ordered
  obtain ⟨found, hfind, hfound⟩ := findByName_spec hordered name
  rw [ensureExport, hfind, Option.bind_some]
  cases found with
  | some e => exact ⟨m, _, rfl, .refl m, h, nofun⟩
  | none =>
    have hfresh : ∀ e ∈ m.exports, e.name ≠ name := fun e he hname => by
      have := (hfound e).2 ⟨he, hname⟩
      cases this
    have hcaps := h.caps
    rw [if_neg (by decide)]
    by_cases hfull : m.caps.exports ≤ m.exports.length
    · rw [if_pos hfull]
      by_cases hmax : uint32Max / 2 < m.caps.exports
      · exact ⟨m, _, if_pos hmax, .refl m, h, nofun⟩
      rw [if_neg hmax]
      have hgrown : m.caps.exports < (if m.caps.exports = 0 then 16 else m.caps.exports * 2) ∧
          (if m.caps.exports = 0 then 16 else m.caps.exports * 2) ≤ uint32Max := by
        have : uint32Max = 0xFFFFFFFF := rfl
        split_ifs <;> omega
      exact growExports_prepares room h hgrown.1 hgrown.2 hfresh
    · exact ⟨m, _, if_neg hfull, .refl m, h, fun _ => ⟨hfresh, Nat.not_le.1 hfull⟩⟩

theorem growCap_bounds {fuel cap needed cap' : Nat} (h : growCap fuel cap needed = some cap') :
    needed ≤ cap' ∧ cap ≤ cap' ∧ (cap < uint32Max → cap' < uint32Max) := by
  induction fuel generalizing cap with
  | zero => cases h
  | succ fuel ih =>
    rw [growCap] at h
    have : uint32Max = 0xFFFFFFFF := rfl
    split_ifs at h with hlt hmax
    · obtain ⟨h1, h2, h3⟩ := ih h
      exact ⟨h1, by omega, fun _ => h3 (by omega)⟩
    · obtain rfl := Option.some.inj h
      exact ⟨by omega, Nat.le_refl _, id⟩

theorem ensureCap_bounds {cap needed cap' : Nat} {room : Bool} (h : ensureCap cap needed room = .ok cap') :
    needed ≤ cap' ∧ cap ≤ cap' ∧ (cap < uint32Max → cap' < uint32Max) := by
  have hmax : uint32Max = 0xFFFFFFFF := rfl
  unfold ensureCap at h
  by_cases hle : needed ≤ cap
  · rw [if_pos hle] at h
    obtain rfl := Except.ok.inj h
    exact ⟨hle, Nat.le_refl _, id⟩
  by_cases hbig : uint32Max < needed
  · rw [if_neg hle, if_pos hbig] at h
    cases h
  rw [if_neg hle, if_neg hbig] at h
  cases hgrow : growCap 33 (if cap = 0 then 8 else cap) needed with
  | none => rw [hgrow] at h; cases h
  | some c =>
    rw [hgrow] at h
    cases room with
    | false => cases h
    | true =>
      obtain rfl : c = cap' := Except.ok.inj h
      obtain ⟨h1, h2, h3⟩ := growCap_bounds hgrow
      refine ⟨h1, ?_, fun hlt => h3 ?_⟩
      · split_ifs at h2 <;> omega
      · split_ifs <;> omega

variable {name : Name}

theorem growFunctions_prepares (room : ExportAlloc → Bool) (h : IndexInv m) (hready : Ready name m) :
    Prepares m (growFunctions room m) fun m => Ready name m ∧ m.functions.length < m.caps.functions := by
  unfold growFunctions
  cases hcap : ensureCap m.caps.functions ((m.functions.length + 1) % 2 ^ 32) (room .entities) with
  | error e => exact ⟨m, _, rfl, .refl m, h, nofun⟩
  | ok cap =>
    obtain ⟨hneed, hgrow, hmax⟩ := ensureCap_bounds hcap
    have hcaps := h.caps
    have hlen := hcaps.functions
    have hlt := hcaps.functionsMax
    -- the number of functions needed does not wrap
    have hwrap : (m.functions.length + 1) % 2 ^ 32 = m.functions.length + 1 := by
      have : uint32Max = 0xFFFFFFFF := rfl
      omega
    rw [hwrap] at hneed
    refine ⟨_, .ok (), rfl, ⟨_, rfl⟩, h.withCaps ?_, fun _ => ⟨⟨hready.fresh, hready.room⟩, hneed⟩⟩
    exact { hcaps with functions := hlen.trans hgrow, functionsMax := hmax hlt }

theorem growGlobals_prepares (room : ExportAlloc → Bool) (h : IndexInv m) (hready : Ready name m) :
    Prepares m (growGlobals room m) fun m => Ready name m ∧ m.globals.length < m.caps.globals := by
  unfold growGlobals
  cases hcap : ensureCap m.caps.globals (m.globals.length + 1) (room .entities) with
  | error e => exact ⟨m, _, rfl, .refl m, h, nofun⟩
  | ok cap =>
    obtain ⟨hneed, hgrow, -⟩ := ensureCap_bounds hcap
    refine ⟨_, .ok (), rfl, ⟨_, rfl⟩, h.withCaps ?_, fun _ => ⟨⟨hready.fresh, hready.room⟩, hneed⟩⟩
    exact { h.caps with globals := h.caps.globals.trans hgrow }

theorem growMemories_prepares (room : ExportAlloc → Bool) (h : IndexInv m) (hready : Ready name m) :
    Prepares m (growMemories room m) fun m => Ready name m ∧ m.memories.length < m.caps.memories := by
  unfold growMemories
  cases hcap : ensureCap m.caps.memories (m.memories.length + 1) (room .entities) with
  | error e => exact ⟨m, _, rfl, .refl m, h, nofun⟩
  | ok cap =>
    obtain ⟨hneed, hgrow, -⟩ := ensureCap_bounds hcap
    refine ⟨_, .ok (), rfl, ⟨_, rfl⟩, h.withCaps ?_, fun _ => ⟨⟨hready.fresh, hready.room⟩, hneed⟩⟩
    exact { h.caps with memories := h.caps.memories.trans hgrow }

end Steps

/-! ## Calls -/

def ExportCall.name : ExportCall → Name
  | .func name _ _ | .typedFunc name _ _ | .global name _ _ _ | .memory name _ _ => name.bytes

def ExportCall.kind : ExportCall → ExternKind
  | .func _ _ _ | .typedFunc _ _ _ => .func
  | .global _ _ _ _ => .global
  | .memory _ _ _ => .memory

/-- the export of a call that succeeds: the entity that comes next in its index space -/
def ExportCall.newExport (m : ExportModule) (c : ExportCall) : Export := ⟨c.name, c.kind, m.space c.kind % 2 ^ 32⟩

/-- the type that a call gives a function -/
def ExportCall.funcType (m : ExportModule) : ExportCall → Option FuncType
  | .func _ type _ => type.toOption
  | .typedFunc _ typeIdx _ => m.types[typeIdx]?.join
  | _ => none

def ExportCall.newFunctions (m : ExportModule) (c : ExportCall) : List FuncEntry :=
  match c with
  | .func name _ callback | .typedFunc name _ callback =>
    (c.funcType m).toList.map fun type => .host name.bytes (m.space .func % 2 ^ 32) type callback
  | _ => []

def ExportCall.newGlobals : ExportCall → List GlobalEntry
  | .global _ type mutable bits => [⟨type, mutable, some bits⟩]
  | _ => []

def ExportCall.newMemories : ExportCall → List MemoryEntry
  | .memory _ minPages maxPages => [⟨minPages, maxPages⟩]
  | _ => []

/-- a call that does not fault: it adds an export with its entity, or fails and keeps the contents -/
def AddsExport (m : ExportModule) (x : ExportStep) (fs : List FuncEntry) (gs : List GlobalEntry) (ms : List MemoryEntry)
    (e : Export) : Prop :=
  ∃ m' r, x = some (m', r) ∧ IndexInv m' ∧
    match r with
    | .error _ => SameContents m m'
    | .ok () => (∀ x ∈ m.exports, x.name ≠ e.name) ∧ ∃ caps exportOrder, m' = { m with
        functions := m.functions ++ fs
        globals := m.globals ++ gs
        memories := m.memories ++ ms
        exports := m.exports ++ [e]
        exportOrder
        caps }

section Adding

variable {m : ExportModule} {fs : List FuncEntry} {gs : List GlobalEntry} {ms : List MemoryEntry} {e : Export}

theorem Prepares.adds {x : ExportStep} {f : ExportModule → ExportStep} {Q : ExportModule → Prop} (hx : Prepares m x Q)
    (hf : ∀ caps, IndexInv { m with caps } → Q { m with caps } →
      AddsExport { m with caps } (f { m with caps }) fs gs ms e) :
    AddsExport m (x.andThen f) fs gs ms e := by
  obtain ⟨m1, r, rfl, ⟨caps, rfl⟩, hinv, hQ⟩ := hx
  cases r with
  | error err => exact ⟨_, .error err, rfl, hinv, caps, rfl⟩
  | ok u =>
    obtain ⟨m2, r, hrun, hinv2, hr⟩ := hf caps hinv (hQ rfl)
    refine ⟨m2, r, hrun, hinv2, ?_⟩
    cases r with
    | error err => exact SameContents.trans ⟨caps, rfl⟩ hr
    | ok u =>
      obtain ⟨hfresh, caps', order, rfl⟩ := hr
      exact ⟨hfresh, caps', order, rfl⟩

/-- the last step of each call -/
theorem appendExport_spec (h : IndexInv m) (hready : Ready e.name m) (hspace : e.index < m.space e.kind) :
    ∃ exportOrder, appendExport e m = some ({ m with exports := m.exports ++ [e], exportOrder }, .ok ()) ∧
      IndexInv { m with exports := m.exports ++ [e], exportOrder } := by
  obtain ⟨sorted, hordered⟩ := h.ordered
  have hcaps := h.caps
  have hroom := hready.room
  refine ⟨_, ?_, ⟨_, hordered.insert hready.fresh rfl⟩, ?_, ?_⟩
  · rw [appendExport, lowerBound_eq hordered, Option.bind_some, if_pos ⟨hroom, hroom.trans_le hcaps.order⟩]
  · intro x hx
    rcases List.mem_append.1 hx with hx | hx
    · exact h.inSpace x hx
    · obtain rfl := List.mem_singleton.1 hx
      exact hspace
  · exact { hcaps with exports := by rw [List.length_append]; exact hroom }

theorem space_le (m m' : ExportModule) (himports : m'.imports = m.imports) (hdefined : ∀ k, m.defined k ≤ m'.defined k)
    (k : ExternKind) : m.space k ≤ m'.space k := by
  rw [ExportModule.space, ExportModule.space, himports]
  exact Nat.add_le_add_left (hdefined k) _

/-- the module with some more entities -/
def ExportModule.extend (m : ExportModule) (fs : List FuncEntry) (gs : List GlobalEntry) (ms : List MemoryEntry) :
    ExportModule :=
  { m with functions := m.functions ++ fs, globals := m.globals ++ gs, memories := m.memories ++ ms }

theorem extend_functions (m : ExportModule) (fs : List FuncEntry) :
    m.extend fs [] [] = { m with functions := m.functions ++ fs } := by
  simp only [ExportModule.extend, List.append_nil]

theorem extend_globals (m : ExportModule) (gs : List GlobalEntry) :
    m.extend [] gs [] = { m with globals := m.globals ++ gs } := by
  simp only [ExportModule.extend, List.append_nil]

theorem extend_memories (m : ExportModule) (ms : List MemoryEntry) :
    m.extend [] [] ms = { m with memories := m.memories ++ ms } := by
  simp only [ExportModule.extend, List.append_nil]

/-- an entity is added and then its export -/
theorem appendExport_adds (h : IndexInv m) {name : Name} (kind : ExternKind) (hready : Ready name m)
    (fs : List FuncEntry) (gs : List GlobalEntry) (ms : List MemoryEntry)
    (hfs : m.functions.length + fs.length ≤ m.caps.functions) (hgs : m.globals.length + gs.length ≤ m.caps.globals)
    (hms : m.memories.length + ms.length ≤ m.caps.memories) (hgrow : m.space kind < (m.extend fs gs ms).space kind) :
    AddsExport m (appendExport ⟨name, kind, m.space kind % 2 ^ 32⟩ (m.extend fs gs ms)) fs gs ms
      ⟨name, kind, m.space kind % 2 ^ 32⟩ := by
  have hinv : IndexInv (m.extend fs gs ms) := by
    have hdefined : ∀ k, m.defined k ≤ (m.extend fs gs ms).defined k := fun k => by
      cases k <;> simp [ExportModule.defined, ExportModule.extend]
    refine ⟨h.ordered, fun x hx => (h.inSpace x hx).trans_le (space_le m (m.extend fs gs ms) rfl hdefined x.kind), ?_⟩
    exact { h.caps with
      functions := List.length_append ▸ hfs
      globals := List.length_append ▸ hgs
      memories := List.length_append ▸ hms }
  obtain ⟨order, happend, hinv'⟩ := appendExport_spec hinv (e := ⟨name, kind, m.space kind % 2 ^ 32⟩)
    ⟨hready.fresh, hready.room⟩ ((Nat.mod_le _ _).trans_lt hgrow)
  exact ⟨_, .ok (), happend, hinv', hready.fresh, m.caps, order, rfl⟩

theorem pushFunction_adds (h : IndexInv m) {name : Name} (hready : Ready name m)
    (hroom : m.functions.length < m.caps.functions) (f : FuncEntry) :
    AddsExport m ((pushFunction f m).andThen (appendExport ⟨name, .func, m.space .func % 2 ^ 32⟩)) [f] [] []
      ⟨name, .func, m.space .func % 2 ^ 32⟩ := by
  have hadds := appendExport_adds h .func hready [f] [] [] hroom h.caps.globals h.caps.memories
    (by simp [ExportModule.space, ExportModule.defined, ExportModule.extend])
  rw [extend_functions] at hadds
  rw [pushFunction, if_pos hroom]
  exact hadds

theorem pushGlobal_adds (h : IndexInv m) {name : Name} (hready : Ready name m)
    (hroom : m.globals.length < m.caps.globals) (g : GlobalEntry) :
    AddsExport m ((pushGlobal g m).andThen (appendExport ⟨name, .global, m.space .global % 2 ^ 32⟩)) [] [g] []
      ⟨name, .global, m.space .global % 2 ^ 32⟩ := by
  have hadds := appendExport_adds h .global hready [] [g] [] h.caps.functions hroom h.caps.memories
    (by simp [ExportModule.space, ExportModule.defined, ExportModule.extend])
  rw [extend_globals] at hadds
  rw [pushGlobal, if_pos hroom]
  exact hadds

theorem pushMemory_adds (h : IndexInv m) {name : Name} (hready : Ready name m)
    (hroom : m.memories.length < m.caps.memories) (x : MemoryEntry) :
    AddsExport m ((pushMemory x m).andThen (appendExport ⟨name, .memory, m.space .memory % 2 ^ 32⟩)) [] [] [x]
      ⟨name, .memory, m.space .memory % 2 ^ 32⟩ := by
  have hadds := appendExport_adds h .memory hready [] [] [x] h.caps.functions h.caps.globals hroom
    (by simp [ExportModule.space, ExportModule.defined, ExportModule.extend])
  rw [extend_memories] at hadds
  rw [pushMemory, if_pos hroom]
  exact hadds

theorem registerHostFunc_adds (room : ExportAlloc → Bool) (name : CName) (type : FuncType) (callback : Nat)
    (h : IndexInv m) :
    AddsExport m (registerHostFunc room name type callback m)
      [.host name.bytes (m.space .func % 2 ^ 32) type callback] [] [] ⟨name.bytes, .func, m.space .func % 2 ^ 32⟩ := by
  have hensure := ensureExport_prepares room name.bytes h
  have hgrow := hensure.andThen fun m' hinv hready => growFunctions_prepares room hinv hready
  have hname := hgrow.andThen fun m' hinv hQ =>
    exportEnsure_prepares (p := room .name = true) (e := .outOfMemory) hinv hQ
  have hparams := hname.andThen fun m' hinv hQ =>
    exportEnsure_prepares (p := type.params ≠ [] → room .params = true) (e := .outOfMemory) hinv hQ
  have hresults := hparams.andThen fun m' hinv hQ =>
    exportEnsure_prepares (p := type.results ≠ [] → room .results = true) (e := .outOfMemory) hinv hQ
  exact hresults.adds fun caps hinv hQ => pushFunction_adds hinv hQ.1 hQ.2 _

theorem exportGlobal_adds (room : ExportAlloc → Bool) (name : CName) (type : Ty) (mutable : Bool) (bits : Nat)
    (h : IndexInv m) :
    AddsExport m (exportGlobal room name type mutable bits m) [] [⟨type, mutable, some bits⟩] []
      ⟨name.bytes, .global, m.space .global % 2 ^ 32⟩ := by
  have hensure := ensureExport_prepares room name.bytes h
  have hgrow := hensure.andThen fun m' hinv hready => growGlobals_prepares room hinv hready
  have hname := hgrow.andThen fun m' hinv hQ =>
    exportEnsure_prepares (p := room .name = true) (e := .outOfMemory) hinv hQ
  have htype := hname.andThen fun m' hinv hQ =>
    exportEnsure_prepares (p := isConstType type = true) (e := .validationFailed) hinv hQ
  have hinit := htype.andThen fun m' hinv hQ =>
    exportEnsure_prepares (p := room .initExpr = true) (e := .outOfMemory) hinv hQ
  exact hinit.adds fun caps hinv hQ => pushGlobal_adds hinv hQ.1 hQ.2 _

theorem exportMemory_adds (room : ExportAlloc → Bool) (name : CName) (minPages maxPages : Nat) (h : IndexInv m) :
    AddsExport m (exportMemory room name minPages maxPages m) [] [] [⟨minPages, maxPages⟩]
      ⟨name.bytes, .memory, m.space .memory % 2 ^ 32⟩ := by
  have hbounds := exportEnsure_prepares (p := memoryBoundsOk minPages maxPages) (e := .misuse) (Q := fun _ => True) h
    trivial
  have hensure := hbounds.andThen fun m' hinv _ => ensureExport_prepares room name.bytes hinv
  have hgrow := hensure.andThen fun m' hinv hready => growMemories_prepares room hinv hready
  have hname := hgrow.andThen fun m' hinv hQ =>
    exportEnsure_prepares (p := room .name = true) (e := .outOfMemory) hinv hQ
  exact hname.adds fun caps hinv hQ => pushMemory_adds hinv hQ.1 hQ.2 _

/-- every call, with what it adds -/
theorem run_adds (room : ExportAlloc → Bool) (c : ExportCall) (h : IndexInv m) :
    AddsExport m (c.run room m) (c.newFunctions m) c.newGlobals c.newMemories (c.newExport m) := by
  cases c with
  | func name type callback =>
    cases type with
    | error e => exact ⟨m, .error e, rfl, h, .refl m⟩
    | ok type => exact registerHostFunc_adds room name type callback h
  | typedFunc name typeIdx callback =>
    simp only [ExportCall.run, ExportCall.newFunctions, ExportCall.funcType]
    cases htype : m.types[typeIdx]? with
    | none => exact ⟨m, .error .misuse, rfl, h, .refl m⟩
    | some type =>
      cases type with
      | none => exact ⟨m, .error .misuse, rfl, h, .refl m⟩
      | some type => exact registerHostFunc_adds room name type callback h
  | global name type mutable bits => exact exportGlobal_adds room name type mutable bits h
  | memory name minPages maxPages => exact exportMemory_adds room name minPages maxPages h

end Adding

/-! ## Modules with exports -/

/-- a module before its export section -/
structure Unexported (m : ExportModule) : Prop where
  exports : m.exports = []
  order : m.exportOrder = []
  noRoom : m.caps.exports = 0 ∧ m.caps.order = 0
  functions : m.functions.length ≤ m.caps.functions
  /-- a function takes a byte of its section, which has at most `UINT32_MAX` and starts with its count -/
  functionsMax : m.caps.functions < uint32Max
  globals : m.globals.length ≤ m.caps.globals
  memories : m.memories.length ≤ m.caps.memories

/-- `wah_new_module` -/
def newModule : ExportModule where
  types := []
  imports := fun _ => 0
  importMutable := fun _ => false
  functions := []
  globals := []
  memories := []
  tables := 0
  tags := 0
  exports := []
  exportOrder := []
  caps := ⟨16, 16, 16, 0, 0⟩

/-- modules that parsing and export calls make, whatever is allocated -/
inductive Exported : ExportModule → Prop where
  | new : Exported newModule
  | unexported {m : ExportModule} : Unexported m → Exported m
  | parsed {E : ExportEnv} {m m' : ExportModule} {ptr ptr' : Nat} : Unexported m →
      parseExportSection E m ptr = .ok (m', ptr') → Exported m'
  | call {m m' : ExportModule} {room : ExportAlloc → Bool} {c : ExportCall} {r : Except ExportError Unit} :
      Exported m → c.run room m = some (m', r) → Exported m'

theorem orderedBy_nil : OrderedBy [] [] [] := ⟨.nil, rfl, .nil⟩

theorem Unexported.inv {m : ExportModule} (h : Unexported m) : IndexInv m where
  ordered := ⟨[], by rw [h.exports, h.order]; exact orderedBy_nil⟩
  inSpace := by rw [h.exports]; nofun
  caps :=
    { exports := by rw [h.exports]; exact Nat.zero_le _
      order := by rw [h.noRoom.1]; exact Nat.zero_le _
      exportsMax := by rw [h.noRoom.1]; exact Nat.zero_le _
      functions := h.functions
      functionsMax := h.functionsMax
      globals := h.globals
      memories := h.memories }

theorem readExport_inSpace {E : ExportEnv} {m : ExportModule} {ptr ptr' : Nat} {e : Export}
    (h : readExport E m ptr = .ok (e, ptr')) : e.index < m.space e.kind := by
  obtain ⟨⟨name, p1⟩, -, h⟩ := readBind_ok h
  obtain ⟨b, -, h⟩ := readBind_ok h
  obtain ⟨⟨idx, p2⟩, -, h⟩ := readBind_ok h
  simp only at h
  cases hkind : exportKind b with
  | none => rw [hkind] at h; cases h
  | some kind =>
    rw [hkind] at h
    obtain ⟨_, hcheck, h⟩ := readBind_ok h
    obtain ⟨_, hlt, _⟩ := readBind_ok hcheck
    obtain ⟨rfl, -⟩ := Prod.mk.inj (Except.ok.inj h)
    exact (readEnsure_ok hlt).trans_le (Nat.mod_le _ _)

theorem readExports_inSpace {E : ExportEnv} {m : ExportModule} {left ptr ptr' : Nat} {es : List Export}
    (h : readExports E m left ptr = .ok (es, ptr')) : es.length = left ∧ ∀ e ∈ es, e.index < m.space e.kind := by
  induction left generalizing ptr ptr' es with
  | zero =>
    obtain ⟨rfl, -⟩ := Prod.mk.inj (Except.ok.inj h)
    exact ⟨rfl, nofun⟩
  | succ left ih =>
    obtain ⟨⟨e, p1⟩, he, h⟩ := readBind_ok h
    obtain ⟨⟨es', p2⟩, hes, h⟩ := readBind_ok h
    obtain ⟨rfl, -⟩ := Prod.mk.inj (Except.ok.inj h)
    obtain ⟨hlen, hall⟩ := ih hes
    exact ⟨congrArg (· + 1) hlen, fun x hx => (List.mem_cons.1 hx).elim (· ▸ readExport_inSpace he) (hall x)⟩

theorem parseExportSection_inv {E : ExportEnv} {m m' : ExportModule} {ptr ptr' : Nat} (hm : Unexported m)
    (h : parseExportSection E m ptr = .ok (m', ptr')) : IndexInv m' := by
  obtain ⟨⟨count, p1⟩, hcount, h⟩ := readBind_ok h
  obtain ⟨_, _, h⟩ := readBind_ok h
  obtain ⟨⟨es, p2⟩, hes, h⟩ := readBind_ok h
  obtain ⟨_, hchain, h⟩ := readBind_ok h
  obtain ⟨rfl, -⟩ := Prod.mk.inj (Except.ok.inj h)
  obtain ⟨rfl, hspace⟩ := readExports_inSpace hes
  have hlt := readCount_lt hcount
  refine ⟨⟨_, sortExports_ordered (readEnsure_ok hchain)⟩, hspace, ?_⟩
  exact
    { exports := Nat.le_refl _
      order := Nat.le_refl _
      exportsMax := Nat.le_of_lt_succ hlt
      functions := hm.functions
      functionsMax := hm.functionsMax
      globals := hm.globals
      memories := hm.memories }

/-- the invariant by induction on how a module was made -/
theorem Exported.inv {m : ExportModule} (h : Exported m) : IndexInv m := by
  induction h with
  | new => exact ⟨⟨[], orderedBy_nil⟩, nofun, by constructor <;> decide⟩
  | unexported hm => exact hm.inv
  | parsed hm hparse => exact parseExportSection_inv hm hparse
  | @call m m' room c r _ hrun ih =>
    obtain ⟨m1, r1, hrun1, hinv, -⟩ := run_adds room c ih
    have heq := hrun.symm.trans hrun1
    simp only [Option.some.injEq, Prod.mk.injEq] at heq
    exact heq.1 ▸ hinv

/-! ## Result -/

/-- what holds of the exports of a module and of their order -/
structure IndexConsistent (m : ExportModule) : Prop where
  perm : m.exportOrder.Perm (List.range m.exports.length)
  sorted : ∃ sorted : List Export,
    m.exportOrder.map (fun i => m.exports[i]?) = sorted.map some ∧ sorted.Pairwise Export.Before
  distinct : (m.exports.map Export.name).Nodup
  lookup : ∀ name, ∃ found, m.findByName name = some found ∧ ∀ e, found = some e ↔ e ∈ m.exports ∧ e.name = name
  inSpace : ∀ e ∈ m.exports, e.index < m.space e.kind

theorem IndexInv.consistent {m : ExportModule} (h : IndexInv m) : IndexConsistent m := by
  obtain ⟨sorted, hordered⟩ := h.ordered
  refine ⟨hordered.perm, ⟨sorted, hordered.at_order, hordered.strict⟩, ?_, findByName_spec hordered, h.inSpace⟩
  have hperm := (hordered.perm.map fun i => m.exports[i]?)
  rw [hordered.at_order, range_map_getElem?] at hperm
  have hnames := hperm.map (Option.map Export.name)
  rw [List.map_map, List.map_map] at hnames
  have hsorted : (sorted.map (Option.map Export.name ∘ some)).Nodup := by
    refine List.Pairwise.map _ (fun a b hab heq => ?_) hordered.strict
    have : nameCmp a.name b.name = .eq := nameCmp_eq.2 (Option.some.inj heq)
    exact absurd (this.symm.trans hab) (by decide)
  have hexports := hnames.nodup_iff.1 hsorted
  refine List.Nodup.of_map some ?_
  rwa [List.map_map]

/-- what a call does to a module: it adds its entities and its export and keeps what was there, or it keeps it all -/
def CallEffect (m : ExportModule) (c : ExportCall) (m' : ExportModule) : Except ExportError Unit → Prop
  | .ok () => (∀ e ∈ m.exports, e.name ≠ c.name) ∧ ∃ caps exportOrder, m' =
      { m.extend (c.newFunctions m) c.newGlobals c.newMemories with
        exports := m.exports ++ [c.newExport m], exportOrder, caps }
  | .error _ => SameContents m m'

/-- **The export index.** In every module that parsing and export calls make, however the allocator answers, the order
is a permutation of the positions that sorts the names strictly, names are distinct, a lookup finds exactly the export
with a name, and indices are inside their index spaces; and the next call, which touches no memory out of bounds, adds
one export after the others, or fails and leaves the contents as they were. -/
theorem export_index_exact {m : ExportModule} (h : Exported m) :
    IndexConsistent m ∧ ∀ (room : ExportAlloc → Bool) (c : ExportCall), ∃ m' r, c.run room m = some (m', r) ∧
      IndexConsistent m' ∧ CallEffect m c m' r := by
  refine ⟨h.inv.consistent, fun room c => ?_⟩
  obtain ⟨m', r, hrun, hinv, heffect⟩ := run_adds room c h.inv
  refine ⟨m', r, hrun, hinv.consistent, ?_⟩
  cases r with
  | error e => exact heffect
  | ok u =>
    obtain ⟨hfresh, caps, order, rfl⟩ := heffect
    exact ⟨hfresh, caps, order, rfl⟩

/-- a module that exports one memory -/
def memoryModule : ExportModule :=
  { newModule with
    memories := [⟨1, 2⟩], exports := [⟨[109#8], .memory, 0⟩], exportOrder := [0], caps := ⟨16, 16, 16, 0, 8⟩ }

theorem lowerBound_nil {m : ExportModule} (name : Name) (h : m.exports = []) : m.lowerBound name = some 0 := by
  rw [ExportModule.lowerBound, h]
  rfl

theorem memoryModule_made :
    (ExportCall.memory ⟨[109#8], by decide⟩ 1 2).run (fun _ => true) newModule = some (memoryModule, .ok ()) := by
  have hensure : ensureExport (fun _ => true) [109#8] newModule = some (newModule, .ok ()) := by
    rw [ensureExport, ExportModule.findByName, lowerBound_nil _ rfl]
    rfl
  calc (ExportCall.memory ⟨[109#8], by decide⟩ 1 2).run (fun _ => true) newModule
    _ = (((ensureExport (fun _ => true) [109#8] newModule).andThen (growMemories fun _ => true)).andThen
          (exportEnsure (true = true) .outOfMemory)).andThen fun m =>
            (pushMemory ⟨1, 2⟩ m).andThen
              (appendExport ⟨[109#8], .memory, (m.imports .memory + m.memories.length) % 2 ^ 32⟩) := rfl
    _ = appendExport ⟨[109#8], .memory, 0⟩
          { newModule with memories := [⟨1, 2⟩], caps := ⟨16, 16, 16, 0, 8⟩ } := by rw [hensure]; rfl
    _ = some (memoryModule, .ok ()) := by
      rw [appendExport, lowerBound_nil _ rfl]
      rfl

theorem memoryModule_exported : Exported memoryModule := .call .new memoryModule_made

/-- a second export of a name is refused, whatever its kind -/
theorem export_index_exact_memory : IndexConsistent memoryModule ∧
    ∃ m', (ExportCall.global ⟨[109#8], by decide⟩ .i32 true 7).run (fun _ => true) memoryModule =
      some (m', .error .validationFailed) ∧ SameContents memoryModule m' := by
  obtain ⟨hinv, hcalls⟩ := export_index_exact memoryModule_exported
  obtain ⟨m', r, hrun, -, heffect⟩ := hcalls (fun _ => true) (.global ⟨[109#8], by decide⟩ .i32 true 7)
  have hfound : memoryModule.findByName [109#8] = some (some ⟨[109#8], .memory, 0⟩) := by
    obtain ⟨found, hfind, hspec⟩ := hinv.lookup [109#8]
    rw [hfind, (hspec _).2 ⟨List.mem_singleton_self _, rfl⟩]
  have hensure : ensureExport (fun _ => true) [109#8] memoryModule = some (memoryModule, .error .validationFailed) := by
    rw [ensureExport, hfound]
    rfl
  have hfails : (ExportCall.global ⟨[109#8], by decide⟩ .i32 true 7).run (fun _ => true) memoryModule =
      some (memoryModule, .error .validationFailed) := by
    rw [ExportCall.run, exportGlobal, hensure]
    rfl
  obtain ⟨rfl, rfl⟩ := Prod.mk.inj (Option.some.inj (hrun.symm.trans hfails))
  exact ⟨hinv, _, hfails, heffect⟩

end Wah
