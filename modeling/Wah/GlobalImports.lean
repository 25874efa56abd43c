/-
Imports of globals: how they are resolved by names, and the slots of the array that all globals share.

Model:
- names are only compared, so they are numbers; a module is a number too, and instances of modules linked without
  contexts are identified by it. A context that the primary owns has its globals in the array of the primary, so its
  module is linked without a context here;
- contexts linked as such were instantiated before: their globals are at addresses `outside` the array, with their
  final values in `outer`.

Results: an import that resolves inside the array is a global that a linked module defines (`unitSource_provides`), and
the binary search finds the unit of every slot (`globalUnit_spec`, `place_slot`).
-/
import Mathlib.Data.List.Destutter
import Mathlib.Data.List.Sort
import Wah.ConstExpr
import Wah.Types

namespace Wah

/-! ## Modules and contexts -/

/-- a global with the number of an allocation of its expression -/
abbrev GName := Nat × Nat × Nat
abbrev GVal := CVal GName

/-- `&ctx->globals[slot]`, or a global of a context instantiated before -/
inductive GlobalPtr where
  | here (slot : Nat)
  | outside (addr : Nat)
deriving DecidableEq, Repr

/-- a slot of `ctx->globals`: mutable imports point to their globals -/
inductive GlobalCell where
  | val (v : GVal)
  | ptr (p : GlobalPtr)
deriving DecidableEq, Repr

/-- the slot as a value -/
def GlobalCell.toVal : GlobalCell → GVal
  | .val v => v
  | .ptr _ => .bits 0

/-- `wah_global_import_t` -/
structure GlobalImport where
  modName : Nat
  field : Nat
  type : Ty
  isMutable : Bool

/-- `wah_global_t` -/
structure GlobalDef where
  type : Ty
  isMutable : Bool
  init : List ConstInstr

/-- `wah_collect_global_deps`: sorted and distinct -/
def collectGlobalDeps (init : List ConstInstr) : List Nat :=
  ((globalReads init).insertionSort (· ≤ ·)).destutter (· ≠ ·)

/-- `wah_global_is_mutable` -/
def globalIsMutable (imports : List GlobalImport) (globals : List GlobalDef) (g : Nat) : Bool :=
  if g < imports.length then (imports[g]?.map GlobalImport.isMutable).getD false
  else (globals[g - imports.length]?.map GlobalDef.isMutable).getD false

/-- a module; its const expressions read immutable globals before their own, which validation has checked -/
structure GlobalModule where
  imports : List GlobalImport
  globals : List GlobalDef
  /-- fields and indices of the exported globals -/
  exports : List (Nat × Nat)
  fieldTypes : Nat → List StoreType
  hostFunctions : Bool
  constant : ∀ (i : Nat) d, globals[i]? = some d → ∀ g ∈ globalReads d.init,
    g < imports.length + i ∧ globalIsMutable imports globals g = false

/-- `wah_global_index_limit` -/
def GlobalModule.limit (M : GlobalModule) : Nat := M.imports.length + M.globals.length

/-- `wah_find_export` for globals -/
def GlobalModule.findExport (M : GlobalModule) (field : Nat) : Option Nat :=
  (M.exports.find? fun e => e.1 == field).map Prod.snd

/-- a linked module of an instantiated context; all of these have contexts -/
structure InstLinked where
  name : Nat
  ctx : Nat
  owned : Bool

/-- an instantiated context: where its globals are, and where the slots of its mutable imports point to -/
structure InstCtx where
  mod : Nat
  linked : List InstLinked
  slot : Nat → Nat
  ref : Nat → Nat

/-- the modules and contexts there are, and `wah_cross_module_subtype` between their types -/
structure LinkWorld where
  modules : Nat → GlobalModule
  ctxs : Nat → InstCtx
  outer : Nat → GVal
  subtype : Nat → Ty → Nat → Ty → Bool

/-- `wah_linked_module_t` -/
structure LinkedModule where
  name : Nat
  mod : Nat
  ctx : Option Nat
deriving DecidableEq

/-- what `wah_link_module` and `wah_link_context` build: distinct names, and modules that are distinct from the primary
and, unless all are linked as contexts, from each other -/
structure Linkage where
  primary : Nat
  linked : List LinkedModule
  names : (linked.map LinkedModule.name).Nodup
  notPrimary : ∀ e ∈ linked, e.mod ≠ primary
  distinct : linked.Pairwise fun e e' => e.mod = e'.mod → e.ctx.isSome ∧ e'.ctx.isSome

inductive LinkError where
  | duplicateName | misuse | linkFailed | outOfMemory | eval (e : ConstError) | fuel
deriving DecidableEq, Repr

namespace Linkage

/-- the check of `wah_check_linked_module` against one linked module -/
def clashes (W : LinkWorld) (e lm : LinkedModule) : Bool :=
  lm.mod == e.mod && (e.ctx.isNone || lm.ctx.isNone || lm.ctx == e.ctx && (W.modules e.mod).hostFunctions)

/-- `wah_link_module` or `wah_link_context` -/
def link (W : LinkWorld) (L : Linkage) (e : LinkedModule) : Except LinkError Linkage :=
  if hname : e.name ∈ L.linked.map LinkedModule.name then .error .duplicateName
  else if hmod : e.mod = L.primary then .error .misuse
  else if hclash : ∃ lm ∈ L.linked, clashes W e lm then .error .misuse
  else
    .ok { primary := L.primary
          linked := L.linked ++ [e]
          names := by
            rw [List.map_append, List.nodup_append]
            refine ⟨L.names, List.nodup_singleton _, fun a ha b hb => ?_⟩
            rintro rfl
            exact hname (List.mem_singleton.mp hb ▸ ha)
          notPrimary := by
            intro e' he'
            obtain he' | he' := List.mem_append.mp he'
            · exact L.notPrimary e' he'
            · exact List.mem_singleton.mp he' ▸ hmod
          distinct := by
            refine List.pairwise_append.mpr ⟨L.distinct, List.pairwise_singleton _ _, fun lm hlm e' he' hsame => ?_⟩
            obtain rfl := List.mem_singleton.mp he'
            by_contra hctx
            refine hclash ⟨lm, hlm, ?_⟩
            unfold clashes
            cases h : lm.ctx <;> cases h' : e'.ctx <;> simp_all }

/-- a sequence of calls -/
def linkAll (W : LinkWorld) (L : Linkage) (es : List LinkedModule) : Except LinkError Linkage := es.foldlM (link W) L

/-- before any call -/
def ofPrimary (m : Nat) : Linkage := ⟨m, [], List.nodup_nil, fun _ h => absurd h List.not_mem_nil, .nil⟩

/-! ## Resolving imports -/

section Resolve

variable (W : LinkWorld) (L : Linkage)

/-- `wah_find_linked_module` in the primary context or an instantiated one: a module, and its context if it has one -/
def findLinked (ns : Option Nat) (name : Nat) : Option (Nat × Option Nat) :=
  match ns with
  | none => (L.linked.find? fun e => e.name == name).map fun e => (e.mod, e.ctx)
  | some c => ((W.ctxs c).linked.find? fun e => e.name == name).map fun e => ((W.ctxs e.ctx).mod, some e.ctx)

/-- `wah_link_namespace` -/
def linkNamespace (ns ctx : Option Nat) : Option Nat :=
  match ctx, ns with
  | none, _ => ns
  | some c, none => some c
  | some c, some n =>
    if c = n ∨ (((W.ctxs n).linked.find? fun e => e.ctx == c).any InstLinked.owned) then some n else some c

/-- `wah_resolve_global_export`, with what is left of `WAH_REEXPORT_MAX_DEPTH`: the module, context and index where the
global `idx` of `mod` is defined -/
def resolveGlobalExport : Nat → Option Nat → Nat → Option Nat → Nat → Option (Nat × Option Nat × Nat)
  | 0, _, _, _, _ => none
  | depth + 1, ns, mod, ctx, idx =>
    match (W.modules mod).imports[idx]? with
    | none => if idx < (W.modules mod).limit then some (mod, ctx, idx) else none
    | some gi =>
      match L.findLinked W (linkNamespace W ns ctx) gi.modName with
      | none => none
      | some (next, nextCtx) =>
        match (W.modules next).findExport gi.field with
        | none => none
        | some e =>
          if e < (W.modules next).limit then
            resolveGlobalExport depth (linkNamespace W ns ctx) next nextCtx e
          else none

/-- `wah_validate_global_import_type` -/
def validateGlobalImportType (prov : Nat) (type : Ty) (isMutable : Bool) (importer : Nat) (gi : GlobalImport) : Bool :=
  W.subtype prov type importer gi.type && isMutable == gi.isMutable &&
    (!gi.isMutable || W.subtype importer gi.type prov type)

/-- where an import comes from: a global of a module linked without a context, or an address -/
inductive Source where
  | inside (mod idx : Nat)
  | outside (addr : Nat)
deriving DecidableEq

/-- the resolved global, if its type matches -/
def checkedSource (importer : Nat) (gi : GlobalImport) (mod : Nat) (ctx : Option Nat) (idx : Nat) : Option Source :=
  match (W.modules mod).globals[idx - (W.modules mod).imports.length]? with
  | none => none
  | some g =>
    if validateGlobalImportType W mod g.type g.isMutable importer gi then
      some (match ctx with
        | some c => .outside ((W.ctxs c).slot idx)
        | none => .inside mod idx)
    else none

/-- an import of a linked module in `wah_resolve_linked_global_imports` -/
def linkedSource (importer : Nat) (gi : GlobalImport) : Option Source :=
  match L.findLinked W none gi.modName with
  | none => none
  | some (prov, provCtx) =>
    match (W.modules prov).findExport gi.field with
    | none => none
    | some e =>
      if e < (W.modules prov).limit then
        match L.resolveGlobalExport W 64 none prov provCtx e with
        | none => none
        | some (mod, ctx, idx) => checkedSource W importer gi mod ctx idx
      else none

/-- an import of the primary in `wah_resolve_primary_global_imports` -/
def primarySource (gi : GlobalImport) : Option Source :=
  match L.findLinked W none gi.modName with
  | none => none
  | some (prov, provCtx) =>
    match (W.modules prov).findExport gi.field with
    | none => none
    | some e =>
      if e < (W.modules prov).limit then
        match (W.modules prov).imports[e]?, provCtx with
        | some reexport, some c =>
          -- the slots of an instantiated context are resolved already
          if validateGlobalImportType W prov reexport.type reexport.isMutable L.primary gi then
            some (.outside (if gi.isMutable then (W.ctxs c).ref e else (W.ctxs c).slot e))
          else none
        | some _, none =>
          match L.resolveGlobalExport W 64 none prov none e with
          | none => none
          | some (mod, ctx, idx) => checkedSource W L.primary gi mod ctx idx
        | none, _ => checkedSource W L.primary gi prov provCtx e
      else none

/-! ## Slots -/

/-- the primary and the linked modules, and whether they are instantiated already -/
def units : List (Nat × Bool) := (L.primary, false) :: L.linked.map fun e => (e.mod, e.ctx.isSome)

def limits : List Nat := L.units.map fun u => (W.modules u.1).limit

/-- the number of slots in `ctx->globals` -/
def total : Nat := (L.limits W).sum

/-- running sums -/
def offsetsFrom : Nat → List Nat → List Nat
  | _, [] => []
  | acc, n :: ns => acc :: offsetsFrom (acc + n) ns

/-- `unit_offsets` -/
def unitOffsets : List Nat := offsetsFrom 0 (L.limits W)

/-- the loop of `wah_global_unit`; `fuel` is at least `hi - lo` -/
def globalUnitLoop (offsets : List Nat) (slot : Nat) : Nat → Nat → Nat → Nat
  | 0, lo, _ => lo
  | fuel + 1, lo, hi =>
    if 1 < hi - lo then
      let mid := lo + (hi - lo) / 2
      if offsets.getD mid 0 ≤ slot then globalUnitLoop offsets slot fuel mid hi
      else globalUnitLoop offsets slot fuel lo mid
    else lo

/-- `wah_global_unit` -/
def globalUnit (slot : Nat) : Nat := globalUnitLoop (L.unitOffsets W) slot L.units.length 0 L.units.length

/-- `wah_linked_globals_offset` -/
def linkedGlobalsOffset (target : Nat) : Nat := go L.linked (W.modules L.primary).limit
where
  go : List LinkedModule → Nat → Nat
  | [], offset => offset
  | e :: es, offset => if e.mod = target ∧ e.ctx = none then offset else go es (offset + (W.modules e.mod).limit)

def Source.ptr : Source → GlobalPtr
  | .inside mod idx => .here (L.linkedGlobalsOffset W mod + idx)
  | .outside addr => .outside addr

/-- the unit of a slot and its position there -/
structure Place where
  unit : Nat
  offset : Nat
  mod : Nat
  instantiated : Bool
  idx : Nat
deriving DecidableEq

def place (slot : Nat) : Place :=
  let u := L.globalUnit W slot
  let offset := (L.unitOffsets W).getD u 0
  let unit := L.units.getD u (L.primary, false)
  ⟨u, offset, unit.1, unit.2, slot - offset⟩

/-- where the import of a unit comes from -/
def unitSource (unit mod : Nat) (gi : GlobalImport) : Option Source :=
  if unit = 0 then L.primarySource W gi else L.linkedSource W mod gi

/-- what `wah_bind_global_import_slot` keeps for a slot: `import_srcs` of an immutable import, or the slot of a mutable
one -/
def importSrc (slot : Nat) : Option GlobalPtr :=
  let p := L.place W slot
  if p.instantiated then none
  else
    match (W.modules p.mod).imports[p.idx]? with
    | none => none
    | some gi => (L.unitSource W p.unit p.mod gi).map (Source.ptr W L)

/-- all imports of the primary and of the modules without contexts resolve -/
def Resolves : Prop :=
  ∀ u ∈ L.units.zipIdx, u.1.2 = false → ∀ gi ∈ (W.modules u.1.1).imports, (L.unitSource W u.2 u.1.1 gi).isSome

instance : Decidable (L.Resolves W) := inferInstanceAs (Decidable (∀ _ ∈ _, _))

end Resolve

/-! ## Offsets -/

section Offsets

theorem offsetsFrom_getD {u : Nat} (acc : Nat) (ns : List Nat) (hu : u < ns.length) :
    (offsetsFrom acc ns).getD u 0 = acc + (ns.take u).sum := by
  induction ns generalizing acc u with
  | nil => exact absurd hu (Nat.not_lt_zero u)
  | cons n ns ih =>
    cases u with
    | zero => rfl
    | succ u =>
      rw [offsetsFrom, List.getD_cons_succ, ih _ (Nat.lt_of_succ_lt_succ hu), List.take_succ_cons, List.sum_cons,
        Nat.add_assoc]

theorem sum_take_succ {ns : List Nat} {u n : Nat} (hu : ns[u]? = some n) :
    (ns.take (u + 1)).sum = (ns.take u).sum + n := by
  rw [List.take_add_one, hu, Option.toList_some, List.sum_append, List.sum_singleton]

theorem sum_take_mono {u u' : Nat} (ns : List Nat) (h : u ≤ u') : (ns.take u).sum ≤ (ns.take u').sum := by
  obtain ⟨k, rfl⟩ := Nat.exists_eq_add_of_le h
  rw [List.take_add, List.sum_append]
  exact Nat.le_add_right _ _

/-- the unit that has the slot; empty units have none -/
def InUnit (ns : List Nat) (slot u : Nat) : Prop :=
  u < ns.length ∧ (ns.take u).sum ≤ slot ∧ slot < (ns.take (u + 1)).sum

theorem InUnit.unique {ns : List Nat} {slot u u' : Nat} (h : InUnit ns slot u) (h' : InUnit ns slot u') : u = u' := by
  have hle : ∀ {u u'}, InUnit ns slot u → InUnit ns slot u' → u ≤ u' := by
    intro u u' h h'
    by_contra hlt
    refine absurd h'.2.2 (Nat.not_lt.mpr ?_)
    calc (ns.take (u' + 1)).sum ≤ (ns.take u).sum := sum_take_mono ns (Nat.lt_of_not_le hlt)
      _ ≤ slot := h.2.1
  exact Nat.le_antisymm (hle h h') (hle h' h)

/-- the loop keeps `lo` at or below the slot and `hi` above it -/
theorem globalUnitLoop_spec {ns : List Nat} {slot fuel lo hi : Nat} (hlo : (ns.take lo).sum ≤ slot)
    (hhi : slot < (ns.take hi).sum) (hlt : lo < hi) (hle : hi ≤ ns.length) (hfuel : hi - lo ≤ fuel) :
    InUnit ns slot (globalUnitLoop (offsetsFrom 0 ns) slot fuel lo hi) := by
  induction fuel generalizing lo hi with
  | zero => omega
  | succ fuel ih =>
    unfold globalUnitLoop
    split_ifs with hgap
    · dsimp only
      rw [offsetsFrom_getD 0 ns (by omega), Nat.zero_add]
      split_ifs with hmid
      · exact ih hmid hhi (by omega) hle (by omega)
      · exact ih hlo (Nat.lt_of_not_le hmid) (by omega) (by omega) (by omega)
    · have heq : hi = lo + 1 := by omega
      exact ⟨by omega, hlo, heq ▸ hhi⟩

variable (W : LinkWorld) (L : Linkage)

theorem length_limits : (L.limits W).length = L.units.length := List.length_map _

/-- **The binary search** finds the unit of every slot. -/
theorem globalUnit_spec {slot : Nat} (h : slot < L.total W) : InUnit (L.limits W) slot (L.globalUnit W slot) := by
  have hpos : 0 < L.units.length := Nat.succ_pos _
  refine globalUnitLoop_spec (Nat.zero_le slot) ?_ hpos (Nat.le_of_eq (L.length_limits W).symm) (Nat.le_refl _)
  rw [← L.length_limits W, List.take_length]
  exact h

theorem InUnit.lt_total {slot u : Nat} (h : InUnit (L.limits W) slot u) : slot < L.total W := by
  calc slot < ((L.limits W).take (u + 1)).sum := h.2.2
    _ ≤ ((L.limits W).take (L.limits W).length).sum := sum_take_mono _ h.1
    _ = L.total W := by rw [List.take_length, total]

theorem globalUnit_eq {slot u : Nat} (h : InUnit (L.limits W) slot u) : L.globalUnit W slot = u :=
  (L.globalUnit_spec W (h.lt_total W L)).unique h

end Offsets

/-! ## Sources are globals -/

section Sources

variable {W : LinkWorld} {L : Linkage}

/-- a module linked without a context -/
def IsLinked (L : Linkage) (m : Nat) : Prop := ∃ e ∈ L.linked, e.mod = m ∧ e.ctx = none

theorem findLinked_none {ns : Option Nat} {name m : Nat} (h : L.findLinked W ns name = some (m, none)) :
    ns = none ∧ L.IsLinked m := by
  unfold findLinked at h
  cases ns with
  | none =>
    obtain ⟨e, he, heq⟩ := Option.map_eq_some_iff.mp h
    obtain ⟨rfl, hctx⟩ := Prod.mk.inj heq
    exact ⟨rfl, e, List.mem_of_find?_eq_some he, rfl, hctx⟩
  | some c =>
    obtain ⟨e, -, heq⟩ := Option.map_eq_some_iff.mp h
    cases heq

/-- a global `idx` that the module defines -/
def Defines (W : LinkWorld) (m idx : Nat) : Prop :=
  (W.modules m).imports.length ≤ idx ∧ idx < (W.modules m).limit

/-- a chain of re-exports ends at a defined global, of a linked module when no context was met -/
theorem resolveGlobalExport_spec {depth : Nat} {ns ctx ctx' : Option Nat} {m m' idx idx' : Nat}
    (hctx : ctx = none → L.IsLinked m) (h : L.resolveGlobalExport W depth ns m ctx idx = some (m', ctx', idx')) :
    Defines W m' idx' ∧ (ctx' = none → L.IsLinked m') := by
  induction depth generalizing ns m ctx idx with
  | zero => cases h
  | succ depth ih =>
    unfold resolveGlobalExport at h
    split at h
    · rename_i hnone
      split_ifs at h with hlt
      obtain ⟨rfl, rfl, rfl⟩ := by simpa using h
      exact ⟨⟨List.getElem?_eq_none_iff.mp hnone, hlt⟩, hctx⟩
    · split at h
      · cases h
      · rename_i next nextCtx hfind
        split at h
        · cases h
        · split_ifs at h
          exact ih (fun hnone => (findLinked_none (hnone ▸ hfind)).2) h

theorem checkedSource_inside {importer m i mod idx : Nat} {gi : GlobalImport} {ctx : Option Nat}
    (h : checkedSource W importer gi mod ctx idx = some (.inside m i)) :
    m = mod ∧ i = idx ∧ ctx = none ∧ ∃ g, (W.modules mod).globals[idx - (W.modules mod).imports.length]? = some g ∧
      g.isMutable = gi.isMutable := by
  unfold checkedSource at h
  split at h
  · cases h
  · rename_i g hg
    split_ifs at h with hval
    cases ctx with
    | some c => cases h
    | none =>
      obtain ⟨rfl, rfl⟩ := by simpa using h
      refine ⟨rfl, rfl, rfl, g, hg, ?_⟩
      unfold validateGlobalImportType at hval
      simp only [Bool.and_eq_true, beq_iff_eq] at hval
      exact hval.1.2

/-- a source inside the array is a global defined by a linked module, mutable iff the import is -/
structure Provides (W : LinkWorld) (L : Linkage) (gi : GlobalImport) (m i : Nat) : Prop where
  linked : L.IsLinked m
  defines : Defines W m i
  isMutable : globalIsMutable (W.modules m).imports (W.modules m).globals i = gi.isMutable

theorem checkedSource_provides {importer m i mod idx : Nat} {gi : GlobalImport} {ctx : Option Nat}
    (hctx : ctx = none → L.IsLinked mod) (hdef : Defines W mod idx)
    (h : checkedSource W importer gi mod ctx idx = some (.inside m i)) : Provides W L gi m i := by
  obtain ⟨rfl, rfl, hnone, g, hg, hmut⟩ := checkedSource_inside h
  refine ⟨hctx hnone, hdef, ?_⟩
  unfold globalIsMutable
  rw [if_neg (Nat.not_lt.mpr hdef.1), hg]
  exact hmut

theorem unitSource_provides {unit mod m i : Nat} {gi : GlobalImport}
    (h : L.unitSource W unit mod gi = some (.inside m i)) : Provides W L gi m i := by
  unfold unitSource at h
  split_ifs at h
  · unfold primarySource at h
    split at h
    · cases h
    · rename_i prov provCtx hfind
      split at h
      · cases h
      · rename_i e he
        by_cases hlt : e < (W.modules prov).limit
        case neg => rw [if_neg hlt] at h; cases h
        rw [if_pos hlt] at h
        split at h
        · split at h <;> cases h
        · split at h
          · cases h
          · rename_i hres
            obtain ⟨hdef, hctx⟩ := resolveGlobalExport_spec (fun _ => (findLinked_none hfind).2) hres
            exact checkedSource_provides hctx hdef h
        · rename_i hnone
          refine checkedSource_provides (fun hctx => (findLinked_none (hctx ▸ hfind)).2) ?_ h
          exact ⟨List.getElem?_eq_none_iff.mp hnone, hlt⟩
  · unfold linkedSource at h
    split at h
    · cases h
    · rename_i prov provCtx hfind
      split at h
      · cases h
      · split_ifs at h
        split at h
        · cases h
        · rename_i hres
          obtain ⟨hdef, hctx⟩ := resolveGlobalExport_spec (fun hctx => (findLinked_none (hctx ▸ hfind)).2) hres
          exact checkedSource_provides hctx hdef h

/-! ## Globals and slots -/

/-- a global of the primary or of a module linked without a context -/
def Has (W : LinkWorld) (L : Linkage) (x : Nat × Nat) : Prop :=
  (x.1 = L.primary ∨ L.IsLinked x.1) ∧ x.2 < (W.modules x.1).limit

/-- where the globals of the module begin -/
def modOffset (W : LinkWorld) (L : Linkage) (m : Nat) : Nat :=
  if m = L.primary then 0 else L.linkedGlobalsOffset W m

/-- the slot of a global -/
def slot (W : LinkWorld) (L : Linkage) (x : Nat × Nat) : Nat := L.modOffset W x.1 + x.2

/-- the first entry with the module is its only one when it has no context -/
theorem go_offset {linked : List LinkedModule} {e : LinkedModule} {j : Nat} (offset : Nat)
    (hdistinct : linked.Pairwise fun e e' => e.mod = e'.mod → e.ctx.isSome ∧ e'.ctx.isSome) (hj : linked[j]? = some e)
    (hctx : e.ctx = none) :
    linkedGlobalsOffset.go W e.mod linked offset =
      offset + ((linked.map fun e => (W.modules e.mod).limit).take j).sum := by
  induction linked generalizing j offset with
  | nil => cases hj
  | cons lm linked ih =>
    obtain ⟨hfirst, hdistinct⟩ := List.pairwise_cons.mp hdistinct
    cases j with
    | zero =>
      obtain rfl := Option.some.inj hj
      simp [linkedGlobalsOffset.go, hctx]
    | succ j =>
      have hne : ¬(lm.mod = e.mod ∧ lm.ctx = none) := by
        rintro ⟨hmod, hnone⟩
        have hsome := (hfirst e (List.mem_of_getElem? hj) hmod).1
        rw [hnone] at hsome
        cases hsome
      rw [linkedGlobalsOffset.go, if_neg hne, ih _ hdistinct hj]
      simp [Nat.add_assoc]

/-- the globals of a unit begin where those of its module do -/
theorem unit_offset {u m : Nat} (hu : L.units[u]? = some (m, false)) :
    ((L.limits W).take u).sum = L.modOffset W m ∧ (u = 0 ↔ m = L.primary) := by
  unfold modOffset
  cases u with
  | zero =>
    obtain ⟨rfl, -⟩ := Prod.mk.inj (Option.some.inj hu)
    rw [if_pos rfl]
    exact ⟨rfl, iff_of_true rfl rfl⟩
  | succ j =>
    rw [units, List.getElem?_cons_succ, List.getElem?_map] at hu
    obtain ⟨e, hj, heq⟩ := Option.map_eq_some_iff.mp hu
    obtain ⟨rfl, hctx⟩ := Prod.mk.inj heq
    have hprim := L.notPrimary e (List.mem_of_getElem? hj)
    refine ⟨?_, iff_of_false (Nat.succ_ne_zero j) hprim⟩
    rw [if_neg hprim, linkedGlobalsOffset, go_offset _ L.distinct hj (by simpa using hctx)]
    simp [limits, units, Function.comp_def]

theorem exists_unit {x : Nat × Nat} (hx : L.Has W x) : ∃ u : Nat, L.units[u]? = some (x.1, false) := by
  obtain hprim | ⟨e, he, hmod, hctx⟩ := hx.1
  · exact ⟨0, by rw [hprim]; rfl⟩
  · obtain ⟨j, hj⟩ := List.getElem?_of_mem he
    exact ⟨j + 1, by simp [units, hj, hmod, hctx]⟩

theorem inUnit_slot {x : Nat × Nat} {u : Nat} (hx : L.Has W x) (hu : L.units[u]? = some (x.1, false)) :
    InUnit (L.limits W) (L.slot W x) u := by
  have hlim : (L.limits W)[u]? = some (W.modules x.1).limit := by simp [limits, hu]
  refine ⟨(List.getElem?_eq_some_iff.mp hlim).1, ?_, ?_⟩
  · rw [(unit_offset hu).1]
    exact Nat.le_add_right _ _
  · rw [sum_take_succ hlim, (unit_offset hu).1]
    exact Nat.add_lt_add_left hx.2 _

theorem slot_lt_total {x : Nat × Nat} (hx : L.Has W x) : L.slot W x < L.total W := by
  obtain ⟨u, hu⟩ := exists_unit hx
  exact (inUnit_slot hx hu).lt_total W L

/-- the place of a slot in its unit -/
theorem place_eq {s u : Nat} {unit : Nat × Bool} (hin : InUnit (L.limits W) s u) (hu : L.units[u]? = some unit) :
    L.place W s = ⟨u, ((L.limits W).take u).sum, unit.1, unit.2, s - ((L.limits W).take u).sum⟩ := by
  unfold place
  dsimp only
  rw [L.globalUnit_eq W hin, unitOffsets, offsetsFrom_getD 0 _ hin.1, Nat.zero_add, List.getD_eq_getElem?_getD, hu]
  rfl

/-- the search for the slot of a global finds it -/
theorem place_slot {x : Nat × Nat} (hx : L.Has W x) :
    ∃ u, (u = 0 ↔ x.1 = L.primary) ∧ L.place W (L.slot W x) = ⟨u, L.modOffset W x.1, x.1, false, x.2⟩ := by
  obtain ⟨u, hu⟩ := exists_unit hx
  obtain ⟨hsum, hzero⟩ := unit_offset (W := W) hu
  refine ⟨u, hzero, ?_⟩
  rw [place_eq (inUnit_slot hx hu) hu, hsum]
  simp [slot]

/-- every slot is a global's, or one of an instantiated context that is not used -/
theorem slot_cases {s : Nat} (hs : s < L.total W) :
    (L.place W s).instantiated = true ∨ ∃ x, L.Has W x ∧ s = L.slot W x := by
  have hin := L.globalUnit_spec W hs
  obtain ⟨unit, hu⟩ : ∃ unit, L.units[L.globalUnit W s]? = some unit :=
    ⟨_, List.getElem?_eq_getElem (L.length_limits W ▸ hin.1)⟩
  rw [place_eq hin hu]
  obtain ⟨m, inst⟩ := unit
  cases inst with
  | true => exact .inl rfl
  | false =>
    right
    obtain ⟨-, hle, hgt⟩ := hin
    have hlim : (L.limits W)[L.globalUnit W s]? = some (W.modules m).limit := by simp [limits, hu]
    rw [sum_take_succ hlim] at hgt
    have hmod : m = L.primary ∨ L.IsLinked m := by
      obtain hmem | hmem := List.mem_cons.mp (List.mem_of_getElem? hu)
      · exact .inl (congrArg Prod.fst hmem)
      · obtain ⟨e, he, heq⟩ := List.mem_map.mp hmem
        obtain ⟨rfl, hctx⟩ := Prod.mk.inj heq
        exact .inr ⟨e, he, rfl, by simpa using hctx⟩
    refine ⟨(m, s - ((L.limits W).take (L.globalUnit W s)).sum), ⟨hmod, by dsimp only; omega⟩, ?_⟩
    rw [slot, ← (unit_offset hu).1]
    dsimp only
    omega

/-- an import bound inside the array points to the slot of a global -/
theorem importSrc_here {s d : Nat} (h : L.importSrc W s = some (.here d)) :
    ∃ y, L.Has W y ∧ Defines W y.1 y.2 ∧ d = L.slot W y := by
  unfold importSrc at h
  dsimp only at h
  split_ifs at h
  split at h
  · cases h
  · obtain ⟨src, hsrc, hptr⟩ := Option.map_eq_some_iff.mp h
    cases src with
    | outside addr => cases hptr
    | inside m i =>
      obtain ⟨hlinked, hdef, -⟩ := unitSource_provides hsrc
      have hprim : m ≠ L.primary := by
        obtain ⟨e, he, rfl, -⟩ := hlinked
        exact L.notPrimary e he
      refine ⟨(m, i), ⟨.inr hlinked, hdef.2⟩, hdef, ?_⟩
      rw [slot, modOffset, if_neg hprim]
      exact (GlobalPtr.here.inj hptr).symm

end Sources

end Linkage

end Wah
