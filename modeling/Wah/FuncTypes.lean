/-
Function types across modules: the subtype decision, its cache, and the deciders that use them.

Model:
- modules are identities with their types (`LinkModule`), rec groups and canonical map; `crossModuleSubtype` is the
  decision of the source, with the memo of equal groups and the recursion limit of the equality check. The recursion of
  that check is written over any memo of equal groups (`GroupMemo`); here the memo is a list (`listMemo`);
- a context has a module and a cache; contexts of linked modules share the cache of the context that owns them. The
  slot of a query is computed from the addresses of the modules;
- the deciders are the type check of `call_indirect` and `call_ref` with their tail-call forms, the cast test of
  `ref.test`, `ref.cast`, `br_on_cast` and `br_on_cast_fail`, and the check of a function import.

Results, after any sequence of checks in any contexts:
- `function_checks_agree`: on every function and function type all deciders answer alike, which for a wasm function is
  the subtype decision on its defining type, and a cached query answers as the uncached decision does.
-/
import Wah.Heap
import Wah.DirectMapped

namespace Wah

/-! ## Modules as the type checks see them -/

/-- what the checks read of `wah_module_t` besides the validator's part, indexed as the arrays of the source -/
structure LinkModule extends Module where
  isFinal : List Bool := []
  /-- `rec_group_start` and `rec_group_size` of every type -/
  recGroups : List (Nat × Nat) := []
  /-- `function_type_indices`, for the wasm functions the module defines -/
  functionTypeIndices : List Nat := []
  /-- `type` and `typeidx` of every entry of `repr_infos` -/
  reprs : List (ReprType × Nat) := []

namespace LinkModule
variable (M : LinkModule)

def typeCount : Nat := M.typeDefs.length

def typeDef (n : Nat) : TypeDef := (M.typeDefs[n]?).getD { kind := .func }

def final (n : Nat) : Bool := (M.isFinal[n]?).getD false

def recGroup (n : Nat) : Nat × Nat := (M.recGroups[n]?).getD (n, 1)

end LinkModule

/-- `WAH_TYPE_FROM_IDX(n, 0)` -/
def Ty.ofIdx (n : Nat) : Ty := .ref false (.idx n)

/-! ## Equality of types across modules -/

/-- what the equality check is about: two modules, and whether they are the same one -/
structure ModulePair where
  a : LinkModule
  b : LinkModule
  same : Bool

/-- the rec group, given as start and size, contains the index -/
def inGroup (g : Nat × Nat) (u : Nat) : Prop := g.1 ≤ u ∧ u < g.1 + g.2

instance (g : Nat × Nat) (u : Nat) : Decidable (inGroup g u) := inferInstanceAs (Decidable (_ ∧ _))

/-- the fields of a definition, each by its type and its mutability -/
def TypeDef.fields (d : TypeDef) : List (Ty × Bool) := d.fieldTypes.zip d.fieldMutables

/-- fields have one mutability each -/
def TypeDef.Paired (d : TypeDef) : Prop := d.fieldMutables.length = d.fieldTypes.length

instance (d : TypeDef) : Decidable d.Paired := inferInstanceAs (Decidable (_ = _))

/-- `WAH_MAX_TYPE_RECURSION_DEPTH` -/
def maxTypeRecursionDepth : Nat := 256

/-- a memo of equal groups: whether a pair of groups is recorded, and recording it, which may fail -/
structure GroupMemo (σ : Type) where
  has : Nat × Nat → σ → Bool
  add : Nat × Nat → σ → Bool × σ

/-- a check that may record equal groups -/
abbrev MemoCheck (σ : Type) := σ → Bool × σ

section
variable {σ : Type}

/-- a check that reads no types -/
def plainCheck (b : Bool) : MemoCheck σ := fun s => (b, s)

/-- checks in order, up to the first that fails -/
def allChecks : List (MemoCheck σ) → MemoCheck σ
  | [], s => (true, s)
  | c :: rest, s =>
    match c s with
    | (true, s') => allChecks rest s'
    | (false, s') => (false, s')

variable (refEq : Ty → Ty → MemoCheck σ)

def supertypeCheck : Option Nat → Option Nat → MemoCheck σ
  | none, none => plainCheck true
  | some a, some b => refEq (.ofIdx a) (.ofIdx b)
  | _, _ => plainCheck false

/-- the fields of two definitions, each by its type and then by its mutability -/
def fieldChecks (fa fb : List (Ty × Bool)) : List (MemoCheck σ) :=
  (fa.zip fb).flatMap fun f => [refEq f.1.1 f.2.1, plainCheck (decide (f.1.2 = f.2.2))]

/-- the checks of `wah_cross_module_type_eq_in_recgroup`, in order -/
def typeChecks (da db : TypeDef) (fa fb : Bool) : List (MemoCheck σ) :=
  plainCheck (decide (da.kind = db.kind)) :: plainCheck (decide (fa = fb)) ::
    supertypeCheck refEq da.supertype db.supertype ::
    if da.kind = .func then
      plainCheck (decide (da.func.params.length = db.func.params.length) &&
        decide (da.func.results.length = db.func.results.length)) ::
        (List.zipWith refEq da.func.params db.func.params ++ List.zipWith refEq da.func.results db.func.results)
    else
      plainCheck (decide (da.fieldTypes.length = db.fieldTypes.length)) :: fieldChecks refEq da.fields db.fields

end

namespace GroupMemo
variable {σ : Type} (memo : GroupMemo σ) (P : ModulePair)

/-- `wah_cross_module_rec_group_eq` on the groups `ga` and `gb`, given as start and size -/
def recGroupEq (refEq : Ty → Ty → MemoCheck σ) (ga gb : Nat × Nat) : MemoCheck σ := fun s =>
  if ga.2 ≠ gb.2 then (false, s)
  else if P.same ∧ ga.1 = gb.1 then (true, s)
  else
    allChecks ((List.range ga.2).flatMap fun k =>
      typeChecks refEq (P.a.typeDef (ga.1 + k)) (P.b.typeDef (gb.1 + k)) (P.a.final (ga.1 + k)) (P.b.final (gb.1 + k))) s

/-- the end of `wah_cross_module_ref_in_recgroup`, for the groups `ha` and `hb` of types outside the groups compared -/
def externalEq (groupEq : MemoCheck σ) (ha hb : Nat × Nat) (ca cb : Nat) : MemoCheck σ := fun s =>
  if ha.2 ≠ hb.2 then (false, s)
  else if ca - ha.1 ≠ cb - hb.1 then (false, s)
  else if memo.has (ha.1, hb.1) s then (true, s)
  else
    match groupEq s with
    | (false, s') => (false, s')
    | (true, s') => memo.add (ha.1, hb.1) s'

/-- `wah_cross_module_ref_in_recgroup`; `fuel` is what is left of `WAH_MAX_TYPE_RECURSION_DEPTH` -/
def refInRecgroup : Nat → Nat × Nat → Nat × Nat → Ty → Ty → MemoCheck σ
  | fuel, ga, gb, .ref na (.idx ua), .ref nb (.idx ub) => fun s =>
    if na ≠ nb then (false, s)
    else
      let ca := P.a.canon ua
      let cb := P.b.canon ub
      if inGroup ga ca ∧ inGroup gb cb then (decide (ca - ga.1 = cb - gb.1), s)
      else if inGroup ga ca ∨ inGroup gb cb then (false, s)
      else if P.same ∧ ca = cb then (true, s)
      else
        match fuel with
        | 0 => (false, s)
        | fuel + 1 =>
          let ha := P.a.recGroup ca
          let hb := P.b.recGroup cb
          memo.externalEq (recGroupEq P (refInRecgroup fuel ha hb) ha hb) ha hb ca cb s
  | _, _, _, ta, tb => plainCheck (decide (ta = tb))

/-- `wah_cross_module_type_ref_eq_oom` from the memo `s` -/
def typeRefEq : Ty → Ty → MemoCheck σ
  | .ref na (.idx ua), .ref nb (.idx ub) => fun s =>
    if na ≠ nb then (false, s)
    else
      let ca := P.a.canon ua
      let cb := P.b.canon ub
      if P.same ∧ ca = cb then (true, s)
      else
        let ga := P.a.recGroup ca
        let gb := P.b.recGroup cb
        if ga.2 ≠ gb.2 then (false, s)
        else if ca - ga.1 ≠ cb - gb.1 then (false, s)
        else recGroupEq P (memo.refInRecgroup P maxTypeRecursionDepth ga gb) ga gb s
  | ta, tb => plainCheck (decide (ta = tb))

end GroupMemo

/-- `wah_type_eq_memo_t` as the list of the pairs of groups known to be equal, with no allocation failure -/
def listMemo : GroupMemo (List (Nat × Nat)) := ⟨fun p s => decide (p ∈ s), fun p s => (true, p :: s)⟩

/-- `wah_cross_module_type_ref_eq` -/
def typeRefEq (P : ModulePair) (ta tb : Ty) : Bool := (listMemo.typeRefEq P ta tb []).1

/-- the walk over the supertype chain in `wah_cross_module_subtype`; chains are shorter than the number of types -/
def walkSupertypesAcross (P : ModulePair) (sup : Ty) : Nat → Nat → Bool
  | 0, _ => false
  | fuel + 1, t =>
    match P.a.supertype t with
    | none => false
    | some st => typeRefEq P (.ofIdx st) sup || walkSupertypesAcross P sup fuel st

/-- `wah_cross_module_subtype` -/
def crossModuleSubtype (P : ModulePair) (sub sup : Ty) : Bool :=
  if sub = sup ∧ P.same then true
  else if sub.isNullable && !sup.isNullable then false
  else if typeRefEq P sub sup then true
  else
    match sub, sup with
    | .ref ns (.idx s), .ref nt (.idx t) =>
      ((ns || nt) && typeRefEq P (.ofIdx s) (.ofIdx t)) || walkSupertypesAcross P (.ofIdx t) P.a.typeCount s
    | .ref _ (.idx _), _ => P.a.typeIsSubtype sub sup
    | _, _ => P.b.typeIsSubtype sub sup

/-! ## The cache -/

/-- a question to `wah_cross_module_subtype` -/
structure TypeQuery where
  subModule : ModuleId
  subType : Ty
  supModule : ModuleId
  supType : Ty
deriving DecidableEq, Repr

/-- `wah_function_t`: a host function with its types, or a wasm function by its index -/
inductive FuncImpl where
  | host (params results : List Ty)
  | wasm (localIdx : Nat)
deriving DecidableEq, Repr

structure Function where
  impl : FuncImpl
  fnModule : Option ModuleId
deriving DecidableEq, Repr

/-- the module and the type check cache of a context -/
structure CheckCtx where
  module : ModuleId
  cache : Nat
deriving DecidableEq, Repr

/-- what the checks read: modules with their addresses, objects, and the functions behind function references -/
structure CheckEnv where
  modules : ModuleId → LinkModule
  address : ModuleId → UInt64
  store : Store
  funcs : Addr → Function

/-- `WAH_TYPE_CHECK_CACHE_SIZE` -/
def typeCheckCacheSize : Nat := 64

abbrev TypeCache := DirectMapped typeCheckCacheSize TypeQuery Bool

abbrev Caches := Nat → TypeCache

namespace CheckEnv
variable (E : CheckEnv)

def pair (a b : ModuleId) : ModulePair := ⟨E.modules a, E.modules b, decide (a = b)⟩

/-- the uncached decision -/
def subtypeAcross (q : TypeQuery) : Bool := crossModuleSubtype (E.pair q.subModule q.supModule) q.subType q.supType

/-- `wah_type_check_cache_slot` -/
def slot (q : TypeQuery) : Fin typeCheckCacheSize :=
  let h := E.address q.subModule >>> 4
  let h := h ^^^ ((E.address q.supModule >>> 9) * 0x9e3779b97f4a7c15)
  let h := h ^^^ (UInt64.ofNat (q.subType.code % 2 ^ 32).toNat * 0xbf58476d1ce4e5b9)
  let h := h ^^^ (UInt64.ofNat (q.supType.code % 2 ^ 32).toNat * 0x94d049bb133111eb)
  ⟨h.toNat % typeCheckCacheSize, Nat.mod_lt _ (by decide)⟩

/-- `wah_cross_module_subtype_cached` in a context with the cache `cache` -/
def subtypeCached (cache : Nat) (q : TypeQuery) (s : Caches) : Bool × Caches :=
  let r := (s cache).query E.slot E.subtypeAcross q
  (r.1, Function.update s cache r.2)

/-- queries in order, up to the first that fails -/
def allCached (cache : Nat) : List TypeQuery → Caches → Bool × Caches
  | [], s => (true, s)
  | q :: rest, s =>
    match E.subtypeCached cache q s with
    | (true, s') => allCached cache rest s'
    | (false, s') => (false, s')

/-! ## The deciders -/

/-- the parameters and results of a host function against a function type: parameters one way, results the other -/
def hostQueries (module fnModule : ModuleId) (ft : FuncType) (params results : List Ty) : List TypeQuery :=
  List.zipWith (fun t p => ⟨module, t, fnModule, p⟩) ft.params params ++
    List.zipWith (fun r t => ⟨fnModule, r, module, t⟩) results ft.results

/-- `wah_host_func_matches` -/
def hostFuncMatches (cache : Nat) (params results : List Ty) (fnModule module : ModuleId) (t : Nat) (s : Caches) :
    Bool × Caches :=
  let ft := ((E.modules module).typeDef t).func
  if ft.params.length ≠ params.length ∨ ft.results.length ≠ results.length then (false, s)
  else E.allCached cache (hostQueries module fnModule ft params results) s

/-- `function_type_indices[local_idx]` of a module -/
def functionType (m : ModuleId) (localIdx : Nat) : Nat := ((E.modules m).functionTypeIndices[localIdx]?).getD 0

/-- `WAH_REF_BODY`: `ctx` runs, `fctx` is the context of the current function -/
def refBody (ctx fctx : CheckCtx) (f : Function) (t : Nat) (s : Caches) : Bool × Caches :=
  let fnModule := f.fnModule.getD fctx.module
  match f.impl with
  | .host params results => E.hostFuncMatches ctx.cache params results fnModule fctx.module t s
  | .wasm localIdx =>
    E.subtypeCached ctx.cache ⟨fnModule, .ofIdx (E.functionType fnModule localIdx), fctx.module, .ofIdx t⟩ s

/-- the checks of `CALL_REF`, and of `WAH_INDIRECT_BODY` on a table entry, before the call -/
def callCheck (ctx fctx : CheckCtx) (r : Ref) (t : Nat) (s : Caches) : Bool × Caches :=
  match r with
  | .null | .i31 _ => (false, s)
  | .obj a => if (E.store.obj a).reprId ≠ reprFunc then (false, s) else E.refBody ctx fctx (E.funcs a) t s

/-- the loop of `wah_type_accepts_repr` -/
def acceptsLoop (M : LinkModule) (target : Nat) : Nat → Nat → Bool
  | 0, _ => false
  | fuel + 1, t =>
    decide (M.canon t = M.canon target) ||
      match M.supertype t with
      | none => false
      | some st => acceptsLoop M target fuel st

/-- `wah_type_accepts_repr` -/
def typeAcceptsRepr (M : LinkModule) (t : Nat) (reprId : Int) : Bool :=
  if reprId < 0 then false
  else
    match M.reprs[reprId.toNat]? with
    | none => false
    | some (_, ti) => decide (t < M.typeCount) && acceptsLoop M t (M.typeCount + 1) ti

/-- the cast of a function to a type index -/
def refTestFunc (fctx : CheckCtx) (f : Function) (t : Nat) (s : Caches) : Bool × Caches :=
  let fnModule := f.fnModule.getD fctx.module
  match f.impl with
  | .host params results => E.hostFuncMatches fctx.cache params results fnModule fctx.module t s
  | .wasm localIdx =>
    if localIdx < (E.modules fnModule).functionTypeIndices.length then
      E.subtypeCached fctx.cache ⟨fnModule, .ofIdx (E.functionType fnModule localIdx), fctx.module, .ofIdx t⟩ s
    else (false, s)

/-- what is left of a cast to a type index after objects with a representation: functions -/
def refTestRest (fctx : CheckCtx) (a : Addr) (t : Nat) (s : Caches) : Bool × Caches :=
  if (E.store.obj a).reprId = reprFunc ∧ (E.modules fctx.module).typeDefKind t = some .func then
    E.refTestFunc fctx (E.funcs a) t s
  else (false, s)

/-- the representation kind of an object, when its module has it -/
def reprTypeOf (o : Obj) : Option ReprType :=
  if o.reprId < 0 then none
  else o.mod.bind fun m => ((E.modules m).reprs[o.reprId.toNat]?).map Prod.fst

/-- `wah_ref_test_heap_type` in `fctx` -/
def refTestHeapType (fctx : CheckCtx) (r : Ref) (target : HeapTy) (s : Caches) : Bool × Caches :=
  match r with
  | .null => (false, s)
  | .i31 _ =>
    (match target with
      | .abs .any | .abs .externRef | .abs .eq | .abs .i31 => true
      | _ => false, s)
  | .obj a =>
    let o := E.store.obj a
    match target with
    | .idx t =>
      match o.mod with
      | none => E.refTestRest fctx a t s
      | some m =>
        if m = fctx.module then
          if typeAcceptsRepr (E.modules fctx.module) t o.reprId then (true, s) else E.refTestRest fctx a t s
        else if o.reprId < 0 then E.refTestRest fctx a t s
        else
          match (E.modules m).reprs[o.reprId.toNat]? with
          | some (_, ti) => E.subtypeCached fctx.cache ⟨m, .ofIdx ti, fctx.module, .ofIdx t⟩ s
          | none => E.refTestRest fctx a t s
    | .abs .any | .abs .externRef => (decide (o.reprId ≠ reprFunc), s)
    | .abs .eq => (decide (0 ≤ o.reprId), s)
    | .abs .struct => (decide (E.reprTypeOf o = some .struct), s)
    | .abs .array => (decide (E.reprTypeOf o = some .array), s)
    | .abs .func => (decide (o.reprId = reprFunc), s)
    | .abs .exn => (decide (o.reprId = reprExn), s)
    | .abs _ => (false, s)

/-- `wah_validate_function_import_type` -/
def validateFunctionImportType (importer : ModuleId) (t : Nat) (provider : ModuleId) (f : Function) : Bool :=
  let I := E.modules importer
  if t ≥ I.typeCount then false
  else
    match f.impl with
    | .host params results =>
      let ft := (I.typeDef t).func
      decide (ft.params.length = params.length) && decide (ft.results.length = results.length) &&
        (hostQueries importer provider ft params results).all E.subtypeAcross
    | .wasm localIdx =>
      match (E.modules provider).functionTypeIndices[localIdx]? with
      | none => false
      | some ti =>
        decide (ti < (E.modules provider).typeCount) && E.subtypeAcross ⟨provider, .ofIdx ti, importer, .ofIdx t⟩

end CheckEnv

/-! ## Checks in sequence -/

/-- the instructions that check the type of a function, and the check of an import -/
inductive FuncCheck where
  | callIndirect | returnCallIndirect | callRef | returnCallRef
  | refTest | refCast | brOnCast | brOnCastFail
  | importFunc
deriving DecidableEq, Repr

/-- one check: `ctx` runs, `fctx` is the context of the current function or the importer -/
inductive CheckEvent where
  | func (op : FuncCheck) (ctx fctx : CheckCtx) (a : Addr) (t : Nat)
  | cast (fctx : CheckCtx) (r : Ref) (target : HeapTy)
  | query (ctx : CheckCtx) (q : TypeQuery)
deriving DecidableEq, Repr

namespace CheckEnv
variable (E : CheckEnv)

/-- whether the reference to the function at `a` passes the check against the type `t` of the module of `fctx`; the
casts are to `(ref t)`, and an import resolves to the module that defines the function -/
def funcCheck (op : FuncCheck) (ctx fctx : CheckCtx) (a : Addr) (t : Nat) (s : Caches) : Bool × Caches :=
  match op with
  | .callIndirect | .returnCallIndirect | .callRef | .returnCallRef => E.callCheck ctx fctx (.obj a) t s
  | .refTest | .refCast | .brOnCast | .brOnCastFail => E.refTestHeapType fctx (.obj a) (.idx t) s
  | .importFunc =>
    (E.validateFunctionImportType fctx.module t ((E.funcs a).fnModule.getD fctx.module) (E.funcs a), s)

def event : CheckEvent → Caches → Bool × Caches
  | .func op ctx fctx a t, s => E.funcCheck op ctx fctx a t s
  | .cast fctx r target, s => E.refTestHeapType fctx r target s
  | .query ctx q, s => E.subtypeCached ctx.cache q s

/-- the caches after a sequence of checks -/
def after : List CheckEvent → Caches → Caches
  | [], s => s
  | e :: rest, s => after rest (E.event e s).2

/-- every cache is empty when its context is created -/
def freshCaches : Caches := fun _ => .empty

/-- every entry of every cache is an answer of the uncached decision -/
def CachesSound (s : Caches) : Prop := ∀ c, (s c).Sound E.subtypeAcross

/-- a computation over the caches that keeps them sound and answers `b` -/
structure Answers (b : Bool) (r : Bool × Caches) : Prop where
  answer : r.1 = b
  sound : E.CachesSound r.2

variable {E} {s : Caches}

theorem subtypeCached_answers (h : E.CachesSound s) (cache : Nat) (q : TypeQuery) :
    E.Answers (E.subtypeAcross q) (E.subtypeCached cache q s) := by
  refine ⟨(h cache).query_fst E.slot q, fun c => ?_⟩
  by_cases hc : c = cache
  · subst hc
    simpa [subtypeCached] using (h c).query_snd E.slot q
  · simpa [subtypeCached, Function.update_of_ne hc] using h c

theorem allCached_answers (cache : Nat) (qs : List TypeQuery) (h : E.CachesSound s) :
    E.Answers (qs.all E.subtypeAcross) (E.allCached cache qs s) := by
  induction qs generalizing s with
  | nil => exact ⟨rfl, h⟩
  | cons q rest ih =>
    obtain ⟨ha, hs⟩ := subtypeCached_answers h cache q
    rw [allCached, List.all_cons, ← ha]
    generalize E.subtypeCached cache q s = r at hs
    obtain ⟨b, s'⟩ := r
    cases b with
    | true => exact ih hs
    | false => exact ⟨rfl, hs⟩

/-- the decision every check comes down to: `f` of `fnModule` against the type `t` of `module` -/
def accepts (E : CheckEnv) (module fnModule : ModuleId) (f : FuncImpl) (t : Nat) : Bool :=
  match f with
  | .host params results =>
    let ft := ((E.modules module).typeDef t).func
    decide (ft.params.length = params.length) && decide (ft.results.length = results.length) &&
      (hostQueries module fnModule ft params results).all E.subtypeAcross
  | .wasm localIdx => E.subtypeAcross ⟨fnModule, .ofIdx (E.functionType fnModule localIdx), module, .ofIdx t⟩

theorem hostFuncMatches_answers (h : E.CachesSound s) (cache : Nat) (params results : List Ty)
    (fnModule module : ModuleId) (t : Nat) :
    E.Answers (E.accepts module fnModule (.host params results) t)
      (E.hostFuncMatches cache params results fnModule module t s) := by
  have hall := allCached_answers cache
    (hostQueries module fnModule ((E.modules module).typeDef t).func params results) h
  unfold hostFuncMatches accepts
  dsimp only
  split_ifs with hlen
  · refine ⟨?_, h⟩
    rcases hlen with hlen | hlen <;> simp [hlen]
  · push Not at hlen
    simpa [hlen.1, hlen.2] using hall

/-- a function reference of a linked program: its header is that of functions, it knows its module, and a wasm function
is one its module defines -/
structure IsFunction (E : CheckEnv) (a : Addr) (m : ModuleId) : Prop where
  header : (E.store.obj a).reprId = reprFunc
  noModule : (E.store.obj a).mod = none
  fnModule : (E.funcs a).fnModule = some m
  defined : ∀ i, (E.funcs a).impl = .wasm i →
    ∃ ti, (E.modules m).functionTypeIndices[i]? = some ti ∧ ti < (E.modules m).typeCount

/-- `t` is a function type of the module -/
def IsFuncType (E : CheckEnv) (module : ModuleId) (t : Nat) : Prop := (E.modules module).typeDefKind t = some .func

theorem IsFuncType.lt {module : ModuleId} {t : Nat} (h : E.IsFuncType module t) : t < (E.modules module).typeCount := by
  unfold IsFuncType Module.typeDefKind at h
  by_contra hge
  rw [List.getElem?_eq_none (by simpa [LinkModule.typeCount] using hge)] at h
  simp at h

section
variable {a : Addr} {m : ModuleId} {t : Nat} (ctx fctx : CheckCtx)

theorem callCheck_answers (h : E.CachesSound s) (hf : E.IsFunction a m) :
    E.Answers (E.accepts fctx.module m (E.funcs a).impl t) (E.callCheck ctx fctx (.obj a) t s) := by
  unfold callCheck refBody
  simp only [hf.header, ne_eq, not_true_eq_false, if_false, hf.fnModule, Option.getD_some]
  cases himpl : (E.funcs a).impl with
  | host params results => exact hostFuncMatches_answers h ctx.cache params results m fctx.module t
  | wasm i => exact subtypeCached_answers h ctx.cache _

theorem refTestHeapType_answers (h : E.CachesSound s) (hf : E.IsFunction a m) (ht : E.IsFuncType fctx.module t) :
    E.Answers (E.accepts fctx.module m (E.funcs a).impl t) (E.refTestHeapType fctx (.obj a) (.idx t) s) := by
  have hkind : (E.modules fctx.module).typeDefKind t = some .func := ht
  unfold refTestHeapType refTestRest refTestFunc
  simp only [hf.noModule, hf.header, hkind, and_self, if_true, hf.fnModule, Option.getD_some]
  cases himpl : (E.funcs a).impl with
  | host params results => exact hostFuncMatches_answers h fctx.cache params results m fctx.module t
  | wasm i =>
    obtain ⟨ti, hti, -⟩ := hf.defined i himpl
    dsimp only
    rw [if_pos (List.getElem?_eq_some_iff.1 hti).1]
    exact subtypeCached_answers h fctx.cache _

theorem validateFunctionImportType_eq (hf : E.IsFunction a m) (ht : E.IsFuncType fctx.module t) :
    E.validateFunctionImportType fctx.module t m (E.funcs a) = E.accepts fctx.module m (E.funcs a).impl t := by
  unfold validateFunctionImportType accepts
  simp only [Nat.not_le.2 ht.lt, if_false]
  cases himpl : (E.funcs a).impl with
  | host params results => rfl
  | wasm i =>
    obtain ⟨ti, hti, hlt⟩ := hf.defined i himpl
    simp [hti, hlt, functionType]

/-- every check of a function is the one decision, and keeps the caches sound -/
theorem funcCheck_answers (op : FuncCheck) (h : E.CachesSound s) (hf : E.IsFunction a m)
    (ht : E.IsFuncType fctx.module t) :
    E.Answers (E.accepts fctx.module m (E.funcs a).impl t) (E.funcCheck op ctx fctx a t s) := by
  cases op with
  | callIndirect | returnCallIndirect | callRef | returnCallRef => exact callCheck_answers ctx fctx h hf
  | refTest | refCast | brOnCast | brOnCastFail => exact refTestHeapType_answers fctx h hf ht
  | importFunc =>
    refine ⟨?_, h⟩
    simp only [funcCheck, hf.fnModule, Option.getD_some]
    exact validateFunctionImportType_eq fctx hf ht

end

/-! ## Every check keeps the caches sound -/

theorem callCheck_sound (h : E.CachesSound s) (ctx fctx : CheckCtx) (r : Ref) (t : Nat) :
    E.CachesSound (E.callCheck ctx fctx r t s).2 := by
  unfold callCheck refBody
  split
  · exact h
  · exact h
  · split_ifs
    · exact h
    · dsimp only
      split
      · exact (hostFuncMatches_answers h _ _ _ _ _ _).sound
      · exact (subtypeCached_answers h _ _).sound

theorem refTestRest_sound (h : E.CachesSound s) (fctx : CheckCtx) (a : Addr) (t : Nat) :
    E.CachesSound (E.refTestRest fctx a t s).2 := by
  unfold refTestRest refTestFunc
  split_ifs
  · dsimp only
    split
    · exact (hostFuncMatches_answers h _ _ _ _ _ _).sound
    · split_ifs
      · exact (subtypeCached_answers h _ _).sound
      · exact h
  · exact h

theorem refTestHeapType_sound (h : E.CachesSound s) (fctx : CheckCtx) (r : Ref) (target : HeapTy) :
    E.CachesSound (E.refTestHeapType fctx r target s).2 := by
  cases r with
  | null => exact h
  | i31 n => exact h
  | obj a =>
    cases target with
    | abs k => cases k <;> exact h
    | idx t =>
      simp only [refTestHeapType]
      split
      · exact refTestRest_sound h fctx a t
      · split_ifs
        · exact h
        · exact refTestRest_sound h fctx a t
        · exact refTestRest_sound h fctx a t
        · split
          · exact (subtypeCached_answers h _ _).sound
          · exact refTestRest_sound h fctx a t

/-- one check, of any kind and in any context -/
theorem event_sound (h : E.CachesSound s) (e : CheckEvent) : E.CachesSound (E.event e s).2 := by
  cases e with
  | func op ctx fctx a t =>
    cases op with
    | callIndirect | returnCallIndirect | callRef | returnCallRef => exact callCheck_sound h ctx fctx _ t
    | refTest | refCast | brOnCast | brOnCastFail => exact refTestHeapType_sound h fctx _ _
    | importFunc => exact h
  | cast fctx r target => exact refTestHeapType_sound h fctx r target
  | query ctx q => exact (subtypeCached_answers h ctx.cache q).sound

/-- any sequence of checks -/
theorem after_sound (es : List CheckEvent) (h : E.CachesSound s) : E.CachesSound (E.after es s) := by
  induction es generalizing s with
  | nil => exact h
  | cons e rest ih => exact ih (event_sound h e)

theorem freshCaches_sound : E.CachesSound freshCaches := fun _ => DirectMapped.sound_empty _

/-- **Function type checks agree.** After any sequence of checks in any contexts, all checks of one function against one
function type of the calling module answer alike; for a wasm function the answer is the subtype decision on its
defining type, and every cached query answers as the uncached decision does. -/
theorem function_checks_agree (E : CheckEnv) (history : List CheckEvent) (ctx fctx : CheckCtx) (a : Addr) (m : ModuleId)
    (t : Nat) (hf : E.IsFunction a m) (ht : E.IsFuncType fctx.module t) :
    (∀ op op', (E.funcCheck op ctx fctx a t (E.after history freshCaches)).1 =
      (E.funcCheck op' ctx fctx a t (E.after history freshCaches)).1) ∧
    (∀ op i ti, (E.funcs a).impl = .wasm i → (E.modules m).functionTypeIndices[i]? = some ti →
      (E.funcCheck op ctx fctx a t (E.after history freshCaches)).1 =
        crossModuleSubtype (E.pair m fctx.module) (.ofIdx ti) (.ofIdx t)) ∧
    (∀ cache q, (E.subtypeCached cache q (E.after history freshCaches)).1 =
      crossModuleSubtype (E.pair q.subModule q.supModule) q.subType q.supType) := by
  have hs : E.CachesSound (E.after history freshCaches) := after_sound history freshCaches_sound
  refine ⟨fun op op' => ?_, fun op i ti hi hti => ?_, fun cache q => (subtypeCached_answers hs cache q).answer⟩
  · rw [(funcCheck_answers ctx fctx op hs hf ht).answer, (funcCheck_answers ctx fctx op' hs hf ht).answer]
  · rw [(funcCheck_answers ctx fctx op hs hf ht).answer, hi]
    simp [accepts, functionType, hti, subtypeAcross]

/-- a module with one function type and one function of that type, and another module with the same type -/
def sampleModule : LinkModule :=
  { typeDefs := [{ kind := .func, func := ⟨[.i32], [.i32]⟩ }], canonicalMap := [0], isFinal := [true],
    recGroups := [(0, 1)], functionTypeIndices := [0] }

def sampleEnv : CheckEnv where
  modules _ := sampleModule
  address m := UInt64.ofNat (4096 * m)
  store := ⟨fun _ => { reprId := reprFunc, sizeBytes := 0 }, fun _ => []⟩
  funcs _ := ⟨.wasm 0, some 1⟩

theorem function_checks_agree_sample :
    (sampleEnv.funcCheck .callIndirect ⟨0, 0⟩ ⟨0, 0⟩ 8 0
        (sampleEnv.after [.func .refTest ⟨0, 0⟩ ⟨0, 0⟩ 8 0] freshCaches)).1 =
      (sampleEnv.funcCheck .importFunc ⟨0, 0⟩ ⟨0, 0⟩ 8 0
        (sampleEnv.after [.func .refTest ⟨0, 0⟩ ⟨0, 0⟩ 8 0] freshCaches)).1 ∧
    crossModuleSubtype (sampleEnv.pair 1 0) (.ofIdx 0) (.ofIdx 0) = true := by
  have hf : sampleEnv.IsFunction 8 1 :=
    ⟨rfl, rfl, rfl, fun i hi => ⟨0, by cases hi; rfl, by decide⟩⟩
  exact ⟨(function_checks_agree sampleEnv [.func .refTest ⟨0, 0⟩ ⟨0, 0⟩ 8 0] ⟨0, 0⟩ ⟨0, 0⟩ 8 1 0 hf rfl).1 _ _, by decide⟩

end CheckEnv

end Wah
