/-
Native code and the contexts that may run it.

Model:
- the compiler takes a module when each of its instructions is supported (`jitSupported`); a context runs natively when
  `ctxUsable` held at the end of its instantiation. A `LoadedModule` carries that a compiled module is compilable;
- contexts, slots and grows are those of `World`, of which a run here only uses allowed operations. On top of it stand
  what tables hold, kept at the owner slot that all views of a table share, function tables, immutable globals, and
  which memories are guarded;
- code of a context does what some instruction of its module can do (`permits`), with any operands; name resolution,
  allocators and the values of numeric const expressions are answers of the steps. Host functions do nothing but call
  the interface, which has no function that writes a table, a global or a function table.
-/
import Wah.Aliases
import Wah.FuncTypes
import Wah.Instr

namespace Wah

/-! ## Supported instructions -/

/-- `wah_jit_numeric_type` -/
def Ty.isNumeric : Ty → Bool
  | .i32 | .i64 | .f32 | .f64 | .v128 => true
  | _ => false

/-- `wah_jit_numeric_func_type` -/
def FuncType.isNumeric (ft : FuncType) : Bool := ft.params.all Ty.isNumeric && ft.results.all Ty.isNumeric

/-- opcodes of `wah_jit_supported` without immediates: the scalar ones of WASM 1.0, sign extensions, saturating
truncations, and vectors if the processor has them -/
def opcodeSupported (simd : Bool) (opcode : Nat) : Bool :=
  (decide (0x45 ≤ opcode) && decide (opcode ≤ 0xc4)) || (decide (0xf6 ≤ opcode) && decide (opcode ≤ 0xfd)) ||
    (simd && decide (0x108 ≤ opcode) && decide (opcode < 0x21c))

/-- whether functions of type `t` have numeric types only -/
def Module.numericType (M : Module) (t : Nat) : Bool :=
  match M.typeDefs[t]? with
  | some d => d.func.isNumeric
  | none => false

def PlainOp.jitSupported (M : Module) (simd : Bool) : PlainOp → Bool
  | .numeric _ opcode => opcodeSupported simd opcode
  | .load op _ => simd || decide (op.row.1 ≠ .v128)
  | .store op _ => simd || decide (op.row.1 ≠ .v128)
  | .loadLane _ _ _ | .storeLane _ _ _ | .extractLane _ _ _ | .replaceLane _ _ | .shuffle _ | .v128Const _ => simd
  | .memorySize _ | .memoryGrow _ | .memoryFill _ | .memoryInit _ _ | .dataDrop _ | .memoryCopy _ _ => true
  | .globalGet g | .globalSet g => (M.globals[g]?).any fun t => t.type.isNumeric
  | .i32Const _ | .i64Const _ | .f32Const _ | .f64Const _ | .f32DemoteF64 | .f64PromoteF32 | .selectT _ => true
  | _ => false

/-- `wah_jit_supported`; `nop` and the two conversions leave no instruction -/
def Instr.jitSupported (M : Module) (simd : Bool) : Instr → Bool
  | .data (.plain p) => p.jitSupported M simd
  | .data .drop | .data .select => true
  | .call (.direct f) => (M.funcs[f]?).any M.numericType
  | .call (.indirect t _) => M.numericType t
  | .nop | .anyConvertExtern | .externConvertAny => true
  | .localGet _ | .localSet _ | .localTee _ | .unreachable | .block _ | .loop _ | .if_ _ | .else_ | .end_ => true
  | .br _ | .brIf _ | .brTable _ _ | .return_ => true
  | _ => false

/-! ## Modules -/

/-- `WAH_KIND_*` -/
inductive ExternKind where
  | func | table | memory | global | tag
deriving DecidableEq, Repr

def Kind.externKind : Kind → ExternKind
  | .memory => .memory
  | .table => .table

/-- a const expression of a reference type by its last instruction; those of the GC feature make integers and objects -/
inductive ConstRef where
  | null
  | func (i : Nat)
  | global (g : Nat)
  | i31 (value : Nat)
  | object
deriving DecidableEq, Repr

/-- `wah_element_segment_t` -/
structure ElemSegment where
  active : Bool
  table : Nat
  isExpr : Bool
  elems : List ConstRef
deriving DecidableEq, Repr

/-- a function body with what `wah_jit_compile_function` checks of it -/
structure FuncBody where
  type : Nat
  locals : List Ty
  instrs : List Instr

/-- what linking, tables and the compiler read of `wah_module_t`; imports come first in each index space -/
structure WasmModule where
  id : ModuleId
  decl : Module := {}
  importFunctionCount : Nat := 0
  functions : List FuncImpl := []
  importCount : Kind → Nat := fun _ => 0
  exports : List (ExternKind × Nat) := []
  globalInits : List ConstRef := []
  tableInits : List (Option ConstRef) := []
  elems : List ElemSegment := []
  code : List FuncBody := []

/-- `wah_jit_module_t` -/
structure JitModule where
  guarded : Bool
deriving DecidableEq, Repr

namespace WasmModule
variable (m : WasmModule)

/-- every function passes the checks of `wah_jit_compile_function` -/
def compilable (simd : Bool) : Bool :=
  !m.code.isEmpty && m.code.all fun b =>
    m.decl.numericType b.type && b.locals.all Ty.isNumeric && b.instrs.all (Instr.jitSupported m.decl simd)

/-- the native code of a parsed module; it may be disabled, or fail to be emitted -/
def compile (disabled simd guard emitted : Bool) : Option JitModule :=
  if !disabled && !m.decl.fuelMetering && emitted && m.compilable simd then some ⟨guard⟩ else none

def exportsTable : Bool := m.exports.any fun e => decide (e.1 = .table)

/-- an import of a global of a reference type -/
def importsRefGlobal : Bool := (m.decl.globals.take m.decl.importGlobalCount).any fun g => g.type.isRef

end WasmModule

/-- a module with its native code, which exists only for compilable modules that were parsed -/
structure LoadedModule extends WasmModule where
  jit : Option JitModule
  compiled : jit.isSome = true → ∃ simd, toWasmModule.compilable simd = true
  parsed : jit.isSome = true → functions = (List.range code.length).map .wasm

/-- `wah_parse_module` with the answers about the processor and the system; the functions are those with a body -/
def WasmModule.load (m : WasmModule) (disabled simd guard emitted : Bool) : LoadedModule where
  toWasmModule := { m with functions := (List.range m.code.length).map .wasm }
  jit := m.compile disabled simd guard emitted
  compiled h := by
    refine ⟨simd, ?_⟩
    by_contra hn
    have : m.compilable simd ≠ true := hn
    simp [WasmModule.compile, this] at h
  parsed _ := rfl

/-- a module made by the host -/
def WasmModule.hosted (m : WasmModule) : LoadedModule where
  toWasmModule := m
  jit := none
  compiled h := by cases h
  parsed h := by cases h

instance : Inhabited LoadedModule := ⟨WasmModule.hosted { id := 0 }⟩

/-! ## Contexts -/

/-- a slot of a function table -/
structure FuncSlot where
  fn : Function := ⟨.wasm 0, none⟩
  fnCtx : Option CtxId := none
deriving DecidableEq, Repr

def FuncImpl.isHost : FuncImpl → Bool
  | .host _ _ => true
  | .wasm _ => false

def FuncSlot.isHost (f : FuncSlot) : Bool := f.fn.impl.isHost

/-- a table entry; a function is named by its slot of the function table of a context -/
inductive Entry where
  | null
  | i31 (value : Nat)
  | obj (a : Addr)
  | func (c : CtxId) (i : Nat)
deriving DecidableEq, Repr

structure NativeWorld where
  shared : World
  modules : CtxId → LoadedModule
  funcs : CtxId → List FuncSlot
  /-- the values of immutable globals of reference types -/
  globals : CtxId → Nat → Entry
  /-- what the defined tables of a context hold -/
  entries : CtxId → Nat → Nat → Entry
  /-- the `guarded` flags of the memories of a context -/
  guarded : CtxId → Nat → Bool
  /-- `ctx->jit` is set -/
  jit : CtxId → Bool

/-- the function table of a new context: zeroed import slots, then copies of the functions of the module. Those of an
owned context are adopted, which leaves host functions unbound. -/
def WasmModule.functionTable (m : WasmModule) (c : CtxId) (adopted : Bool) : List FuncSlot :=
  List.replicate m.importFunctionCount ({} : FuncSlot) ++
    m.functions.map fun f => ⟨⟨f, some m.id⟩, if adopted && f.isHost then none else some c⟩

namespace NativeWorld
variable (W : NativeWorld)

/-- the new context `c` of module `m` -/
def install (c : CtxId) (m : LoadedModule) (adopted : Bool) (reserved : Nat → Bool) (shared : World) : NativeWorld where
  shared := shared
  modules := Function.update W.modules c m
  funcs := Function.update W.funcs c (m.functionTable c adopted)
  globals := Function.update W.globals c fun _ => .null
  entries := Function.update W.entries c fun _ _ => .null
  guarded := Function.update W.guarded c fun i =>
    decide (m.importCount .memory ≤ i) && decide (m.decl.memories[i]? = some .i32) && reserved i
  jit := Function.update W.jit c false

/-- the answers about a module fit it -/
def fits (m : LoadedModule) (spec : ModuleSpec) : Bool :=
  [Kind.memory, Kind.table].all fun k => decide (spec.imports k = m.importCount k)

/-- `wah_new_exec_context`; nothing is left of a context that could not be created -/
def newContext (c : CtxId) (m : LoadedModule) (spec : ModuleSpec) (limit : UInt64) (reserved : Nat → Bool) :
    Option NativeWorld :=
  if fits m spec then
    (W.shared.newContext c spec limit).map fun V => if (V.ctx c).created then W.install c m false reserved V else W
  else none

/-- one round of `wah_create_owned_linked_contexts` -/
def createOwned (p : CtxId) (j : Nat) (c : CtxId) (m : LoadedModule) (spec : ModuleSpec) (reserved : Nat → Bool) :
    Option NativeWorld :=
  if fits m spec then (W.shared.createOwned p j c spec).map (W.install c m true reserved) else none

/-- an import slot of a function table is filled in -/
def bindFunction (c : CtxId) (i : Nat) (f : FuncSlot) : Option NativeWorld :=
  if W.shared.binding (W.shared.root c) && decide (i < (W.modules c).importFunctionCount) then
    some { W with funcs := Function.update W.funcs c ((W.funcs c).set i f) }
  else none

/-- an import slot of a memory or table is bound to an export of `q`. An owned context copies the whole slot. -/
def bindImport (c : CtxId) (k : Kind) (i : Nat) (q : CtxId) (qi : Nat) (registered gcRegistered : Bool) :
    Option NativeWorld :=
  if (k.externKind, qi) ∈ (W.modules q).exports then
    (W.shared.bindImport c k i q qi registered gcRegistered).map fun V =>
      { W with
        shared := V
        guarded := if k = .memory ∧ W.shared.root c ≠ c then
            Function.update W.guarded c (Function.update (W.guarded c) i (W.guarded q qi))
          else W.guarded }
  else none

/-! ## Const expressions -/

/-- `wah_eval_const_expr` in context `c`, for a reference -/
def evalConst (c : CtxId) (fresh : Addr) : ConstRef → Option Entry
  | .null => some .null
  | .func i => if i < (W.funcs c).length then some (.func c i) else none
  | .global g => some (W.globals c g)
  | .i31 v => some (.i31 v)
  | .object => some (.obj fresh)

/-- `wah_init_globals` on one global; an imported one takes the value of its provider -/
def initGlobal (c : CtxId) (g : Nat) (provided : Entry) (fresh : Addr) : Option NativeWorld :=
  if !W.shared.binding (W.shared.root c) then none
  else
    let m := W.modules c
    if g < m.decl.importGlobalCount then
      if (m.decl.globals[g]?).any fun t => t.type.isRef then
        some { W with globals := Function.update W.globals c (Function.update (W.globals c) g provided) }
      else none
    else
      ((m.globalInits[g - m.decl.importGlobalCount]?).bind (W.evalConst c fresh)).map fun v =>
        { W with globals := Function.update W.globals c (Function.update (W.globals c) g v) }

/-- store `r` in entry `n` of table slot `t` of `c` -/
def storeEntry (c : CtxId) (t n : Nat) (r : Entry) : NativeWorld :=
  match W.shared.slot c .table t with
  | none => W
  | some s =>
    if n < s.size then
      let (o, oi) := World.ownerOf c s t
      { W with entries := Function.update W.entries o
                 (Function.update (W.entries o) oi (Function.update (W.entries o oi) n r)) }
    else W

/-- the instantiation of `c`, or of its primary, initializes tables -/
def initializing (c : CtxId) : Bool :=
  W.shared.linkable (W.shared.root c) && (W.shared.ctx (W.shared.root c)).mayShareRefs

/-- one entry in `wah_init_table_init_exprs` -/
def initTable (c : CtxId) (t n : Nat) (fresh : Addr) : Option NativeWorld :=
  if W.initializing c then
    ((((W.modules c).tableInits[t]?).join).bind (W.evalConst c fresh)).map
      (W.storeEntry c ((W.modules c).importCount .table + t) n)
  else none

/-- a function without a context is bound to the one it is made a reference in -/
def materialize (c : CtxId) (i : Nat) : NativeWorld :=
  { W with funcs := Function.update W.funcs c ((W.funcs c).modify i fun f =>
      if !f.isHost && f.fnCtx.isNone && decide (f.fn.fnModule = some (W.modules c).id) then { f with fnCtx := some c }
      else f) }

/-- `materialize` for a segment of function indices -/
def materializeElem (c : CtxId) (isExpr : Bool) : ConstRef → NativeWorld
  | .func i => if isExpr then W else W.materialize c i
  | _ => W

/-- one element in `wah_init_active_elem_segments`, with the value of the offset -/
def initElem (c : CtxId) (e n : Nat) (offset : Nat) (fresh : Addr) : Option NativeWorld :=
  if W.initializing c then
    ((W.modules c).elems[e]?).bind fun seg =>
      if seg.active then
        (seg.elems[n]?).bind fun x => ((W.materializeElem c seg.isExpr x).evalConst c fresh x).map fun r =>
          (W.materializeElem c seg.isExpr x).storeEntry c seg.table (offset + n) r
      else none
  else none

/-! ## Native activations -/

/-- `wah_jit_ctx_usable` -/
def ctxUsable (c : CtxId) (jm : JitModule) : Bool :=
  let m := W.modules c
  decide (m.importCount .table = 0) && !m.importsRefGlobal && !m.exportsTable &&
    (List.range m.importFunctionCount).all (fun i => ((W.funcs c)[i]?).any FuncSlot.isHost) &&
    (!jm.guarded || (List.range ((W.shared.ctx c).slots .memory).length).all fun i =>
      decide (m.decl.memories[i]? = some .i64) ||
        match W.shared.slot c .memory i with
        | none => false
        | some s =>
          match s.isImported, s.importCtx with
          | true, none => false
          | true, some o => W.guarded o s.importIdx
          | false, _ => W.guarded c i)

/-- `wah_jit_instantiate`; without memory the context stays interpreted -/
def jitInstantiate (c : CtxId) (allocated : Bool) : Option NativeWorld :=
  if W.shared.linkable c && (W.shared.ctx c).mayShareRefs then
    match (W.modules c).jit with
    | none => some W
    | some jm => some (if W.ctxUsable c jm && allocated then { W with jit := Function.update W.jit c true } else W)
  else none

/-! ## Running code -/

/-- what one instruction may do to tables, memories and function tables; bulk operations write one entry at a time -/
inductive Effect where
  | tableWrite (t n : Nat) (r : Entry)
  | tableGrow (t delta : Nat) (r : Entry) (alloc : Option Ptr)
  | memoryGrow (i delta : Nat) (alloc : Option Ptr)
  | materialize (i : Nat)
deriving DecidableEq, Repr

end NativeWorld

open NativeWorld in
/-- the effects of the instructions of the interpreter -/
def PlainOp.permits : PlainOp → Effect → Bool
  | .tableSet t, .tableWrite t' _ _ | .tableFill t, .tableWrite t' _ _ => decide (t = t')
  | .tableCopy dst _, .tableWrite t' _ _ => decide (dst = t')
  | .tableInit _ t, .tableWrite t' _ _ => decide (t = t')
  | .tableInit _ _, .materialize _ | .arrayNewElem _ _, .materialize _ | .arrayInitElem _ _, .materialize _ => true
  | .tableGrow t, .tableGrow t' _ _ _ => decide (t = t')
  | .memoryGrow i, .memoryGrow i' _ _ => decide (i = i')
  | _, _ => false

def Instr.permits (e : NativeWorld.Effect) : Instr → Bool
  | .data (.plain p) => p.permits e
  | _ => false

/-- some instruction of the module does it -/
def WasmModule.permits (m : WasmModule) (e : NativeWorld.Effect) : Bool :=
  m.code.any fun b => b.instrs.any (Instr.permits e)

namespace NativeWorld
variable (W : NativeWorld)

/-- `wah_memory_grow_internal`: a guarded memory never moves, and the answer is about committing its pages -/
def memoryGrow (ctx fctx : CtxId) (i delta : Nat) (alloc : Option Ptr) : Option NativeWorld :=
  (W.shared.slot fctx .memory i).bind fun s =>
    let (o, oi) := World.ownerOf fctx s i
    let alloc := if W.guarded o oi then alloc.map fun _ => s.data else alloc
    (W.shared.grow ctx fctx .memory i delta 0 alloc).map fun V => { W with shared := V.2 }

/-- `wah_table_grow_internal`, with the new entries at the owner -/
def tableGrow (ctx fctx : CtxId) (t delta : Nat) (r : Entry) (alloc : Option Ptr) : Option NativeWorld :=
  (W.shared.slot fctx .table t).bind fun s =>
    let (o, oi) := World.ownerOf fctx s t
    (W.shared.grow ctx fctx .table t delta 0 alloc).map fun V =>
      { W with
        shared := V.2
        entries := if V.1 = -1 then W.entries
          else Function.update W.entries o (Function.update (W.entries o) oi fun n =>
            if n < s.size then W.entries o oi n else r) }

/-- `ctx` runs code of `fctx` -/
def code (ctx fctx : CtxId) (e : Effect) : Option NativeWorld :=
  if (W.shared.ctx (W.shared.root fctx)).mayShareRefs && (W.modules fctx).permits e then
    match e with
    | .tableWrite t n r => some (W.storeEntry fctx t n r)
    | .tableGrow t delta r alloc => W.tableGrow ctx fctx t delta r alloc
    | .memoryGrow i delta alloc => W.memoryGrow ctx fctx i delta alloc
    | .materialize i => some (W.materialize fctx i)
  else none

/-! ## Runs -/

/-- operations that leave slots alone -/
def plain : ShareOp → Bool
  | .linkModule _ | .linkContext _ _ _ | .finishOwned _ | .share _ | .finish _ | .fail _ => true
  | .write _ k _ _ _ => decide (k = .memory)
  | .gcStart _ | .gcAlloc _ _ _ _ _ | .gcAllocException _ _ _ | .collect _ _ | .sweepExceptions _ _ => true
  | .setLimits _ _ => true
  | .newContext _ _ _ | .createOwned _ _ _ _ | .bindImport _ _ _ _ _ _ _ | .grow _ _ _ _ _ _ _ => false

inductive Op where
  | newContext (c : CtxId) (m : LoadedModule) (spec : ModuleSpec) (limit : UInt64) (reserved : Nat → Bool)
  | createOwned (p : CtxId) (j : Nat) (c : CtxId) (m : LoadedModule) (spec : ModuleSpec) (reserved : Nat → Bool)
  | bindFunction (c : CtxId) (i : Nat) (f : FuncSlot)
  | bindImport (c : CtxId) (k : Kind) (i : Nat) (q : CtxId) (qi : Nat) (registered gcRegistered : Bool)
  | initGlobal (c : CtxId) (g : Nat) (provided : Entry) (fresh : Addr)
  | initTable (c : CtxId) (t n : Nat) (fresh : Addr)
  | initElem (c : CtxId) (e n offset : Nat) (fresh : Addr)
  | jitInstantiate (c : CtxId) (allocated : Bool)
  | code (ctx fctx : CtxId) (e : Effect)
  | shared (op : ShareOp)

/-- one operation; none when the state does not allow it -/
def step : Op → Option NativeWorld
  | .newContext c m spec limit reserved => W.newContext c m spec limit reserved
  | .createOwned p j c m spec reserved => W.createOwned p j c m spec reserved
  | .bindFunction c i f => W.bindFunction c i f
  | .bindImport c k i q qi registered gcRegistered => W.bindImport c k i q qi registered gcRegistered
  | .initGlobal c g provided fresh => W.initGlobal c g provided fresh
  | .initTable c t n fresh => W.initTable c t n fresh
  | .initElem c e n offset fresh => W.initElem c e n offset fresh
  | .jitInstantiate c allocated => W.jitInstantiate c allocated
  | .code ctx fctx e => W.code ctx fctx e
  | .shared op => if plain op then (W.shared.step op).map fun V => { W with shared := V } else none

/-- no context at all -/
def empty : NativeWorld where
  shared := World.empty
  modules := fun _ => default
  funcs := fun _ => []
  globals := fun _ _ => .null
  entries := fun _ _ _ => .null
  guarded := fun _ _ => false
  jit := fun _ => false

/-- a sequence of operations leads from `W` to `W'` -/
inductive Leads : NativeWorld → NativeWorld → Prop where
  | refl (W : NativeWorld) : Leads W W
  | step {W V W' : NativeWorld} {op : Op} (h : Leads W V) (hs : V.step op = some W') : Leads W W'

def Reached (W : NativeWorld) : Prop := Leads empty W

/-! ## Calls from native code -/

/-- entry `n` of table slot `t` of `c` -/
def entry (c : CtxId) (t n : Nat) : Option Entry :=
  (W.shared.slot c .table t).bind fun s =>
    if n < s.size then
      let (o, oi) := World.ownerOf c s t
      some (W.entries o oi n)
    else none

inductive NativeCall where
  | trap
  | misuse
  | host (f : FuncSlot)
  | enter (localIdx : Nat)
deriving DecidableEq, Repr

/-- `wah_jit_call_indirect`; `matched` is the answer of `wah_host_func_matches` or of `wah_cross_module_subtype_cached`
-/
def callIndirect (c : CtxId) (matched : Function → Nat → Bool) (typeIdx t n : Nat) : NativeCall :=
  match W.entry c t n with
  | none | some .null | some (.i31 _) | some (.obj _) => .trap
  | some (.func d i) =>
    match (W.funcs d)[i]? with
    | none => .trap
    | some f =>
      match f.fn.impl with
      | .host _ _ => if matched f.fn typeIdx then .host f else .trap
      | .wasm localIdx =>
        if !matched f.fn typeIdx then .trap
        else if decide (f.fn.fnModule.getD (W.modules c).id ≠ (W.modules c).id) ||
            (f.fnCtx.isSome && decide (f.fnCtx ≠ some c)) then .misuse
        else .enter localIdx

end NativeWorld

end Wah
