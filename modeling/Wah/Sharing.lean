/-
Memories and tables shared between contexts, and the memory budget that accounts for them.

Model:
- a context has slots for memories and tables, imports first. An import slot caches pointer and size of a slot of
  another context and names it by `import_ctx` and `import_idx`; nothing is shared but the data itself;
- `wah_instantiate` is taken in steps: creating owned contexts, binding one import, completing an owned context,
  sharing, finishing or failing. Which slot a name resolves to and which allocations succeed are answers of the steps:
  a provider is a context of the same primary or of an instantiated one, and its slot is defined there or the provider
  is complete;
- running code is a sequence of writes, grows, allocations and collections by any contexts. Guarded memories of the
  compiler are not modelled.

Results, for every sequence of steps from no context at all:
- `views_in_step`: after each operation every slot that resolves to an owner slot has its pointer and size, and
  `memory_base` and `memory_size` are those of memory 0; a grow keeps the content and fills the new part, and one that
  returns -1 changes nothing. Left out are import slots of a failed instantiation that ran out of memory while it
  registered the context with the owner, and the view of memory 0 where an instantiation did not get to set it;
- `budget_exact`: as long as no charge passes 2^64, the committed bytes of every primary are the sizes of what it and
  the contexts it owns define plus its heap, and stay within the limit.
-/
import Wah.Heap

namespace Wah

abbrev CtxId := Nat
abbrev Ptr := Nat

/-- a byte of a memory, or the bits of a table entry -/
abbrev Cell := Nat

inductive Kind where
  | memory | table
deriving DecidableEq, Repr

/-- `wah_memory_inst_t` and `wah_table_inst_t`; the size is in bytes for a memory and in elements for a table, the
maximum in pages or elements -/
structure Slot where
  data : Ptr := 0
  size : Nat := 0
  max : Nat := 0
  isImported : Bool := false
  importCtx : Option CtxId := none
  importIdx : Nat := 0
deriving DecidableEq, Repr

/-- the owner slot an import slot names -/
def Slot.target (s : Slot) : Option (CtxId × Nat) :=
  if s.isImported then s.importCtx.map fun o => (o, s.importIdx) else none

def pageSize : Nat := 65536

/-- the bytes of a memory or table of the given size -/
def Kind.bytes : Kind → Nat → Nat
  | .memory, n => n
  | .table, n => n * valueSize

/-- what has a byte size: the bounds on `min_pages` and in `wah_table_byte_size` -/
def Kind.hasByteSize : Kind → Nat → Bool
  | .memory, n => n / pageSize ≤ (2 ^ 64 - 1) / pageSize
  | .table, n => n ≤ (2 ^ 64 - 1) / valueSize

/-- `wah_linked_module_t`: the context is missing until an owned one is created -/
structure Link where
  ctx : Option CtxId
  ownsCtx : Bool
deriving DecidableEq, Repr

/-- what linking, growing and accounting read and write of `wah_exec_context_t`; `gcDependents` are those of its heap -/
structure LinkCtx where
  created : Bool := false
  slots : Kind → List Slot := fun _ => []
  importCount : Kind → Nat := fun _ => 0
  memoryBase : Ptr := 0
  memorySize : Nat := 0
  linked : List Link := []
  dependents : List CtxId := []
  gcDependents : List CtxId := []
  budgetCtx : Option CtxId := none
  budget : Budget := ⟨none, 0⟩
  gc : Option GcState := none
  isInstantiated : Bool := false
  mayShareRefs : Bool := false
  instantiateFailed : Bool := false

/-- all contexts, the content behind every pointer, and the objects of all heaps -/
structure World where
  ctx : CtxId → LinkCtx
  buf : Ptr → Nat → Cell
  store : Store

namespace World
variable (W : World)

def slot (c : CtxId) (k : Kind) (i : Nat) : Option Slot := ((W.ctx c).slots k)[i]?

/-- change one context -/
def set (c : CtxId) (f : LinkCtx → LinkCtx) : World := { W with ctx := Function.update W.ctx c (f (W.ctx c)) }

/-- `wah_budget_owner`: the primary of an owned context -/
def root (c : CtxId) : CtxId := (W.ctx c).budgetCtx.getD c

/-- the contexts a primary owns -/
def owned (p : CtxId) : List CtxId := (W.ctx p).linked.filterMap fun l => if l.ownsCtx then l.ctx else none

end World

/-! ## Creating contexts -/

/-- a memory or table to define, with the answer of the allocator -/
structure SlotSpec where
  size : Nat
  max : Nat
  data : Option Ptr
deriving DecidableEq, Repr

/-- the memories and tables of a module -/
structure ModuleSpec where
  imports : Kind → Nat
  defs : Kind → List SlotSpec

/-- check, charge and allocate the defined slots of one kind; slots after a failure stay zero -/
def defineSlots (k : Kind) : List SlotSpec → Budget → List Slot × Budget × Bool
  | [], b => ([], b, true)
  | d :: rest, b =>
    if !(k.hasByteSize d.size && b.check (k.bytes d.size)) then ({} :: rest.map fun _ => {}, b, false)
    else
      match d.data with
      | none => ({ size := d.size, max := d.max } :: rest.map fun _ => {}, b.charge (k.bytes d.size), false)
      | some p =>
        let r := defineSlots k rest (b.charge (k.bytes d.size))
        ({ data := p, size := d.size, max := d.max } :: r.1, r.2)

/-- all slots of a new context, its budget afterwards, and whether everything was allocated. Import slots are zero until
they are bound. -/
def createSlots (spec : ModuleSpec) (b : Budget) : (Kind → List Slot) × Budget × Bool :=
  let ms := defineSlots .memory (spec.defs .memory) b
  let memories := List.replicate (spec.imports .memory) {} ++ ms.1
  if !ms.2.2 then (fun | .memory => memories | .table => [], ms.2.1, false)
  else
    let ts := defineSlots .table (spec.defs .table) ms.2.1
    (fun | .memory => memories | .table => List.replicate (spec.imports .table) {} ++ ts.1, ts.2)

/-- the view of memory 0 is taken over from its slot, if there is one -/
def LinkCtx.setBase (c : LinkCtx) : LinkCtx :=
  match (c.slots .memory)[0]? with
  | none => c
  | some s => { c with memoryBase := s.data, memorySize := s.size }

/-- a value of `max_memory_bytes`: `UINT64_MAX` is no limit -/
def limitBytes (max : UInt64) : Option Nat := if max = -1 then none else some max.toNat

/-- the context `wah_new_exec_context` fills in -/
def newCtx (spec : ModuleSpec) (limit : UInt64) : LinkCtx :=
  let r := createSlots spec ⟨limitBytes limit, 0⟩
  LinkCtx.setBase { created := true, slots := r.1, importCount := spec.imports, budget := r.2.1 }

namespace World
variable (W : World)

/-- `wah_new_exec_context`; a context that cannot be created is freed again -/
def newContext (c : CtxId) (spec : ModuleSpec) (limit : UInt64) : Option World :=
  if (W.ctx c).created then none
  else
    if !(createSlots spec ⟨limitBytes limit, 0⟩).2.2 then some W
    else some (W.set c fun _ => newCtx spec limit)

/-- whether `p` is a primary that may still be linked -/
def linkable (p : CtxId) : Bool :=
  (W.ctx p).created && !(W.ctx p).isInstantiated && !(W.ctx p).instantiateFailed && (W.ctx p).budgetCtx.isNone

/-- `wah_link_module` -/
def linkModule (p : CtxId) : Option World :=
  if W.linkable p && !(W.ctx p).mayShareRefs then
    some (W.set p fun x => { x with linked := x.linked ++ [⟨none, false⟩] })
  else none

/-- `wah_register_dependent` -/
def registerDependent (provider consumer : CtxId) : World :=
  W.set provider fun x =>
    if consumer ∈ x.dependents then x else { x with dependents := x.dependents ++ [consumer] }

/-- `wah_gc_register_dependent` on the heap of `provider`, if there is one; owned contexts use that of their primary -/
def registerGcDependent (provider consumer : CtxId) : World :=
  W.set (W.root provider) fun x =>
    if x.gc.isSome ∧ consumer ∉ x.gcDependents then { x with gcDependents := x.gcDependents ++ [consumer] } else x

/-- `wah_link_context`; without memory for the registrations nothing changes -/
def linkContext (p q : CtxId) (registered : Bool) : Option World :=
  if W.linkable p && !(W.ctx p).mayShareRefs && (W.ctx q).isInstantiated && (W.ctx q).budgetCtx.isNone then
    if !registered then some W
    else
      some (((W.registerDependent q p).registerGcDependent q p).set p fun x =>
        { x with linked := x.linked ++ [⟨some q, false⟩] })
  else none

/-! ## The steps of `wah_instantiate` -/

/-- an instantiation of `p` is going on and has not shared references yet -/
def binding (p : CtxId) : Bool := W.linkable p && !(W.ctx p).mayShareRefs

/-- one round of `wah_create_owned_linked_contexts`: the context of link `j`, with the new identity `c` -/
def createOwned (p : CtxId) (j : Nat) (c : CtxId) (spec : ModuleSpec) : Option World :=
  if W.binding p && !(W.ctx c).created && decide ((W.ctx p).linked[j]? = some ⟨none, false⟩) && decide (c ≠ p) then
    let r := createSlots spec (W.ctx p).budget
    let W := W.set p fun x =>
      { x with
        linked := x.linked.set j ⟨some c, true⟩
        budget := r.2.1
        instantiateFailed := !r.2.2 }
    some (W.set c fun _ => { created := true, slots := r.1, importCount := spec.imports, budgetCtx := some p })
  else none

/-- the loop of `WAH_FOLLOW_IMPORT_CHAIN`; none for a chain longer than `WAH_REEXPORT_MAX_DEPTH` -/
def followChain (k : Kind) : Nat → CtxId → Nat → Option (CtxId × Nat)
  | fuel, o, i =>
    match (W.slot o k i).bind Slot.target with
    | none => some (o, i)
    | some (o', i') =>
      match fuel with
      | 0 => none
      | fuel + 1 => followChain k fuel o' i'

def reexportMaxDepth : Nat := 64

/-- change one slot of a context -/
def setSlot (c : CtxId) (k : Kind) (i : Nat) (f : Slot → Slot) : World :=
  W.set c fun x => { x with slots := Function.update x.slots k ((x.slots k).modify i f) }

/-- `q` may provide slot `qi` to a context of the primary `p`: it belongs to `p` or to an instantiated primary, and the
slot is defined in it or `q` is complete -/
def provides (p : CtxId) (k : Kind) (q : CtxId) (qi : Nat) : Bool :=
  (decide (W.root q = p) || (W.ctx (W.root q)).isInstantiated) && (W.slot q k qi).isSome &&
    ((W.ctx q).isInstantiated || decide ((W.ctx q).importCount k ≤ qi))

/-- an instantiation fails, and is never taken up again -/
def giveUp (p : CtxId) : World := W.set p fun x => { x with instantiateFailed := true }

/-- bind the import slot `i` of `c` to the slot `qi` of `q` (`wah_import_existing_table`,
`wah_import_existing_memory`, and `wah_bind_*_import_slot` with the chain followed). Pointer and size are copied
before the registrations in an owned context and after them in the primary; the answers are those of the allocator
where a list has to take `c` in. -/
def bindImport (c : CtxId) (k : Kind) (i : Nat) (q : CtxId) (qi : Nat) (registered gcRegistered : Bool) :
    Option World :=
  let p := W.root c
  if W.binding p && !(W.ctx c).isInstantiated && decide (i < (W.ctx c).importCount k) && W.provides p k q qi then
    match W.slot q k qi, W.followChain k reexportMaxDepth q qi with
    | some s, some (o, oi) =>
      let copy : Slot → Slot := fun t => { t with data := s.data, size := s.size, max := s.max }
      let mark : Slot → Slot := fun t => { t with isImported := true, importCtx := some o, importIdx := oi }
      let half := W.setSlot c k i (if c = p then mark else mark ∘ copy)
      if o = c then some (W.setSlot c k i (copy ∘ mark))
      else if c ∉ (W.ctx o).dependents ∧ registered = false then some (half.giveUp p)
      else if (W.ctx (W.root o)).gc.isSome ∧ c ∉ (W.ctx (W.root o)).gcDependents ∧ gcRegistered = false then
        some ((half.registerDependent o c).giveUp p)
      else some (((W.setSlot c k i (copy ∘ mark)).registerDependent o c).registerGcDependent o c)
    | _, _ => some (W.giveUp p)
  else none

/-- every import slot of `c` is bound -/
def allBound (c : CtxId) : Bool :=
  [Kind.memory, Kind.table].all fun k =>
    decide ((W.ctx c).importCount k ≤ ((W.ctx c).slots k).length) &&
      (((W.ctx c).slots k).take ((W.ctx c).importCount k)).all Slot.isImported

/-- the end of a round of `wah_finalize_owned_linked_contexts` -/
def finishOwned (c : CtxId) : Option World :=
  if W.binding (W.root c) && decide (W.root c ≠ c) && W.allBound c then
    some (W.set c fun x => { x.setBase with isInstantiated := true })
  else none

/-- all imports are bound: references may be shared from here on, and code may run -/
def share (p : CtxId) : Option World :=
  if W.binding p && W.allBound p && (W.ctx p).linked.all (fun l => l.ctx.isSome) &&
      (W.owned p).all (fun c => (W.ctx c).isInstantiated) then
    some (W.set p fun x =>
      { (if 0 < x.importCount .memory then x.setBase else x) with mayShareRefs := true })
  else none

/-- `wah_instantiate` returns `WAH_OK` -/
def finish (p : CtxId) : Option World :=
  if W.linkable p && (W.ctx p).mayShareRefs then some (W.set p fun x => { x with isInstantiated := true }) else none

/-- `wah_instantiate` fails, at any point -/
def fail (p : CtxId) : Option World :=
  if W.linkable p then some (W.giveUp p) else none

end World

/-! ## Growing -/

/-- what a grow by `delta` comes to: refuse it, leave the size, or a new size with the bytes to charge -/
inductive GrowPlan where
  | refuse
  | same
  | to (newSize deltaBytes : Nat)
deriving DecidableEq, Repr

/-- the checks on the sizes in `wah_memory_grow_internal` and `wah_table_grow_internal`, on 64-bit sizes -/
def Slot.growPlan (s : Slot) (delta : Nat) : Kind → GrowPlan
  | .memory =>
    let newPages := s.size / pageSize + delta
    if newPages ≥ 2 ^ 64 ∨ newPages > s.max ∨ newPages > (2 ^ 64 - 1) / pageSize then .refuse
    else if delta = 0 then .same
    else .to (newPages * pageSize) (newPages * pageSize - s.size)
  | .table =>
    let newSize := s.size + delta
    if newSize ≥ 2 ^ 64 ∨ newSize > s.max then .refuse
    else if delta = 0 then .same
    else if delta > (2 ^ 64 - 1) / valueSize ∨ newSize > (2 ^ 64 - 1) / valueSize then .refuse
    else .to newSize (delta * valueSize)

/-- the result of a successful grow: the old size in pages or elements -/
def Slot.oldSize (s : Slot) : Kind → Int
  | .memory => (s.size / pageSize : Nat)
  | .table => s.size

/-- what the new part of a memory or table is filled with -/
def Kind.fill : Kind → Cell → Cell
  | .memory, _ => 0
  | .table, v => v

/-- write pointer and size into a slot that is no alias, and into the view of memory 0 -/
def LinkCtx.storeSlot (k : Kind) (i : Nat) (data : Ptr) (size : Nat) (c : LinkCtx) : LinkCtx :=
  let c' := { c with slots := Function.update c.slots k ((c.slots k).modify i fun t => { t with data := data, size := size }) }
  if k = .memory ∧ i = 0 then c'.setBase else c'

/-- take over pointer and size of the owner slot `(o, oi)` in every import slot of it, except `exclude` -/
def aliasSlots (exclude : Option Nat) (o : CtxId) (oi : Nat) (data : Ptr) (size : Nat) (l : List Slot) : List Slot :=
  l.mapIdx fun j t => if exclude ≠ some j ∧ t.target = some (o, oi) then { t with data := data, size := size } else t

/-- `wah_update_memory_import_aliases` and `wah_update_table_import_aliases` on one context -/
def LinkCtx.updateAliases (k : Kind) (exclude : Option Nat) (o : CtxId) (oi : Nat) (data : Ptr) (size : Nat)
    (c : LinkCtx) : LinkCtx :=
  let c' := { c with slots := Function.update c.slots k (aliasSlots exclude o oi data size (c.slots k)) }
  if k = .memory ∧ exclude ≠ some 0 ∧ ((c.slots .memory)[0]?).bind Slot.target = some (o, oi) then c'.setBase else c'

namespace World
variable (W : World)

/-- the contexts `wah_propagate_*_import_aliases` visits, in order -/
def aliasTargets (ctx fctx o : CtxId) : List CtxId :=
  (if ctx ≠ fctx then [ctx] else []) ++
  ((W.ctx ctx).linked.filterMap Link.ctx).filter (fun l => l ≠ fctx) ++
  ((W.ctx o).dependents.filter fun d => d ≠ ctx ∧ d ≠ fctx).flatMap (fun d =>
    d :: (W.owned d).filter fun l => l ≠ fctx) ++
  if o ≠ ctx then ((W.ctx o).linked.filterMap Link.ctx).filter (fun l => l ≠ ctx ∧ l ≠ fctx) else []

/-- the owner of slot `i` of `fctx`: an import names it -/
def ownerOf (fctx : CtxId) (s : Slot) (i : Nat) : CtxId × Nat := s.target.getD (fctx, i)

/-- a grow of slot `s = (fctx, i)` to `newSize` at the pointer `data`: the slot, the owner's slot, the other slots of
`fctx` and of the owner, then everything the propagation visits. The view of memory 0 in `fctx` is set last in the
source; nothing reads it before. -/
def growTo (ctx fctx : CtxId) (k : Kind) (i : Nat) (s : Slot) (newSize deltaBytes : Nat) (data : Ptr) (fill : Cell) :
    World :=
  let (o, oi) := ownerOf fctx s i
  let W1 := { W with buf := Function.update W.buf data fun n => if n < s.size then W.buf s.data n else fill }
  let W2 := W1.set fctx (LinkCtx.storeSlot k i data newSize)
  let W3 := W2.set (W.root o) fun x => { x with budget := x.budget.charge deltaBytes }
  let W4 := if s.target.isSome then
      (W3.set o (LinkCtx.storeSlot k oi data newSize)).set fctx (LinkCtx.updateAliases k (some i) o oi data newSize)
    else W3
  let W5 := W4.set o (LinkCtx.updateAliases k none o oi data newSize)
  (W.aliasTargets ctx fctx o).foldl (fun V t => V.set t (LinkCtx.updateAliases k none o oi data newSize)) W5

/-- `wah_memory_grow_internal` and `wah_table_grow_internal` with the answer of the allocator; the result is the old
size in pages or elements, or -1 -/
def grow (ctx fctx : CtxId) (k : Kind) (i delta : Nat) (fill : Cell) (alloc : Option Ptr) : Option (Int × World) :=
  match W.slot fctx k i with
  | none => none
  | some s =>
    match s.growPlan delta k with
    | .refuse => some (-1, W)
    | .same => some (s.oldSize k, W)
    | .to newSize deltaBytes =>
      if !(W.ctx (W.root (ownerOf fctx s i).1)).budget.check deltaBytes then some (-1, W)
      else
        match alloc with
        | none => some (-1, W)
        | some data =>
          some (s.oldSize k, W.growTo ctx fctx k i s newSize deltaBytes data (k.fill fill))

end World

/-! ## Runs -/

/-- the operations of a program with its host; answers of allocators and of name resolution are part of them -/
inductive ShareOp where
  | newContext (c : CtxId) (spec : ModuleSpec) (limit : UInt64)
  | linkModule (p : CtxId)
  | linkContext (p q : CtxId) (registered : Bool)
  | createOwned (p : CtxId) (j : Nat) (c : CtxId) (spec : ModuleSpec)
  | bindImport (c : CtxId) (k : Kind) (i : Nat) (q : CtxId) (qi : Nat) (registered gcRegistered : Bool)
  | finishOwned (c : CtxId)
  | share (p : CtxId)
  | finish (p : CtxId)
  | fail (p : CtxId)
  | grow (ctx fctx : CtxId) (k : Kind) (i delta : Nat) (fill : Cell) (alloc : Option Ptr)
  | write (c : CtxId) (k : Kind) (i n : Nat) (v : Cell)
  | gcStart (p : CtxId)
  | gcAlloc (c : CtxId) (mod : Option ModuleId) (reprId : Int) (payload : Nat) (fresh : Option Addr)
  | gcAllocException (c : CtxId) (valueCount : Nat) (fresh : Option Addr)
  | collect (c : CtxId) (marked : Addr → Bool)
  | sweepExceptions (c : CtxId) (marked : Addr → Bool)
  | setLimits (p : CtxId) (maxBytes : UInt64)

namespace World
variable (W : World)

/-- an operation on the heap of `c`, which owned contexts share with their primary: the new store, heap and budget, if
it does something -/
def onHeap (c : CtxId) (f : GcState → Budget → Option (Store × GcState × Budget)) : World :=
  match (W.ctx (W.root c)).gc with
  | none => W
  | some g =>
    match f g (W.ctx (W.root c)).budget with
    | none => W
    | some (S, g', b') => { W.set (W.root c) (fun x => { x with gc := some g', budget := b' }) with store := S }

/-- a store or `table.set` to cell `n` of slot `i`, if it is in bounds -/
def write (c : CtxId) (k : Kind) (i n : Nat) (v : Cell) : World :=
  match W.slot c k i with
  | none => W
  | some s =>
    if n < s.size then { W with buf := Function.update W.buf s.data (Function.update (W.buf s.data) n v) } else W

/-- `wah_set_limits` on the memory limit: a limit below what is committed is refused -/
def setLimits (p : CtxId) (maxBytes : UInt64) : World :=
  if maxBytes.toNat < (W.ctx p).budget.committed then W
  else W.set p fun x => { x with budget := { x.budget with maxBytes := limitBytes maxBytes } }

/-- one operation; none when the state does not allow it. Code runs in contexts whose imports are bound. -/
def step : ShareOp → Option World
  | .newContext c spec limit => W.newContext c spec limit
  | .linkModule p => W.linkModule p
  | .linkContext p q registered => W.linkContext p q registered
  | .createOwned p j c spec => W.createOwned p j c spec
  | .bindImport c k i q qi registered gcRegistered => W.bindImport c k i q qi registered gcRegistered
  | .finishOwned c => W.finishOwned c
  | .share p => W.share p
  | .finish p => W.finish p
  | .fail p => W.fail p
  | .grow ctx fctx k i delta fill alloc =>
    if (W.ctx (W.root fctx)).mayShareRefs then (W.grow ctx fctx k i delta fill alloc).map Prod.snd else none
  | .write c k i n v => if (W.ctx (W.root c)).mayShareRefs then some (W.write c k i n v) else none
  | .gcStart p =>
    if (W.ctx p).created && (W.ctx p).budgetCtx.isNone then
      some (if (W.ctx p).gc.isSome then W else W.set p fun x => { x with gc := some {} })
    else none
  | .gcAlloc c mod reprId payload fresh =>
    if reprId = reprExn then none
    else some (W.onHeap c fun g b => (Wah.gcAlloc W.store g b mod reprId payload fresh).map Prod.snd)
  | .gcAllocException c n fresh =>
    some (W.onHeap c fun g b => (Wah.gcAllocException W.store g b n fresh).map Prod.snd)
  | .collect c marked => some (W.onHeap c fun g b => some (W.store, stepSweep W.store marked g b))
  | .sweepExceptions c marked => some (W.onHeap c fun g b => some (W.store, Wah.sweepExceptions W.store marked g b))
  | .setLimits p m => if (W.ctx p).created && (W.ctx p).budgetCtx.isNone then some (W.setLimits p m) else none

/-- the instantiation of `c`, or of its primary, failed before all imports were bound -/
def Abandoned (c : CtxId) : Prop :=
  (W.ctx (W.root c)).instantiateFailed = true ∧ (W.ctx (W.root c)).mayShareRefs = false

/-- `o` and the heap it uses have `c` among their dependents -/
def Registered (o c : CtxId) : Prop :=
  c ∈ (W.ctx o).dependents ∧
    ((W.ctx (W.root o)).gc.isSome = true → c ∈ (W.ctx (W.root o)).gcDependents)

/-- the owner slot `t` names, if any, belongs to `c` itself or to a context `c` is registered with -/
def Knows (c : CtxId) (t : Slot) : Prop := ∀ o oi, t.target = some (o, oi) → c = o ∨ W.Registered o c

/-- an instantiation got as far as creating `c` or binding its memory 0, but not to the point where code may run -/
def Unfinished (c : CtxId) : Prop :=
  (W.ctx (W.root c)).mayShareRefs = false ∧
    ((W.ctx c).budgetCtx.isSome = true ∨ ∃ s, W.slot c .memory 0 = some s ∧ s.isImported = true)

/-- the allocators answer with memory that is not in use; a grow may get its old memory back -/
def Fresh : ShareOp → Prop
  | .grow _ fctx k i _ _ (some data) =>
    ∀ s, W.slot fctx k i = some s → ∀ c k' j t, ¬ W.Abandoned c → W.slot c k' j = some t → t.data = data →
      k' = k ∧ ownerOf c t j = ownerOf fctx s i
  | .gcAlloc _ _ _ _ (some a) | .gcAllocException _ _ (some a) =>
    ∀ p g, (W.ctx p).gc = some g → a ∉ g.allObjects
  | _ => True

/-- no context at all -/
def empty : World := ⟨fun _ => {}, fun _ _ => 0, ⟨fun _ => { reprId := 0, sizeBytes := 0 }, fun _ => []⟩⟩

/-- the worlds reached by a sequence of operations -/
inductive Reached : World → Prop where
  | start : Reached empty
  | step {W W' : World} {op : ShareOp} (h : Reached W) (hf : W.Fresh op) (hs : W.step op = some W') : Reached W'

end World

end Wah
