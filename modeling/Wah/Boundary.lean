/-
References that cross the host boundary: parameters given by the host, results of host functions, pins and host objects.

Model:
- the heap maps addresses to the headers of live objects and to functions. Wasm code runs outside: it may allocate any
  object, and what it passes to a host function or returns is of the types declared there, as validation promises;
- the host runs any sequence of the operations of its interface (`HostOp`): it allocates host objects, pins and releases
  references of any context, starts functions with any words as parameters, and inside host functions pins parameters
  and sets results, in any nesting of calls and contexts;
- a collection frees any objects but those the collector visits as roots here: pinned values, and the parameters and
  results of host functions in progress and of finished activations;
- bare host pointers come from `wah_gc_alloc_host` (`Allowed`), which the source cannot check.

Results, in every state such a run reaches, when no pin takes a slot released as many times as there are generations:
- `references_keep_types`: every reference that enters wasm as a parameter or as a result of a host function is null of
  a nullable type or a value whose dynamic type belongs to the declared type; sanitized references, released handles and
  handles of incompatible types are rejected;
- `stale_handle_accepted`: past that many releases of a slot, a released handle is accepted again.
-/
import Wah.Pins
import Wah.TypeMeaning
import Wah.Sharing

namespace Wah

/-! ## Values, objects and their types -/

/-- `wah_value_t` in wasm: a number, or a reference -/
inductive WVal where
  | num (bits : Nat)
  | ref (r : Ref)
deriving DecidableEq, Repr

/-- a value of zeroed memory, read at a type -/
def zeroVal (t : Ty) : WVal := if t.isRef then .ref .null else .num 0

/-- what an address holds: an object with its header, or a function -/
inductive HeapCell where
  | object (reprId : Int) (mod : Option ModuleId)
  | func (f : Function)
deriving DecidableEq, Repr

/-- a host object of `wah_gc_alloc_host` -/
def hostCell : HeapCell := .object reprHost none

abbrev HostHeap := Addr → Option HeapCell

/-- the dynamic type an address holds, from the header of the object or the function there -/
def HeapCell.dynType (modules : ModuleId → LinkModule) : HeapCell → Option DynType
  | .object reprId mod =>
    if reprId = reprHost then some .host
    else if reprId = reprExn then some .exn
    else if reprId < 0 then none
    else mod.bind fun m => ((modules m).reprs[reprId.toNat]?).map fun p => .object (m, p.2)
  | .func f =>
    f.fnModule.bind fun m =>
      match f.impl with
      | .host params results => some (.hostFunc m params results)
      | .wasm i => ((modules m).functionTypeIndices[i]?).map fun t => .func (m, t)

/-- the dynamic type of a reference -/
def dynType (modules : ModuleId → LinkModule) (heap : HostHeap) : Ref → Option DynType
  | .null => none
  | .i31 _ => some .i31
  | .obj a => (heap a).bind (HeapCell.dynType modules)

/-- a reference that is not null and belongs to a heap type of a module -/
def HasType (modules : ModuleId → LinkModule) (heap : HostHeap) (m : ModuleId) (x : HeapTy) (r : Ref) : Prop :=
  ∃ d, dynType modules heap r = some d ∧ d.Belongs modules m x

/-- a value of a declared type -/
def Typed (modules : ModuleId → LinkModule) (heap : HostHeap) (m : ModuleId) : Ty → WVal → Prop
  | .ref n x, .ref r => (r = .null ∧ n = true) ∨ HasType modules heap m x r
  | .ref _ _, .num _ => False
  | _, .num _ => True
  | _, .ref _ => False

/-- a value of a declared type, or null of any reference type -/
def TypedOrNull (modules : ModuleId → LinkModule) (heap : HostHeap) (m : ModuleId) (t : Ty) (v : WVal) : Prop :=
  (t.isRef = true ∧ v = .ref .null) ∨ Typed modules heap m t v

/-! ## What the host gives -/

/-- `wah_host_object_accepts` -/
def hostObjectAccepts (type : Ty) : Bool :=
  decide (type.asNonNull = .ref false (.abs .externRef)) || decide (type.asNonNull = .ref false (.abs .any))

section
variable (w : PtrWidth) (modules : ModuleId → LinkModule)

/-- `wah_pin_accepts` -/
def pinAccepts (s : PinSlot) (m : ModuleId) (type : Ty) : Bool :=
  match s.module with
  | none => hostObjectAccepts type
  | some m' => crossModuleSubtype (pairOf modules m' m) s.type type

/-- `(void *)(~(uintptr_t)0)` -/
def sanitizedWord : Nat := 2 ^ (2 + w.slotBits + w.genBits) - 1

/-- `wah_sanitize_host_ref`; an address is its own word -/
def sanitizeHostRef (heap : HostHeap) : Ref → Nat
  | .null => 0
  | .i31 _ => sanitizedWord w
  | .obj a => if heap a = some hostCell then a else sanitizedWord w

/-- one parameter of `wah_load_host_params`, of a declared type of the module -/
def loadHostParam (t : PinTable) (m : ModuleId) (type : Ty) (word : Nat) : Except ApiError WVal :=
  if !type.isRef then .ok (.num word)
  else if word = 0 then if type.isNullable then .ok (.ref .null) else .error .misuse
  else if word % 2 = 1 then .error .misuse
  else if word % 4 = pinTag then
    match t.pinnedSlot w word with
    | none => .error .misuse
    | some (_, s) => if pinAccepts modules s m type then .ok (.ref s.value) else .error .misuse
  else if hostObjectAccepts type then .ok (.ref (.obj word))
  else .error .misuse

/-- `wah_load_host_params` -/
def loadHostParams (t : PinTable) (m : ModuleId) : List Ty → List Nat → Except ApiError (List WVal)
  | type :: types, word :: words => do
    let v ← loadHostParam w modules t m type word
    let vs ← loadHostParams t m types words
    pure (v :: vs)
  | _, _ => pure []

/-! ## Host functions -/

/-- `wah_function_t` of a host function, with the context it was linked into -/
structure HostFn where
  fnCtx : Option CtxId
  fnModule : ModuleId
  paramTypes : List Ty
  resultTypes : List Ty
deriving DecidableEq, Repr

/-- `wah_call_context_t` with its parameters and results -/
structure HostCall where
  pinCtx : CtxId
  module : ModuleId
  paramTypes : List Ty
  resultTypes : List Ty
  params : List WVal
  results : List WVal
  trapReason : Option ApiError := none
deriving DecidableEq, Repr

/-- the call context of `wah_call_host_function_internal`, over zeroed results; `owner` is `wah_budget_owner` -/
def HostCall.enter (owner : CtxId → CtxId) (exec : CtxId) (f : HostFn) (params : List WVal) : HostCall where
  pinCtx := (f.fnCtx.map owner).getD exec
  module := f.fnModule
  paramTypes := f.paramTypes
  resultTypes := f.resultTypes
  params := params
  results := f.resultTypes.map zeroVal

/-- set the trap reason unless there is one, as `wah_trap` does -/
def HostCall.fail (c : HostCall) (e : ApiError) : HostCall := { c with trapReason := some (c.trapReason.getD e) }

/-- `wah_call_misuse` -/
def HostCall.misuse (c : HostCall) : HostCall := c.fail .misuse

/-- store a reference result -/
def HostCall.setResult (c : HostCall) (i : Nat) (v : WVal) : HostCall := { c with results := c.results.set i v }

/-- `wah_result_ref`, for an index of a reference result -/
def HostCall.resultRef (t : PinTable) (c : HostCall) (i word : Nat) : HostCall :=
  let type := (c.resultTypes[i]?).getD .bot
  if word % 2 = 1 then c.misuse
  else if word % 4 = pinTag then
    match t.pinnedSlot w word with
    | none => c.misuse
    | some (_, s) => if pinAccepts modules s c.module type then c.setResult i (.ref s.value) else c.misuse
  else if word = 0 then c.setResult i (.ref .null)
  else if hostObjectAccepts type then c.setResult i (.ref (.obj word))
  else c.misuse

/-- a result that `wah_call_host_function_internal` lets through: no null of a non-nullable type -/
def resultAllowed (type : Ty) (v : WVal) : Bool := !type.isRef || decide (v ≠ .ref .null) || type.isNullable

/-- the end of `wah_call_host_function_internal`: what the caller gets -/
def HostCall.return (c : HostCall) : Except ApiError (List WVal) :=
  match c.trapReason with
  | some e => .error e
  | none => if (List.zipWith resultAllowed c.resultTypes c.results).all id then .ok c.results else .error .misuse

end

/-! ## Runs -/

/-- the results of a finished activation on its stack, and what `wah_finish_internal` has copied of them -/
structure Finished where
  module : ModuleId
  types : List Ty
  values : List WVal
  out : List Nat := []
deriving DecidableEq, Repr

/-- the heap, the pins of every context, the host functions in progress (innermost first) and finished activations -/
structure HostState where
  heap : HostHeap
  pins : CtxId → Pins
  calls : List HostCall
  finished : CtxId → Option Finished

/-- what the host and the code it runs may do; host functions in progress are named by their position -/
inductive HostOp where
  /-- an allocation by wasm code, by `wah_gc_alloc_host` or by instantiation -/
  | alloc (a : Addr) (cell : HeapCell)
  /-- a collection that frees these objects -/
  | collect (dead : List Addr)
  /-- `wah_pin_ref` -/
  | pinRef (c : CtxId) (word : Nat) (memory : Bool)
  /-- `wah_unpin_ref` -/
  | unpinRef (c : CtxId) (word : Nat)
  /-- `wah_start` or `wah_call*` of a wasm function, of these parameter types of the module -/
  | start (c : CtxId) (m : ModuleId) (types : List Ty) (words : List Nat)
  /-- `wah_start` or `wah_call*` of a host function -/
  | startHost (c : CtxId) (f : HostFn) (words : List Nat)
  /-- a call of a host function by wasm code that runs in `exec` -/
  | callHost (exec : CtxId) (f : HostFn) (args : List WVal)
  /-- `wah_param_pinned_ref` -/
  | paramPinned (call i : Nat) (memory : Bool)
  /-- `wah_result_ref` -/
  | resultRef (call i word : Nat)
  /-- `wah_result_i32` and so on -/
  | resultNum (call i bits : Nat)
  /-- `wah_unpin_ref_from_host` -/
  | unpinFromHost (call word : Nat)
  /-- `wah_trap` -/
  | trap (call : Nat) (reason : ApiError)
  /-- the innermost host function returns, to wasm code or as the entry function of an activation -/
  | returnHost (activation : Option CtxId)
  /-- the wasm entry function of an activation returns -/
  | activationDone (c : CtxId) (m : ModuleId) (types : List Ty) (values : List WVal)
  /-- one result of `wah_finish_pin`, or of `wah_finish` -/
  | finishResult (c : CtxId) (pin memory : Bool)
  | finishEnd (c : CtxId)

namespace HostState

section
variable (w : PtrWidth) (modules : ModuleId → LinkModule) (owner : CtxId → CtxId)

/-- `wah_pin` into the table of a context -/
def pinIn (s : HostState) (c : CtxId) (value : Ref) (module : Option ModuleId) (type : Ty) (memory : Bool) :
    Except ApiError (HostState × Nat) :=
  ((s.pins c).pin w value module type memory).map fun (p, h) => ({ s with pins := Function.update s.pins c p }, h)

/-- `wah_unpin` in the table of a context; the state is unchanged when the reference is not pinned there -/
def unpinIn (s : HostState) (c : CtxId) (word : Nat) : HostState :=
  match (s.pins c).unpin w word with
  | none => s
  | some p => { s with pins := Function.update s.pins c p }

/-- change a host function in progress -/
def modifyCall (s : HostState) (call : Nat) (f : HostCall → HostCall) : HostState :=
  { s with calls := s.calls.modify call f }

def setFinished (s : HostState) (c : CtxId) (f : Option Finished) : HostState :=
  { s with finished := Function.update s.finished c f }

/-- the handles that `wah_finish_internal` releases when a later pin fails: reference results, from the last one on -/
def rollback (s : HostState) (c : CtxId) (f : Finished) : HostState :=
  (((f.types.zip f.out).filter fun p => p.1.isRef).reverse.map Prod.snd).foldl (fun s h => s.unpinIn w c h) s

/-- one iteration of the loop of `wah_finish_internal` -/
def finishResult (s : HostState) (c : CtxId) (f : Finished) (pin memory : Bool) : HostState :=
  match f.types[f.out.length]?, f.values[f.out.length]? with
  | some type, some (.ref r) =>
    if r = .null then s.setFinished c (some { f with out := f.out ++ [0] })
    else if pin then
      match s.pinIn w c r (some f.module) type.asNonNull memory with
      | .ok (s', h) => s'.setFinished c (some { f with out := f.out ++ [h] })
      | .error _ => (s.rollback w c f).setFinished c none
    else s.setFinished c (some { f with out := f.out ++ [sanitizeHostRef w s.heap r] })
  | some _, some (.num bits) => s.setFinished c (some { f with out := f.out ++ [bits] })
  | _, _ => s.setFinished c none

/-- the state after an operation; one that is rejected changes nothing but the trap reason of its host call -/
def apply (s : HostState) : HostOp → HostState
  | .alloc a cell => { s with heap := Function.update s.heap a (some cell) }
  | .collect dead => { s with heap := fun a => if a ∈ dead then none else s.heap a }
  | .pinRef c word memory =>
    if word ≠ 0 ∧ word % 4 = 0 ∧ s.heap word = some hostCell then
      match s.pinIn w c (.obj word) none (.ref false (.abs .any)) memory with
      | .ok (s', _) => s'
      | .error _ => s
    else s
  | .unpinRef c word => s.unpinIn w c word
  | .start _ _ _ _ => s
  | .startHost c f words =>
    match loadHostParams w modules (s.pins c).table f.fnModule f.paramTypes words with
    | .ok params => { s with calls := HostCall.enter owner c f params :: s.calls }
    | .error _ => s
  | .callHost exec f args => { s with calls := HostCall.enter owner exec f args :: s.calls }
  | .paramPinned call i memory =>
    match s.calls[call]? with
    | none => s
    | some c =>
      match c.params[i]?, c.paramTypes[i]? with
      | some (.ref r), some type =>
        if r = .null then s
        else
          match s.pinIn w c.pinCtx r (some c.module) type.asNonNull memory with
          | .ok (s', _) => s'
          | .error e => s.modifyCall call (HostCall.fail · e)
      | _, _ => s
  | .resultRef call i word => s.modifyCall call fun c => c.resultRef w modules (s.pins c.pinCtx).table i word
  | .resultNum call i bits => s.modifyCall call fun c => c.setResult i (.num bits)
  | .unpinFromHost call word =>
    match s.calls[call]? with
    | none => s
    | some c =>
      if ((s.pins c.pinCtx).unpin w word).isSome then s.unpinIn w c.pinCtx word else s.modifyCall call HostCall.misuse
  | .trap call reason => s.modifyCall call (HostCall.fail · reason)
  | .returnHost activation =>
    match s.calls with
    | [] => s
    | c :: rest =>
      match c.return, activation with
      | .ok results, some a => setFinished { s with calls := rest } a (some ⟨c.module, c.resultTypes, results, []⟩)
      | _, _ => { s with calls := rest }
  | .activationDone c m types values => s.setFinished c (some ⟨m, types, values, []⟩)
  | .finishResult c pin memory =>
    match s.finished c with
    | none => s
    | some f => s.finishResult w c f pin memory
  | .finishEnd c => s.setFinished c none

/-- the objects the collector visits as roots: pinned values, and the values of host functions in progress and of
finished activations -/
def Rooted (s : HostState) (a : Addr) : Prop :=
  (∃ c, ∃ slot ∈ (s.pins c).table.slots, slot.value = .obj a) ∨
    (∃ call ∈ s.calls, .ref (.obj a) ∈ call.params ++ call.results) ∨
    ∃ c f, s.finished c = some f ∧ .ref (.obj a) ∈ f.values

/-- a bare pointer the host gives for a reference is one of `wah_gc_alloc_host` -/
def BareOk (s : HostState) (type : Ty) (word : Nat) : Prop :=
  type.isRef = true → word ≠ 0 → word % 4 = 0 → s.heap word = some hostCell

/-- the types of a host function are types of its module -/
def DeclaredFn (f : HostFn) : Prop := ∀ t ∈ f.paramTypes ++ f.resultTypes, t.Declared modules f.fnModule

/-- what an operation relies on: the allocator and the collector, validated wasm code, and the host's own promise about
its pointers and about the functions and results it names -/
def Allowed (s : HostState) : HostOp → Prop
  | .alloc a cell => s.heap a = none ∧ ∃ d, cell.dynType modules = some d ∧ d.Valid modules
  | .collect dead => ∀ a ∈ dead, ¬ s.Rooted a
  | .pinRef _ word _ => s.BareOk (.ref false (.abs .any)) word
  | .start _ m types words => (∀ t ∈ types, t.Declared modules m) ∧ List.Forall₂ s.BareOk types words
  | .startHost _ f words => DeclaredFn modules f ∧ List.Forall₂ s.BareOk f.paramTypes words
  | .callHost _ f args => DeclaredFn modules f ∧ List.Forall₂ (Typed modules s.heap f.fnModule) f.paramTypes args
  | .resultRef call i word => ∀ c, s.calls[call]? = some c → ∃ type, c.resultTypes[i]? = some type ∧
      type.isRef = true ∧ s.BareOk type word
  | .resultNum call i _ => ∀ c, s.calls[call]? = some c → ∃ type, c.resultTypes[i]? = some type ∧ type.isRef = false
  | .activationDone _ m types values => (∀ t ∈ types, t.Declared modules m) ∧
      List.Forall₂ (Typed modules s.heap m) types values
  | _ => True

/-- the context whose table an operation pins into, when it pins -/
def pinTarget (s : HostState) : HostOp → Option CtxId
  | .pinRef c word _ => if word ≠ 0 ∧ word % 4 = 0 ∧ s.heap word = some hostCell then some c else none
  | .paramPinned call i _ =>
    (s.calls[call]?).bind fun c =>
      match c.params[i]? with
      | some (.ref r) => if r = .null then none else some c.pinCtx
      | _ => none
  | .finishResult c pin _ =>
    (s.finished c).bind fun f =>
      match f.values[f.out.length]? with
      | some (.ref r) => if pin ∧ r ≠ .null then some c else none
      | _ => none
  | _ => none

/-- an operation that pins takes a slot that was not yet released as many times as there are generations -/
def TakesFresh (s : HostState) (op : HostOp) : Prop :=
  ∀ c, s.pinTarget op = some c → (s.pins c).releases w (s.pins c).table.nextSlot < w.generations

/-- nothing allocated, pinned or running -/
def init : HostState := ⟨fun _ => none, fun _ => {}, [], fun _ => none⟩

/-- the states of runs whose operations all meet a condition -/
inductive Reached (cond : HostState → HostOp → Prop) : HostState → Prop where
  | init : Reached cond init
  | step {s : HostState} (op : HostOp) (hs : Reached cond s) (ha : s.Allowed modules op) (hc : cond s op) :
    Reached cond (s.apply w modules owner op)

end

/-! ## The invariant -/

section
variable (w : PtrWidth) (modules : ModuleId → LinkModule)

/-- every live cell has a valid dynamic type -/
def CellsValid (heap : HostHeap) : Prop :=
  ∀ a cell, heap a = some cell → ∃ d, cell.dynType modules = some d ∧ d.Valid modules

/-- the value of a slot in use is of the type of the slot -/
def SlotTyped (heap : HostHeap) (slot : PinSlot) : Prop :=
  match slot.module with
  | none => ∃ a, slot.value = .obj a ∧ heap a = some hostCell
  | some m => ∃ x, slot.type = .ref false x ∧ x.Declared modules m ∧ HasType modules heap m x slot.value

/-- all slots in use of a table -/
def TableTyped (heap : HostHeap) (t : PinTable) : Prop :=
  ∀ slot ∈ t.slots, slot.value ≠ .null → SlotTyped modules heap slot

/-- the parameters of a host function in progress are of their types, and its results too or null -/
structure CallTyped (heap : HostHeap) (c : HostCall) : Prop where
  declared : ∀ t ∈ c.paramTypes ++ c.resultTypes, t.Declared modules c.module
  params : List.Forall₂ (Typed modules heap c.module) c.paramTypes c.params
  results : List.Forall₂ (TypedOrNull modules heap c.module) c.resultTypes c.results

structure FinishedTyped (heap : HostHeap) (f : Finished) : Prop where
  declared : ∀ t ∈ f.types, t.Declared modules f.module
  values : List.Forall₂ (Typed modules heap f.module) f.types f.values

/-- what every run keeps: every live cell has a valid dynamic type, and every value the host boundary remembers is of
the type it is remembered with -/
structure Inv (s : HostState) : Prop where
  pins : ∀ c, (s.pins c).Inv w
  cells : CellsValid modules s.heap
  slots : ∀ c, TableTyped modules s.heap (s.pins c).table
  calls : ∀ call ∈ s.calls, CallTyped modules s.heap call
  finished : ∀ c f, s.finished c = some f → FinishedTyped modules s.heap f

end

section
variable {w : PtrWidth} {modules : ModuleId → LinkModule} {heap heap' : HostHeap} {m : ModuleId}

/-! ## Typed values -/

/-- a host object is an externref and an anyref -/
theorem typed_of_hostObjectAccepts {type : Ty} {a : Addr} (h : hostObjectAccepts type = true)
    (ha : heap a = some hostCell) : Typed modules heap m type (.ref (.obj a)) := by
  have hdyn : dynType modules heap (.obj a) = some .host := by simp [dynType, ha, hostCell, HeapCell.dynType]
  unfold hostObjectAccepts at h
  cases type with
  | ref n x =>
    simp only [Ty.asNonNull_ref, Bool.or_eq_true, decide_eq_true_eq, Ty.ref.injEq, true_and] at h
    rcases h with rfl | rfl
    · exact Or.inr ⟨.host, hdyn, rfl⟩
    · exact Or.inr ⟨.host, hdyn, rfl⟩
  | _ => simp [Ty.asNonNull] at h

theorem dynType_valid {r : Ref} {d : DynType}
    (hcells : CellsValid modules heap)
    (hd : dynType modules heap r = some d) : d.Valid modules := by
  cases r with
  | null => cases hd
  | i31 n =>
    cases hd
    trivial
  | obj a =>
    obtain ⟨cell, hcell, hdyn⟩ := Option.bind_eq_some_iff.1 hd
    obtain ⟨d', hd', hvalid⟩ := hcells a cell hcell
    cases hdyn.symm.trans hd'
    exact hvalid

/-- the value of a slot is of every type the slot accepts -/
theorem typed_of_pinAccepts (hW : WellFormedModules modules) {slot : PinSlot} {type : Ty}
    (hcells : CellsValid modules heap)
    (hslot : SlotTyped modules heap slot) (htype : type.Declared modules m)
    (h : pinAccepts modules slot m type = true) : Typed modules heap m type (.ref slot.value) := by
  unfold SlotTyped at hslot
  unfold pinAccepts at h
  cases hmod : slot.module with
  | none =>
    simp only [hmod] at hslot h
    obtain ⟨a, hvalue, ha⟩ := hslot
    rw [hvalue]
    exact typed_of_hostObjectAccepts h ha
  | some m' =>
    simp only [hmod] at hslot h
    obtain ⟨x, htyp, hx, d, hd, hbelongs⟩ := hslot
    rw [htyp] at h
    have hsub := crossModuleSubtype_sound hW (a := .ref false x) hx htype h
    cases hsub with
    | ref hn hheap => exact Or.inr ⟨d, hd, hbelongs.sub hW (dynType_valid hcells hd) hx htype hheap⟩
    | num hnum => simp [Ty.isRef] at hnum

theorem typed_num {type : Ty} (h : type.isRef = false) (htype : type.Declared modules m) (bits : Nat) :
    Typed modules heap m type (.num bits) := by
  cases type with
  | ref n x => simp [Ty.isRef] at h
  | bot => exact htype.elim
  | _ => trivial

theorem typed_null {type : Ty} (h : type.isRef = true) (hnull : type.isNullable = true) :
    Typed modules heap m type (.ref .null) := by
  cases type with
  | ref n x => exact Or.inl ⟨rfl, hnull⟩
  | _ => simp [Ty.isRef] at h

theorem value_of_pinnedSlot {t : PinTable} {word k : Nat} {slot : PinSlot}
    (h : t.pinnedSlot w word = some (k, slot)) : slot ∈ t.slots ∧ slot.value ≠ .null := by
  obtain ⟨-, -, hget, hvalue⟩ := PinTable.pinnedSlot_eq_some.1 h
  exact ⟨List.mem_iff_getElem?.2 ⟨k, hget⟩, hvalue⟩

/-- **Parameters.** A parameter that is loaded is of its declared type. -/
theorem loadHostParam_typed (hW : WellFormedModules modules) {t : PinTable} {type : Ty} {word : Nat} {v : WVal}
    (hcells : CellsValid modules heap) (ht : TableTyped modules heap t) (htype : type.Declared modules m)
    (hbare : type.isRef = true → word ≠ 0 → word % 4 = 0 → heap word = some hostCell)
    (h : loadHostParam w modules t m type word = .ok v) : Typed modules heap m type v := by
  unfold loadHostParam at h
  split_ifs at h with href hzero hnull hodd htag hhost
  · cases h
    exact typed_num (by simpa using href) htype word
  · cases h
    exact typed_null (by simpa using href) hnull
  · split at h
    · cases h
    · rename_i k slot hslot
      split_ifs at h with hacc
      cases h
      obtain ⟨hmem, hvalue⟩ := value_of_pinnedSlot hslot
      exact typed_of_pinAccepts hW hcells (ht slot hmem hvalue) htype hacc
  · cases h
    apply typed_of_hostObjectAccepts hhost
    apply hbare (by simpa using href) hzero
    unfold pinTag at htag
    omega

theorem loadHostParams_typed (hW : WellFormedModules modules) {t : PinTable} {types : List Ty} {words : List Nat}
    {vs : List WVal} (hcells : CellsValid modules heap) (ht : TableTyped modules heap t)
    (htypes : ∀ type ∈ types, type.Declared modules m)
    (hbare : List.Forall₂ (fun type word => type.isRef = true → word ≠ 0 → word % 4 = 0 → heap word = some hostCell)
      types words)
    (h : loadHostParams w modules t m types words = .ok vs) : List.Forall₂ (Typed modules heap m) types vs := by
  induction hbare generalizing vs with
  | nil =>
    cases h
    exact .nil
  | @cons type word types words hword _ ih =>
    simp only [List.mem_cons, forall_eq_or_imp] at htypes
    simp only [loadHostParams] at h
    cases hv : loadHostParam w modules t m type word with
    | error e => simp [hv, bind, Except.bind] at h
    | ok v =>
      cases hvs : loadHostParams w modules t m types words with
      | error e => simp [hv, hvs, bind, Except.bind] at h
      | ok vs' =>
        simp only [hv, hvs, bind, Except.bind, pure, Except.pure, Except.ok.injEq] at h
        subst h
        exact .cons (loadHostParam_typed hW hcells ht htypes.1 hword hv) (ih htypes.2 hvs)

theorem forall₂_set {α β : Type*} {R : α → β → Prop} {as : List α} {bs : List β} {i : Nat} {a : α} {b : β}
    (h : List.Forall₂ R as bs) (hi : as[i]? = some a) (hab : R a b) : List.Forall₂ R as (bs.set i b) := by
  induction h generalizing i with
  | nil => simp at hi
  | cons hab' hrest ih =>
    cases i with
    | zero =>
      obtain rfl : _ = a := by simpa using hi
      exact .cons hab hrest
    | succ i => exact .cons hab' (ih (by simpa using hi))

theorem CallTyped.fail {c : HostCall} (hc : CallTyped modules heap c) (e : ApiError) :
    CallTyped modules heap (c.fail e) := ⟨hc.declared, hc.params, hc.results⟩

theorem CallTyped.setResult {c : HostCall} {i : Nat} {type : Ty} {v : WVal} (hc : CallTyped modules heap c)
    (hi : c.resultTypes[i]? = some type) (hv : TypedOrNull modules heap c.module type v) :
    CallTyped modules heap (c.setResult i v) := ⟨hc.declared, hc.params, forall₂_set hc.results hi hv⟩

/-- **Results.** Whatever the host sets or fails to set, the results stay of their declared types or null. -/
theorem CallTyped.resultRef (hW : WellFormedModules modules) {t : PinTable} {c : HostCall} {i word : Nat} {type : Ty}
    (hcells : CellsValid modules heap) (ht : TableTyped modules heap t) (hc : CallTyped modules heap c)
    (hi : c.resultTypes[i]? = some type) (href : type.isRef = true)
    (hbare : type.isRef = true → word ≠ 0 → word % 4 = 0 → heap word = some hostCell) :
    CallTyped modules heap (c.resultRef w modules t i word) := by
  have htype : type.Declared modules c.module :=
    hc.declared type (List.mem_append_right _ (List.mem_iff_getElem?.2 ⟨i, hi⟩))
  unfold HostCall.resultRef
  simp only [hi, Option.getD_some]
  split_ifs with hodd htag hzero hhost
  · exact hc.fail _
  · split
    · exact hc.fail _
    · rename_i k slot hslot
      split_ifs with hacc
      · obtain ⟨hmem, hvalue⟩ := value_of_pinnedSlot hslot
        exact hc.setResult hi (Or.inr (typed_of_pinAccepts hW hcells (ht slot hmem hvalue) htype hacc))
      · exact hc.fail _
  · exact hc.setResult hi (Or.inl ⟨href, rfl⟩)
  · refine hc.setResult hi (Or.inr (typed_of_hostObjectAccepts hhost (hbare href hzero ?_)))
    unfold pinTag at htag
    omega
  · exact hc.fail _

/-- a call that returns hands over results of their declared types: what was not set is null of a nullable type -/
theorem CallTyped.return {c : HostCall} {vs : List WVal} (hc : CallTyped modules heap c) (h : c.return = .ok vs) :
    List.Forall₂ (Typed modules heap c.module) c.resultTypes vs := by
  unfold HostCall.return at h
  split at h
  · cases h
  · split_ifs at h with hall
    cases h
    have hresults := hc.results
    generalize c.resultTypes = types, c.results = vs at hall hresults
    induction hresults with
    | nil => exact .nil
    | @cons type v types vs hv _ ih =>
      simp only [List.zipWith_cons_cons, List.all_cons, id, Bool.and_eq_true] at hall
      refine .cons ?_ (ih hall.2)
      rcases hv with ⟨href, rfl⟩ | hv
      · exact typed_null href (by simpa [resultAllowed, href] using hall.1)
      · exact hv

/-- a host function starts out with all reference results null -/
theorem CallTyped.enter {owner : CtxId → CtxId} {exec : CtxId} {f : HostFn} {params : List WVal}
    (hf : DeclaredFn modules f) (hparams : List.Forall₂ (Typed modules heap f.fnModule) f.paramTypes params) :
    CallTyped modules heap (HostCall.enter owner exec f params) := by
  refine ⟨hf, hparams, ?_⟩
  have hdecl : ∀ t ∈ f.resultTypes, t.Declared modules f.fnModule := fun t ht => hf t (List.mem_append_right _ ht)
  simp only [HostCall.enter]
  generalize f.resultTypes = types at hdecl
  induction types with
  | nil => exact .nil
  | cons type types ih =>
    simp only [List.mem_cons, forall_eq_or_imp] at hdecl
    refine .cons ?_ (ih hdecl.2)
    unfold zeroVal
    split_ifs with href
    · exact Or.inl ⟨href, rfl⟩
    · exact Or.inr (typed_num (by simpa using href) hdecl.1 0)

/-! ## What keeps values typed -/

/-- a live cell at an address stays -/
def Keeps (heap heap' : HostHeap) (a : Addr) : Prop := ∀ cell, heap a = some cell → heap' a = some cell

theorem hasType_keep {x : HeapTy} {r : Ref} (h : HasType modules heap m x r)
    (hk : ∀ a, r = .obj a → Keeps heap heap' a) : HasType modules heap' m x r := by
  obtain ⟨d, hd, hbelongs⟩ := h
  refine ⟨d, ?_, hbelongs⟩
  cases r with
  | null => cases hd
  | i31 n => exact hd
  | obj a =>
    obtain ⟨cell, hcell, hdyn⟩ := Option.bind_eq_some_iff.1 hd
    exact Option.bind_eq_some_iff.2 ⟨cell, hk a rfl cell hcell, hdyn⟩

theorem typed_keep {type : Ty} {v : WVal} (h : Typed modules heap m type v)
    (hk : ∀ a, v = .ref (.obj a) → Keeps heap heap' a) : Typed modules heap' m type v := by
  cases v with
  | num bits => cases type <;> exact h
  | ref r =>
    cases type with
    | ref n x =>
      rcases h with h | h
      · exact Or.inl h
      · exact Or.inr (hasType_keep h fun a ha => hk a (ha ▸ rfl))
    | _ => exact h

theorem forall₂_keep {P P' : Ty → WVal → Prop} {types : List Ty} {vs : List WVal} (h : List.Forall₂ P types vs)
    (hP : ∀ type v, v ∈ vs → P type v → P' type v) : List.Forall₂ P' types vs := by
  induction h with
  | nil => exact .nil
  | cons hv _ ih =>
    exact .cons (hP _ _ List.mem_cons_self hv) (ih fun type v hmem => hP type v (List.mem_cons_of_mem _ hmem))

theorem SlotTyped.keep {slot : PinSlot} (h : SlotTyped modules heap slot)
    (hk : ∀ a, slot.value = .obj a → Keeps heap heap' a) : SlotTyped modules heap' slot := by
  unfold SlotTyped at h ⊢
  cases hmod : slot.module with
  | none =>
    simp only [hmod] at h ⊢
    obtain ⟨a, hvalue, ha⟩ := h
    exact ⟨a, hvalue, hk a hvalue _ ha⟩
  | some m' =>
    simp only [hmod] at h ⊢
    obtain ⟨x, htype, hx, hval⟩ := h
    exact ⟨x, htype, hx, hasType_keep hval hk⟩

theorem CallTyped.keep {c : HostCall} (h : CallTyped modules heap c)
    (hk : ∀ a, .ref (.obj a) ∈ c.params ++ c.results → Keeps heap heap' a) : CallTyped modules heap' c := by
  refine ⟨h.declared, forall₂_keep h.params fun type v hv htyped => ?_,
    forall₂_keep h.results fun type v hv htyped => ?_⟩
  · exact typed_keep htyped fun a ha => hk a (List.mem_append_left _ (ha ▸ hv))
  · rcases htyped with hnull | htyped
    · exact Or.inl hnull
    · exact Or.inr (typed_keep htyped fun a ha => hk a (List.mem_append_right _ (ha ▸ hv)))

theorem FinishedTyped.keep {f : Finished} (h : FinishedTyped modules heap f)
    (hk : ∀ a, .ref (.obj a) ∈ f.values → Keeps heap heap' a) : FinishedTyped modules heap' f :=
  ⟨h.declared, forall₂_keep h.values fun _ _ hv htyped => typed_keep htyped fun a ha => hk a (ha ▸ hv)⟩

/-! ## Operations keep the invariant -/

variable {s s' : HostState} {c : CtxId}

/-- a heap that keeps the rooted cells -/
theorem Inv.withHeap (hs : s.Inv w modules) (hcells : CellsValid modules heap')
    (hk : ∀ a, s.Rooted a → Keeps s.heap heap' a) : Inv w modules { s with heap := heap' } where
  pins := hs.pins
  cells := hcells
  slots c slot hslot hvalue := (hs.slots c slot hslot hvalue).keep fun a ha => hk a (Or.inl ⟨c, slot, hslot, ha⟩)
  calls call hcall := (hs.calls call hcall).keep fun a ha => hk a (Or.inr (Or.inl ⟨call, hcall, ha⟩))
  finished c f hf := (hs.finished c f hf).keep fun a ha => hk a (Or.inr (Or.inr ⟨c, f, hf, ha⟩))

theorem Inv.alloc (hs : s.Inv w modules) {a : Addr} {cell : HeapCell} (hfree : s.heap a = none)
    (hcell : ∃ d, cell.dynType modules = some d ∧ d.Valid modules) :
    Inv w modules { s with heap := Function.update s.heap a (some cell) } := by
  apply hs.withHeap
  · intro b cell' hb
    by_cases hba : b = a
    · subst hba
      rw [Function.update_self] at hb
      cases hb
      exact hcell
    · rw [Function.update_of_ne hba] at hb
      exact hs.cells b cell' hb
  · intro b _ cell' hb
    have hba : b ≠ a := by
      rintro rfl
      rw [hfree] at hb
      cases hb
    rw [Function.update_of_ne hba]
    exact hb

theorem Inv.collect (hs : s.Inv w modules) {dead : List Addr} (hdead : ∀ a ∈ dead, ¬ s.Rooted a) :
    Inv w modules { s with heap := fun a => if a ∈ dead then none else s.heap a } := by
  apply hs.withHeap
  · intro a cell ha
    dsimp only at ha
    split_ifs at ha
    exact hs.cells a cell ha
  · intro a hroot cell ha
    dsimp only
    rw [if_neg fun hmem => hdead a hmem hroot]
    exact ha

theorem Inv.withPins (hs : s.Inv w modules) {p : Pins} (hp : p.Inv w) (ht : TableTyped modules s.heap p.table) :
    Inv w modules { s with pins := Function.update s.pins c p } where
  pins c' := by
    by_cases hc : c' = c
    · subst hc
      simpa using hp
    · simpa [hc] using hs.pins c'
  cells := hs.cells
  slots c' := by
    by_cases hc : c' = c
    · subst hc
      simpa using ht
    · simpa [hc] using hs.slots c'
  calls := hs.calls
  finished := hs.finished

theorem pinIn_eq_ok {value : Ref} {module : Option ModuleId} {type : Ty} {memory : Bool} {h : Nat}
    (hpin : s.pinIn w c value module type memory = .ok (s', h)) :
    ∃ p, (s.pins c).pin w value module type memory = .ok (p, h) ∧
      s' = { s with pins := Function.update s.pins c p } := by
  unfold pinIn at hpin
  cases hp : (s.pins c).pin w value module type memory with
  | error e => simp [hp, Except.map] at hpin
  | ok r =>
    obtain ⟨p, h'⟩ := r
    simp only [hp, Except.map, Except.ok.injEq, Prod.mk.injEq] at hpin
    obtain ⟨rfl, rfl⟩ := hpin
    exact ⟨p, rfl, rfl⟩

/-- a pin of a value of the type it is pinned with -/
theorem Inv.pinIn (hs : s.Inv w modules) {value : Ref} {module : Option ModuleId} {type : Ty} {memory : Bool} {h : Nat}
    (htyped : ∀ generation nextFree, SlotTyped modules s.heap ⟨value, module, type, generation, nextFree⟩)
    (hpin : s.pinIn w c value module type memory = .ok (s', h)) : s'.Inv w modules := by
  obtain ⟨p, hp, rfl⟩ := pinIn_eq_ok hpin
  apply hs.withPins ((hs.pins c).pin hp)
  obtain ⟨hp, -⟩ := Pins.pin_eq_ok.1 hp
  obtain ⟨-, hslots, -⟩ := PinTable.pin_spec (hs.pins c).freeHead hp
  intro slot hslot hvalue
  obtain ⟨k, hk⟩ := List.mem_iff_getElem?.1 hslot
  rw [hslots k] at hk
  split_ifs at hk with hkn
  · cases hk
    exact htyped _ _
  · exact hs.slots c slot (List.mem_iff_getElem?.2 ⟨k, hk⟩) hvalue

theorem Inv.unpinIn (hs : s.Inv w modules) (c : CtxId) (word : Nat) : (s.unpinIn w c word).Inv w modules := by
  unfold HostState.unpinIn
  cases hp : (s.pins c).unpin w word with
  | none => exact hs
  | some p =>
    apply hs.withPins ((hs.pins c).unpin hp)
    rcases Pins.unpin_spec hp with ⟨-, rfl⟩ | ⟨k, slot, -, rfl⟩
    · exact hs.slots c
    · intro slot' hslot' hvalue
      rcases List.mem_or_eq_of_mem_set hslot' with hmem | rfl
      · exact hs.slots c slot' hmem hvalue
      · exact absurd rfl hvalue

theorem Inv.modifyCall (hs : s.Inv w modules) {i : Nat} {f : HostCall → HostCall}
    (hf : ∀ call, s.calls[i]? = some call → CallTyped modules s.heap call → CallTyped modules s.heap (f call)) :
    (s.modifyCall i f).Inv w modules where
  pins := hs.pins
  cells := hs.cells
  slots := hs.slots
  calls call hcall := by
    obtain ⟨j, hj⟩ := List.mem_iff_getElem?.1 hcall
    simp only [HostState.modifyCall, List.getElem?_modify, Option.map_eq_map, Option.map_eq_some_iff] at hj
    obtain ⟨call', hcall', rfl⟩ := hj
    have htyped := hs.calls call' (List.mem_iff_getElem?.2 ⟨j, hcall'⟩)
    split_ifs with hij
    · subst hij
      exact hf call' hcall' htyped
    · exact htyped
  finished := hs.finished

theorem Inv.setFinished (hs : s.Inv w modules) {f : Option Finished}
    (hf : ∀ g, f = some g → FinishedTyped modules s.heap g) : (s.setFinished c f).Inv w modules where
  pins := hs.pins
  cells := hs.cells
  slots := hs.slots
  calls := hs.calls
  finished c' g hg := by
    by_cases hc : c' = c
    · subst hc
      exact hf g (by simpa [HostState.setFinished] using hg)
    · exact hs.finished c' g (by simpa [HostState.setFinished, hc] using hg)

theorem Inv.pushCall (hs : s.Inv w modules) {call : HostCall} (hcall : CallTyped modules s.heap call) :
    Inv w modules { s with calls := call :: s.calls } where
  pins := hs.pins
  cells := hs.cells
  slots := hs.slots
  calls call' h := by
    rcases List.mem_cons.1 h with rfl | h
    · exact hcall
    · exact hs.calls call' h
  finished := hs.finished

theorem Inv.rollback (hs : s.Inv w modules) (c : CtxId) (f : Finished) : (s.rollback w c f).Inv w modules := by
  unfold HostState.rollback
  generalize ((f.types.zip f.out).filter fun p => p.1.isRef).reverse.map Prod.snd = words
  induction words generalizing s with
  | nil => exact hs
  | cons word words ih => exact ih (hs.unpinIn c word)

theorem slotTyped_host {type : Ty} {a : Addr} (h : heap a = some hostCell) (generation nextFree : Nat) :
    SlotTyped modules heap ⟨.obj a, none, type, generation, nextFree⟩ := ⟨a, rfl, h⟩

/-- a typed value is of the slot it is pinned in: its declared type, not nullable -/
theorem slotTyped_of_typed {type : Ty} {r : Ref} (htype : type.Declared modules m)
    (h : Typed modules heap m type (.ref r)) (hr : r ≠ .null) (generation nextFree : Nat) :
    SlotTyped modules heap ⟨r, some m, type.asNonNull, generation, nextFree⟩ := by
  cases type with
  | ref n x =>
    rcases h with h | h
    · exact absurd h.1 hr
    · exact ⟨x, rfl, htype, h⟩
  | _ => exact h.elim

theorem forall₂_getElem? {α β : Type*} {R : α → β → Prop} {as : List α} {bs : List β} (h : List.Forall₂ R as bs)
    {i : Nat} {a : α} {b : β} (ha : as[i]? = some a) (hb : bs[i]? = some b) : R a b := by
  induction h generalizing i with
  | nil => simp at ha
  | cons hab _ ih =>
    cases i with
    | zero =>
      obtain rfl : _ = a := by simpa using ha
      obtain rfl : _ = b := by simpa using hb
      exact hab
    | succ i => exact ih (by simpa using ha) (by simpa using hb)

theorem Inv.finishResult (hs : s.Inv w modules) {f : Finished} (hf : FinishedTyped modules s.heap f)
    (pin memory : Bool) : (s.finishResult w c f pin memory).Inv w modules := by
  unfold HostState.finishResult
  split
  · rename_i type r htype hr
    have htyped := forall₂_getElem? hf.values htype hr
    have hdecl := hf.declared type (List.mem_iff_getElem?.2 ⟨_, htype⟩)
    split_ifs with hnull hpin
    · exact hs.setFinished fun g hg => by cases hg; exact ⟨hf.declared, hf.values⟩
    · split
      · rename_i s' h hs'
        have hinv := hs.pinIn (slotTyped_of_typed hdecl htyped hnull) hs'
        obtain ⟨p, -, rfl⟩ := pinIn_eq_ok hs'
        exact hinv.setFinished fun g hg => by cases hg; exact ⟨hf.declared, hf.values⟩
      · exact (hs.rollback c f).setFinished fun g hg => by cases hg
    · exact hs.setFinished fun g hg => by cases hg; exact ⟨hf.declared, hf.values⟩
  · exact hs.setFinished fun g hg => by cases hg; exact ⟨hf.declared, hf.values⟩
  · exact hs.setFinished fun g hg => by cases hg

/-- **One operation.** Whatever the host and the code it runs do, the invariant is kept. -/
theorem Inv.apply (hW : WellFormedModules modules) {owner : CtxId → CtxId} (hs : s.Inv w modules) {op : HostOp}
    (ha : s.Allowed modules op) : (s.apply w modules owner op).Inv w modules := by
  cases op with
  | alloc a cell => exact hs.alloc ha.1 ha.2
  | collect dead => exact hs.collect ha
  | pinRef c word memory =>
    simp only [HostState.apply]
    split_ifs with hhost
    · split
      · rename_i s' h hs'
        exact hs.pinIn (slotTyped_host hhost.2.2) hs'
      · exact hs
    · exact hs
  | unpinRef c word => exact hs.unpinIn c word
  | start c m types words => exact hs
  | startHost c f words =>
    simp only [HostState.apply]
    split
    · rename_i params hparams
      refine hs.pushCall (.enter ha.1 (loadHostParams_typed hW hs.cells (hs.slots c) ?_ ha.2 hparams))
      exact fun t ht => ha.1 t (List.mem_append_left _ ht)
    · exact hs
  | callHost exec f args => exact hs.pushCall (.enter ha.1 ha.2)
  | paramPinned call i memory =>
    simp only [HostState.apply]
    split
    · exact hs
    · rename_i c hc
      have hcall := hs.calls c (List.mem_iff_getElem?.2 ⟨call, hc⟩)
      split
      · rename_i r type hr htype
        have htyped := forall₂_getElem? hcall.params htype hr
        have hdecl := hcall.declared type (List.mem_append_left _ (List.mem_iff_getElem?.2 ⟨i, htype⟩))
        split_ifs with hnull
        · exact hs
        · split
          · rename_i s' h hs'
            exact hs.pinIn (slotTyped_of_typed hdecl htyped hnull) hs'
          · exact hs.modifyCall fun call' _ hcall' => hcall'.fail _
      · exact hs
  | resultRef call i word =>
    refine hs.modifyCall fun c hc hcall => ?_
    obtain ⟨type, htype, href, hbare⟩ := ha c hc
    exact hcall.resultRef hW hs.cells (hs.slots c.pinCtx) htype href hbare
  | resultNum call i bits =>
    refine hs.modifyCall fun c hc hcall => ?_
    obtain ⟨type, htype, hnum⟩ := ha c hc
    have hdecl := hcall.declared type (List.mem_append_right _ (List.mem_iff_getElem?.2 ⟨i, htype⟩))
    exact hcall.setResult htype (Or.inr (typed_num hnum hdecl bits))
  | unpinFromHost call word =>
    simp only [HostState.apply]
    split
    · exact hs
    · split_ifs
      · exact hs.unpinIn _ word
      · exact hs.modifyCall fun call' _ hcall' => hcall'.fail _
  | trap call reason => exact hs.modifyCall fun call' _ hcall' => hcall'.fail _
  | returnHost activation =>
    simp only [HostState.apply]
    split
    · exact hs
    · rename_i c rest hcalls
      have hrest : Inv w modules { s with calls := rest } :=
        ⟨hs.pins, hs.cells, hs.slots, fun call hcall => hs.calls call (hcalls ▸ List.mem_cons_of_mem _ hcall),
          hs.finished⟩
      split
      · rename_i results a hreturn
        have hcall := hs.calls c (hcalls ▸ List.mem_cons_self)
        refine hrest.setFinished fun g hg => ?_
        cases hg
        exact ⟨fun t ht => hcall.declared t (List.mem_append_right _ ht), hcall.return hreturn⟩
      · exact hrest
  | activationDone c m types values =>
    refine hs.setFinished fun g hg => ?_
    cases hg
    exact ⟨ha.1, ha.2⟩
  | finishResult c pin memory =>
    simp only [HostState.apply]
    split
    · exact hs
    · rename_i f hf
      exact hs.finishResult (hs.finished c f hf) pin memory
  | finishEnd c => exact hs.setFinished fun g hg => by cases hg

theorem Inv.init : HostState.init.Inv w modules :=
  ⟨fun _ => .empty, by simp [CellsValid, HostState.init], by simp [TableTyped, HostState.init],
    by simp [HostState.init], by simp [HostState.init]⟩

/-- **Every run.** -/
theorem Reached.inv (hW : WellFormedModules modules) {owner : CtxId → CtxId} {cond : HostState → HostOp → Prop}
    (h : Reached w modules owner cond s) : s.Inv w modules := by
  induction h with
  | init => exact Inv.init
  | step op _ ha _ ih => exact ih.apply hW ha

/-! ## Released handles -/

/-- in every context, no slot in use was released as many times as there are generations -/
def AllFresh (w : PtrWidth) (s : HostState) : Prop := ∀ c, (s.pins c).Fresh w

theorem AllFresh.withPins (hf : s.AllFresh w) {p : Pins} (hp : p.Fresh w) :
    AllFresh w { s with pins := Function.update s.pins c p } := by
  intro c'
  by_cases hc : c' = c
  · subst hc
    simpa using hp
  · simpa [hc] using hf c'

theorem AllFresh.pinIn (hf : s.AllFresh w) (hs : s.Inv w modules)
    (hnext : (s.pins c).releases w (s.pins c).table.nextSlot < w.generations) {value : Ref} {module : Option ModuleId}
    {type : Ty} {memory : Bool} {h : Nat} (hpin : s.pinIn w c value module type memory = .ok (s', h)) :
    s'.AllFresh w := by
  obtain ⟨p, hp, rfl⟩ := pinIn_eq_ok hpin
  exact hf.withPins ((hf c).pin (hs.pins c) hnext hp)

theorem AllFresh.unpinIn (hf : s.AllFresh w) (c : CtxId) (word : Nat) : (s.unpinIn w c word).AllFresh w := by
  unfold HostState.unpinIn
  cases hp : (s.pins c).unpin w word with
  | none => exact hf
  | some p => exact hf.withPins ((hf c).unpin hp)

theorem AllFresh.rollback (hf : s.AllFresh w) (c : CtxId) (f : Finished) : (s.rollback w c f).AllFresh w := by
  unfold HostState.rollback
  generalize ((f.types.zip f.out).filter fun p => p.1.isRef).reverse.map Prod.snd = words
  induction words generalizing s with
  | nil => exact hf
  | cons word words ih => exact ih (hf.unpinIn c word)

theorem AllFresh.apply (hf : s.AllFresh w) (hs : s.Inv w modules) {owner : CtxId → CtxId} {op : HostOp}
    (hc : s.TakesFresh w op) : (s.apply w modules owner op).AllFresh w := by
  cases op with
  | pinRef c word memory =>
    simp only [HostState.apply]
    split_ifs with hhost
    · split
      · rename_i s' h hs'
        exact hf.pinIn hs (hc c (by simp [pinTarget, hhost])) hs'
      · exact hf
    · exact hf
  | unpinRef c word => exact hf.unpinIn c word
  | startHost c f words =>
    simp only [HostState.apply]
    split <;> exact hf
  | paramPinned call i memory =>
    simp only [HostState.apply]
    split
    · exact hf
    · rename_i c hcall
      split
      · rename_i r type hr htype
        split_ifs with hnull
        · exact hf
        · split
          · rename_i s' h hs'
            exact hf.pinIn hs (hc c.pinCtx (by simp [pinTarget, hcall, hr, hnull])) hs'
          · exact hf
      · exact hf
  | unpinFromHost call word =>
    simp only [HostState.apply]
    split
    · exact hf
    · split_ifs
      · exact hf.unpinIn _ word
      · exact hf
  | returnHost activation =>
    simp only [HostState.apply]
    split
    · exact hf
    · split <;> exact hf
  | finishResult c pin memory =>
    simp only [HostState.apply]
    split
    · exact hf
    · rename_i f hfin
      unfold HostState.finishResult
      split
      · rename_i type r htype hr
        split_ifs with hnull hpin
        · exact hf
        · split
          · rename_i s' h hs'
            have htarget : s.pinTarget (.finishResult c pin memory) = some c := by
              simp [pinTarget, hfin, hr, hpin, hnull]
            exact (hf.pinIn hs (hc c htarget) hs' : s'.AllFresh w)
          · exact (hf.rollback c f : (s.rollback w c f).AllFresh w)
        · exact hf
      · exact hf
      · exact hf
  | _ => exact hf

/-- **Runs that take fresh slots.** -/
theorem Reached.allFresh (hW : WellFormedModules modules) {owner : CtxId → CtxId}
    (h : Reached w modules owner (TakesFresh w) s) : s.AllFresh w := by
  induction h with
  | init =>
    intro c k slot hslot
    simp [HostState.init] at hslot
  | step op hs _ hc ih => exact ih.apply (hs.inv hW) hc

/-! ## What is rejected -/

/-- words for a reference of a type of the module that the host should not give to a context: what `wah_param_ref` and
`wah_finish` made of references other than host objects, released handles, and handles pinned with a type that is no
subtype or pinned as host objects where these are not allowed -/
inductive Unfit (w : PtrWidth) (modules : ModuleId → LinkModule) (s : HostState) (c : CtxId) (m : ModuleId)
    (type : Ty) : Nat → Prop where
  | sanitized {r : Ref} (hr : r ≠ .null) (hhost : ∀ a, r = .obj a → s.heap a ≠ some hostCell) :
    Unfit w modules s c m type (sanitizeHostRef w s.heap r)
  | released {word : Nat} (h : word ∈ (s.pins c).released) : Unfit w modules s c m type word
  | incompatible {word k : Nat} {slot : PinSlot} {m' : ModuleId}
    (h : (s.pins c).table.pinnedSlot w word = some (k, slot)) (hmod : slot.module = some m')
    (hsub : ¬ TySub modules m' m slot.type type) : Unfit w modules s c m type word
  | hostObject {word k : Nat} {slot : PinSlot} (h : (s.pins c).table.pinnedSlot w word = some (k, slot))
    (hmod : slot.module = none) (hsub : ∀ n, type ≠ .ref n (.abs .externRef) ∧ type ≠ .ref n (.abs .any)) :
    Unfit w modules s c m type word

theorem sanitizedWord_odd (w : PtrWidth) : sanitizedWord w % 2 = 1 := by cases w <;> decide

theorem sanitizeHostRef_odd {r : Ref} (hr : r ≠ .null) (hhost : ∀ a, r = .obj a → heap a ≠ some hostCell) :
    sanitizeHostRef w heap r % 2 = 1 := by
  cases r with
  | null => exact absurd rfl hr
  | i31 n => exact sanitizedWord_odd w
  | obj a =>
    rw [sanitizeHostRef, if_neg (hhost a rfl)]
    exact sanitizedWord_odd w

theorem hostObjectAccepts_eq_false {type : Ty} (h : ∀ n, type ≠ .ref n (.abs .externRef) ∧ type ≠ .ref n (.abs .any)) :
    hostObjectAccepts type = false := by
  cases type with
  | ref n x =>
    have hx := h n
    simp only [ne_eq, Ty.ref.injEq, true_and] at hx
    simp [hostObjectAccepts, hx.1, hx.2]
  | _ => simp [hostObjectAccepts, Ty.asNonNull]

/-- a slot does not accept a type its own type is not below -/
theorem pinAccepts_eq_false (hW : WellFormedModules modules) {slot : PinSlot} {m' : ModuleId} {type : Ty}
    (hslot : SlotTyped modules heap slot) (hmod : slot.module = some m') (htype : type.Declared modules m)
    (hsub : ¬ TySub modules m' m slot.type type) : pinAccepts modules slot m type = false := by
  unfold SlotTyped at hslot
  unfold pinAccepts
  simp only [hmod] at hslot ⊢
  obtain ⟨x, htyp, hx, -⟩ := hslot
  by_contra hacc
  have hdecl : slot.type.Declared modules m' := by
    rw [htyp]
    exact hx
  exact hsub (crossModuleSubtype_sound hW hdecl htype (by simpa using hacc))

/-- what all unfit words have in common: they are odd, or tagged as handles that resolve to no slot that accepts -/
theorem Unfit.spec (hW : WellFormedModules modules) (hs : s.Inv w modules) (hf : s.AllFresh w) {type : Ty} {word : Nat}
    (htype : type.Declared modules m) (h : Unfit w modules s c m type word) :
    word % 2 = 1 ∨ (word % 2 ≠ 1 ∧ word % 4 = pinTag ∧ ∀ k slot, (s.pins c).table.pinnedSlot w word = some (k, slot) →
      pinAccepts modules slot m type = false) := by
  have htag : ∀ k slot, (s.pins c).table.pinnedSlot w word = some (k, slot) → word % 4 = pinTag := by
    intro k slot hslot
    rw [(PinTable.pinnedSlot_eq_some.1 hslot).1]
    exact handle_mod_four _ _
  have heven : word % 4 = pinTag → word % 2 ≠ 1 := by
    unfold pinTag
    omega
  cases h with
  | sanitized hr hhost => exact Or.inl (sanitizeHostRef_odd hr hhost)
  | released h =>
    have hnone := (Pins.released_rejected_iff (hs.pins c)).2 (hf c) word h
    obtain ⟨r, -, heq⟩ := (hs.pins c).stale word h
    have htag : word % 4 = pinTag := by
      rw [heq]
      exact handle_mod_four _ _
    refine Or.inr ⟨heven htag, htag, fun k slot hslot => ?_⟩
    rw [hnone] at hslot
    cases hslot
  | incompatible hslot hmod hsub =>
    refine Or.inr ⟨heven (htag _ _ hslot), htag _ _ hslot, fun k' slot' hslot' => ?_⟩
    obtain ⟨-, rfl⟩ := Prod.mk.inj (Option.some.inj (hslot.symm.trans hslot'))
    obtain ⟨hmem, hvalue⟩ := value_of_pinnedSlot hslot
    exact pinAccepts_eq_false hW (hs.slots c _ hmem hvalue) hmod htype hsub
  | hostObject hslot hmod hsub =>
    refine Or.inr ⟨heven (htag _ _ hslot), htag _ _ hslot, fun k' slot' hslot' => ?_⟩
    obtain ⟨-, rfl⟩ := Prod.mk.inj (Option.some.inj (hslot.symm.trans hslot'))
    simp only [pinAccepts, hmod]
    exact hostObjectAccepts_eq_false hsub

theorem loadHostParam_unfit (hW : WellFormedModules modules) (hs : s.Inv w modules) (hf : s.AllFresh w) {type : Ty}
    {word : Nat} (htype : type.Declared modules m) (href : type.isRef = true) (h : Unfit w modules s c m type word) :
    loadHostParam w modules (s.pins c).table m type word = .error .misuse := by
  unfold loadHostParam
  rw [if_neg (by simp [href])]
  rcases h.spec hW hs hf htype with hodd | ⟨heven, htag, hacc⟩
  · rw [if_neg (by omega), if_pos hodd]
  · rw [if_neg (by unfold pinTag at htag; omega), if_neg heven, if_pos htag]
    split
    · rfl
    · rename_i k slot hslot
      rw [hacc k slot hslot]
      rfl

theorem loadHostParam_error {t : PinTable} {type : Ty} {word : Nat} {e : ApiError}
    (h : loadHostParam w modules t m type word = .error e) : e = .misuse := by
  unfold loadHostParam at h
  split_ifs at h
  all_goals try cases h
  all_goals try rfl
  split at h
  · cases h
    rfl
  · split_ifs at h
    cases h
    rfl

/-- one unfit word is enough to reject all parameters -/
theorem loadHostParams_misuse {t : PinTable} {types : List Ty} {words : List Nat} {i : Nat} {type : Ty} {word : Nat}
    (htype : types[i]? = some type) (hword : words[i]? = some word)
    (h : loadHostParam w modules t m type word = .error .misuse) :
    loadHostParams w modules t m types words = .error .misuse := by
  induction types generalizing words i with
  | nil => simp at htype
  | cons type' types ih =>
    cases words with
    | nil => simp at hword
    | cons word' words =>
      rw [loadHostParams]
      cases hfirst : loadHostParam w modules t m type' word' with
      | error e =>
        cases loadHostParam_error hfirst
        rfl
      | ok v =>
        cases i with
        | zero =>
          obtain rfl : type' = type := by simpa using htype
          obtain rfl : word' = word := by simpa using hword
          rw [h] at hfirst
          cases hfirst
        | succ i =>
          have hrest := ih (by simpa using htype) (by simpa using hword)
          simp [hrest, bind, Except.bind]

theorem resultRef_unfit (hW : WellFormedModules modules) (hs : s.Inv w modules) (hf : s.AllFresh w) {call : HostCall}
    {i : Nat} {type : Ty} {word : Nat} (htype : type.Declared modules call.module)
    (hi : call.resultTypes[i]? = some type) (h : Unfit w modules s call.pinCtx call.module type word) :
    call.resultRef w modules (s.pins call.pinCtx).table i word = call.misuse := by
  unfold HostCall.resultRef
  simp only [hi, Option.getD_some]
  rcases h.spec hW hs hf htype with hodd | ⟨heven, htag, hacc⟩
  · rw [if_pos hodd]
  · rw [if_neg heven, if_pos htag]
    split
    · rfl
    · rename_i k slot hslot
      rw [hacc k slot hslot]
      rfl

end

/-! ## References keep their types -/

/-- **References across the host boundary keep their types.** In every state of a run whose pins take slots released
fewer times than there are generations, with bare host pointers from `wah_gc_alloc_host`:
- parameters that are loaded, and results a host function returns with, are of their declared types: a reference is null
  of a nullable type, or its dynamic type belongs to the declared one;
- parameters with a sanitized reference, a released handle or a handle of an incompatible type are rejected with
  `misuse`, and such a result changes none and makes the call fail, with `misuse` unless the host trapped before. -/
theorem references_keep_types (w : PtrWidth) (modules : ModuleId → LinkModule) (owner : CtxId → CtxId) (s : HostState)
    (hW : WellFormedModules modules) (hs : Reached w modules owner (TakesFresh w) s) :
    (∀ c m types words vs, (∀ t ∈ types, t.Declared modules m) → List.Forall₂ s.BareOk types words →
      loadHostParams w modules (s.pins c).table m types words = .ok vs →
      List.Forall₂ (Typed modules s.heap m) types vs) ∧
    (∀ call ∈ s.calls, ∀ vs, call.return = .ok vs →
      List.Forall₂ (Typed modules s.heap call.module) call.resultTypes vs) ∧
    (∀ c m types words (i : Nat) type word, (∀ t ∈ types, t.Declared modules m) → types[i]? = some type →
      words[i]? = some word → type.isRef = true → Unfit w modules s c m type word →
      loadHostParams w modules (s.pins c).table m types words = .error .misuse) ∧
    (∀ call ∈ s.calls, ∀ (i : Nat) type word, call.resultTypes[i]? = some type →
      Unfit w modules s call.pinCtx call.module type word →
      (call.resultRef w modules (s.pins call.pinCtx).table i word).results = call.results ∧
      (call.resultRef w modules (s.pins call.pinCtx).table i word).return =
        .error (call.trapReason.getD .misuse)) := by
  have hinv : s.Inv w modules := hs.inv hW
  have hfresh : s.AllFresh w := hs.allFresh hW
  refine ⟨?_, ?_, ?_, ?_⟩
  · intro c m types words vs htypes hbare h
    exact loadHostParams_typed hW hinv.cells (hinv.slots c) htypes hbare h
  · intro call hcall vs h
    exact (hinv.calls call hcall).return h
  · intro c m types words i type word htypes htype hword href h
    have hdecl := htypes type (List.mem_iff_getElem?.2 ⟨i, htype⟩)
    exact loadHostParams_misuse htype hword (loadHostParam_unfit hW hinv hfresh hdecl href h)
  · intro call hcall i type word htype h
    have hdecl := (hinv.calls call hcall).declared type
      (List.mem_append_right _ (List.mem_iff_getElem?.2 ⟨i, htype⟩))
    rw [resultRef_unfit hW hinv hfresh hdecl htype h]
    exact ⟨rfl, rfl⟩

/-- a module with one struct type and its representation -/
def structModule : LinkModule :=
  { typeDefs := [{ kind := .struct }], canonicalMap := [0], isFinal := [true], recGroups := [(0, 1)],
    reprs := [(.struct, 0)] }

theorem structModule_wellFormed : structModule.WellFormed := by
  constructor <;> decide

/-- a host function that takes and returns a reference to the struct type -/
def structFn : HostFn := ⟨some 0, 0, [.ref true (.idx 0)], [.ref true (.idx 0)]⟩

/-- wasm code allocates a struct and calls the function, which pins its parameter -/
def samplePinned : HostState :=
  ((init.apply .w64 (fun _ => structModule) id (.alloc 16 (.object 0 (some 0)))).apply .w64 (fun _ => structModule) id
    (.callHost 0 structFn [.ref (.obj 16)])).apply .w64 (fun _ => structModule) id (.paramPinned 0 0 true)

theorem samplePinned_reached : Reached .w64 (fun _ => structModule) id (TakesFresh .w64) samplePinned := by
  have hobj : HasType (fun _ => structModule) (Function.update (fun _ => none) 16 (some (.object 0 (some 0)))) 0
      (.idx 0) (.obj 16) := ⟨.object (0, 0), rfl, SubType.of_same (.refl _)⟩
  have hfn : DeclaredFn (fun _ => structModule) structFn := by
    intro t ht
    obtain rfl : t = .ref true (.idx 0) := by simpa [structFn] using ht
    exact Nat.zero_lt_one
  refine .step _ (.step _ (.step _ .init ?_ ?_) ?_ ?_) trivial ?_
  · exact ⟨rfl, _, rfl, Nat.zero_lt_one, by decide⟩
  · intro c hc
    cases hc
  · exact ⟨hfn, .cons (Or.inr hobj) .nil⟩
  · intro c hc
    cases hc
  · intro c hc
    obtain rfl : c = 0 := by simpa [pinTarget, HostState.apply, HostCall.enter, structFn] using hc.symm
    decide

theorem references_keep_types_sample :
    loadHostParams .w64 (fun _ => structModule) (samplePinned.pins 0).table 0 [.ref false (.idx 0)] [handle .w64 0 0] =
      .ok [.ref (.obj 16)] ∧
    List.Forall₂ (Typed (fun _ => structModule) samplePinned.heap 0) [.ref false (.idx 0)] [.ref (.obj 16)] := by
  have hload : loadHostParams .w64 (fun _ => structModule) (samplePinned.pins 0).table 0 [.ref false (.idx 0)]
      [handle .w64 0 0] = .ok [.ref (.obj 16)] := by decide
  refine ⟨hload, (references_keep_types .w64 (fun _ => structModule) id samplePinned (fun _ => structModule_wellFormed)
    samplePinned_reached).1 0 0 _ _ _ ?_ ?_ hload⟩
  · intro t ht
    obtain rfl : t = .ref false (.idx 0) := by simpa using ht
    exact Nat.zero_lt_one
  · refine .cons (fun _ _ h => ?_) .nil
    simp [pinTag] at h

/-! ## A released handle that is accepted again -/

/-- a host object at 16 was pinned and released `n` times in the context 0, and never pinned by anything else -/
structure Cycled (w : PtrWidth) (n : Nat) (s : HostState) : Prop where
  reached : Reached w (fun _ => {}) id (fun _ _ => True) s
  heap : s.heap 16 = some hostCell
  table : (s.pins 0).table =
    if n = 0 then {} else ⟨[⟨.null, none, .ref false (.abs .any), n % w.generations, 0⟩], 1⟩
  stale : 0 < n → handle w 0 0 ∈ (s.pins 0).released

variable {w : PtrWidth} {n : Nat} {s : HostState}

/-- the next pin takes the only slot, at its generation -/
theorem Cycled.pin (h : Cycled w n s) :
    let s' := s.apply w (fun _ => {}) id (.pinRef 0 16 true)
    Reached w (fun _ => {}) id (fun _ _ => True) s' ∧ s'.heap = s.heap ∧
      (s'.pins 0).table = ⟨[⟨.obj 16, none, .ref false (.abs .any), n % w.generations, 0⟩], 0⟩ ∧
      (s'.pins 0).released = (s.pins 0).released := by
  have hpin : (s.pins 0).table.pin w (.obj 16) none (.ref false (.abs .any)) true =
      .ok (⟨[⟨.obj 16, none, .ref false (.abs .any), n % w.generations, 0⟩], 0⟩, handle w 0 (n % w.generations)) := by
    rw [h.table]
    by_cases hn : n = 0
    · subst hn
      simp [PinTable.pin]
    · simp [hn, PinTable.pin]
  refine ⟨.step _ h.reached (fun _ _ _ => h.heap) trivial, ?_⟩
  simp [HostState.apply, h.heap, pinIn, Pins.pin, hpin, Except.map]

theorem Cycled.next (h : Cycled w n s) : ∃ s', Cycled w (n + 1) s' := by
  obtain ⟨hreached, hheap, htable, hreleased⟩ := h.pin
  set s' := s.apply w (fun _ => {}) id (.pinRef 0 16 true)
  have hslot : (s'.pins 0).table.pinnedSlot w (handle w 0 (n % w.generations)) =
      some (0, ⟨.obj 16, none, .ref false (.abs .any), n % w.generations, 0⟩) :=
    PinTable.pinnedSlot_eq_some.2 ⟨rfl, Nat.two_pow_pos _, by simp [htable], by simp⟩
  have hne : handle w 0 (n % w.generations) ≠ 0 := by
    unfold handle pinTag
    omega
  have hunpin : (s'.pins 0).unpin w (handle w 0 (n % w.generations)) =
      some ⟨⟨[⟨.null, none, .ref false (.abs .any), (n + 1) % w.generations, 0⟩], 1⟩,
        handle w 0 (n % w.generations) :: (s.pins 0).released⟩ := by
    rw [htable] at hslot
    simp [Pins.unpin, PinTable.unpin, hne, hslot, htable, hreleased, PinTable.freed]
  refine ⟨s'.apply w (fun _ => {}) id (.unpinRef 0 (handle w 0 (n % w.generations))), .step _ hreached trivial trivial,
    ?_, ?_, fun _ => ?_⟩
  all_goals simp only [HostState.apply, HostState.unpinIn, hunpin, Function.update_self]
  · rw [hheap]
    exact h.heap
  · simp
  · by_cases hn : n = 0
    · subst hn
      simp
    · exact List.mem_cons_of_mem _ (h.stale (Nat.pos_of_ne_zero hn))

theorem exists_cycled (w : PtrWidth) (n : Nat) : ∃ s, Cycled w n s := by
  induction n with
  | zero =>
    refine ⟨init.apply w (fun _ => {}) id (.alloc 16 hostCell), .step _ .init ⟨rfl, .host, rfl, trivial⟩ trivial,
      ?_, ?_, ?_⟩
    · simp [HostState.apply]
    · simp [HostState.apply, init]
    · intro h
      exact absurd h (lt_irrefl 0)
  | succ n ih =>
    obtain ⟨s, hs⟩ := ih
    exact hs.next

/-- after as many releases as there are generations, the first handle is accepted again for an externref -/
theorem exists_stale_accepted (w : PtrWidth) : ∃ s, Reached w (fun _ => {}) id (fun _ _ => True) s ∧
    handle w 0 0 ∈ (s.pins 0).released ∧
    loadHostParam w (fun _ => {}) (s.pins 0).table 0 (.ref true (.abs .externRef)) (handle w 0 0) =
      .ok (.ref (.obj 16)) := by
  obtain ⟨s, hs⟩ := exists_cycled w w.generations
  obtain ⟨hreached, -, htable, hreleased⟩ := hs.pin
  refine ⟨_, hreached, ?_, ?_⟩
  · rw [hreleased]
    exact hs.stale w.generations_pos
  · have hslot : PinTable.pinnedSlot w ⟨[⟨.obj 16, none, .ref false (.abs .any), 0, 0⟩], 0⟩ (handle w 0 0) =
        some (0, ⟨.obj 16, none, .ref false (.abs .any), 0, 0⟩) :=
      PinTable.pinnedSlot_eq_some.2 ⟨rfl, Nat.two_pow_pos _, rfl, by simp⟩
    have hword : handle w 0 0 = 2 := by simp [handle, pinTag]
    rw [hword] at hslot ⊢
    rw [htable, Nat.mod_self]
    simp [loadHostParam, hslot, pinAccepts, hostObjectAccepts, Ty.isRef, pinTag]

/-- **A released handle is accepted.** On a 64-bit target, after 2^30 pins and releases of one host object and another
pin, the first handle, released long before, loads as a parameter. -/
theorem stale_handle_accepted :
    ∃ s, Reached .w64 (fun _ => {}) id (fun _ _ => True) s ∧ handle .w64 0 0 ∈ (s.pins 0).released ∧
      loadHostParam .w64 (fun _ => {}) (s.pins 0).table 0 (.ref true (.abs .externRef)) (handle .w64 0 0) ≠
        .error .misuse := by
  obtain ⟨s, hs, hmem, hload⟩ := exists_stale_accepted .w64
  refine ⟨s, hs, hmem, ?_⟩
  rw [hload]
  simp

end HostState

end Wah
