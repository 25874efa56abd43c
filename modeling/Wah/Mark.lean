/-
The mark phase over the heaps of a link domain, under any pattern of allocation failures.

Model (`wah_gc_step_mark` and what it calls):
- the worklist is a stack with a capacity; when it is full it is reallocated, and each reallocation succeeds or fails
  as an oracle says. An object that cannot be pushed turns gray and sets the overflow flag;
- the domain is the list of contexts `wah_gc_collect_domain` returns, the collecting context first; a context
  contributes the slots its root enumeration visits, or only its pins;
- functions are referenced like objects but belong to no heap: their bits are never cleared, and scanning one does
  nothing.

Results:
- `stepMark_spec`: the mark phase ends, marks exactly the reachable objects of the heaps and leaves none gray, whatever
  the bits were before and whichever reallocations fail;
- `collections_exact_iff`: the two sweeps after it leave exactly the live objects in order, with counters, budget and
  self-check right, iff the 32-bit counters can hold what is left.
-/
import Wah.Heap
import Wah.Tricolour

namespace Wah

/-! ## Marking -/

/-- the mark and gray bits of all objects and functions -/
structure Bits where
  marked : Addr → Bool
  gray : Addr → Bool

/-- the bits, the worklist (`wah_gc_worklist_t`, top first) and the number of `wah_realloc` calls so far -/
structure Marker extends Bits where
  items : List Addr := []
  cap : UInt32 := 0
  overflow : Bool := false
  calls : Nat := 0

section
variable (alloc : Nat → Bool)

/-- the worklist cannot grow: the object turns gray -/
def Marker.turnGray (s : Marker) (a : Addr) : Marker :=
  { s with gray := Function.update s.gray a true, overflow := true }

def Marker.push (s : Marker) (a : Addr) : Marker := { s with items := a :: s.items }

/-- the growth step of `wah_gc_mark_object` on a full worklist -/
def Marker.grow (s : Marker) (a : Addr) : Marker :=
  let newCap := if s.cap ≠ 0 then s.cap * 2 else 256
  if newCap < s.cap then s.turnGray a
  else if alloc s.calls then { s with cap := newCap, calls := s.calls + 1 }.push a
  else { s with calls := s.calls + 1 }.turnGray a

/-- `wah_gc_mark_object` -/
def Marker.markObject (s : Marker) (a : Addr) : Marker :=
  if s.marked a then s
  else
    let s := { s with marked := Function.update s.marked a true }
    if s.items.length ≥ s.cap.toNat then s.grow alloc a else s.push a

/-- `wah_gc_mark_ref` -/
def Marker.markRef (s : Marker) : Ref → Marker
  | .null | .i31 _ => s
  | .obj a => s.markObject alloc a

/-- `sizeof(wah_gc_array_body_t)` -/
def arrayBodySize : Nat := 8

/-- the references an object holds, in the order `wah_gc_scan_object` visits them -/
def Store.refs (S : Store) (mod : ModuleId) (a : Addr) : List Ref :=
  let o := S.obj a
  if o.isExn then (o.values.filter fun v => v.1.isRef).map fun v => v.2
  else if o.reprId < 0 then []
  else
    match S.reprInfoGet (o.mod.getD mod) o.reprId with
    | none => []
    | some info =>
      match info.type with
      | .struct => (info.fields.filter ReprField.isRef).map fun f => o.word f.offset
      | .array =>
        match info.fields with
        | [] => []
        | f :: _ =>
          if f.isRef then
            (List.range o.length).map fun i => o.word (arrayBodySize + i * info.size + f.offset)
          else []

variable (S : Store) (mod : ModuleId)

/-- `wah_gc_scan_object`: mark every reference the object holds -/
def Marker.scanObject (s : Marker) (a : Addr) : Marker := (S.refs mod a).foldl (Marker.markRef alloc) s

/-- `while (wl.count > 0) wah_gc_scan_object(wl.items[--wl.count], &wl)` -/
def Marker.drain : Nat → Marker → Option Marker
  | 0, _ => none
  | fuel + 1, s =>
    match s.items with
    | [] => some s
    | a :: rest => Marker.drain fuel (Marker.scanObject alloc S mod { s with items := rest } a)

/-- one object met by the search for gray objects -/
def Marker.rescanObject (s : Marker) (a : Addr) : Marker :=
  if s.gray a then Marker.scanObject alloc S mod { s with gray := Function.update s.gray a false } a else s

/-- the `for (;;)` loop of `wah_gc_step_mark` over the objects of all heaps -/
def Marker.trace (objects : List Addr) : Nat → Marker → Option Marker
  | 0, _ => none
  | fuel + 1, s =>
    match Marker.drain alloc S mod fuel s with
    | none => none
    | some s =>
      if !s.overflow then some s
      else Marker.trace objects fuel (objects.foldl (Marker.rescanObject alloc S mod) { s with overflow := false })

end

/-! ## Domains -/

/-- a context of the domain: its heap, the slots `wah_gc_enumerate_roots` visits, and the pinned ones among them -/
structure DomCtx where
  gc : Option Nat
  roots : List Ref
  pins : List Ref
  isInstantiated : Bool
  mayShareRefs : Bool

/-- `wah_gc_domain_first_heap`: the heap of `domain[i]`, when no context before it has the same -/
def firstHeap (domain : List DomCtx) (i : Nat) : Option Nat :=
  match (domain[i]?).bind DomCtx.gc with
  | none => none
  | some h => if (domain.take i).any fun c => c.gc == some h then none else some h

/-- the heaps of the domain, each once, in the order the loops over the domain visit them -/
def domainHeaps (domain : List DomCtx) : List Nat := (List.range domain.length).filterMap (firstHeap domain)

/-- the slots visited for the roots; `domain[0]` is the collecting context -/
def domainRoots : List DomCtx → List Ref
  | [] => []
  | ctx :: others => ctx.roots ++ others.flatMap fun c => if c.isInstantiated || c.mayShareRefs then c.roots else c.pins

/-- the heaps of a link domain with everything they refer to. Functions carry the header `WAH_FUNCREF_HEADER`; a
reference leads to an object of one of the heaps or to a function. -/
structure Domain where
  store : Store
  mod : ModuleId
  ctxs : List DomCtx
  heaps : Nat → GcState
  funcs : List Addr
  funcs_leaf : ∀ f ∈ funcs, (store.obj f).reprId = reprFunc
  roots_known : ∀ a, Ref.obj a ∈ domainRoots ctxs →
    a ∈ (domainHeaps ctxs).flatMap (fun h => (heaps h).allObjects) ∨ a ∈ funcs
  refs_known : ∀ a ∈ (domainHeaps ctxs).flatMap (fun h => (heaps h).allObjects), ∀ c, Ref.obj c ∈ store.refs mod a →
    c ∈ (domainHeaps ctxs).flatMap (fun h => (heaps h).allObjects) ∨ c ∈ funcs

/-- the objects of all heaps, in the order the loops over the domain visit them -/
def Domain.objects (D : Domain) : List Addr := (domainHeaps D.ctxs).flatMap fun h => (D.heaps h).allObjects

/-- clear all marks and gray bits of the heaps -/
def Bits.clear (b : Bits) (objects : List Addr) : Bits where
  marked a := if a ∈ objects then false else b.marked a
  gray a := if a ∈ objects then false else b.gray a

/-- `wah_gc_step_mark` after the domain was collected, from the bits found -/
def Domain.stepMark (D : Domain) (alloc : Nat → Bool) (bits : Bits) (fuel : Nat) : Option Marker :=
  Marker.trace alloc D.store D.mod D.objects fuel
    ((domainRoots D.ctxs).foldl (Marker.markRef alloc) { toBits := bits.clear D.objects })

/-! ## Reachability -/

/-- an object holds a reference: in the payload of an exception, a field of a struct or an element of an array -/
inductive HoldsRef (S : Store) (mod : ModuleId) (a : Addr) : Ref → Prop where
  | payload {t : Ty} {r : Ref} (he : (S.obj a).isExn = true) (hv : (t, r) ∈ (S.obj a).values) (ht : t.isRef = true) :
      HoldsRef S mod a r
  | field {info : ReprInfo} {f : ReprField}
      (hi : S.reprInfoGet ((S.obj a).mod.getD mod) (S.obj a).reprId = some info) (hs : info.type = .struct)
      (hf : f ∈ info.fields) (hr : f.isRef = true) : HoldsRef S mod a ((S.obj a).word f.offset)
  | element {info : ReprInfo} {f : ReprField} {i : Nat}
      (hi : S.reprInfoGet ((S.obj a).mod.getD mod) (S.obj a).reprId = some info) (ha : info.type = .array)
      (hf : info.fields.head? = some f) (hr : f.isRef = true) (hl : i < (S.obj a).length) :
      HoldsRef S mod a ((S.obj a).word (arrayBodySize + i * info.size + f.offset))

theorem Store.reprInfoGet_nonneg {S : Store} {m : ModuleId} {reprId : Int} {info : ReprInfo}
    (h : S.reprInfoGet m reprId = some info) : 0 ≤ reprId := by
  unfold Store.reprInfoGet at h
  split_ifs at h with hneg
  omega

theorem Obj.not_isExn_of_nonneg {o : Obj} (h : 0 ≤ o.reprId) : o.isExn = false := by
  simp only [Obj.isExn, reprExn, beq_eq_false_iff_ne]
  omega

/-- scanning visits exactly the references an object holds -/
theorem mem_refs (S : Store) (mod : ModuleId) (a : Addr) (r : Ref) : r ∈ S.refs mod a ↔ HoldsRef S mod a r := by
  constructor
  · intro h
    unfold Store.refs at h
    dsimp only at h
    split_ifs at h with he hneg
    · obtain ⟨⟨t, x⟩, hv, rfl⟩ := List.mem_map.1 h
      obtain ⟨hv, ht⟩ := List.mem_filter.1 hv
      exact .payload he hv ht
    · simp at h
    · split at h
      · simp at h
      · rename_i info hi
        split at h
        · rename_i hs
          obtain ⟨f, hf, rfl⟩ := List.mem_map.1 h
          obtain ⟨hf, hr⟩ := List.mem_filter.1 hf
          exact .field hi hs hf hr
        · rename_i ha
          split at h
          · simp at h
          · rename_i f rest hf
            split_ifs at h with hr
            · obtain ⟨i, hl, rfl⟩ := List.mem_map.1 h
              exact .element hi ha (by rw [hf]; rfl) hr (List.mem_range.1 hl)
            · simp at h
  · intro h
    cases h with
    | payload he hv ht =>
      simp only [Store.refs, he, if_true, List.mem_map, List.mem_filter]
      exact ⟨_, ⟨hv, ht⟩, rfl⟩
    | field hi hs hf hr =>
      have hnn := Store.reprInfoGet_nonneg hi
      simp only [Store.refs, Obj.not_isExn_of_nonneg hnn, Int.not_lt.2 hnn, if_false, hi, hs, List.mem_map,
        List.mem_filter, Bool.false_eq_true]
      exact ⟨_, ⟨hf, hr⟩, rfl⟩
    | element hi ha hf hr hl =>
      have hnn := Store.reprInfoGet_nonneg hi
      obtain ⟨rest, hcons⟩ := List.head?_eq_some_iff.1 hf
      simp only [Store.refs, Obj.not_isExn_of_nonneg hnn, Int.not_lt.2 hnn, if_false, hi, ha, hcons, hr, if_true,
        List.mem_map, List.mem_range, Bool.false_eq_true]
      exact ⟨_, hl, rfl⟩

namespace Domain

/-- one object or function is referenced by another -/
def Points (D : Domain) (a c : Addr) : Prop := HoldsRef D.store D.mod a (.obj c)

/-- a root slot refers to the object or function -/
def IsRoot (D : Domain) (a : Addr) : Prop := Ref.obj a ∈ domainRoots D.ctxs

/-- reachable from the roots -/
def Reachable (D : Domain) : Addr → Prop := Reach D.Points D.IsRoot

/-- the objects and functions references lead to -/
def known (D : Domain) : Finset Addr := (D.objects ++ D.funcs).toFinset

theorem mem_known {D : Domain} {a : Addr} : a ∈ D.known ↔ a ∈ D.objects ∨ a ∈ D.funcs := by
  simp [known]

theorem refs_func {D : Domain} {f : Addr} (h : f ∈ D.funcs) : D.store.refs D.mod f = [] := by
  simp [Store.refs, Obj.isExn, D.funcs_leaf f h, reprFunc, reprExn]

theorem points_known {D : Domain} {a c : Addr} (ha : a ∈ D.known) (h : D.Points a c) : c ∈ D.known := by
  have hc := (mem_refs _ _ _ _).2 h
  rcases mem_known.1 ha with ha | ha
  · exact mem_known.2 (D.refs_known a ha c hc)
  · rw [refs_func ha] at hc
    simp at hc

theorem root_known {D : Domain} {a : Addr} (h : D.IsRoot a) : a ∈ D.known :=
  mem_known.2 (D.roots_known a h)

end Domain

/-! ## What marking does to the worklist -/

/-- from `s` to `s'` only objects of `T` were marked, each is on the worklist or gray, and the overflow flag tells of
new gray objects; `U` is the universe the measure counts in -/
structure Grows (U : Finset Addr) (T : Addr → Prop) (s s' : Marker) : Prop where
  mono : ∀ a, s.marked a = true → s'.marked a = true
  fresh : ∀ a, s'.marked a = true → s.marked a = true ∨ (T a ∧ (a ∈ s'.items ∨ s'.gray a = true))
  items : ∀ a ∈ s.items, a ∈ s'.items
  pushed : ∀ a ∈ s'.items, a ∈ s.items ∨ (s'.marked a = true ∧ T a)
  gray : ∀ a, s.gray a = true → s'.gray a = true
  grayed : ∀ a, s'.gray a = true → s.gray a = true ∨ (s'.marked a = true ∧ s'.overflow = true)
  overflow : s.overflow = true → s'.overflow = true
  size : unmarked U s'.marked + s'.items.length ≤ unmarked U s.marked + s.items.length
  flagged : s'.overflow = true → s.overflow = true ∨ unmarked U s'.marked < unmarked U s.marked

namespace Grows
variable {U : Finset Addr} {T : Addr → Prop} {s s' s'' : Marker}

theorem refl (s : Marker) : Grows U T s s where
  mono _ h := h
  fresh _ h := .inl h
  items _ h := h
  pushed _ h := .inl h
  gray _ h := h
  grayed _ h := .inl h
  overflow h := h
  size := le_refl _
  flagged h := .inl h

theorem unmarked_le (h : Grows U T s s') : unmarked U s'.marked ≤ unmarked U s.marked := unmarked_mono U h.mono

theorem trans (h : Grows U T s s') (h' : Grows U T s' s'') : Grows U T s s'' where
  mono a ha := h'.mono a (h.mono a ha)
  fresh a ha := by
    rcases h'.fresh a ha with h1 | h1
    · rcases h.fresh a h1 with h2 | ⟨hT, h2 | h2⟩
      · exact .inl h2
      · exact .inr ⟨hT, .inl (h'.items a h2)⟩
      · exact .inr ⟨hT, .inr (h'.gray a h2)⟩
    · exact .inr h1
  items a ha := h'.items a (h.items a ha)
  pushed a ha := by
    rcases h'.pushed a ha with h1 | h1
    · rcases h.pushed a h1 with h2 | ⟨h2, hT⟩
      · exact .inl h2
      · exact .inr ⟨h'.mono a h2, hT⟩
    · exact .inr h1
  gray a ha := h'.gray a (h.gray a ha)
  grayed a ha := by
    rcases h'.grayed a ha with h1 | h1
    · rcases h.grayed a h1 with h2 | ⟨h2, ho⟩
      · exact .inl h2
      · exact .inr ⟨h'.mono a h2, h'.overflow ho⟩
    · exact .inr h1
  overflow ho := h'.overflow (h.overflow ho)
  size := le_trans h'.size h.size
  flagged ho := by
    rcases h'.flagged ho with h1 | h1
    · rcases h.flagged h1 with h2 | h2
      · exact .inl h2
      · exact .inr (lt_of_le_of_lt h'.unmarked_le h2)
    · exact .inr (lt_of_lt_of_le h1 h.unmarked_le)

/-- a fresh object that is pushed -/
theorem of_push {a : Addr} (hT : T a) (hU : a ∈ U) (hm : s.marked a = false) (hmarked : s'.marked = Function.update s.marked a true)
    (hitems : s'.items = a :: s.items) (hgray : s'.gray = s.gray) (hov : s'.overflow = s.overflow) : Grows U T s s' where
  mono c hc := by
    rw [hmarked]
    by_cases he : c = a
    · simp [he]
    · simpa [he] using hc
  fresh c hc := by
    by_cases he : c = a
    · exact .inr ⟨he ▸ hT, .inl (by simp [hitems, he])⟩
    · rw [hmarked] at hc
      exact .inl (by simpa [he] using hc)
  items c hc := by rw [hitems]; exact List.mem_cons_of_mem _ hc
  pushed c hc := by
    rw [hitems] at hc
    rcases List.mem_cons.1 hc with rfl | hc
    · exact .inr ⟨by simp [hmarked], hT⟩
    · exact .inl hc
  gray c hc := by rwa [hgray]
  grayed c hc := by rw [hgray] at hc; exact .inl hc
  overflow ho := by rwa [hov]
  size := by
    have := unmarked_update U s.marked hU hm
    rw [hmarked, hitems, List.length_cons]
    omega
  flagged ho := by rw [hov] at ho; exact .inl ho

/-- a fresh object that turns gray -/
theorem of_gray {a : Addr} (hT : T a) (hU : a ∈ U) (hm : s.marked a = false) (hmarked : s'.marked = Function.update s.marked a true)
    (hitems : s'.items = s.items) (hgray : s'.gray = Function.update s.gray a true) (hov : s'.overflow = true) :
    Grows U T s s' where
  mono c hc := by
    rw [hmarked]
    by_cases he : c = a
    · simp [he]
    · simpa [he] using hc
  fresh c hc := by
    by_cases he : c = a
    · exact .inr ⟨he ▸ hT, .inr (by simp [hgray, he])⟩
    · rw [hmarked] at hc
      exact .inl (by simpa [he] using hc)
  items c hc := by rwa [hitems]
  pushed c hc := by rw [hitems] at hc; exact .inl hc
  gray c hc := by
    rw [hgray]
    by_cases he : c = a
    · simp [he]
    · simpa [he] using hc
  grayed c hc := by
    by_cases he : c = a
    · exact .inr ⟨by simp [hmarked, he], hov⟩
    · rw [hgray] at hc
      exact .inl (by simpa [he] using hc)
  overflow _ := hov
  size := by
    have := unmarked_update U s.marked hU hm
    rw [hmarked, hitems]
    omega
  flagged _ := by
    have := unmarked_update U s.marked hU hm
    rw [hmarked]
    exact .inr (by omega)

end Grows

section
variable {U : Finset Addr} {T : Addr → Prop}

/-- marking an object marks it, and pushes it or turns it gray -/
theorem markObject_grows (alloc : Nat → Bool) (s : Marker) {a : Addr} (hT : T a) (hU : a ∈ U) :
    Grows U T s (s.markObject alloc a) ∧ (s.markObject alloc a).marked a = true := by
  unfold Marker.markObject
  cases hm : s.marked a with
  | true => exact ⟨.refl s, hm⟩
  | false =>
    simp only [Bool.false_eq_true, if_false, Marker.grow]
    split_ifs
    any_goals exact ⟨.of_gray hT hU hm rfl rfl rfl rfl, Function.update_self a _ _⟩
    all_goals exact ⟨.of_push hT hU hm rfl rfl rfl rfl, Function.update_self a _ _⟩

/-- marking a list of references marks every object among them -/
theorem foldl_markRef_grows (alloc : Nat → Bool) (refs : List Ref) (s : Marker)
    (h : ∀ a, Ref.obj a ∈ refs → T a ∧ a ∈ U) :
    Grows U T s (refs.foldl (Marker.markRef alloc) s) ∧
      ∀ a, Ref.obj a ∈ refs → (refs.foldl (Marker.markRef alloc) s).marked a = true := by
  induction refs generalizing s with
  | nil => exact ⟨.refl s, fun a ha => by simp at ha⟩
  | cons r rest ih =>
    have hrest := ih (s.markRef alloc r) fun a ha => h a (List.mem_cons_of_mem _ ha)
    rw [List.foldl_cons]
    cases r with
    | null => exact ⟨hrest.1, fun a ha => hrest.2 a (by simpa using ha)⟩
    | i31 n => exact ⟨hrest.1, fun a ha => hrest.2 a (by simpa using ha)⟩
    | obj c =>
      obtain ⟨hT, hU⟩ := h c (by simp)
      obtain ⟨hgr, hmk⟩ := markObject_grows (T := T) alloc s hT hU
      refine ⟨hgr.trans hrest.1, fun a ha => ?_⟩
      rcases List.mem_cons.1 ha with ha | ha
      · cases ha; exact hrest.1.mono c hmk
      · exact hrest.2 a ha

end

/-! ## The invariant of tracing -/

/-- the tri-colour invariant with its two places for pending objects, the worklist and the gray bits. `skip` are
objects being scanned; gray objects that the search has not met yet are in `todo`, all others are announced by the
overflow flag. -/
structure Traced (D : Domain) (skip todo : Addr → Prop) (s : Marker) : Prop where
  roots : ∀ a, D.IsRoot a → s.marked a = true
  sound : ∀ a ∈ D.objects, s.marked a = true → D.Reachable a
  items : ∀ a ∈ s.items, a ∈ D.known ∧ D.Reachable a
  gray : ∀ a ∈ D.objects, s.gray a = true → s.marked a = true
  black : ∀ a ∈ D.objects, s.marked a = true →
    skip a ∨ a ∈ s.items ∨ s.gray a = true ∨ ∀ c, D.Points a c → s.marked c = true
  flag : ∀ a ∈ D.objects, s.gray a = true → s.overflow = true ∨ todo a

/-- progress between two points of the trace: objects are only ever marked, and a new overflow marked some -/
structure Closer (D : Domain) (s s' : Marker) : Prop where
  size : unmarked D.known s'.marked + s'.items.length ≤ unmarked D.known s.marked + s.items.length
  unmarked_le : unmarked D.known s'.marked ≤ unmarked D.known s.marked
  flagged : s'.overflow = true → s.overflow = true ∨ unmarked D.known s'.marked < unmarked D.known s.marked

namespace Closer
variable {D : Domain} {s s' s'' : Marker}

theorem refl (s : Marker) : Closer D s s := ⟨le_refl _, le_refl _, Or.inl⟩

theorem trans (h : Closer D s s') (h' : Closer D s' s'') : Closer D s s'' where
  size := le_trans h'.size h.size
  unmarked_le := le_trans h'.unmarked_le h.unmarked_le
  flagged ho := by
    rcases h'.flagged ho with h1 | h1
    · rcases h.flagged h1 with h2 | h2
      · exact .inl h2
      · exact .inr (lt_of_le_of_lt h'.unmarked_le h2)
    · exact .inr (lt_of_lt_of_le h1 h.unmarked_le)

theorem of_grows {T : Addr → Prop} (h : Grows D.known T s s') : Closer D s s' := ⟨h.size, h.unmarked_le, h.flagged⟩

end Closer

section
variable {D : Domain} {s : Marker} {skip todo : Addr → Prop} (alloc : Nat → Bool)

/-- what scanning marks: known objects that are reachable -/
def Traceable (D : Domain) (a : Addr) : Prop := a ∈ D.known ∧ D.Reachable a

theorem scanObject_grows {a : Addr} (ha : Traceable D a) :
    Grows D.known (Traceable D) s (s.scanObject alloc D.store D.mod a) ∧
      ∀ c, D.Points a c → (s.scanObject alloc D.store D.mod a).marked c = true := by
  have h := foldl_markRef_grows (U := D.known) (T := Traceable D) alloc (D.store.refs D.mod a) s fun c hc => by
    have hp : D.Points a c := (mem_refs _ _ _ _).1 hc
    exact ⟨⟨Domain.points_known ha.1 hp, .step ha.2 hp⟩, Domain.points_known ha.1 hp⟩
  exact ⟨h.1, fun c hc => h.2 c ((mem_refs _ _ _ _).2 hc)⟩

/-- scanning the object that was skipped restores the invariant for it -/
theorem Traced.scan {a : Addr} (h : Traced D (· = a) todo s) (ha : Traceable D a) :
    Traced D (fun _ => False) todo (s.scanObject alloc D.store D.mod a) := by
  obtain ⟨hg, hall⟩ := scanObject_grows (s := s) alloc ha
  constructor
  case roots => exact fun c hc => hg.mono c (h.roots c hc)
  case sound =>
    intro c hc hm
    rcases hg.fresh c hm with hm | ⟨hT, _⟩
    · exact h.sound c hc hm
    · exact hT.2
  case items =>
    intro c hc
    rcases hg.pushed c hc with hc | ⟨_, hT⟩
    · exact h.items c hc
    · exact hT
  case gray =>
    intro c hc hgr
    rcases hg.grayed c hgr with hgr | ⟨hm, _⟩
    · exact hg.mono c (h.gray c hc hgr)
    · exact hm
  case black =>
    intro c hc hm
    rcases hg.fresh c hm with hm | ⟨_, hp⟩
    · rcases h.black c hc hm with rfl | hi | hgr | hs
      · exact .inr (.inr (.inr hall))
      · exact .inr (.inl (hg.items c hi))
      · exact .inr (.inr (.inl (hg.gray c hgr)))
      · exact .inr (.inr (.inr fun d hd => hg.mono d (hs d hd)))
    · rcases hp with hi | hgr
      · exact .inr (.inl hi)
      · exact .inr (.inr (.inl hgr))
  case flag =>
    intro c hc hgr
    rcases hg.grayed c hgr with hgr | ⟨_, ho⟩
    · exact (h.flag c hc hgr).imp_left hg.overflow
    · exact .inl ho

/-- popping an object leaves it to be scanned -/
theorem Traced.pop {a : Addr} {rest : List Addr} (h : Traced D (fun _ => False) todo s) (hi : s.items = a :: rest) :
    Traced D (· = a) todo { s with items := rest } where
  roots := h.roots
  sound := h.sound
  items c hc := h.items c (by rw [hi]; exact List.mem_cons_of_mem _ hc)
  gray := h.gray
  black c hc hm := by
    rcases h.black c hc hm with hf | hmem | hrest
    · exact hf.elim
    · rw [hi] at hmem
      rcases List.mem_cons.1 hmem with rfl | hmem
      · exact .inl rfl
      · exact .inr (.inl hmem)
    · exact .inr (.inr hrest)
  flag := h.flag

/-- a gray object the search meets is left to be scanned -/
theorem Traced.ungray {a : Addr} {rest : List Addr} (h : Traced D (fun _ => False) (· ∈ a :: rest) s) :
    Traced D (· = a) (· ∈ rest) { s with gray := Function.update s.gray a false } where
  roots := h.roots
  sound := h.sound
  items := h.items
  gray c hc hgr := by
    by_cases he : c = a
    · simp [he] at hgr
    · exact h.gray c hc (by simpa [he] using hgr)
  black c hc hm := by
    by_cases he : c = a
    · exact .inl he
    · rcases h.black c hc hm with hf | hi | hgr | hs
      · exact hf.elim
      · exact .inr (.inl hi)
      · exact .inr (.inr (.inl (by simpa [he] using hgr)))
      · exact .inr (.inr (.inr hs))
  flag c hc hgr := by
    by_cases he : c = a
    · simp [he] at hgr
    · rcases h.flag c hc (by simpa [he] using hgr) with ho | hm
      · exact .inl ho
      · exact .inr ((List.mem_cons.1 hm).resolve_left he)

/-- draining the worklist ends, with enough fuel for the unmarked and the listed objects -/
theorem Traced.drain (fuel : Nat) (h : Traced D (fun _ => False) todo s)
    (hf : unmarked D.known s.marked + s.items.length < fuel) :
    ∃ s', s.drain alloc D.store D.mod fuel = some s' ∧ Traced D (fun _ => False) todo s' ∧ s'.items = [] ∧
      Closer D s s' := by
  induction fuel generalizing s with
  | zero => omega
  | succ fuel ih =>
    cases hi : s.items with
    | nil => exact ⟨s, by simp [Marker.drain, hi], h, hi, .refl s⟩
    | cons a rest =>
      have ha : Traceable D a := h.items a (by simp [hi])
      have hg := (scanObject_grows (s := { s with items := rest }) alloc ha).1
      have hpop : Closer D s { s with items := rest } :=
        ⟨by simp [hi], le_refl _, Or.inl⟩
      have hstep := hpop.trans (.of_grows hg)
      have hlt := hg.size
      simp only [hi, List.length_cons] at hf hlt
      obtain ⟨s', hd, ht, hn, hc⟩ := ih ((h.pop hi).scan alloc ha) (by omega)
      exact ⟨s', by simp only [Marker.drain, hi, hd], ht, hn, hstep.trans hc⟩

/-- the search for gray objects meets each of them, and announces those that turn gray behind it -/
theorem Traced.rescan (l : List Addr) (hl : ∀ a ∈ l, a ∈ D.objects) (h : Traced D (fun _ => False) (· ∈ l) s) :
    Traced D (fun _ => False) (fun _ => False) (l.foldl (Marker.rescanObject alloc D.store D.mod) s) ∧
      Closer D s (l.foldl (Marker.rescanObject alloc D.store D.mod) s) := by
  induction l generalizing s with
  | nil => exact ⟨⟨h.roots, h.sound, h.items, h.gray, h.black, fun a ha hg => by simpa using h.flag a ha hg⟩, .refl s⟩
  | cons a rest ih =>
    have hrest : ∀ c ∈ rest, c ∈ D.objects := fun c hc => hl c (List.mem_cons_of_mem _ hc)
    have ha : a ∈ D.objects := hl a (by simp)
    rw [List.foldl_cons]
    cases hg : s.gray a with
    | true =>
      have hT : Traceable D a := ⟨Domain.mem_known.2 (.inl ha), h.sound a ha (h.gray a ha hg)⟩
      rw [Marker.rescanObject, hg, if_pos rfl]
      have hscan := (scanObject_grows (s := { s with gray := Function.update s.gray a false }) alloc hT).1
      have hun : Closer D s { s with gray := Function.update s.gray a false } := ⟨le_refl _, le_refl _, Or.inl⟩
      obtain ⟨ht, hc⟩ := ih hrest (h.ungray.scan alloc hT)
      exact ⟨ht, (hun.trans (.of_grows hscan)).trans hc⟩
    | false =>
      rw [Marker.rescanObject, hg, if_neg (by simp)]
      refine ih hrest ⟨h.roots, h.sound, h.items, h.gray, h.black, fun c hc hgr => ?_⟩
      refine (h.flag c hc hgr).imp_right fun hm => (List.mem_cons.1 hm).resolve_left ?_
      rintro rfl
      simp [hg] at hgr

/-- rounds the trace may still need -/
def Marker.rounds (D : Domain) (s : Marker) : Nat :=
  unmarked D.known s.marked + if s.overflow then 1 else 0

/-- the trace ends: every round that starts from an overflow has marked something since the one before -/
theorem Traced.trace (K fuel : Nat) (h : Traced D (fun _ => False) (fun _ => False) s)
    (hK : unmarked D.known s.marked + s.items.length ≤ K) (hf : K + 1 + s.rounds D < fuel) :
    ∃ s', s.trace alloc D.store D.mod D.objects fuel = some s' ∧
      Traced D (fun _ => False) (fun _ => False) s' ∧ s'.items = [] ∧ s'.overflow = false := by
  induction fuel generalizing s with
  | zero => omega
  | succ fuel ih =>
    obtain ⟨s₁, hd, ht, hn, hc⟩ := h.drain alloc fuel (by omega)
    rw [Marker.trace, hd]
    cases ho : s₁.overflow with
    | false => exact ⟨s₁, by simp [ho], ht, hn, ho⟩
    | true =>
      have hreset : Traced D (fun _ => False) (· ∈ D.objects) { s₁ with overflow := false } :=
        ⟨ht.roots, ht.sound, ht.items, ht.gray, ht.black, fun a ha _ => .inr ha⟩
      obtain ⟨ht₂, hc₂⟩ := hreset.rescan alloc D.objects fun a ha => ha
      simp only [ho, Bool.not_true, Bool.false_eq_true, if_false]
      generalize D.objects.foldl (Marker.rescanObject alloc D.store D.mod) { s₁ with overflow := false } = s₂ at ht₂ hc₂ ⊢
      have h1 := hc.unmarked_le
      have h2 := hc.flagged ho
      have h3 := hc.size
      have h4 := hc₂.size
      have h5 := hc₂.unmarked_le
      have h6 := hc₂.flagged
      simp only [Bool.false_eq_true, false_or] at h4 h5 h6
      have hless : s₂.rounds D < s.rounds D := by
        unfold Marker.rounds
        cases hs : s.overflow with
        | true =>
          cases hs₂ : s₂.overflow with
          | true => have := h6 hs₂; simp only [if_true]; omega
          | false => simp only [if_true, Bool.false_eq_true, if_false]; omega
        | false =>
          have := h2.resolve_left (by simp [hs])
          cases hs₂ : s₂.overflow with
          | true => have := h6 hs₂; simp only [if_true, Bool.false_eq_true, if_false]; omega
          | false => simp only [Bool.false_eq_true, if_false]; omega
      obtain ⟨s', hs', hrest⟩ := ih ht₂ (by omega) (by omega)
      exact ⟨s', hs', hrest⟩

end

/-! ## The mark phase -/

/-- the mark phase of `D` ended as it should: the reachable objects are marked, and none is gray -/
structure MarkedExactly (D : Domain) (s : Marker) : Prop where
  marked : ∀ a ∈ D.objects, s.marked a = true ↔ D.Reachable a
  gray : ∀ a ∈ D.objects, s.gray a = false

namespace Domain
variable {D : Domain}

theorem Reachable.known {a : Addr} (h : D.Reachable a) : a ∈ D.known := by
  induction h with
  | root hr => exact root_known hr
  | step _ hp ih => exact points_known ih hp

theorem Reachable.no_points {a c : Addr} (h : D.Reachable a) (ha : a ∉ D.objects) : ¬ D.Points a c := by
  intro hp
  have hc := (mem_refs _ _ _ _).2 hp
  rw [refs_func ((mem_known.1 h.known).resolve_left ha)] at hc
  simp at hc

/-- marking the roots establishes the invariant, whatever the bits were -/
theorem traced_roots (D : Domain) (alloc : Nat → Bool) (bits : Bits) :
    Traced D (fun _ => False) (fun _ => False)
        ((domainRoots D.ctxs).foldl (Marker.markRef alloc) { toBits := bits.clear D.objects }) ∧
      Closer D { toBits := bits.clear D.objects }
        ((domainRoots D.ctxs).foldl (Marker.markRef alloc) { toBits := bits.clear D.objects }) := by
  obtain ⟨hg, hall⟩ := foldl_markRef_grows (U := D.known) (T := Traceable D) alloc (domainRoots D.ctxs)
    { toBits := bits.clear D.objects } fun a ha => ⟨⟨root_known ha, .root ha⟩, root_known ha⟩
  refine ⟨?_, .of_grows hg⟩
  constructor
  case roots => exact hall
  case sound =>
    intro a ha hm
    rcases hg.fresh a hm with hm | ⟨hT, _⟩
    · simp [Bits.clear, ha] at hm
    · exact hT.2
  case items =>
    intro a ha
    rcases hg.pushed a ha with ha | ⟨_, hT⟩
    · simp at ha
    · exact hT
  case gray =>
    intro a ha hgr
    rcases hg.grayed a hgr with hgr | ⟨hm, _⟩
    · simp [Bits.clear, ha] at hgr
    · exact hm
  case black =>
    intro a ha hm
    rcases hg.fresh a hm with hm | ⟨_, hi | hgr⟩
    · simp [Bits.clear, ha] at hm
    · exact .inr (.inl hi)
    · exact .inr (.inr (.inl hgr))
  case flag =>
    intro a ha hgr
    rcases hg.grayed a hgr with hgr | ⟨_, ho⟩
    · simp [Bits.clear, ha] at hgr
    · exact .inl ho

/-- when the trace has ended, the tri-colour invariant has nothing pending -/
theorem markedExactly_of_traced {s : Marker} (h : Traced D (fun _ => False) (fun _ => False) s) (hi : s.items = [])
    (ho : s.overflow = false) : MarkedExactly D s := by
  have hgray : ∀ a ∈ D.objects, s.gray a = false := by
    intro a ha
    by_contra hg
    simpa [ho] using h.flag a ha (by simpa using hg)
  have htri : Tricolour D.Points D.IsRoot (fun a => D.Reachable a ∧ (a ∈ D.objects → s.marked a = true))
      (fun _ => False) := by
    constructor
    case roots => exact fun a ha => ⟨.root ha, fun _ => h.roots a ha⟩
    case sound => exact fun a ha => ha.1
    case black =>
      intro a ha
      refine .inr fun c hc => ⟨.step ha.1 hc, fun _ => ?_⟩
      by_cases hobj : a ∈ D.objects
      · rcases h.black a hobj (ha.2 hobj) with hf | hm | hg | hs
        · exact hf.elim
        · simp [hi] at hm
        · simp [hgray a hobj] at hg
        · exact hs c hc
      · exact absurd hc (ha.1.no_points hobj)
  refine ⟨fun a ha => ⟨h.sound a ha, fun hr => ?_⟩, hgray⟩
  exact ((htri.marked_iff (fun _ _ hf => hf) a).2 hr).2 ha

/-- fuel that is enough for the mark phase -/
def markFuel (D : Domain) : Nat := 2 * D.known.card + 3

/-- **The mark phase.** For every object graph, all roots, any stale bits and any pattern of failing reallocations, it
ends with exactly the reachable objects of the heaps marked and none gray. -/
theorem stepMark_spec (D : Domain) (alloc : Nat → Bool) (bits : Bits) {fuel : Nat} (hf : D.markFuel ≤ fuel) :
    ∃ s, D.stepMark alloc bits fuel = some s ∧ MarkedExactly D s := by
  obtain ⟨ht, hc⟩ := D.traced_roots alloc bits
  unfold stepMark
  generalize (domainRoots D.ctxs).foldl (Marker.markRef alloc) { toBits := bits.clear D.objects } = s₀ at ht hc ⊢
  have hcard : unmarked D.known (bits.clear D.objects).marked ≤ D.known.card := Finset.card_filter_le _ _
  have hsize := hc.size
  have hunm := hc.unmarked_le
  simp only [List.length_nil] at hsize hunm
  have hrounds : s₀.rounds D ≤ D.known.card + 1 := by
    unfold Marker.rounds
    split_ifs <;> omega
  obtain ⟨s, hs, ht', hi, ho⟩ := ht.trace alloc D.known.card fuel (by omega) (by unfold markFuel at hf; omega)
  exact ⟨s, hs, markedExactly_of_traced ht' hi ho⟩

/-! ## Collections -/

/-- `other_heap_bytes`: what the other heaps of the domain hold -/
def otherHeapBytes (D : Domain) (own : Nat) : Nat :=
  (((domainHeaps D.ctxs).filter fun h => h != own).map fun h => (D.heaps h).allocatedBytes).sum

/-- the own heap as the mark phase leaves it -/
def markedHeap (D : Domain) (own : Nat) : GcState :=
  { D.heaps own with phase := .sweep, otherHeapBytes := D.otherHeapBytes own }

/-- `wah_gc_step`: mark, then sweep the own heap; `b` is the budget of its owner -/
def gcStep (D : Domain) (own : Nat) (alloc : Nat → Bool) (bits : Bits) (b : Budget) (fuel : Nat) :
    Option (GcState × Budget) :=
  match D.stepMark alloc bits fuel with
  | none => none
  | some s => some (stepSweep D.store s.marked (D.markedHeap own) b)

/-- `wah_gc_sweep_unreachable_exceptions` -/
def sweepUnreachableExceptions (D : Domain) (own : Nat) (alloc : Nat → Bool) (bits : Bits) (b : Budget) (fuel : Nat) :
    Option (GcState × Budget) :=
  if (D.heaps own).exceptionCount = 0 then some (D.heaps own, b)
  else
    match D.stepMark alloc bits fuel with
    | none => none
    | some s => some (sweepExceptions D.store s.marked (D.markedHeap own) b)

/-- the reachable objects, as a test -/
noncomputable def live (D : Domain) (a : Addr) : Bool := by
  classical exact decide (D.Reachable a)

/-- the objects a sweep of unreachable exceptions keeps -/
noncomputable def liveOrPlain (D : Domain) (a : Addr) : Bool := D.live a || !(D.store.obj a).isExn

/-- a sweep left exactly the objects to `keep`, in order, and counters, budget and self-check agree with the list -/
structure SweptExactly (S : Store) (keep : Addr → Bool) (g : GcState) (b : Budget) (g' : GcState) (b' : Budget) :
    Prop where
  objects : g'.allObjects = g.allObjects.filter keep
  objectCount : g'.objectCount.toNat = g'.allObjects.length
  exceptionCount : g'.exceptionCount.toNat = exnCount S g'.allObjects
  bytes : g'.allocatedBytes = bytesOf S g'.allObjects
  committed : b'.committed + bytesOf S g.allObjects = b.committed + bytesOf S g'.allObjects
  verified : verifyHeap S g' = true

theorem mem_objects_of_own {own : Nat} (hown : (D.ctxs[0]?).bind DomCtx.gc = some own) {a : Addr}
    (ha : a ∈ (D.heaps own).allObjects) : a ∈ D.objects := by
  refine List.mem_flatMap.2 ⟨own, ?_, ha⟩
  have hpos : 0 < D.ctxs.length := by
    by_contra hn
    rw [List.getElem?_eq_none (by omega)] at hown
    simp at hown
  exact List.mem_filterMap.2 ⟨0, List.mem_range.2 hpos, by simp [firstHeap, hown]⟩

/-- a sweep leaves an exact heap iff the 32-bit counter and its successor can count what is kept -/
theorem sweptExactly_iff {S : Store} {dead keep : Addr → Bool} {g g' : GcState} {b b' : Budget}
    (h : Swept S dead g b g' b') (hkeep : ∀ a ∈ g.allObjects, (!dead a) = keep a) :
    SweptExactly S keep g b g' b' ↔ (g.allObjects.filter keep).length + 1 < 2 ^ 32 := by
  have hobj : g'.allObjects = g.allObjects.filter keep := by rw [h.objects]; exact List.filter_congr hkeep
  rw [← hobj]
  constructor
  · intro he
    have hlt : g'.allObjects.length < 2 ^ 32 := by rw [← he.objectCount]; exact g'.objectCount.toNat_lt
    exact (h.tallied.verifyHeap_iff hlt).1 he.verified
  · intro hlt
    have hexn : exnCount S g'.allObjects ≤ g'.allObjects.length := List.countP_le_length
    constructor
    case objects => exact hobj
    case objectCount =>
      rw [h.tallied.objects]
      exact UInt32.toNat_ofNat_of_lt' (show _ < 2 ^ 32 by omega)
    case exceptionCount =>
      rw [h.tallied.exceptions]
      exact UInt32.toNat_ofNat_of_lt' (show _ < 2 ^ 32 by omega)
    case bytes => exact h.tallied.bytes
    case committed => exact h.committed
    case verified => exact (h.tallied.verifyHeap_iff (by omega)).2 hlt

/-- a sweep of no object -/
theorem swept_none {S : Store} {g : GcState} {b : Budget} (h : Tallied S g b) : Swept S (fun _ => false) g b g b :=
  ⟨by simp, h, rfl, rfl⟩

theorem tallied_markedHeap {own : Nat} {b : Budget} (h : Tallied D.store (D.heaps own) b) :
    Tallied D.store (D.markedHeap own) b :=
  ⟨h.objects, h.exceptions, h.bytes, h.covered⟩

/-- what a sweep after the mark phase does to the heap found before it -/
theorem swept_markedHeap {own : Nat} {b b' : Budget} {dead : Addr → Bool} {g' : GcState}
    (h : Swept D.store dead (D.markedHeap own) b g' b') : Swept D.store dead (D.heaps own) b g' b' :=
  ⟨h.objects, h.tallied, h.committed, h.maxBytes⟩

section
variable (D) (own : Nat) (alloc : Nat → Bool) (bits : Bits) (b : Budget)

/-- the collection ends, and what it leaves is exact iff the counters can hold it -/
theorem gcStep_spec (hown : (D.ctxs[0]?).bind DomCtx.gc = some own) (ht : Tallied D.store (D.heaps own) b) {fuel : Nat}
    (hf : D.markFuel ≤ fuel) :
    ∃ g' b', D.gcStep own alloc bits b fuel = some (g', b') ∧
      (SweptExactly D.store D.live (D.heaps own) b g' b' ↔
        ((D.heaps own).allObjects.filter D.live).length + 1 < 2 ^ 32) := by
  obtain ⟨s, hs, hm⟩ := D.stepMark_spec alloc bits hf
  refine ⟨_, _, by rw [gcStep, hs], ?_⟩
  refine sweptExactly_iff (swept_markedHeap (stepSweep_swept s.marked (tallied_markedHeap ht))) fun a ha => ?_
  rw [Bool.not_not, Bool.eq_iff_iff, hm.marked a (mem_objects_of_own hown ha)]
  simp [live]

/-- the sweep of exceptions ends, and what it leaves is exact iff the counters can hold it and the exception counter
did not wrap to zero -/
theorem sweepUnreachableExceptions_spec (hown : (D.ctxs[0]?).bind DomCtx.gc = some own)
    (ht : Tallied D.store (D.heaps own) b) {fuel : Nat} (hf : D.markFuel ≤ fuel) :
    ∃ g' b', D.sweepUnreachableExceptions own alloc bits b fuel = some (g', b') ∧
      (SweptExactly D.store D.liveOrPlain (D.heaps own) b g' b' ↔
        ((D.heaps own).allObjects.filter D.liveOrPlain).length + 1 < 2 ^ 32 ∧
          ¬ (0 < exnCount D.store (D.heaps own).allObjects ∧ exnCount D.store (D.heaps own).allObjects % 2 ^ 32 = 0)) := by
  have hcount : (D.heaps own).exceptionCount.toNat = exnCount D.store (D.heaps own).allObjects % 2 ^ 32 := by
    rw [ht.exceptions]; exact UInt32.toNat_ofNat'
  by_cases hz : (D.heaps own).exceptionCount = 0
  · refine ⟨_, _, by rw [sweepUnreachableExceptions, if_pos hz], ?_⟩
    rw [hz] at hcount
    by_cases hnone : exnCount D.store (D.heaps own).allObjects = 0
    · -- no exception at all: the sweep that was skipped would have kept everything
      have hkeep : ∀ a ∈ (D.heaps own).allObjects, (!false) = D.liveOrPlain a := by
        intro a ha
        have := List.countP_eq_zero.1 hnone a ha
        simp [liveOrPlain, this]
      rw [sweptExactly_iff (swept_none ht) hkeep, hnone]
      simp
    · -- the counter wrapped: the list still holds exceptions, and the counter says zero
      refine ⟨fun he => absurd he.exceptionCount ?_, fun he => absurd ⟨Nat.pos_of_ne_zero hnone, ?_⟩ he.2⟩
      · rw [hz]
        exact fun h => hnone h.symm
      · exact hcount.symm
  · obtain ⟨s, hs, hm⟩ := D.stepMark_spec alloc bits hf
    refine ⟨_, _, by rw [sweepUnreachableExceptions, if_neg hz, hs], ?_⟩
    have hne : exnCount D.store (D.heaps own).allObjects % 2 ^ 32 ≠ 0 := by
      rw [← hcount]
      exact fun h => hz (UInt32.toNat_inj.1 h)
    have hkeep : ∀ a ∈ (D.heaps own).allObjects,
        (!(!s.marked a && (D.store.obj a).isExn)) = D.liveOrPlain a := by
      intro a ha
      have := hm.marked a (mem_objects_of_own hown ha)
      have hlive : D.live a = s.marked a := by rw [Bool.eq_iff_iff, this]; simp [live]
      rw [liveOrPlain, hlive, Bool.not_and, Bool.not_not]
    rw [sweptExactly_iff (swept_markedHeap (sweepExceptions_swept s.marked (tallied_markedHeap ht))) hkeep]
    simp only [hne, and_false, not_false_eq_true, and_true]

/-- **Collections.** The mark phase ends with exactly the reachable objects marked and none gray. The full collection
then leaves exactly the reachable objects, in order and with exact counters, budget and self-check, iff fewer than
`2 ^ 32 - 1` objects stay; the sweep of exceptions does so for the reachable objects and those that are no exceptions
iff fewer than `2 ^ 32 - 1` stay and the number of exceptions is not a positive multiple of `2 ^ 32`. -/
theorem collections_exact_iff (hown : (D.ctxs[0]?).bind DomCtx.gc = some own)
    (ht : Tallied D.store (D.heaps own) b) :
    (∃ n, ∀ fuel ≥ n, ∃ s, D.stepMark alloc bits fuel = some s ∧ MarkedExactly D s) ∧
    ((∃ n, ∀ fuel ≥ n, ∃ g' b', D.gcStep own alloc bits b fuel = some (g', b') ∧
        SweptExactly D.store D.live (D.heaps own) b g' b') ↔
      ((D.heaps own).allObjects.filter D.live).length + 1 < 2 ^ 32) ∧
    ((∃ n, ∀ fuel ≥ n, ∃ g' b', D.sweepUnreachableExceptions own alloc bits b fuel = some (g', b') ∧
        SweptExactly D.store D.liveOrPlain (D.heaps own) b g' b') ↔
      ((D.heaps own).allObjects.filter D.liveOrPlain).length + 1 < 2 ^ 32 ∧
        ¬ (0 < exnCount D.store (D.heaps own).allObjects ∧
          exnCount D.store (D.heaps own).allObjects % 2 ^ 32 = 0)) := by
  refine ⟨⟨D.markFuel, fun fuel hf => D.stepMark_spec alloc bits hf⟩, ⟨?_, ?_⟩, ⟨?_, ?_⟩⟩
  · rintro ⟨n, hn⟩
    obtain ⟨g₁, b₁, h₁, he⟩ := hn (max n D.markFuel) (le_max_left _ _)
    obtain ⟨g₂, b₂, h₂, hiff⟩ := D.gcStep_spec own alloc bits b hown ht (le_max_right n D.markFuel)
    rw [h₁] at h₂
    cases h₂
    exact hiff.1 he
  · intro hlt
    refine ⟨D.markFuel, fun fuel hf => ?_⟩
    obtain ⟨g', b', h, hiff⟩ := D.gcStep_spec own alloc bits b hown ht hf
    exact ⟨g', b', h, hiff.2 hlt⟩
  · rintro ⟨n, hn⟩
    obtain ⟨g₁, b₁, h₁, he⟩ := hn (max n D.markFuel) (le_max_left _ _)
    obtain ⟨g₂, b₂, h₂, hiff⟩ :=
      D.sweepUnreachableExceptions_spec own alloc bits b hown ht (le_max_right n D.markFuel)
    rw [h₁] at h₂
    cases h₂
    exact hiff.1 he
  · intro hlt
    refine ⟨D.markFuel, fun fuel hf => ?_⟩
    obtain ⟨g', b', h, hiff⟩ := D.sweepUnreachableExceptions_spec own alloc bits b hown ht hf
    exact ⟨g', b', h, hiff.2 hlt⟩

end

/-! ## Heaps of host objects -/

/-- a context with a table of `n` host objects without payload, as `wah_gc_alloc_host(ctx, 0)` makes them -/
def hostTable (n : Nat) : Domain where
  store := ⟨fun _ => { reprId := reprHost, sizeBytes := headerSize }, fun _ => []⟩
  mod := 0
  ctxs := [⟨some 0, (List.range n).map Ref.obj, [], true, true⟩]
  heaps _ :=
    { allObjects := List.range n, objectCount := UInt32.ofNat n, allocatedBytes := n * headerSize }
  funcs := []
  funcs_leaf := by simp
  roots_known a ha := by
    left
    simpa [domainRoots, domainHeaps, firstHeap, List.range_succ] using ha
  refs_known a ha c hc := by
    simp [Store.refs, Obj.isExn, reprHost, reprExn] at hc

theorem hostTable_bytes (n : Nat) (l : List Addr) : bytesOf (hostTable n).store l = l.length * headerSize := by
  induction l with
  | nil => simp
  | cons a rest ih =>
    rw [bytesOf_cons, ih, List.length_cons, Nat.succ_mul, Nat.add_comm]
    rfl

theorem hostTable_exnCount (n : Nat) (l : List Addr) : exnCount (hostTable n).store l = 0 := by
  apply List.countP_eq_zero.2
  intro a _
  show ¬ (reprHost == reprExn) = true
  decide

theorem hostTable_tallied (n : Nat) :
    Tallied (hostTable n).store ((hostTable n).heaps 0) ⟨none, n * headerSize⟩ := by
  refine ⟨?_, ?_, ?_, ?_⟩
  · simp [hostTable]
  · rw [hostTable_exnCount]; rfl
  · rw [hostTable_bytes]; simp [hostTable]
  · rw [hostTable_bytes]; simp [hostTable]

theorem hostTable_live (n : Nat) : ((hostTable n).heaps 0).allObjects.filter (hostTable n).live = List.range n := by
  apply List.filter_eq_self.2
  intro a ha
  have hr : (hostTable n).Reachable a := .root (by simpa [IsRoot, hostTable, domainRoots] using ha)
  simp [live, hr]

/-- three host objects are all kept, with exact counters -/
theorem collections_exact_three :
    Tallied (hostTable 3).store ((hostTable 3).heaps 0) ⟨none, 3 * headerSize⟩ ∧
      ∃ n, ∀ fuel ≥ n, ∃ g' b',
        (hostTable 3).gcStep 0 (fun _ => false) ⟨fun _ => true, fun _ => true⟩ ⟨none, 3 * headerSize⟩ fuel = some (g', b') ∧
          SweptExactly (hostTable 3).store (hostTable 3).live ((hostTable 3).heaps 0) ⟨none, 3 * headerSize⟩ g' b' := by
  refine ⟨hostTable_tallied 3, ?_⟩
  refine ((collections_exact_iff (hostTable 3) 0 (fun _ => false) ⟨fun _ => true, fun _ => true⟩ ⟨none, 3 * headerSize⟩
    rfl (hostTable_tallied 3)).2.1).2 ?_
  rw [hostTable_live]
  decide

/-- with a table of `2 ^ 32 - 1` host objects the collection keeps them all, but `wah_gc_verify_heap` rejects the heap
-/
theorem collection_of_full_heap_not_exact :
    ¬ ∀ (D : Domain) (own : Nat) (alloc : Nat → Bool) (bits : Bits) (b : Budget),
      (D.ctxs[0]?).bind DomCtx.gc = some own → Tallied D.store (D.heaps own) b →
        ∃ n, ∀ fuel ≥ n, ∃ g' b', D.gcStep own alloc bits b fuel = some (g', b') ∧
          SweptExactly D.store D.live (D.heaps own) b g' b' := by
  intro hall
  obtain ⟨n, hn⟩ := hall (hostTable (2 ^ 32 - 1)) 0 (fun _ => true) ⟨fun _ => false, fun _ => false⟩
    ⟨none, (2 ^ 32 - 1) * headerSize⟩ rfl (hostTable_tallied _)
  obtain ⟨g₁, b₁, h₁, he⟩ := hn (max n (hostTable (2 ^ 32 - 1)).markFuel) (le_max_left _ _)
  obtain ⟨g₂, b₂, h₂, hiff⟩ := gcStep_spec (hostTable (2 ^ 32 - 1)) 0 (fun _ => true) ⟨fun _ => false, fun _ => false⟩
    ⟨none, (2 ^ 32 - 1) * headerSize⟩ rfl (hostTable_tallied _) (le_max_right n _)
  rw [h₁] at h₂
  cases h₂
  have hlt := hiff.1 he
  rw [hostTable_live, List.length_range] at hlt
  omega

end Domain

end Wah
