/-
The records of a plan do what the structured body does.

`Rel` relates a state of the structured machine to one of the record machine: frames have the same locals and operands,
the record of a frame is that of its position, and the handlers are those of the `try_table`s around the positions of
all frames. A branch out of a `try_table` leaves its handlers on top of these until the TRIM_HANDLERS at its target.

- `Rel.follows`: the record machine first executes that TRIM_HANDLERS; then one step of the structured machine is one
  record, or none if the instruction leaves no record, unless there is no room for a handler (`NoRoom`).
-/
import Wah.Program

namespace Wah

section Refine

variable {ι Val Store Exn : Type} {P : ι → Func} {m : Bool}

/-! ## Positions -/

/-- the analysis of the function is at a position of its structured body -/
def Func.At (m : Bool) (F : Func) (a : AState) (code : Code) (labels : List SLabel) : Prop :=
  ∃ last, F.Ended m last ∧ Pos (F.context m) m (F.decoded m) last a code labels

/-- the plan before the record of a position -/
abbrev Func.planBefore (m : Bool) (F : Func) (a : AState) : Plan := a.plan m (F.decoded m)

/-- the depth recorded on the way is part of that of the function -/
theorem Func.Ended.depth_le {F : Func} {last a : AState} (h : F.Ended m last)
    (ha : OnWay (F.context m) m (F.decoded m) last a) : a.v.maxStackDepth ≤ F.maxStackDepth m := by
  obtain ⟨is, hs⟩ := ha.ahead
  exact hs.noted.mono.trans h.depth.le

theorem Func.Ended.height_le {F : Func} {last a : AState} (h : F.Ended m last)
    (ha : OnWay (F.context m) m (F.decoded m) last a) : a.v.height ≤ F.maxStackDepth m := by
  obtain ⟨is, hs⟩ := ha.behind
  exact (hs.noted.above (Nat.le_refl _)).trans (h.depth_le ha)

/-- number of `try_table`s among labels -/
def handlerCount (labels : List SLabel) : Nat := labels.countP fun l => l.handler.isSome

theorem labelOk_handlerCount {labels : List SLabel} {fs : List CtrlFrame} (h : List.Forall₂ LabelOk labels fs) :
    handlerCount labels = tryCount fs := by
  induction h with
  | nil => rfl
  | @cons lab f labs fs h _ ih =>
    have : lab.handler.isSome = decide (f.opcode = .tryTable) := by
      rw [Bool.eq_iff_iff, decide_eq_true_iff, ← h.handler, Option.isSome_iff_ne_none]
    simp only [handlerCount, tryCount, List.countP_cons, this] at ih ⊢
    rw [ih]

section At

variable {F : Func} {a : AState} {code : Code} {labels : List SLabel}

theorem Func.At.labelsOk (h : F.At m a code labels) : List.Forall₂ LabelOk labels a.v.ctrl := by
  obtain ⟨last, ⟨hf, hend⟩, hp⟩ := h
  obtain ⟨b, hs, ho⟩ := hp.rest
  have hbal := steps_flat m code hs (ho.decoded hf)
  exact hbal.ctrl ▸ ho.labels hf

theorem Func.At.tries (h : F.At m a code labels) : handlerCount labels = tryCount a.v.ctrl :=
  labelOk_handlerCount h.labelsOk

theorem Func.At.matched (h : F.At m a code labels) : Matched m (F.decoded m) a := by
  obtain ⟨last, -, hp⟩ := h
  exact hp.onWay.matched

theorem Func.At.live (h : F.At m a code labels) : a.v.isUnreachable = false := by
  obtain ⟨last, -, hp⟩ := h
  exact hp.live

/-- the operands are within the depth of the function -/
theorem Func.At.height_le (h : F.At m a code labels) : a.v.height ≤ F.maxStackDepth m := by
  obtain ⟨last, he, hp⟩ := h
  exact he.height_le hp.onWay

/-- labels are below the operands of the innermost construct -/
theorem Func.At.label_height (h : F.At m a code labels) {lab : SLabel} (hl : lab ∈ labels) :
    lab.height ≤ a.v.baseHeight := by
  obtain ⟨k, hk⟩ := List.mem_iff_getElem?.mp hl
  obtain ⟨hlt, rfl⟩ := List.getElem?_eq_some_iff.mp hk
  have hlen := h.labelsOk.length_eq
  have hok := h.labelsOk.get hlt (hlen ▸ hlt)
  rw [List.get_eq_getElem, List.get_eq_getElem] at hok
  rw [hok.height, baseHeight_eq]
  exact h.matched.frames.base_le _ (List.getElem_mem _)

end At

/-! ## Where branches lead -/

/-- a branch to label `l` goes on at record `r` with `n` values above `h` operands -/
inductive Dest (m : Bool) (F : Func) (labels : List SLabel) (l r : Nat) : Nat → Nat → Prop where
  | label {lab : SLabel} {a : AState} (hl : labels[l]? = some lab) (ha : F.At m a lab.target (labels.drop (l + 1)))
      (harr : Arrives m (F.decoded m) r a) (hh : a.v.height = lab.height + lab.arity)
      (ht : handlerCount (labels.drop (l + 1)) < handlerCount labels →
        TrimAt m (F.decoded m) r (tryCount a.v.ctrl)) : Dest m F labels l r lab.arity lab.height
  | func (hl : labels[l]? = none) (hr : r + 1 = (F.plan m).size) (hd : F.nresults ≤ F.maxStackDepth m) :
      Dest m F labels l r F.nresults 0

/-- number of values a clause pushes -/
def payloadArity (M : Module) (kind : CatchKind) (tag : Nat) : Nat :=
  (if kind.hasTag then tagArity M tag else 0) + (if kind.hasExnref then 1 else 0)

/-- a lowered clause of a `try_table` inside of the given labels -/
structure ClauseOk (m : Bool) (F : Func) (spBase : Nat) (labels : List SLabel) (c : CatchClause)
    (lc : LCatch Target) : Prop where
  kind : lc.kind = c.kind
  tag : lc.tag = c.tag
  dest : ∃ n h, Dest m F labels c.label ((F.plan m).index lc.target) n h ∧
    payloadArity F.module c.kind c.tag = n ∧ spBase - lc.drop = h

/-! ## Handlers -/

section Handlers

variable (m) (P)

/-- the handlers of a frame at a call depth, by the `try_table`s around its position -/
inductive Handlers (f : ι) (depth : Nat) : List SLabel → List (Handler ι Target) → Prop where
  | nil : Handlers f depth [] []
  | plain {lab : SLabel} {labels : List SLabel} {hs : List (Handler ι Target)} (hl : lab.handler = none)
      (h : Handlers f depth labels hs) : Handlers f depth (lab :: labels) hs
  | installed {lab : SLabel} {labels : List SLabel} {hs : List (Handler ι Target)} {cs : List CatchClause}
      {hd : Handler ι Target} (hl : lab.handler = some cs) (hdepth : hd.callDepth = depth) (hfid : hd.fid = f)
      (hc : List.Forall₂ (ClauseOk m (P f) hd.spBase labels) cs hd.catches) (h : Handlers f depth labels hs) :
      Handlers f depth (lab :: labels) (hd :: hs)

end Handlers

section Handlers

variable {f : ι} {depth : Nat} {labels : List SLabel} {hs : List (Handler ι Target)}

theorem Handlers.length (h : Handlers P m f depth labels hs) : hs.length = handlerCount labels := by
  induction h with
  | nil => rfl
  | plain hl _ ih => simp [handlerCount, hl, ih]
  | installed hl _ _ _ _ ih => simp [handlerCount, hl, ih]

theorem Handlers.callDepth (h : Handlers P m f depth labels hs) : ∀ hd ∈ hs, hd.callDepth = depth := by
  induction h with
  | nil => simp
  | plain _ _ ih => exact ih
  | installed _ hdepth _ _ _ ih => simpa [hdepth] using ih

theorem Handlers.fid (h : Handlers P m f depth labels hs) : ∀ hd ∈ hs, hd.fid = f := by
  induction h with
  | nil => simp
  | plain _ _ ih => exact ih
  | installed _ _ hfid _ _ ih => simpa [hfid] using ih

theorem Handlers.mine (h : Handlers P m f depth labels hs) : ∀ hd ∈ hs, hd.callDepth = depth ∧ hd.fid = f :=
  fun hd hm => ⟨h.callDepth hd hm, h.fid hd hm⟩

/-- leaving constructs leaves the handlers of the outer ones -/
theorem Handlers.drop (h : Handlers P m f depth labels hs) (k : Nat) :
    ∃ extra own, hs = extra ++ own ∧ Handlers P m f depth (labels.drop k) own := by
  induction h generalizing k with
  | nil => exact ⟨[], [], rfl, by simpa using .nil⟩
  | @plain lab labels hs hl h ih =>
    cases k with
    | zero => exact ⟨[], hs, rfl, .plain hl h⟩
    | succ k => simpa using ih k
  | @installed lab labels hs cs hd hl hdepth hfid hc h ih =>
    cases k with
    | zero => exact ⟨[], hd :: hs, rfl, .installed hl hdepth hfid hc h⟩
    | succ k =>
      obtain ⟨extra, own, rfl, ho⟩ := ih k
      exact ⟨hd :: extra, own, rfl, by simpa using ho⟩

theorem Handlers.pop {lab : SLabel} (h : Handlers P m f depth (lab :: labels) hs) (hl : lab.handler = none) :
    Handlers P m f depth labels hs := by
  cases h with
  | plain _ h => exact h
  | installed hl' => simp [hl] at hl'

theorem Handlers.popTry {lab : SLabel} (h : Handlers P m f depth (lab :: labels) hs) (hl : lab.handler ≠ none) :
    ∃ hd hs', hs = hd :: hs' ∧ Handlers P m f depth labels hs' := by
  cases h with
  | plain hl' => exact absurd hl' hl
  | installed _ _ _ _ h => exact ⟨_, _, rfl, h⟩

end Handlers

/-! ## Frames -/

section Frames

variable (m)

/-- a frame that waits for `results` values, at a position of its function -/
structure FrameAt (depth results : Nat) (sf : Frame ι Val SPos) (rf : Frame ι Val Nat)
    (hs : List (Handler ι Target)) (a : AState) : Prop where
  fid : rf.fid = sf.fid
  locals : rf.locals = sf.locals
  opnds : rf.opnds = sf.opnds
  count : sf.locals.length = (P sf.fid).nparams + (P sf.fid).nlocals
  pos : (P sf.fid).At m a sf.pc.code sf.pc.labels
  height : a.v.height = sf.opnds.length + results
  base : a.v.baseHeight ≤ sf.opnds.length
  handlers : Handlers P m sf.fid depth sf.pc.labels hs

/-- the running frame with its handlers. Those of `try_table`s that a branch has left are on top, until a
TRIM_HANDLERS at the position drops them, or the function returns. -/
inductive Top (depth : Nat) (sf : Frame ι Val SPos) (rf : Frame ι Val Nat) : List (Handler ι Target) → Prop where
  | at_ {extra own : List (Handler ι Target)} {a : AState} (h : FrameAt (P := P) m depth 0 sf rf own a)
      (harr : Arrives m ((P sf.fid).decoded m) rf.pc a) (hx : ∀ hd ∈ extra, hd.callDepth = depth ∧ hd.fid = sf.fid)
      (ht : extra = [] ∨ TrimAt m ((P sf.fid).decoded m) rf.pc (tryCount a.v.ctrl)) : Top depth sf rf (extra ++ own)
  | atEnd {hs : List (Handler ι Target)} (hfid : rf.fid = sf.fid) (hopnds : rf.opnds = sf.opnds)
      (hlocals : rf.locals = sf.locals) (hcode : sf.pc = ⟨.nil, []⟩) (hpc : rf.pc + 1 = ((P sf.fid).plan m).size)
      (hlen : sf.opnds.length = (P sf.fid).nresults) (hdepth : (P sf.fid).nresults ≤ (P sf.fid).maxStackDepth m)
      (hx : ∀ hd ∈ hs, hd.callDepth = depth ∧ hd.fid = sf.fid) : Top depth sf rf hs

/-- calling frames, innermost first; the first one waits for `results` values -/
inductive Suspended : Nat → List (Frame ι Val SPos) → List (Frame ι Val Nat) → List (Handler ι Target) → Prop where
  | nil (results : Nat) : Suspended results [] [] []
  | cons {results : Nat} {sf : Frame ι Val SPos} {rf : Frame ι Val Nat} {srest : List (Frame ι Val SPos)}
      {rrest : List (Frame ι Val Nat)} {hs hs' : List (Handler ι Target)} {a : AState}
      (h : FrameAt (P := P) m (srest.length + 1) results sf rf hs a) (hpc : rf.pc = ((P sf.fid).planBefore m a).size)
      (hr : Suspended (P sf.fid).nresults srest rrest hs') :
      Suspended results (sf :: srest) (rf :: rrest) (hs ++ hs')

/-- the relation between the structured machine and the records -/
inductive Rel : SCore ι Val Store → RCore ι Val Store → Prop where
  | mk {sf : Frame ι Val SPos} {rf : Frame ι Val Nat} {srest : List (Frame ι Val SPos)}
      {rrest : List (Frame ι Val Nat)} {hs hs' : List (Handler ι Target)} (st : Store)
      (htop : Top (P := P) m (srest.length + 1) sf rf hs)
      (hr : Suspended (P := P) m (P sf.fid).nresults srest rrest hs') :
      Rel ⟨sf :: srest, [], st⟩ ⟨rf :: rrest, hs ++ hs', st⟩

/-- outcomes that agree -/
inductive Agree : Res ι Val Store Empty SPos → Res ι Val Store Target Nat → Prop where
  | run {c : SCore ι Val Store} {c' : RCore ι Val Store} (h : Rel (P := P) m c c') (zeroed : Nat) :
      Agree (.run c zeroed) (.run c' zeroed)
  | finished (vs : List Val) (st : Store) : Agree (.finished vs st) (.finished vs st)
  | failed (e : Fault) (st : Store) : Agree (.failed e st) (.failed e st)

end Frames

theorem Suspended.length {results : Nat} {srest : List (Frame ι Val SPos)} {rrest : List (Frame ι Val Nat)}
    {hs : List (Handler ι Target)} (h : Suspended (P := P) m results srest rrest hs) : rrest.length = srest.length := by
  induction h with
  | nil => rfl
  | cons _ _ _ ih => simp [ih]

/-- number of `try_table`s around the positions of all frames -/
def openTries (frames : List (Frame ι Val SPos)) : Nat := (frames.map fun fr => handlerCount fr.pc.labels).sum

@[simp] theorem openTries_cons (fr : Frame ι Val SPos) (frames : List (Frame ι Val SPos)) :
    openTries (fr :: frames) = handlerCount fr.pc.labels + openTries frames := rfl

theorem Suspended.openTries {results : Nat} {srest : List (Frame ι Val SPos)} {rrest : List (Frame ι Val Nat)}
    {hs : List (Handler ι Target)} (h : Suspended (P := P) m results srest rrest hs) :
    hs.length = openTries srest := by
  induction h with
  | nil => rfl
  | cons h _ _ ih => rw [List.length_append, ih, h.handlers.length, openTries_cons]

theorem Suspended.callDepth {results : Nat} {srest : List (Frame ι Val SPos)} {rrest : List (Frame ι Val Nat)}
    {hs : List (Handler ι Target)} (h : Suspended (P := P) m results srest rrest hs) :
    ∀ hd ∈ hs, hd.callDepth ≤ srest.length := by
  induction h with
  | nil => simp
  | cons h _ _ ih =>
    intro hd hm
    rcases List.mem_append.mp hm with hm | hm
    · rw [h.handlers.callDepth hd hm, List.length_cons]
    · exact Nat.le_succ_of_le (ih hd hm)

/-! ## Branches -/

section Branch

variable {S : Sem ι Val Store Exn P}

theorem dropKeep_eq {α : Type} {keep drop h : Nat} {vs : List α} (hk : h + keep ≤ vs.length)
    (hd : drop = vs.length - h - keep) : dropKeep keep drop vs = vs.take keep ++ keepBottom h vs := by
  unfold dropKeep keepBottom
  congr 2
  omega

theorem length_take_keepBottom {α : Type} {n h : Nat} {vs : List α} (hk : n + h ≤ vs.length) :
    (vs.take n ++ keepBottom h vs).length = n + h := by
  simp only [keepBottom, List.length_append, List.length_take, List.length_drop]
  omega

theorem keepBottom_append {α : Type} {h : Nat} (as : List α) {vs : List α} (hk : h ≤ vs.length) :
    keepBottom h (as ++ vs) = keepBottom h vs := by
  unfold keepBottom
  rw [List.length_append, Nat.add_sub_assoc hk, List.drop_append, List.drop_of_length_le (by omega), List.nil_append]
  congr 1
  omega

/-- where a branch lands, the frames agree again -/
theorem Dest.top {depth l r n h : Nat} {sf : Frame ι Val SPos} (rf : Frame ι Val Nat) {labels : List SLabel}
    {hs : List (Handler ι Target)} (vs : List Val) (hd : Dest m (P sf.fid) labels l r n h)
    (hfid : rf.fid = sf.fid) (hlocals : rf.locals = sf.locals)
    (hcount : sf.locals.length = (P sf.fid).nparams + (P sf.fid).nlocals)
    (hh : Handlers P m sf.fid depth labels hs) (hk : n + h ≤ vs.length) :
    Top (P := P) m depth (sBranch (P := P) sf labels l vs) { rf with pc := r, opnds := vs.take n ++ keepBottom h vs } hs := by
  cases hd with
  | @label lab a hl ha harr hheight ht =>
    have hb : sBranch (P := P) sf labels l vs =
        { sf with pc := ⟨lab.target, labels.drop (l + 1)⟩, opnds := vs.take lab.arity ++ keepBottom lab.height vs } := by
      simp [sBranch, hl]
    have hlen := length_take_keepBottom hk
    obtain ⟨extra, own, rfl, hown⟩ := hh.drop (l + 1)
    rw [hb]
    refine .at_ (a := a) ⟨hfid, hlocals, rfl, hcount, ha, ?_, ?_, hown⟩ harr
      (fun hd hm => hh.mine hd (List.mem_append_left _ hm)) ?_
    · simpa [hlen, Nat.add_comm] using hheight
    · have := ha.matched.base
      simp only [hlen]
      omega
    · have h1 := hh.length
      have h2 := hown.length
      rw [List.length_append] at h1
      rcases Nat.eq_zero_or_pos extra.length with h0 | h0
      · exact .inl (List.length_eq_zero_iff.mp h0)
      · exact .inr (ht (by omega))
  | func hl hr hdepth =>
    have hb : sBranch (P := P) sf labels l vs =
        { sf with pc := ⟨.nil, []⟩, opnds := vs.take (P sf.fid).nresults } := by
      simp [sBranch, hl]
    have h0 : keepBottom 0 vs = [] := by simp [keepBottom]
    rw [hb, h0, List.append_nil]
    have hlen : (vs.take (P sf.fid).nresults).length = (P sf.fid).nresults := by
      rw [List.length_take]
      omega
    exact .atEnd hfid rfl hlocals rfl hr hlen hdepth hh.mine

end Branch

/-! ## Exceptions -/

section Throw

variable {S : Sem ι Val Store Exn P}

theorem forall₂_find? {α β : Type} {R : α → β → Prop} {p : α → Bool} {q : β → Bool} {as : List α} {bs : List β}
    (h : List.Forall₂ R as bs) (hpq : ∀ a b, R a b → q b = p a) :
    (as.find? p = none ∧ bs.find? q = none) ∨ ∃ a b, as.find? p = some a ∧ bs.find? q = some b ∧ R a b := by
  induction h with
  | nil => exact .inl ⟨rfl, rfl⟩
  | @cons a b as bs hab _ ih =>
    cases hp : p a with
    | true => exact .inr ⟨a, b, by simp [hp], by simp [hpq a b hab, hp], hab⟩
    | false => simpa [List.find?_cons, hp, hpq a b hab] using ih

/-- handlers outside of the frames in front are tried as if these were gone -/
theorem unwind_append (N : Nav ι Target Nat) (x : Exn) (st : Store) (pre frames : List (Frame ι Val Nat))
    {hs : List (Handler ι Target)} (h : ∀ hd ∈ hs, hd.callDepth ≤ frames.length) :
    unwind S N x st (pre ++ frames) hs = unwind S N x st frames hs := by
  cases hs with
  | nil => simp [unwind]
  | cons hd hs =>
    have hd' := h hd (by simp)
    have : (pre ++ frames).drop ((pre ++ frames).length - hd.callDepth) = frames.drop (frames.length - hd.callDepth) := by
      rw [List.length_append, Nat.add_sub_assoc hd', List.drop_append, List.drop_of_length_le (by omega),
        List.nil_append]
      congr 1
      omega
    simp only [unwind, this]

/-- the payload of an exception has the length of the clause that catches it -/
theorem payload_length {x : Exn} {f : ι} {c : CatchClause} (h : sMatches S x f c = true) :
    (payload S c.kind x).length = payloadArity (P f).module c.kind c.tag := by
  unfold payload payloadArity
  unfold sMatches at h
  cases hk : c.kind.hasTag with
  | false => cases c.kind.hasExnref <;> simp
  | true =>
    have htag : S.exnTag x = S.tagId f c.tag := by
      simp only [hk, Bool.not_true, Bool.false_or, decide_eq_true_eq] at h
      exact h.symm
    have := S.exn_length x f c.tag htag
    cases c.kind.hasExnref <;> simp [this, Nat.add_comm]

/-- a frame that an exception may reach -/
structure Catcher (m : Bool) (P : ι → Func) (depth : Nat) (sf : Frame ι Val SPos) (rf : Frame ι Val Nat)
    (labels : List SLabel) (hs : List (Handler ι Target)) : Prop where
  fid : rf.fid = sf.fid
  locals : rf.locals = sf.locals
  opnds : rf.opnds = sf.opnds
  count : sf.locals.length = (P sf.fid).nparams + (P sf.fid).nlocals
  low : ∀ lab ∈ labels, lab.height ≤ sf.opnds.length
  handlers : Handlers P m sf.fid depth labels hs

theorem FrameAt.catcher {depth results : Nat} {sf : Frame ι Val SPos} {rf : Frame ι Val Nat}
    {hs : List (Handler ι Target)} {a : AState} (h : FrameAt (P := P) m depth results sf rf hs a) :
    Catcher m P depth sf rf sf.pc.labels hs where
  fid := h.fid
  locals := h.locals
  opnds := h.opnds
  count := h.count
  low _ hl := Nat.le_trans (h.pos.label_height hl) h.base
  handlers := h.handlers

/-- the innermost clause that matches in a frame is the first one of its handlers that does -/
theorem Catcher.catch_ {sf : Frame ι Val SPos} {rf : Frame ι Val Nat} (rest : List (Frame ι Val Nat))
    {labels : List SLabel} {hs : List (Handler ι Target)} (x : Exn) (st : Store) (hs' : List (Handler ι Target))
    (h : Catcher m P (rest.length + 1) sf rf labels hs) :
    (sCatch S x sf labels = none ∧
      unwind S (rNav P m) x st (rf :: rest) (hs ++ hs') = unwind S (rNav P m) x st (rf :: rest) hs') ∨
    ∃ sf' rf' hs1, sCatch S x sf labels = some sf' ∧ sf'.fid = sf.fid ∧
      unwind S (rNav P m) x st (rf :: rest) (hs ++ hs') = .run ⟨rf' :: rest, hs1 ++ hs', st⟩ 0 ∧
      Top (P := P) m (rest.length + 1) sf' rf' hs1 := by
  obtain ⟨hfid, hlocals, hopnds, hcount, hlow, hh⟩ := h
  induction hh with
  | nil => exact .inl ⟨rfl, rfl⟩
  | @plain lab labels hs hl h ih =>
    rcases ih fun l hm => hlow l (List.mem_cons_of_mem _ hm) with ⟨h1, h2⟩ | ⟨sf', rf', hs1, h1, h2⟩
    · exact .inl ⟨by simpa [sCatch, hl] using h1, h2⟩
    · exact .inr ⟨sf', rf', hs1, by simpa [sCatch, hl] using h1, h2⟩
  | @installed lab labels hs cs hd hl hdepth hfid' hc h ih =>
    have hpq : ∀ c lc, ClauseOk m (P sf.fid) hd.spBase labels c lc → clauseMatches S x hd.fid lc = sMatches S x sf.fid c := by
      intro c lc hcl
      simp only [clauseMatches, sMatches, hcl.kind, hcl.tag, hfid']
    have hdrop : (rf :: rest).drop ((rf :: rest).length - hd.callDepth) = rf :: rest := by simp [hdepth]
    rcases forall₂_find? hc hpq with ⟨hf1, hf2⟩ | ⟨c, lc, hf1, hf2, hcl⟩
    · have hstep : unwind S (rNav P m) x st (rf :: rest) (hd :: hs ++ hs') =
          unwind S (rNav P m) x st (rf :: rest) (hs ++ hs') := by
        simp only [List.cons_append, unwind, hdrop, hf2]
      rw [hstep]
      rcases ih fun l hm => hlow l (List.mem_cons_of_mem _ hm) with ⟨h1, h2⟩ | ⟨sf', rf', hs1, h1, h2⟩
      · exact .inl ⟨by simpa [sCatch, hl, hf1] using h1, h2⟩
      · exact .inr ⟨sf', rf', hs1, by simpa [sCatch, hl, hf1] using h1, h2⟩
    · obtain ⟨n, hgt, hdest, harity, hbase⟩ := hcl.dest
      have hlen := (payload_length (S := S) (List.find?_some hf1)).trans harity
      have hlow' : hgt ≤ sf.opnds.length := by
        cases hdest with
        | @label lab' _ hl' _ _ _ _ => exact hlow lab' (List.mem_cons_of_mem _ (List.mem_of_getElem? hl'))
        | func => omega
      have htop := hdest.top rf (payload S c.kind x ++ sf.opnds) hfid hlocals hcount h (by rw [List.length_append]; omega)
      rw [List.take_left' hlen, keepBottom_append _ hlow'] at htop
      refine .inr ⟨_, _, hs, by simp only [sCatch, hl, Option.getD_some, hf1], ?_, ?_, htop⟩
      · unfold sBranch
        split <;> rfl
      · simp only [List.cons_append, unwind, hdrop, hf2, rNav, hbase, hcl.kind, hopnds]
        rw [hfid']

/-- **Unwinding.** An exception is caught by the same frame and clause, and lands at the same operands. -/
theorem throw_agree {results : Nat} (x : Exn) (st : Store) {sf : Frame ι Val SPos} {rf : Frame ι Val Nat}
    {srest : List (Frame ι Val SPos)} {rrest : List (Frame ι Val Nat)} {hs hs' : List (Handler ι Target)}
    (h : Catcher m P (srest.length + 1) sf rf sf.pc.labels hs)
    (hr : Suspended (P := P) m results srest rrest hs') (hn : results = (P sf.fid).nresults) :
    Agree (P := P) m (sThrow S x st (sf :: srest)) (unwind S (rNav P m) x st (rf :: rrest) (hs ++ hs')) := by
  induction hr generalizing sf rf hs with
  | nil results =>
    rcases h.catch_ (S := S) [] x st [] with ⟨h1, h2⟩ | ⟨sf', rf', hs1, h1, hfid, h2, h3⟩
    · rw [h2]
      simp only [sThrow, h1, unwind]
      exact .failed _ _
    · rw [h2]
      simp only [sThrow, h1]
      exact .run (.mk st h3 (.nil _)) 0
  | @cons results sf2 rf2 srest rrest hs2 hs2' a h' hpc hr ih =>
    have hlen := hr.length
    rw [List.length_cons, ← hlen] at h
    rcases h.catch_ (S := S) (rf2 :: rrest) x st (hs2 ++ hs2') with ⟨h1, h2⟩ | ⟨sf', rf', hs1, h1, hfid, h2, h3⟩
    · rw [h2]
      have hdepth : ∀ hd ∈ hs2 ++ hs2', hd.callDepth ≤ (rf2 :: rrest).length := by
        intro hd hm
        have := (Suspended.cons h' hpc hr).callDepth hd hm
        simpa [hlen] using this
      have h3 : sThrow S x st (sf :: sf2 :: srest) = sThrow S x st (sf2 :: srest) := by
        simp only [sThrow, h1]
      have h4 := unwind_append (S := S) (rNav P m) x st [rf] (rf2 :: rrest) hdepth
      rw [List.singleton_append] at h4
      rw [h3, h4]
      exact ih h'.catcher rfl
    · rw [h2]
      simp only [sThrow, h1]
      refine .run (.mk st ?_ ?_) 0
      · simpa [hlen] using h3
      · exact hfid ▸ hn ▸ .cons h' hpc hr

end Throw

/-! ## Destinations of branches -/

theorem handlerCount_drop {labels : List SLabel} {fs : List CtrlFrame} (h : List.Forall₂ LabelOk labels fs) (k : Nat) :
    handlerCount (labels.drop k) = tryCount (fs.drop k) := labelOk_handlerCount (List.forall₂_drop k h)

/-- a label of an instruction, after the branches of the instruction have been noted; the `skip` innermost constructs
are not around the branch -/
theorem dest_of_target {F : Func} {last a b : AState} {k : Code} {labels : List SLabel} {l h : Nat} {ts : List Ty}
    (skip : Nat) (he : F.Ended m last) (ha : OnWay (F.context m) m (F.decoded m) last a)
    (hs : Steps (F.context m) a k.flat b) (ho : Outer (F.context m) m (F.decoded m) last b labels)
    (hnoted : ∀ g, (F.planBefore m a).ctrl[skip + l]? = some g → g.tryDepth < tryCount (a.v.ctrl.drop skip) →
      g.needsTrim = true)
    (ht : a.v.brTarget F.ctx.func (skip + l) = some (ts, h)) (hdepth : h + ts.length ≤ F.maxStackDepth m) :
    Dest m F (labels.drop skip) l ((F.plan m).index ((F.planBefore m a).target (skip + l))) ts.length h := by
  obtain ⟨hf, hend⟩ := he
  have hbal := steps_flat m k hs (ho.decoded hf)
  have hlab : List.Forall₂ LabelOk labels a.v.ctrl := hbal.ctrl ▸ ho.labels hf
  have hlen := hlab.length_eq
  unfold VCtx.brTarget at ht
  cases hl : labels[skip + l]? with
  | some lab =>
    obtain ⟨f, g, a', hd⟩ := ho.target hf ha hs hl
    have hlt : skip + l < a.v.ctrl.length := (List.getElem?_eq_some_iff.mp hd.frame).1
    rw [if_neg (by omega), hd.frame, Option.map_some, Option.some.injEq, Prod.mk.injEq] at ht
    obtain ⟨rfl, rfl⟩ := ht
    have htarget : (F.planBefore m a).target (skip + l) = g.name := by
      rw [Plan.target_eq, List.getElem?_map, hd.plan]
      rfl
    have harity : lab.arity = (if f.opcode = .loop then f.params else f.results).length := by
      rw [hd.label.arity]
      split <;> rfl
    have hrest : (labels.drop skip).drop (l + 1) = labels.drop (skip + l + 1) := by rw [List.drop_drop, Nat.add_assoc]
    rw [htarget, ← harity, ← hd.label.height]
    refine .label (by rw [List.getElem?_drop, hl]) ⟨last, ⟨hf, hend⟩, hrest ▸ hd.pos⟩ hd.arrives hd.height fun hcount => ?_
    rw [hrest, handlerCount_drop hlab, handlerCount_drop hlab] at hcount
    have hneeds : g.needsTrim = true :=
      hnoted g hd.plan ((ha.matched.frames.get hd.frame hd.plan).2 ▸ hcount)
    refine hd.trimAt ha (fun _ => hneeds) (Nat.lt_of_lt_of_le hcount ?_)
    exact (List.drop_sublist skip _).countP_le
  | none =>
    have hge : labels.length ≤ skip + l := List.getElem?_eq_none_iff.mp hl
    have hl' : skip + l = a.v.ctrl.length := by
      by_contra hne
      rw [if_neg hne, List.getElem?_eq_none (by omega)] at ht
      simp at ht
    rw [if_pos hl', Option.some.injEq, Prod.mk.injEq] at ht
    obtain ⟨rfl, rfl⟩ := ht
    have hres : F.nresults ≤ F.maxStackDepth m := by
      rw [Nat.zero_add] at hdepth
      exact hdepth
    refine .func (by rw [List.getElem?_drop, hl]) ?_ hres
    have hpl : (F.planBefore m a).ctrl.length = a.v.ctrl.length := ha.matched.frames.length
    have htarget : (F.planBefore m a).target (skip + l) = .func := by
      rw [Plan.target_eq, List.getElem?_eq_none (by rw [List.length_map]; omega)]
      rfl
    have hsize : (F.plan m).size = (last.plan m (F.decoded m)).size + 1 := (hf.adds (ha.atLast hf).matched).size
    rw [htarget, Plan.index]
    omega

/-! ## Moving on -/

section Move

variable {S : Sem ι Val Store Exn P} {srest : List (Frame ι Val SPos)} {rrest : List (Frame ι Val Nat)}
  {own hs' : List (Handler ι Target)}

theorem Suspended.slots_eq {results : Nat} (h : Suspended (P := P) m results srest rrest hs') :
    slots rrest = slots srest := by
  induction h with
  | nil => rfl
  | cons h _ _ ih =>
    simp only [slots, List.map_cons, List.sum_cons, h.locals, h.opnds] at ih ⊢
    rw [ih]

/-- dropping the handlers of a frame keeps those of its callers -/
theorem dropFrameHandlers_eq {hs hs' : List (Handler ι Target)} {depth : Nat} (h : ∀ hd ∈ hs, hd.callDepth = depth)
    (h' : ∀ hd ∈ hs', hd.callDepth < depth) : dropFrameHandlers depth (hs ++ hs') = hs' := by
  unfold dropFrameHandlers
  rw [List.dropWhile_append_of_pos fun hd hm => by simp [h hd hm]]
  cases hs' with
  | nil => rfl
  | cons hd hs' =>
    have := h' hd (by simp)
    rw [List.dropWhile_cons_of_neg (by simpa using this)]

/-- a frame without handlers of constructs it has left -/
theorem Top.of_frame {depth : Nat} {sf : Frame ι Val SPos} {rf : Frame ι Val Nat} {a : AState}
    (h : FrameAt (P := P) m depth 0 sf rf own a) (harr : Arrives m ((P sf.fid).decoded m) rf.pc a) :
    Top (P := P) m depth sf rf own :=
  List.nil_append own ▸ .at_ h harr (fun _ hm => absurd hm List.not_mem_nil) (.inl rfl)

/-- a state that goes on in the same frame -/
theorem Agree.next {sf : Frame ι Val SPos} {rf : Frame ι Val Nat} {a : AState} (st : Store)
    (h : FrameAt (P := P) m (srest.length + 1) 0 sf rf own a) (hpc : rf.pc = ((P sf.fid).planBefore m a).size)
    (hr : Suspended (P := P) m (P sf.fid).nresults srest rrest hs') :
    Agree (P := P) m (.run ⟨sf :: srest, [], st⟩ 0) (.run ⟨rf :: rrest, own ++ hs', st⟩ 0) :=
  .run (.mk st (.of_frame h (.inl hpc)) hr) 0

/-- a return passes the results to the caller -/
theorem popFrame_agree {sf : Frame ι Val SPos} {rf : Frame ι Val Nat} {hs : List (Handler ι Target)}
    {sfs : List (Frame ι Val SPos)} {rfs : List (Frame ι Val Nat)} (st : Store) (hfid : rf.fid = sf.fid)
    (hopnds : rf.opnds = sf.opnds) (hlen : (P sf.fid).nresults ≤ sf.opnds.length)
    (hx : ∀ hd ∈ hs, hd.callDepth = srest.length + 1)
    (hr : Suspended (P := P) m (P sf.fid).nresults srest rrest hs') :
    Agree (P := P) m (popFrame (P := P) ⟨sfs, [], st⟩ sf srest)
      (popFrame (P := P) ⟨rfs, hs ++ hs', st⟩ rf rrest) := by
  have hdrop : dropFrameHandlers (rrest.length + 1) (hs ++ hs') = hs' :=
    dropFrameHandlers_eq (hr.length ▸ hx) fun hd hm => Nat.lt_succ_of_le (hr.length ▸ hr.callDepth hd hm)
  have htake : (sf.opnds.take (P sf.fid).nresults).length = (P sf.fid).nresults := by
    rw [List.length_take]
    omega
  unfold popFrame
  rw [hdrop, hfid, hopnds]
  generalize (P sf.fid).nresults = n at hr htake
  cases hr with
  | nil => exact .finished _ _
  | @cons _ sf2 rf2 srest rrest hs2 hs2' a h hpc hr =>
    have hnext : FrameAt (P := P) m (srest.length + 1) 0 { sf2 with opnds := sf.opnds.take n ++ sf2.opnds }
        { rf2 with opnds := sf.opnds.take n ++ rf2.opnds } hs2 a := by
      refine ⟨h.fid, h.locals, by simp [h.opnds], h.count, h.pos, ?_, ?_, h.handlers⟩
      · rw [h.height]
        simp only [List.length_append, htake]
        omega
      · have := h.base
        simp only [List.length_append]
        omega
    exact .next st hnext hpc hr

/-- a frame that enters a function -/
theorem FrameAt.enter {g : ι} (hacc : (P g).Accepted m) {args : List Val} (depth : Nat)
    (hargs : args.length = (P g).nparams) :
    FrameAt (P := P) m depth 0 ⟨g, ⟨(P g).code, []⟩, newLocals S g args, []⟩ ⟨g, 0, newLocals S g args, []⟩ [] {} := by
  obtain ⟨last, ⟨hf, hend⟩, hp⟩ := hacc.start
  refine ⟨rfl, rfl, rfl, ?_, ⟨last, ⟨hf, hend⟩, hp⟩, rfl, Nat.le_refl _, .nil⟩
  simp [newLocals, hargs]

end Move

/-! ## Instructions without constructs of their own -/

/-- what follows an instruction at `a` -/
structure After (m : Bool) (F : Func) (a a1 : AState) (d : DOp) (k : Code) (labels : List SLabel) : Prop where
  rest : ∃ last b, F.Ended m last ∧ OnWay (F.context m) m (F.decoded m) last a1 ∧
    Steps (F.context m) a1 k.flat b ∧ Outer (F.context m) m (F.decoded m) last b labels
  size : (F.planBefore m a1).size = (F.planBefore m a).size + 1
  frames : (F.planBefore m a1).ctrl = ((F.planBefore m a).marks d).ctrl
  ctrl : a1.v.ctrl = a.v.ctrl
  tries : (F.planBefore m a).tryDepth = tryCount a.v.ctrl

theorem target_congr {p q : Plan} (h : q.ctrl = p.ctrl) (l : Nat) : q.target l = p.target l := by
  unfold Plan.target
  rw [h]

theorem target_marks (p : Plan) (d : DOp) (l : Nat) : (p.marks d).target l = p.target l := by
  cases d <;> simp only [Plan.marks, Plan.target_mark, Plan.target_markAll]

section After

variable {F : Func} {a a1 : AState} {d : DOp} {k : Code} {labels : List SLabel}

theorem After.at_ (h : After m F a a1 d k labels) (hl : a1.v.isUnreachable = false) : F.At m a1 k labels := by
  obtain ⟨last, b, ⟨hf, hend⟩, ha, hs, ho⟩ := h.rest
  exact ⟨last, ⟨hf, hend⟩, ha, hl, b, hs, ho⟩

/-- a label the instruction branches to -/
theorem After.dest (h : After m F a a1 d k labels) (hl : a.v.isUnreachable = false) {l L keep drop : Nat}
    (hb : BranchOk a.v F.ctx.func l L keep drop) (hL : L ≤ F.maxStackDepth m)
    (hnoted : ∀ g, ((F.planBefore m a).marks d).ctrl[l]? = some g → g.tryDepth < (F.planBefore m a).tryDepth →
      g.needsTrim = true) :
    ∃ n, Dest m F labels l ((F.plan m).index ((F.planBefore m a).target l)) keep n ∧ n + keep ≤ L ∧
      drop = L - n - keep := by
  obtain ⟨last, b, ⟨hf, hend⟩, ha, hs, ho⟩ := h.rest
  obtain ⟨ts, n, ht, rfl, hle, hdrop⟩ := hb.target hl
  refine ⟨n, ?_, hle, hdrop⟩
  have htarget : (F.planBefore m a1).target l = (F.planBefore m a).target l := by
    rw [target_congr h.frames, target_marks]
  have ht' : a1.v.brTarget F.ctx.func (0 + l) = some (ts, n) := by rw [Nat.zero_add, brTarget_congr h.ctrl, ht]
  have := dest_of_target 0 ⟨hf, hend⟩ ha hs ho (fun g hg hlt => ?_) ht' (by omega)
  · rwa [Nat.zero_add, List.drop_zero, htarget] at this
  · rw [List.drop_zero, h.ctrl, ← h.tries] at hlt
    rw [Nat.zero_add, h.frames] at hg
    exact hnoted g hg hlt

/-- the frame after an instruction that falls through -/
theorem FrameAt.fall {sf : Frame ι Val SPos} {rf : Frame ι Val Nat} {own : List (Handler ι Target)} {depth : Nat}
    {a1 : AState} {d : DOp} {k : Code} {labels : List SLabel} {pops pushes results : Nat} {a : AState}
    (hfa : FrameAt (P := P) m depth 0 sf rf own a) (hlab : sf.pc.labels = labels)
    (h : After m (P sf.fid) a a1 d k labels) (hv : Falls a.v a1.v pops pushes) {vs ls : List Val}
    (hvs : vs.length + results = sf.opnds.length - pops + pushes) (hres : results ≤ pushes)
    (hls : ls.length = sf.locals.length) :
    FrameAt (P := P) m depth results { sf with pc := ⟨k, labels⟩, opnds := vs, locals := ls }
      { rf with pc := rf.pc + 1, opnds := vs, locals := ls } own a1 := by
  have hlive := hfa.pos.live
  have hbase := hfa.pos.matched.base
  have hheight : a.v.height = sf.opnds.length := by simpa using hfa.height
  obtain ⟨h1, h2⟩ := hv.live hlive hbase
  have h3 := baseHeight_congr hv.ctrl
  refine ⟨hfa.fid, rfl, rfl, hls.trans hfa.count, h.at_ (hv.dead.trans hlive), ?_, ?_, hlab ▸ hfa.handlers⟩
  · simp only
    omega
  · simp only
    omega

end After

section Ops

variable {S : Sem ι Val Store Exn P} {srest : List (Frame ι Val SPos)} {rrest : List (Frame ι Val Nat)}
  {own hs' : List (Handler ι Target)} {sf : Frame ι Val SPos} {rf : Frame ι Val Nat} {sfs : List (Frame ι Val SPos)}
  {rfs : List (Frame ι Val Nat)} {a a1 : AState} {d : DOp} {k : Code} {labels : List SLabel}

/-- a branch taken on both sides -/
theorem jump_agree {l L keep drop n : Nat} {t : Target} (sfs : List (Frame ι Val SPos)) (rfs : List (Frame ι Val Nat))
    (hfa : FrameAt (P := P) m (srest.length + 1) 0 sf rf own a)
    (hlab : sf.pc.labels = labels) (hr : Suspended (P := P) m (P sf.fid).nresults srest rrest hs')
    (hd : Dest m (P sf.fid) labels l (((P sf.fid).plan m).index t) keep n) (hle : n + keep ≤ L)
    (hdrop : drop = L - n - keep) {vs : List Val} (hL : vs.length = L) (st : Store) :
    Agree (P := P) m (sJump (P := P) ⟨sfs, [], st⟩ { sf with pc := ⟨k, labels⟩ } srest l vs)
      (Core.jump (rNav P m) ⟨rfs, own ++ hs', st⟩ { rf with pc := rf.pc + 1 } rrest t (dropKeep keep drop vs)) := by
  subst hL
  have htop := hd.top rf vs hfa.fid hfa.locals hfa.count (hlab ▸ hfa.handlers) (by omega)
  rw [← dropKeep_eq hle hdrop] at htop
  have hfid : (sBranch (P := P) { sf with pc := ⟨k, labels⟩ } labels l vs).fid = sf.fid := by
    unfold sBranch
    split <;> rfl
  have hsame : sBranch (P := P) { sf with pc := ⟨k, labels⟩ } labels l vs = sBranch (P := P) sf labels l vs := by
    unfold sBranch
    split <;> rfl
  refine .run (.mk st ?_ ?_) 0
  · simpa only [rNav, hfa.fid, hsame] using htop
  · rw [hfid]
    exact hr

/-- goes on in the same frame after an instruction that falls through -/
theorem fall_agree {pops pushes : Nat} (hfa : FrameAt (P := P) m (srest.length + 1) 0 sf rf own a)
    (hlab : sf.pc.labels = labels) (hr : Suspended (P := P) m (P sf.fid).nresults srest rrest hs')
    (hpc : rf.pc = ((P sf.fid).planBefore m a).size) (h : After m (P sf.fid) a a1 d k labels)
    (hv : Falls a.v a1.v pops pushes) (vs ls : List Val) (hvs : vs.length = sf.opnds.length - pops + pushes)
    (hls : ls.length = sf.locals.length) (st : Store) :
    Agree (P := P) m (.run ⟨{ sf with pc := ⟨k, labels⟩, opnds := vs, locals := ls } :: srest, [], st⟩ 0)
      (.run ⟨{ rf with pc := rf.pc + 1, opnds := vs, locals := ls } :: rrest, own ++ hs', st⟩ 0) := by
  have hnext := hfa.fall hlab h hv (by simpa using hvs) (Nat.zero_le _) hls
  refine .next st hnext ?_ hr
  simp only [hpc, h.size]

theorem data_agree {op : DataOp} (body : ι → Code) (hfa : FrameAt (P := P) m (srest.length + 1) 0 sf rf own a)
    (hlab : sf.pc.labels = labels) (hr : Suspended (P := P) m (P sf.fid).nresults srest rrest hs')
    (hpc : rf.pc = ((P sf.fid).planBefore m a).size) (h : After m (P sf.fid) a a1 d k labels)
    (hv : Falls a.v a1.v (op.arity (P sf.fid).module).1 (op.arity (P sf.fid).module).2) (st : Store) :
    Agree (P := P) m (execOp S (sNav body) ⟨sfs, [], st⟩ { sf with pc := ⟨k, labels⟩ } srest (.data op))
      (execOp S (rNav P m) ⟨rfs, own ++ hs', st⟩ { rf with pc := rf.pc + 1 } rrest (.data op)) := by
  simp only [execOp, hfa.fid, hfa.opnds]
  cases hd : S.data sf.fid op (sf.opnds.take (op.arity (P sf.fid).module).1) st with
  | none => exact .failed _ _
  | some r =>
    obtain ⟨rs, st'⟩ := r
    have hlen := S.data_length _ _ _ _ _ _ hd
    have hvs : (rs ++ sf.opnds.drop (op.arity (P sf.fid).module).1).length =
        sf.opnds.length - (op.arity (P sf.fid).module).1 + (op.arity (P sf.fid).module).2 := by
      rw [List.length_append, List.length_drop]
      omega
    have := fall_agree hfa hlab hr hpc h hv _ _ hvs (rfl : sf.locals.length = _) st'
    simpa only [Core.next, hfa.fid, hfa.locals] using this

/-- operands of a call are there -/
theorem FrameAt.room {depth pops pushes : Nat} (hfa : FrameAt (P := P) m depth 0 sf rf own a)
    (hv : Falls a.v a1.v pops pushes) : a.v.baseHeight + pops ≤ sf.opnds.length := by
  have h := (hv.live hfa.pos.live hfa.pos.matched.base).1
  have hheight : a.v.height = sf.opnds.length := by simpa using hfa.height
  omega

theorem FrameAt.room_stops {depth pops : Nat} (hfa : FrameAt (P := P) m depth 0 sf rf own a)
    (hv : Stops a.v a1.v pops) : a.v.baseHeight + pops ≤ sf.opnds.length := by
  have h := hv.live hfa.pos.live hfa.pos.matched.base
  have hheight : a.v.height = sf.opnds.length := by simpa using hfa.height
  omega

theorem call_agree {c : CallKind} (hacc : ∀ f, (P f).Accepted m)
    (hfa : FrameAt (P := P) m (srest.length + 1) 0 sf rf own a)
    (hlab : sf.pc.labels = labels) (hr : Suspended (P := P) m (P sf.fid).nresults srest rrest hs')
    (hpc : rf.pc = ((P sf.fid).planBefore m a).size) (h : After m (P sf.fid) a a1 d k labels)
    (hv : Falls a.v a1.v ((c.sig (P sf.fid).module).1.length + (c.sig (P sf.fid).module).2.params.length)
      (c.sig (P sf.fid).module).2.results.length) (st : Store) :
    Agree (P := P) m
      (execCall S (sNav fun f => (P f).code) ⟨sfs, [], st⟩ { sf with pc := ⟨k, labels⟩ } srest c)
      (execCall S (rNav P m) ⟨rfs, own ++ hs', st⟩ { rf with pc := rf.pc + 1 } rrest c) := by
  have hroom := hfa.room hv
  simp only [execCall, hfa.fid, hfa.opnds, hfa.locals, hr.slots_eq, hr.length]
  have hparams := S.callee_arity sf.fid c
  have hhost := S.callee_host sf.fid c
  generalize hsig : c.sig (P sf.fid).module = sig at hv hroom hparams hhost ⊢
  have hlen : (sf.opnds.drop sig.1.length).length = sf.opnds.length - sig.1.length := List.length_drop
  generalize sf.opnds.drop sig.1.length = vs at hlen ⊢
  cases hcal : S.callee sf.fid c (sf.opnds.take sig.1.length) st with
  | trap => exact .failed _ _
  | host x =>
    have hres := hhost _ _ _ hcal
    simp only
    split
    · cases hh : S.host x (vs.take sig.2.params.length) st with
      | none => exact .failed _ _
      | some r =>
        obtain ⟨rs, st'⟩ := r
        have hrs := (S.host_length _ _ _ _ _ hh).trans hres
        have hvs : (rs ++ vs.drop sig.2.params.length).length =
            sf.opnds.length - (sig.1.length + sig.2.params.length) + sig.2.results.length := by
          rw [List.length_append, List.length_drop]
          omega
        have := fall_agree hfa hlab hr hpc h hv _ _ hvs (rfl : sf.locals.length = _) st'
        simpa only [Core.next, hfa.fid, hfa.locals] using this
    · exact .failed _ _
  | wasm g =>
    obtain ⟨hnp, hnr⟩ := hparams _ _ _ hcal
    simp only
    split
    · have hargs : (vs.take sig.2.params.length).length = (P g).nparams := by
        rw [List.length_take]
        omega
      have hbelow : (vs.drop sig.2.params.length).length + (P g).nresults =
          sf.opnds.length - (sig.1.length + sig.2.params.length) + sig.2.results.length := by
        rw [List.length_drop]
        omega
      have hcaller := hfa.fall hlab h hv hbelow (by omega) (rfl : sf.locals.length = _)
      simp only [hfa.fid] at hcaller
      have hsusp := Suspended.cons hcaller (by simp only [hpc, h.size]) hr
      have hentry := FrameAt.enter (S := S) (hacc g) (srest.length + 2) hargs
      have htop := Top.of_frame hentry (.inl rfl)
      have hrel : Rel (P := P) m ⟨_ :: _ :: srest, [], st⟩ ⟨_ :: _ :: rrest, [] ++ (own ++ hs'), st⟩ :=
        .mk st htop hsusp
      exact .run hrel _
    · exact .failed _ _

theorem returnCall_agree {c : CallKind} (hacc : ∀ f, (P f).Accepted m)
    (hfa : FrameAt (P := P) m (srest.length + 1) 0 sf rf own a)
    (hr : Suspended (P := P) m (P sf.fid).nresults srest rrest hs')
    (hres : (c.sig (P sf.fid).module).2.results.length = (P sf.fid).nresults)
    (hv : Stops a.v a1.v ((c.sig (P sf.fid).module).1.length + (c.sig (P sf.fid).module).2.params.length))
    (st : Store) :
    Agree (P := P) m
      (execReturnCall S (sNav fun f => (P f).code) ⟨sfs, [], st⟩ { sf with pc := ⟨k, labels⟩ } srest c)
      (execReturnCall S (rNav P m) ⟨rfs, own ++ hs', st⟩ { rf with pc := rf.pc + 1 } rrest c) := by
  have hroom := hfa.room_stops hv
  have hdrop : dropFrameHandlers (srest.length + 1) (own ++ hs') = hs' :=
    dropFrameHandlers_eq hfa.handlers.callDepth fun hd hm => Nat.lt_succ_of_le (hr.callDepth hd hm)
  have hnone : dropFrameHandlers (srest.length + 1) ([] : List (Handler ι Empty)) = [] := rfl
  simp only [execReturnCall, hfa.fid, hfa.opnds, hfa.locals, hr.slots_eq, hr.length, hdrop, hnone]
  have hparams := S.callee_arity sf.fid c
  have hhost := S.callee_host sf.fid c
  generalize hsig : c.sig (P sf.fid).module = sig at hres hroom hparams hhost ⊢
  have hlen : (sf.opnds.drop sig.1.length).length = sf.opnds.length - sig.1.length := List.length_drop
  generalize sf.opnds.drop sig.1.length = vs at hlen ⊢
  cases hcal : S.callee sf.fid c (sf.opnds.take sig.1.length) st with
  | trap => exact .failed _ _
  | host x =>
    simp only
    split
    · cases hh : S.host x (vs.take sig.2.params.length) st with
      | none => exact .failed _ _
      | some r =>
        obtain ⟨rs, st'⟩ := r
        have hrs := (S.host_length _ _ _ _ _ hh).trans (hhost _ _ _ hcal)
        have hlen' : (P sf.fid).nresults ≤ (rs ++ vs.drop sig.2.params.length).length := by
          rw [List.length_append]
          omega
        exact popFrame_agree st' rfl rfl hlen' (fun _ hm => absurd hm List.not_mem_nil) hr
    · exact .failed _ _
  | wasm g =>
    obtain ⟨hnp, hnr⟩ := hparams _ _ _ hcal
    simp only
    split
    · have hargs : (vs.take sig.2.params.length).length = (P g).nparams := by
        rw [List.length_take]
        omega
      have htop := Top.of_frame (FrameAt.enter (S := S) (hacc g) (srest.length + 1) hargs) (.inl rfl)
      have hrel : Rel (P := P) m ⟨_ :: srest, [], st⟩ ⟨_ :: rrest, [] ++ hs', st⟩ :=
        .mk st htop ((hnr.trans hres) ▸ hr)
      exact .run hrel _
    · exact .failed _ _

/-- an exception thrown by an instruction that pops its operands -/
theorem throwing_agree {n : Nat} (hfa : FrameAt (P := P) m (srest.length + 1) 0 sf rf own a)
    (hlab : sf.pc.labels = labels) (hr : Suspended (P := P) m (P sf.fid).nresults srest rrest hs')
    (hv : Stops a.v a1.v n) (vs : List Val) (hvs : vs.length = sf.opnds.length - n) (x : Exn) (st : Store) :
    Agree (P := P) m (sThrow S x st ({ sf with pc := ⟨k, labels⟩, opnds := vs } :: srest))
      (unwind S (rNav P m) x st ({ rf with pc := rf.pc + 1, opnds := vs } :: rrest) (own ++ hs')) := by
  have hroom := hfa.room_stops hv
  have hc : Catcher m P (srest.length + 1) { sf with pc := ⟨k, labels⟩, opnds := vs }
      { rf with pc := rf.pc + 1, opnds := vs } labels own := by
    refine ⟨hfa.fid, hfa.locals, rfl, hfa.count, fun lab hl => ?_, hlab ▸ hfa.handlers⟩
    have := hfa.pos.label_height (hlab ▸ hl)
    simp only
    omega
  exact throw_agree x st hc hr rfl

end Ops

/-! ## Visits -/

/-- what is visited: an instruction without its labels, whose destinations the machines go on to -/
inductive Visit where
  | op (i : Instr)
  | if_ | br | brIf | brTable | brOnNull | brOnNonNull
  | brOnCast (fail dstNull : Bool) (dst : HeapTy)
  | tryTable

def Instr.visit : Instr → Option Visit
  | .nop | .anyConvertExtern | .externConvertAny | .block _ | .loop _ | .else_ | .end_ => none
  | .if_ _ => some .if_
  | .br _ => some .br
  | .brIf _ => some .brIf
  | .brTable _ _ => some .brTable
  | .brOnNull _ => some .brOnNull
  | .brOnNonNull _ => some .brOnNonNull
  | .brOnCast fail a => some (.brOnCast fail a.dstNull a.dst)
  | .tryTable _ _ => some .tryTable
  | i => some (.op i)

def LInstr.visit {τ : Type} : LInstr τ → Option Visit
  | .op i _ => some (.op i)
  | .if_ _ => some .if_
  | .br _ _ _ => some .br
  | .brIf _ _ _ => some .brIf
  | .brTable _ _ _ => some .brTable
  | .brOnNull _ _ _ => some .brOnNull
  | .brOnNonNull _ _ _ => some .brOnNonNull
  | .brOnCast fail dn dst _ _ _ => some (.brOnCast fail dn dst)
  | .tryTable _ => some .tryTable
  | .else_ _ | .endTryTable | .trimHandlers _ | .end_ | .poll _ | .meter _ _ | .tick _ => none

def Code.visit : Code → Option Visit
  | .op i _ _ => i.visit
  | .ifThen _ _ _ | .ifElse _ _ _ _ => some .if_
  | .tryTable _ _ _ _ => some .tryTable
  | .nil | .block _ _ _ | .loop _ _ _ => none

/-- what a visit finds -/
structure Seen (ι Val Store : Type) where
  fid : ι
  visit : Visit
  locals : List Val
  opnds : List Val
  store : Store

/-- the visit of a frame -/
def Frame.seen {π : Type} (fr : Frame ι Val π) (st : Store) (v : Option Visit) : Option (Seen ι Val Store) :=
  v.map fun v => ⟨fr.fid, v, fr.locals, fr.opnds, st⟩

/-- the next visit of the structured machine -/
def sVisit (c : SCore ι Val Store) : Option (Seen ι Val Store) :=
  match c.frames with
  | [] => none
  | fr :: _ => fr.seen c.store fr.pc.code.visit

/-- the next visit of the record machine -/
def rVisit (P : ι → Func) (m : Bool) (c : RCore ι Val Store) : Option (Seen ι Val Store) :=
  match c.frames with
  | [] => none
  | fr :: _ => fr.seen c.store (((((P fr.fid).plan m).records[fr.pc]?).bind Record.main).bind LInstr.visit)

/-! ## One instruction -/

theorem context_module (m : Bool) (F : Func) : (F.context m).module = F.module.setMetering m := rfl

/-- an instruction without constructs of its own: it leaves nothing behind, or a record -/
theorem Func.At.op {F : Func} {a : AState} {i : Instr} {hi : i.isStructural = false} {k : Code} {labels : List SLabel}
    (h : F.At m a (.op i hi k) labels) :
    (∃ a1 n, (i = .nop ∨ i = .anyConvertExtern ∨ i = .externConvertAny) ∧ Falls a.v a1.v n n ∧
      F.planBefore m a1 = F.planBefore m a ∧ F.At m a1 k labels) ∨
    ∃ a1 x rec, VStep (F.context m) a.v a1.v i (some x.op) ∧ After m F a a1 x.op k labels ∧
      (F.plan m).records[(F.planBefore m a).size]? = some rec ∧
      rec.main = (F.planBefore m a).mainOf a.instrs.length x := by
  obtain ⟨last, ⟨hf, hend⟩, hp⟩ := h
  obtain ⟨a1, od, hv, hadd, ha1, b, hs, ho⟩ := hp.op hf
  cases od with
  | none =>
    cases hv with
    | @skip _ n hi hv =>
      exact .inl ⟨a1, n, hi, hv, hadd, last, ⟨hf, hend⟩, ha1, hv.dead.trans hp.live, b, hs, ho⟩
  | some d =>
    obtain ⟨x, rfl, -, hadd⟩ := hadd
    obtain ⟨rec, hrec, hmain⟩ := hadd.record (ha1.extends_ hf)
    exact .inr ⟨a1, x, rec, hv, ⟨⟨last, b, ⟨hf, hend⟩, ha1, hs, ho⟩, hadd.size, hadd.ctrl, (hv.plain (hv.isPlain hi)).1,
      hp.onWay.matched.tries⟩, hrec, hmain⟩

section Step

variable {S : Sem ι Val Store Exn P} {srest : List (Frame ι Val SPos)} {rrest : List (Frame ι Val Nat)}
  {own hs' : List (Handler ι Target)} {sf : Frame ι Val SPos} {rf : Frame ι Val Nat} {a : AState} {k : Code}
  {labels : List SLabel}

/-- both machines visit the same, and agree after one step -/
structure Matches (S : Sem ι Val Store Exn P) (m : Bool) (c : SCore ι Val Store) (c' : RCore ι Val Store) : Prop where
  visit : rVisit P m c' = sVisit c
  agree : Agree (P := P) m (sStep S (fun f => (P f).code) c) (rStep S m c')

theorem rStep_main {rec : Record} {main : LInstr Target} {hs : List (Handler ι Target)} (st : Store)
    (hrec : ((P rf.fid).plan m).records[rf.pc]? = some rec) (hmain : rec.main = some main) :
    rStep S m ⟨rf :: rrest, hs, st⟩ =
      execInstr S (rNav P m) ⟨rf :: rrest, hs, st⟩ { rf with pc := rf.pc + 1 } rrest main := by
  simp only [rStep, hrec, hmain]

theorem rStep_none {rec : Record} {hs : List (Handler ι Target)} (st : Store)
    (hrec : ((P rf.fid).plan m).records[rf.pc]? = some rec) (hmain : rec.main = none) :
    rStep S m ⟨rf :: rrest, hs, st⟩ = .run ⟨{ rf with pc := rf.pc + 1 } :: rrest, hs, st⟩ 0 := by
  simp only [rStep, hrec, hmain]
  rfl

/-- the record at the position of the code is executed -/
theorem Matches.of_main {rec : Record} {main : LInstr Target} {hs : List (Handler ι Target)} {st : Store}
    (hfa : FrameAt (P := P) m (srest.length + 1) 0 sf rf own a)
    (hrec : ((P rf.fid).plan m).records[rf.pc]? = some rec) (hmain : rec.main = some main)
    (hv : main.visit = sf.pc.code.visit)
    (h : Agree (P := P) m (sStep S (fun f => (P f).code) ⟨sf :: srest, [], st⟩)
      (execInstr S (rNav P m) ⟨rf :: rrest, hs, st⟩ { rf with pc := rf.pc + 1 } rrest main)) :
    Matches S m ⟨sf :: srest, [], st⟩ ⟨rf :: rrest, hs, st⟩ where
  visit := by
    have hrec' : ((P sf.fid).plan m).records[rf.pc]? = some rec := hfa.fid ▸ hrec
    simp only [rVisit, sVisit, hfa.fid, hrec', Option.bind_some, hmain, hv, Frame.seen, hfa.locals, hfa.opnds]
  agree := by
    rw [rStep_main st hrec hmain]
    exact h

/-- a record without bytes is passed -/
theorem Matches.of_none {rec : Record} {hs : List (Handler ι Target)} {st : Store}
    (hrec : ((P rf.fid).plan m).records[rf.pc]? = some rec) (hmain : rec.main = none) (hv : sf.pc.code.visit = none)
    (h : Agree (P := P) m (sStep S (fun f => (P f).code) ⟨sf :: srest, [], st⟩)
      (.run ⟨{ rf with pc := rf.pc + 1 } :: rrest, hs, st⟩ 0)) :
    Matches S m ⟨sf :: srest, [], st⟩ ⟨rf :: rrest, hs, st⟩ where
  visit := by simp only [rVisit, sVisit, hrec, Option.bind_some, hmain, Option.bind_none, hv, Frame.seen, Option.map_none]
  agree := by
    rw [rStep_none st hrec hmain]
    exact h

/-- nothing but its own handlers are on top where no TRIM_HANDLERS stands -/
theorem trim_none {F : Func} {r d : Nat} {extra : List (Handler ι Target)} {rec : Record}
    (ht : extra = [] ∨ TrimAt m (F.decoded m) r d) (hrec : (F.plan m).records[r]? = some rec)
    (hmain : ∀ d, rec.main ≠ some (.trimHandlers d)) : extra = [] := by
  rcases ht with h | ⟨rec', h1, h2⟩
  · exact h
  · rw [show (planOf m (F.decoded m)).records[r]? = some rec from hrec, Option.some.injEq] at h1
    exact absurd (h1 ▸ h2) (hmain d)

theorem mainOf_ne_trim (p : Plan) (ii : Nat) (x : DInstr) (d : Nat) : p.mainOf ii x ≠ some (.trimHandlers d) := by
  unfold Plan.mainOf
  split <;> simp

/-- **One instruction.** -/
theorem op_step {i : Instr} {hi : i.isStructural = false} (hacc : ∀ f, (P f).Accepted m)
    (hfa : FrameAt (P := P) m (srest.length + 1) 0 sf rf own a) (hcode : sf.pc = ⟨.op i hi k, labels⟩)
    (hpc : rf.pc = ((P sf.fid).planBefore m a).size) {extra : List (Handler ι Target)}
    (hx : ∀ hd ∈ extra, hd.callDepth = srest.length + 1 ∧ hd.fid = sf.fid)
    (ht : extra = [] ∨ TrimAt m ((P sf.fid).decoded m) rf.pc (tryCount a.v.ctrl))
    (hr : Suspended (P := P) m (P sf.fid).nresults srest rrest hs') (st : Store) :
    (i.visit = none ∧ sStep S (fun f => (P f).code) ⟨sf :: srest, [], st⟩ =
        .run ⟨{ sf with pc := ⟨k, labels⟩ } :: srest, [], st⟩ 0 ∧
      Rel (P := P) m ⟨{ sf with pc := ⟨k, labels⟩ } :: srest, [], st⟩ ⟨rf :: rrest, extra ++ own ++ hs', st⟩) ∨
    Matches S m ⟨sf :: srest, [], st⟩ ⟨rf :: rrest, extra ++ own ++ hs', st⟩ := by
  have hstep : sStep S (fun f => (P f).code) ⟨sf :: srest, [], st⟩ =
      sOp S (fun f => (P f).code) ⟨sf :: srest, [], st⟩ { sf with pc := ⟨k, labels⟩ } srest i := by
    simp only [sStep, hcode]
  have hvisit : sf.pc.code.visit = i.visit := by rw [hcode, Code.visit]
  rw [hstep]
  have hlab : sf.pc.labels = labels := by rw [hcode]
  have hpos := hfa.pos
  rw [hcode] at hpos
  have hlive := hpos.live
  have hbase := hpos.matched.base
  have hdepth := hpos.height_le
  have hheight : a.v.height = sf.opnds.length := by simpa using hfa.height
  rcases hpos.op with ⟨a1, n, hi, hv, hplan, hat⟩ | ⟨a1, x, rec, hv, h, hrec, hmain⟩
  · left
    have hnext : FrameAt (P := P) m (srest.length + 1) 0 { sf with pc := ⟨k, labels⟩ } rf own a1 := by
      obtain ⟨h1, h2⟩ := hv.live hlive hbase
      have h3 := baseHeight_congr hv.ctrl
      exact ⟨hfa.fid, hfa.locals, hfa.opnds, hfa.count, hat, by simp only; omega, by simp only; omega,
        hlab ▸ hfa.handlers⟩
    have hrel := Rel.mk st (.at_ hnext (.inl (hpc.trans (congrArg Plan.size hplan.symm))) hx (hv.ctrl.symm ▸ ht)) hr
    rcases hi with rfl | rfl | rfl <;> exact ⟨rfl, rfl, hrel⟩
  · right
    rw [← hpc] at hrec
    obtain rfl : extra = [] := trim_none ht hrec fun d => hmain ▸ mainOf_ne_trim _ _ _ d
    rw [List.nil_append]
    rw [← hfa.fid] at hrec
    generalize hd : x.op = d at hv h
    cases hv with
    | @data op hv =>
      rw [Plan.mainOf, hd] at hmain
      refine .of_main hfa hrec hmain hvisit.symm (hstep ▸ ?_)
      rw [context_module, arity_setMetering] at hv
      exact data_agree (fun f => (P f).code) hfa hlab hr hpc h hv st
    | @localGet n hn hv =>
      rw [Plan.mainOf, hd] at hmain
      refine .of_main hfa hrec hmain hvisit.symm (hstep ▸ ?_)
      have hlt : n < sf.locals.length := hfa.count ▸ hn
      simp only [sOp, execInstr, execOp, hfa.locals, hfa.opnds, List.getElem?_eq_getElem hlt]
      have := fall_agree hfa hlab hr hpc h hv (sf.locals[n] :: sf.opnds) sf.locals (by simp) rfl st
      simpa only [Core.next, hfa.fid, hfa.locals] using this
    | @localSet n hv =>
      rw [Plan.mainOf, hd] at hmain
      refine .of_main hfa hrec hmain hvisit.symm (hstep ▸ ?_)
      have hroom := hfa.room hv
      simp only [sOp, execInstr, execOp, hfa.locals, hfa.opnds]
      cases hop : sf.opnds with
      | nil => simp [hop] at hroom
      | cons v vs =>
        have := fall_agree hfa hlab hr hpc h hv vs (sf.locals.set n v) (by simp [hop]) List.length_set st
        simpa only [Core.next, hfa.fid, hfa.locals] using this
    | @localTee n hv =>
      rw [Plan.mainOf, hd] at hmain
      refine .of_main hfa hrec hmain hvisit.symm (hstep ▸ ?_)
      have hroom := hfa.room hv
      simp only [sOp, execInstr, execOp, hfa.locals, hfa.opnds]
      cases hop : sf.opnds with
      | nil => simp [hop] at hroom
      | cons v vs =>
        have := fall_agree hfa hlab hr hpc h hv (v :: vs) (sf.locals.set n v) (by simp [hop]) List.length_set st
        simpa only [Core.next, hfa.fid, hfa.locals] using this
    | @call c hv =>
      rw [Plan.mainOf, hd] at hmain
      refine .of_main hfa hrec hmain hvisit.symm (hstep ▸ ?_)
      rw [context_module, sig_setMetering] at hv
      exact call_agree hacc hfa hlab hr hpc h hv st
    | returnCall hres hv =>
      rw [Plan.mainOf, hd] at hmain
      refine .of_main hfa hrec hmain hvisit.symm (hstep ▸ ?_)
      rw [context_module, sig_setMetering] at hv hres
      exact returnCall_agree hacc hfa hr hres hv st
    | unreachable hv =>
      rw [Plan.mainOf, hd] at hmain
      exact .of_main hfa hrec hmain hvisit.symm (hstep ▸ .failed _ _)
    | return_ hv =>
      rw [Plan.mainOf, hd] at hmain
      refine .of_main hfa hrec hmain hvisit.symm (hstep ▸ ?_)
      have hroom := hfa.room_stops hv
      exact popFrame_agree st hfa.fid hfa.opnds (Nat.le_trans (Nat.le_add_left _ _) hroom) hfa.handlers.callDepth hr
    | @throw t hv =>
      rw [Plan.mainOf, hd] at hmain
      refine .of_main hfa hrec hmain hvisit.symm (hstep ▸ ?_)
      rw [context_module, tagArity_setMetering] at hv
      simp only [sOp, execInstr, execOp, hfa.fid, hfa.opnds]
      cases hx : S.newExn sf.fid t (sf.opnds.take (tagArity (P sf.fid).module t)).reverse st with
      | none => exact .failed _ _
      | some r =>
        have := throwing_agree (S := S) (k := k) hfa hlab hr hv
          (sf.opnds.drop (tagArity (P sf.fid).module t)) List.length_drop r.1 r.2
        simpa only [hfa.fid, hfa.locals] using this
    | throwRef hv =>
      rw [Plan.mainOf, hd] at hmain
      refine .of_main hfa hrec hmain hvisit.symm (hstep ▸ ?_)
      have hroom := hfa.room_stops hv
      simp only [sOp, execInstr, execOp, hfa.fid, hfa.opnds]
      cases hop : sf.opnds with
      | nil => simp [hop] at hroom
      | cons v vs =>
        simp only
        cases hx : S.refExn v with
        | none => exact .failed _ _
        | some x =>
          have := throwing_agree (S := S) (k := k) hfa hlab hr hv vs (by simp [hop]) x st
          simpa only [hfa.fid, hfa.locals] using this
    | br hb hv =>
      rw [Plan.mainOf, hd] at hmain
      refine .of_main hfa hrec hmain hvisit.symm (hstep ▸ ?_)
      obtain ⟨n, hdest, hle, hdrop⟩ := h.dest hlive hb (by omega) fun g hg hlt => mark_needsTrim hg hlt
      simp only [sOp, execInstr, hfa.opnds]
      exact jump_agree _ _ hfa hlab hr hdest hle hdrop hheight.symm st
    | brIf hl hb hv =>
      rw [Plan.mainOf, hd] at hmain
      refine .of_main hfa hrec hmain hvisit.symm (hstep ▸ ?_)
      have hroom := hfa.room hv
      obtain ⟨n, hdest, hle, hdrop⟩ := h.dest hlive (hb hlive) (by omega) fun g hg hlt => mark_needsTrim hg hlt
      simp only [sOp, execInstr, hfa.opnds]
      cases hop : sf.opnds with
      | nil => simp [hop] at hroom
      | cons v vs =>
        simp only
        split
        · have := fall_agree hfa hlab hr hpc h hv vs sf.locals (by simp [hop]) rfl st
          simpa only [Core.next, hfa.fid, hfa.locals] using this
        · exact jump_agree _ _ hfa hlab hr hdest hle hdrop (by simp [hheight, hop]) st
    | @brTable ls dflt imm hl hb hv =>
      rw [Plan.mainOf, hd] at hmain
      refine .of_main hfa hrec hmain hvisit.symm (hstep ▸ ?_)
      obtain ⟨hroom, hrecs⟩ := hb hlive hbase
      simp only [sOp, execInstr, hfa.opnds]
      cases hop : sf.opnds with
      | nil => simp [hheight, hop] at hroom
      | cons v vs =>
        obtain ⟨drop, hat, hbr⟩ := hrecs (S.index v)
        obtain ⟨r, hr1, hr2⟩ := Option.bind_eq_some_iff.mp hat
        have hmem : ls[S.index v]?.getD dflt ∈ imm.records.map Prod.fst :=
          List.mem_map.mpr ⟨_, List.mem_of_getElem? hr2, rfl⟩
        obtain ⟨n, hdest, hle, hdrop⟩ := h.dest hlive hbr (by omega) fun g hg hlt => markAll_needsTrim hmem hg hlt
        have hrecord : brTableRecordAt imm.targets
            (imm.records.map fun r => (((P sf.fid).planBefore m a).target r.1, r.2)) (S.index v) =
            some (((P sf.fid).planBefore m a).target (ls[S.index v]?.getD dflt), drop) := by
          rw [brTableRecordAt, hr1, Option.bind_some, List.getElem?_map, hr2, Option.map_some]
        simp only [hrecord]
        exact jump_agree _ _ hfa hlab hr hdest hle hdrop (by simp [hheight, hop]) st
    | brOnNull hl hb hv =>
      rw [Plan.mainOf, hd] at hmain
      refine .of_main hfa hrec hmain hvisit.symm (hstep ▸ ?_)
      have hroom := hfa.room hv
      obtain ⟨n, hdest, hle, hdrop⟩ := h.dest hlive (hb hlive hbase) (by omega) fun g hg hlt => mark_needsTrim hg hlt
      simp only [sOp, execInstr, hfa.opnds]
      cases hop : sf.opnds with
      | nil => simp [hop] at hroom
      | cons v vs =>
        simp only
        split
        · exact jump_agree _ _ hfa hlab hr hdest hle hdrop (by simp [hheight, hop]) st
        · have := fall_agree hfa hlab hr hpc h hv (v :: vs) sf.locals (by simp [hop]) rfl st
          simpa only [Core.next, hfa.fid, hfa.locals] using this
    | brOnNonNull hl hb hv =>
      rw [Plan.mainOf, hd] at hmain
      refine .of_main hfa hrec hmain hvisit.symm (hstep ▸ ?_)
      have hroom := hfa.room hv
      obtain ⟨n, hdest, hle, hdrop⟩ := h.dest hlive (hb hlive hbase) (by omega) fun g hg hlt => mark_needsTrim hg hlt
      simp only [sOp, execInstr, hfa.opnds]
      cases hop : sf.opnds with
      | nil => simp [hop] at hroom
      | cons v vs =>
        simp only
        split
        · have := fall_agree hfa hlab hr hpc h hv vs sf.locals (by simp [hop]) rfl st
          simpa only [Core.next, hfa.fid, hfa.locals] using this
        · exact jump_agree _ _ hfa hlab hr hdest hle hdrop (by simp [hheight, hop]) st
    | brOnCast hl hb hv =>
      rw [Plan.mainOf, hd] at hmain
      refine .of_main hfa hrec hmain hvisit.symm (hstep ▸ ?_)
      have hroom := hfa.room hv
      obtain ⟨n, hdest, hle, hdrop⟩ := h.dest hlive (hb hlive hbase) (by omega) fun g hg hlt => mark_needsTrim hg hlt
      simp only [sOp, execInstr, hfa.opnds, hfa.fid]
      cases hop : sf.opnds with
      | nil => simp [hop] at hroom
      | cons v vs =>
        simp only
        split
        · have hL : (v :: vs).length = a.v.height := by simp [hheight, hop]
          have := jump_agree (k := k) (sf :: srest) (rf :: rrest) hfa hlab hr hdest hle hdrop hL st
          simpa only [sJump, Core.jump, hfa.fid, hop] using this
        · have := fall_agree hfa hlab hr hpc h hv (v :: vs) sf.locals (by simp [hop]) rfl st
          simpa only [Core.next, hfa.fid, hfa.locals] using this
    | block => simp [Instr.isStructural] at hi
    | loop => simp [Instr.isStructural] at hi
    | if_ => simp [Instr.isStructural] at hi
    | tryTable => simp [Instr.isStructural] at hi
    | else_ => simp [Instr.isStructural] at hi
    | end_ => simp [Instr.isStructural] at hi

/-! ## Constructs -/

/-- the frame at another position of its function -/
theorem FrameAt.moved {depth : Nat} {a1 : AState} {code : Code} {labels1 : List SLabel}
    {own1 : List (Handler ι Target)} (hfa : FrameAt (P := P) m depth 0 sf rf own a)
    (hat : (P sf.fid).At m a1 code labels1) (vs : List Val) (hvs : a1.v.height = vs.length)
    (hh : Handlers P m sf.fid depth labels1 own1) (pc : Nat) :
    FrameAt (P := P) m depth 0 { sf with pc := ⟨code, labels1⟩, opnds := vs } { rf with pc := pc, opnds := vs } own1 a1 :=
  ⟨hfa.fid, hfa.locals, rfl, hfa.count, hat, by simpa using hvs, hvs ▸ hat.matched.base, hh⟩

theorem blockArity_eq {F : Func} {bt : BlockType} {ps rs : List Ty}
    (h : blockSig (F.context m).module bt = .ok (ps, rs)) : blockArity F.module bt = (ps.length, rs.length) := by
  rw [context_module, blockSig_setMetering] at h
  simp only [blockArity, h]

/-- TRIM_HANDLERS drops the handlers of the constructs a branch has left -/
theorem trim_run {extra : List (Handler ι Target)} {d : Nat} (hx : ∀ hd ∈ extra, hd.callDepth = srest.length + 1)
    (hh : Handlers P m sf.fid (srest.length + 1) labels own) (hd : d = handlerCount labels)
    (hr : Suspended (P := P) m (P sf.fid).nresults srest rrest hs') (rf : Frame ι Val Nat)
    (rfs : List (Frame ι Val Nat)) (st : Store) :
    execInstr S (rNav P m) ⟨rfs, extra ++ own ++ hs', st⟩ rf rrest (.trimHandlers d) =
      .run ⟨rf :: rrest, own ++ hs', st⟩ 0 := by
  have hmine : (extra ++ own ++ hs').takeWhile (fun h => decide (rrest.length + 1 ≤ h.callDepth)) = extra ++ own := by
    rw [List.takeWhile_append_of_pos]
    · have : hs'.takeWhile (fun h => decide (rrest.length + 1 ≤ h.callDepth)) = [] := by
        cases hs' with
        | nil => rfl
        | cons h hs' =>
          have := hr.callDepth h (by simp)
          rw [List.takeWhile_cons_of_neg (by simp [hr.length]; omega)]
      rw [this, List.append_nil]
    · intro h hm
      rcases List.mem_append.mp hm with hm | hm
      · simp [hx h hm, hr.length]
      · simp [hh.callDepth h hm, hr.length]
  have hlen := hh.length
  have hdrop : (extra ++ own ++ hs').drop ((extra ++ own).length - d) = own ++ hs' := by
    rw [hd, ← hlen, List.length_append, Nat.add_sub_cancel, List.append_assoc, List.drop_left]
  simp only [execInstr, hmine, hdrop]
  rw [if_pos (by rw [List.length_append]; omega)]
  rfl

theorem block_step {bt : BlockType} {b : Code} (hfa : FrameAt (P := P) m (srest.length + 1) 0 sf rf own a)
    (hcode : sf.pc = ⟨.block bt b k, labels⟩) (hpc : rf.pc = ((P sf.fid).planBefore m a).size)
    {extra : List (Handler ι Target)} (ht : extra = [] ∨ TrimAt m ((P sf.fid).decoded m) rf.pc (tryCount a.v.ctrl))
    (hr : Suspended (P := P) m (P sf.fid).nresults srest rrest hs') (st : Store) :
    Matches S m ⟨sf :: srest, [], st⟩ ⟨rf :: rrest, extra ++ own ++ hs', st⟩ := by
  have hpos := hfa.pos
  have hh := hfa.handlers
  have hheight : a.v.height = sf.opnds.length := by simpa using hfa.height
  rw [hcode] at hpos hh
  obtain ⟨last, ⟨hf, hend⟩, hp⟩ := hpos
  obtain ⟨a1, f, ho, hadd, hp1⟩ := hp.block hf
  obtain ⟨rec, hrec, hmain⟩ := hadd.record (hp1.onWay.extends_ hf)
  rw [← hpc] at hrec
  obtain rfl : extra = [] := trim_none ht hrec fun d => by simp [hmain]
  rw [List.nil_append]
  have hsame := (ho.above hp.live hp.onWay.matched.base).2
  have habove := ho.height
  have harity := blockArity_eq ho.sig
  refine .of_none (hfa.fid ▸ hrec) hmain (by rw [hcode, Code.visit]) ?_
  have hh1 : Handlers P m sf.fid (srest.length + 1) (⟨f.results.length, f.stackHeight, k, k, none⟩ :: labels) own :=
    .plain rfl hh
  have hnext := hfa.moved ⟨last, ⟨hf, hend⟩, hp1⟩ sf.opnds (hsame.trans hheight) hh1 (rf.pc + 1)
  have := Agree.next st hnext (by simp only [hpc]; exact hadd.size.symm) hr
  have hbase : sf.opnds.length - f.params.length = f.stackHeight := by omega
  simpa only [sStep, hcode, sEnter, harity, Core.next, hbase, hfa.opnds] using this

theorem loop_step {bt : BlockType} {b : Code} {extra : List (Handler ι Target)}
    (hfa : FrameAt (P := P) m (srest.length + 1) 0 sf rf own a)
    (hcode : sf.pc = ⟨.loop bt b k, labels⟩) (hpc : rf.pc = ((P sf.fid).planBefore m a).size)
    (hx : ∀ hd ∈ extra, hd.callDepth = srest.length + 1)
    (ht : extra = [] ∨ TrimAt m ((P sf.fid).decoded m) rf.pc (tryCount a.v.ctrl))
    (hr : Suspended (P := P) m (P sf.fid).nresults srest rrest hs') (st : Store) :
    Matches S m ⟨sf :: srest, [], st⟩ ⟨rf :: rrest, extra ++ own ++ hs', st⟩ := by
  have hpos := hfa.pos
  have hh := hfa.handlers
  have hheight : a.v.height = sf.opnds.length := by simpa using hfa.height
  rw [hcode] at hpos hh
  have htries := hpos.tries
  obtain ⟨last, ⟨hf, hend⟩, hp⟩ := hpos
  obtain ⟨a1, f, ho, hadd, hp1⟩ := hp.loop hf
  obtain ⟨rec, hrec, hmain⟩ := hadd.record (hp1.onWay.extends_ hf)
  rw [← hpc] at hrec
  have hsame := (ho.above hp.live hp.onWay.matched.base).2
  have habove := ho.height
  have harity := blockArity_eq ho.sig
  have hh1 : Handlers P m sf.fid (srest.length + 1) (⟨f.params.length, f.stackHeight, .loop bt b k, k, none⟩ :: labels) own :=
    .plain rfl hh
  have hnext := hfa.moved ⟨last, ⟨hf, hend⟩, hp1⟩ sf.opnds (hsame.trans hheight) hh1 (rf.pc + 1)
  have hagree := Agree.next st hnext (by simp only [hpc]; exact hadd.size.symm) hr
  have hbase : sf.opnds.length - f.params.length = f.stackHeight := by omega
  have hs : sStep S (fun f => (P f).code) ⟨sf :: srest, [], st⟩ =
      .run ⟨{ sf with pc := ⟨b, ⟨f.params.length, f.stackHeight, .loop bt b k, k, none⟩ :: labels⟩ } :: srest, [], st⟩ 0 := by
    simp only [sStep, hcode, sEnter, harity, Core.next, hbase]
  -- with a TRIM_HANDLERS the record drops what a branch back to the loop has left
  split at hmain
  · have htrim := trim_run (S := S) hx hh (hp.onWay.matched.tries.trans htries.symm) hr { rf with pc := rf.pc + 1 }
      (rf :: rrest) st
    refine .of_main hfa (hfa.fid ▸ hrec) hmain (by rw [hcode, Code.visit]; rfl) ?_
    rw [hs, htrim]
    simpa only [hfa.opnds] using hagree
  · have : extra = [] := trim_none ht hrec fun d => by simp [hmain]
    subst this
    refine .of_none (hfa.fid ▸ hrec) hmain (by rw [hcode, Code.visit]) ?_
    rw [hs]
    simpa only [hfa.opnds, List.nil_append] using hagree

/-- a step into a `try_table` beyond the handlers there is room for -/
structure NoRoom (S : Sem ι Val Store Exn P) (c c1 : SCore ι Val Store) : Prop where
  tryTable : ∃ fr rest bt cs b k labels, c.frames = fr :: rest ∧ fr.pc = ⟨.tryTable bt cs b k, labels⟩
  enters : sStep S (fun f => (P f).code) c = .run c1 0
  room : S.handlerRoom (openTries c.frames) = false

/-- both machines are at a TRY_TABLE, and the record machine has no room for its handler -/
structure Full (S : Sem ι Val Store Exn P) (m : Bool) (c : SCore ι Val Store) (c' : RCore ι Val Store) : Prop where
  visit : rVisit P m c' = sVisit c
  noRoom : ∃ c1, NoRoom S c c1 ∧ c1.store = c'.store
  fails : rStep S m c' = .failed .stackOverflow c'.store

/-- the handler of a `try_table` leads where its clauses say -/
theorem clauses_ok {F : Func} {last a1 b1 : AState} {body : Code} {lab : SLabel} {f : CtrlFrame} {spBase : Nat}
    {cs : List CatchClause} {es : List DCatch} (hf : F.Ended m last)
    (ha1 : OnWay (F.context m) m (F.decoded m) last a1) (hs : Steps (F.context m) a1 body.flat b1)
    (ho : Outer (F.context m) m (F.decoded m) last b1 (lab :: labels)) (hctrl : a1.v.ctrl = f :: a.v.ctrl)
    (hplan : ∃ g, (F.planBefore m a1).ctrl = g :: ((F.planBefore m a).markAll (es.map DCatch.label)).ctrl)
    (htries : (F.planBefore m a).tryDepth = tryCount a.v.ctrl) (hsp : f.stackHeight + f.params.length = spBase)
    (hc : List.Forall₂ (fun c d => CatchOk (F.context m).module a.v (F.context m).func f.stackHeight c d ∧
      (∀ ts h, a.v.brTarget (F.context m).func c.label = some (ts, h) →
        d.drop = f.stackHeight + f.params.length - h ∧ h + ts.length ≤ a1.v.maxStackDepth)) cs es) :
    List.Forall₂ (ClauseOk m F spBase labels) cs
      (es.map fun c => ⟨c.kind, c.tag, (F.planBefore m a).target c.label, c.drop⟩) := by
  obtain ⟨g, hplan⟩ := hplan
  rw [List.forall₂_map_right_iff]
  have hmem := hc
  rw [List.forall₂_iff_zip] at hc ⊢
  refine ⟨hc.1, fun {c d} hcd => ?_⟩
  obtain ⟨hok, hdrop⟩ := hc.2 hcd
  have hd : d ∈ es := (List.of_mem_zip hcd).2
  obtain ⟨ts, h, ht, hle, hlen⟩ := hok.target
  obtain ⟨hdr, hdepth⟩ := hdrop ts h ht
  have ht1 : a1.v.brTarget F.ctx.func (1 + c.label) = some (ts, h) := by
    rw [Nat.add_comm, brTarget_push hctrl]
    exact ht
  have hdest := dest_of_target 1 hf ha1 hs ho (fun g' hg hlt => ?_) ht1 (hdepth.trans (hf.depth_le ha1))
  · have htarget : (F.planBefore m a1).target (1 + c.label) = (F.planBefore m a).target d.label := by
      rw [← Plan.target_markAll (F.planBefore m a) (es.map DCatch.label), Plan.target_eq, Plan.target_eq, hplan,
        List.map_cons, Nat.add_comm, List.getElem?_cons_succ, hok.label]
    rw [htarget, List.drop_one, List.tail_cons] at hdest
    refine ⟨hok.kind, hok.tag, ts.length, h, hdest, ?_, ?_⟩
    · rw [hlen]
      rfl
    · simp only
      omega
  · rw [hplan, Nat.add_comm, List.getElem?_cons_succ] at hg
    rw [hctrl, List.drop_one, List.tail_cons, ← htries] at hlt
    exact markAll_needsTrim (List.mem_map.mpr ⟨d, hd, hok.label⟩) hg hlt

theorem tryTable_step {bt : BlockType} {cs : List CatchClause} {b : Code}
    (hfa : FrameAt (P := P) m (srest.length + 1) 0 sf rf own a)
    (hcode : sf.pc = ⟨.tryTable bt cs b k, labels⟩) (hpc : rf.pc = ((P sf.fid).planBefore m a).size)
    {extra : List (Handler ι Target)} (ht : extra = [] ∨ TrimAt m ((P sf.fid).decoded m) rf.pc (tryCount a.v.ctrl))
    (hr : Suspended (P := P) m (P sf.fid).nresults srest rrest hs') (st : Store) :
    Matches S m ⟨sf :: srest, [], st⟩ ⟨rf :: rrest, extra ++ own ++ hs', st⟩ ∨
      Full S m ⟨sf :: srest, [], st⟩ ⟨rf :: rrest, extra ++ own ++ hs', st⟩ := by
  have hpos := hfa.pos
  have hh := hfa.handlers
  have hheight : a.v.height = sf.opnds.length := by simpa using hfa.height
  rw [hcode] at hpos hh
  obtain ⟨last, ⟨hf, hend⟩, hp⟩ := hpos
  obtain ⟨a1, f, es, ho, hc, hadd, hp1⟩ := hp.tryTable hf
  obtain ⟨rec, hrec, hmain⟩ := hadd.record (hp1.onWay.extends_ hf)
  rw [← hpc] at hrec
  obtain rfl : extra = [] := trim_none ht hrec fun d => by simp [hmain]
  rw [List.nil_append]
  have hsame := (ho.above hp.live hp.onWay.matched.base).2
  have habove := ho.height
  have harity := blockArity_eq ho.sig
  obtain ⟨b1, hs1, ho1⟩ := hp1.rest
  have hsp : f.stackHeight + f.params.length = sf.opnds.length := by omega
  have hclauses := clauses_ok ⟨hf, hend⟩ hp1.onWay hs1 ho1 ho.ctrl ⟨_, hadd.ctrl⟩ hp.onWay.matched.tries hsp hc
  have hh1 : Handlers P m sf.fid (srest.length + 1) (⟨f.results.length, f.stackHeight, k, k, some cs⟩ :: labels)
      (⟨srest.length + 1, sf.opnds.length, sf.fid, es.map fun c =>
        ⟨c.kind, c.tag, ((P sf.fid).planBefore m a).target c.label, c.drop⟩⟩ :: own) :=
    .installed rfl rfl rfl hclauses hh
  have hnext := hfa.moved ⟨last, ⟨hf, hend⟩, hp1⟩ sf.opnds (hsame.trans hheight) hh1 (rf.pc + 1)
  have := Agree.next st hnext (by simp only [hpc]; exact hadd.size.symm) hr
  have hbase : sf.opnds.length - f.params.length = f.stackHeight := by omega
  cases hroom : S.handlerRoom (own ++ hs').length with
  | true =>
    refine .inl (.of_main hfa (hfa.fid ▸ hrec) hmain (by rw [hcode, Code.visit]; rfl) ?_)
    simpa only [sStep, hcode, sEnter, harity, Core.next, hbase, execInstr, hroom, if_true, hfa.opnds, hfa.fid, hr.length,
      List.cons_append] using this
  | false =>
    have hrec' : ((P sf.fid).plan m).records[rf.pc]? = some rec := hrec
    have hs : sStep S (fun f => (P f).code) ⟨sf :: srest, [], st⟩ =
        .run ⟨{ sf with pc := ⟨b, ⟨f.results.length, f.stackHeight, k, k, some cs⟩ :: labels⟩ } :: srest, [], st⟩ 0 := by
      simp only [sStep, hcode, sEnter, harity, Core.next, hbase]
    have hopen : (own ++ hs').length = openTries (sf :: srest) := by
      rw [List.length_append, hfa.handlers.length, hr.openTries, openTries_cons]
    refine .inr ⟨?_, ⟨_, ⟨⟨sf, srest, bt, cs, b, k, labels, rfl, hcode⟩, hs, hopen ▸ hroom⟩, rfl⟩, ?_⟩
    · simp only [rVisit, sVisit, hfa.fid, hrec', Option.bind_some, hmain, hcode, Code.visit, LInstr.visit, Frame.seen,
        Option.map_some, hfa.locals, hfa.opnds]
    · rw [rStep_main st (hfa.fid ▸ hrec') hmain]
      simp only [execInstr, hroom, Bool.false_eq_true, if_false]

theorem ifThen_step {bt : BlockType} {t : Code} (hfa : FrameAt (P := P) m (srest.length + 1) 0 sf rf own a)
    (hcode : sf.pc = ⟨.ifThen bt t k, labels⟩) (hpc : rf.pc = ((P sf.fid).planBefore m a).size)
    {extra : List (Handler ι Target)} (ht : extra = [] ∨ TrimAt m ((P sf.fid).decoded m) rf.pc (tryCount a.v.ctrl))
    (hr : Suspended (P := P) m (P sf.fid).nresults srest rrest hs') (st : Store) :
    Matches S m ⟨sf :: srest, [], st⟩ ⟨rf :: rrest, extra ++ own ++ hs', st⟩ := by
  have hpos := hfa.pos
  have hh := hfa.handlers
  have hheight : a.v.height = sf.opnds.length := by simpa using hfa.height
  rw [hcode] at hpos hh
  obtain ⟨last, ⟨hf, hend⟩, hp⟩ := hpos
  obtain ⟨a1, f, b', hi, hp1, hp2, hheight', -, -, r, hends, harr⟩ := hp.ifThen hf
  obtain ⟨rec, hrec, hmain⟩ := hi.adds.record (hp1.onWay.extends_ hf)
  rw [← hpc] at hrec
  obtain rfl : extra = [] := trim_none ht hrec fun d => by simp [hmain]
  rw [List.nil_append]
  obtain ⟨-, -, hlen⟩ := hi.live hp.live hp.onWay.matched.base
  obtain ⟨w, -, ho⟩ := hi.pops
  have harity := blockArity_eq ho.sig
  refine .of_main hfa (hfa.fid ▸ hrec) hmain (by rw [hcode, Code.visit]; rfl) ?_
  cases hop : sf.opnds with
  | nil => simp [hheight, hop] at hlen
  | cons v vs =>
    have hvs : vs.length = f.stackHeight + f.params.length := by
      rw [hheight, hop, List.length_cons] at hlen
      omega
    simp only [sStep, hcode, execInstr, hfa.opnds, hop]
    split
    · have hidx : ((P sf.fid).plan m).index (.falseOf a.instrs.length) = r := hp2.onWay.index_falseOf hf hends
      have hnext := hfa.moved ⟨last, ⟨hf, hend⟩, hp2⟩ vs (hheight'.trans hvs.symm) hh r
      have : Rel (P := P) m ⟨_ :: srest, [], st⟩ ⟨_ :: rrest, own ++ hs', st⟩ := .mk st (.of_frame hnext harr) hr
      refine .run ?_ 0
      simpa only [rNav, hfa.fid, hidx] using this
    · have hh1 : Handlers P m sf.fid (srest.length + 1) (⟨f.results.length, f.stackHeight, k, k, none⟩ :: labels) own :=
        .plain rfl hh
      have hnext := hfa.moved ⟨last, ⟨hf, hend⟩, hp1⟩ vs (ho.height.trans hvs.symm) hh1 (rf.pc + 1)
      have := Agree.next st hnext (by simp only [hpc]; exact hi.adds.size.symm) hr
      have hbase : vs.length - f.params.length = f.stackHeight := by omega
      simpa only [sEnter, harity, Core.next, hbase, hcode] using this

theorem ifElse_step {bt : BlockType} {t e : Code} (hfa : FrameAt (P := P) m (srest.length + 1) 0 sf rf own a)
    (hcode : sf.pc = ⟨.ifElse bt t e k, labels⟩) (hpc : rf.pc = ((P sf.fid).planBefore m a).size)
    {extra : List (Handler ι Target)} (ht : extra = [] ∨ TrimAt m ((P sf.fid).decoded m) rf.pc (tryCount a.v.ctrl))
    (hr : Suspended (P := P) m (P sf.fid).nresults srest rrest hs') (st : Store) :
    Matches S m ⟨sf :: srest, [], st⟩ ⟨rf :: rrest, extra ++ own ++ hs', st⟩ := by
  have hpos := hfa.pos
  have hh := hfa.handlers
  have hheight : a.v.height = sf.opnds.length := by simpa using hfa.height
  rw [hcode] at hpos hh
  obtain ⟨last, ⟨hf, hend⟩, hp⟩ := hpos
  obtain ⟨a1, f, b1, hi, hp1, hp2, hheight', -, -, hends⟩ := hp.ifElse hf
  obtain ⟨rec, hrec, hmain⟩ := hi.adds.record (hp1.onWay.extends_ hf)
  rw [← hpc] at hrec
  obtain rfl : extra = [] := trim_none ht hrec fun d => by simp [hmain]
  rw [List.nil_append]
  obtain ⟨-, -, hlen⟩ := hi.live hp.live hp.onWay.matched.base
  obtain ⟨w, -, ho⟩ := hi.pops
  have harity := blockArity_eq ho.sig
  have hh1 : Handlers P m sf.fid (srest.length + 1) (⟨f.results.length, f.stackHeight, k, k, none⟩ :: labels) own :=
    .plain rfl hh
  refine .of_main hfa (hfa.fid ▸ hrec) hmain (by rw [hcode, Code.visit]; rfl) ?_
  cases hop : sf.opnds with
  | nil => simp [hheight, hop] at hlen
  | cons v vs =>
    have hvs : vs.length = f.stackHeight + f.params.length := by
      rw [hheight, hop, List.length_cons] at hlen
      omega
    have hbase : vs.length - f.params.length = f.stackHeight := by omega
    simp only [sStep, hcode, execInstr, hfa.opnds, hop, sEnter, harity, Core.next, hbase]
    cases hz : S.isZero v with
    | true =>
      have hidx : ((P sf.fid).plan m).index (.falseOf a.instrs.length) = ((P sf.fid).planBefore m b1).size :=
        hp2.onWay.index_falseOf hf hends
      have hnext := hfa.moved ⟨last, ⟨hf, hend⟩, hp2⟩ vs (hheight'.trans hvs.symm) hh1 ((P sf.fid).planBefore m b1).size
      have := Agree.next st hnext rfl hr
      simpa only [if_true, Core.jump, rNav, hfa.fid, hidx] using this
    | false =>
      have hnext := hfa.moved ⟨last, ⟨hf, hend⟩, hp1⟩ vs (ho.height.trans hvs.symm) hh1 (rf.pc + 1)
      have := Agree.next st hnext (by simp only [hpc]; exact hi.adds.size.symm) hr
      simpa only [Bool.false_eq_true, if_false] using this

/-- the end of a construct -/
theorem leave_step {lab : SLabel} (hfa : FrameAt (P := P) m (srest.length + 1) 0 sf rf own a)
    (hcode : sf.pc = ⟨.nil, lab :: labels⟩) (hpc : rf.pc = ((P sf.fid).planBefore m a).size)
    {extra : List (Handler ι Target)} (ht : extra = [] ∨ TrimAt m ((P sf.fid).decoded m) rf.pc (tryCount a.v.ctrl))
    (hr : Suspended (P := P) m (P sf.fid).nresults srest rrest hs') (st : Store) :
    Matches S m ⟨sf :: srest, [], st⟩ ⟨rf :: rrest, extra ++ own ++ hs', st⟩ := by
  have hpos := hfa.pos
  have hh := hfa.handlers
  have hheight : a.v.height = sf.opnds.length := by simpa using hfa.height
  rw [hcode] at hpos hh
  obtain ⟨last, ⟨hf, hend⟩, hp⟩ := hpos
  obtain ⟨b', f, g, r, hl, ⟨rec, hrec, hx⟩, hlab, hp1⟩ := hp.nil
  have hrec' : ((P sf.fid).plan m).records[rf.pc]? = some rec := hpc ▸ hrec
  have : extra = [] := by
    refine trim_none ht hrec' fun d => ?_
    rcases hx with ⟨h, -⟩ | ⟨h, -⟩ | ⟨h, -⟩ <;> simp [h]
  subst this
  have hlive := hl.live hp.live
  have hbelow : b'.v.height = sf.opnds.length := by rw [hl.height, ← hlive, hheight]
  have hs : sStep S (fun f => (P f).code) ⟨sf :: srest, [], st⟩ =
      .run ⟨{ sf with pc := ⟨lab.rest, labels⟩ } :: srest, [], st⟩ 0 := by
    simp only [sStep, hcode]
    rfl
  have hland : ∀ own', Handlers P m sf.fid (srest.length + 1) labels own' →
      Agree (P := P) m (.run ⟨{ sf with pc := ⟨lab.rest, labels⟩ } :: srest, [], st⟩ 0)
        (.run ⟨{ rf with pc := r } :: rrest, own' ++ hs', st⟩ 0) := by
    intro own' hh'
    have hnext := hfa.moved ⟨last, ⟨hf, hend⟩, hp1⟩ sf.opnds hbelow hh' r
    have hrel := Rel.mk st (.of_frame hnext hl.arrives) hr
    refine .run ?_ 0
    simpa only [hfa.opnds] using hrel
  have hplain : f.opcode ≠ .tryTable → Handlers P m sf.fid (srest.length + 1) labels own := by
    intro hne
    refine hh.pop ?_
    by_contra hsome
    exact hne (hlab.handler.mp hsome)
  rw [List.nil_append]
  rcases hx with ⟨hmain, hne, rfl⟩ | ⟨hmain, htry, rfl⟩ | ⟨hmain, hif⟩
  · refine .of_none (hfa.fid ▸ hrec') hmain (by rw [hcode, Code.visit]) ?_
    rw [hs, hpc]
    exact hland own (hplain hne)
  · obtain ⟨hd, own', rfl, hh'⟩ := hh.popTry (hlab.handler.mpr htry)
    refine .of_main hfa (hfa.fid ▸ hrec') hmain (by rw [hcode, Code.visit]; rfl) ?_
    rw [hs]
    simp only [execInstr, List.cons_append, Core.next, hpc]
    exact hland own' hh'
  · have hidx : ((P sf.fid).plan m).index (.endOf g.id) = r := hp1.onWay.index_endOf hf hl.name
    refine .of_main hfa (hfa.fid ▸ hrec') hmain (by rw [hcode, Code.visit]; rfl) ?_
    rw [hs]
    simp only [execInstr, Core.jump, rNav, hfa.fid, hidx]
    have := hland own (hplain (by simp [hif]))
    simpa only [hfa.fid] using this

/-- the end of a function -/
theorem end_step {hs : List (Handler ι Target)} (hfid : rf.fid = sf.fid) (hopnds : rf.opnds = sf.opnds)
    (hcode : sf.pc = ⟨.nil, []⟩) (hacc : (P sf.fid).Accepted m)
    (hpc : rf.pc + 1 = ((P sf.fid).plan m).size) (hlen : sf.opnds.length = (P sf.fid).nresults)
    (hx : ∀ hd ∈ hs, hd.callDepth = srest.length + 1)
    (hr : Suspended (P := P) m (P sf.fid).nresults srest rrest hs') (st : Store) :
    Matches S m ⟨sf :: srest, [], st⟩ ⟨rf :: rrest, hs ++ hs', st⟩ := by
  obtain ⟨last, ⟨hf, hend⟩, hp⟩ := hacc.start
  have hadd := hf.adds (hp.onWay.atLast hf).matched
  obtain ⟨rec, hrec, hmain⟩ := hadd.record (.refl _)
  have hsize : rf.pc = (last.plan m ((P sf.fid).decoded m)).size := by
    have : ((P sf.fid).plan m).size = _ := hadd.size
    omega
  have hrec' : ((P sf.fid).plan m).records[rf.pc]? = some rec := hsize ▸ hrec
  constructor
  · simp only [rVisit, sVisit, hfid, hrec', Option.bind_some, hmain, hcode, Code.visit, LInstr.visit, Frame.seen,
      Option.map_none]
  · rw [rStep_main st (hfid ▸ hrec') hmain]
    simp only [sStep, hcode]
    exact popFrame_agree st hfid hopnds (Nat.le_of_eq hlen.symm) hx hr

end Step

/-! ## The simulation -/

section Simulation

variable {S : Sem ι Val Store Exn P} {c : SCore ι Val Store} {c' : RCore ι Val Store}

/-- length of the code that may be passed without a record -/
def stutter (c : SCore ι Val Store) : Nat :=
  match c.frames with
  | [] => 0
  | fr :: _ => fr.pc.code.flat.length

/-- one step of the structured machine is one record, or an instruction without one is passed, unless there is no
room for a handler -/
inductive Follows (S : Sem ι Val Store Exn P) (m : Bool) (c : SCore ι Val Store) (c' : RCore ι Val Store) : Prop where
  | record (h : Matches S m c c')
  | full (h : Full S m c c')
  | pass {c1 : SCore ι Val Store} (hs : sStep S (fun f => (P f).code) c = .run c1 0) (hv : sVisit c = none)
      (hlt : stutter c1 < stutter c) (h : Rel (P := P) m c1 c')

/-- a frame whose record is that of its position -/
theorem step_here {srest : List (Frame ι Val SPos)} {rrest : List (Frame ι Val Nat)}
    {extra own hs' : List (Handler ι Target)} {sf : Frame ι Val SPos} {rf : Frame ι Val Nat} {a : AState}
    (hacc : ∀ f, (P f).Accepted m) (hfa : FrameAt (P := P) m (srest.length + 1) 0 sf rf own a)
    (hpc : rf.pc = ((P sf.fid).planBefore m a).size) 
    (hx : ∀ hd ∈ extra, hd.callDepth = srest.length + 1 ∧ hd.fid = sf.fid)
    (ht : extra = [] ∨ TrimAt m ((P sf.fid).decoded m) rf.pc (tryCount a.v.ctrl))
    (hr : Suspended (P := P) m (P sf.fid).nresults srest rrest hs') (st : Store) :
    Follows S m ⟨sf :: srest, [], st⟩ ⟨rf :: rrest, extra ++ own ++ hs', st⟩ := by
  obtain ⟨code, labels, hcode⟩ : ∃ code labels, sf.pc = ⟨code, labels⟩ := ⟨_, _, rfl⟩
  cases code with
  | nil =>
    cases labels with
    | nil =>
      have hpos := hfa.pos
      rw [hcode] at hpos
      obtain ⟨last, ⟨hf, hend⟩, hp⟩ := hpos
      obtain rfl : a = last := hp.atEnd
      have hsize : ((P sf.fid).plan m).size = _ := (hf.adds hp.onWay.matched).size
      have hheight : a.v.height = sf.opnds.length := by simpa using hfa.height
      refine .record (end_step hfa.fid hfa.opnds hcode (hacc _) (by rw [hpc, hsize]) ?_ ?_ hr st)
      · rw [← hheight, hf.results hp.live]
        rfl
      · intro hd hm
        rcases List.mem_append.mp hm with hm | hm
        · exact (hx hd hm).1
        · exact hfa.handlers.callDepth hd hm
    | cons lab labels => exact .record (leave_step hfa hcode hpc ht hr st)
  | op i hi k =>
    rcases op_step hacc hfa hcode hpc hx ht hr st with ⟨hv, hs, hrel⟩ | h
    · refine .pass hs ?_ ?_ hrel
      · simp only [sVisit, hcode, Code.visit, hv, Frame.seen, Option.map_none]
      · simp only [stutter, hcode, Code.flat, List.length_cons]
        omega
    · exact .record h
  | block bt b k => exact .record (block_step hfa hcode hpc ht hr st)
  | loop bt b k => exact .record (loop_step hfa hcode hpc (fun hd hm => (hx hd hm).1) ht hr st)
  | ifThen bt t k => exact .record (ifThen_step hfa hcode hpc ht hr st)
  | ifElse bt t e k => exact .record (ifElse_step hfa hcode hpc ht hr st)
  | tryTable bt cs b k =>
    rcases tryTable_step hfa hcode hpc ht hr st with h | h
    · exact .record h
    · exact .full h

/-- **Simulation.** From related states the record machine may first drop the handlers a branch has left; then one
step of the structured machine is one record, or passes an instruction that leaves none. -/
theorem Rel.follows (hacc : ∀ f, (P f).Accepted m) (h : Rel (P := P) m c c') :
    Follows S m c c' ∨
      ∃ c'', rStep S m c' = .run c'' 0 ∧ rVisit P m c' = none ∧ Rel (P := P) m c c'' ∧ Follows S m c c'' := by
  obtain @⟨sf, rf, srest, rrest, hs, hs', st, htop, hr⟩ := h
  cases htop with
  | @at_ extra own a hfa harr hx ht =>
    rcases harr with hpc | ⟨hpc, rec, hrec, hmain⟩
    · exact .inl (step_here hacc hfa hpc hx ht hr st)
    · have hrec' : ((P sf.fid).plan m).records[rf.pc]? = some rec := hrec
      have hnext : FrameAt (P := P) m (srest.length + 1) 0 sf { rf with pc := rf.pc + 1 } own a :=
        ⟨hfa.fid, hfa.locals, hfa.opnds, hfa.count, hfa.pos, hfa.height, hfa.base, hfa.handlers⟩
      have htrim := trim_run (S := S) (fun hd hm => (hx hd hm).1) hfa.handlers hfa.pos.tries.symm hr
        { rf with pc := rf.pc + 1 } (rf :: rrest) st
      refine .inr ⟨⟨{ rf with pc := rf.pc + 1 } :: rrest, own ++ hs', st⟩, ?_, ?_, .mk st (.of_frame hnext (.inl hpc)) hr, ?_⟩
      · rw [rStep_main st (hfa.fid ▸ hrec') hmain, htrim]
      · simp only [rVisit, hfa.fid, hrec', Option.bind_some, hmain, LInstr.visit, Frame.seen, Option.map_none]
      · have hx' : ∀ hd ∈ ([] : List (Handler ι Target)), hd.callDepth = srest.length + 1 ∧ hd.fid = sf.fid := by simp
        have := step_here (S := S) hacc hnext hpc hx' (.inl rfl) hr st
        rwa [List.nil_append] at this
  | atEnd hfid hopnds hlocals hcode hpc hlen _ hx =>
    exact .inl (.record (end_step hfid hopnds hcode (hacc _) hpc hlen (fun hd hm => (hx hd hm).1) hr st))

end Simulation

end Refine

end Wah
