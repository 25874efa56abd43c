/-
The same instructions at other positions.

`execInstr` runs an instruction over any targets and positions. Two machines whose positions correspond (`Nav.Relocates`)
do the same: their frames have the same locals and operands at corresponding positions, their handlers lead to
corresponding targets, and so do the states after one instruction (`execInstr_moved`). Only an instruction that
control may run past needs its own position to correspond.
-/
import Wah.Records
import Wah.Exec

namespace Wah

section Relocation

variable {ι Val Store Exn τ π τ' π' : Type} {P : ι → Func}

/-- targets and positions of one machine that correspond to those of another one -/
structure Nav.Relocates (N : Nav ι τ π) (N' : Nav ι τ' π') (T : ι → τ → τ' → Prop) (Q : ι → π → π' → Prop) : Prop where
  goto : ∀ f t t' p p', T f t t' → Q f (N.goto f t p) (N'.goto f t' p')
  entry : ∀ f, Q f (N.entry f) (N'.entry f)

/-- the frame but for its position -/
structure Frame.Twin (fr : Frame ι Val π) (fr' : Frame ι Val π') : Prop where
  fid : fr'.fid = fr.fid
  locals : fr'.locals = fr.locals
  opnds : fr'.opnds = fr.opnds

/-- the frame at a corresponding position -/
structure Frame.Moved (Q : ι → π → π' → Prop) (fr : Frame ι Val π) (fr' : Frame ι Val π') : Prop extends
    Frame.Twin fr fr' where
  pos : Q fr.fid fr.pc fr'.pc

structure LCatch.Moved (T : τ → τ' → Prop) (c : LCatch τ) (d : LCatch τ') : Prop where
  kind : d.kind = c.kind
  tag : d.tag = c.tag
  drop : d.drop = c.drop
  target : T c.target d.target

structure Handler.Moved (T : ι → τ → τ' → Prop) (h : Handler ι τ) (h' : Handler ι τ') : Prop where
  callDepth : h'.callDepth = h.callDepth
  spBase : h'.spBase = h.spBase
  fid : h'.fid = h.fid
  catches : List.Forall₂ (LCatch.Moved (T h.fid)) h.catches h'.catches

structure Core.Moved (T : ι → τ → τ' → Prop) (Q : ι → π → π' → Prop) (c : Core ι Val Store τ π)
    (d : Core ι Val Store τ' π') : Prop where
  frames : List.Forall₂ (Frame.Moved Q) c.frames d.frames
  handlers : List.Forall₂ (Handler.Moved T) c.handlers d.handlers
  store : d.store = c.store

/-- outcomes that correspond -/
inductive Res.Moved (T : ι → τ → τ' → Prop) (Q : ι → π → π' → Prop) : Res ι Val Store τ π → Res ι Val Store τ' π' → Prop where
  | run {c : Core ι Val Store τ π} {d : Core ι Val Store τ' π'} (h : Core.Moved T Q c d) (zeroed : Nat) :
      Res.Moved T Q (.run c zeroed) (.run d zeroed)
  | finished (vs : List Val) (st : Store) : Res.Moved T Q (.finished vs st) (.finished vs st)
  | failed (e : Fault) (st : Store) : Res.Moved T Q (.failed e st) (.failed e st)
  | stuck : Res.Moved T Q .stuck .stuck

variable {T : ι → τ → τ' → Prop} {Q : ι → π → π' → Prop} {fr : Frame ι Val π} {fr' : Frame ι Val π'}
  {rest : List (Frame ι Val π)} {rest' : List (Frame ι Val π')} {c : Core ι Val Store τ π}
  {d : Core ι Val Store τ' π'} {hs : List (Handler ι τ)} {hs' : List (Handler ι τ')}

theorem slots_moved (h : List.Forall₂ (Frame.Moved Q) rest rest') : slots rest' = slots rest := by
  induction h with
  | nil => rfl
  | cons h _ ih =>
    simp only [slots, List.map_cons, List.sum_cons, h.locals, h.opnds] at ih ⊢
    rw [ih]

theorem dropFrameHandlers_moved (depth : Nat) (h : List.Forall₂ (Handler.Moved T) hs hs') :
    List.Forall₂ (Handler.Moved T) (dropFrameHandlers depth hs) (dropFrameHandlers depth hs') := by
  induction h with
  | nil => exact .nil
  | @cons a b as bs hab h ih =>
    unfold dropFrameHandlers at ih ⊢
    rw [List.dropWhile_cons, List.dropWhile_cons, hab.callDepth]
    split
    · exact ih
    · exact .cons hab h

theorem takeWhile_moved (depth : Nat) (h : List.Forall₂ (Handler.Moved T) hs hs') :
    (hs.takeWhile fun h => decide (depth ≤ h.callDepth)).length =
      (hs'.takeWhile fun h => decide (depth ≤ h.callDepth)).length := by
  induction h with
  | nil => rfl
  | cons hab _ ih =>
    rw [List.takeWhile_cons, List.takeWhile_cons, hab.callDepth]
    split
    · rw [List.length_cons, List.length_cons, ih]
    · rfl

theorem run_moved {st : Store} (hf : Frame.Moved Q fr fr') (hrest : List.Forall₂ (Frame.Moved Q) rest rest')
    (hh : List.Forall₂ (Handler.Moved T) hs hs') (zeroed : Nat) :
    Res.Moved T Q (.run ⟨fr :: rest, hs, st⟩ zeroed) (.run ⟨fr' :: rest', hs', st⟩ zeroed) := by
  have h : Core.Moved T Q ⟨fr :: rest, hs, st⟩ ⟨fr' :: rest', hs', st⟩ := ⟨.cons hf hrest, hh, rfl⟩
  exact .run h zeroed

/-- going on in the current frame -/
theorem next_moved (hf : Frame.Twin fr fr') (hp : Q fr.fid fr.pc fr'.pc) (hrest : List.Forall₂ (Frame.Moved Q) rest rest')
    (hh : List.Forall₂ (Handler.Moved T) c.handlers d.handlers) (hst : d.store = c.store) (vs : List Val) :
    Res.Moved T Q (c.next fr rest vs) (d.next fr' rest' vs) := by
  have htwin : Frame.Twin { fr with opnds := vs } { fr' with opnds := vs } := ⟨hf.fid, hf.locals, rfl⟩
  unfold Core.next
  rw [hst]
  exact run_moved ⟨htwin, hp⟩ hrest hh 0

/-- going on at a target -/
theorem jump_moved {N : Nav ι τ π} {N' : Nav ι τ' π'} (hN : N.Relocates N' T Q) (hf : Frame.Twin fr fr')
    {t : τ} {t' : τ'} (ht : T fr.fid t t') (hrest : List.Forall₂ (Frame.Moved Q) rest rest')
    (hh : List.Forall₂ (Handler.Moved T) c.handlers d.handlers) (hst : d.store = c.store) (vs : List Val) :
    Res.Moved T Q (c.jump N fr rest t vs) (d.jump N' fr' rest' t' vs) := by
  have htwin : Frame.Twin { fr with opnds := vs, pc := N.goto fr.fid t fr.pc }
      { fr' with opnds := vs, pc := N'.goto fr'.fid t' fr'.pc } := ⟨hf.fid, hf.locals, rfl⟩
  unfold Core.jump
  rw [hst]
  exact run_moved ⟨htwin, hf.fid ▸ hN.goto fr.fid t t' fr.pc fr'.pc ht⟩ hrest hh 0

theorem popFrame_moved (hf : Frame.Twin fr fr') (hrest : List.Forall₂ (Frame.Moved Q) rest rest')
    (hh : List.Forall₂ (Handler.Moved T) c.handlers d.handlers) (hst : d.store = c.store) :
    Res.Moved T Q (popFrame (P := P) c fr rest) (popFrame (P := P) d fr' rest') := by
  have hdrop := dropFrameHandlers_moved (rest.length + 1) hh
  have hlen := hrest.length_eq
  unfold popFrame
  rw [hf.opnds, hf.fid, hst, ← hlen]
  cases hrest with
  | nil => exact .finished _ _
  | @cons a b as bs hab h =>
    have htwin : Frame.Twin { a with opnds := fr.opnds.take (P fr.fid).nresults ++ a.opnds }
        { b with opnds := fr.opnds.take (P fr.fid).nresults ++ b.opnds } := ⟨hab.fid, hab.locals, by rw [hab.opnds]⟩
    exact run_moved ⟨htwin, hab.pos⟩ h hdrop 0

section Instr

variable {S : Sem ι Val Store Exn P} {N : Nav ι τ π} {N' : Nav ι τ' π'}

/-- clauses are looked for the same way -/
theorem find?_moved {f : ι} (x : Exn) {cs : List (LCatch τ)} {cs' : List (LCatch τ')}
    (h : List.Forall₂ (LCatch.Moved (T f)) cs cs') :
    (cs.find? (clauseMatches S x f) = none ∧ cs'.find? (clauseMatches S x f) = none) ∨
      ∃ lc lc', cs.find? (clauseMatches S x f) = some lc ∧ cs'.find? (clauseMatches S x f) = some lc' ∧
        LCatch.Moved (T f) lc lc' := by
  induction h with
  | nil => exact .inl ⟨rfl, rfl⟩
  | @cons lc lc' cs cs' hc _ ih =>
    have hm : clauseMatches S x f lc' = clauseMatches S x f lc := by simp only [clauseMatches, hc.kind, hc.tag]
    cases hlc : clauseMatches S x f lc with
    | true => exact .inr ⟨lc, lc', by simp [hlc], by simp [hm, hlc], hc⟩
    | false => simpa [List.find?_cons, hlc, hm] using ih

/-- handlers are found in the frames they belong to, when these are left one by one -/
def Owned : List ι → List (Handler ι τ) → Prop
  | _, [] => True
  | fids, h :: hs => (fids.drop (fids.length - h.callDepth)).head? = some h.fid ∧
      Owned (fids.drop (fids.length - h.callDepth)) hs

/-- an exception is caught by corresponding clauses; only the frame that throws may be out of place -/
theorem unwind_moved (hN : N.Relocates N' T Q) (x : Exn) (st : Store) {fs : List (Frame ι Val π)}
    {fs' : List (Frame ι Val π')} (hf : List.Forall₂ Frame.Twin fs fs')
    (htail : List.Forall₂ (Frame.Moved Q) fs.tail fs'.tail) (hh : List.Forall₂ (Handler.Moved T) hs hs')
    (hown : Owned (fs.map Frame.fid) hs) :
    Res.Moved T Q (unwind S N x st fs hs) (unwind S N' x st fs' hs') := by
  induction hh generalizing fs fs' with
  | nil => exact .failed _ _
  | @cons h h' hs hs' hab hh ih =>
    obtain ⟨hhead, hrest⟩ := hown
    have hlen := hf.length_eq
    rw [List.length_map, ← List.map_drop] at hhead hrest
    have hdrop : List.Forall₂ Frame.Twin (fs.drop (fs.length - h.callDepth)) (fs'.drop (fs'.length - h'.callDepth)) := by
      rw [hab.callDepth, ← hlen]
      exact List.forall₂_drop _ hf
    have hdroptail : List.Forall₂ (Frame.Moved Q) (fs.drop (fs.length - h.callDepth)).tail
        (fs'.drop (fs'.length - h'.callDepth)).tail := by
      rw [hab.callDepth, ← hlen, List.tail_drop, List.tail_drop, Nat.add_comm, ← List.drop_drop, ← List.drop_drop,
        List.drop_one, List.drop_one]
      exact List.forall₂_drop _ htail
    simp only [unwind]
    generalize fs.drop (fs.length - h.callDepth) = gs at hhead hrest hdrop hdroptail ⊢
    generalize fs'.drop (fs'.length - h'.callDepth) = gs' at hdrop hdroptail ⊢
    rw [hab.fid]
    rcases find?_moved (S := S) x hab.catches with ⟨h1, h2⟩ | ⟨lc, lc', h1, h2, hc⟩
    · rw [h1, h2]
      exact ih hdrop hdroptail hrest
    · rw [h1, h2]
      cases hdrop with
      | nil => simp at hhead
      | @cons g g' gs gs' hg hgs =>
        simp only [List.map_cons, List.head?_cons, Option.some.injEq] at hhead
        have hpos : Q g.fid (N.goto h.fid lc.target g.pc) (N'.goto h.fid lc'.target g'.pc) := by
          rw [hhead]
          exact hN.goto _ _ _ _ _ hc.target
        simp only [hc.kind, hc.drop, hab.spBase, hg.opnds]
        have hframe : Frame.Moved Q
            { g with pc := N.goto h.fid lc.target g.pc,
                     opnds := payload S lc.kind x ++ keepBottom (h.spBase - lc.drop) g.opnds }
            { g' with pc := N'.goto h.fid lc'.target g'.pc,
                      opnds := payload S lc.kind x ++ keepBottom (h.spBase - lc.drop) g.opnds } :=
          ⟨⟨hg.fid, hg.locals, rfl⟩, hpos⟩
        exact run_moved hframe hdroptail hh 0

section Exec

variable (hN : N.Relocates N' T Q) (hf : Frame.Twin fr fr') (hrest : List.Forall₂ (Frame.Moved Q) rest rest')
  (hh : List.Forall₂ (Handler.Moved T) c.handlers d.handlers) (hst : d.store = c.store)
include hN hf hrest hh hst

theorem execCall_moved (hpos : Q fr.fid fr.pc fr'.pc) (k : CallKind) :
    Res.Moved T Q (execCall S N c fr rest k) (execCall S N' d fr' rest' k) := by
  have hlen := hrest.length_eq
  simp only [execCall, hf.fid, hf.opnds, hf.locals, hst, slots_moved hrest, ← hlen]
  generalize k.sig (P fr.fid).module = sig
  generalize fr.opnds.drop sig.1.length = vs
  cases S.callee fr.fid k (fr.opnds.take sig.1.length) c.store with
  | trap => exact .failed _ _
  | host h =>
    simp only
    split
    · cases S.host h (vs.take sig.2.params.length) c.store with
      | none => exact .failed _ _
      | some r =>
        have := next_moved (c := { c with store := r.2 }) (d := { d with store := r.2 }) hf hpos hrest hh rfl
          (r.1 ++ vs.drop sig.2.params.length)
        simpa only [Core.next, hf.fid, hf.locals] using this
    · exact .failed _ _
  | wasm g =>
    simp only
    split
    · have hnew : Frame.Moved Q ⟨g, N.entry g, newLocals S g (vs.take sig.2.params.length), []⟩
          ⟨g, N'.entry g, newLocals S g (vs.take sig.2.params.length), []⟩ := ⟨⟨rfl, rfl, rfl⟩, hN.entry g⟩
      have hcaller : Frame.Moved Q { fr with opnds := vs.drop sig.2.params.length }
          ⟨fr.fid, fr'.pc, fr.locals, vs.drop sig.2.params.length⟩ := ⟨⟨rfl, rfl, rfl⟩, hpos⟩
      exact run_moved hnew (.cons hcaller hrest) hh _
    · exact .failed _ _

theorem execReturnCall_moved (k : CallKind) :
    Res.Moved T Q (execReturnCall S N c fr rest k) (execReturnCall S N' d fr' rest' k) := by
  have hlen := hrest.length_eq
  have hdrop := dropFrameHandlers_moved (rest.length + 1) hh
  simp only [execReturnCall, hf.fid, hf.opnds, hf.locals, hst, slots_moved hrest, ← hlen]
  generalize k.sig (P fr.fid).module = sig
  generalize fr.opnds.drop sig.1.length = vs
  cases S.callee fr.fid k (fr.opnds.take sig.1.length) c.store with
  | trap => exact .failed _ _
  | host h =>
    simp only
    split
    · cases S.host h (vs.take sig.2.params.length) c.store with
      | none => exact .failed _ _
      | some r =>
        have htwin : Frame.Twin { fr with opnds := r.1 ++ vs.drop sig.2.params.length }
            ⟨fr.fid, fr'.pc, fr.locals, r.1 ++ vs.drop sig.2.params.length⟩ := ⟨rfl, rfl, rfl⟩
        have := popFrame_moved (P := P)
          (c := { c with store := r.2, handlers := dropFrameHandlers (rest.length + 1) c.handlers })
          (d := { d with store := r.2, handlers := dropFrameHandlers (rest.length + 1) d.handlers }) htwin hrest hdrop rfl
        simpa only [hf.fid, hf.locals] using this
    · exact .failed _ _
  | wasm g =>
    simp only
    split
    · have hnew : Frame.Moved Q ⟨g, N.entry g, newLocals S g (vs.take sig.2.params.length), []⟩
          ⟨g, N'.entry g, newLocals S g (vs.take sig.2.params.length), []⟩ := ⟨⟨rfl, rfl, rfl⟩, hN.entry g⟩
      exact run_moved hnew hrest hdrop _
    · exact .failed _ _

omit hst in
/-- catching an exception in the frame that throws -/
theorem throw_moved (x : Exn) (st : Store) (hown : Owned (fr.fid :: rest.map Frame.fid) c.handlers) (vs : List Val) :
    Res.Moved T Q (unwind S N x st ({ fr with opnds := vs } :: rest) c.handlers)
      (unwind S N' x st ({ fr' with opnds := vs } :: rest') d.handlers) := by
  have htwin : Frame.Twin { fr with opnds := vs } { fr' with opnds := vs } := ⟨hf.fid, hf.locals, rfl⟩
  refine unwind_moved hN x st (.cons htwin ?_) hrest hh (by simpa using hown)
  exact hrest.imp fun _ _ h => h.toTwin

theorem execOp_moved (hown : Owned (fr.fid :: rest.map Frame.fid) c.handlers) (i : Instr)
    (hpos : (LInstr.op i none : LInstr τ).noFallthrough = false → Q fr.fid fr.pc fr'.pc) :
    Res.Moved T Q (execOp S N c fr rest i) (execOp S N' d fr' rest' i) := by
  cases i with
  | data op =>
    simp only [execOp, hf.fid, hf.opnds, hst]
    cases S.data fr.fid op (fr.opnds.take (op.arity (P fr.fid).module).1) c.store with
    | none => exact .failed _ _
    | some r => exact next_moved (c := { c with store := r.2 }) (d := { d with store := r.2 }) hf (hpos rfl) hrest hh rfl _
  | localGet i =>
    simp only [execOp, hf.locals, hf.opnds]
    cases fr.locals[i]? with
    | none => exact .stuck
    | some v => exact next_moved hf (hpos rfl) hrest hh hst _
  | localSet i | localTee i =>
    simp only [execOp, hf.locals, hf.opnds]
    cases fr.opnds with
    | nil => exact .stuck
    | cons v vs =>
      have htwin : Frame.Twin { fr with locals := fr.locals.set i v } { fr' with locals := fr.locals.set i v } :=
        ⟨hf.fid, rfl, hf.opnds⟩
      exact next_moved htwin (hpos rfl) hrest hh hst _
  | unreachable => simpa only [execOp, hst] using .failed _ _
  | return_ => exact popFrame_moved hf hrest hh hst
  | call k => exact execCall_moved hN hf hrest hh hst (hpos rfl) k
  | returnCall k => exact execReturnCall_moved hN hf hrest hh hst k
  | throw t =>
    simp only [execOp, hf.fid, hf.opnds, hst]
    cases S.newExn fr.fid t (fr.opnds.take (tagArity (P fr.fid).module t)).reverse c.store with
    | none => exact .failed _ _
    | some r => simpa only [hf.fid] using throw_moved hN hf hrest hh r.1 r.2 hown _
  | throwRef =>
    simp only [execOp, hf.opnds, hst]
    cases fr.opnds with
    | nil => exact .stuck
    | cons v vs =>
      simp only
      cases S.refExn v with
      | none => exact .failed _ _
      | some x => exact throw_moved hN hf hrest hh x c.store hown vs
  | _ => exact .stuck

/-- **Relocation.** An instruction with corresponding targets does the same in corresponding states. -/
theorem execInstr_moved (hown : Owned (fr.fid :: rest.map Frame.fid) c.handlers) {i : LInstr τ} {g : τ → τ'}
    (ht : ∀ t ∈ i.targets, T fr.fid t (g t)) (hpos : i.noFallthrough = false → Q fr.fid fr.pc fr'.pc) :
    Res.Moved T Q (execInstr S N c fr rest i) (execInstr S N' d fr' rest' (i.map g)) := by
  have hjump : ∀ t ∈ i.targets, ∀ vs, Res.Moved T Q (c.jump N fr rest t vs) (d.jump N' fr' rest' (g t) vs) :=
    fun t hm vs => jump_moved hN hf (ht t hm) hrest hh hst vs
  have hnext : i.noFallthrough = false → ∀ vs, Res.Moved T Q (c.next fr rest vs) (d.next fr' rest' vs) :=
    fun hi vs => next_moved hf (hpos hi) hrest hh hst vs
  cases i with
  | op i map =>
    have hop : ∀ map, (LInstr.op i map : LInstr τ).noFallthrough = (LInstr.op i none : LInstr τ).noFallthrough := by
      intro map
      cases i <;> rfl
    exact execOp_moved hN hf hrest hh hst hown i fun hi => hpos ((hop map).trans hi)
  | if_ t =>
    simp only [execInstr, LInstr.map, hf.opnds]
    cases fr.opnds with
    | nil => exact .stuck
    | cons v vs =>
      simp only
      split
      · exact hjump t (by simp [LInstr.targets]) vs
      · exact hnext rfl vs
  | else_ t =>
    simp only [execInstr, LInstr.map, hf.opnds]
    exact hjump t (by simp [LInstr.targets]) _
  | br t keep drop =>
    simp only [execInstr, LInstr.map, hf.opnds]
    exact hjump t (by simp [LInstr.targets]) _
  | brIf t keep drop =>
    simp only [execInstr, LInstr.map, hf.opnds]
    cases fr.opnds with
    | nil => exact .stuck
    | cons v vs =>
      simp only
      split
      · exact hnext rfl vs
      · exact hjump t (by simp [LInstr.targets]) _
  | brOnNull t keep drop =>
    simp only [execInstr, LInstr.map, hf.opnds]
    cases fr.opnds with
    | nil => exact .stuck
    | cons v vs =>
      simp only
      split
      · exact hjump t (by simp [LInstr.targets]) _
      · exact hnext rfl _
  | brOnNonNull t keep drop =>
    simp only [execInstr, LInstr.map, hf.opnds]
    cases fr.opnds with
    | nil => exact .stuck
    | cons v vs =>
      simp only
      split
      · exact hnext rfl vs
      · exact hjump t (by simp [LInstr.targets]) _
  | brOnCast fail dn dst t keep drop =>
    simp only [execInstr, LInstr.map, hf.opnds, hf.fid, hst]
    cases fr.opnds with
    | nil => exact .stuck
    | cons v vs =>
      simp only
      split
      · exact hjump t (by simp [LInstr.targets]) _
      · exact hnext rfl _
  | brTable keep targets records =>
    simp only [execInstr, LInstr.map, hf.opnds]
    cases fr.opnds with
    | nil => exact .stuck
    | cons v vs =>
      have hrec : brTableRecordAt targets (records.map fun r => (g r.1, r.2)) (S.index v) =
          (brTableRecordAt targets records (S.index v)).map fun r => (g r.1, r.2) := by
        unfold brTableRecordAt
        cases targets[min (S.index v) (targets.length - 1)]? with
        | none => rfl
        | some r => simp only [Option.bind_some, List.getElem?_map]
      simp only [hrec]
      cases hb : brTableRecordAt targets records (S.index v) with
      | none => exact .stuck
      | some r =>
        have hm : r ∈ records := by
          unfold brTableRecordAt at hb
          obtain ⟨k, -, hk⟩ := Option.bind_eq_some_iff.mp hb
          exact List.mem_of_getElem? hk
        exact hjump r.1 (List.mem_map_of_mem hm) _
  | tryTable catches =>
    have hlen := hrest.length_eq
    have hhl := hh.length_eq
    simp only [execInstr, LInstr.map, ← hhl, ← hlen, hf.fid, hf.opnds, hst]
    split
    · have hc : List.Forall₂ (LCatch.Moved (T fr.fid)) catches
          (catches.map fun c => ⟨c.kind, c.tag, g c.target, c.drop⟩) := by
        rw [List.forall₂_map_right_iff, List.forall₂_same]
        exact fun c hc => ⟨rfl, rfl, rfl, ht c.target (List.mem_map_of_mem hc)⟩
      have hnew : Handler.Moved T ⟨rest.length + 1, fr.opnds.length, fr.fid, catches⟩
          ⟨rest.length + 1, fr.opnds.length, fr.fid, catches.map fun c => ⟨c.kind, c.tag, g c.target, c.drop⟩⟩ :=
        ⟨rfl, rfl, rfl, hc⟩
      have htwin : Frame.Twin fr fr' := hf
      have := next_moved
        (c := { c with handlers := ⟨rest.length + 1, fr.opnds.length, fr.fid, catches⟩ :: c.handlers })
        (d := { d with handlers := ⟨rest.length + 1, fr.opnds.length, fr.fid,
          catches.map fun c => ⟨c.kind, c.tag, g c.target, c.drop⟩⟩ :: d.handlers })
        htwin (hpos rfl) hrest (.cons hnew hh) hst fr.opnds
      simpa only [hst] using this
    · exact .failed _ _
  | endTryTable =>
    obtain ⟨frames, handlers, st⟩ := c
    obtain ⟨frames', handlers', st'⟩ := d
    simp only at hh hst
    simp only [execInstr, LInstr.map, hf.opnds, hst]
    cases hh with
    | nil => exact .failed _ _
    | cons _ h => exact next_moved (c := ⟨frames, _, st⟩) (d := ⟨frames', _, st⟩) hf (hpos rfl) hrest h rfl _
  | trimHandlers depth =>
    have hlen := hrest.length_eq
    have hmine : (d.handlers.takeWhile fun h => decide (rest'.length + 1 ≤ h.callDepth)).length =
        (c.handlers.takeWhile fun h => decide (rest.length + 1 ≤ h.callDepth)).length := by
      rw [← hlen]
      exact (takeWhile_moved (rest.length + 1) hh).symm
    simp only [execInstr, LInstr.map, hmine, hf.opnds, hst]
    split
    · exact next_moved (c := { c with handlers := c.handlers.drop _ })
        (d := ⟨d.frames, d.handlers.drop _, c.store⟩) hf (hpos rfl) hrest (List.forall₂_drop _ hh) rfl _
    · exact .failed _ _
  | end_ => exact popFrame_moved hf hrest hh hst
  | poll _ | meter _ _ | tick _ => exact .stuck

end Exec

end Instr

end Relocation

end Wah
