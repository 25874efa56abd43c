/-
The interpreter does what the records do, whatever the fuel and the interrupts.

`Copies` relates the record machine to the interpreter: the same frames, handlers and store, at places of the same
records. A bulk operation that was suspended is still to be done by the record machine; what is left of it comes to the
same. `bytes_simulate`: every instruction of the interpreter is a record, or shows nothing and brings the record
nearer, unless the context suspends without more fuel.
-/
import Wah.Interp
import Wah.Places

namespace Wah

open Observed

section InterpRuns

variable {ι Val Store Exn : Type} {P : ι → Func} {m : Bool}

/-- the lowered code of every function -/
abbrev codeOf (P : ι → Func) (m : Bool) (f : ι) : List (LInstr Nat) := (P f).lowered m

/-- control of a function is before a record -/
def Located (P : ι → Func) (m : Bool) (slow : ι → Nat → Nat) (f : ι) (r o : Nat) : Prop :=
  ∃ l n, Place ((P f).plan m) (codeOf P m f) (slow f) l n r o

/-- an offset a name leads to -/
def LeadsTo (P : ι → Func) (m : Bool) (slow : ι → Nat → Nat) (f : ι) (t : Target) (o : Nat) : Prop :=
  Located P m slow f (((P f).plan m).index t) o

/-- items left of the bulk operation of a record -/
def work {S : Sem ι Val Store Exn P} (K : Costs S) (f : ι) (main : Option (LInstr Target)) (opnds : List Val)
    (st : Store) : Nat :=
  match main with
  | some (.op (.data d) _) => K.left f d (opnds.take (d.arity (P f).module).1, st)
  | _ => 0

/-- a TICK does not pass without fuel -/
def dry (fuel : Int) : Nat := if fuel < 1 then 1 else 0

/-- the operands and the store of the interpreter at a record: those of the record machine, or what a suspended bulk
operation has left of them -/
inductive Remains (S : Sem ι Val Store Exn P) (f : ι) (main : Option (LInstr Target)) (opnds : List Val) (st : Store) :
    List Val → Store → Option (List Val × Store) → Prop where
  | same : Remains S f main opnds st opnds st none
  | part {d : DataOp} {map : Option Nat} {args : List Val} {st' : Store} (hmain : main = some (.op (.data d) map))
      (hbulk : d.isResumableBulk = true) (hlen : args.length = (opnds.take (d.arity (P f).module).1).length)
      (hsome : (S.data f d args st').isSome = true)
      (hdata : S.data f d args st' = S.data f d (opnds.take (d.arity (P f).module).1) st) :
      Remains S f main opnds st (args ++ opnds.drop (d.arity (P f).module).1) st' (some (opnds, st))

/-- the interpreter, in context `x`, is a copy of the record machine -/
inductive Copies {S : Sem ι Val Store Exn P} (K : Costs S) (m : Bool) (slow : ι → Nat → Nat) (n : Nat) :
    RCore ι Val Store → ICtx ι Val Store → Prop where
  | mk {sc : SCore ι Val Store} {fr : Frame ι Val Nat} {rest rest' : List (Frame ι Val Nat)}
      {hs : List (Handler ι Target)} {hs' : List (Handler ι Nat)} {st st' : Store} {pc lead paid : Nat} {opnds : List Val}
      {rec : Record} {fuel : Int} {pollIdx : List Nat} {began : Option (List Val × Store)}
      (hrel : Rel (P := P) m sc ⟨fr :: rest, hs, st⟩)
      (hplace : Place ((P fr.fid).plan m) (codeOf P m fr.fid) (slow fr.fid) lead paid fr.pc pc)
      (hrec : ((P fr.fid).plan m).records[fr.pc]? = some rec)
      (hdata : Remains S fr.fid rec.main fr.opnds st opnds st' began)
      (hmid : began ≠ none → fetch (codeOf P m fr.fid) pc =
        rec.main.map (LInstr.map (((P fr.fid).plan m).offset ((P fr.fid).plan m).recordOffset)))
      (hrest : List.Forall₂ (Frame.Moved (Located P m slow)) rest rest')
      (hh : List.Forall₂ (Handler.Moved (LeadsTo P m slow)) hs hs')
      (hn : n = 2 * (lead + work K fr.fid rec.main opnds st') + dry fuel) :
      Copies K m slow n ⟨fr :: rest, hs, st⟩ ⟨⟨⟨fr.fid, pc, fr.locals, opnds⟩ :: rest', hs', st'⟩, fuel, pollIdx, began⟩

/-- a resumption with fuel, and no interrupt -/
def Signal.Good (sig : Signal) : Prop := sig.interrupt = false ∧ ∃ n, sig.refill = some n ∧ 0 < n

section Whole

variable {S : Sem ι Val Store Exn P} {f : ι} {d : DataOp} {x : List Val × Store}

theorem Sem.whole_ok {r : List Val × Store} (h : S.whole f d x = .ok r) : S.data f d x.1 x.2 = some r := by
  rw [Sem.whole] at h
  split at h
  · cases h
  · cases h
    assumption

theorem Sem.whole_error {e : Unit} (h : S.whole f d x = .error e) : S.data f d x.1 x.2 = none := by
  rw [Sem.whole] at h
  split at h
  · assumption
  · cases h

end Whole

/-! ## Visits -/

theorem LInstr.visit_map {τ υ : Type} (f : τ → υ) (i : LInstr τ) : (i.map f).visit = i.visit := by
  cases i <;> rfl

section Visit

variable {fr : Frame ι Val Nat} {rest rest' : List (Frame ι Val Nat)} {hs : List (Handler ι Target)}
  {hs' : List (Handler ι Nat)} {st st' : Store} {pc : Nat} {opnds : List Val} {rec : Record} {fuel : Int}
  {pollIdx : List Nat} {began : Option (List Val × Store)} {S : Sem ι Val Store Exn P}

/-- the operation that began is the one of the record machine -/
theorem Remains.start (h : Remains S fr.fid rec.main fr.opnds st opnds st' began) :
    began.getD (opnds, st') = (fr.opnds, st) := by
  cases h <;> rfl

/-- both machines visit the instruction of the record -/
theorem iVisit_main {i : LInstr Target} {val : Target → Nat}
    (hrec : ((P fr.fid).plan m).records[fr.pc]? = some rec) (hi : rec.main = some i)
    (hf : fetch (codeOf P m fr.fid) pc = some (i.map val))
    (hdata : Remains S fr.fid rec.main fr.opnds st opnds st' began) :
    iVisit (codeOf P m) ⟨⟨⟨fr.fid, pc, fr.locals, opnds⟩ :: rest', hs', st'⟩, fuel, pollIdx, began⟩ =
      rVisit P m ⟨fr :: rest, hs, st⟩ := by
  simp only [iVisit, rVisit, hf, hrec, hi, Option.bind_some, LInstr.visit_map, Frame.seen, hdata.start]

/-- POLLs, METERs, TICKs and the jumps of islands show nothing -/
theorem iVisit_none {i : LInstr Nat} (hf : fetch (codeOf P m fr.fid) pc = some i) (hi : i.visit = none) :
    iVisit (codeOf P m) ⟨⟨⟨fr.fid, pc, fr.locals, opnds⟩ :: rest', hs', st'⟩, fuel, pollIdx, began⟩ = none := by
  simp only [iVisit, hf, Option.bind_some, hi, Option.map_none]

end Visit

/-! ## Places and positions -/

section Simulation

variable {S : Sem ι Val Store Exn P} {K : Costs S} {slow : ι → Nat → Nat}

theorem Place.record {p : Plan} {code : List (LInstr Nat)} {slow : Nat → Nat} {l n r o : Nat}
    (h : Place p code slow l n r o) : ∃ rec, p.records[r]? = some rec := by
  cases h with
  | fast hr | slow _ hr | exit hr => exact ⟨_, hr⟩

/-- names lead to places, and functions start at one -/
theorem located_relocates (hclosed : ∀ f, ((P f).plan m).Closed) :
    Nav.Relocates (rNav P m) (iNav (ι := ι)) (LeadsTo P m slow) (Located P m slow) where
  goto _ _ _ _ _ h := h
  entry f := by
    obtain ⟨rs, last, hrs, -⟩ := (hclosed f).last
    have hlt : 0 < ((P f).plan m).records.length := by simp [hrs]
    obtain ⟨l, n, hstart, -⟩ := Place.start (codeOf P m f) (slow f) (List.getElem?_eq_getElem hlt)
    rw [Plan.recordOffset_zero] at hstart
    exact ⟨l, n, hstart⟩

/-- two contexts that go on at corresponding places -/
theorem Copies.of_moved {sc : SCore ι Val Store} {c : RCore ι Val Store} {c' : ICore ι Val Store}
    (hrel : Rel (P := P) m sc c) (h : Core.Moved (LeadsTo P m slow) (Located P m slow) c c') (fuel : Int)
    (pollIdx : List Nat) : ∃ n, Copies K m slow n c ⟨c', fuel, pollIdx, none⟩ := by
  obtain ⟨frames, hs, st⟩ := c
  obtain ⟨frames', hs', st'⟩ := c'
  obtain ⟨hf, hh, hst⟩ := h
  simp only at hf hh hst
  cases frames with
  | nil => cases hrel
  | cons fr rest =>
    cases hf with
    | @cons _ fr' _ rest' hfr hrest =>
      obtain ⟨fid, pc, locals, opnds⟩ := fr'
      obtain ⟨hfid, hlocals, hopnds⟩ := hfr.toTwin
      obtain ⟨l, n, hplace⟩ := hfr.pos
      simp only at hfid hlocals hopnds hplace
      subst hfid hlocals hopnds hst
      obtain ⟨rec, hrec⟩ := hplace.record
      exact ⟨_, .mk hrel hplace hrec .same (fun h => absurd rfl h) hrest hh rfl⟩

/-- a refill changes only the fuel -/
theorem Copies.refuel {n : Nat} {c : RCore ι Val Store} {x : ICtx ι Val Store} (h : Copies K m slow n c x) (fuel : Int)
    (pollIdx : List Nat) :
    Copies K m slow (n - dry x.fuel + dry fuel) c { x with fuel := fuel, pollIdx := pollIdx } := by
  obtain ⟨hrel, hplace, hrec, hdata, hmid, hrest, hh, rfl⟩ := h
  exact .mk hrel hplace hrec hdata hmid hrest hh (by simp only; omega)

/-! ## Answers -/

/-- the record machine passes a record without an instruction -/
theorem rMove_none {fr : Frame ι Val Nat} {rest : List (Frame ι Val Nat)} {hs : List (Handler ι Target)} {st : Store}
    {rec : Record} (hrec : ((P fr.fid).plan m).records[fr.pc]? = some rec) (hi : rec.main = none) :
    rMove S m ⟨fr :: rest, hs, st⟩ = .go none ⟨{ fr with pc := fr.pc + 1 } :: rest, hs, st⟩ := by
  have hv : rVisit P m ⟨fr :: rest, hs, st⟩ = none := by simp only [rVisit, hrec, Option.bind_some, hi, Option.bind_none, Frame.seen, Option.map_none]
  rw [rMove, rStep_none st hrec hi, hv]
  rfl

/-- both machines execute the instruction of a record -/
theorem Res.Moved.answer {c : RCore ι Val Store} {x : ICtx ι Val Store} {sig : Signal} {i : LInstr Nat} {charge : Nat}
    {r' : Res ι Val Store Nat Nat} (h : Res.Moved (LeadsTo P m slow) (Located P m slow) (rStep S m c) r')
    (hset : Settled m P (rStep S m c)) (hx : iStep K m (codeOf P m) sig x = x.after m i charge r')
    (hv : iVisit (codeOf P m) x = rVisit P m c) (good : Prop) (n : Nat) :
    Answer (rMove S m) (fun _ _ => False) (Copies K m slow) good n c (iMove K m (codeOf P m) sig x) := by
  have hr : rMove S m c = (rStep S m c).move (rVisit P m c) := rfl
  rw [iMove, hx, hv]
  generalize rStep S m c = r at h hset hr
  cases h with
  | @run c1 c1' h zeroed =>
    cases hset with
    | run hrel _ =>
      obtain ⟨n', hcopy⟩ := Copies.of_moved hrel h (chargeFuel m x.fuel (charge + localsCharge zeroed))
        (pollIdxAfter i x.pollIdx c1'.frames.length)
      exact .go (steps_one hr) hcopy (by simp)
  | finished vs st => exact .stop (steps_one_stop hr)
  | failed e st => exact .stop (steps_one_stop hr)
  | stuck => cases hset

theorem take_rest {α : Type} {as bs : List α} {n : Nat} (h : as.length = (bs.take n).length) :
    (as ++ bs.drop n).take n = as ∧ (as ++ bs.drop n).drop n = bs.drop n := by
  rw [List.length_take] at h
  rcases Nat.le_total n bs.length with hle | hle
  · have hn : as.length = n := by omega
    exact ⟨List.take_left' hn, List.drop_left' hn⟩
  · have hdrop : bs.drop n = [] := List.drop_of_length_le hle
    rw [hdrop, List.append_nil]
    exact ⟨List.take_of_length_le (by omega), List.drop_of_length_le (by omega)⟩

/-- the operands `args` left of those of an operation, `whole`, come to the same -/
structure Leftover (S : Sem ι Val Store Exn P) (f : ι) (d : DataOp) (whole args : List Val) (st st' : Store) : Prop where
  length : args.length = whole.length
  data : S.data f d args st' = S.data f d whole st
  same : st' = st ∨ (S.data f d args st').isSome = true

theorem Remains.leftover {f : ι} {main : Option (LInstr Target)} {d : DataOp} {map : Option Nat} {vs opnds : List Val}
    {st st' : Store} {began : Option (List Val × Store)} (h : Remains S f main vs st opnds st' began)
    (hmain : main = some (.op (.data d) map)) :
    opnds.drop (d.arity (P f).module).1 = vs.drop (d.arity (P f).module).1 ∧
      Leftover S f d (vs.take (d.arity (P f).module).1) (opnds.take (d.arity (P f).module).1) st st' := by
  cases h with
  | same => exact ⟨rfl, rfl, rfl, .inl rfl⟩
  | part hmain' hbulk hlen hsome hdata =>
    rw [hmain', Option.some.injEq, LInstr.op.injEq, Instr.data.injEq] at hmain
    obtain ⟨rfl, -⟩ := hmain
    obtain ⟨htake, hdrop⟩ := take_rest hlen
    rw [htake, hdrop]
    exact ⟨rfl, hlen, hdata, .inr hsome⟩

section Step

variable {sc : SCore ι Val Store} {fr : Frame ι Val Nat} {rest rest' : List (Frame ι Val Nat)}
  {hs : List (Handler ι Target)} {hs' : List (Handler ι Nat)} {st st' : Store} {pc lead paid : Nat} {opnds : List Val}
  {rec : Record} {fuel : Int} {pollIdx : List Nat} {began : Option (List Val × Store)} {sig : Signal}

/-- a step of the interpreter towards the record -/
theorem answer_lead {x' : ICtx ι Val Store} {x : ICtx ι Val Store} {c : RCore ι Val Store} {n n' : Nat}
    {good : Prop} (hx : iMove K m (codeOf P m) sig x = .go none x') (h : Copies K m slow n' c x')
    (hlt : good → n' < n) : Answer (rMove S m) (fun _ _ => False) (Copies K m slow) good n c
      (iMove K m (codeOf P m) sig x) := by
  have hzero : steps (rMove S m) 0 c = ((none : Option (Seen ι Val Store)).toList, .ok c) := rfl
  rw [hx]
  exact .go hzero h fun hg _ => hlt hg

/-- a bulk operation: all of it, or some of it -/
theorem answer_bulk {d : DataOp} {map : Option Nat} {x : ICtx ι Val Store} (hacc : ∀ f, (P f).Accepted m)
    (hx : x = ⟨⟨⟨fr.fid, pc, fr.locals, opnds⟩ :: rest', hs', st'⟩, fuel, pollIdx, began⟩)
    (hrel : Rel (P := P) m sc ⟨fr :: rest, hs, st⟩)
    (hplace : Place ((P fr.fid).plan m) (codeOf P m fr.fid) (slow fr.fid) lead paid fr.pc pc)
    (hrec : ((P fr.fid).plan m).records[fr.pc]? = some rec) (hmain : rec.main = some (.op (.data d) map))
    (hbulk : d.isResumableBulk = true) (hf : fetch (codeOf P m fr.fid) pc = some (.op (.data d) map))
    (hnext : Located P m slow fr.fid (fr.pc + 1) (pc + (LInstr.op (.data d) map : LInstr Nat).size))
    (hdata : Remains S fr.fid rec.main fr.opnds st opnds st' began)
    (hrest : List.Forall₂ (Frame.Moved (Located P m slow)) rest rest')
    (hh : List.Forall₂ (Handler.Moved (LeadsTo P m slow)) hs hs') :
    Answer (rMove S m) (fun _ _ => False) (Copies K m slow) sig.Good
      (2 * (lead + work K fr.fid rec.main opnds st') + dry fuel) ⟨fr :: rest, hs, st⟩
      (iMove K m (codeOf P m) sig x) := by
  have hmid : fetch (codeOf P m fr.fid) pc =
      rec.main.map (LInstr.map (((P fr.fid).plan m).offset ((P fr.fid).plan m).recordOffset)) := by
    rw [hf, hmain]
    rfl
  have hcopy : Copies K m slow (2 * (lead + work K fr.fid rec.main opnds st') + dry fuel) ⟨fr :: rest, hs, st⟩ x :=
    hx ▸ .mk hrel hplace hrec hdata (fun _ => hmid) hrest hh rfl
  have hvisit : iVisit (codeOf P m) x = rVisit P m ⟨fr :: rest, hs, st⟩ :=
    hx ▸ iVisit_main hrec hmain (hmid.trans (by rw [hmain]; rfl)) hdata
  have hset := hrel.settled (S := S) hacc
  have hr : rMove S m ⟨fr :: rest, hs, st⟩ = (rStep S m ⟨fr :: rest, hs, st⟩).move (rVisit P m ⟨fr :: rest, hs, st⟩) := rfl
  rw [rStep_main st hrec hmain] at hset hr
  simp only [execInstr, execOp] at hset hr
  obtain ⟨hdrop, hlen, hsame, hwhole⟩ := hdata.leftover hmain
  have hstart := hdata.start
  have hstep : iMove K m (codeOf P m) sig x =
      (bulkStep K m sig x ⟨fr.fid, pc, fr.locals, opnds⟩
        ⟨fr.fid, pc + (LInstr.op (.data d) map : LInstr Nat).size, fr.locals, opnds⟩ rest' d map).move sig.refill
        (rVisit P m ⟨fr :: rest, hs, st⟩) := by
    rw [iMove, hvisit]
    simp only [hx, iStep, hf, hbulk, if_true]
  unfold bulkStep at hstep
  cases hint : sig.interrupt with
  | true =>
    rw [hint, if_pos rfl] at hstep
    exact answer_lead hstep (hcopy.refuel _ _) fun hg => by simp [hg.1] at hint
  | false =>
    rw [hint, if_neg Bool.false_ne_true] at hstep
    simp only [hx] at hstep
    cases hb : K.bulk fr.fid d ⟨if m then some fuel else none, sig.later⟩
      (opnds.take (d.arity (P fr.fid).module).1, st') with
    | fail e y =>
      obtain ⟨hfail, rfl⟩ := (K.bulk_lawful fr.fid d).fail _ _ _ _ hb
      have hnone := S.whole_error hfail
      rw [← hsame, hnone] at hr
      obtain rfl : st' = st := by
        rcases hwhole with h | h
        · exact h
        · simp [hnone] at h
      rw [hx, hstep, hb]
      exact .stop (steps_one_stop hr)
    | done r charge =>
      obtain ⟨vs, st2⟩ := r
      have hdone := S.whole_ok ((K.bulk_lawful fr.fid d).done _ _ _ _ hb)
      rw [← hsame, hdone] at hr hset
      rw [hx, hstep, hb]
      simp only [hdrop]
      cases hset with
      | run hrel' _ =>
        have hmoved : Core.Moved (LeadsTo P m slow) (Located P m slow)
            ⟨{ fr with pc := fr.pc + 1, opnds := vs ++ fr.opnds.drop (d.arity (P fr.fid).module).1 } :: rest, hs, st2⟩
            ⟨⟨fr.fid, pc + (LInstr.op (.data d) map : LInstr Nat).size, fr.locals,
              vs ++ fr.opnds.drop (d.arity (P fr.fid).module).1⟩ :: rest', hs', st2⟩ :=
          ⟨.cons ⟨⟨rfl, rfl, rfl⟩, hnext⟩ hrest, hh, rfl⟩
        obtain ⟨n', hcopy'⟩ := Copies.of_moved (K := K) hrel' hmoved (chargeFuel m fuel charge) pollIdx
        exact .go (steps_one hr) hcopy' (by simp)
    | part y charge =>
      obtain ⟨args, st2⟩ := y
      obtain ⟨r, hfirst, hthen⟩ := (K.bulk_lawful fr.fid d).part _ _ _ _ hb
      replace hfirst := S.whole_ok hfirst
      replace hthen := S.whole_ok hthen
      have hargs : args.length = (opnds.take (d.arity (P fr.fid).module).1).length := K.bulk_arity _ _ _ _ _ _ hb
      have hleft := K.bulk_left _ _ _ _ _ _ hb
      have hlen2 : args.length = (fr.opnds.take (d.arity (P fr.fid).module).1).length := hargs.trans hlen
      have hremains : Remains S fr.fid rec.main fr.opnds st (args ++ fr.opnds.drop (d.arity (P fr.fid).module).1) st2
          (some (fr.opnds, st)) :=
        .part hmain hbulk hlen2 (by simp [hthen]) (by rw [hthen, ← hfirst, hsame])
      simp only [hb, hdrop, hstart] at hstep
      rw [← hx] at hstep
      refine answer_lead hstep (.mk hrel hplace hrec hremains (fun _ => hmid) hrest hh rfl) ?_
      rintro ⟨-, k, hk, hpos⟩
      -- there is less to do, or there was no fuel before
      have hnow : work K fr.fid rec.main opnds st' = K.left fr.fid d (opnds.take (d.arity (P fr.fid).module).1, st') := by
        rw [hmain, work]
      have hthen' : work K fr.fid rec.main (args ++ fr.opnds.drop (d.arity (P fr.fid).module).1) st2 =
          K.left fr.fid d (args, st2) := by
        rw [hmain, work, (take_rest hlen2).1]
      have hdry : dry (Int.ofNat k) = 0 := by
        unfold dry
        rw [if_neg]
        simp only [Int.ofNat_eq_natCast]
        omega
      rw [hnow, hthen', hk]
      simp only [Option.map_some, Option.getD_some, hdry]
      by_cases hneg : m = true ∧ fuel < 0
      · have hwas : dry fuel = 1 := by
          unfold dry
          rw [if_pos (by omega)]
        omega
      · have hlt := hleft.2 (by
          intro y hy
          cases m with
          | false => simp at hy
          | true =>
            simp only [if_true, Option.mem_def, Option.some.injEq] at hy
            simp only [true_and] at hneg
            omega)
        omega

/-- no bulk operation is suspended before anything else -/
theorem Remains.fresh {f : ι} {main : Option (LInstr Target)} {vs : List Val} {val : Target → Nat} {i : LInstr Nat}
    (h : Remains S f main vs st opnds st' began) (hf : fetch (codeOf P m f) pc = some i)
    (hmid : began ≠ none → fetch (codeOf P m f) pc = main.map (LInstr.map val))
    (hi : ∀ d map, d.isResumableBulk = true → i ≠ .op (.data d) map) : opnds = vs ∧ st' = st ∧ began = none := by
  cases h with
  | same => exact ⟨rfl, rfl, rfl⟩
  | @part d map _ _ hmain hbulk _ _ _ =>
    have hop := hmid (by simp)
    rw [hf, hmain, Option.map_some, Option.some.injEq] at hop
    exact absurd hop (hi d map hbulk)

/-- an instruction other than a bulk operation is that of every machine -/
theorem iStep_main {fr : Frame ι Val Nat} {rest : List (Frame ι Val Nat)} {code : ι → List (LInstr Nat)}
    {x : ICtx ι Val Store} {i : LInstr Target} {val : Target → Nat} (hx : x.core.frames = fr :: rest)
    (hf : fetch (code fr.fid) fr.pc = some (i.map val)) (hi : i.IsMain)
    (hb : ∀ d map, i = .op (.data d) map → d.isResumableBulk = false) :
    ∃ charge, iStep K m code sig x = x.after m (i.map val) charge
      (execInstr S iNav x.core { fr with pc := fr.pc + i.size } rest (i.map val)) := by
  rw [← LInstr.size_map val i]
  cases i with
  | poll | meter | tick => exact absurd hi id
  | op i map =>
    cases i with
    | data d =>
      have hd := hb d map rfl
      refine ⟨K.charge fr.fid d (fr.opnds.take (d.arity (P fr.fid).module).1) x.core.store, ?_⟩
      simp only [iStep, hx, hf, LInstr.map, hd, Bool.false_eq_true, if_false]
    | _ => exact ⟨0, by simp only [iStep, hx, hf, LInstr.map]⟩
  | _ => exact ⟨0, by simp only [iStep, hx, hf, LInstr.map]⟩

theorem dry_le (fuel : Int) : dry fuel ≤ 1 := by
  unfold dry
  split <;> omega

end Step

/-- **The interpreter simulates the records.** -/
theorem bytes_simulate (hacc : ∀ f, (P f).Accepted m)
    (hplaced : ∀ f, Placed ((P f).plan m) (codeOf P m f) (slow f)) :
    Simulates (rMove S m) (iMove K m (codeOf P m)) (fun _ _ => False) Signal.Good (Copies K m slow) := by
  have hclosed : ∀ f, ((P f).plan m).Closed := fun f => (hacc f).closed
  intro n c x sig h
  obtain @⟨sc, fr, rest, rest', hs, hs', st, st', pc, lead, paid, opnds, rec, fuel, pollIdx, began, hrel, hplace, hrec, hdata,
    hmid, hrest, hh, hn⟩ := h
  -- records without bytes are passed first
  induction hk : ((P fr.fid).plan m).size - fr.pc using Nat.strong_induction_on
    generalizing sc fr lead paid n rec with
  | _ k ih =>
  have hlt : fr.pc < ((P fr.fid).plan m).size := (List.getElem?_eq_some_iff.mp hrec).1
  have hone := dry_le
  cases hplace.stands (hplaced fr.fid) (hclosed fr.fid) with
  | @poll map l hf hl hnext =>
    obtain ⟨rfl, rfl, rfl⟩ := hdata.fresh hf hmid (by simp)
    have hmove : ∃ fuel', iMove K m (codeOf P m) sig
        ⟨⟨⟨fr.fid, pc, fr.locals, fr.opnds⟩ :: rest', hs', st'⟩, fuel, pollIdx, none⟩ =
        .go none ⟨⟨⟨fr.fid, pc + 6, fr.locals, fr.opnds⟩ :: rest', hs', st'⟩, fuel', map :: pollIdx.tail, none⟩ := by
      rw [iMove, iVisit_none hf rfl]
      simp only [iStep, hf, LInstr.size]
      split
      · exact ⟨_, rfl⟩
      · exact ⟨_, rfl⟩
    obtain ⟨fuel', hmove⟩ := hmove
    refine answer_lead hmove (.mk hrel hnext hrec .same (by simp) hrest hh rfl) fun _ => ?_
    have := hone fuel'
    omega
  | @meter cost l k' hf he hl hk' hnext l' hl' hslow =>
    obtain ⟨rfl, rfl, rfl⟩ := hdata.fresh hf hmid (by simp)
    by_cases hpoor : fuel - cost < 0
    · have hmove : iMove K m (codeOf P m) sig
          ⟨⟨⟨fr.fid, pc, fr.locals, fr.opnds⟩ :: rest', hs', st'⟩, fuel, pollIdx, none⟩ =
          .go none ⟨⟨⟨fr.fid, slow fr.fid fr.pc, fr.locals, fr.opnds⟩ :: rest', hs', st'⟩, fuel, pollIdx, none⟩ := by
        rw [iMove, iVisit_none hf rfl]
        simp only [iStep, hf, hpoor, if_true]
        rfl
      refine answer_lead hmove (.mk hrel hslow hrec .same (by simp) hrest hh rfl) fun _ => ?_
      omega
    · have hmove : iMove K m (codeOf P m) sig
          ⟨⟨⟨fr.fid, pc, fr.locals, fr.opnds⟩ :: rest', hs', st'⟩, fuel, pollIdx, none⟩ =
          .go none ⟨⟨⟨fr.fid, pc + 8, fr.locals, fr.opnds⟩ :: rest', hs', st'⟩, fuel - cost, pollIdx, none⟩ := by
        rw [iMove, iVisit_none hf rfl]
        simp only [iStep, hf, hpoor, if_false, LInstr.size]
        rfl
      refine answer_lead hmove (.mk hrel hnext hrec .same (by simp) hrest hh rfl) fun _ => ?_
      have := hone (fuel - cost)
      omega
  | @tick map l k' hf hl hk' hnext =>
    obtain ⟨rfl, rfl, rfl⟩ := hdata.fresh hf hmid (by simp)
    by_cases hpoor : fuel - 1 < 0
    · have hmove : iMove K m (codeOf P m) sig
          ⟨⟨⟨fr.fid, pc, fr.locals, fr.opnds⟩ :: rest', hs', st'⟩, fuel, pollIdx, none⟩ =
          .go none ⟨⟨⟨fr.fid, pc, fr.locals, fr.opnds⟩ :: rest', hs', st'⟩,
            (sig.refill.map Int.ofNat).getD (fuel - 1), map :: pollIdx.tail, none⟩ := by
        rw [iMove, iVisit_none hf rfl]
        simp only [iStep, hf, hpoor, if_true]
        rfl
      refine answer_lead hmove (.mk hrel hplace hrec .same (by simp) hrest hh rfl) fun hg => ?_
      obtain ⟨-, k, hk, hpos⟩ := hg
      have hwas : dry fuel = 1 := if_pos (by omega)
      have hnow : dry ((sig.refill.map Int.ofNat).getD (fuel - 1)) = 0 := by
        rw [hk]
        exact if_neg (by simp only [Option.map_some, Option.getD_some, Int.ofNat_eq_natCast]; omega)
      omega
    · cases hint : sig.interrupt with
      | true =>
        have hmove : iMove K m (codeOf P m) sig
            ⟨⟨⟨fr.fid, pc, fr.locals, fr.opnds⟩ :: rest', hs', st'⟩, fuel, pollIdx, none⟩ =
            .go none ⟨⟨⟨fr.fid, pc, fr.locals, fr.opnds⟩ :: rest', hs', st'⟩,
              (sig.refill.map Int.ofNat).getD fuel, map :: pollIdx.tail, none⟩ := by
          rw [iMove, iVisit_none hf rfl]
          simp only [iStep, hf, hpoor, if_false, hint, if_true]
          rfl
        refine answer_lead hmove (.mk hrel hplace hrec .same (by simp) hrest hh rfl) fun hg => ?_
        simp [hg.1] at hint
      | false =>
        have hmove : iMove K m (codeOf P m) sig
            ⟨⟨⟨fr.fid, pc, fr.locals, fr.opnds⟩ :: rest', hs', st'⟩, fuel, pollIdx, none⟩ =
            .go none ⟨⟨⟨fr.fid, pc + 6, fr.locals, fr.opnds⟩ :: rest', hs', st'⟩, fuel - 1, pollIdx, none⟩ := by
          rw [iMove, iVisit_none hf rfl]
          simp only [iStep, hf, hpoor, if_false, hint, Bool.false_eq_true, LInstr.size]
          rfl
        refine answer_lead hmove (.mk hrel hnext hrec .same (by simp) hrest hh rfl) fun _ => ?_
        have := hone (fuel - 1)
        omega
  | @exit l hf hl hnext =>
    obtain ⟨rfl, rfl, rfl⟩ := hdata.fresh hf hmid (by simp)
    have hmove : ∃ fuel' pollIdx', iMove K m (codeOf P m) sig
        ⟨⟨⟨fr.fid, pc, fr.locals, fr.opnds⟩ :: rest', hs', st'⟩, fuel, pollIdx, none⟩ =
        .go none ⟨⟨⟨fr.fid, ((P fr.fid).plan m).recordOffset fr.pc, fr.locals, fr.opnds⟩ :: rest', hs', st'⟩,
          fuel', pollIdx', none⟩ := by
      rw [iMove, iVisit_none hf rfl]
      simp only [iStep, hf, execInstr, Core.jump, ICtx.after, IRes.move, iNav]
      exact ⟨_, _, rfl⟩
    obtain ⟨fuel', pollIdx', hmove⟩ := hmove
    refine answer_lead hmove (.mk hrel hnext hrec .same (by simp) hrest hh rfl) fun _ => ?_
    have := hone fuel'
    omega
  | @main rec' i hrec' hi hf hvisits hnext =>
    rw [hrec, Option.some.injEq] at hrec'
    subst hrec'
    replace hnext : i.noFallthrough = false → Located P m slow fr.fid (fr.pc + 1) (pc + i.size) := by
      intro hi
      obtain ⟨l, n, h, -⟩ := hnext hi
      exact ⟨l, n, h⟩
    by_cases hbulk : ∃ d map, i = .op (.data d) map ∧ d.isResumableBulk = true
    · obtain ⟨d, map, rfl, hbulk⟩ := hbulk
      rw [hn]
      exact answer_bulk hacc rfl hrel hplace hrec hi hbulk hf (hnext rfl) hdata hrest hh
    · have hplain : ∀ d map, d.isResumableBulk = true →
          i.map (((P fr.fid).plan m).offset ((P fr.fid).plan m).recordOffset) ≠ .op (.data d) map := by
        intro d map hd heq
        refine hbulk ⟨d, map, ?_, hd⟩
        cases i <;> simp_all [LInstr.map]
      obtain ⟨rfl, rfl, rfl⟩ := hdata.fresh hf hmid hplain
      have hmain := (hclosed fr.fid).mains rec (List.mem_of_getElem? hrec) i hi
      have hplain' : ∀ d map, i = .op (.data d) map → d.isResumableBulk = false := by
        intro d map hd
        by_contra hne
        exact hbulk ⟨d, map, hd, by simpa using hne⟩
      set x : ICtx ι Val Store := ⟨⟨⟨fr.fid, pc, fr.locals, fr.opnds⟩ :: rest', hs', st'⟩, fuel, pollIdx, none⟩ with hx
      have hvisit : iVisit (codeOf P m) x = rVisit P m ⟨fr :: rest, hs, st'⟩ := iVisit_main hrec hi hf hdata
      have hframes : x.core.frames = ⟨fr.fid, pc, fr.locals, fr.opnds⟩ :: rest' := rfl
      obtain ⟨charge, hstep⟩ := iStep_main (K := K) (m := m) hframes hf hmain hplain'
      have hmoved : Res.Moved (LeadsTo P m slow) (Located P m slow) (rStep S m ⟨fr :: rest, hs, st'⟩)
          (execInstr S iNav ⟨⟨fr.fid, pc, fr.locals, fr.opnds⟩ :: rest', hs', st'⟩
            ⟨fr.fid, pc + i.size, fr.locals, fr.opnds⟩ rest'
            (i.map (((P fr.fid).plan m).offset ((P fr.fid).plan m).recordOffset))) := by
        rw [rStep_main st' hrec hi]
        have htwin : Frame.Twin { fr with pc := fr.pc + 1 } ⟨fr.fid, pc + i.size, fr.locals, fr.opnds⟩ := ⟨rfl, rfl, rfl⟩
        refine execInstr_moved (located_relocates hclosed) htwin hrest hh rfl hrel.owned (fun t ht => ?_) hnext
        obtain ⟨l, n, h, -⟩ := Place.of_target (codeOf P m fr.fid) (slow fr.fid) (hclosed fr.fid)
          (List.mem_of_getElem? hrec) hi ht
        exact ⟨l, n, h⟩
      exact hmoved.answer (hrel.settled hacc) hstep hvisit _ n
  | @none rec' hrec' hi hnext =>
    rw [hrec, Option.some.injEq] at hrec'
    subst hrec'
    obtain ⟨rfl, rfl, rfl⟩ : opnds = fr.opnds ∧ st' = st ∧ began = none := by
      cases hdata with
      | same => exact ⟨rfl, rfl, rfl⟩
      | part hmain => simp [hi] at hmain
    obtain ⟨l, n', hplace', -⟩ := hnext
    obtain ⟨rec', hrec'⟩ := hplace'.record
    have hset := hrel.settled (S := S) hacc
    rw [rStep_none st' hrec hi] at hset
    cases hset with
    | @run sc' _ hrel' _ =>
      have hlater := ih (((P fr.fid).plan m).size - (fr.pc + 1)) (by omega) _ hrel' hplace' hrec' .same (by simp) rfl rfl
      exact hlater.after (steps_one (rMove_none hrec hi)) fun h => absurd h Nat.one_ne_zero

/-- the interpreter stays a copy of the records -/
theorem Copies.step (hacc : ∀ f, (P f).Accepted m)
    (hplaced : ∀ f, Placed ((P f).plan m) (codeOf P m f) (slow f)) {n : Nat} {c : RCore ι Val Store}
    {x y : ICtx ι Val Store} (h : Copies K m slow n c x) {sig : Signal} {e : Option (Seen ι Val Store)}
    (hmove : iMove K m (codeOf P m) sig x = .go e y) : ∃ n' c', Copies K m slow n' c' y := by
  have hanswer := bytes_simulate hacc hplaced n c x sig h
  rw [hmove] at hanswer
  cases hanswer with
  | go _ hr _ => exact ⟨_, _, hr⟩

/-- handlers of the interpreter are found in its frames as those of the records are -/
theorem Owned.moved {τ τ' : Type} {T : ι → τ → τ' → Prop} {fids : List ι} {hs : List (Handler ι τ)}
    {hs' : List (Handler ι τ')} (h : Owned fids hs) (hm : List.Forall₂ (Handler.Moved T) hs hs') : Owned fids hs' := by
  induction hm generalizing fids with
  | nil => trivial
  | cons hab _ ih =>
    unfold Owned at h ⊢
    rw [hab.callDepth, hab.fid]
    exact ⟨h.1, ih h.2⟩

theorem fids_moved {π π' : Type} {Q : ι → π → π' → Prop} {fs : List (Frame ι Val π)} {fs' : List (Frame ι Val π')}
    (h : List.Forall₂ (Frame.Moved Q) fs fs') : fs'.map Frame.fid = fs.map Frame.fid := by
  induction h with
  | nil => rfl
  | cons hab _ ih => rw [List.map_cons, List.map_cons, hab.fid, ih]

theorem Copies.owned {n : Nat} {c : RCore ι Val Store} {x : ICtx ι Val Store} (h : Copies K m slow n c x) :
    Owned (x.core.frames.map Frame.fid) x.core.handlers := by
  obtain ⟨hrel, -, -, -, -, hrest, hh, -⟩ := h
  have hown := hrel.owned.moved hh
  simpa only [List.map_cons, fids_moved hrest] using hown

end Simulation

end InterpRuns

end Wah
