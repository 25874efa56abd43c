/-
Runs of the structured machine and of the records, side by side.

A run shows the instructions it visits, each with the function, the locals, the operands and the store it finds
(`Seen`), and ends with an `Ending`. `records_simulate`: whatever the record machine shows, the structured machine
shows too, and the other way round, unless the record machine has no room for an exception handler.

- `Rel.settled`: the record machine never gets stuck, and stays related.
- `Rel.owned`: handlers are found in the frames of the functions that installed them.
-/
import Wah.Refine
import Wah.Relocation
import Wah.Observed

namespace Wah

open Observed

/-- how a run ends -/
inductive Ending (Val Store : Type) where
  | finished (vals : List Val) (store : Store)
  | failed (e : Fault) (store : Store)
  | stuck

/-- there was no room on the stack -/
def Ending.Overflows {Val Store : Type} : Ending Val Store → Prop
  | .failed .stackOverflow _ => True
  | _ => False

section RecordRuns

variable {ι Val Store Exn τ π : Type} {P : ι → Func} {m : Bool}

/-- the outcome of an instruction, as a step that shows what it visited -/
def Res.move (shown : Option (Seen ι Val Store)) :
    Res ι Val Store τ π → Move (Core ι Val Store τ π) (Seen ι Val Store) (Ending Val Store)
  | .run c _ => .go shown c
  | .finished vs st => .stop shown (.finished vs st)
  | .failed e st => .stop shown (.failed e st)
  | .stuck => .stop shown .stuck

/-- a step of the structured machine -/
def sMove (S : Sem ι Val Store Exn P) (c : SCore ι Val Store) :
    Move (SCore ι Val Store) (Seen ι Val Store) (Ending Val Store) :=
  (sStep S (fun f => (P f).code) c).move (sVisit c)

/-- a step of the record machine -/
def rMove (S : Sem ι Val Store Exn P) (m : Bool) (c : RCore ι Val Store) :
    Move (RCore ι Val Store) (Seen ι Val Store) (Ending Val Store) :=
  (rStep S m c).move (rVisit P m c)

/-- a call of a function from outside -/
def sStart (S : Sem ι Val Store Exn P) (g : ι) (args : List Val) (st : Store) : SCore ι Val Store :=
  ⟨[⟨g, ⟨(P g).code, []⟩, newLocals S g args, []⟩], [], st⟩

def rStart (S : Sem ι Val Store Exn P) (g : ι) (args : List Val) (st : Store) : RCore ι Val Store :=
  ⟨[⟨g, 0, newLocals S g args, []⟩], [], st⟩

variable {S : Sem ι Val Store Exn P} {c : SCore ι Val Store} {c' : RCore ι Val Store}

theorem rel_start {g : ι} {args : List Val} (hacc : (P g).Accepted m) (hargs : args.length = (P g).nparams) (st : Store) :
    Rel (P := P) m (sStart S g args st) (rStart S g args st) := by
  have h := FrameAt.enter (S := S) hacc 1 hargs
  exact .mk st (.of_frame h (.inl rfl)) (.nil _)

/-- the records fail where the structured machine has just entered a `try_table` there is no room for -/
def GivesUp (S : Sem ι Val Store Exn P) (c1 : SCore ι Val Store) (o : Ending Val Store) : Prop :=
  ∃ c, NoRoom S c c1 ∧ o = .failed .stackOverflow c1.store

/-! ## Answers -/

/-- the relation with its rank: a TRIM_HANDLERS may be pending unless the rank is zero -/
def Ranked (S : Sem ι Val Store Exn P) (m : Bool) (n : Nat) (c : SCore ι Val Store) (c' : RCore ι Val Store) : Prop :=
  Rel (P := P) m c c' ∧ (n = 0 → Follows S m c c')

theorem Agree.answer {v : Option (Seen ι Val Store)} {r : Res ι Val Store Empty SPos} {r' : Res ι Val Store Target Nat}
    (h : Agree (P := P) m r r') (hs : sMove S c = r.move v) (n : Nat) :
    Answer (sMove S) (GivesUp S) (Ranked S m) True n c (r'.move v) := by
  cases h with
  | @run c1 c1' hrel z =>
    have hrank : Ranked S m 1 c1 c1' := ⟨hrel, fun h0 => absurd h0 Nat.one_ne_zero⟩
    exact .go (steps_one hs) hrank (by simp)
  | finished vs st => exact .stop (steps_one_stop hs)
  | failed e st => exact .stop (steps_one_stop hs)

theorem Matches.answer (h : Matches S m c c') (n : Nat) :
    Answer (sMove S) (GivesUp S) (Ranked S m) True n c (rMove S m c') := by
  rw [rMove, h.visit]
  exact h.agree.answer rfl n

/-- the record machine fails where the structured machine enters the `try_table` -/
theorem Full.answer (h : Full S m c c') (n : Nat) :
    Answer (sMove S) (GivesUp S) (Ranked S m) True n c (rMove S m c') := by
  obtain ⟨c1, hno, hstore⟩ := h.noRoom
  have hmv : sMove S c = .go (sVisit c) c1 := by rw [sMove, hno.enters]; rfl
  have hr : rMove S m c' = .stop (sVisit c) (.failed .stackOverflow c1.store) := by
    rw [rMove, h.fails, h.visit, hstore]
    rfl
  rw [hr]
  exact .abort (steps_one hmv) ⟨c, hno, rfl⟩

/-- dropping the handlers a branch has left -/
theorem rMove_trim {c'' : RCore ι Val Store} (hr : rStep S m c' = .run c'' 0) (hv : rVisit P m c' = none) :
    rMove S m c' = .go none c'' := by
  rw [rMove, hr, hv]
  rfl

theorem Follows.answer (hacc : ∀ f, (P f).Accepted m) (h : Follows S m c c') (n : Nat) :
    Answer (sMove S) (GivesUp S) (Ranked S m) True n c (rMove S m c') := by
  -- instructions without a record are passed first, and each leaves less code
  induction hn : stutter c using Nat.strong_induction_on generalizing c with
  | _ k ih =>
    cases h with
    | record h => exact h.answer n
    | full h => exact h.answer n
    | @pass c1 hs hv hlt hrel =>
      have hmv : sMove S c = .go none c1 := by rw [sMove, hs, hv]; rfl
      have hone := steps_one hmv
      rcases hrel.follows (S := S) hacc with hf | ⟨c'', hr, hv', hrel', hf⟩
      · exact (ih (stutter c1) (hn ▸ hlt) hf rfl).after hone fun h => absurd h Nat.one_ne_zero
      · rw [rMove_trim hr hv']
        exact .go hone (⟨hrel', fun _ => hf⟩ : Ranked S m 0 c1 c'') (by simp)

/-- **Records simulate the structured body.** -/
theorem records_simulate (hacc : ∀ f, (P f).Accepted m) :
    Simulates (sMove S) (fun _ : Unit => rMove S m) (GivesUp S) (fun _ => True) (Ranked S m) := by
  rintro n c c' - ⟨hrel, hn⟩
  rcases hrel.follows (S := S) hacc with hf | ⟨c'', hr, hv, hrel', hf⟩
  · exact hf.answer hacc n
  · rcases Nat.eq_zero_or_pos n with h0 | hpos
    · exact (hn h0).answer hacc n
    · dsimp only
      have hzero : steps (sMove S) 0 c = ((none : Option (Seen ι Val Store)).toList, .ok c) := rfl
      have hrank : Ranked S m 0 c c'' := ⟨hrel', fun _ => hf⟩
      rw [rMove_trim hr hv]
      exact .go hzero hrank fun _ _ => hpos

/-! ## The record machine on its own -/

/-- outcomes of the record machine from a related state -/
inductive Settled (m : Bool) (P : ι → Func) : Res ι Val Store Target Nat → Prop where
  | run {c : SCore ι Val Store} {c' : RCore ι Val Store} (h : Rel (P := P) m c c') (zeroed : Nat) :
      Settled m P (.run c' zeroed)
  | finished (vs : List Val) (st : Store) : Settled m P (.finished vs st)
  | failed (e : Fault) (st : Store) : Settled m P (.failed e st)

theorem Follows.settled (hacc : ∀ f, (P f).Accepted m) (h : Follows S m c c') : Settled m P (rStep S m c') := by
  induction hn : stutter c using Nat.strong_induction_on generalizing c with
  | _ k ih =>
    cases h with
    | record h =>
      have ha := h.agree
      generalize sStep S (fun f => (P f).code) c = r at ha
      generalize rStep S m c' = r' at ha ⊢
      cases ha with
      | run hrel z => exact .run hrel z
      | finished vs st => exact .finished vs st
      | failed e st => exact .failed e st
    | full h => exact h.fails ▸ .failed _ _
    | @pass c1 hs hv hlt hrel =>
      rcases hrel.follows (S := S) hacc with hf | ⟨c'', hr, -, hrel', -⟩
      · exact ih (stutter c1) (hn ▸ hlt) hf rfl
      · exact hr ▸ .run hrel' 0

/-- the record machine never gets stuck, and stays related -/
theorem Rel.settled (hacc : ∀ f, (P f).Accepted m) (h : Rel (P := P) m c c') : Settled m P (rStep S m c') := by
  rcases h.follows (S := S) hacc with hf | ⟨c'', hr, -, hrel', -⟩
  · exact hf.settled hacc
  · exact hr ▸ .run hrel' 0

theorem Rel.not_stuck (hacc : ∀ f, (P f).Accepted m) (h : Rel (P := P) m c c') (k : Nat) :
    (steps (rMove S m) k c').2 ≠ .error .stuck := by
  induction k generalizing c c' with
  | zero => simp [steps]
  | succ k ih =>
    have hset := h.settled (S := S) hacc
    rw [steps, rMove]
    generalize rStep S m c' = r at hset ⊢
    cases hset with
    | run hrel z => exact ih hrel
    | finished vs st | failed e st => simp [Res.move]

/-! ## Handlers and their frames -/

theorem Owned.cons {fids : List ι} {hs : List (Handler ι τ)} (h : Owned fids hs)
    (hd : ∀ h ∈ hs, h.callDepth ≤ fids.length) (f : ι) : Owned (f :: fids) hs := by
  cases hs with
  | nil => trivial
  | cons h0 hs =>
    have hle := hd h0 List.mem_cons_self
    have hdrop : (f :: fids).drop ((f :: fids).length - h0.callDepth) = fids.drop (fids.length - h0.callDepth) := by
      rw [List.length_cons, Nat.succ_sub hle, List.drop_succ_cons]
    unfold Owned
    rw [hdrop]
    exact h

/-- handlers of the frame in front -/
theorem Owned.append {f : ι} {fids : List ι} {hs hs' : List (Handler ι τ)}
    (hmine : ∀ h ∈ hs, h.callDepth = fids.length + 1 ∧ h.fid = f) (h : Owned (f :: fids) hs') :
    Owned (f :: fids) (hs ++ hs') := by
  induction hs with
  | nil => exact h
  | cons h0 hs ih =>
    obtain ⟨hdepth, hfid⟩ := hmine h0 List.mem_cons_self
    have hdrop : (f :: fids).drop ((f :: fids).length - h0.callDepth) = f :: fids := by
      rw [hdepth, List.length_cons, Nat.sub_self, List.drop_zero]
    rw [List.cons_append]
    unfold Owned
    rw [hdrop]
    exact ⟨by rw [hfid, List.head?_cons], ih fun h hm => hmine h (List.mem_cons_of_mem _ hm)⟩

theorem Suspended.owned {results : Nat} {srest : List (Frame ι Val SPos)} {rrest : List (Frame ι Val Nat)}
    {hs : List (Handler ι Target)} (h : Suspended (P := P) m results srest rrest hs) :
    Owned (rrest.map Frame.fid) hs := by
  induction h with
  | nil => trivial
  | @cons results sf rf srest rrest hs hs' a h hpc hr ih =>
    have hlen := hr.length
    rw [List.map_cons]
    refine Owned.append (fun hd hm => ?_) (ih.cons (fun hd hm => ?_) rf.fid)
    · rw [List.length_map, hlen, h.fid]
      exact h.handlers.mine hd hm
    · rw [List.length_map, hlen]
      exact hr.callDepth hd hm

theorem Top.mine {depth : Nat} {sf : Frame ι Val SPos} {rf : Frame ι Val Nat} {hs : List (Handler ι Target)}
    (h : Top (P := P) m depth sf rf hs) : rf.fid = sf.fid ∧ ∀ hd ∈ hs, hd.callDepth = depth ∧ hd.fid = sf.fid := by
  cases h with
  | @at_ extra own a h harr hx ht =>
    refine ⟨h.fid, fun hd hm => ?_⟩
    rcases List.mem_append.mp hm with hm | hm
    · exact hx hd hm
    · exact h.handlers.mine hd hm
  | atEnd hfid _ _ _ _ _ _ hx => exact ⟨hfid, hx⟩

/-- handlers are found in the frames of the functions that installed them -/
theorem Rel.owned (h : Rel (P := P) m c c') : Owned (c'.frames.map Frame.fid) c'.handlers := by
  obtain @⟨sf, rf, srest, rrest, hs, hs', st, htop, hr⟩ := h
  have hlen := hr.length
  obtain ⟨hfid, hmine⟩ := htop.mine
  simp only [List.map_cons]
  refine Owned.append (fun hd hm => ?_) (hr.owned.cons (fun hd hm => ?_) rf.fid)
  · rw [List.length_map, hlen, hfid]
    exact hmine hd hm
  · rw [List.length_map, hlen]
    exact hr.callDepth hd hm

end RecordRuns

end Wah
