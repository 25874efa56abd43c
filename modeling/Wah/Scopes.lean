/-
The handlers of a run are the `try_table`s around its position.

`wah_throw_exception` looks at the handler stack from the top. Branches out of `try_table`s leave their handlers there,
until a TRIM_HANDLERS at the target, a return or a tail call drops them. `handlers_match_scopes`: at every point of a
run, below such leftovers the handlers are those of the `try_table`s that enclose the current instruction, then those
around the call of each frame outwards, each with the kinds and tags of its clauses; and while there are leftovers, the
TRIM_HANDLERS that drops them, or the function's END, comes next.
-/
import Wah.Transparency

namespace Wah

open Observed

/-- an enclosing `try_table`: the call depth and the function of its frame, and the kinds and tags of its clauses, but not
where these lead -/
structure Scope (ι : Type) where
  callDepth : Nat
  fid : ι
  clauses : List (CatchKind × Nat)

section Scopes

variable {ι Val Store Exn : Type} {P : ι → Func} {m : Bool}

/-- what a handler catches, and for which frame -/
def Handler.scope {τ : Type} (h : Handler ι τ) : Scope ι := ⟨h.callDepth, h.fid, h.catches.map fun c => (c.kind, c.tag)⟩

/-- the `try_table`s around a position, innermost first -/
def SPos.scopes (pos : SPos) (depth : Nat) (f : ι) : List (Scope ι) :=
  pos.labels.filterMap fun lab => lab.handler.map fun cs => ⟨depth, f, cs.map fun c => (c.kind, c.tag)⟩

/-- the `try_table`s around the positions of all frames -/
def scopes : List (Frame ι Val SPos) → List (Scope ι)
  | [] => []
  | fr :: rest => fr.pc.scopes (rest.length + 1) fr.fid ++ scopes rest

/-- what drops the handlers that branches have left: a TRIM_HANDLERS down to `own` of them, or the function's END -/
def Drops (own : Nat) (rec : Record) : Prop := rec.main = some (.trimHandlers own) ∨ rec.main = some .end_

/-! ## Handlers of frames -/

section Frames

variable {f : ι} {depth : Nat} {labels : List SLabel} {hs : List (Handler ι Target)}

theorem clauses_eq {F : Func} {spBase : Nat} {cs : List CatchClause} {lcs : List (LCatch Target)}
    (h : List.Forall₂ (ClauseOk m F spBase labels) cs lcs) :
    lcs.map (fun c => (c.kind, c.tag)) = cs.map fun c => (c.kind, c.tag) := by
  induction h with
  | nil => rfl
  | cons hc _ ih => rw [List.map_cons, List.map_cons, hc.kind, hc.tag, ih]

theorem Handlers.scopes (h : Handlers P m f depth labels hs) (code : Code) :
    hs.map Handler.scope = SPos.scopes ⟨code, labels⟩ depth f := by
  unfold SPos.scopes
  induction h with
  | nil => rfl
  | plain hl _ ih => rw [ih, List.filterMap_cons, hl, Option.map_none]
  | installed hl hdepth hfid hc _ ih =>
    rw [List.map_cons, ih, List.filterMap_cons, hl, Option.map_some, Handler.scope, hdepth, hfid, clauses_eq hc]

/-- a frame has as many handlers of its own as there are `try_table`s around its position -/
theorem FrameAt.scopes_length {results : Nat} {sf : Frame ι Val SPos} {rf : Frame ι Val Nat} {a : AState}
    (h : FrameAt (P := P) m depth results sf rf hs a) : (sf.pc.scopes depth sf.fid).length = tryCount a.v.ctrl := by
  rw [← h.handlers.scopes sf.pc.code, List.length_map, h.handlers.length, h.pos.tries]

theorem Suspended.scopes {results : Nat} {srest : List (Frame ι Val SPos)} {rrest : List (Frame ι Val Nat)}
    (h : Suspended (P := P) m results srest rrest hs) : hs.map Handler.scope = Wah.scopes srest := by
  induction h with
  | nil => rfl
  | @cons results sf rf srest rrest hs hs' a h hpc hr ih =>
    rw [List.map_append, ih, h.handlers.scopes sf.pc.code]
    rfl

theorem Suspended.fids {results : Nat} {srest : List (Frame ι Val SPos)} {rrest : List (Frame ι Val Nat)}
    (h : Suspended (P := P) m results srest rrest hs) : rrest.map Frame.fid = srest.map Frame.fid := by
  induction h with
  | nil => rfl
  | cons h _ _ ih => rw [List.map_cons, List.map_cons, h.fid, ih]

theorem Rel.fids {c : SCore ι Val Store} {c' : RCore ι Val Store} (h : Rel (P := P) m c c') :
    c'.frames.map Frame.fid = c.frames.map Frame.fid := by
  obtain ⟨st, htop, hr⟩ := h
  rw [List.map_cons, List.map_cons, htop.mine.1, hr.fids]

/-- the handlers of the records: leftovers, then those of the scopes -/
theorem Rel.scopes (hacc : ∀ f, (P f).Accepted m) {c : SCore ι Val Store} {c' : RCore ι Val Store}
    (h : Rel (P := P) m c c') :
    ∃ sf fr stale, (∃ rest, c.frames = sf :: rest) ∧ (∃ rest, c'.frames = fr :: rest) ∧
      c'.handlers.map Handler.scope = stale ++ Wah.scopes c.frames ∧
      (∀ s ∈ stale, s.callDepth = c.frames.length ∧ s.fid = sf.fid) ∧
      (stale ≠ [] → ∃ rec, ((P sf.fid).plan m).records[fr.pc]? = some rec ∧
        Drops (sf.pc.scopes c.frames.length sf.fid).length rec) := by
  obtain @⟨sf, fr, srest, rrest, hs, hs', st, htop, hr⟩ := h
  cases htop with
  | @at_ extra own a h harr hx ht =>
    refine ⟨sf, fr, extra.map Handler.scope, ⟨srest, rfl⟩, ⟨rrest, rfl⟩, ?_, ?_, fun hne => ?_⟩
    · simp only [List.map_append, h.handlers.scopes sf.pc.code, hr.scopes, List.append_assoc, Wah.scopes]
    · intro s hs
      obtain ⟨hd, hm, rfl⟩ := List.mem_map.mp hs
      exact hx hd hm
    · obtain ⟨rec, hrec, hmain⟩ := ht.resolve_left fun h0 => hne (by rw [h0, List.map_nil])
      exact ⟨rec, hrec, .inl (by rw [hmain, List.length_cons, h.scopes_length])⟩
  | atEnd hfid hopnds hlocals hcode hpc hlen hdepth hx =>
    have hnone : sf.pc.scopes (srest.length + 1) sf.fid = [] := by rw [hcode]; rfl
    refine ⟨sf, fr, hs.map Handler.scope, ⟨srest, rfl⟩, ⟨rrest, rfl⟩, ?_, ?_, fun _ => ?_⟩
    · simp only [List.map_append, hr.scopes, Wah.scopes, hnone, List.nil_append]
    · intro s hs
      obtain ⟨hd, hm, rfl⟩ := List.mem_map.mp hs
      exact hx hd hm
    · obtain ⟨rs, last, hrs, -, hlast⟩ := (hacc sf.fid).closed.last
      have hpc' : fr.pc = rs.length := by
        rw [Plan.size, hrs, List.length_append, List.length_singleton] at hpc
        omega
      refine ⟨last, ?_, .inr hlast⟩
      rw [hrs, hpc']
      exact List.getElem?_concat_length

end Frames

/-! ## Runs -/

section Runs

variable {S : Sem ι Val Store Exn P} {K : Costs S}

theorem scope_moved {τ τ' : Type} {T : ι → τ → τ' → Prop} {hs : List (Handler ι τ)} {hs' : List (Handler ι τ')}
    (h : List.Forall₂ (Handler.Moved T) hs hs') : hs'.map Handler.scope = hs.map Handler.scope := by
  have hclauses : ∀ {f : ι} {cs : List (LCatch τ)} {cs' : List (LCatch τ')}, List.Forall₂ (LCatch.Moved (T f)) cs cs' →
      cs'.map (fun c => (c.kind, c.tag)) = cs.map fun c => (c.kind, c.tag) := by
    intro f cs cs' hc
    induction hc with
    | nil => rfl
    | cons hc _ ih => rw [List.map_cons, List.map_cons, hc.kind, hc.tag, ih]
  induction h with
  | nil => rfl
  | cons hab _ ih =>
    rw [List.map_cons, List.map_cons, ih, Handler.scope, Handler.scope, hab.callDepth, hab.fid, hclauses hab.catches]

/-- **Handlers are scopes.** At every point of a run, the handlers are those of the `try_table`s that enclose the position of
the structured body, frame by frame, below what branches have left of the current frame; and as long as something is left,
what drops it comes next. -/
theorem handlers_match_scopes (hacc : ∀ f, (P f).Accepted m) {g : ι} {args : List Val}
    (hargs : args.length = (P g).nparams) (st : Store) (fuel : Int) (sigs : List Signal) {x : ICtx ι Val Store}
    (hrun : (run (iMove K m (codeOf P m)) sigs (iStart S g args st fuel)).2 = .ok x) :
    ∃ (slow : ι → Nat → Nat) (k : Nat) (c : SCore ι Val Store) (stale : List (Scope ι)),
      (∀ f, Placed ((P f).plan m) (codeOf P m f) (slow f)) ∧
      (steps (sMove S) k (sStart S g args st)).1 = (run (iMove K m (codeOf P m)) sigs (iStart S g args st fuel)).1 ∧
      (steps (sMove S) k (sStart S g args st)).2 = .ok c ∧
      x.core.frames.map Frame.fid = c.frames.map Frame.fid ∧
      x.core.handlers.map Handler.scope = stale ++ scopes c.frames ∧
      (∀ s ∈ stale, s.callDepth = c.frames.length) ∧
      (stale ≠ [] → ∃ sf fr r rec, c.frames.head? = some sf ∧ x.core.frames.head? = some fr ∧
        Located P m slow sf.fid r fr.pc ∧ ((P sf.fid).plan m).records[r]? = some rec ∧
        Drops (sf.pc.scopes c.frames.length sf.fid).length rec) := by
  obtain ⟨slow, n, hplaced, hcopy⟩ := copies_start (S := S) (K := K) hacc hargs st fuel
  have hrank : Ranked S m 1 (sStart S g args st) (rStart S g args st) :=
    ⟨rel_start (hacc g) hargs st, fun h => absurd h Nat.one_ne_zero⟩
  obtain ⟨k, hshown, hends⟩ := (records_simulate hacc).sound_through (bytes_simulate hacc hplaced) hrank hcopy sigs
  rw [hrun] at hends
  cases hc : (steps (sMove S) k (sStart S g args st)).2 with
  | error o =>
    rw [hc] at hends
    cases hends
  | ok c =>
    rw [hc] at hends
    obtain ⟨t, -, l, ⟨hrel, -⟩, hcopy'⟩ : Through (Ranked S m) (Copies K m slow) 0 c x := by
      cases hends with
      | running h => exact h
    obtain ⟨-, hplace, -, -, -, hrest, hh, -⟩ := hcopy'
    have hfids := hrel.fids
    obtain ⟨sf, fr, stale, ⟨srest, hf⟩, ⟨rrest, hf'⟩, hscopes, hstale, hdrops⟩ := hrel.scopes hacc
    obtain ⟨hfr, -⟩ := List.cons.inj hf'
    refine ⟨slow, k, c, stale, hplaced, hshown, hc, ?_, ?_, fun s hs => (hstale s hs).1, fun hne => ?_⟩
    · rw [← hfids, List.map_cons, List.map_cons, fids_moved hrest]
    · rw [← hscopes, scope_moved hh]
    · obtain ⟨rec, hrec, hdrop⟩ := hdrops hne
      rw [hf, List.map_cons, List.map_cons, List.cons.injEq] at hfids
      have hloc : Located P m slow fr.fid fr.pc _ := ⟨_, _, hfr ▸ hplace⟩
      refine ⟨sf, _, fr.pc, rec, by rw [hf, List.head?_cons], List.head?_cons, ?_, hrec, hdrop⟩
      rw [← hfids.1, hfr]
      exact hloc

end Runs

end Scopes

/-- breaks out of the inner of two `try_table`s -/
def breakFunc : Func :=
  ⟨⟨{ typeDefs := [{ kind := .func, func := ⟨[.i32], [.i32]⟩ }], canonicalMap := [0], funcs := [0] },
      ⟨[.i32], [.i32]⟩, [.i64]⟩,
    [.block .empty, .tryTable .empty [⟨.catchAll, 0, 0⟩], .block .empty, .tryTable .empty [⟨.catchAll, 0, 0⟩], .br 1,
      .end_, .end_, .end_, .end_, .localGet 0, .end_]⟩

def breakProgram : Unit → Func := fun _ => breakFunc

def breakCosts : Costs (bulkSem breakProgram) := (bulkSem_does _).costs fun _ _ _ _ => 0

theorem breakProgram_accepted (f : Unit) : (breakProgram f).Accepted true := by
  cases f
  exact .of_isOk (by decide +kernel)

abbrev breakRun (n : Nat) :=
  run (iMove breakCosts true (codeOf breakProgram true)) ((List.range n).map amply)
    (iStart (bulkSem breakProgram) () [7] onePage 100)

abbrev breakSteps (k : Nat) := steps (sMove (bulkSem breakProgram)) k (sStart (bulkSem breakProgram) () [7] onePage)

theorem handlers_match_scopes_break : ∃ x, (breakRun 6).2 = .ok x ∧
    ∃ (slow : Unit → Nat → Nat) (k : Nat) (c : SCore Unit Nat (BulkStore plainEnv)) (stale : List (Scope Unit)),
      (∀ f, Placed ((breakProgram f).plan true) (codeOf breakProgram true f) (slow f)) ∧
      (breakSteps k).1 = (breakRun 6).1 ∧ (breakSteps k).2 = .ok c ∧
      x.core.frames.map Frame.fid = c.frames.map Frame.fid ∧
      x.core.handlers.map Handler.scope = stale ++ scopes c.frames ∧
      (∀ s ∈ stale, s.callDepth = c.frames.length) ∧
      (stale ≠ [] → ∃ sf fr r rec, c.frames.head? = some sf ∧ x.core.frames.head? = some fr ∧
        Located breakProgram true slow sf.fid r fr.pc ∧ ((breakProgram sf.fid).plan true).records[r]? = some rec ∧
        Drops (sf.pc.scopes c.frames.length sf.fid).length rec) := by
  have hok : (breakRun 6).2.toOption.isSome = true := by decide +kernel
  cases hrun : (breakRun 6).2 with
  | error o =>
    rw [hrun] at hok
    cases hok
  | ok x => exact ⟨x, rfl, handlers_match_scopes breakProgram_accepted (by rfl) onePage 100 _ hrun⟩

end Wah
