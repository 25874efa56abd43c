/-
The value stack does not run into the call frames.

Values grow from the bottom of the stack buffer, frames from its top. A call checks once that the frame fits with the
locals and the deepest operand stack of the function (`max_frame_slots`), and no instruction checks again. That is enough
whatever happens later: calls and tail calls above, returns, exceptions that skip frames, and suspended bulk operations.

- `iMove_reserved`: every instruction, of any code, keeps the reservations of all frames.
- `Copies.opnds_le`: in lowered code the operands of every frame stay within its reservation.
- `stack_fits`: so they do in every run.
-/
import Wah.Successors
import Wah.Transparency

namespace Wah

open Observed

/-- the stack buffer of a context -/
structure StackBuffer where
  /-- where the frames start, from above: the end of the buffer, aligned -/
  top : Nat
  /-- the size of a `wah_call_frame_t` -/
  frameBytes : Nat

/-- values and frames do not overlap -/
def StackBuffer.Fits (B : StackBuffer) (values frames : Nat) : Prop := valueSize * values + B.frameBytes * frames ≤ B.top

instance (B : StackBuffer) (values frames : Nat) : Decidable (B.Fits values frames) := by
  unfold StackBuffer.Fits
  infer_instance

/-- `max_frame_slots` -/
def Func.maxFrameSlots (m : Bool) (F : Func) : Nat := F.nlocals + F.maxStackDepth m

section Reservations

variable {ι Val Store Exn π : Type} {P : ι → Func} {m : Bool} {B : StackBuffer}

/-- calls look for room for `max_frame_slots` above the arguments -/
def Sem.Preflights (S : Sem ι Val Store Exn P) (m : Bool) (B : StackBuffer) : Prop :=
  ∀ used depth g, S.callRoom used depth g = true → B.Fits (used + (P g).maxFrameSlots m) (depth + 1)

/-- every frame has room for its deepest operand stack -/
def Reserved (P : ι → Func) (m : Bool) (B : StackBuffer) (frames : List (Frame ι Val π)) : Prop :=
  ∀ fr rest, fr :: rest <:+ frames →
    B.Fits (slots rest + fr.locals.length + (P fr.fid).maxStackDepth m) (rest.length + 1)

theorem StackBuffer.Fits.mono {n n' k : Nat} (h : B.Fits n k) (hn : n' ≤ n) : B.Fits n' k := by
  have := Nat.mul_le_mul_left valueSize hn
  unfold StackBuffer.Fits at h ⊢
  omega

theorem slots_cons (fr : Frame ι Val π) (rest : List (Frame ι Val π)) :
    slots (fr :: rest) = fr.locals.length + fr.opnds.length + slots rest := by
  simp [slots]

section Reserved

variable {fr : Frame ι Val π} {rest : List (Frame ι Val π)}

theorem Reserved.suffix {frames frames' : List (Frame ι Val π)} (h : Reserved P m B frames) (hs : frames' <:+ frames) :
    Reserved P m B frames' :=
  fun fr rest hr => h fr rest (hr.trans hs)

/-- another frame on top -/
theorem Reserved.cons (h : Reserved P m B rest)
    (hfits : B.Fits (slots rest + fr.locals.length + (P fr.fid).maxStackDepth m) (rest.length + 1)) :
    Reserved P m B (fr :: rest) := by
  intro fr' rest' hs
  rcases List.suffix_cons_iff.mp hs with heq | hs
  · obtain ⟨rfl, rfl⟩ := List.cons.inj heq
    exact hfits
  · exact h fr' rest' hs

/-- the position and the operands of the innermost frame do not matter -/
theorem Reserved.top (h : Reserved P m B (fr :: rest)) {fr' : Frame ι Val π} (hfid : fr'.fid = fr.fid)
    (hlocals : fr'.locals.length = fr.locals.length) : Reserved P m B (fr' :: rest) := by
  refine (h.suffix (List.suffix_cons _ _)).cons ?_
  rw [hfid, hlocals]
  exact h fr rest List.suffix_rfl

/-- operands within the reservation of the innermost frame do not reach the frames -/
theorem Reserved.fits (h : Reserved P m B (fr :: rest)) (hopnds : fr.opnds.length ≤ (P fr.fid).maxStackDepth m) :
    B.Fits (slots (fr :: rest)) (fr :: rest).length := by
  refine (h fr rest List.suffix_rfl).mono ?_
  rw [slots_cons]
  omega

end Reserved

/-! ## One instruction -/

section Step

variable {τ : Type} {S : Sem ι Val Store Exn P} {N : Nav ι τ π} {c c' : Core ι Val Store τ π} {fr : Frame ι Val π}
  {rest : List (Frame ι Val π)} {i : LInstr τ}

theorem length_newLocals (S : Sem ι Val Store Exn P) (g : ι) (args : List Val) :
    (newLocals S g args).length = args.length + (P g).nlocals := by
  simp [newLocals]

/-- **One instruction** leaves every frame its reservation. -/
theorem Successor.reserved (hroom : S.Preflights m B) (hres : Reserved P m B (fr :: rest))
    (h : Successor S N c fr rest i c') : Reserved P m B c'.frames := by
  cases h with
  | stay hfid hlocals hpc hh => exact hres.top hfid hlocals
  | @call g args below hs st hi hargs hcall hh =>
    have hcaller : Reserved P m B ({ fr with opnds := below } :: rest) := hres.top rfl rfl
    refine hcaller.cons ((hroom _ _ _ hcall).mono ?_)
    simp only [slots_cons, length_newLocals, Func.maxFrameSlots]
    omega
  | @tailCall g args hs st hargs hcall hh =>
    refine (hres.suffix (List.suffix_cons _ _)).cons ((hroom _ _ _ hcall).mono ?_)
    simp only [length_newLocals, Func.maxFrameSlots]
    omega
  | return_ hrest hh =>
    subst hrest
    have hcaller := hres.suffix (List.suffix_cons _ _)
    exact hcaller.top rfl rfl
  | catch_ hg hmem hfid hlc hh => exact (hres.suffix hg).top rfl rfl

end Step

section Interp

variable {S : Sem ι Val Store Exn P} {K : Costs S} {code : ι → List (LInstr Nat)}

/-- the context that an instruction leaves, if any -/
def IRes.Keeps (p : List (Frame ι Val Nat) → Prop) : IRes ι Val Store → Prop
  | .run y | .suspended _ y => p y.core.frames
  | _ => True

theorem Res.Goes.keeps {fr : Frame ι Val Nat} {rest : List (Frame ι Val Nat)} {c : ICore ι Val Store} {i : LInstr Nat}
    {r : Res ι Val Store Nat Nat} (hroom : S.Preflights m B) (hres : Reserved P m B (fr :: rest))
    (h : r.Goes S iNav c fr rest i) (x : ICtx ι Val Store) (j : LInstr Nat) (charge : Nat) :
    (x.after m j charge r).Keeps (Reserved P m B) := by
  cases r with
  | run c' z => exact Successor.reserved hroom hres h
  | _ => trivial

variable {sig : Signal} {x : ICtx ι Val Store}

theorem bulkStep_keeps {fr : Frame ι Val Nat} {rest : List (Frame ι Val Nat)} (hx : x.core.frames = fr :: rest)
    (past : Frame ι Val Nat) (hpast : past.fid = fr.fid ∧ past.locals = fr.locals) (hres : Reserved P m B (fr :: rest)) (d : DataOp)
    (map : Option Nat) : (bulkStep K m sig x fr past rest d map).Keeps (Reserved P m B) := by
  obtain ⟨hfid, hlocals⟩ := hpast
  unfold bulkStep
  dsimp only
  split
  · simpa only [IRes.Keeps, ICtx.setPollIdx, hx] using hres
  · split
    · trivial
    · exact hres.top hfid (congrArg List.length hlocals)
    · exact hres.top rfl rfl

variable (K code sig) in
/-- every instruction of the interpreter, of any code -/
theorem iStep_keeps (hroom : S.Preflights m B) (hown : Owned (x.core.frames.map Frame.fid) x.core.handlers)
    (hres : Reserved P m B x.core.frames) : (iStep K m code sig x).Keeps (Reserved P m B) := by
  unfold iStep
  split
  · trivial
  · rename_i fr rest hx
    rw [hx] at hown hres
    split
    · trivial
    · rename_i j hj
      have hgoes : (execInstr S iNav x.core { fr with pc := fr.pc + j.size } rest j).Goes S iNav x.core
          { fr with pc := fr.pc + j.size } rest j := execInstr_goes (by simpa using hown)
      have hpast : Reserved P m B ({ fr with pc := fr.pc + j.size } :: rest) := hres.top rfl rfl
      dsimp only
      split
      · split <;> exact hpast
      · split
        · exact hres.top rfl rfl
        · exact hpast
      · split
        · simpa only [IRes.Keeps, ICtx.setPollIdx, hx] using hres
        · split
          · simpa only [IRes.Keeps, ICtx.setPollIdx, hx] using hres
          · exact hpast
      · split
        · refine bulkStep_keeps hx _ ⟨?_, ?_⟩ hres _ _ <;> rfl
        · exact hgoes.keeps hroom hpast x _ _
      · exact hgoes.keeps hroom hpast x _ _

/-- **One instruction**, and a resumption, leave every frame its reservation. -/
theorem iMove_reserved (hroom : S.Preflights m B) (hown : Owned (x.core.frames.map Frame.fid) x.core.handlers)
    (hres : Reserved P m B x.core.frames) {e : Option (Seen ι Val Store)} {y : ICtx ι Val Store}
    (hmove : iMove K m code sig x = .go e y) : Reserved P m B y.core.frames := by
  have hkeeps := iStep_keeps K code sig hroom hown hres
  rw [iMove] at hmove
  generalize iStep K m code sig x = r at hkeeps hmove
  cases r with
  | run y' =>
    simp only [IRes.move, Move.go.injEq] at hmove
    exact hmove.2 ▸ hkeeps
  | suspended why y' =>
    simp only [IRes.move, Move.go.injEq] at hmove
    exact hmove.2 ▸ hkeeps
  | _ => simp [IRes.move] at hmove

end Interp

/-! ## Operands of lowered code -/

section Operands

variable {S : Sem ι Val Store Exn P} {K : Costs S} {slow : ι → Nat → Nat}

theorem Top.opnds_le {depth : Nat} {sf : Frame ι Val SPos} {rf : Frame ι Val Nat} {hs : List (Handler ι Target)}
    (h : Top (P := P) m depth sf rf hs) : rf.opnds.length ≤ (P rf.fid).maxStackDepth m := by
  cases h with
  | @at_ extra own a h harr hx ht =>
    have hle := h.pos.height_le
    rw [h.height] at hle
    rw [h.opnds, h.fid]
    omega
  | atEnd hfid hopnds hlocals hcode hpc hlen hdepth hx =>
    rw [hopnds, hfid, hlen]
    exact hdepth

theorem Suspended.opnds_le {results : Nat} {srest : List (Frame ι Val SPos)} {rrest : List (Frame ι Val Nat)}
    {hs : List (Handler ι Target)} (h : Suspended (P := P) m results srest rrest hs) :
    ∀ rf ∈ rrest, rf.opnds.length ≤ (P rf.fid).maxStackDepth m := by
  induction h with
  | nil => simp
  | @cons results sf rf srest rrest hs hs' a h hpc hr ih =>
    refine List.forall_mem_cons.mpr ⟨?_, ih⟩
    have hle := h.pos.height_le
    rw [h.height] at hle
    rw [h.opnds, h.fid]
    omega

theorem Remains.length {f : ι} {main : Option (LInstr Target)} {vs opnds : List Val} {st st' : Store}
    {began : Option (List Val × Store)} (h : Remains S f main vs st opnds st' began) : opnds.length = vs.length := by
  cases h with
  | same => rfl
  | part hmain hbulk hlen hsome hdata => rw [List.length_append, hlen, ← List.length_append, List.take_append_drop]

theorem opnds_le_moved {π' : Type} {Q : ι → π → π' → Prop} {fs : List (Frame ι Val π)} {fs' : List (Frame ι Val π')}
    (h : List.Forall₂ (Frame.Moved Q) fs fs') (hle : ∀ fr ∈ fs, fr.opnds.length ≤ (P fr.fid).maxStackDepth m) :
    ∀ fr ∈ fs', fr.opnds.length ≤ (P fr.fid).maxStackDepth m := by
  induction h with
  | nil => simp
  | cons hab h ih =>
    obtain ⟨hfirst, hle⟩ := List.forall_mem_cons.mp hle
    refine List.forall_mem_cons.mpr ⟨?_, ih hle⟩
    rw [hab.opnds, hab.fid]
    exact hfirst

/-- operands stay within the recorded depths, also those of a suspended bulk operation -/
theorem Copies.opnds_le {n : Nat} {c : RCore ι Val Store} {x : ICtx ι Val Store} (h : Copies K m slow n c x) :
    ∀ fr ∈ x.core.frames, fr.opnds.length ≤ (P fr.fid).maxStackDepth m := by
  obtain ⟨hrel, -, -, hdata, -, hrest, -, -⟩ := h
  obtain ⟨st, htop, hr⟩ := hrel
  refine List.forall_mem_cons.mpr ⟨?_, opnds_le_moved hrest hr.opnds_le⟩
  rw [hdata.length]
  exact htop.opnds_le

end Operands

/-! ## Runs -/

section Runs

variable {S : Sem ι Val Store Exn P} {K : Costs S}

/-- **The value stack fits.** Whatever a run meets, operands stay within what the validator recorded for their function, every
frame keeps room for that, and values do not reach the call frames. -/
theorem stack_fits (hacc : ∀ f, (P f).Accepted m) (hroom : S.Preflights m B) {g : ι} {args : List Val}
    (hargs : args.length = (P g).nparams) (hstart : B.Fits ((P g).nparams + (P g).maxFrameSlots m) 1) (st : Store)
    (fuel : Int) (sigs : List Signal) {x : ICtx ι Val Store}
    (hrun : (run (iMove K m (codeOf P m)) sigs (iStart S g args st fuel)).2 = .ok x) :
    (∀ fr ∈ x.core.frames, fr.opnds.length ≤ (P fr.fid).maxStackDepth m) ∧ Reserved P m B x.core.frames ∧
      B.Fits (slots x.core.frames) x.core.frames.length := by
  obtain ⟨slow, n, hplaced, hcopy⟩ := copies_start (S := S) (K := K) hacc hargs st fuel
  have hinit : Reserved P m B (iStart S g args st fuel).core.frames := by
    have hnil : Reserved P m B ([] : List (Frame ι Val Nat)) := fun fr rest hs => by simp at hs
    refine hnil.cons (hstart.mono ?_)
    simp only [slots, List.map_nil, List.sum_nil, length_newLocals, hargs, Func.maxFrameSlots]
    omega
  have hkeeps : ∀ (x : ICtx ι Val Store) sig e y, ((∃ n c, Copies K m slow n c x) ∧ Reserved P m B x.core.frames) →
      iMove K m (codeOf P m) sig x = .go e y → (∃ n c, Copies K m slow n c y) ∧ Reserved P m B y.core.frames := by
    intro x sig e y h hmove
    obtain ⟨⟨n, c, hcopy⟩, hres⟩ := h
    exact ⟨hcopy.step hacc hplaced hmove, iMove_reserved hroom hcopy.owned hres hmove⟩
  obtain ⟨⟨n', c, hcopy'⟩, hres⟩ := run_keeps hkeeps ⟨⟨n, _, hcopy⟩, hinit⟩ hrun
  refine ⟨hcopy'.opnds_le, hres, ?_⟩
  have hopnds := hcopy'.opnds_le
  cases hf : x.core.frames with
  | nil =>
    obtain ⟨-⟩ := hcopy'
    simp at hf
  | cons fr rest =>
    rw [hf] at hopnds hres
    exact hres.fits (hopnds fr List.mem_cons_self)

end Runs

end Reservations

/-! ## A recursive program -/

/-- calls itself until there is no room left -/
def recurFunc : Func :=
  ⟨⟨{ typeDefs := [{ kind := .func, func := ⟨[.i32], [.i32]⟩ }], canonicalMap := [0], funcs := [0] },
      ⟨[.i32], [.i32]⟩, [.i64]⟩, [.localGet 0, .call (.direct 0), .end_]⟩

def recurProgram : Unit → Func := fun _ => recurFunc

/-- room for nine frames of the program -/
def smallBuffer : StackBuffer := ⟨1024, 80⟩

/-- calls of the only function, as long as there is room -/
def recurSem (m : Bool) (B : StackBuffer) (P : Unit → Func) : Sem Unit Nat (BulkStore plainEnv) Empty P :=
  { bulkSem P with
    callee := fun f k _ _ =>
      if (P ()).nparams = (k.sig (P f).module).2.params.length ∧ (P ()).nresults = (k.sig (P f).module).2.results.length
      then .wasm () else .trap
    callRoom := fun used depth g => decide (B.Fits (used + (P g).maxFrameSlots m) (depth + 1))
    callee_arity := fun f k args st g h => by
      split at h
      · cases h
        assumption
      · cases h
    callee_host := fun f k args st h hc => by split at hc <;> cases hc }

theorem recurSem_preflights (m : Bool) (B : StackBuffer) (P : Unit → Func) : (recurSem m B P).Preflights m B :=
  fun _ _ _ h => of_decide_eq_true h

def recurSem_does (m : Bool) (B : StackBuffer) (P : Unit → Func) :
    DoesBulk (recurSem m B P) ownInstances plainEnv where
  contents := (bulkSem_does P).contents
  update := (bulkSem_does P).update
  contents_update := (bulkSem_does P).contents_update
  update_update := (bulkSem_does P).update_update
  data := (bulkSem_does P).data

def recurCosts : Costs (recurSem true smallBuffer recurProgram) := (recurSem_does _ _ _).costs fun _ _ _ _ => 0

theorem recurProgram_accepted (f : Unit) : (recurProgram f).Accepted true := by
  cases f
  exact .of_isOk (by decide +kernel)

abbrev recurRun (n : Nat) :=
  run (iMove recurCosts true (codeOf recurProgram true)) ((List.range n).map amply)
    (iStart (recurSem true smallBuffer recurProgram) () [7] onePage 100)

theorem stack_fits_recur : ∃ x, (recurRun 20).2 = .ok x ∧
    (∀ fr ∈ x.core.frames, fr.opnds.length ≤ recurFunc.maxStackDepth true) ∧
      Reserved recurProgram true smallBuffer x.core.frames ∧
      smallBuffer.Fits (slots x.core.frames) x.core.frames.length := by
  have hok : (recurRun 20).2.toOption.isSome = true := by decide +kernel
  cases hrun : (recurRun 20).2 with
  | error o =>
    rw [hrun] at hok
    cases hok
  | ok x =>
    exact ⟨x, rfl, stack_fits recurProgram_accepted (recurSem_preflights true smallBuffer recurProgram) (by rfl)
      (by decide +kernel) onePage 100 _ hrun⟩

end Wah
