/-
What one instruction does to the frames, whatever the code.

An instruction of the innermost frame stays in it, calls a function, replaces the frame by that of a function, returns
to the caller, or is caught in an outer frame (`Successor`). It keeps handlers or installs one of its own targets.
Claims about all frames of an activation need these five cases only (`execInstr_goes`).
-/
import Wah.Relocation

namespace Wah

section Successors

variable {ι Val Store Exn τ π : Type} {P : ι → Func} (S : Sem ι Val Store Exn P) (N : Nav ι τ π)
  (c : Core ι Val Store τ π) (fr : Frame ι Val π) (rest : List (Frame ι Val π)) (i : LInstr τ)

/-- handlers of before, and one that the instruction installs -/
def Inherits (hs : List (Handler ι τ)) : Prop :=
  ∀ h ∈ hs, h ∈ c.handlers ∨ (h.fid = fr.fid ∧ ∀ lc ∈ h.catches, lc.target ∈ i.targets)

/-- where the instruction goes on -/
inductive Successor : Core ι Val Store τ π → Prop where
  | stay {fr' : Frame ι Val π} {hs : List (Handler ι τ)} {st : Store} (hfid : fr'.fid = fr.fid)
      (hlocals : fr'.locals.length = fr.locals.length)
      (hpc : (fr'.pc = fr.pc ∧ i.noFallthrough = false) ∨ ∃ t ∈ i.targets, fr'.pc = N.goto fr.fid t fr.pc)
      (hh : Inherits c fr i hs) : Successor ⟨fr' :: rest, hs, st⟩
  | call {g : ι} {args below : List Val} {hs : List (Handler ι τ)} {st : Store} (hi : i.noFallthrough = false)
      (hargs : args.length ≤ (P g).nparams)
      (hroom : S.callRoom (slots rest + fr.locals.length + (args.length + below.length)) (rest.length + 1) g = true)
      (hh : Inherits c fr i hs) :
      Successor ⟨⟨g, N.entry g, newLocals S g args, []⟩ :: { fr with opnds := below } :: rest, hs, st⟩
  | tailCall {g : ι} {args : List Val} {hs : List (Handler ι τ)} {st : Store} (hargs : args.length ≤ (P g).nparams)
      (hroom : S.callRoom (slots rest + (P g).nparams) rest.length g = true) (hh : Inherits c fr i hs) :
      Successor ⟨⟨g, N.entry g, newLocals S g args, []⟩ :: rest, hs, st⟩
  | return_ {caller : Frame ι Val π} {rest' : List (Frame ι Val π)} {vs : List Val} {hs : List (Handler ι τ)} {st : Store}
      (hrest : rest = caller :: rest') (hh : Inherits c fr i hs) :
      Successor ⟨{ caller with opnds := vs } :: rest', hs, st⟩
  | catch_ {g : Frame ι Val π} {gs : List (Frame ι Val π)} {h : Handler ι τ} {lc : LCatch τ} {vs : List Val}
      {hs : List (Handler ι τ)} {st : Store} (hg : g :: gs <:+ fr :: rest) (hmem : h ∈ c.handlers) (hfid : g.fid = h.fid)
      (hlc : lc ∈ h.catches) (hh : Inherits c fr i hs) :
      Successor ⟨{ g with pc := N.goto h.fid lc.target g.pc, opnds := vs } :: gs, hs, st⟩

/-- an outcome that goes on at a successor, if at all -/
def Res.Goes : Res ι Val Store τ π → Prop
  | .run c' _ => Successor S N c fr rest i c'
  | _ => True

variable {S N c fr rest i}

theorem Inherits.same : Inherits c fr i c.handlers := fun _ h => .inl h

theorem Inherits.sublist {hs : List (Handler ι τ)} (h : List.Sublist hs c.handlers) : Inherits c fr i hs :=
  fun _ hm => .inl (h.subset hm)

theorem next_goes (hi : i.noFallthrough = false) {locals vs : List Val} {hs : List (Handler ι τ)} {st : Store}
    (hlocals : locals.length = fr.locals.length) (hh : Inherits c fr i hs) :
    (({ c with handlers := hs, store := st } : Core ι Val Store τ π).next { fr with locals := locals } rest vs).Goes
      S N c fr rest i :=
  .stay rfl hlocals (.inl ⟨rfl, hi⟩) hh

theorem jump_goes {t : τ} (ht : t ∈ i.targets) (vs : List Val) : (c.jump N fr rest t vs).Goes S N c fr rest i :=
  .stay rfl rfl (.inr ⟨t, ht, rfl⟩) .same

theorem popFrame_goes {hs : List (Handler ι τ)} (st : Store) (vs : List Val) (hh : List.Sublist hs c.handlers) :
    (popFrame (P := P) { c with handlers := hs, store := st } { fr with opnds := vs } rest).Goes S N c fr rest i := by
  cases rest with
  | nil => trivial
  | cons caller rest => exact .return_ rfl (.sublist ((List.dropWhile_sublist _).trans hh))

theorem execCall_goes (hi : i.noFallthrough = false) (kind : CallKind) :
    (execCall S N c fr rest kind).Goes S N c fr rest i := by
  unfold execCall
  dsimp only
  split
  · trivial
  · split
    · split
      · trivial
      · exact next_goes hi rfl .same
    · trivial
  · rename_i g hg
    split
    · rename_i hroom
      refine .call hi ?_ ?_ .same
      · rw [(S.callee_arity _ _ _ _ _ hg).1, List.length_take]
        exact Nat.min_le_left _ _
      · rw [← List.length_append, List.take_append_drop]
        exact hroom
    · trivial

theorem execReturnCall_goes (kind : CallKind) : (execReturnCall S N c fr rest kind).Goes S N c fr rest i := by
  have hdrop : List.Sublist (dropFrameHandlers (rest.length + 1) c.handlers) c.handlers := List.dropWhile_sublist _
  unfold execReturnCall
  dsimp only
  split
  · trivial
  · split
    · split
      · trivial
      · exact popFrame_goes _ _ hdrop
    · trivial
  · rename_i g hg
    split
    · rename_i hroom
      refine .tailCall ?_ hroom (.sublist hdrop)
      rw [(S.callee_arity _ _ _ _ _ hg).1, List.length_take]
      exact Nat.min_le_left _ _
    · trivial

/-- an exception is caught in a frame of a handler -/
theorem unwind_goes (x : Exn) (st : Store) {fs : List (Frame ι Val π)} {hs : List (Handler ι τ)}
    (hfs : ∀ g gs, g :: gs <:+ fs → ∃ vs, { g with opnds := vs } :: gs <:+ fr :: rest) (hh : List.Sublist hs c.handlers)
    (hown : Owned (fs.map Frame.fid) hs) : (unwind S N x st fs hs).Goes S N c fr rest i := by
  induction hs generalizing fs with
  | nil => trivial
  | cons h hs ih =>
    obtain ⟨hhead, hrest⟩ := hown
    rw [List.length_map, ← List.map_drop] at hhead hrest
    have hsuffix : fs.drop (fs.length - h.callDepth) <:+ fs := List.drop_suffix _ _
    have hh' : List.Sublist hs c.handlers := (List.sublist_cons_self _ _).trans hh
    simp only [unwind]
    generalize fs.drop (fs.length - h.callDepth) = gs at hhead hrest hsuffix ⊢
    cases hfind : h.catches.find? (clauseMatches S x h.fid) with
    | none => exact ih (fun g gs hg => hfs g gs (hg.trans hsuffix)) hh' hrest
    | some lc =>
      cases gs with
      | nil => trivial
      | cons g gs =>
        simp only [List.map_cons, List.head?_cons, Option.some.injEq] at hhead
        obtain ⟨vs, hg⟩ := hfs g gs hsuffix
        exact .catch_ (g := { g with opnds := vs }) hg (hh.subset List.mem_cons_self) hhead (List.mem_of_find?_eq_some hfind) (.sublist hh')

section Exec

variable (hown : Owned (fr.fid :: rest.map Frame.fid) c.handlers)
include hown

theorem throw_goes (x : Exn) (st : Store) (vs : List Val) :
    (unwind S N x st ({ fr with opnds := vs } :: rest) c.handlers).Goes S N c fr rest i := by
  refine unwind_goes x st (fun g gs hg => ?_) (List.Sublist.refl _) (by simpa using hown)
  rcases List.suffix_cons_iff.mp hg with heq | hsuffix
  · obtain ⟨rfl, rfl⟩ := List.cons.inj heq
    exact ⟨fr.opnds, List.suffix_rfl⟩
  · exact ⟨g.opnds, hsuffix.trans (List.suffix_cons _ _)⟩

theorem execOp_goes (j : Instr) (map : Option Nat) :
    (execOp S N c fr rest j).Goes S N c fr rest (.op j map) := by
  cases j with
  | data op =>
    simp only [execOp]
    split
    · trivial
    · exact next_goes rfl rfl .same
  | localGet j =>
    simp only [execOp]
    split
    · exact next_goes rfl rfl .same
    · trivial
  | localSet j | localTee j =>
    simp only [execOp]
    split
    · exact next_goes rfl List.length_set .same
    · trivial
  | return_ => exact popFrame_goes c.store fr.opnds (List.Sublist.refl _)
  | call kind => exact execCall_goes rfl kind
  | returnCall kind => exact execReturnCall_goes kind
  | throw t =>
    simp only [execOp]
    split
    · trivial
    · exact throw_goes hown _ _ _
  | throwRef =>
    simp only [execOp]
    split
    · trivial
    · split
      · trivial
      · exact throw_goes hown _ _ _
  | _ => trivial

/-- **Where an instruction goes on.** -/
theorem execInstr_goes : (execInstr S N c fr rest i).Goes S N c fr rest i := by
  cases i with
  | op j map => exact execOp_goes hown j map
  | else_ t | br t keep drop => exact jump_goes (by simp [LInstr.targets]) _
  | if_ t | brOnNull t keep drop | brOnCast fail dn dst t keep drop =>
    simp only [execInstr]
    split
    · trivial
    · split
      · exact jump_goes (by simp [LInstr.targets]) _
      · exact next_goes rfl rfl .same
  | brIf t keep drop | brOnNonNull t keep drop =>
    simp only [execInstr]
    split
    · trivial
    · split
      · exact next_goes rfl rfl .same
      · exact jump_goes (by simp [LInstr.targets]) _
  | brTable keep targets records =>
    simp only [execInstr]
    split
    · trivial
    · split
      · trivial
      · rename_i t drop hb
        have hm : (t, drop) ∈ records := by
          unfold brTableRecordAt at hb
          obtain ⟨j, -, hj⟩ := Option.bind_eq_some_iff.mp hb
          exact List.mem_of_getElem? hj
        exact jump_goes (List.mem_map_of_mem (f := Prod.fst) hm) _
  | tryTable catches =>
    simp only [execInstr]
    split
    · refine next_goes rfl rfl fun h hm => ?_
      rcases List.mem_cons.mp hm with rfl | hm
      · exact .inr ⟨rfl, fun lc hlc => List.mem_map_of_mem hlc⟩
      · exact .inl hm
    · trivial
  | endTryTable =>
    simp only [execInstr]
    split
    · trivial
    · rename_i h0 hs hs'
      refine next_goes rfl rfl (.sublist ?_)
      rw [hs']
      exact List.sublist_cons_self _ _
  | trimHandlers depth =>
    simp only [execInstr]
    split
    · exact next_goes rfl rfl (.sublist (List.drop_sublist _ _))
    · trivial
  | end_ => exact popFrame_goes c.store fr.opnds (List.Sublist.refl _)
  | poll _ | meter _ _ | tick _ => trivial

end Exec

end Successors

end Wah
