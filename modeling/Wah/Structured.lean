/-
The structured meaning of a function body: nested constructs and label stacks, as in the WebAssembly specification.

`Code` is the nested syntax, `Code.flat` the instruction sequence it is written as and `parse` its inverse. The machine
`sStep` keeps, for each frame, the code ahead and the enclosing labels. A branch keeps the values its label takes,
drops everything above the label's height and goes on at its target; an exception is matched against the clauses of the
enclosing labels inside out, then against those of the calling frames. Nothing of the lowering enters here.
-/
import Wah.Exec

namespace Wah

/-! ## Nested code -/

/-- instructions that open, switch or close a construct -/
def Instr.isStructural : Instr → Bool
  | .block _ | .loop _ | .if_ _ | .else_ | .end_ | .tryTable _ _ => true
  | _ => false

/-- nested code, with what follows each instruction -/
inductive Code where
  | nil
  | op (i : Instr) (h : i.isStructural = false) (k : Code)
  | block (bt : BlockType) (body k : Code)
  | loop (bt : BlockType) (body k : Code)
  | ifThen (bt : BlockType) (thn k : Code)
  | ifElse (bt : BlockType) (thn els k : Code)
  | tryTable (bt : BlockType) (cs : List CatchClause) (body k : Code)

/-- the instruction sequence of nested code -/
def Code.flat : Code → List Instr
  | .nil => []
  | .op i _ k => i :: k.flat
  | .block bt body k => .block bt :: (body.flat ++ .end_ :: k.flat)
  | .loop bt body k => .loop bt :: (body.flat ++ .end_ :: k.flat)
  | .ifThen bt thn k => .if_ bt :: (thn.flat ++ .end_ :: k.flat)
  | .ifElse bt thn els k => .if_ bt :: (thn.flat ++ .else_ :: (els.flat ++ .end_ :: k.flat))
  | .tryTable bt cs body k => .tryTable bt cs :: (body.flat ++ .end_ :: k.flat)

/-- code up to its END, with an ELSE in between or not -/
structure Piece where
  code : Code
  els : Option Code := none

/-- one instruction in front of the pieces of what follows -/
def pieceStep (i : Instr) (ps : List Piece) : Option (List Piece) :=
  match i, ps with
  | .end_, ps => some (⟨.nil, none⟩ :: ps)
  | .else_, ⟨e, none⟩ :: ps => some (⟨.nil, some e⟩ :: ps)
  | .block bt, ⟨b, none⟩ :: ⟨k, x⟩ :: ps => some (⟨.block bt b k, x⟩ :: ps)
  | .loop bt, ⟨b, none⟩ :: ⟨k, x⟩ :: ps => some (⟨.loop bt b k, x⟩ :: ps)
  | .if_ bt, ⟨t, none⟩ :: ⟨k, x⟩ :: ps => some (⟨.ifThen bt t k, x⟩ :: ps)
  | .if_ bt, ⟨t, some e⟩ :: ⟨k, x⟩ :: ps => some (⟨.ifElse bt t e k, x⟩ :: ps)
  | .tryTable bt cs, ⟨b, none⟩ :: ⟨k, x⟩ :: ps => some (⟨.tryTable bt cs b k, x⟩ :: ps)
  | i, ⟨k, x⟩ :: ps => if h : i.isStructural = false then some (⟨.op i h k, x⟩ :: ps) else none
  | _, [] => none

/-- the pieces of a suffix of a body, read from the right -/
def pieces : List Instr → Option (List Piece)
  | [] => some []
  | i :: is => (pieces is).bind (pieceStep i)

/-- the nested code of a function body -/
def parse (body : List Instr) : Option Code :=
  match pieces body with
  | some [⟨c, none⟩] => some c
  | _ => none

def Piece.flat (p : Piece) : List Instr :=
  p.code.flat ++ ((p.els.map fun e => .else_ :: e.flat).getD []) ++ [.end_]

theorem pieceStep_flat {i : Instr} {ps qs : List Piece} (h : pieceStep i ps = some qs) :
    qs.flatMap Piece.flat = i :: ps.flatMap Piece.flat := by
  unfold pieceStep at h
  split at h
  all_goals first
    | (simp only [Option.some.injEq] at h; subst h; simp [Piece.flat, Code.flat])
    | (split at h
       · simp only [Option.some.injEq] at h; subst h; simp [Piece.flat, Code.flat]
       · simp at h)
    | simp at h

theorem pieces_flat {is : List Instr} {ps : List Piece} (h : pieces is = some ps) : ps.flatMap Piece.flat = is := by
  induction is generalizing ps with
  | nil =>
    simp only [pieces, Option.some.injEq] at h
    subst h
    rfl
  | cons i is ih =>
    simp only [pieces, Option.bind_eq_some_iff] at h
    obtain ⟨qs, hq, hs⟩ := h
    rw [pieceStep_flat hs, ih hq]

/-- parsing is the inverse of flattening -/
theorem parse_flat {body : List Instr} {c : Code} (h : parse body = some c) : body = c.flat ++ [.end_] := by
  unfold parse at h
  split at h
  · rename_i hp
    simp only [Option.some.injEq] at h
    subst h
    rw [← pieces_flat hp]
    simp [Piece.flat]
  · simp at h

/-! ## Labels -/

/-- an enclosing construct -/
structure SLabel where
  /-- values a branch to it carries -/
  arity : Nat
  /-- operands below it -/
  height : Nat
  /-- where a branch goes on: a loop starts again, anything else is left -/
  target : Code
  /-- what follows the construct -/
  rest : Code
  /-- the clauses of a `try_table` -/
  handler : Option (List CatchClause) := none

/-- a position: the code ahead in the innermost construct, and the enclosing ones -/
structure SPos where
  code : Code
  labels : List SLabel

/-- number of parameters and results of a block type -/
def blockArity (M : Module) (bt : BlockType) : Nat × Nat :=
  match blockSig M bt with
  | .ok r => (r.1.length, r.2.length)
  | .error _ => (0, 0)

/-! ## The machine -/

section Structured

variable {ι Val Store Exn : Type} {P : ι → Func} (S : Sem ι Val Store Exn P) (body : ι → Code)

abbrev SCore (ι Val Store : Type) := Core ι Val Store Empty SPos

def sNav : Nav ι Empty SPos where
  goto := fun _ t _ => t.elim
  entry := fun f => ⟨body f, []⟩

/-- a branch from inside the given labels -/
def sBranch (fr : Frame ι Val SPos) (labels : List SLabel) (l : Nat) (vs : List Val) : Frame ι Val SPos :=
  match labels[l]? with
  | some lab =>
    { fr with pc := ⟨lab.target, labels.drop (l + 1)⟩, opnds := vs.take lab.arity ++ keepBottom lab.height vs }
  | none => { fr with pc := ⟨.nil, []⟩, opnds := vs.take (P fr.fid).nresults }

/-- whether a clause catches the exception: tags are compared by identity -/
def sMatches (x : Exn) (f : ι) (c : CatchClause) : Bool := !c.kind.hasTag || decide (S.tagId f c.tag = S.exnTag x)

/-- the innermost label of a frame with a matching clause; clauses name labels outside of their `try_table` -/
def sCatch (x : Exn) (fr : Frame ι Val SPos) : List SLabel → Option (Frame ι Val SPos)
  | [] => none
  | lab :: labels =>
    match (lab.handler.getD []).find? (sMatches S x fr.fid) with
    | some c => some (sBranch (P := P) fr labels c.label (payload S c.kind x ++ fr.opnds))
    | none => sCatch x fr labels

/-- an exception leaves frames until one catches it -/
def sThrow (x : Exn) (st : Store) : List (Frame ι Val SPos) → Res ι Val Store Empty SPos
  | [] => .failed .exception st
  | fr :: rest =>
    match sCatch S x fr fr.pc.labels with
    | some fr => .run ⟨fr :: rest, [], st⟩ 0
    | none => sThrow x st rest

/-- goes on after a branch -/
def sJump (c : SCore ι Val Store) (fr : Frame ι Val SPos) (rest : List (Frame ι Val SPos)) (l : Nat)
    (vs : List Val) : Res ι Val Store Empty SPos :=
  .run { c with frames := sBranch (P := P) fr fr.pc.labels l vs :: rest } 0

/-- instructions without constructs of their own, in a frame whose position is already past them -/
def sOp (c : SCore ι Val Store) (fr : Frame ι Val SPos) (rest : List (Frame ι Val SPos)) :
    Instr → Res ι Val Store Empty SPos
  | .nop | .anyConvertExtern | .externConvertAny => c.next fr rest fr.opnds
  | .br l => sJump (P := P) c fr rest l fr.opnds
  | .brIf l =>
    match fr.opnds with
    | [] => .stuck
    | v :: vs => if S.isZero v then c.next fr rest vs else sJump (P := P) c fr rest l vs
  | .brTable ls d =>
    match fr.opnds with
    | [] => .stuck
    | v :: vs => sJump (P := P) c fr rest (ls[S.index v]?.getD d) vs
  | .brOnNull l =>
    match fr.opnds with
    | [] => .stuck
    | v :: vs => if S.isNull v then sJump (P := P) c fr rest l vs else c.next fr rest (v :: vs)
  | .brOnNonNull l =>
    match fr.opnds with
    | [] => .stuck
    | v :: vs => if S.isNull v then c.next fr rest vs else sJump (P := P) c fr rest l (v :: vs)
  | .brOnCast fail a =>
    match fr.opnds with
    | [] => .stuck
    | v :: vs =>
      if castMatches S fr.fid a.dstNull a.dst v c.store ≠ fail then sJump (P := P) c fr rest a.label (v :: vs)
      else c.next fr rest (v :: vs)
  | .throw t =>
    let n := tagArity (P fr.fid).module t
    match S.newExn fr.fid t (fr.opnds.take n).reverse c.store with
    | none => .failed .trap c.store
    | some (x, st) => sThrow S x st ({ fr with opnds := fr.opnds.drop n } :: rest)
  | .throwRef =>
    match fr.opnds with
    | [] => .stuck
    | v :: vs =>
      match S.refExn v with
      | none => .failed .trap c.store
      | some x => sThrow S x c.store ({ fr with opnds := vs } :: rest)
  | i => execOp S (sNav body) c fr rest i

/-- enters a construct: its parameters are above the label -/
def sEnter (c : SCore ι Val Store) (fr : Frame ι Val SPos) (rest : List (Frame ι Val SPos)) (bt : BlockType)
    (code : Code) (vs : List Val) (lab : Nat → Nat → Nat → SLabel) : Res ι Val Store Empty SPos :=
  let a := blockArity (P fr.fid).module bt
  c.next { fr with pc := ⟨code, lab a.1 a.2 (vs.length - a.1) :: fr.pc.labels⟩ } rest vs

/-- one step -/
def sStep (c : SCore ι Val Store) : Res ι Val Store Empty SPos :=
  match c.frames with
  | [] => .stuck
  | fr :: rest =>
    match fr.pc.code with
    | .nil =>
      match fr.pc.labels with
      | [] => popFrame (P := P) c fr rest
      | lab :: labels => c.next { fr with pc := ⟨lab.rest, labels⟩ } rest fr.opnds
    | .op i _ k => sOp S body c { fr with pc := { fr.pc with code := k } } rest i
    | .block bt b k =>
      sEnter (P := P) c fr rest bt b fr.opnds fun _ results h => ⟨results, h, k, k, none⟩
    | .loop bt b k =>
      sEnter (P := P) c fr rest bt b fr.opnds fun params _ h => ⟨params, h, .loop bt b k, k, none⟩
    | .tryTable bt cs b k =>
      sEnter (P := P) c fr rest bt b fr.opnds fun _ results h => ⟨results, h, k, k, some cs⟩
    | .ifThen bt t k =>
      match fr.opnds with
      | [] => .stuck
      | v :: vs =>
        if S.isZero v then c.next { fr with pc := { fr.pc with code := k } } rest vs
        else sEnter (P := P) c fr rest bt t vs fun _ results h => ⟨results, h, k, k, none⟩
    | .ifElse bt t e k =>
      match fr.opnds with
      | [] => .stuck
      | v :: vs =>
        sEnter (P := P) c fr rest bt (if S.isZero v then e else t) vs fun _ results h => ⟨results, h, k, k, none⟩

end Structured

end Wah
