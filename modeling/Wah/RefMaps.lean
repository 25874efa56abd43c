/-
Ref maps: the paths of a capture list exactly the reference slots of the operand stack.

Model:
- a map is the node it starts from, and its slots are read along the parents (`Capture.slotsFrom`);
- `StackOp` is what may happen to the type stack between captures, dead code included;
- `Captured` are the maps of the analysis of a body, each with the context of the validator at its capture.

Results:
- `ref_maps_exact`: every map captured in reachable code lists the reference slots, the topmost first, in every accepted
  body and after any stack operations;
- `checkRefMap_captured`: the lowering checker accepts every such map.
-/
import Wah.StackMoves
import Wah.Trace

namespace Wah

/-! ## Reference slots -/

/-- a scan of the operand types, bottom first, for references; the topmost comes first -/
def refSlots (types : List Ty) : List Nat :=
  ((List.range types.length).filter fun k => (types[k]?).any Ty.isRef).reverse

theorem mem_refSlots {types : List Ty} {k : Nat} : k ∈ refSlots types ↔ ∃ t, types[k]? = some t ∧ t.isRef = true := by
  simp only [refSlots, List.mem_reverse, List.mem_filter, List.mem_range, Option.any_eq_true]
  constructor
  · exact fun h => h.2
  · rintro ⟨t, ht, href⟩
    exact ⟨(List.getElem?_eq_some_iff.mp ht).1, t, ht, href⟩

theorem refSlots_decreasing (types : List Ty) : (refSlots types).Pairwise (· > ·) := by
  rw [refSlots, List.pairwise_reverse]
  exact List.pairwise_lt_range.filter _

theorem refSlots_concat (types : List Ty) (t : Ty) :
    refSlots (types ++ [t]) = if t.isRef then types.length :: refSlots types else refSlots types := by
  have hsame : (List.range types.length).filter (fun k => ((types ++ [t])[k]?).any Ty.isRef) =
      (List.range types.length).filter fun k => (types[k]?).any Ty.isRef := by
    refine List.filter_congr fun k hk => ?_
    rw [List.getElem?_append_left (List.mem_range.mp hk)]
  rw [refSlots, List.length_append, List.length_singleton, List.range_succ, List.filter_append, hsame]
  by_cases ht : t.isRef = true
  · simp [refSlots, ht]
  · simp [refSlots, ht]

/-! ## Paths -/

/-- the path from a node (one-based) to the root, with its slots; parents come before their children -/
inductive RefPath (nodes : List RefNode) : Nat → List Nat → Prop where
  | root : RefPath nodes 0 []
  | node {n : Nat} {r : RefNode} {slots : List Nat} : nodes[n]? = some r → r.parent ≤ n → RefPath nodes r.parent slots →
    RefPath nodes (n + 1) (r.pos :: slots)

section
variable {nodes more : List RefNode} {top : Nat} {slots : List Nat}

theorem RefPath.grow (h : RefPath nodes top slots) (hmore : nodes <+: more) : RefPath more top slots := by
  induction h with
  | root => exact .root
  | node hnode hparent _ ih =>
    obtain ⟨hn, rfl⟩ := List.getElem?_eq_some_iff.mp hnode
    exact .node (List.prefix_iff_getElem?.mp hmore _ hn) hparent ih

theorem RefPath.top_le (h : RefPath nodes top slots) : top ≤ nodes.length := by
  cases h with
  | root => exact Nat.zero_le _
  | node hnode _ _ => exact (List.getElem?_eq_some_iff.mp hnode).1

/-- the walk along the parents reads the slots of the path -/
theorem RefPath.slotsFrom (h : RefPath nodes top slots) {fuel : Nat} (hfuel : top ≤ fuel) :
    Capture.slotsFrom nodes fuel top = slots := by
  induction h generalizing fuel with
  | root => cases fuel <;> rfl
  | node hnode hparent _ ih =>
    obtain ⟨fuel, rfl⟩ : ∃ f, fuel = f + 1 := ⟨fuel - 1, by omega⟩
    simp only [Capture.slotsFrom, hnode]
    rw [ih (by omega)]

end

/-! ## Captures -/

namespace Capture

/-- the top of every prefix of the captured types starts the path of its reference slots -/
structure Sound (c : Capture) : Prop where
  length : c.tops.length = c.types.length + 1
  paths : ∀ k ≤ c.types.length, ∃ top, c.tops[k]? = some top ∧ RefPath c.nodes top (refSlots (c.types.take k))

theorem sound_empty : Sound {} where
  length := rfl
  paths k hk := by
    obtain rfl : k = 0 := Nat.le_zero.mp hk
    exact ⟨0, rfl, .root⟩

variable {c : Capture}

theorem Sound.last (h : c.Sound) : RefPath c.nodes (c.tops.getLast?.getD 0) (refSlots c.types) := by
  obtain ⟨top, htop, hpath⟩ := h.paths c.types.length le_rfl
  rw [List.take_length] at hpath
  rw [List.getLast?_eq_getElem?, h.length, Nat.add_sub_cancel, htop]
  exact hpath

theorem Sound.push (h : c.Sound) (t : Ty) :
    (c.push t).Sound ∧ (c.push t).types = c.types ++ [t] ∧ c.nodes <+: (c.push t).nodes ∧
      (c.push t).pollTops = c.pollTops := by
  have hlast := h.last
  have hslots := refSlots_concat c.types t
  have hkept (tops : List Nat) (nodes : List RefNode) (hgrow : c.nodes <+: nodes) (top : Nat)
      (htops : tops = c.tops ++ [top]) (hnew : RefPath nodes top (refSlots (c.types ++ [t]))) :
      ∀ k ≤ (c.types ++ [t]).length, ∃ top, tops[k]? = some top ∧
        RefPath nodes top (refSlots ((c.types ++ [t]).take k)) := by
    intro k hk
    rw [List.length_append, List.length_singleton] at hk
    subst htops
    rcases Nat.eq_or_lt_of_le hk with rfl | hlt
    · refine ⟨top, ?_, by rw [List.take_of_length_le (by simp)]; exact hnew⟩
      rw [← h.length]
      exact List.getElem?_concat_length
    · obtain ⟨top', htop', hpath⟩ := h.paths k (by omega)
      refine ⟨top', ?_, ?_⟩
      · rw [List.getElem?_append_left (by rw [h.length]; omega)]
        exact htop'
      · rw [List.take_append_of_le_length (by omega)]
        exact hpath.grow hgrow
  unfold Capture.push
  by_cases ht : t.isRef = true
  · rw [if_pos ht] at hslots
    simp only [ht, if_true]
    refine ⟨⟨by simp [h.length], hkept _ _ (List.prefix_append _ _) _ rfl ?_⟩, trivial, List.prefix_append _ _, trivial⟩
    rw [hslots]
    have hpos : (c.types ++ [t]).length - 1 = c.types.length := by simp
    rw [hpos]
    exact .node (r := ⟨_, _⟩) List.getElem?_concat_length hlast.top_le (hlast.grow (List.prefix_append _ _))
  · rw [if_neg ht] at hslots
    simp only [ht, Bool.false_eq_true, if_false]
    exact ⟨⟨by simp [h.length], hkept _ _ (List.prefix_refl _) _ rfl (by rw [hslots]; exact hlast)⟩, trivial,
      List.prefix_refl _, trivial⟩

/-- the loop over the slots that are captured anew -/
theorem Sound.pushAll (h : c.Sound) (ts : List Ty) :
    (ts.foldl Capture.push c).Sound ∧ (ts.foldl Capture.push c).types = c.types ++ ts ∧
      c.nodes <+: (ts.foldl Capture.push c).nodes ∧ (ts.foldl Capture.push c).pollTops = c.pollTops := by
  induction ts generalizing c with
  | nil => exact ⟨h, (List.append_nil _).symm, List.prefix_refl _, rfl⟩
  | cons t ts ih =>
    obtain ⟨hsound, htypes, hnodes, hpolls⟩ := h.push t
    obtain ⟨hsound', htypes', hnodes', hpolls'⟩ := ih hsound
    exact ⟨hsound', by rw [List.foldl_cons, htypes', htypes, List.append_assoc]; rfl, hnodes.trans hnodes',
      hpolls'.trans hpolls⟩

/-- the capture cut back to a common prefix -/
theorem Sound.take (h : c.Sound) {k : Nat} (hk : k ≤ c.types.length) :
    Sound { c with types := c.types.take k, tops := c.tops.take (k + 1) } where
  length := by simp [h.length]
  paths j hj := by
    have hjk : j ≤ k := by simpa [hk] using hj
    obtain ⟨top, htop, hpath⟩ := h.paths j (hjk.trans hk)
    refine ⟨top, ?_, ?_⟩
    · rw [List.getElem?_take_of_lt (by omega)]
      exact htop
    · rw [List.take_take, Nat.min_eq_left hjk]
      exact hpath

theorem take_eq_of_agree {old new : List Ty} {k : Nat} (heq : ∀ j < k, old[j]? = new[j]?) :
    old.take k = new.take k := by
  refine List.ext_getElem? fun j => ?_
  by_cases hj : j < k
  · rw [List.getElem?_take_of_lt hj, List.getElem?_take_of_lt hj, heq j hj]
  · simp [hj]

/-- the prefix extended over equal types -/
theorem commonFrom_spec {old new : List Ty} (fuel : Nat) {k : Nat} (hold : k ≤ old.length) (hnew : k ≤ new.length)
    (heq : ∀ j < k, old[j]? = new[j]?) :
    commonFrom old new fuel k ≤ old.length ∧
      old.take (commonFrom old new fuel k) = new.take (commonFrom old new fuel k) := by
  induction fuel generalizing k with
  | zero => exact ⟨hold, take_eq_of_agree heq⟩
  | succ fuel ih =>
    rw [commonFrom]
    split_ifs with hmore
    · refine ih (by omega) (by omega) fun j hj => ?_
      rcases Nat.lt_succ_iff_lt_or_eq.mp hj with hlt | rfl
      · exact heq j hlt
      · exact hmore.2.2
    · exact ⟨hold, take_eq_of_agree heq⟩

end Capture

/-! ## The low-water mark -/

/-- slots below the low-water mark are there, and as they were captured -/
structure Tracks (c : Capture) (v : VCtx) : Prop where
  sound : c.Sound
  height : v.lwm ≤ v.height
  same : ∀ k < min v.lwm c.types.length, c.types[k]? = v.slot k

theorem tracks_start : Tracks {} {} where
  sound := Capture.sound_empty
  height := le_rfl
  same k hk := absurd hk (Nat.not_lt_zero k)

/-- one capture: in reachable code the new map lists the reference slots of the stack, elsewhere it is empty -/
theorem Tracks.capture {c : Capture} {v : VCtx} (h : Tracks c v) :
    Tracks (c.capture v).1 (c.capture v).2 ∧ c.nodes <+: (c.capture v).1.nodes ∧
      ∃ top, (c.capture v).1.pollTops = c.pollTops ++ [top] ∧
        RefPath (c.capture v).1.nodes top (if v.isUnreachable then [] else refSlots v.stack.reverse) := by
  unfold Capture.capture
  split_ifs with hdead
  · exact ⟨⟨⟨h.sound.length, h.sound.paths⟩, h.height, h.same⟩, List.prefix_refl _, 0, rfl, .root⟩
  · have hlen : v.stack.reverse.length = v.height := List.length_reverse
    set common := Capture.commonFrom c.types v.stack.reverse v.stack.reverse.length (min v.lwm c.types.length)
      with hcommon
    have hheight := h.height
    have hmin : min v.lwm c.types.length ≤ v.stack.reverse.length := by omega
    obtain ⟨hle, htake⟩ := Capture.commonFrom_spec v.stack.reverse.length (min_le_right _ _) hmin h.same
    rw [← hcommon] at hle htake
    obtain ⟨hsound, htypes, hnodes, hpolls⟩ := (h.sound.take hle).pushAll (v.stack.reverse.drop common)
    have hall : c.types.take common ++ v.stack.reverse.drop common = v.stack.reverse := by
      rw [htake, List.take_append_drop]
    have htypes' := htypes.trans hall
    refine ⟨⟨⟨hsound.length, hsound.paths⟩, le_rfl, fun k _ => ?_⟩, hnodes, _, congrArg (· ++ _) hpolls, ?_⟩
    · exact congrArg (·[k]?) htypes'
    · have hlast := hsound.last
      rwa [htypes'] at hlast

theorem Tracks.keeps {c : Capture} {v v' : VCtx} (h : Tracks c v) (hk : Keeps v v') : Tracks c v' where
  sound := h.sound
  height := hk.height h.height
  same k hlt := by
    have hle := hk.lwm
    rw [hk.same h.height k (by omega)]
    exact h.same k (by omega)

/-! ## Any stack operations -/

/-- what happens to the type stack: its three operations, dead code coming and going, and captures -/
inductive StackOp where
  | push (t : Ty)
  | pop
  | truncate (sp : Nat)
  | setUnreachable (b : Bool)
  | capture
deriving DecidableEq, Repr

/-- one operation; a full or empty stack fails -/
def StackOp.apply (s : Capture × VCtx) : StackOp → Option (Capture × VCtx)
  | .push t => if s.2.height < maxTypeStackSize then some (s.1, { s.2 with stack := t :: s.2.stack }) else none
  | .pop =>
    match s.2.stack with
    | [] => none
    | _ :: ts => some (s.1, { s.2 with stack := ts, lwm := min s.2.lwm ts.length })
  | .truncate sp => some (s.1, s.2.truncate sp)
  | .setUnreachable b => some (s.1, { s.2 with isUnreachable := b })
  | .capture => some (s.1.capture s.2)

/-- map `k` is there, and is the path of the given slots -/
def Capture.Lists (c : Capture) (k : Nat) (slots : List Nat) : Prop :=
  ∃ top, c.pollTops[k]? = some top ∧ RefPath c.nodes top slots

/-- the slots a capture has to list -/
def VCtx.refSlots (v : VCtx) : List Nat := if v.isUnreachable then [] else Wah.refSlots v.stack.reverse

/-- maps are only added, and the nodes of old ones stay -/
structure Capture.Grows (c c' : Capture) : Prop where
  nodes : c.nodes <+: c'.nodes
  pollTops : c.pollTops <+: c'.pollTops

section
variable {c c' c'' : Capture} {v v' : VCtx} {k : Nat} {slots : List Nat}

theorem Capture.Grows.refl (c : Capture) : c.Grows c := ⟨List.prefix_refl _, List.prefix_refl _⟩

theorem Capture.Grows.trans (h : c.Grows c') (h' : c'.Grows c'') : c.Grows c'' :=
  ⟨h.nodes.trans h'.nodes, h.pollTops.trans h'.pollTops⟩

theorem Capture.Lists.grow (h : c.Lists k slots) (hc : c.Grows c') : c'.Lists k slots := by
  obtain ⟨top, htop, hpath⟩ := h
  obtain ⟨hk, rfl⟩ := List.getElem?_eq_some_iff.mp htop
  exact ⟨_, List.prefix_iff_getElem?.mp hc.pollTops k hk, hpath.grow hc.nodes⟩

/-- a capture lists the reference slots of the moment, and keeps the other maps -/
theorem Tracks.capture_lists (h : Tracks c v) :
    Tracks (c.capture v).1 (c.capture v).2 ∧ c.Grows (c.capture v).1 ∧
      (c.capture v).1.pollTops.length = c.pollTops.length + 1 ∧
      (c.capture v).1.Lists c.pollTops.length v.refSlots := by
  obtain ⟨htracks, hnodes, top, hpolls, hpath⟩ := h.capture
  refine ⟨htracks, ⟨hnodes, by rw [hpolls]; exact List.prefix_append _ _⟩, by rw [hpolls]; simp, top, ?_, hpath⟩
  rw [hpolls]
  exact List.getElem?_concat_length

theorem Tracks.apply {op : StackOp} (h : Tracks c v) (hop : op.apply (c, v) = some (c', v')) :
    Tracks c' v' ∧ c.Grows c' := by
  cases op with
  | push t =>
    simp only [StackOp.apply] at hop
    split_ifs at hop with hroom
    obtain ⟨rfl, rfl⟩ := Prod.mk.inj (Option.some.inj hop)
    exact ⟨h.keeps (keeps_push hroom t v.maxStackDepth), .refl c⟩
  | pop =>
    simp only [StackOp.apply] at hop
    split at hop
    · cases hop
    · rename_i t ts hs
      obtain ⟨rfl, rfl⟩ := Prod.mk.inj (Option.some.inj hop)
      exact ⟨h.keeps (keeps_pop hs), .refl c⟩
  | truncate sp =>
    obtain ⟨rfl, rfl⟩ := Prod.mk.inj (Option.some.inj hop)
    exact ⟨h.keeps (keeps_truncate v sp), .refl c⟩
  | setUnreachable b =>
    obtain ⟨rfl, rfl⟩ := Prod.mk.inj (Option.some.inj hop)
    exact ⟨h.keeps (.of_eq rfl rfl), .refl c⟩
  | capture =>
    obtain ⟨rfl, rfl⟩ := Prod.mk.inj (Option.some.inj hop)
    obtain ⟨htracks, hgrows, -, -⟩ := h.capture_lists
    exact ⟨htracks, hgrows⟩

theorem Tracks.run {ops : List StackOp} (h : Tracks c v) (hrun : ops.foldlM StackOp.apply (c, v) = some (c', v')) :
    Tracks c' v' ∧ c.Grows c' := by
  induction ops generalizing c v with
  | nil =>
    obtain ⟨rfl, rfl⟩ := Prod.mk.inj (Option.some.inj hrun)
    exact ⟨h, .refl c⟩
  | cons op ops ih =>
    rw [List.foldlM_cons] at hrun
    obtain ⟨⟨c₁, v₁⟩, hop, hrest⟩ := Option.bind_eq_some_iff.mp hrun
    obtain ⟨htracks, hgrows⟩ := h.apply hop
    obtain ⟨htracks', hgrows'⟩ := ih htracks hrest
    exact ⟨htracks', hgrows.trans hgrows'⟩

end

/-! ## The analysis of a body -/

/-- the maps of the analysis of a body, with the context of the validator at each capture: before an opcode, and after
a loop was opened -/
inductive Captured (C : FuncCtx) (body : List Instr) : Nat → VCtx → Prop
  | prepared {done rest : List Instr} {i : Instr} {s : AState} :
    body = done ++ i :: rest → Steps C {} done s →
    (s.prepare C i).1.cap.pollTops.length = s.cap.pollTops.length + 1 → Captured C body s.cap.pollTops.length s.v
  | loop {done rest : List Instr} {bt : BlockType} {s p : AState} {cur : Option Nat} {v : VCtx} {d : Option DOp} :
    body = done ++ .loop bt :: rest → Steps C {} done s → s.prepare C (.loop bt) = (p, cur) →
    validateOpcode C p.v (.loop bt) = .ok (v, d) →
    ({ p with v := v }.emit cur d).cap.pollTops.length = p.cap.pollTops.length + 1 →
    Captured C body p.cap.pollTops.length v

section
variable {C : FuncCtx} {s s' : AState} {v : VCtx} {a : Analyzed}

/-- a step that captures at most once, in the given context -/
structure Maps (s s' : AState) (v : VCtx) : Prop where
  tracks : Tracks s'.cap s'.v
  grows : s.cap.Grows s'.cap
  length : s'.cap.pollTops.length = s.cap.pollTops.length ∨ s'.cap.pollTops.length = s.cap.pollTops.length + 1 ∧
    s'.cap.Lists s.cap.pollTops.length v.refSlots

theorem capture_maps (h : Tracks s.cap s.v) : Maps s s.capture s.v := by
  obtain ⟨htracks, hgrows, hlen, hlists⟩ := h.capture_lists
  exact ⟨htracks, hgrows, .inr ⟨hlen, hlists⟩⟩

theorem prepare_maps (h : Tracks s.cap s.v) (i : Instr) : Maps s (s.prepare C i).1 s.v := by
  have hcapture := capture_maps h
  unfold AState.prepare
  split_ifs
  · exact ⟨hcapture.tracks, hcapture.grows, hcapture.length⟩
  · exact hcapture
  · exact ⟨h, .refl _, .inl rfl⟩
  · exact hcapture
  · exact ⟨h, .refl _, .inl rfl⟩

theorem emit_maps (h : Tracks s.cap s.v) (cur : Option Nat) (d : Option DOp) : Maps s (s.emit cur d) s.v := by
  have hcapture := capture_maps h
  unfold AState.emit
  cases d with
  | none => exact ⟨h, .refl _, .inl rfl⟩
  | some d =>
    cases d with
    | loop bt =>
      dsimp only
      split_ifs
      · exact ⟨h, .refl _, .inl rfl⟩
      · exact ⟨hcapture.tracks, hcapture.grows, hcapture.length⟩
    | _ => exact ⟨h, .refl _, .inl rfl⟩

/-- one iteration, in its three parts -/
theorem step_maps (h : Tracks s.cap s.v) {i : Instr} (hstep : s.step C i = .ok s') :
    ∃ p cur v d, s.prepare C i = (p, cur) ∧ validateOpcode C p.v i = .ok (v, d) ∧ s' = { p with v := v }.emit cur d ∧
      Maps s p s.v ∧ Maps { p with v := v } s' v := by
  simp only [AState.step, bind_eq_ok, pure_eq_ok] at hstep
  obtain ⟨⟨v, d⟩, hvalid, rfl⟩ := hstep
  have hprepare := prepare_maps (C := C) h i
  have htracks : Tracks (s.prepare C i).1.cap v := hprepare.tracks.keeps (validateOpcode_keeps hvalid)
  exact ⟨_, _, v, d, rfl, hvalid, rfl, hprepare, emit_maps (s := { (s.prepare C i).1 with v := v }) htracks _ d⟩

/-- the outermost END -/
theorem finish_maps (h : Tracks s.cap s.v) (hfinish : s.finish C = .ok a) :
    Maps s (s.prepare C .end_).1 s.v ∧ a.pollTops = (s.prepare C .end_).1.cap.pollTops ∧
      a.nodes = (s.prepare C .end_).1.cap.nodes := by
  simp only [AState.finish, bind_eq_ok, pure_eq_ok] at hfinish
  obtain ⟨v, -, -, -, rfl⟩ := hfinish
  exact ⟨prepare_maps h .end_, rfl, rfl⟩

/-- what the analysis hands on: maps and nodes -/
def Analyzed.capture (a : Analyzed) : Capture := { nodes := a.nodes, pollTops := a.pollTops }

/-- from a state of the loop on, maps are only added -/
theorem analyzeFrom_grows {rest : List Instr} (h : Tracks s.cap s.v) (hrun : analyzeFrom C s rest = .ok a) :
    s.cap.Grows a.capture := by
  induction rest generalizing s with
  | nil => cases hrun
  | cons i rest ih =>
    rw [analyzeFrom] at hrun
    split_ifs at hrun
    · obtain ⟨hmaps, hpolls, hnodes⟩ := finish_maps h hrun
      exact ⟨by rw [Analyzed.capture, hnodes]; exact hmaps.grows.nodes,
        by rw [Analyzed.capture, hpolls]; exact hmaps.grows.pollTops⟩
    · obtain ⟨s₁, hstep, hrest⟩ := bind_eq_ok.mp hrun
      obtain ⟨p, cur, v, d, -, -, rfl, hprepare, hemit⟩ := step_maps h hstep
      exact (hprepare.grows.trans hemit.grows).trans (ih hemit.tracks hrest)

/-- a prefix that was validated leaves the rest -/
theorem analyzeFrom_steps_rest {done rest : List Instr} (hdone : Steps C s done s')
    (hrun : analyzeFrom C s (done ++ rest) = .ok a) : analyzeFrom C s' rest = .ok a := by
  induction hdone with
  | nil => exact hrun
  | cons hi hstep _ ih =>
    rw [List.cons_append, analyzeFrom, if_neg hi] at hrun
    obtain ⟨s₁, hstep', hrest⟩ := bind_eq_ok.mp hrun
    obtain rfl := Except.ok.inj (hstep.symm.trans hstep')
    exact ih hrest

theorem steps_tracks {done : List Instr} (h : Tracks s.cap s.v) (hdone : Steps C s done s') : Tracks s'.cap s'.v := by
  induction hdone with
  | nil => exact h
  | cons _ hstep _ ih =>
    obtain ⟨p, cur, v, d, -, -, rfl, -, hemit⟩ := step_maps h hstep
    exact ih hemit.tracks

theorem Maps.lists (h : Maps s s' v) (hlen : s'.cap.pollTops.length = s.cap.pollTops.length + 1) :
    s'.cap.Lists s.cap.pollTops.length v.refSlots := by
  rcases h.length with hsame | ⟨-, hlists⟩
  · omega
  · exact hlists

/-- every captured map is a map of the result, with the slots of its moment -/
theorem Captured.lists {body : List Instr} {k : Nat} (h : Captured C body k v) (hrun : analyzeStream C body = .ok a) :
    a.capture.Lists k v.refSlots := by
  cases h with
  | prepared hbody hdone hlen =>
    rename_i done rest i s
    subst hbody
    have htracks := steps_tracks tracks_start hdone
    have hrest := analyzeFrom_steps_rest hdone hrun
    have hprepare := prepare_maps (C := C) htracks i
    refine (hprepare.lists hlen).grow ?_
    rw [analyzeFrom] at hrest
    split_ifs at hrest with hend
    · obtain ⟨hmaps, hpolls, hnodes⟩ := finish_maps htracks hrest
      rw [hend.1, Analyzed.capture, hpolls, hnodes]
      exact ⟨List.prefix_refl _, List.prefix_refl _⟩
    · obtain ⟨s₁, hstep, hlast⟩ := bind_eq_ok.mp hrest
      obtain ⟨p, cur, v, d, hp, -, rfl, -, hemit⟩ := step_maps htracks hstep
      rw [hp]
      exact hemit.grows.trans (analyzeFrom_grows hemit.tracks hlast)
  | loop hbody hdone hp hvalid hlen =>
    rename_i done rest bt s p cur d
    subst hbody
    have htracks := steps_tracks tracks_start hdone
    have hrest := analyzeFrom_steps_rest hdone hrun
    have hprepare := prepare_maps (C := C) htracks (.loop bt)
    rw [hp] at hprepare
    have hemit := emit_maps (s := { p with v := v }) (hprepare.tracks.keeps (validateOpcode_keeps hvalid)) cur d
    refine (hemit.lists hlen).grow ?_
    rw [analyzeFrom, if_neg (by simp)] at hrest
    obtain ⟨s₁, hstep, hlast⟩ := bind_eq_ok.mp hrest
    simp only [AState.step, hp, hvalid, bind_eq_ok, pure_eq_ok] at hstep
    obtain ⟨_, hsame, rfl⟩ := hstep
    obtain rfl := Except.ok.inj hsame
    exact analyzeFrom_grows hemit.tracks hlast

/-- a step that captures after its opcode opened a loop -/
theorem emit_loop {i : Instr} {p : AState} {d : Option DOp} {cur : Option Nat}
    (hvalid : validateOpcode C p.v i = .ok (v, d))
    (hlen : ({ p with v := v }.emit cur d).cap.pollTops.length = p.cap.pollTops.length + 1) : ∃ bt, i = .loop bt := by
  have hd : ∃ bt, d = some (.loop bt) := by
    cases d with
    | none => simp [AState.emit] at hlen
    | some d =>
      cases d with
      | loop bt => exact ⟨bt, rfl⟩
      | _ => simp [AState.emit] at hlen
  obtain ⟨bt, rfl⟩ := hd
  cases validateOpcode_step hvalid with
  | loop _ => exact ⟨bt, rfl⟩

/-- every map of the result was captured -/
theorem captured_all {body done rest : List Instr} (hbody : body = done ++ rest) (hdone : Steps C {} done s)
    (hall : ∀ k < s.cap.pollTops.length, ∃ v, Captured C body k v) (hrun : analyzeFrom C s rest = .ok a) :
    ∀ k < a.pollTops.length, ∃ v, Captured C body k v := by
  induction rest generalizing done s with
  | nil => cases hrun
  | cons i rest ih =>
    have htracks := steps_tracks tracks_start hdone
    have hprepared : ∀ k < (s.prepare C i).1.cap.pollTops.length, ∃ v, Captured C body k v := by
      intro k hk
      rcases (prepare_maps (C := C) htracks i).length with hsame | ⟨hmore, -⟩
      · exact hall k (hsame ▸ hk)
      · rcases Nat.lt_succ_iff_lt_or_eq.mp (hmore ▸ hk) with hlt | rfl
        · exact hall k hlt
        · exact ⟨s.v, .prepared hbody hdone hmore⟩
    rw [analyzeFrom] at hrun
    split_ifs at hrun with hend
    · obtain ⟨-, hpolls, -⟩ := finish_maps htracks hrun
      rw [hpolls, ← hend.1]
      exact hprepared
    · obtain ⟨s₁, hstep, hlast⟩ := bind_eq_ok.mp hrun
      have hdone' : Steps C {} (done ++ [i]) s₁ := hdone.append (.cons hend hstep (.nil _))
      refine ih (by simp [hbody]) hdone' ?_ hlast
      obtain ⟨p, cur, v, d, hp, hvalid, rfl, -, hemit⟩ := step_maps htracks hstep
      rw [hp] at hprepared
      intro k hk
      rcases hemit.length with hsame | ⟨hmore, -⟩
      · exact hprepared k (hsame ▸ hk)
      · rcases Nat.lt_succ_iff_lt_or_eq.mp (hmore ▸ hk) with hlt | rfl
        · exact hprepared k hlt
        · obtain ⟨bt, rfl⟩ := emit_loop hvalid hmore
          exact ⟨v, Captured.loop (p := p) hbody hdone hp hvalid hmore⟩

end

/-! ## The checker -/

/-- the loop of `wah_check_ref_map`: the number of listed slots, none if a node is wrong -/
def checkNodes (nodes : List RefNode) (stk : List Ty) : Nat → Nat → Nat → Nat → Option Nat
  | _, 0, _, listed => some listed
  | 0, _ + 1, _, _ => none
  | fuel + 1, n + 1, below, listed =>
    match nodes[n]? with
    | none => none
    | some node =>
      if node.parent ≥ n + 1 ∨ node.pos ≥ below ∨ (stk[node.pos]?).any Ty.isRef = false then none
      else checkNodes nodes stk fuel node.parent node.pos (listed + 1)

/-- `wah_check_ref_map` -/
def checkRefMap (c : Capture) (idx : Nat) (stk : List Ty) : Bool :=
  checkNodes c.nodes stk (c.nodes.length + 1) ((c.pollTops[idx]?).getD 0) stk.length 0 = some (stk.countP Ty.isRef)

theorem length_refSlots (types : List Ty) : (refSlots types).length = types.countP Ty.isRef := by
  induction types using List.reverseRecOn with
  | nil => rfl
  | append_singleton types t ih =>
    rw [refSlots_concat, List.countP_append]
    split_ifs with ht
    · simp [ih, ht]
    · simp [ih, ht]

theorem RefPath.check {nodes : List RefNode} {stk : List Ty} {top : Nat} {slots : List Nat}
    (h : RefPath nodes top slots) {fuel below listed : Nat} (hfuel : top ≤ fuel)
    (hbelow : (below :: slots).Pairwise (· > ·)) (href : ∀ p ∈ slots, (stk[p]?).any Ty.isRef = true) :
    checkNodes nodes stk fuel top below listed = some (listed + slots.length) := by
  induction h generalizing fuel below listed with
  | root => cases fuel <;> rfl
  | node hnode hparent hpath ih =>
    rename_i n r slots
    obtain ⟨fuel, rfl⟩ : ∃ f, fuel = f + 1 := ⟨fuel - 1, by omega⟩
    obtain ⟨hlt, hrest⟩ := List.pairwise_cons.mp hbelow
    have hpos : r.pos < below := hlt r.pos List.mem_cons_self
    have hisRef := href r.pos List.mem_cons_self
    simp only [checkNodes, hnode]
    rw [if_neg (by simp [hisRef]; omega), ih (by omega) hrest fun p hp => href p (List.mem_cons_of_mem _ hp)]
    exact congrArg some (by rw [List.length_cons]; omega)

/-- the checker accepts a map that lists the reference slots of the stack -/
theorem Capture.Lists.check {c : Capture} {k : Nat} {stk : List Ty} (h : c.Lists k (refSlots stk)) :
    checkRefMap c k stk = true := by
  obtain ⟨top, htop, hpath⟩ := h
  have hbelow : (stk.length :: refSlots stk).Pairwise (· > ·) := by
    refine .cons (fun p hp => ?_) (refSlots_decreasing stk)
    obtain ⟨t, ht, -⟩ := mem_refSlots.mp hp
    exact (List.getElem?_eq_some_iff.mp ht).1
  have href : ∀ p ∈ refSlots stk, (stk[p]?).any Ty.isRef = true := by
    intro p hp
    obtain ⟨t, ht, hisRef⟩ := mem_refSlots.mp hp
    simp [ht, hisRef]
  have htop' := hpath.top_le
  rw [checkRefMap, htop, Option.getD_some, hpath.check (by omega) hbelow href, length_refSlots]
  simp

/-! ## Main results -/

/-- the slots of map `k`, walked along the parents as the collector does -/
def Capture.mapSlots (c : Capture) (k : Nat) : List Nat :=
  Capture.slotsFrom c.nodes c.nodes.length ((c.pollTops[k]?).getD 0)

theorem Capture.Lists.mapSlots {c : Capture} {k : Nat} {slots : List Nat} (h : c.Lists k slots) :
    c.mapSlots k = slots := by
  obtain ⟨top, htop, hpath⟩ := h
  rw [Capture.mapSlots, htop]
  exact hpath.slotsFrom hpath.top_le

theorem VCtx.refSlots_live {v : VCtx} (h : v.isUnreachable = false) : v.refSlots = Wah.refSlots v.stack.reverse := by
  rw [VCtx.refSlots, h]
  rfl

/-- **Ref maps are exact.** In the analysis of an accepted body, every map is captured somewhere, and one captured in
reachable code lists the positions of the references on the operand stack of that moment, in strictly decreasing order.
The same holds after any pushes, pops, truncations, dead code and captures, whatever follows. -/
theorem ref_maps_exact :
    (∀ C body a, analyzeStream C body = .ok a →
      (∀ k < a.pollTops.length, ∃ v, Captured C body k v) ∧
      ∀ k v, Captured C body k v → v.isUnreachable = false →
        k < a.pollTops.length ∧ (a.capture.mapSlots k).Pairwise (· > ·) ∧
          ∀ p, p ∈ a.capture.mapSlots k ↔ ∃ t, v.slot p = some t ∧ t.isRef = true) ∧
    ∀ before after c v c' v', List.foldlM StackOp.apply ({}, {}) before = some (c, v) → v.isUnreachable = false →
      List.foldlM StackOp.apply (c.capture v) after = some (c', v') →
      c'.mapSlots c.pollTops.length = refSlots v.stack.reverse := by
  refine ⟨fun C body a hrun => ⟨?_, fun k v hcap hlive => ?_⟩, fun before after c v c' v' hbefore hlive hafter => ?_⟩
  · exact captured_all (List.nil_append body).symm (.nil _) (fun k hk => absurd hk (Nat.not_lt_zero k)) hrun
  · have hlists := hcap.lists hrun
    have hslots := hlists.mapSlots
    rw [VCtx.refSlots_live hlive] at hslots
    obtain ⟨top, htop, -⟩ := hlists
    rw [hslots]
    exact ⟨(List.getElem?_eq_some_iff.mp htop).1, refSlots_decreasing _, fun p => mem_refSlots⟩
  · obtain ⟨htracks, -⟩ := tracks_start.run hbefore
    obtain ⟨htracks', -, -, hlists⟩ := htracks.capture_lists
    obtain ⟨-, hgrows⟩ := htracks'.run hafter
    have hslots := (hlists.grow hgrows).mapSlots
    rwa [VCtx.refSlots_live hlive] at hslots

/-- every map captured in reachable code passes the check of the lowered code -/
theorem checkRefMap_captured {C : FuncCtx} {body : List Instr} {a : Analyzed} (hrun : analyzeStream C body = .ok a)
    {k : Nat} {v : VCtx} (hcap : Captured C body k v) (hlive : v.isUnreachable = false) :
    checkRefMap a.capture k v.stack.reverse = true := by
  have hlists := hcap.lists hrun
  rw [VCtx.refSlots_live hlive] at hlists
  exact hlists.check

/-- a parameter kept on the stack over a call -/
def callOverRef : FuncCtx × List Instr :=
  (⟨{ typeDefs := [{ kind := .func, func := ⟨[], []⟩ }], funcs := [0] }, ⟨[.ref true (.abs .any)], []⟩, []⟩,
    [.localGet 0, .data (.plain (.i32Const 1)), .call (.direct 0), .data .drop, .data .drop, .end_])

theorem ref_maps_exact_call : ∃ a, analyzeStream callOverRef.1 callOverRef.2 = .ok a ∧ a.pollTops = [0, 1] ∧
    (∀ k < a.pollTops.length, ∃ v, Captured callOverRef.1 callOverRef.2 k v) ∧
    ∀ v, Captured callOverRef.1 callOverRef.2 1 v → v.isUnreachable = false →
      ∀ p, p ∈ a.capture.mapSlots 1 ↔ ∃ t, v.slot p = some t ∧ t.isRef = true :=
  have hbody := ref_maps_exact.1 callOverRef.1 callOverRef.2 _ rfl
  ⟨_, rfl, rfl, hbody.1, fun v hcap hlive => (hbody.2 1 v hcap hlive).2.2⟩

end Wah
