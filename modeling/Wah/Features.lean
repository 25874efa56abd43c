/-
Features of modules.

A module is parsed with the features that the options request, and records those that its binary asks for.

Model:
- a bitmap of features is a `BitVec 64`, as in the options; what is enabled and what is compiled in are sets;
- a section parser that is not modelled is an `AskingParser`: `wah_require_feature` is all that reads
  `enabled_features` while a binary is parsed, and its failures are passed on.

Results: everything in `wah_parse_module` is gated by `wah_require_feature` (`parseModule_gated`), and what that says of one
binary under other features (`parseModule_enabled`).
-/
import Mathlib.Order.Closure
import Wah.Gating
import Wah.ModuleSections

namespace Wah

open Gating LengthPrefixed

/-! ## Model -/

/-- `wah_feature_closure` -/
def featureClosure (f : ModuleFeature → Bool) : ModuleFeature → Bool
  | .simd => f .simd || f .relaxedSimd
  | .refTypes => f .refTypes || (f .gc || f .typedFuncref)
  | x => f x

theorem featureClosure_mono : Monotone featureClosure := by
  intro f g h x
  have himp : ∀ y, f y = true → g y = true := fun y => Bool.le_iff_imp.1 (h y)
  rw [Bool.le_iff_imp]
  cases x with
  | simd =>
    simp only [featureClosure, Bool.or_eq_true]
    exact Or.imp (himp _) (himp _)
  | refTypes =>
    simp only [featureClosure, Bool.or_eq_true]
    exact Or.imp (himp _) (Or.imp (himp _) (himp _))
  | _ => exact himp _

theorem le_featureClosure (f : ModuleFeature → Bool) : f ≤ featureClosure f := by
  intro x
  cases x <;> simp [featureClosure, Bool.le_iff_imp] <;> tauto

theorem featureClosure_featureClosure (f : ModuleFeature → Bool) :
    featureClosure (featureClosure f) = featureClosure f := by
  funext x
  cases x <;> simp [featureClosure]

/-- the features that others bring with them -/
def featureClosureOperator : ClosureOperator (ModuleFeature → Bool) :=
  ClosureOperator.mk' featureClosure featureClosure_mono le_featureClosure fun f => (featureClosure_featureClosure f).le

/-- `WAH_FEATURE_SHIFT_*` -/
def ModuleFeature.shift : ModuleFeature → Nat
  | multiValue => 1 | mutableGlobals => 2 | signExt => 3 | nontrappingF2I => 4 | bulkMemory => 5 | refTypes => 6
  | simd => 7 | tailCall => 8 | exception => 9 | gc => 10 | typedFuncref => 11 | memory64 => 12 | relaxedSimd => 13
  | extendedConst => 14 | multiMemory => 15

def ModuleFeature.bit (f : ModuleFeature) : BitVec 64 := BitVec.twoPow 64 f.shift

/-- `WAH_FEATURE_MVP`, which is always there -/
def mvpBit : BitVec 64 := 1

/-- the features of a bitmap -/
def bitFeatures (bits : BitVec 64) (f : ModuleFeature) : Bool := bits.getLsbD f.shift

/-- the features that options stand for: none at all mean `WAH_DEFAULT_FEATURES` -/
def requestedFeatures (defaults requested : BitVec 64) : ModuleFeature → Bool :=
  bitFeatures (if requested ≠ 0 then requested else defaults)

/-- `enabled_features` as `wah_parse_module` sets them from the options; `compiled` is `WAH_COMPILED_FEATURES` -/
def enabledFeatures (compiled : ModuleFeature → Bool) (defaults requested : BitVec 64) (f : ModuleFeature) : Bool :=
  featureClosure (requestedFeatures defaults requested) f && compiled f

section Features

variable {τ : Type}

/-- a module before its sections -/
def initialModule (compiled : ModuleFeature → Bool) (defaults requested : BitVec 64) (rest : τ) : ModuleState τ :=
  { enabled := enabledFeatures compiled defaults requested, rest }

/-- the check of `required_features` in `wah_link_module`, `wah_link_context` and `wah_instantiate` -/
def checkFeatures (mod : ModuleState τ) (enabled : ModuleFeature → Bool) : Except ReadError Unit :=
  readEnsure (∀ f ∈ mod.required, enabled f = true) .disabledFeature

/-- `required_features` as a set -/
def ModuleState.requiredFeatures (s : ModuleState τ) (f : ModuleFeature) : Bool := decide (f ∈ s.required)

/-- `required_features` -/
def ModuleState.requiredBits (s : ModuleState τ) : BitVec 64 := s.required.foldr (fun f bits => bits ||| f.bit) 0

/-- the same module with other features enabled -/
def ModuleState.withFeatures (s : ModuleState τ) (enabled : ModuleFeature → Bool) : ModuleState τ := { s with enabled }

/-- a module with its features out of sight -/
def ModuleState.blind (s : ModuleState τ) : ModuleState τ := { s with enabled := fun _ => false, required := [] }

/-- a section parser that reaches `enabled_features` through `wah_require_feature` only: the features it asks for, one
after the other, and what it comes to if it gets them all, are up to the payload and the rest of the module -/
abbrev AskingParser (τ : Type) :=
  List (BitVec 8) → ModuleState τ → List ModuleFeature × Except ReadError (Nat × ModuleState τ)

/-- a module is asked for features, up to the first that is disabled, and then updated -/
def ModuleState.answer (s : ModuleState τ) (fs : List ModuleFeature) (r : Except ReadError (Nat × ModuleState τ)) :
    Except ReadError (Nat × ModuleState τ) := do
  let s ← fs.foldlM ModuleState.require s
  let (consumed, t) ← r
  pure (consumed, { t with enabled := s.enabled, required := s.required })

/-- the parser on a module with features -/
def AskingParser.parse (p : AskingParser τ) (payload : List (BitVec 8)) (s : ModuleState τ) :
    Except ReadError (Nat × ModuleState τ) := s.answer (p payload s.blind).1 (p payload s.blind).2

instance : Carrier ModuleFeature (ModuleState τ) where
  withOpen := ModuleState.withFeatures
  asked := ModuleState.required

/-- a parser that looks at `enabled_features` in `wah_require_feature` only -/
abbrev FeatureGated {α β : Type} [Carrier ModuleFeature α] [Carrier ModuleFeature β] (parse : α → Except ReadError β) :
    Prop :=
  Gated ReadError.disabledFeature parse

/-! ## Parsers -/

theorem require_gated (f : ModuleFeature) : FeatureGated fun s : ModuleState τ => s.require f := by
  intro s r h
  beta_reduce at h ⊢
  unfold ModuleState.require at h
  split_ifs at h with hf
  obtain rfl := Except.ok.inj h
  refine ⟨[f], rfl, fun enabled => ?_⟩
  simp only [List.forall_mem_singleton]
  rfl

theorem requireIf_gated (f : ModuleFeature) {used : ModuleState τ → Bool}
    (hused : ∀ s enabled, used (s.withFeatures enabled) = used s) :
    FeatureGated fun s : ModuleState τ => s.requireIf (used s) f := by
  have hgiven : ∀ b, FeatureGated fun s : ModuleState τ => s.requireIf b f := by
    intro b
    cases b with
    | false => exact Gated.pure (fun _ => rfl) fun _ _ => rfl
    | true => exact require_gated f
  exact Gated.look (x := fun s => .ok (used s)) (fun s enabled => congrArg Except.ok (hused s enabled)) hgiven

theorem answer_gated (fs : List ModuleFeature) (r : Except ReadError (Nat × ModuleState τ)) :
    FeatureGated fun s : ModuleState τ => s.answer fs r := by
  refine Gated.bind (Gated.foldlM require_gated fs) ?_
  cases r with
  | error e => exact Gated.fail
  | ok q => exact Gated.pure (fun _ => rfl) fun _ _ => rfl

theorem AskingParser.parse_gated (p : AskingParser τ) (payload : List (BitVec 8)) :
    FeatureGated fun s : ModuleState τ => p.parse payload s :=
  Gated.look (x := fun s : ModuleState τ => .ok (p payload s.blind)) (fun _ _ => rfl) fun q => answer_gated q.1 q.2

theorem parseCustomSection_gated (payload : List (BitVec 8)) :
    FeatureGated fun s : ModuleState τ => parseCustomSection payload s := by
  refine Gated.look (fun _ _ => rfl) ?_
  rintro ⟨nameLen, ptr⟩
  refine Gated.look (fun _ _ => rfl) fun _ => ?_
  cases isValidUtf8 ((payload.drop ptr).take nameLen.toNat) with
  | none => exact Gated.fail
  | some ok => exact Gated.look (fun _ _ => rfl) fun _ => Gated.pure (fun _ => rfl) fun _ _ => rfl

theorem parseDatacountSection_gated (payload : List (BitVec 8)) :
    FeatureGated fun s : ModuleState τ => parseDatacountSection payload s := by
  refine Gated.bind (require_gated .bulkMemory) (Gated.look (fun _ _ => rfl) ?_)
  rintro ⟨count, ptr⟩
  exact Gated.pure (fun _ => rfl) fun _ _ => rfl

variable {sections : SectionParsers τ}

theorem parserFunc_gated (hsections : ∀ id payload, FeatureGated (sections id payload)) (id : SectionId)
    (payload : List (BitVec 8)) : FeatureGated (parserFunc sections id payload) := by
  cases id with
  | custom => exact parseCustomSection_gated payload
  | dataCount => exact parseDatacountSection_gated payload
  | _ => exact hsections _ payload

theorem parseSection_gated (hsections : ∀ id payload, FeatureGated (sections id payload)) (byte : BitVec 8) (size : Nat)
    (bytes : List (BitVec 8)) : FeatureGated (parseSection sections byte size bytes) := by
  refine Gated.onSnd fun last => ?_
  unfold parseSection
  cases SectionId.ofByte byte with
  | none => exact Gated.fail
  | some id =>
    refine Gated.look (fun _ _ => rfl) fun _ => Gated.look (fun _ _ => rfl) fun _ => ?_
    dsimp only
    refine Gated.bind (parserFunc_gated hsections id (bytes.take size)) ?_
    refine Gated.onSnd fun consumed => ?_
    exact Gated.look (fun _ _ => rfl) fun _ => Gated.pure (fun _ => rfl) fun _ _ => rfl

theorem finishModule_gated : FeatureGated fun s : ModuleState τ => finishModule s := by
  unfold finishModule
  refine Gated.look (fun _ _ => rfl) fun _ => Gated.look (fun _ _ => rfl) fun _ => ?_
  refine Gated.look (fun _ _ => rfl) fun _ => Gated.look (fun _ _ => rfl) fun _ => ?_
  refine Gated.bind (requireIf_gated .multiValue fun _ _ => rfl) ?_
  refine Gated.bind (requireIf_gated .mutableGlobals fun _ _ => rfl) ?_
  refine Gated.bind (requireIf_gated .refTypes fun _ _ => rfl) ?_
  exact Gated.pure (fun _ => rfl) fun _ _ => rfl

theorem parseModule_gated (hsections : ∀ id payload, FeatureGated (sections id payload)) (binary : List (BitVec 8)) :
    Gated (ModuleError.read .disabledFeature) fun start => parseModule sections start binary := by
  intro start s h
  obtain ⟨cs, hcs, rfl, -⟩ := parseModule_ok_iff.1 h
  have hbodies : FeatureGated fun p =>
      runBodies (fun byte body p => parseSection sections byte body.length body p) cs p := by
    refine Gated.foldlM ?_ cs
    intro c
    exact parseSection_gated hsections c.tag c.body.length c.body
  have hparse : Gated (ModuleError.read .disabledFeature) fun start =>
      parseModule sections start (moduleHeader ++ cs.flatMap Chunk.units) := by
    simp only [parseModule_chunks hcs]
    exact Gated.mapError (Gated.bind (Gated.atFst hbodies 0) (Gated.onSnd fun _ => finishModule_gated)) ModuleError.read
  exact hparse start s h

theorem checkFeatures_map {β : Type} (s : ModuleState τ) (enabled : ModuleFeature → Bool) (b : β) :
    ((checkFeatures s enabled).map fun _ => b).mapError ModuleError.read =
      if ∀ f ∈ s.required, enabled f = true then .ok b else .error (.read .disabledFeature) := by
  rw [checkFeatures, readEnsure]
  split <;> rfl

/-- a module has no more features than its parser was given -/
theorem parseModule_enabled (hsections : ∀ id payload, FeatureGated (sections id payload)) {start s : ModuleState τ}
    (hstart : start.required = []) {binary : List (BitVec 8)} (h : parseModule sections start binary = .ok s) :
    s.enabled = start.enabled ∧ ∀ f ∈ s.required, start.enabled f = true := by
  have hself := (parseModule_gated hsections binary).reopened hstart h start.enabled
  have hsame : withOpen start start.enabled = start := rfl
  rw [hsame, h] at hself
  split_ifs at hself with hall
  have henabled : s.enabled = (withOpen s start.enabled).enabled := congrArg ModuleState.enabled (Except.ok.inj hself)
  exact ⟨henabled, hall⟩

end Features

end Wah
