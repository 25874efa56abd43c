/-
What `required_features` tell of a module.

Contexts compare the features that a module has asked for with their own when they link or instantiate it. The parsers of all
but custom, data count, function, memory and tag sections are any that reach the features through `wah_require_feature`.

Results:
- `required_features_exact`: the check of a context answers what parsing the binary with the features of that context
  would have answered;
- `required_features_least`: the recorded features are the least ones that the binary parses with.
-/
import Wah.Declarations

namespace Wah

open Gating

/-- all section parsers -/
def askingSections (others : SectionId → AskingParser Declared) : SectionParsers Declared :=
  declSections fun id => (others id).parse

variable {others : SectionId → AskingParser Declared}

theorem askingSections_gated (id : SectionId) (payload : List (BitVec 8)) :
    FeatureGated (askingSections others id payload) :=
  declSections_gated (fun id payload => (others id).parse_gated payload) id payload

/-! ## Bitmaps -/

theorem shift_inj {f g : ModuleFeature} : f.shift = g.shift ↔ f = g := by
  constructor
  · intro h
    cases f <;> cases g <;> first | rfl | cases h
  · exact congrArg ModuleFeature.shift

theorem getLsbD_bit (f g : ModuleFeature) : f.bit.getLsbD g.shift = decide (f = g) := by
  have hlt : f.shift < 64 := by cases f <;> decide
  simp only [ModuleFeature.bit, BitVec.getLsbD_twoPow, hlt, decide_true, Bool.true_and, shift_inj]

theorem bitFeatures_requiredBits {τ : Type} (s : ModuleState τ) : bitFeatures s.requiredBits = s.requiredFeatures := by
  funext f
  unfold bitFeatures ModuleState.requiredBits ModuleState.requiredFeatures
  induction s.required with
  | nil => simp
  | cons g fs ih =>
    rw [List.foldr_cons, BitVec.getLsbD_or, ih, getLsbD_bit, Bool.eq_iff_iff]
    simp only [Bool.or_eq_true, decide_eq_true_eq, List.mem_cons, @eq_comm _ f g, or_comm]

/-- with `WAH_FEATURE_MVP` a bitmap stands for itself -/
theorem requestedFeatures_mvp (defaults bits : BitVec 64) :
    requestedFeatures defaults (bits ||| mvpBit) = bitFeatures bits := by
  have hne : bits ||| mvpBit ≠ 0 := by
    intro h
    have := congrArg (BitVec.getLsbD · 0) h
    simp [mvpBit] at this
  funext f
  have hpos : f.shift ≠ 0 := by cases f <;> decide
  rw [requestedFeatures, if_pos hne, bitFeatures, bitFeatures, BitVec.getLsbD_or]
  simp [mvpBit, hpos]

/-! ## Results -/

/-- **Linking.** A module passes the check of a context exactly when its binary would have parsed with the features of that
context, and it would have been the same module. The check of a context made for the module itself never fails. -/
theorem required_features_exact {compiled : ModuleFeature → Bool} {defaults requested : BitVec 64}
    {binary : List (BitVec 8)} {s : DeclModule}
    (h : parseModule (askingSections others) (initialModule compiled defaults requested {}) binary = .ok s) :
    checkFeatures s s.enabled = .ok () ∧
      ∀ enabled, parseModule (askingSections others) { enabled, rest := {} } binary =
        ((checkFeatures s enabled).map fun _ => s.withFeatures enabled).mapError .read := by
  constructor
  · obtain ⟨henabled, hall⟩ := parseModule_enabled askingSections_gated rfl h
    rw [checkFeatures, readEnsure, henabled, if_pos hall]
  · intro enabled
    rw [checkFeatures_map]
    exact (parseModule_gated askingSections_gated binary).reopened rfl h enabled

/-- code sections ask for SIMD -/
def simdParsers (id : SectionId) : AskingParser Declared := fun payload s =>
  (if id = .code then [.simd] else [], .ok (payload.length, s))

/-- a module that is given all features, and asks for one in its data count section and one in its code section -/
def countedModule : DeclModule := { openModule with required := [.simd, .bulkMemory], hasDataCountSection := true }

theorem countedModule_parsed :
    parseModule (askingSections simdParsers) openModule (moduleHeader ++ [12, 1, 0, 10, 1, 0]) = .ok countedModule := by
  refine parseModule_ok_iff.2 ⟨[⟨12, [1], [0]⟩, ⟨10, [1], [0]⟩], ?_, rfl, (12, _), rfl, rfl⟩
  simp only [List.forall_mem_cons, List.not_mem_nil, false_implies, implies_true, and_true]
  exact ⟨.final (by decide) (by decide), .final (by decide) (by decide)⟩

theorem required_features_exact_counted :
    parseModule (askingSections simdParsers) { enabled := fun f => decide (f ≠ .simd), rest := {} }
      (moduleHeader ++ [12, 1, 0, 10, 1, 0]) = .error (.read .disabledFeature) :=
  (required_features_exact countedModule_parsed).2 fun f => decide (f ≠ .simd)

/-- **Options.** Given back as options, alone or with `WAH_FEATURE_MVP`, the recorded features parse the binary to the same
module. With it they are the least request: whatever parses the binary stands for features that bring them all. -/
theorem required_features_least {compiled : ModuleFeature → Bool} {defaults requested : BitVec 64}
    {binary : List (BitVec 8)} {s : DeclModule}
    (h : parseModule (askingSections others) (initialModule compiled defaults requested {}) binary = .ok s) :
    (∀ bits, bits = s.requiredBits ∨ bits = s.requiredBits ||| mvpBit →
      parseModule (askingSections others) (initialModule compiled defaults bits {}) binary =
        .ok (s.withFeatures (enabledFeatures compiled defaults bits))) ∧
    requestedFeatures defaults (s.requiredBits ||| mvpBit) = s.requiredFeatures ∧
    ∀ bits, (∃ s', parseModule (askingSections others) (initialModule compiled defaults bits {}) binary = .ok s') ↔
      featureClosure s.requiredFeatures ≤ featureClosure (requestedFeatures defaults bits) := by
  have hcompiled : ∀ f ∈ s.required, compiled f = true := by
    intro f hf
    have hf' := (parseModule_enabled askingSections_gated rfl h).2 f hf
    exact (Bool.and_eq_true_iff.1 hf').2
  have hcovered : ∀ bits, (∀ f ∈ s.required, enabledFeatures compiled defaults bits f = true) ↔
      featureClosure s.requiredFeatures ≤ featureClosure (requestedFeatures defaults bits) := by
    intro bits
    have hclosure : s.requiredFeatures ≤ featureClosure (requestedFeatures defaults bits) ↔
        featureClosure s.requiredFeatures ≤ featureClosure (requestedFeatures defaults bits) :=
      featureClosureOperator.le_closure_iff
    rw [← hclosure]
    constructor
    · intro h f
      rw [Bool.le_iff_imp]
      intro hf
      exact (Bool.and_eq_true_iff.1 (h f (of_decide_eq_true hf))).1
    · intro h f hf
      exact Bool.and_eq_true_iff.2 ⟨Bool.le_iff_imp.1 (h f) (decide_eq_true hf), hcompiled f hf⟩
  have hagain : ∀ bits, parseModule (askingSections others) (initialModule compiled defaults bits {}) binary =
      if ∀ f ∈ s.required, enabledFeatures compiled defaults bits f = true then
        .ok (s.withFeatures (enabledFeatures compiled defaults bits)) else .error (.read .disabledFeature) :=
    fun bits => (parseModule_gated askingSections_gated binary).reopened rfl h (enabledFeatures compiled defaults bits)
  have hleast : requestedFeatures defaults (s.requiredBits ||| mvpBit) = s.requiredFeatures := by
    rw [requestedFeatures_mvp, bitFeatures_requiredBits]
  refine ⟨fun bits hbits => ?_, hleast, fun bits => ?_⟩
  · rw [hagain, if_pos]
    rcases hbits with rfl | rfl
    · by_cases hnone : s.requiredBits = 0
      · intro f hf
        have hf' : s.requiredFeatures f = true := decide_eq_true hf
        rw [← bitFeatures_requiredBits, hnone] at hf'
        simp [bitFeatures] at hf'
      · have hsame : requestedFeatures defaults s.requiredBits = s.requiredFeatures := by
          rw [requestedFeatures, if_pos hnone, bitFeatures_requiredBits]
        exact (hcovered _).2 (by rw [hsame])
    · exact (hcovered _).2 (by rw [hleast])
  · rw [hagain, ← hcovered]
    split_ifs with hall
    · exact ⟨fun _ => hall, fun _ => ⟨_, rfl⟩⟩
    · exact ⟨fun ⟨_, h⟩ => (nomatch h), fun h => absurd h hall⟩

/-- SIMD is missing -/
theorem required_features_least_counted :
    ¬ ∃ s, parseModule (askingSections simdParsers)
      (initialModule (fun _ => true) (BitVec.allOnes 64) ModuleFeature.bulkMemory.bit {})
      (moduleHeader ++ [12, 1, 0, 10, 1, 0]) = .ok s := by
  intro hparses
  have hle := ((required_features_least countedModule_parsed).2.2 ModuleFeature.bulkMemory.bit).1 hparses
  exact absurd (hle .simd) (by decide)

end Wah
