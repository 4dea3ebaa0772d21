import Liquet.Erc8004.Unresolvable

/-!
The demo `src/bin/xvm_demo.rs`, with the live screen of the feature `wire-xvm`
and without it. With the screen it decides as the validator does under the
default policy, and panics where the validator gives up. The screen only
withholds: it adds its reasons behind those the demo has without it.
-/

namespace Liquet

open Text Gate Probatio XvmCustos Result Erc8004

/-! ### The binary -/

namespace XvmDemo

def reconcileDebug : ReconcileVerdict → String
  | .matched => "Matched"
  | .halfOpen => "HalfOpen"
  | .mismatch => "Mismatch"
  | .unverifiable => "Unverifiable"

/-- The lines `run` prints, the one on Custos only with the live screen. -/
def report (name gloss : String) (reconcile : ReconcileVerdict) (custos : Option Severity)
    (decision : LiquetDecision) : List String :=
  ["── " ++ name, "   reconcile : " ++ reconcileDebug reconcile] ++
    (custos.map fun level => "   custos    : " ++ severityDebug level ++ " (real replay)").toList ++
    ["   decision  : " ++ LiquetDecision.codec.toText decision, "   " ++ gloss, ""]

/-- `run` with the feature `wire-xvm`. `none` is a panic. -/
def run (X : Producers) (name gloss : String) (evm : X.EvmPaySpec)
    (svmLeg : SvmReconstruction X.Account X.Transaction) (claim : X.Claim) :
    Option (List String) := do
  let evmLeg ← (X.reconstructEvmLeg evm).toOption
  let receipt := X.reconcile evmLeg.leg svmLeg.leg claim
  let cross := crossvmFromReceipt receipt evmLeg.leg svmLeg.leg
  let invariant ← (invariantFromSvmLeg X svmLeg).toOption
  let decision := decideCrossvm cross invariant .default
  some (report name gloss cross.reconcile (some invariant.level) decision)

/-- `run` without it: a green placeholder stands in for the screen. -/
def runPlaceholder (X : Producers) (name gloss : String) (evm : X.EvmPaySpec)
    (svmLeg : SvmReconstruction X.Account X.Transaction) (claim : X.Claim) :
    Option (List String) := do
  let evmLeg ← (X.reconstructEvmLeg evm).toOption
  let receipt := X.reconcile evmLeg.leg svmLeg.leg claim
  let cross := crossvmFromReceipt receipt evmLeg.leg svmLeg.leg
  let decision := decideCrossvm cross .green .default
  some (report name gloss cross.reconcile none decision)

end XvmDemo

/-! ### What the screen adds -/

def LiquetDecision.reasons : LiquetDecision → List String
  | .settle _ => []
  | .hold reasons => reasons

theorem reasons_decideCrossvm (proof : CrossVmProof) (invariant : InvariantVerdict)
    (policy : GatePolicy) :
    (decideCrossvm proof invariant policy).reasons =
      reconcileReasons proof ++ invariantReasons invariant policy := by
  cases hdecision : decideCrossvm proof invariant policy with
  | settle caveats =>
      have hsettle : (decideCrossvm proof invariant policy).isSettle = true := by
        rw [hdecision]
        rfl
      obtain ⟨hmatched, hlevel⟩ := isSettle_decideCrossvm_iff.mp hsettle
      rw [reconcileReasons_eq_nil.mpr hmatched, invariantReasons_eq_nil.mpr hlevel]
      rfl
  | hold reasons => exact (decideCrossvm_eq_hold hdecision).2

section

variable {X : Producers} {P : Primitives} {req : ResolvedRequest}
  {sr : SettlementRequest X} {evm : EvmReconstruction}
  {svm : SvmReconstruction X.Account X.Transaction}

/-- The demo on the legs of a request and the validator under the default
policy are one pipeline. -/
theorem XvmDemo.run_eq (hlegs : Reconstructs X req sr evm svm) (key : SigningKey)
    (name gloss : String) :
    run X name gloss sr.evm svm sr.claim =
      (LiquetValidator.validate X P { signingKey := key, policy := .default }
        req).toOption.map fun s =>
          report name gloss s.binding.reconcile (some s.binding.invariant.level)
            s.binding.decision := by
  rw [validate_of_reconstructs hlegs, run, hlegs.evm_leg]
  cases invariantFromSvmLeg X svm with
  | error e => rfl
  | ok invariant => rfl

end

/-- On a request whose claim parses and whose legs reconstruct, the demo with
the live screen panics exactly where the validator fails, and otherwise reports
the decision the validator signs. Without the screen it never panics and
settles on every matched receipt; with it, it settles on those of them that the
screen lets pass, and its reasons are those it has without the screen and then
the screen's own. -/
theorem run_agrees {X : Producers} {P : Primitives} {req : ResolvedRequest}
    {sr : SettlementRequest X} {evm : EvmReconstruction}
    {svm : SvmReconstruction X.Account X.Transaction}
    (hlegs : Reconstructs X req sr evm svm) (key : SigningKey) (name gloss : String) :
    let V : LiquetValidator := { signingKey := key, policy := .default }
    let receipt := X.reconcile evm.leg svm.leg sr.claim
    (XvmDemo.run X name gloss sr.evm svm sr.claim = none ↔
        ∃ message, ScreenFails X svm message ∧
          V.validate X P req = .error (.unresolvable ("custos screen: " ++ message))) ∧
      ∃ d, XvmDemo.runPlaceholder X name gloss sr.evm svm sr.claim =
          some (XvmDemo.report name gloss (reconcileVerdict receipt.verdict) none d) ∧
        (d.isSettle = true ↔ receipt.verdict = .matched) ∧
        ∀ s, V.validate X P req = .ok s →
          XvmDemo.run X name gloss sr.evm svm sr.claim =
              some (XvmDemo.report name gloss s.binding.reconcile (some s.binding.invariant.level)
                s.binding.decision) ∧
            (s.binding.decision.isSettle = true ↔
              d.isSettle = true ∧ s.binding.invariant.level ≤ .info) ∧
            s.binding.decision.reasons =
              d.reasons ++ invariantReasons s.binding.invariant .default := by
  intro V receipt
  let cross := crossvmFromReceipt receipt evm.leg svm.leg
  have hgreen : invariantReasons .green .default = [] := invariantReasons_eq_nil.mpr (by decide)
  refine ⟨?_, decideCrossvm cross .green .default, ?_, ?_, fun s hvalidate => ?_⟩
  · cases hscreen : invariantFromSvmLeg X svm with
    | error e =>
        rw [@XvmDemo.run_eq X P req sr evm svm hlegs key name gloss,
          validate_of_screen_error hlegs hscreen]
        exact iff_of_true rfl ⟨e, invariantFromSvmLeg_eq_error.mp hscreen, rfl⟩
    | ok invariant =>
        rw [@XvmDemo.run_eq X P req sr evm svm hlegs key name gloss,
          validate_of_reconstructs hlegs, hscreen]
        refine iff_of_false (Option.some_ne_none _) ?_
        rintro ⟨message, hfails, -⟩
        rw [invariantFromSvmLeg_eq_error.mpr hfails] at hscreen
        cases hscreen
  · rw [XvmDemo.runPlaceholder, hlegs.evm_leg]
    rfl
  · rw [isSettle_decideCrossvm_iff, and_iff_left (by decide)]
    exact reconcileVerdict_eq_matched
  · have hrun := @XvmDemo.run_eq X P req sr evm svm hlegs key name gloss
    rw [hvalidate] at hrun
    refine ⟨hrun, ?_⟩
    rw [validate_of_reconstructs hlegs] at hvalidate
    obtain ⟨invariant, -, hsigned⟩ := bind_eq_ok.mp hvalidate
    obtain rfl := Except.ok.inj hsigned
    show ((decideCrossvm cross invariant .default).isSettle = true ↔ _ ∧ invariant.level ≤ .info) ∧
      (decideCrossvm cross invariant .default).reasons = _
    refine ⟨?_, ?_⟩
    · rw [isSettle_decideCrossvm_iff, isSettle_decideCrossvm_iff, and_assoc]
      refine and_congr_right fun _ => (and_iff_right ?_).symm
      decide
    · rw [reasons_decideCrossvm, reasons_decideCrossvm, hgreen, List.append_nil]
      rfl

/-- The benign settlement: it is settled on with the screen as without. -/
theorem run_agrees_delivered :
    ∃ (d : LiquetDecision) (s : SignedDecision),
      d.isSettle = true ∧ s.binding.decision.isSettle = true ∧
      XvmDemo.runPlaceholder (Recorded.producers Recorded.delivered) "benign atomic settlement" ""
          Json.null (recordedSvm Recorded.delivered) Json.null =
        some (XvmDemo.report "benign atomic settlement" "" .matched none d) ∧
      XvmDemo.run (Recorded.producers Recorded.delivered) "benign atomic settlement" "" Json.null
          (recordedSvm Recorded.delivered) Json.null =
        some (XvmDemo.report "benign atomic settlement" "" s.binding.reconcile
          (some s.binding.invariant.level) s.binding.decision) := by
  obtain ⟨-, d, hplaceholder, hmatched, hvalidated⟩ :=
    @run_agrees _ Reference.primitives _ _ _ _ (reconstructs_recorded Recorded.delivered)
      Reference.operatorKey "benign atomic settlement" ""
  obtain ⟨s, hs, hbinding⟩ := validate_recorded Reference.primitives
  obtain ⟨hrun, hsettle, -⟩ := hvalidated s hs
  have hlevel : s.binding.invariant.level ≤ .info := by
    rw [hbinding]
    decide
  exact ⟨d, s, hmatched.mpr rfl, hsettle.mpr ⟨hmatched.mpr rfl, hlevel⟩, hplaceholder, hrun⟩

end Liquet
