import Liquet.Erc8004.LiquetValidator

/-!
What a recipient can audit from a binding alone. The gate's decision must
follow from the verdicts and the policy bound beside it, up to the text of the
reconcile reasons, which the binding does not hold. The audit passes on the
bindings the gate produces and on no others.
-/

namespace Liquet

open Gate

def PolicySnapshot.gatePolicy (p : PolicySnapshot) : GatePolicy :=
  { maxSettleSeverity := p.maxSettleSeverity
    requireExecuted := p.requireExecuted
    requireRecoveredFacts := p.requireRecoveredFacts }

@[simp] theorem PolicySnapshot.of_gatePolicy (p : PolicySnapshot) : .of p.gatePolicy = p := rfl

@[simp] theorem PolicySnapshot.gatePolicy_of (p : GatePolicy) :
    (PolicySnapshot.of p).gatePolicy = p := rfl

/-- What the reason for a verdict that is not `Matched` opens with. -/
def Gate.reconcileHeading : ReconcileVerdict → String
  | .matched => ""
  | .halfOpen => "cross-VM settlement half-open — exactly one leg settled (funds in-flight): "
  | .mismatch => "cross-VM mismatch vs intent: "
  | .unverifiable => "cross-VM leg unverifiable: "

theorem Gate.reconcileReasons_eq {proof : CrossVmProof} (h : proof.reconcile ≠ .matched) :
    reconcileReasons proof = [reconcileHeading proof.reconcile ++ joinedReasons proof] := by
  rw [reconcileReasons]
  cases hverdict : proof.reconcile with
  | matched => exact absurd hverdict h
  | halfOpen | mismatch | unverifiable => rfl

/-- Does the decision follow from what is bound beside it? -/
def DecisionBinding.audits (b : DecisionBinding) : Bool :=
  let reasons := invariantReasons b.invariant b.policy.gatePolicy
  if b.reconcile = .matched then
    b.decision = if reasons.isEmpty then .settle [] else .hold reasons
  else
    match b.decision with
    | .hold (first :: rest) =>
        (reconcileHeading b.reconcile).toList.isPrefixOf first.toList && rest = reasons
    | _ => false

section

variable {b : DecisionBinding}

theorem audits_of_matched (h : b.reconcile = .matched) :
    b.audits = true ↔ b.decision =
      if invariantReasons b.invariant b.policy.gatePolicy = [] then .settle []
      else .hold (invariantReasons b.invariant b.policy.gatePolicy) := by
  rw [DecisionBinding.audits]
  simp only [if_pos h, decide_eq_true_iff, List.isEmpty_iff]

theorem audits_of_ne_matched (h : b.reconcile ≠ .matched) :
    b.audits = true ↔ ∃ text, b.decision = .hold ((reconcileHeading b.reconcile ++ text) ::
      invariantReasons b.invariant b.policy.gatePolicy) := by
  rw [DecisionBinding.audits]
  simp only [if_neg h]
  constructor
  · intro haudits
    split at haudits
    · rename_i first rest hdecision
      rw [Bool.and_eq_true, List.isPrefixOf_iff_prefix, decide_eq_true_iff] at haudits
      obtain ⟨⟨text, htext⟩, rfl⟩ := haudits
      have hfirst : first = reconcileHeading b.reconcile ++ String.ofList text := by
        rw [← String.toList_inj, String.toList_append, String.toList_ofList, htext]
      exact ⟨String.ofList text, by rw [hdecision, hfirst]⟩
    · cases haudits
  · rintro ⟨text, hdecision⟩
    rw [hdecision]
    simp

/-- The gate's bindings pass. -/
theorem audits_new (proof : CrossVmProof) (invariant : InvariantVerdict) (policy : GatePolicy) :
    (DecisionBinding.new proof invariant policy
      (decideCrossvm proof invariant policy)).audits = true := by
  by_cases h : proof.reconcile = .matched
  · rw [audits_of_matched h]
    show decideCrossvm proof invariant policy =
      if invariantReasons invariant policy = [] then .settle []
      else .hold (invariantReasons invariant policy)
    rw [decideCrossvm, reconcileReasons_eq_nil.mpr h, List.nil_append]
    simp only [List.isEmpty_iff]
  · rw [audits_of_ne_matched h]
    refine ⟨joinedReasons proof, ?_⟩
    show decideCrossvm proof invariant policy = _
    rw [decideCrossvm, reconcileReasons_eq h]
    rfl

def LegDigest.leg (l : LegDigest) : ReexecProof :=
  { vm := l.vm, executed := l.executed, poststateDigest := l.poststateDigest
    coveredAccounts := [], factsSource := .producerRecovered, asset := none, amount := none
    recipient := none, unverifiableReason := none }

/-- A proof with the bound facts, and these reasons. -/
def DecisionBinding.proof (b : DecisionBinding) (reasons : List String) : CrossVmProof :=
  { reconcile := b.reconcile, reasons, legs := b.legs.map LegDigest.leg, claimHash := b.claimHash
    settlementId := b.settlementId }

theorem new_proof (b : DecisionBinding) (reasons : List String) (decision : LiquetDecision) :
    DecisionBinding.new (b.proof reasons) b.invariant b.policy.gatePolicy decision =
      { b with decision } := by
  have hlegs : (b.proof reasons).legs.map LegDigest.of = b.legs := by
    rw [DecisionBinding.proof, List.map_map]
    exact List.map_id _
  rw [DecisionBinding.new, hlegs]
  rfl

/-- And every binding that passes is one of them: any text can be that of the
reconcile reasons. -/
theorem exists_of_audits (h : b.audits = true) :
    ∃ proof invariant policy,
      DecisionBinding.new proof invariant policy (decideCrossvm proof invariant policy) = b := by
  by_cases hmatched : b.reconcile = .matched
  · refine ⟨b.proof [], b.invariant, b.policy.gatePolicy, ?_⟩
    have hreasons : reconcileReasons (b.proof []) = [] := reconcileReasons_eq_nil.mpr hmatched
    rw [new_proof, decideCrossvm, hreasons, List.nil_append]
    simp only [List.isEmpty_iff]
    rw [← (audits_of_matched hmatched).mp h]
  · obtain ⟨text, hdecision⟩ := (audits_of_ne_matched hmatched).mp h
    refine ⟨b.proof [text], b.invariant, b.policy.gatePolicy, ?_⟩
    have hreasons : reconcileReasons (b.proof [text]) = [reconcileHeading b.reconcile ++ text] := by
      rw [reconcileReasons_eq hmatched, joinedReasons]
      show [reconcileHeading b.reconcile ++ String.intercalate "; " [text]] = _
      rw [String.intercalate_singleton]
    rw [new_proof, decideCrossvm, hreasons, List.singleton_append]
    dsimp only [List.isEmpty_cons]
    rw [if_neg Bool.false_ne_true, ← hdecision]

end

/-- The audit passes exactly on the bindings of the gate's decisions, and so on
all the wired validator signs. It leaves no choice of decision under a matched
verdict, and otherwise only that of the reconcile reasons' text: no binding
passes with a false explanation. -/
theorem audits_exact (b : DecisionBinding) :
    (b.audits = true ↔ ∃ proof invariant policy,
        DecisionBinding.new proof invariant policy (decideCrossvm proof invariant policy) = b) ∧
      (∀ X P (V : Erc8004.LiquetValidator) req s, V.validate X P req = .ok s →
        s.binding.audits = true) ∧
      (b.audits = true → ∀ decision, { b with decision }.audits = true →
        (b.reconcile = .matched → decision = b.decision) ∧
          (b.reconcile ≠ .matched → ∃ text text' rest,
            b.decision = .hold ((reconcileHeading b.reconcile ++ text) :: rest) ∧
              decision = .hold ((reconcileHeading b.reconcile ++ text') :: rest))) := by
  refine ⟨⟨exists_of_audits, ?_⟩, ?_, ?_⟩
  · rintro ⟨proof, invariant, policy, rfl⟩
    exact audits_new proof invariant policy
  · intro X P V req s hvalidate
    obtain ⟨sr, evm, svm, invariant, -, -, rfl⟩ := Erc8004.validate_eq_ok.mp hvalidate
    exact audits_new _ _ _
  · intro haudits decision haudits'
    refine ⟨fun hmatched => ?_, fun hmatched => ?_⟩
    · rw [(audits_of_matched hmatched).mp haudits]
      exact (@audits_of_matched { b with decision } hmatched).mp haudits'
    · obtain ⟨text, hdecision⟩ := (audits_of_ne_matched hmatched).mp haudits
      obtain ⟨text', hdecision'⟩ :=
        (@audits_of_ne_matched { b with decision } hmatched).mp haudits'
      exact ⟨text, text', _, hdecision, hdecision'⟩

end Liquet
