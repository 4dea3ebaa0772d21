import Liquet.Adapters.Producers
import Liquet.Seam

/-!
The adapter `src/adapters/probatio.rs`: a reconcile receipt and its two legs as
slot 1.
-/

namespace Liquet.Probatio

def reconcileVerdict : XvmVerdict → ReconcileVerdict
  | .matched => .matched
  | .halfOpen => .halfOpen
  | .mismatch => .mismatch
  | .unverifiable => .unverifiable

def proofFromLeg (leg : ReconstructedLeg) : ReexecProof :=
  { vm := if leg.vm = .evm then .evm else .svm
    executed := leg.executed
    poststateDigest := leg.reexecDigest
    coveredAccounts := []
    factsSource := .producerRecovered
    asset := leg.asset
    amount := leg.amount
    recipient := leg.recipient
    unverifiableReason := leg.unverifiableReason }

def crossvmFromReceipt (receipt : XvmReceipt) (evmLeg svmLeg : ReconstructedLeg) : CrossVmProof :=
  { reconcile := reconcileVerdict receipt.verdict
    reasons := receipt.reasons
    legs := [proofFromLeg evmLeg, proofFromLeg svmLeg]
    claimHash := receipt.claimHash
    settlementId := receipt.settlementId }

@[simp] theorem reconcileVerdict_eq_matched {v : XvmVerdict} :
    reconcileVerdict v = .matched ↔ v = .matched := by
  cases v <;> simp [reconcileVerdict]

end Liquet.Probatio
