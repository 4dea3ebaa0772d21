import Liquet.Adapters.Probatio
import Liquet.Adapters.XvmCustos
import Liquet.Erc8004.Runs

/-!
The wired validator of `src/erc8004/liquet_validator.rs`: it parses a claim,
re-executes and reconciles its two legs, screens the delivery leg, gates and
signs. The producers are arbitrary functions throughout.
-/

namespace Liquet.Erc8004

open Text Codec Result Probatio CustosEngine XvmCustos ContentAddressed

/-! ### The pipeline -/

/-- The claim payload fetched from the request's URI. -/
structure SettlementRequest (X : Producers) where
  evm : X.EvmPaySpec
  svm : X.SvmTransferSpec
  claim : X.Claim
  malice : X.SvmMalice

/-- The derived reader; `malice` has the default `no_malice`. -/
def SettlementRequest.read (X : Producers) (j : Json) : Option (SettlementRequest X) := do
  let fields ← structFields ["evm", "svm", "claim", "malice"] j
  let evm ← required X.readEvmPaySpec "evm" fields
  let svm ← required X.readSvmTransferSpec "svm" fields
  let claim ← required X.readClaim "claim" fields
  let malice ← defaulted X.readSvmMalice X.noMalice "malice" fields
  some { evm, svm, claim, malice }

def SettlementRequest.parse (X : Producers) (claimJson : String) : Option (SettlementRequest X) :=
  (Json.parse claimJson).bind (SettlementRequest.read X)

structure LiquetValidator where
  signingKey : SigningKey
  policy : GatePolicy

namespace LiquetValidator

def signerHex (P : Primitives) (V : LiquetValidator) : String := Liquet.signerHex P V.signingKey

/-- Gate: the decision on both slots, bound to them and the policy. -/
def bindDecision (V : LiquetValidator) (cross : CrossVmProof) (invariant : InvariantVerdict) :
    DecisionBinding :=
  DecisionBinding.new cross invariant V.policy (Gate.decideCrossvm cross invariant V.policy)

def signedFor (P : Primitives) (V : LiquetValidator) (receipt : XvmReceipt)
    (evmLeg svmLeg : ReconstructedLeg) (invariant : InvariantVerdict) : SignedDecision :=
  signDecision P (V.bindDecision (crossvmFromReceipt receipt evmLeg svmLeg) invariant) V.signingKey

def validate (X : Producers) (P : Primitives) (V : LiquetValidator) : SettlementValidator :=
  fun request => do
    let sr ← okOr (SettlementRequest.parse X request.claimJson)
      (.unresolvable ("parse claim_json: " ++ X.claimErrorText request.claimJson))
    let evm ← (X.reconstructEvmLeg sr.evm).mapError fun e => .unresolvable ("evm leg: " ++ e)
    let svm ← (X.reconstructSvmLegWithMalice sr.svm sr.malice).mapError fun e =>
      .unresolvable ("svm leg: " ++ e)
    let receipt := X.reconcile evm.leg svm.leg sr.claim
    -- the screen runs whatever the receipt says, and its error ends the request
    let invariant ← (invariantFromSvmLeg X svm).mapError fun e =>
      .unresolvable ("custos screen: " ++ e)
    .ok (V.signedFor P receipt evm.leg svm.leg invariant)

end LiquetValidator

/-! ### Its stages -/

structure Reconstructs (X : Producers) (req : ResolvedRequest) (sr : SettlementRequest X)
    (evm : EvmReconstruction) (svm : SvmReconstruction X.Account X.Transaction) : Prop where
  parses : SettlementRequest.parse X req.claimJson = some sr
  evm_leg : X.reconstructEvmLeg sr.evm = .ok evm
  svm_leg : X.reconstructSvmLegWithMalice sr.svm sr.malice = .ok svm

section

variable {X : Producers} {P : Primitives} {V : LiquetValidator} {req : ResolvedRequest}
  {sr : SettlementRequest X} {evm : EvmReconstruction}
  {svm : SvmReconstruction X.Account X.Transaction}

theorem validate_of_reconstructs (h : Reconstructs X req sr evm svm) :
    V.validate X P req =
      (invariantFromSvmLeg X svm).mapError (fun e => .unresolvable ("custos screen: " ++ e)) >>=
        fun invariant => .ok
          (V.signedFor P (X.reconcile evm.leg svm.leg sr.claim) evm.leg svm.leg invariant) := by
  rw [LiquetValidator.validate, h.parses]
  simp only [okOr, bind_ok, h.evm_leg, h.svm_leg, mapError_ok]

theorem reconstructs_of_validate {s : SignedDecision} (h : V.validate X P req = .ok s) :
    ∃ sr evm svm, Reconstructs X req sr evm svm := by
  rw [LiquetValidator.validate] at h
  obtain ⟨sr, hparse, h⟩ := bind_eq_ok.mp h
  obtain ⟨evm, hevm, h⟩ := bind_eq_ok.mp h
  obtain ⟨svm, hsvm, -⟩ := bind_eq_ok.mp h
  exact ⟨sr, evm, svm, okOr_eq_ok.mp hparse, mapError_eq_ok.mp hevm, mapError_eq_ok.mp hsvm⟩

/-- The validator signs exactly when every stage before the gate succeeds, and
then the gate's decision on the mapped slots. -/
theorem validate_eq_ok {s : SignedDecision} :
    V.validate X P req = .ok s ↔
      ∃ sr evm svm invariant, Reconstructs X req sr evm svm ∧
        invariantFromSvmLeg X svm = .ok invariant ∧
        s = V.signedFor P (X.reconcile evm.leg svm.leg sr.claim) evm.leg svm.leg invariant := by
  constructor
  · intro h
    obtain ⟨sr, evm, svm, hlegs⟩ := reconstructs_of_validate h
    rw [validate_of_reconstructs hlegs] at h
    obtain ⟨invariant, hinvariant, h⟩ := bind_eq_ok.mp h
    exact ⟨sr, evm, svm, invariant, hlegs, mapError_eq_ok.mp hinvariant, (Except.ok.inj h).symm⟩
  · rintro ⟨sr, evm, svm, invariant, hlegs, hinvariant, rfl⟩
    rw [validate_of_reconstructs hlegs, hinvariant]
    rfl

theorem validate_of_screen_error {e : String} (h : Reconstructs X req sr evm svm)
    (hscreen : invariantFromSvmLeg X svm = .error e) :
    V.validate X P req = .error (.unresolvable ("custos screen: " ++ e)) := by
  rw [validate_of_reconstructs h, hscreen]
  rfl

end

/-! ### Every verdict reaches the registry -/

def Responds (handled : Except ValidateError OnChainAction × MemStore) (req : ResolvedRequest)
    (response : UInt8) (tag : String) : Prop :=
  ∃ uri hash, handled.1 = .ok (.respond req.requestHash response uri hash tag)

/-- The request is resolved, and its answer is what the reconcile verdict
means: abstain and leave the store alone, a fail with the verdict's tag, or a
pass subject to the screen. -/
def VerdictReaches (X : Producers) (P : Primitives) (V : LiquetValidator) (req : ResolvedRequest)
    (store : MemStore) (receipt : XvmReceipt) (screened : CustosEngine.Verdict) : Prop :=
  let handled := handleRequest P (MemStore.evidenceStore P) req (V.validate X P) store
  (∀ message, handled.1 ≠ .error (.unresolvable message)) ∧
    match receipt.verdict with
    | .unverifiable => handled = (.ok (.abstain req.requestHash "unverifiable"), store)
    | .halfOpen => Responds handled req 0 "half-open"
    | .mismatch => Responds handled req 0 "mismatch"
    | .matched =>
        if Custos.severityFromLevel screened.level ≤ V.policy.maxSettleSeverity then
          Responds handled req 100 "matched"
        else Responds handled req 0 "unsafe"

section

variable {X : Producers} {P : Primitives} {V : LiquetValidator} {req : ResolvedRequest}
  {store : MemStore} {sr : SettlementRequest X} {evm : EvmReconstruction}
  {svm : SvmReconstruction X.Account X.Transaction} {outcome : Outcome} {before after : UInt64}

theorem responseAndTag_bindDecision (V : LiquetValidator) (receipt : XvmReceipt)
    (evmLeg svmLeg : ReconstructedLeg) (invariant : InvariantVerdict) :
    responseAndTag (V.bindDecision (crossvmFromReceipt receipt evmLeg svmLeg) invariant) =
      match receipt.verdict with
      | .unverifiable => (none, tagUnverifiable)
      | .halfOpen => (some fail, tagHalfOpen)
      | .mismatch => (some fail, tagMismatch)
      | .matched =>
          if invariant.level ≤ V.policy.maxSettleSeverity then (some pass, tagMatched)
          else (some fail, tagUnsafe) := by
  have hreconcile : (V.bindDecision (crossvmFromReceipt receipt evmLeg svmLeg) invariant).reconcile =
      reconcileVerdict receipt.verdict := rfl
  have hsettle := @Gate.isSettle_decideCrossvm_iff (crossvmFromReceipt receipt evmLeg svmLeg)
    invariant V.policy
  rw [responseAndTag, hreconcile]
  cases hverdict : receipt.verdict with
  | matched =>
      have hmatched : (crossvmFromReceipt receipt evmLeg svmLeg).reconcile = .matched :=
        reconcileVerdict_eq_matched.mpr hverdict
      simp only [hmatched, true_and] at hsettle
      exact if_congr hsettle rfl rfl
  | halfOpen => rfl
  | mismatch => rfl
  | unverifiable => rfl

theorem verdictReaches_of_success (hlegs : Reconstructs X req sr evm svm)
    (hreplays : Replays X svm outcome) (hrecipient : RecipientHolds X svm outcome before after)
    (hdelivers : DeliversLeg svm.leg before after) (hsuccess : outcome.success = true) :
    VerdictReaches X P V req store (X.reconcile evm.leg svm.leg sr.claim)
      (X.evaluate outcome X.defaultBank) := by
  have hscreen := invariantFromSvmLeg_eq_ok.mpr
    ⟨outcome, before, after, hreplays, hsuccess, hrecipient, hdelivers, rfl⟩
  have hvalidate : V.validate X P req = .ok _ :=
    validate_eq_ok.mpr ⟨sr, evm, svm, _, hlegs, hscreen, rfl⟩
  have hresponse := responseAndTag_bindDecision V (X.reconcile evm.leg svm.leg sr.claim) evm.leg
    svm.leg (Custos.verdictFromCustos X (X.evaluate outcome X.defaultBank))
  unfold VerdictReaches
  dsimp only
  cases hverdict : (X.reconcile evm.leg svm.leg sr.claim).verdict with
  | matched =>
      simp only [hverdict] at hresponse
      by_cases hlevel : Custos.severityFromLevel (X.evaluate outcome X.defaultBank).level ≤
          V.policy.maxSettleSeverity
      · rw [if_pos hlevel,
          handleRequest_of_response hvalidate (hresponse.trans (if_pos hlevel)) store]
        exact ⟨nofun, _, _, rfl⟩
      · rw [if_neg hlevel,
          handleRequest_of_response hvalidate (hresponse.trans (if_neg hlevel)) store]
        exact ⟨nofun, _, _, rfl⟩
  | halfOpen =>
      simp only [hverdict] at hresponse
      rw [handleRequest_of_response hvalidate hresponse store]
      exact ⟨nofun, _, _, rfl⟩
  | mismatch =>
      simp only [hverdict] at hresponse
      rw [handleRequest_of_response hvalidate hresponse store]
      exact ⟨nofun, _, _, rfl⟩
  | unverifiable =>
      simp only [hverdict] at hresponse
      rw [handleRequest_of_abstain hvalidate hresponse store]
      exact ⟨nofun, rfl⟩

theorem not_verdictReaches_of_failed (hlegs : Reconstructs X req sr evm svm)
    (hreplays : Replays X svm outcome) (hfailed : outcome.success = false) (receipt : XvmReceipt)
    (screened : CustosEngine.Verdict) :
    ¬VerdictReaches X P V req store receipt screened := by
  rintro ⟨hresolved, -⟩
  have hvalidate : V.validate X P req = _ :=
    validate_of_screen_error hlegs (invariantFromSvmLeg_of_failed hreplays hfailed)
  apply hresolved "custos screen: Custos replay transaction failed"
  rw [handleRequest_memStore, hvalidate]
  rfl

end

/-- On every request whose claim parses, whose legs reconstruct and whose
delivery leg the replay reproduces, the verdict reaches the registry with its
meaning exactly when the replayed transaction succeeds. -/
theorem verdictReaches_iff {X : Producers} {P : Primitives} {V : LiquetValidator}
    {req : ResolvedRequest} {store : MemStore} {sr : SettlementRequest X}
    {evm : EvmReconstruction} {svm : SvmReconstruction X.Account X.Transaction}
    {outcome : Outcome} {before after : UInt64} (hlegs : Reconstructs X req sr evm svm)
    (hreplays : Replays X svm outcome) (hrecipient : RecipientHolds X svm outcome before after)
    (hdelivers : DeliversLeg svm.leg before after) :
    VerdictReaches X P V req store (X.reconcile evm.leg svm.leg sr.claim)
        (X.evaluate outcome X.defaultBank) ↔
      outcome.success = true := by
  constructor
  · intro h
    by_contra hnot
    exact not_verdictReaches_of_failed hlegs hreplays (by simpa using hnot) _ _ h
  · exact verdictReaches_of_success hlegs hreplays hrecipient hdelivers

section

open Recorded

def recordedRequest : ResolvedRequest :=
  { requestHash := "0xreq", agentId := 7, claimJson := String.ofList Recorded.claim.render }

def recordedSvm (d : Delivery) :
    SvmReconstruction (producers d).Account (producers d).Transaction :=
  { leg := d.leg, prestate := [], payer := sourceAccount, payerAirdropLamports := 1000000000,
    transaction := (), watch := [sourceAccount, recipientAccount] }

def recordedSettlement (d : Delivery) : SettlementRequest (producers d) :=
  { evm := Json.null, svm := Json.null, claim := Json.null, malice := none }

def defaultValidator : LiquetValidator :=
  { signingKey := Reference.operatorKey, policy := .default }

theorem reconstructs_recorded (d : Delivery) :
    Reconstructs (producers d) recordedRequest (recordedSettlement d) { leg := evmLeg }
      (recordedSvm d) where
  parses := by
    have hclaim : Recorded.claim.NumberFree := ⟨trivial, trivial, trivial, trivial⟩
    rw [SettlementRequest.parse, recordedRequest, Json.parse_render hclaim]
    rfl
  evm_leg := rfl
  svm_leg := rfl

theorem replays_recorded (d : Delivery) : Replays (producers d) (recordedSvm d) d.outcome :=
  replays_replayInputs d

theorem recipientHolds_delivered :
    RecipientHolds (producers delivered) (recordedSvm delivered) delivered.outcome 0 25 :=
  recipientHolds_replayInputs (by decide +kernel) (by decide +kernel)

theorem recipientHolds_reverted :
    RecipientHolds (producers reverted) (recordedSvm reverted) reverted.outcome 0 0 :=
  recipientHolds_replayInputs (by decide +kernel) (by decide +kernel)

theorem deliversLeg_delivered : DeliversLeg (recordedSvm delivered).leg 0 25 := by
  rw [DeliversLeg]
  decide

theorem deliversLeg_reverted : DeliversLeg (recordedSvm reverted).leg 0 0 := by
  rw [DeliversLeg]
  decide

theorem verdictReaches_delivered :
    VerdictReaches (producers delivered) Reference.primitives defaultValidator recordedRequest .new
      { verdict := .matched, reasons := [], claimHash := "claim-abc",
        settlementId := "settlement-1" } { level := .green, findings := [] } :=
  (verdictReaches_iff (reconstructs_recorded delivered) (replays_recorded delivered)
    recipientHolds_delivered deliversLeg_delivered).mpr rfl

/-- A delivery that failed in both executions: every premise holds, the receipt
says half open, and the request is answered as unresolvable. -/
theorem reverted_unresolved :
    ¬∀ sr evm svm outcome before after,
      Reconstructs (producers reverted) recordedRequest sr evm svm →
      Replays (producers reverted) svm outcome →
      RecipientHolds (producers reverted) svm outcome before after →
      DeliversLeg svm.leg before after →
      VerdictReaches (producers reverted) Reference.primitives defaultValidator recordedRequest
        .new ((producers reverted).reconcile evm.leg svm.leg sr.claim)
        ((producers reverted).evaluate outcome (producers reverted).defaultBank) := by
  intro h
  have hreaches := h _ _ _ _ _ _ (reconstructs_recorded reverted) (replays_recorded reverted)
    recipientHolds_reverted deliversLeg_reverted
  exact not_verdictReaches_of_failed (reconstructs_recorded reverted) (replays_recorded reverted)
    rfl _ _ hreaches

end

end Liquet.Erc8004
