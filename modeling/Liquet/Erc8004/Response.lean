import Liquet.Attest

/-!
The registry surface of `src/erc8004/mod.rs`: a signed decision as the fields
of a `validationResponse`, the evidence bundle pinned beside it, and the check
a relying party makes before it trusts either.
-/

namespace Liquet.Erc8004

open Text Result

/-! ### The response map -/

def pass : UInt8 := 100

def fail : UInt8 := 0

def tagMatched : String := "matched"
def tagHalfOpen : String := "half-open"
def tagMismatch : String := "mismatch"
def tagUnsafe : String := "unsafe"
def tagUnverifiable : String := "unverifiable"

/-- The payload of a `validationResponse`. No response means abstain. -/
structure ValidationResponse where
  response : Option UInt8
  tag : String
  responseHash : String
  deriving DecidableEq, Repr

def ValidationResponse.isPublished (vr : ValidationResponse) : Bool := vr.response.isSome

/-- Score and tag of a decision: the score from the final decision, the tag
from why. -/
def responseAndTag (binding : DecisionBinding) : Option UInt8 × String :=
  match binding.reconcile with
  -- a leg could not be reconstructed: abstain, whatever was decided
  | .unverifiable => (none, tagUnverifiable)
  | .halfOpen => (some fail, tagHalfOpen)
  | .mismatch => (some fail, tagMismatch)
  | .matched =>
      if binding.decision.isSettle then (some pass, tagMatched) else (some fail, tagUnsafe)

def validationResponse (P : Primitives) (signed : SignedDecision) : ValidationResponse :=
  { response := (responseAndTag signed.binding).1
    tag := (responseAndTag signed.binding).2
    responseHash := hexEncode (signed.binding.digest P).toList }

theorem validationResponse_congr {P : Primitives} {s s' : SignedDecision}
    (h : s.binding = s'.binding) : validationResponse P s = validationResponse P s' := by
  unfold validationResponse
  rw [h]

/-! ### The evidence bundle -/

def evidenceBundleJson (signed : SignedDecision) : String := SignedDecision.codec.toText signed

/-- What `verify_bundle` parses a bundle with, `serde_json::from_str`. -/
def parseBundle (bundleJson : String) : Option SignedDecision :=
  SignedDecision.codec.ofText bundleJson

inductive BundleError
  | malformed
  | hashMismatch
  | verify (error : VerifyError)
  deriving DecidableEq, Repr

def verifyBundle (P : Primitives) (bundleJson onchainResponseHash trustedSigner : String) :
    Except BundleError ValidationResponse := do
  let signed ← okOr (parseBundle bundleJson) .malformed
  let recomputed := hexEncode (signed.binding.digest P).toList
  if !eqIgnoreAsciiCase recomputed onchainResponseHash then .error .hashMismatch
  else
    match verifyDecision P signed trustedSigner with
    | .error e => .error (.verify e)
    | .ok () => .ok (validationResponse P signed)

@[simp] theorem parseBundle_evidenceBundleJson (signed : SignedDecision) :
    parseBundle (evidenceBundleJson signed) = some signed :=
  SignedDecision.codec.ofText_toText signed

/-- The bundle format loses nothing: parsing what was written gives back the
signed decision, and so no other decision has the same bundle. -/
theorem evidenceBundle_lossless (signed : SignedDecision) :
    parseBundle (evidenceBundleJson signed) = some signed ∧
      ∀ signed', evidenceBundleJson signed' = evidenceBundleJson signed → signed' = signed := by
  refine ⟨parseBundle_evidenceBundleJson signed, fun signed' h => ?_⟩
  exact SignedDecision.codec.toText_injective h

section

variable {P : Primitives}

theorem verifyBundle_eq_ok {bundleJson hash trustedSigner : String} {vr : ValidationResponse} :
    verifyBundle P bundleJson hash trustedSigner = .ok vr ↔
      ∃ s, parseBundle bundleJson = some s ∧
        asciiLower (hexEncode (s.binding.digest P).toList) = asciiLower hash ∧
        verifyDecision P s trustedSigner = .ok () ∧ validationResponse P s = vr := by
  rw [verifyBundle, bind_eq_ok]
  simp only [okOr_eq_ok]
  refine exists_congr fun s => and_congr_right fun _ => ?_
  rw [← eqIgnoreAsciiCase_iff]
  cases eqIgnoreAsciiCase (hexEncode (s.binding.digest P).toList) hash with
  | false => simp
  | true =>
      cases verifyDecision P s trustedSigner with
      | error e => simp
      | ok => simp

theorem verifyBundle_evidenceBundleJson {s : SignedDecision} {trustedSigner : String}
    (h : verifyDecision P s trustedSigner = .ok ()) :
    verifyBundle P (evidenceBundleJson s) (hexEncode (s.binding.digest P).toList)
      trustedSigner = .ok (validationResponse P s) := by
  rw [verifyBundle_eq_ok]
  exact ⟨s, parseBundle_evidenceBundleJson s, rfl, h, rfl⟩

end

/-! ### The gate and the response map -/

section

variable {b : DecisionBinding}

@[simp] theorem responseAndTag_fst_eq_none :
    (responseAndTag b).1 = none ↔ b.reconcile = .unverifiable := by
  rw [responseAndTag]
  cases b.reconcile with
  | matched => cases b.decision.isSettle <;> simp
  | halfOpen => simp
  | mismatch => simp
  | unverifiable => simp

theorem reconcile_ne_of_response {response : UInt8} (h : (responseAndTag b).1 = some response) :
    b.reconcile ≠ .unverifiable := by
  rw [ne_eq, ← responseAndTag_fst_eq_none, h]
  exact Option.some_ne_none response

theorem responseAndTag_fst_eq_pass :
    (responseAndTag b).1 = some pass ↔ b.reconcile = .matched ∧ b.decision.isSettle = true := by
  rw [responseAndTag]
  cases b.reconcile with
  | matched => cases b.decision.isSettle <;> simp [pass, fail]
  | halfOpen => simp [pass, fail]
  | mismatch => simp [pass, fail]
  | unverifiable => simp [pass]

theorem responseAndTag_snd_eq_unsafe :
    (responseAndTag b).2 = tagUnsafe ↔ b.reconcile = .matched ∧ b.decision.isSettle = false := by
  rw [responseAndTag]
  cases b.reconcile with
  | matched => cases b.decision.isSettle <;> simp [tagUnsafe, tagMatched]
  | halfOpen => simp [tagUnsafe, tagHalfOpen]
  | mismatch => simp [tagUnsafe, tagMismatch]
  | unverifiable => simp [tagUnsafe, tagUnverifiable]

end

/-- The gate and the response published for its decision agree on every input,
and a hold lists its reasons in full. The third conjunct recomputes the kind of
the decision from the fields the binding holds. -/
theorem validationResponse_decideCrossvm (P : Primitives) (key : SigningKey)
    (proof : CrossVmProof) (invariant : InvariantVerdict) (policy : GatePolicy) :
    let d := Gate.decideCrossvm proof invariant policy
    let b := DecisionBinding.new proof invariant policy d
    let vr := validationResponse P (signDecision P b key)
    (vr.response = some 100 ↔ d.isSettle = true) ∧
      (d.isSettle = true ↔
        proof.reconcile = .matched ∧ invariant.level ≤ policy.maxSettleSeverity) ∧
      (b.decision.isSettle = true ↔
        b.reconcile = .matched ∧ b.invariant.level ≤ b.policy.maxSettleSeverity) ∧
      (vr.response = none ↔ proof.reconcile = .unverifiable) ∧
      (vr.tag = "unsafe" ↔ proof.reconcile = .matched ∧ ∃ reasons, d = .hold reasons) ∧
      (∀ caveats, d = .settle caveats → caveats = []) ∧
      ∀ reasons, d = .hold reasons → reasons ≠ [] ∧ ∃ first rest, reasons = first ++ rest ∧
        (proof.reconcile = .matched → first = []) ∧
        (proof.reconcile ≠ .matched → ∃ entry, first = [entry] ∧
          ∀ r ∈ proof.reasons, r.toList <:+: entry.toList) ∧
        rest =
          if invariant.level ≤ policy.maxSettleSeverity then []
          else if invariant.findings.filter (policy.maxSettleSeverity < ·.severity) = [] then
            [Gate.levelReason invariant policy]
          else
            (invariant.findings.filter (policy.maxSettleSeverity < ·.severity)).map fun f =>
              "[" ++ f.code ++ "] " ++ f.message := by
  intro d b vr
  have hsettle : d.isSettle = true ↔
      proof.reconcile = .matched ∧ invariant.level ≤ policy.maxSettleSeverity :=
    Gate.isSettle_decideCrossvm_iff
  have hpass : vr.response = some 100 ↔ proof.reconcile = .matched ∧ d.isSettle = true :=
    responseAndTag_fst_eq_pass (b := b)
  have htag : vr.tag = "unsafe" ↔ proof.reconcile = .matched ∧ d.isSettle = false :=
    responseAndTag_snd_eq_unsafe (b := b)
  have hhold : d.isSettle = false ↔ ∃ reasons, d = .hold reasons := by
    cases d with
    | settle caveats => simp
    | hold reasons => simp
  refine ⟨?_, hsettle, hsettle, responseAndTag_fst_eq_none, by rw [htag, hhold],
    fun caveats => Gate.decideCrossvm_eq_settle, ?_⟩
  · rw [hpass, hsettle]
    tauto
  · intro reasons hd
    obtain ⟨hne, happend⟩ := Gate.decideCrossvm_eq_hold hd
    exact ⟨hne, _, _, happend, Gate.reconcileReasons_eq_nil.mpr,
      Gate.reconcileReasons_of_ne_matched, Gate.invariantReasons_eq⟩

end Liquet.Erc8004
