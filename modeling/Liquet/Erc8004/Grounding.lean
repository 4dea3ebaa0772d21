import Liquet.Erc8004.EarnedPass
import Liquet.Erc8004.RelyingParty

/-!
What a relying party learns of the settlement itself. The operator's key signs
only what the wired validator computes for the requests it is asked; so behind
every bundle accepted under that key there is one of these requests, with legs
that reconstruct and a replay that delivers what its leg says, and the score
is what the verdict and the screen of that very request mean. Everything else
the relying party reads may come from an adversary.
-/

namespace Liquet.Erc8004

open Text Probatio CustosEngine XvmCustos

/-- What the key of a validator signs while it is asked the requests of a set. -/
def LiquetValidator.issued (X : Producers) (P : Primitives) (V : LiquetValidator)
    (asked : Set ResolvedRequest) (b : DecisionBinding) (sig : P.Signature) : Prop :=
  ∃ req ∈ asked, ∃ s, V.validate X P req = .ok s ∧ s.binding = b ∧
    sig = P.sign V.signingKey (b.digest P).toList

/-- The stages of a request that ends in a signature. -/
structure Screened (X : Producers) (req : ResolvedRequest) (sr : SettlementRequest X)
    (evm : EvmReconstruction) (svm : SvmReconstruction X.Account X.Transaction)
    (outcome : Outcome) (before after : UInt64) : Prop where
  reconstructs : Reconstructs X req sr evm svm
  replays : Replays X svm outcome
  succeeds : outcome.success = true
  recipient : RecipientHolds X svm outcome before after
  delivers : DeliversLeg svm.leg before after

/-- Score and tag of a settlement from its receipt and its screen. -/
def scoreOf (receipt : XvmReceipt) (screened : CustosEngine.Verdict) (policy : GatePolicy) :
    Option UInt8 × String :=
  match receipt.verdict with
  | .unverifiable => (none, tagUnverifiable)
  | .halfOpen => (some fail, tagHalfOpen)
  | .mismatch => (some fail, tagMismatch)
  | .matched =>
      if screened.level.rank ≤ policy.maxSettleSeverity.rank then (some pass, tagMatched)
      else (some fail, tagUnsafe)

section

variable {X : Producers} {P : Primitives} {V : LiquetValidator} {req : ResolvedRequest}
  {asked : Set ResolvedRequest} {sr : SettlementRequest X} {evm : EvmReconstruction}
  {svm : SvmReconstruction X.Account X.Transaction} {outcome : Outcome} {before after : UInt64}

/-- The validator signs for exactly the requests that get through all stages. -/
theorem validate_eq_ok_iff_screened {s : SignedDecision} :
    V.validate X P req = .ok s ↔
      ∃ sr evm svm outcome before after, Screened X req sr evm svm outcome before after ∧
        s = earnedDecision X P V sr evm svm outcome := by
  rw [validate_eq_ok]
  constructor
  · rintro ⟨sr, evm, svm, invariant, hlegs, hscreen, rfl⟩
    obtain ⟨outcome, before, after, hreplays, hsuccess, hrecipient, hdelivers, rfl⟩ :=
      invariantFromSvmLeg_eq_ok.mp hscreen
    exact ⟨sr, evm, svm, outcome, before, after,
      ⟨hlegs, hreplays, hsuccess, hrecipient, hdelivers⟩, rfl⟩
  · rintro ⟨sr, evm, svm, outcome, before, after, h, rfl⟩
    exact ⟨sr, evm, svm, _, h.reconstructs, invariantFromSvmLeg_eq_ok.mpr
      ⟨outcome, before, after, h.replays, h.succeeds, h.recipient, h.delivers, rfl⟩, rfl⟩

theorem responseAndTag_binding_earnedDecision :
    responseAndTag (earnedDecision X P V sr evm svm outcome).binding =
      scoreOf (X.reconcile evm.leg svm.leg sr.claim) (X.evaluate outcome X.defaultBank)
        V.policy := by
  rw [scoreOf]
  simp only [← Custos.severityFromLevel_le_iff]
  exact responseAndTag_bindDecision V (X.reconcile evm.leg svm.leg sr.claim) evm.leg svm.leg
    (Custos.verdictFromCustos X (X.evaluate outcome X.defaultBank))

theorem scoreOf_fst_eq_pass {receipt : XvmReceipt} {screened : CustosEngine.Verdict}
    {policy : GatePolicy} :
    (scoreOf receipt screened policy).1 = some pass ↔
      receipt.verdict = .matched ∧
        screened.level.rank ≤ policy.maxSettleSeverity.rank := by
  have hne : fail ≠ pass := by decide
  rw [scoreOf]
  cases receipt.verdict with
  | matched =>
      dsimp only
      split <;> rename_i hlevel
      · simp [hlevel]
      · simp [hlevel, hne]
  | halfOpen => simp [hne]
  | mismatch => simp [hne]
  | unverifiable => simp

theorem Screened.earned (h : Screened X req sr evm svm outcome before after)
    (hpass : (scoreOf (X.reconcile evm.leg svm.leg sr.claim) (X.evaluate outcome X.defaultBank)
      V.policy).1 = some pass) : Earned X V req sr evm svm outcome before after where
  reconstructs := h.reconstructs
  replays := h.replays
  succeeds := h.succeeds
  recipient := h.recipient
  delivers := h.delivers
  matched := (scoreOf_fst_eq_pass.mp hpass).1
  within := (scoreOf_fst_eq_pass.mp hpass).2

theorem screened_of_issued {b : DecisionBinding} {sig : P.Signature}
    (h : V.issued X P asked b sig) :
    ∃ req ∈ asked, ∃ sr evm svm outcome before after,
      Screened X req sr evm svm outcome before after ∧
        b = (earnedDecision X P V sr evm svm outcome).binding := by
  obtain ⟨req, hreq, s, hvalidate, rfl, -⟩ := h
  obtain ⟨sr, evm, svm, outcome, before, after, hscreened, rfl⟩ :=
    validate_eq_ok_iff_screened.mp hvalidate
  exact ⟨req, hreq, sr, evm, svm, outcome, before, after, hscreened, rfl⟩

end

/-- Whatever bundle a relying party is given, and against whatever hash: if it
accepts the bundle under a text for the operator's key, then the validator was
asked a request whose legs reconstruct and whose replay succeeds and delivers
what its leg says; the hash is that of the decision on this request, and score
and tag are what its receipt and its screen mean. A pass was earned, and an
executed delivery raised the balance of the recipient by exactly the amount. -/
theorem verifyBundle_grounded {X : Producers} {P : Primitives} {V : LiquetValidator}
    {asked : Set ResolvedRequest} {bundleJson : String}
    (hunforgeable : P.Unforgeable (P.keyToBytes (P.verifyingKey V.signingKey))
      (signedMessage P (V.issued X P asked)))
    (hcollision : P.CollisionFree (DecisionBinding.preimage ''
      {b | (∃ sig, V.issued X P asked b sig) ∨
        ∃ s, parseBundle bundleJson = some s ∧ s.binding = b}))
    {hash trustedSigner : String} {vr : ValidationResponse}
    (htrusted : hexDecodeArray 32 trustedSigner = some (P.keyToBytes (P.verifyingKey V.signingKey)))
    (haccepted : verifyBundle P bundleJson hash trustedSigner = .ok vr) :
    ∃ req ∈ asked, ∃ sr evm svm outcome before after,
      Screened X req sr evm svm outcome before after ∧
        asciiLower hash = asciiLower vr.responseHash ∧
        vr.responseHash = contentHash P (earnedDecision X P V sr evm svm outcome) ∧
        (vr.response, vr.tag) = scoreOf (X.reconcile evm.leg svm.leg sr.claim)
          (X.evaluate outcome X.defaultBank) V.policy ∧
        (vr.response = some 100 →
          Earned X V req sr evm svm outcome before after ∧
            (svm.leg.executed = true → ∃ amount, svm.leg.amount = some amount ∧
              0 < amount.toNat ∧ after.toNat = before.toNat + amount.toNat)) := by
  have hkey (pk : Bytes 32) (hpk : hexDecodeArray 32 trustedSigner = some pk) :
      P.Unforgeable pk (signedMessage P (V.issued X P asked)) := by
    rw [htrusted] at hpk
    rw [← Option.some.inj hpk]
    exact hunforgeable
  obtain ⟨s, pk, sig, hparse, -, hissued, hhash, hvr⟩ :=
    @issued_of_verifyBundle P (fun _ => V.issued X P asked) _ hcollision
      (fun _ b sig h => .inl ⟨sig, h⟩) _ _ _ _ (fun s hs => .inr ⟨s, hs, rfl⟩) hkey haccepted
  obtain ⟨req, hreq, sr, evm, svm, outcome, before, after, hscreened, hbinding⟩ :=
    screened_of_issued hissued
  have hscore : (vr.response, vr.tag) = scoreOf (X.reconcile evm.leg svm.leg sr.claim)
      (X.evaluate outcome X.defaultBank) V.policy := by
    rw [← responseAndTag_binding_earnedDecision (P := P), ← hbinding, ← hvr]
    rfl
  have hresponseHash :
      vr.responseHash = contentHash P (earnedDecision X P V sr evm svm outcome) := by
    rw [contentHash, ← hbinding, ← hvr]
    rfl
  refine ⟨req, hreq, sr, evm, svm, outcome, before, after, hscreened, ?_, hresponseHash, hscore, ?_⟩
  · rw [← hhash, ← hvr]
    rfl
  · intro hpass
    refine ⟨hscreened.earned ?_, hscreened.delivers.exact⟩
    rw [← hscore]
    exact hpass

/-! A validator that was asked the recorded request, and nothing else. -/

theorem screened_delivered :
    Screened (Recorded.producers Recorded.delivered) recordedRequest
      (recordedSettlement Recorded.delivered) { leg := Recorded.evmLeg }
      (recordedSvm Recorded.delivered) Recorded.delivered.outcome 0 25 where
  reconstructs := reconstructs_recorded Recorded.delivered
  replays := replays_recorded Recorded.delivered
  succeeds := rfl
  recipient := recipientHolds_delivered
  delivers := deliversLeg_delivered

theorem binding_delivered (P : Primitives) :
    (earnedDecision (Recorded.producers Recorded.delivered) P defaultValidator
      (recordedSettlement Recorded.delivered) { leg := Recorded.evmLeg }
      (recordedSvm Recorded.delivered) Recorded.delivered.outcome).binding = goldenBinding := rfl

theorem validate_recorded (P : Primitives) :
    ∃ s, defaultValidator.validate (Recorded.producers Recorded.delivered) P recordedRequest =
      .ok s ∧ s.binding = goldenBinding :=
  ⟨_, validate_eq_ok_iff_screened.mpr ⟨_, _, _, _, _, _, screened_delivered, rfl⟩,
    binding_delivered P⟩

theorem issued_recorded (b : DecisionBinding) (sig : Bytes 64) :
    defaultValidator.issued (Recorded.producers Recorded.delivered) Reference.signedOnce
        {recordedRequest} b sig ↔ b = goldenBinding ∧ sig = Reference.goldenSignature := by
  obtain ⟨s, hvalidate, hbinding⟩ := validate_recorded Reference.signedOnce
  have hsign : Reference.signedOnce.sign defaultValidator.signingKey
      (goldenBinding.digest Reference.signedOnce).toList = Reference.goldenSignature := by
    have hdigest : goldenBinding.digest Reference.signedOnce = Reference.goldenDigest :=
      digest_goldenBinding
    rw [hdigest]
    exact Reference.sign_operatorKey
  constructor
  · rintro ⟨req, rfl, s', hvalidate', rfl, rfl⟩
    obtain rfl := Except.ok.inj (hvalidate'.symm.trans hvalidate)
    refine ⟨hbinding, ?_⟩
    rw [hbinding]
    exact hsign
  · rintro ⟨rfl, rfl⟩
    exact ⟨recordedRequest, rfl, s, hvalidate, hbinding, hsign.symm⟩

/-- The golden bundle is accepted, and the delivery behind it was made. -/
theorem verifyBundle_grounded_golden :
    ∃ vr, verifyBundle Reference.signedOnce (evidenceBundleJson goldenSigned)
        (contentHash Reference.signedOnce goldenSigned) goldenSigned.signer = .ok vr ∧
      ∃ sr evm svm outcome before after,
        Earned (Recorded.producers Recorded.delivered) defaultValidator recordedRequest sr evm svm
          outcome before after := by
  have haccepted := verifyBundle_evidenceBundleJson verifyDecision_goldenSigned
  have hissued : LiquetValidator.issued (Recorded.producers Recorded.delivered)
      Reference.signedOnce defaultValidator {recordedRequest} =
        goldenIssued Reference.operatorPublic := by
    ext b sig
    exact (issued_recorded b sig).trans ⟨fun h => ⟨rfl, h⟩, And.right⟩
  have hunforgeable : Reference.signedOnce.Unforgeable
      (Reference.signedOnce.keyToBytes
        (Reference.signedOnce.verifyingKey defaultValidator.signingKey))
      (signedMessage Reference.signedOnce (LiquetValidator.issued
        (Recorded.producers Recorded.delivered) Reference.signedOnce defaultValidator
        {recordedRequest})) := by
    rw [hissued]
    exact unforgeable_golden Reference.operatorPublic
  have hcollision : Reference.signedOnce.CollisionFree (DecisionBinding.preimage ''
      {b | (∃ sig, LiquetValidator.issued (Recorded.producers Recorded.delivered)
          Reference.signedOnce defaultValidator {recordedRequest} b sig) ∨
        ∃ s, parseBundle (evidenceBundleJson goldenSigned) = some s ∧ s.binding = b}) := by
    apply collisionFree_of_forall_eq
    rintro b (⟨sig, h⟩ | ⟨s, hs, rfl⟩)
    · exact ((issued_recorded b sig).mp h).1
    · rw [parseBundle_evidenceBundleJson] at hs
      rw [← Option.some.inj hs]
      rfl
  obtain ⟨req, rfl, sr, evm, svm, outcome, before, after, -, -, -, -, hpass⟩ :=
    verifyBundle_grounded hunforgeable hcollision (hexDecodeArray_hexEncode _) haccepted
  exact ⟨_, haccepted, sr, evm, svm, outcome, before, after, (hpass rfl).1⟩

end Liquet.Erc8004
