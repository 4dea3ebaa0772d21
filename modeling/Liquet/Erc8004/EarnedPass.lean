import Liquet.Erc8004.LiquetValidator

/-!
A pass from the wired validator is earned at every stage: the stages a request
must go through for the published 100, what they say about the delivery, and
what the evidence pinned with it binds.
-/

namespace Liquet.Erc8004

open Text Probatio CustosEngine XvmCustos ContentAddressed

/-- Every stage on the way to a pass. -/
structure Earned (X : Producers) (V : LiquetValidator) (req : ResolvedRequest)
    (sr : SettlementRequest X) (evm : EvmReconstruction)
    (svm : SvmReconstruction X.Account X.Transaction) (outcome : Outcome)
    (before after : UInt64) : Prop where
  reconstructs : Reconstructs X req sr evm svm
  replays : Replays X svm outcome
  succeeds : outcome.success = true
  recipient : RecipientHolds X svm outcome before after
  delivers : DeliversLeg svm.leg before after
  matched : (X.reconcile evm.leg svm.leg sr.claim).verdict = .matched
  within : (X.evaluate outcome X.defaultBank).level.rank ≤ V.policy.maxSettleSeverity.rank

section

variable {X : Producers} {P : Primitives} {V : LiquetValidator} {req : ResolvedRequest}
  {store : MemStore} {sr : SettlementRequest X} {evm : EvmReconstruction}
  {svm : SvmReconstruction X.Account X.Transaction} {outcome : Outcome} {before after : UInt64}

def earnedDecision (X : Producers) (P : Primitives) (V : LiquetValidator)
    (sr : SettlementRequest X) (evm : EvmReconstruction)
    (svm : SvmReconstruction X.Account X.Transaction) (outcome : Outcome) : SignedDecision :=
  V.signedFor P (X.reconcile evm.leg svm.leg sr.claim) evm.leg svm.leg
    (Custos.verdictFromCustos X (X.evaluate outcome X.defaultBank))

theorem responseAndTag_earnedDecision (h : Earned X V req sr evm svm outcome before after) :
    responseAndTag (earnedDecision X P V sr evm svm outcome).binding = (some pass, tagMatched) := by
  have hresponse := responseAndTag_bindDecision V (X.reconcile evm.leg svm.leg sr.claim) evm.leg
    svm.leg (Custos.verdictFromCustos X (X.evaluate outcome X.defaultBank))
  simp only [h.matched] at hresponse
  exact hresponse.trans (if_pos (Custos.severityFromLevel_le_iff.mpr h.within))

theorem handleRequest_of_earned (h : Earned X V req sr evm svm outcome before after) :
    handleRequest P (MemStore.evidenceStore P) req (V.validate X P) store =
      (.ok (.respond req.requestHash pass
          (MemStore.uri P (earnedDecision X P V sr evm svm outcome))
          (contentHash P (earnedDecision X P V sr evm svm outcome)) tagMatched),
        (MemStore.put P (earnedDecision X P V sr evm svm outcome) store).2) := by
  have hscreen := invariantFromSvmLeg_eq_ok.mpr
    ⟨outcome, before, after, h.replays, h.succeeds, h.recipient, h.delivers, rfl⟩
  have hvalidate : V.validate X P req = .ok (earnedDecision X P V sr evm svm outcome) :=
    validate_eq_ok.mpr ⟨sr, evm, svm, _, h.reconstructs, hscreen, rfl⟩
  exact handleRequest_of_response hvalidate (responseAndTag_earnedDecision h) store

theorem earned_of_handleRequest {requestHash uri hash tag : String}
    (h : (handleRequest P (MemStore.evidenceStore P) req (V.validate X P) store).1 =
      .ok (.respond requestHash pass uri hash tag)) :
    ∃ sr evm svm outcome before after, Earned X V req sr evm svm outcome before after := by
  rw [handleRequest_memStore] at h
  obtain ⟨s, hpublished, -, hresponse, -⟩ := actionFor_eq_respond.mp h
  obtain ⟨sr, evm, svm, invariant, hlegs, hscreen, rfl⟩ :=
    validate_eq_ok.mp (published_eq_some.mp hpublished).1
  obtain ⟨outcome, before, after, hreplays, hsuccess, hrecipient, hdelivers, rfl⟩ :=
    invariantFromSvmLeg_eq_ok.mp hscreen
  obtain ⟨hmatched, hsettle⟩ := responseAndTag_fst_eq_pass.mp hresponse.symm
  obtain ⟨-, hlevel⟩ := Gate.isSettle_decideCrossvm_iff.mp hsettle
  exact ⟨sr, evm, svm, outcome, before, after, hlegs, hreplays, hsuccess, hrecipient, hdelivers,
    reconcileVerdict_eq_matched.mp hmatched, Custos.severityFromLevel_le_iff.mp hlevel⟩

/-- What is pinned with a pass verifies under the validator's key and binds the
pay leg, then the delivery leg. -/
theorem evidence_of_earned (hkey : P.SignsCorrectly V.signingKey)
    (h : Earned X V req sr evm svm outcome before after) :
    ∃ bundle s vr, MemStore.get { value := MemStore.uri P (earnedDecision X P V sr evm svm outcome) }
        (MemStore.put P (earnedDecision X P V sr evm svm outcome) store).2 = .ok bundle ∧
      parseBundle bundle = some s ∧
      verifyBundle P bundle (contentHash P (earnedDecision X P V sr evm svm outcome))
        (V.signerHex P) = .ok vr ∧
      vr.response = some pass ∧
      s.binding.legs.map (fun leg => (leg.executed, leg.poststateDigest)) =
        [(evm.leg.executed, evm.leg.reexecDigest), (svm.leg.executed, svm.leg.reexecDigest)] := by
  refine ⟨_, earnedDecision X P V sr evm svm outcome, _, ?_, parseBundle_evidenceBundleJson _,
    verifyBundle_evidenceBundleJson (verifyDecision_signDecision hkey _), ?_, rfl⟩
  · rw [MemStore.get_eq_ok, MemStore.byUri_put]
    exact Scheme.lookup_pin_self
  · exact congrArg Prod.fst (responseAndTag_earnedDecision h)

end

/-- A pass is published exactly when every stage was passed. Then the balance
of the recipient of an executed leg grew by exactly the amount, and the bundle
at the response's URI verifies and binds the two legs in order. -/
theorem handleRequest_pass_iff {X : Producers} {P : Primitives} {V : LiquetValidator}
    (hkey : P.SignsCorrectly V.signingKey) (req : ResolvedRequest) (store : MemStore) :
    let handled := handleRequest P (MemStore.evidenceStore P) req (V.validate X P) store
    ((∃ requestHash uri hash tag, handled.1 = .ok (.respond requestHash 100 uri hash tag)) ↔
        ∃ sr evm svm outcome before after, Earned X V req sr evm svm outcome before after) ∧
      ∀ requestHash uri hash tag, handled.1 = .ok (.respond requestHash 100 uri hash tag) →
        ∃ sr evm svm outcome before after, Earned X V req sr evm svm outcome before after ∧
          (svm.leg.executed = true → ∃ amount, svm.leg.amount = some amount ∧
            0 < amount.toNat ∧ after.toNat = before.toNat + amount.toNat) ∧
          ∃ bundle s vr, MemStore.get { value := uri } handled.2 = .ok bundle ∧
            parseBundle bundle = some s ∧ verifyBundle P bundle hash (V.signerHex P) = .ok vr ∧
            vr.response = some 100 ∧
            s.binding.legs.map (fun leg => (leg.executed, leg.poststateDigest)) =
              [(evm.leg.executed, evm.leg.reexecDigest),
                (svm.leg.executed, svm.leg.reexecDigest)] := by
  intro handled
  refine ⟨⟨?_, ?_⟩, ?_⟩
  · rintro ⟨requestHash, uri, hash, tag, hpass⟩
    exact earned_of_handleRequest hpass
  · rintro ⟨sr, evm, svm, outcome, before, after, h⟩
    exact ⟨_, _, _, _, congrArg Prod.fst (handleRequest_of_earned h)⟩
  · intro requestHash uri hash tag hpass
    obtain ⟨sr, evm, svm, outcome, before, after, h⟩ := earned_of_handleRequest hpass
    refine ⟨sr, evm, svm, outcome, before, after, h, h.delivers.exact, ?_⟩
    have hhandled : handled = _ := handleRequest_of_earned h
    rw [hhandled] at hpass ⊢
    obtain ⟨-, -, rfl, rfl, -⟩ := OnChainAction.respond.inj (Except.ok.inj hpass)
    exact evidence_of_earned hkey h

theorem earned_delivered :
    Earned (Recorded.producers Recorded.delivered) defaultValidator recordedRequest
      (recordedSettlement Recorded.delivered) { leg := Recorded.evmLeg }
      (recordedSvm Recorded.delivered) Recorded.delivered.outcome 0 25 where
  reconstructs := reconstructs_recorded Recorded.delivered
  replays := replays_recorded Recorded.delivered
  succeeds := rfl
  recipient := recipientHolds_delivered
  delivers := deliversLeg_delivered
  matched := rfl
  within := by decide

theorem responds_flagged :
    Responds (handleRequest Reference.primitives (MemStore.evidenceStore Reference.primitives)
      recordedRequest (defaultValidator.validate (Recorded.producers Recorded.flagged)
        Reference.primitives) .new) recordedRequest 0 "unsafe" := by
  have hrecipient : RecipientHolds (Recorded.producers Recorded.flagged)
      (recordedSvm Recorded.flagged) Recorded.flagged.outcome 0 25 :=
    recipientHolds_replayInputs (by decide +kernel) (by decide +kernel)
  obtain ⟨-, hreaches⟩ := @verdictReaches_of_success _ Reference.primitives defaultValidator _ .new
    _ _ _ _ _ _ (reconstructs_recorded Recorded.flagged) (replays_recorded Recorded.flagged)
    hrecipient deliversLeg_delivered rfl
  have hlevel : ¬Custos.severityFromLevel .red ≤ Severity.info := by decide
  exact (if_neg hlevel).mp hreaches

theorem handleRequest_pass_delivered :
    (∃ requestHash uri hash tag bundle vr,
      (handleRequest Reference.primitives (MemStore.evidenceStore Reference.primitives)
        recordedRequest (defaultValidator.validate (Recorded.producers Recorded.delivered)
          Reference.primitives) .new).1 = .ok (.respond requestHash 100 uri hash tag) ∧
      verifyBundle Reference.primitives bundle hash
        (defaultValidator.signerHex Reference.primitives) = .ok vr ∧ vr.response = some 100) ∧
    (∃ uri hash, (handleRequest Reference.primitives (MemStore.evidenceStore Reference.primitives)
      recordedRequest (defaultValidator.validate (Recorded.producers Recorded.flagged)
        Reference.primitives) .new).1 = .ok (.respond "0xreq" 0 uri hash "unsafe")) ∧
    ¬∃ sr evm svm outcome before after, Earned (Recorded.producers Recorded.flagged)
      defaultValidator recordedRequest sr evm svm outcome before after := by
  have hkey := Reference.signsCorrectly Reference.operatorKey
  refine ⟨?_, responds_flagged, fun hearned => ?_⟩
  · obtain ⟨hiff, hevidence⟩ := @handleRequest_pass_iff (Recorded.producers Recorded.delivered)
      Reference.primitives defaultValidator hkey recordedRequest .new
    obtain ⟨requestHash, uri, hash, tag, hpass⟩ := hiff.mpr ⟨_, _, _, _, _, _, earned_delivered⟩
    obtain ⟨-, -, -, -, -, -, -, -, bundle, -, vr, -, -, hverify, hresponse, -⟩ :=
      hevidence _ _ _ _ hpass
    exact ⟨requestHash, uri, hash, tag, bundle, vr, hpass, hverify, hresponse⟩
  · obtain ⟨requestHash, uri, hash, tag, hpass⟩ := (handleRequest_pass_iff hkey _ .new).1.mpr hearned
    obtain ⟨uri', hash', hunsafe⟩ := responds_flagged
    obtain ⟨-, hscore, -⟩ := OnChainAction.respond.inj (Except.ok.inj (hpass.symm.trans hunsafe))
    exact absurd hscore (by decide)

end Liquet.Erc8004
