import Liquet.Erc8004.RelyingParty
import Liquet.Erc8004.StoreRuns

/-!
Runs of `handle_request` over a store nobody answers for. What `put` and `get`
do may change from one request to the next, and between requests the contents
may change in any way. The hash of a response still stands for its answer:
whatever text is served for it, a relying party takes from it what the response
said or nothing, and under a pinned key it takes no answer that was not signed
with that key for a request of the run.
-/

namespace Liquet.Erc8004

open Text

/-! ### Runs -/

/-- A request is handled over whatever store there is at the time, or the
contents change. -/
inductive StoreEvent (σ : Type)
  | handle (E : EvidenceStore σ) (call : Call)
  | disturb (change : σ → σ)

def callsOf {σ : Type} : List (StoreEvent σ) → List Call
  | [] => []
  | .handle _ call :: events => call :: callsOf events
  | .disturb _ :: events => callsOf events

def handleAmid {σ : Type} (P : Primitives) : List (StoreEvent σ) → σ → List (Step σ) × σ
  | [], store => ([], store)
  | .handle E call :: events, store =>
      let (result, after) := handleRequest P E call.request call.validator store
      let (steps, final) := handleAmid P events after
      ({ call, before := store, result, after } :: steps, final)
  | .disturb change :: events, store => handleAmid P events (change store)

section

variable {σ : Type} {P : Primitives} {events : List (StoreEvent σ)} {store : σ}

theorem map_call_handleAmid (events : List (StoreEvent σ)) (store : σ) :
    (handleAmid P events store).1.map Step.call = callsOf events := by
  induction events generalizing store with
  | nil => rfl
  | cons event events ih =>
      cases event with
      | handle E call => exact congrArg (call :: ·) (ih _)
      | disturb change => exact ih _

theorem handleRequest_of_mem_handleAmid {step : Step σ} (h : step ∈ (handleAmid P events store).1) :
    ∃ E : EvidenceStore σ,
      handleRequest P E step.call.request step.call.validator step.before =
        (step.result, step.after) := by
  induction events generalizing store with
  | nil => cases h
  | cons event events ih =>
      cases event with
      | handle E call =>
          rcases List.mem_cons.mp h with rfl | h
          · exact ⟨E, rfl⟩
          · exact ih h
      | disturb change => exact ih h

end

/-! ### One request -/

/-- The result of a request tells what the response map makes of its decision,
unless the store failed. -/
def Tells (P : Primitives) (signed : SignedDecision) : Except ValidateError OnChainAction → Prop
  | .ok (.respond _ response _ hash tag) =>
      validationResponse P signed = { response := some response, tag, responseHash := hash }
  | .ok (.abstain _ tag) =>
      (validationResponse P signed).response = none ∧ (validationResponse P signed).tag = tag
  | .error (.store _) => True
  | .error (.unresolvable _) => False

section

variable {σ : Type} {P : Primitives} {E : EvidenceStore σ} {req : ResolvedRequest}
  {validator : SettlementValidator} {store : σ}

theorem tells_handleRequest {signed : SignedDecision} (h : validator req = .ok signed) :
    Tells P signed (handleRequest P E req validator store).1 := by
  rw [handleRequest, h]
  dsimp only
  cases hresponse : (validationResponse P signed).response with
  | none => exact ⟨hresponse, rfl⟩
  | some response =>
      rcases E.put signed store with ⟨e | uri, store'⟩
      · trivial
      · show validationResponse P signed = _
        rw [← hresponse]

theorem validated_of_respond {requestHash u hash tag : String} {response : UInt8}
    (h : (handleRequest P E req validator store).1 =
      .ok (.respond requestHash response u hash tag)) :
    ∃ s, validator req = .ok s ∧
      validationResponse P s = { response := some response, tag, responseHash := hash } := by
  cases hvalidated : validator req with
  | error e =>
      rw [handleRequest, hvalidated] at h
      cases h
  | ok s =>
      have htells : Tells P s (handleRequest P E req validator store).1 :=
        tells_handleRequest hvalidated
      rw [h] at htells
      exact ⟨s, rfl, htells⟩

end

/-! ### What relying parties are told -/

/-- What a key signed in handling these requests. -/
def signedIn (P : Primitives) (key : SigningKey) (calls : List Call) (b : DecisionBinding)
    (sig : P.Signature) : Prop :=
  ∃ call ∈ calls, call.validated = .ok (signDecision P b key) ∧
    sig = P.sign key (b.digest P).toList

def boundIn (texts : Set String) : Set DecisionBinding :=
  {b | ∃ text ∈ texts, ∃ s, parseBundle text = some s ∧ s.binding = b}

section

variable {P : Primitives} {S : Set DecisionBinding} {hash hash' trustedSigner : String}
  {vr : ValidationResponse}

/-- One hash has one answer, whoever signed. -/
theorem eq_of_verifyBundle_of_hash
    (hcollision : P.CollisionFree (DecisionBinding.preimage '' S)) {s : SignedDecision}
    (hs : s.binding ∈ S) {text : String} (htext : ∀ s', parseBundle text = some s' → s'.binding ∈ S)
    (hhash : asciiLower hash = asciiLower (contentHash P s))
    (haccepted : verifyBundle P text hash trustedSigner = .ok vr) :
    vr = validationResponse P s := by
  obtain ⟨s', hparse, hhash', -, rfl⟩ := verifyBundle_eq_ok.mp haccepted
  have hdigest := asciiLower_hexEncode_inj (hhash'.trans hhash)
  apply validationResponse_congr
  exact digest_injOn hcollision (htext s' hparse) hs (List.Vector.eq _ _ hdigest)

end

/-- Over a store that does anything it likes, and changes as it likes between
requests: a text accepted for the hash of a response, under whatever signer,
says what the response said, and two texts accepted for one hash say the same.
A text accepted under a pinned key, for whatever hash, says what a decision
signed with this key said, and so did the step of the request it was for, if
the store did not fail it. -/
theorem handleAmid_safe {σ : Type} {P : Primitives} {key : SigningKey}
    {events : List (StoreEvent σ)} {texts : Set String}
    (hunforgeable : P.Unforgeable (P.keyToBytes (P.verifyingKey key))
      (signedMessage P (signedIn P key (callsOf events))))
    (hcollision : P.CollisionFree
      (DecisionBinding.preimage '' (boundBy (callsOf events) ∪ boundIn texts))) (store : σ) :
    let run := handleAmid P events store
    (∀ step ∈ run.1, ∀ requestHash response u hash tag,
        step.result = .ok (.respond requestHash response u hash tag) →
        ∀ text ∈ texts, ∀ hash' trustedSigner vr, asciiLower hash' = asciiLower hash →
          verifyBundle P text hash' trustedSigner = .ok vr →
            vr = { response := some response, tag, responseHash := hash }) ∧
      (∀ text ∈ texts, ∀ text' ∈ texts, ∀ hash hash' trustedSigner trustedSigner' vr vr',
        asciiLower hash = asciiLower hash' → verifyBundle P text hash trustedSigner = .ok vr →
          verifyBundle P text' hash' trustedSigner' = .ok vr' → vr = vr') ∧
      ∀ text ∈ texts, ∀ hash trustedSigner vr,
        hexDecodeArray 32 trustedSigner = some (P.keyToBytes (P.verifyingKey key)) →
          verifyBundle P text hash trustedSigner = .ok vr →
            ∃ step ∈ run.1, ∃ b, step.call.validated = .ok (signDecision P b key) ∧
              vr = validationResponse P (signDecision P b key) ∧
              Tells P (signDecision P b key) step.result := by
  intro run
  have hserved {text : String} (htext : text ∈ texts) (s : SignedDecision)
      (hparse : parseBundle text = some s) :
      s.binding ∈ boundBy (callsOf events) ∪ boundIn texts := .inr ⟨text, htext, s, hparse, rfl⟩
  refine ⟨?_, ?_, ?_⟩
  · intro step hstep requestHash response u hash tag hresult text htext hash' trustedSigner vr
      hhash haccepted
    obtain ⟨E, hhandled⟩ := handleRequest_of_mem_handleAmid hstep
    obtain ⟨s, hvalidated, hresponse⟩ :=
      validated_of_respond ((congrArg Prod.fst hhandled).trans hresult)
    have hcall : step.call ∈ callsOf events := by
      rw [← map_call_handleAmid events store]
      exact List.mem_map_of_mem hstep
    have hhash' : contentHash P s = hash := congrArg ValidationResponse.responseHash hresponse
    rw [← hhash'] at hhash
    rw [eq_of_verifyBundle_of_hash hcollision (.inl ⟨_, hcall, s, hvalidated, rfl⟩) (hserved htext)
      hhash haccepted, hresponse]
  · intro text htext text' htext' hash hash' trustedSigner trustedSigner' vr vr' hhash haccepted
      haccepted'
    obtain ⟨s, hparse, hhashed, -, rfl⟩ := verifyBundle_eq_ok.mp haccepted
    symm
    apply eq_of_verifyBundle_of_hash hcollision (hserved htext s hparse) (hserved htext')
      (hhash.symm.trans hhashed.symm) haccepted'
  · intro text htext hash trustedSigner vr htrusted haccepted
    have hkey (pk : Bytes 32) (hpk : hexDecodeArray 32 trustedSigner = some pk) :
        P.Unforgeable pk (signedMessage P (signedIn P key (callsOf events))) := by
      rw [htrusted] at hpk
      rw [← Option.some.inj hpk]
      exact hunforgeable
    have hissued (_ : Bytes 32) (b : DecisionBinding) (sig : P.Signature)
        (h : signedIn P key (callsOf events) b sig) :
        b ∈ boundBy (callsOf events) ∪ boundIn texts := by
      obtain ⟨call, hcall, hvalidated, -⟩ := h
      exact .inl ⟨call, hcall, _, hvalidated, rfl⟩
    obtain ⟨s, -, sig, -, -, ⟨call, hcall, hvalidated, -⟩, -, rfl⟩ :=
      issued_of_verifyBundle hcollision hissued (hserved htext) hkey haccepted
    rw [← map_call_handleAmid events store] at hcall
    obtain ⟨step, hstep, rfl⟩ := List.mem_map.mp hcall
    obtain ⟨E, hhandled⟩ := handleRequest_of_mem_handleAmid hstep
    have htells : Tells P (signDecision P s.binding key)
        (handleRequest P E step.call.request step.call.validator step.before).1 :=
      tells_handleRequest hvalidated
    rw [hhandled] at htells
    exact ⟨step, hstep, s.binding, hvalidated, validationResponse_congr rfl, htells⟩

/-- The golden decision is published, and the store then emptied. -/
def emptiedEvents : List (StoreEvent MemStore) :=
  [.handle (MemStore.evidenceStore Reference.signedOnce) ⟨goldenRequest, goldenValidator⟩,
    .disturb fun _ => .new]

theorem signDecision_signedOnce (b : DecisionBinding) (key : SigningKey) :
    signDecision Reference.signedOnce b key = signDecision Reference.primitives b key := rfl

theorem signedIn_emptiedEvents (b : DecisionBinding) (sig : Bytes 64) :
    signedIn Reference.signedOnce Reference.operatorKey (callsOf emptiedEvents) b sig ↔
      goldenIssued Reference.operatorPublic b sig := by
  have hsign : Reference.signedOnce.sign Reference.operatorKey
      (goldenBinding.digest Reference.signedOnce).toList = Reference.goldenSignature := by
    have hdigest : goldenBinding.digest Reference.signedOnce = Reference.goldenDigest :=
      digest_goldenBinding
    rw [hdigest]
    exact Reference.sign_operatorKey
  constructor
  · rintro ⟨call, hcall, hvalidated, rfl⟩
    rw [List.mem_singleton.mp hcall] at hvalidated
    have hsigned := @goldenValidator_eq_ok goldenRequest _ hvalidated
    obtain rfl : b = goldenBinding := congrArg SignedDecision.binding hsigned
    exact ⟨rfl, rfl, hsign⟩
  · rintro ⟨-, rfl, rfl⟩
    refine ⟨_, List.mem_singleton_self _, ?_, hsign.symm⟩
    rw [signDecision_signedOnce, signDecision_goldenBinding]
    rfl

/-- The bundle that was lost is still taken for what its response said. -/
theorem handleAmid_safe_emptied :
    let run := handleAmid Reference.signedOnce emptiedEvents .new
    ∃ vr, verifyBundle Reference.signedOnce (evidenceBundleJson goldenSigned)
        (contentHash Reference.signedOnce goldenSigned) goldenSigned.signer = .ok vr ∧
      ∃ step ∈ run.1, ∃ b,
        Tells Reference.signedOnce
            (signDecision Reference.signedOnce b Reference.operatorKey) step.result ∧
          vr = validationResponse Reference.signedOnce
            (signDecision Reference.signedOnce b Reference.operatorKey) := by
  intro run
  have hunforgeable : Reference.signedOnce.Unforgeable
      (Reference.signedOnce.keyToBytes
        (Reference.signedOnce.verifyingKey Reference.operatorKey))
      (signedMessage Reference.signedOnce (signedIn Reference.signedOnce Reference.operatorKey
        (callsOf emptiedEvents))) := by
    have hissued : signedIn Reference.signedOnce Reference.operatorKey (callsOf emptiedEvents) =
        goldenIssued Reference.operatorPublic := by
      ext b sig
      exact signedIn_emptiedEvents b sig
    rw [hissued]
    exact unforgeable_golden Reference.operatorPublic
  have hcollision : Reference.signedOnce.CollisionFree (DecisionBinding.preimage ''
      (boundBy (callsOf emptiedEvents) ∪ boundIn {evidenceBundleJson goldenSigned})) := by
    apply collisionFree_of_forall_eq
    rintro b (⟨call, hcall, s, hs, rfl⟩ | ⟨text, rfl, s, hs, rfl⟩)
    · rw [List.mem_singleton.mp hcall] at hs
      rw [@goldenValidator_eq_ok goldenRequest s hs]
      rfl
    · rw [parseBundle_evidenceBundleJson] at hs
      rw [← Option.some.inj hs]
      rfl
  have haccepted := verifyBundle_evidenceBundleJson verifyDecision_goldenSigned
  obtain ⟨-, -, hpinned⟩ := handleAmid_safe hunforgeable hcollision MemStore.new
  obtain ⟨step, hstep, b, -, hvr, htells⟩ :=
    hpinned _ rfl _ _ _ (hexDecodeArray_hexEncode _) haccepted
  exact ⟨_, haccepted, step, hstep, b, htells, hvr⟩

end Liquet.Erc8004
