import Liquet.Crypto.Reference
import Liquet.Decide
import Liquet.Library.Result

/-!
Non-repudiation, `src/attest.rs`. A decision is bound to the facts it was
computed from, the binding is hashed under a domain separator, and the hash
is signed.
-/

namespace Liquet

open Text Codec Result

/-! ### Bindings -/

structure LegDigest where
  vm : Vm
  executed : Bool
  poststateDigest : String
  deriving DecidableEq, Repr

structure PolicySnapshot where
  maxSettleSeverity : Severity
  requireExecuted : Bool
  requireRecoveredFacts : Bool
  deriving DecidableEq, Repr

def PolicySnapshot.of (p : GatePolicy) : PolicySnapshot :=
  { maxSettleSeverity := p.maxSettleSeverity
    requireExecuted := p.requireExecuted
    requireRecoveredFacts := p.requireRecoveredFacts }

/-- The facts a signed decision commits to. -/
structure DecisionBinding where
  settlementId : String
  claimHash : String
  legs : List LegDigest
  reconcile : ReconcileVerdict
  invariant : InvariantVerdict
  policy : PolicySnapshot
  decision : LiquetDecision
  deriving DecidableEq, Repr

def LegDigest.of (l : ReexecProof) : LegDigest :=
  { vm := l.vm, executed := l.executed, poststateDigest := l.poststateDigest }

def DecisionBinding.new (proof : CrossVmProof) (invariant : InvariantVerdict)
    (policy : GatePolicy) (decision : LiquetDecision) : DecisionBinding :=
  { settlementId := proof.settlementId
    claimHash := proof.claimHash
    legs := proof.legs.map LegDigest.of
    reconcile := proof.reconcile
    invariant := invariant
    policy := PolicySnapshot.of policy
    decision := decision }

/-! ### JSON -/

def LegDigest.write (l : LegDigest) : Json :=
  .obj [("vm", Vm.codec.write l.vm), ("executed", .bool l.executed),
    ("poststate_digest", .str l.poststateDigest)]

def LegDigest.read (j : Json) : Option LegDigest := do
  let fields ← structFields ["vm", "executed", "poststate_digest"] j
  let vm ← required Vm.codec.read "vm" fields
  let executed ← required readBool "executed" fields
  let poststateDigest ← required readString "poststate_digest" fields
  some { vm, executed, poststateDigest }

def LegDigest.codec : Codec LegDigest where
  write := LegDigest.write
  read := LegDigest.read
  numberFree _ := ⟨trivial, trivial, trivial, trivial⟩
  read_write l := by
    have hvm := Vm.codec.read_write l.vm
    simp [LegDigest.write, LegDigest.read, structFields, required, hvm, readBool, readString]

def PolicySnapshot.write (p : PolicySnapshot) : Json :=
  .obj [("max_settle_severity", Severity.codec.write p.maxSettleSeverity),
    ("require_executed", .bool p.requireExecuted),
    ("require_recovered_facts", .bool p.requireRecoveredFacts)]

def PolicySnapshot.read (j : Json) : Option PolicySnapshot := do
  let fields ← structFields
    ["max_settle_severity", "require_executed", "require_recovered_facts"] j
  let maxSettleSeverity ← required Severity.codec.read "max_settle_severity" fields
  let requireExecuted ← required readBool "require_executed" fields
  let requireRecoveredFacts ← required readBool "require_recovered_facts" fields
  some { maxSettleSeverity, requireExecuted, requireRecoveredFacts }

def PolicySnapshot.codec : Codec PolicySnapshot where
  write := PolicySnapshot.write
  read := PolicySnapshot.read
  numberFree _ := ⟨trivial, trivial, trivial, trivial⟩
  read_write p := by
    have hseverity := Severity.codec.read_write p.maxSettleSeverity
    simp [PolicySnapshot.write, PolicySnapshot.read, structFields, required, hseverity, readBool]

def DecisionBinding.write (b : DecisionBinding) : Json :=
  .obj [("settlement_id", .str b.settlementId), ("claim_hash", .str b.claimHash),
    ("legs", (Codec.list LegDigest.codec).write b.legs),
    ("reconcile", ReconcileVerdict.codec.write b.reconcile),
    ("invariant", InvariantVerdict.codec.write b.invariant),
    ("policy", PolicySnapshot.codec.write b.policy),
    ("decision", b.decision.write)]

/-- The derived reader. The binding's own braces take one of the depth that
remains. -/
def DecisionBinding.read (depth : ℕ) (j : Json) : Option DecisionBinding := do
  let fields ← structFields ["settlement_id", "claim_hash", "legs", "reconcile", "invariant",
    "policy", "decision"] j
  let settlementId ← required readString "settlement_id" fields
  let claimHash ← required readString "claim_hash" fields
  let legs ← required (Codec.list LegDigest.codec).read "legs" fields
  let reconcile ← required ReconcileVerdict.codec.read "reconcile" fields
  let invariant ← required InvariantVerdict.codec.read "invariant" fields
  let policy ← required PolicySnapshot.codec.read "policy" fields
  let decision ← required (LiquetDecision.read (depth - 1)) "decision" fields
  some { settlementId, claimHash, legs, reconcile, invariant, policy, decision }

theorem DecisionBinding.read_write {depth : ℕ} (hdepth : 3 < depth) (b : DecisionBinding) :
    DecisionBinding.read depth b.write = some b := by
  have hlegs := (Codec.list LegDigest.codec).read_write b.legs
  have hreconcile := ReconcileVerdict.codec.read_write b.reconcile
  have hinvariant := InvariantVerdict.codec.read_write b.invariant
  have hpolicy := PolicySnapshot.codec.read_write b.policy
  have hdecision := LiquetDecision.read_write (by omega : 2 < depth - 1) b.decision
  simp [DecisionBinding.write, DecisionBinding.read, structFields, required, readString, hlegs,
    hreconcile, hinvariant, hpolicy, hdecision]

def DecisionBinding.codec : Codec DecisionBinding where
  write := DecisionBinding.write
  read := DecisionBinding.read Json.recursionLimit
  numberFree b :=
    ⟨trivial, trivial, (Codec.list LegDigest.codec).numberFree b.legs,
      ReconcileVerdict.codec.numberFree b.reconcile,
      InvariantVerdict.codec.numberFree b.invariant,
      PolicySnapshot.codec.numberFree b.policy, LiquetDecision.codec.numberFree b.decision,
      trivial⟩
  read_write := DecisionBinding.read_write (by decide)

/-! ### The digest -/

def utf8 (s : String) : List UInt8 := s.toUTF8.data.toList

theorem utf8_injective : Function.Injective utf8 := by
  intro s t h
  apply String.toByteArray_inj.mp
  exact ByteArray.ext (Array.toList_inj.mp h)

/-- `b"liquet/decision/v2\0"`. -/
def domain : List UInt8 := utf8 "liquet/decision/v2\x00"

/-- The bytes `digest` feeds to SHA-256. -/
def DecisionBinding.preimage (b : DecisionBinding) : List UInt8 :=
  domain ++ utf8 (DecisionBinding.codec.toText b)

/-- The hash the signature commits to. -/
def DecisionBinding.digest (P : Primitives) (b : DecisionBinding) : Digest := P.sha256 b.preimage

theorem DecisionBinding.preimage_injective : Function.Injective DecisionBinding.preimage := by
  intro b b' h
  have htext := utf8_injective (List.append_cancel_left h)
  exact DecisionBinding.codec.toText_injective htext

theorem map_legDigest_eq_iff (legs legs' : List ReexecProof) :
    legs.map LegDigest.of = legs'.map LegDigest.of ↔
      legs.map (fun l => (l.vm, l.executed, l.poststateDigest)) =
        legs'.map (fun l => (l.vm, l.executed, l.poststateDigest)) := by
  let fields : LegDigest → Vm × Bool × String := fun l => (l.vm, l.executed, l.poststateDigest)
  have hfields : Function.Injective fields := by
    rintro ⟨vm, executed, digest⟩ ⟨vm', executed', digest'⟩ h
    simpa [fields] using h
  have hmap (ls : List ReexecProof) :
      ls.map (fun l => (l.vm, l.executed, l.poststateDigest)) =
        (ls.map LegDigest.of).map fields := by
    rw [List.map_map]
    rfl
  rw [hmap, hmap]
  exact (List.map_injective_iff.mpr hfields).eq_iff.symm

theorem findings_eq_iff (fs fs' : List Finding) :
    fs = fs' ↔ fs.map (fun f => (f.severity, f.code, f.account, f.message)) =
      fs'.map (fun f => (f.severity, f.code, f.account, f.message)) := by
  have hfields : Function.Injective
      (fun f : Finding => (f.severity, f.code, f.account, f.message)) := by
    rintro ⟨severity, code, account, message⟩ ⟨severity', code', account', message'⟩ h
    simpa using h
  exact (List.map_injective_iff.mpr hfields).eq_iff.symm

/-- The digest is the hash of the preimage, and two tuples have the same
preimage exactly when they agree on everything the binding takes from them. -/
theorem preimage_new_eq_iff (proof proof' : CrossVmProof) (invariant invariant' : InvariantVerdict)
    (policy policy' : GatePolicy) (decision decision' : LiquetDecision) :
    let b := DecisionBinding.new proof invariant policy decision
    let b' := DecisionBinding.new proof' invariant' policy' decision'
    (∀ P : Primitives, b.digest P = P.sha256 b.preimage) ∧
    b.preimage = utf8 "liquet/decision/v2\x00" ++ utf8 (DecisionBinding.codec.toText b) ∧
    (b.preimage = b'.preimage ↔
      proof.settlementId = proof'.settlementId ∧
      proof.claimHash = proof'.claimHash ∧
      proof.legs.map (fun l => (l.vm, l.executed, l.poststateDigest)) =
        proof'.legs.map (fun l => (l.vm, l.executed, l.poststateDigest)) ∧
      proof.reconcile = proof'.reconcile ∧
      invariant.level = invariant'.level ∧
      invariant.findings.map (fun f => (f.severity, f.code, f.account, f.message)) =
        invariant'.findings.map (fun f => (f.severity, f.code, f.account, f.message)) ∧
      policy.maxSettleSeverity = policy'.maxSettleSeverity ∧
      policy.requireExecuted = policy'.requireExecuted ∧
      policy.requireRecoveredFacts = policy'.requireRecoveredFacts ∧
      decision = decision') := by
  intro b b'
  refine ⟨fun P => rfl, rfl, ?_⟩
  have hinvariant : invariant = invariant' ↔
      invariant.level = invariant'.level ∧ invariant.findings = invariant'.findings := by
    obtain ⟨level, findings⟩ := invariant
    obtain ⟨level', findings'⟩ := invariant'
    simp
  rw [DecisionBinding.preimage_injective.eq_iff]
  simp only [b, b', DecisionBinding.new, PolicySnapshot.of, DecisionBinding.mk.injEq,
    PolicySnapshot.mk.injEq]
  rw [map_legDigest_eq_iff, hinvariant, findings_eq_iff]
  simp only [and_assoc]

/-! ### What the binding shows of its legs -/

/-- The gate's promise about the legs it is given: if it settles, every leg
meets the policy, and no leg of the signed binding shows `executed = false`
beside `require_executed = true`. -/
def CrossvmEnforcesPolicy (proof : CrossVmProof) (invariant : InvariantVerdict)
    (policy : GatePolicy) : Prop :=
  let decision := Gate.decideCrossvm proof invariant policy
  let binding := DecisionBinding.new proof invariant policy decision
  decision.isSettle = true →
    (∀ leg ∈ proof.legs, Gate.LegMeets policy leg) ∧
      (binding.policy.requireExecuted = true → ∀ leg ∈ binding.legs, leg.executed = true)

/-- The cross-VM gate keeps that promise exactly when it does not settle, or
when the legs it was given meet the policy already: unlike `decide`, which
keeps it on every input, it never looks at them. -/
theorem crossvmEnforcesPolicy_iff (proof : CrossVmProof) (invariant : InvariantVerdict)
    (policy : GatePolicy) :
    (∀ intent leg, (Gate.decide intent leg invariant policy).isSettle = true →
        Gate.LegMeets policy leg) ∧
      (CrossvmEnforcesPolicy proof invariant policy ↔
        proof.reconcile ≠ .matched ∨ policy.maxSettleSeverity < invariant.level ∨
          ∀ leg ∈ proof.legs, Gate.LegMeets policy leg) := by
  refine ⟨fun intent leg h => Gate.legMeets_of_isSettle_decide h, ?_⟩
  unfold CrossvmEnforcesPolicy
  dsimp only
  rw [Gate.isSettle_decideCrossvm_iff]
  constructor
  · intro h
    by_cases hmatched : proof.reconcile = .matched
    · by_cases hlevel : invariant.level ≤ policy.maxSettleSeverity
      · exact .inr (.inr (h ⟨hmatched, hlevel⟩).1)
      · exact .inr (.inl (not_le.mp hlevel))
    · exact .inl hmatched
  · rintro h ⟨hmatched, hlevel⟩
    have hlegs : ∀ leg ∈ proof.legs, Gate.LegMeets policy leg := by
      rcases h with h | h | h
      · exact absurd hmatched h
      · exact absurd hlevel (not_le.mpr h)
      · exact h
    refine ⟨hlegs, fun hrequire leg hleg => ?_⟩
    obtain ⟨l, hl, rfl⟩ := List.mem_map.mp hleg
    exact (hlegs l hl).2.1 hrequire

/-- A leg that did not execute, under a verdict that says all did. -/
def unexecutedLeg : ReexecProof :=
  { vm := .svm, executed := false, poststateDigest := "svm-dig", coveredAccounts := [],
    factsSource := .producerRecovered, asset := none, amount := none, recipient := none,
    unverifiableReason := none }

theorem crossvm_settles_unexecuted_leg :
    ¬CrossvmEnforcesPolicy
      { reconcile := .matched, reasons := [], legs := [unexecutedLeg], claimHash := "claim-abc",
        settlementId := "settlement-1" } .green .default := by
  intro h
  have hlegs := (h (by decide)).1 unexecutedLeg (by simp)
  exact absurd hlegs (by decide)

/-! ### Signing and verifying -/

/-- A decision plus the signature that makes it non-repudiable. The signer's
public key and the signature are hexadecimal text. -/
structure SignedDecision where
  binding : DecisionBinding
  signer : String
  signature : String
  deriving DecidableEq, Repr

def SignedDecision.write (s : SignedDecision) : Json :=
  .obj [("binding", s.binding.write), ("signer", .str s.signer),
    ("signature", .str s.signature)]

def SignedDecision.read (j : Json) : Option SignedDecision := do
  let fields ← structFields ["binding", "signer", "signature"] j
  let binding ← required (DecisionBinding.read (Json.recursionLimit - 1)) "binding" fields
  let signer ← required readString "signer" fields
  let signature ← required readString "signature" fields
  some { binding, signer, signature }

def SignedDecision.codec : Codec SignedDecision where
  write := SignedDecision.write
  read := SignedDecision.read
  numberFree s := ⟨DecisionBinding.codec.numberFree s.binding, trivial, trivial, trivial⟩
  read_write s := by
    have hbinding := DecisionBinding.read_write (by decide : 3 < Json.recursionLimit - 1) s.binding
    simp [SignedDecision.write, SignedDecision.read, structFields, required, readString, hbinding]

inductive VerifyError
  | signerMismatch
  | malformed
  | badSignature
  deriving DecidableEq, Repr

section

variable (P : Primitives)

def signerHex (key : SigningKey) : String :=
  hexEncode (P.keyToBytes (P.verifyingKey key)).toList

def signDecision (binding : DecisionBinding) (key : SigningKey) : SignedDecision :=
  { signer := signerHex P key
    signature := hexEncode
      (P.signatureToBytes (P.sign key (binding.digest P).toList)).toList
    binding := binding }

/-- Is the signature valid for the binding under the key the receipt names? -/
def verifySelfConsistent (signed : SignedDecision) : Except VerifyError Unit := do
  let pk ← okOr (hexDecodeArray 32 signed.signer) .malformed
  let vk ← okOr (P.keyFromBytes pk) .malformed
  let sigBytes ← okOr (hexDecode signed.signature) .malformed
  let sig ← okOr (P.signatureFromSlice sigBytes) .malformed
  if P.verifyStrict vk (signed.binding.digest P).toList sig then .ok ()
  else .error .badSignature

/-- Verification against a trusted signer: the names are compared as text, up
to ASCII case, before anything else. -/
def verifyDecision (signed : SignedDecision) (trustedSigner : String) :
    Except VerifyError Unit :=
  if !eqIgnoreAsciiCase trustedSigner signed.signer then .error .signerMismatch
  else verifySelfConsistent P signed

variable {P}

theorem verifySelfConsistent_eq_ok {s : SignedDecision} :
    verifySelfConsistent P s = .ok () ↔
      ∃ pk vk sigBytes sig, hexDecodeArray 32 s.signer = some pk ∧ P.keyFromBytes pk = some vk ∧
        hexDecode s.signature = some sigBytes ∧ P.signatureFromSlice sigBytes = some sig ∧
        P.verifyStrict vk (s.binding.digest P).toList sig = true := by
  rw [verifySelfConsistent]
  constructor
  · intro h
    obtain ⟨pk, hpk, h⟩ := bind_eq_ok.mp h
    obtain ⟨vk, hvk, h⟩ := bind_eq_ok.mp h
    obtain ⟨sigBytes, hbytes, h⟩ := bind_eq_ok.mp h
    obtain ⟨sig, hsig, h⟩ := bind_eq_ok.mp h
    refine ⟨pk, vk, sigBytes, sig, okOr_eq_ok.mp hpk, okOr_eq_ok.mp hvk, okOr_eq_ok.mp hbytes,
      okOr_eq_ok.mp hsig, ?_⟩
    by_contra hnot
    rw [if_neg hnot] at h
    cases h
  · rintro ⟨pk, vk, sigBytes, sig, hpk, hvk, hbytes, hsig, hverify⟩
    rw [hpk, hbytes]
    simp only [okOr, bind_ok, hvk, hsig]
    exact if_pos hverify

theorem verifyDecision_eq_ok {s : SignedDecision} {trustedSigner : String} :
    verifyDecision P s trustedSigner = .ok () ↔
      asciiLower trustedSigner = asciiLower s.signer ∧ verifySelfConsistent P s = .ok () := by
  rw [verifyDecision, ← eqIgnoreAsciiCase_iff]
  cases eqIgnoreAsciiCase trustedSigner s.signer <;> simp

theorem hexDecodeArray_of_verifyDecision {s : SignedDecision} {trustedSigner : String}
    (h : verifyDecision P s trustedSigner = .ok ()) :
    hexDecodeArray 32 trustedSigner = hexDecodeArray 32 s.signer :=
  hexDecodeArray_congr (verifyDecision_eq_ok.mp h).1

theorem verifyDecision_signDecision {key : SigningKey} (hkey : P.SignsCorrectly key)
    (b : DecisionBinding) :
    verifyDecision P (signDecision P b key) (signerHex P key) = .ok () := by
  rw [verifyDecision_eq_ok, verifySelfConsistent_eq_ok]
  exact ⟨rfl, _, _, _, _, hexDecodeArray_hexEncode _, hkey.key_bytes, hexDecode_hexEncode _,
    hkey.signature_bytes _, hkey.verifies _⟩

/-- Bindings whose preimages are free of collisions are told apart by their
digests: the encoding is injective, so only the hash could confuse them. -/
theorem digest_injOn {S : Set DecisionBinding}
    (hS : P.CollisionFree (DecisionBinding.preimage '' S)) :
    Set.InjOn (DecisionBinding.digest P) S := by
  intro b hb b' hb' h
  have hpre := hS (Set.mem_image_of_mem _ hb) (Set.mem_image_of_mem _ hb') h
  exact DecisionBinding.preimage_injective hpre

end

/-! ### The golden vector -/

/-- The decision the repository's tests sign: two executed legs, matched, on a
green verdict and the default policy. -/
def goldenBinding : DecisionBinding :=
  let leg (vm : Vm) (digest : String) : ReexecProof :=
    { vm := vm, executed := true, poststateDigest := digest, coveredAccounts := [],
      factsSource := .producerRecovered, asset := none, amount := none, recipient := none,
      unverifiableReason := none }
  DecisionBinding.new
    { reconcile := .matched, reasons := [], legs := [leg .evm "evm-dig", leg .svm "svm-dig"],
      claimHash := "claim-abc", settlementId := "settlement-1" }
    .green .default (.settle [])

theorem digest_goldenBinding :
    goldenBinding.digest Reference.primitives = Reference.goldenDigest := by
  decide +kernel

def goldenSigned : SignedDecision :=
  { binding := goldenBinding, signer := hexEncode Reference.operatorPublic.toList
    signature := hexEncode Reference.goldenSignature.toList }

theorem signDecision_goldenBinding :
    signDecision Reference.primitives goldenBinding Reference.operatorKey = goldenSigned := by
  unfold signDecision signerHex goldenSigned
  rw [digest_goldenBinding, Reference.sign_operatorKey, Reference.verifyingKey_operatorKey]
  rfl

end Liquet
