import Liquet.Attest

/-!
The trusted signer of `verify_decision` is compared as text and used as a key.
Both come to the same: two texts are equal up to ASCII case exactly when they
name one key, wherever they name a key at all.
-/

namespace Liquet

open Text Result

section

variable {P : Primitives} {s s' : SignedDecision} {trustedSigner trustedSigner' : String}

theorem verifySelfConsistent_ne_signerMismatch :
    verifySelfConsistent P s ≠ .error .signerMismatch := by
  intro h
  rcases bind_eq_error.mp h with h | ⟨pk, -, h⟩
  · cases (okOr_eq_error.mp h).2
  rcases bind_eq_error.mp h with h | ⟨vk, -, h⟩
  · cases (okOr_eq_error.mp h).2
  rcases bind_eq_error.mp h with h | ⟨bytes, -, h⟩
  · cases (okOr_eq_error.mp h).2
  rcases bind_eq_error.mp h with h | ⟨sig, -, h⟩
  · cases (okOr_eq_error.mp h).2
  split at h <;> cases h

/-- The comparison of the signers comes first and is the one source of its
error. -/
theorem verifyDecision_eq_signerMismatch :
    verifyDecision P s trustedSigner = .error .signerMismatch ↔
      asciiLower trustedSigner ≠ asciiLower s.signer := by
  rw [verifyDecision, ne_eq, ← eqIgnoreAsciiCase_iff]
  cases eqIgnoreAsciiCase trustedSigner s.signer with
  | false => simp
  | true => simp [verifySelfConsistent_ne_signerMismatch]

theorem verifySelfConsistent_congr (hbinding : s.binding = s'.binding)
    (hsigner : asciiLower s.signer = asciiLower s'.signer)
    (hsignature : asciiLower s.signature = asciiLower s'.signature) :
    verifySelfConsistent P s = verifySelfConsistent P s' := by
  rw [verifySelfConsistent, verifySelfConsistent, hexDecodeArray_congr hsigner,
    hexDecode_congr hsignature, hbinding]

theorem verifyDecision_congr (htrusted : asciiLower trustedSigner = asciiLower trustedSigner')
    (hbinding : s.binding = s'.binding) (hsigner : asciiLower s.signer = asciiLower s'.signer)
    (hsignature : asciiLower s.signature = asciiLower s'.signature) :
    verifyDecision P s trustedSigner = verifyDecision P s' trustedSigner' := by
  have hpin : eqIgnoreAsciiCase trustedSigner s.signer =
      eqIgnoreAsciiCase trustedSigner' s'.signer := by
    rw [eqIgnoreAsciiCase, eqIgnoreAsciiCase, htrusted, hsigner]
  rw [verifyDecision, verifyDecision, hpin, verifySelfConsistent_congr hbinding hsigner hsignature]

theorem asciiLower_eq_of_hexDecodeArray {n : ℕ} {t t' : String} {pk : Bytes n}
    (h : hexDecodeArray n t = some pk) (h' : hexDecodeArray n t' = some pk) :
    asciiLower t = asciiLower t' :=
  asciiLower_eq_of_hexDecode (hexDecodeArray_eq_some.mp h) (hexDecodeArray_eq_some.mp h')

end

/-- Pinning a signer by text is pinning it by key: a receipt is accepted
exactly when both texts name one key under which its signature verifies; no
letter case matters to the result or the error; and it is `SignerMismatch`
exactly when the texts differ other than by case, so under any other key. -/
theorem verifyDecision_pins_key (P : Primitives) (s : SignedDecision) (trustedSigner : String) :
    (verifyDecision P s trustedSigner = .ok () ↔
        ∃ pk vk sigBytes sig, hexDecodeArray 32 trustedSigner = some pk ∧
          hexDecodeArray 32 s.signer = some pk ∧ P.keyFromBytes pk = some vk ∧
          hexDecode s.signature = some sigBytes ∧ P.signatureFromSlice sigBytes = some sig ∧
          P.verifyStrict vk (s.binding.digest P).toList sig = true) ∧
      (∀ s' trustedSigner', s'.binding = s.binding →
        asciiLower trustedSigner' = asciiLower trustedSigner →
        asciiLower s'.signer = asciiLower s.signer →
        asciiLower s'.signature = asciiLower s.signature →
        verifyDecision P s' trustedSigner' = verifyDecision P s trustedSigner) ∧
      (verifyDecision P s trustedSigner = .error .signerMismatch ↔
        asciiLower trustedSigner ≠ asciiLower s.signer) ∧
      (hexDecodeArray 32 trustedSigner ≠ hexDecodeArray 32 s.signer →
        verifyDecision P s trustedSigner = .error .signerMismatch) := by
  refine ⟨⟨?_, ?_⟩, ?_, verifyDecision_eq_signerMismatch, ?_⟩
  · intro h
    obtain ⟨pk, vk, sigBytes, sig, hpk, hverify⟩ :=
      verifySelfConsistent_eq_ok.mp (verifyDecision_eq_ok.mp h).2
    exact ⟨pk, vk, sigBytes, sig, (hexDecodeArray_of_verifyDecision h).trans hpk, hpk, hverify⟩
  · rintro ⟨pk, vk, sigBytes, sig, htrusted, hpk, hverify⟩
    rw [verifyDecision_eq_ok, verifySelfConsistent_eq_ok]
    exact ⟨asciiLower_eq_of_hexDecodeArray htrusted hpk, pk, vk, sigBytes, sig, hpk, hverify⟩
  · intro s' trustedSigner' hbinding htrusted hsigner hsignature
    exact verifyDecision_congr htrusted hbinding hsigner hsignature
  · intro hne
    rw [verifyDecision_eq_signerMismatch]
    intro hcase
    exact hne (hexDecodeArray_congr hcase)

end Liquet
