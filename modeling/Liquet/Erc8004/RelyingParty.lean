import Liquet.Erc8004.Response

/-!
What a relying party may conclude from a bundle it accepts, against an
adversary who writes every text it sees. The holder of a key signs bindings
and nothing else: `issued pk b sig` says that the holder of `pk` signed `b`,
with the signature `sig`. Hashes are compared on a set `S` of bindings that
SHA-256 tells apart and that every issued binding is in.
-/

namespace Liquet.Erc8004

open Text

section

variable {P : Primitives} {issued : Bytes 32 → DecisionBinding → P.Signature → Prop}
  {S : Set DecisionBinding} {pk : Bytes 32}

/-- The messages the holder of a key has signed, with their signatures. -/
def signedMessage (P : Primitives) (issued : DecisionBinding → P.Signature → Prop)
    (m : List UInt8) (sig : P.Signature) : Prop :=
  ∃ b, issued b sig ∧ m = (b.digest P).toList

theorem issued_of_verifySelfConsistent
    (hcollision : P.CollisionFree (DecisionBinding.preimage '' S))
    (hissued : ∀ b sig, issued pk b sig → b ∈ S)
    (hunforgeable : P.Unforgeable pk (signedMessage P (issued pk)))
    {s : SignedDecision} (hs : s.binding ∈ S) (hpk : hexDecodeArray 32 s.signer = some pk)
    (h : verifySelfConsistent P s = .ok ()) :
    ∃ bytes sig, hexDecode s.signature = some bytes ∧
      P.signatureFromSlice bytes = some sig ∧ issued pk s.binding sig := by
  obtain ⟨pk', vk, bytes, sig, hpk', hvk, hbytes, hsig, hverify⟩ :=
    verifySelfConsistent_eq_ok.mp h
  obtain rfl : pk = pk' := Option.some.inj (hpk.symm.trans hpk')
  refine ⟨bytes, sig, hbytes, hsig, ?_⟩
  -- the verified message is the digest of some issued binding, which only `s.binding` has
  obtain ⟨b, hb, hdigest⟩ := hunforgeable.produced_of_verified vk _ sig hvk hverify
  have heq : s.binding = b :=
    digest_injOn hcollision hs (hissued b sig hb) (List.Vector.eq _ _ hdigest)
  rw [heq]
  exact hb

/-- An accepted bundle was issued by the holder of the key the pinned signer
names. -/
theorem issued_of_verifyBundle
    (hcollision : P.CollisionFree (DecisionBinding.preimage '' S))
    (hissued : ∀ pk b sig, issued pk b sig → b ∈ S)
    {bundleJson hash trustedSigner : String} {vr : ValidationResponse}
    (hS : ∀ s, parseBundle bundleJson = some s → s.binding ∈ S)
    (hunforgeable : ∀ pk, hexDecodeArray 32 trustedSigner = some pk →
      P.Unforgeable pk (signedMessage P (issued pk)))
    (h : verifyBundle P bundleJson hash trustedSigner = .ok vr) :
    ∃ s pk sig, parseBundle bundleJson = some s ∧ hexDecodeArray 32 trustedSigner = some pk ∧
      issued pk s.binding sig ∧
      asciiLower (hexEncode (s.binding.digest P).toList) = asciiLower hash ∧
      validationResponse P s = vr := by
  obtain ⟨s, hparse, hhash, hverify, hvr⟩ := verifyBundle_eq_ok.mp h
  have hself := (verifyDecision_eq_ok.mp hverify).2
  obtain ⟨pk, -, -, -, hpk, -⟩ := verifySelfConsistent_eq_ok.mp hself
  -- the signers are compared as texts, but the texts decode to one key
  have htrusted : hexDecodeArray 32 trustedSigner = some pk :=
    (hexDecodeArray_of_verifyDecision hverify).trans hpk
  obtain ⟨-, sig, -, -, hsig⟩ := issued_of_verifySelfConsistent hcollision (hissued pk)
    (hunforgeable pk htrusted) (hS s hparse) hpk hself
  exact ⟨s, pk, sig, hparse, htrusted, hsig, hhash, hvr⟩

theorem verifyBundle_ne_ok {b b' : DecisionBinding}
    (hcollision : P.CollisionFree (DecisionBinding.preimage '' S)) (hb : b ∈ S) (hb' : b' ∈ S)
    (hne : b' ≠ b) {bundleJson hash trustedSigner : String} {s : SignedDecision}
    {vr : ValidationResponse} (hparse : parseBundle bundleJson = some s) (hs : s.binding = b')
    (hhash : asciiLower hash = asciiLower (hexEncode (b.digest P).toList)) :
    verifyBundle P bundleJson hash trustedSigner ≠ .ok vr := by
  intro haccepted
  obtain ⟨s', hparse', hhash', -, -⟩ := verifyBundle_eq_ok.mp haccepted
  obtain rfl : s = s' := Option.some.inj (hparse.symm.trans hparse')
  have hbytes := asciiLower_hexEncode_inj (hhash'.trans hhash)
  rw [hs] at hbytes
  apply hne
  exact digest_injOn hcollision hb' hb (List.Vector.eq _ _ hbytes)

theorem verifyDecision_ne_ok {b : DecisionBinding} {sig : P.Signature}
    (hcollision : P.CollisionFree (DecisionBinding.preimage '' S))
    (hissued : ∀ b sig, issued pk b sig → b ∈ S)
    (hunforgeable : P.Unforgeable pk (signedMessage P (issued pk))) (hb : issued pk b sig)
    {s : SignedDecision} (hs : s.binding ∈ S) (hne : s.binding ≠ b) {bytes : List UInt8}
    (hdecode : hexDecode s.signature = some bytes)
    (hsig : P.signatureFromSlice bytes = some sig) {trustedSigner : String}
    (hkey : hexDecodeArray 32 s.signer = some pk ∨ hexDecodeArray 32 trustedSigner = some pk) :
    verifyDecision P s trustedSigner ≠ .ok () := by
  intro haccepted
  have hself := (verifyDecision_eq_ok.mp haccepted).2
  have hpk : hexDecodeArray 32 s.signer = some pk := by
    rcases hkey with hkey | hkey
    · exact hkey
    · rw [← hexDecodeArray_of_verifyDecision haccepted]
      exact hkey
  obtain ⟨bytes', sig', hdecode', hsig', hissued'⟩ := issued_of_verifySelfConsistent hcollision
    hissued hunforgeable hs hpk hself
  obtain rfl : bytes = bytes' := Option.some.inj (hdecode.symm.trans hdecode')
  obtain rfl : sig = sig' := Option.some.inj (hsig.symm.trans hsig')
  -- the one signature would have been issued for two digests
  have hdigest := hunforgeable.one_message _ _ sig ⟨s.binding, hissued', rfl⟩ ⟨b, hb, rfl⟩
  apply hne
  exact digest_injOn hcollision hs (hissued _ _ hb) (List.Vector.eq _ _ hdigest)

end

/-- What acceptance means against an arbitrary adversary: the bundle, the hash
and the pinned signer are any texts. -/
theorem verifyBundle_sound {P : Primitives}
    {issued : Bytes 32 → DecisionBinding → P.Signature → Prop} {S : Set DecisionBinding}
    (hcollision : P.CollisionFree (DecisionBinding.preimage '' S))
    (hissued : ∀ pk b sig, issued pk b sig → b ∈ S) :
    (∀ bundleJson hash trustedSigner vr,
        (∀ s, parseBundle bundleJson = some s → s.binding ∈ S) →
        (∀ pk, hexDecodeArray 32 trustedSigner = some pk →
          P.Unforgeable pk (signedMessage P (issued pk))) →
        verifyBundle P bundleJson hash trustedSigner = .ok vr →
        ∃ s pk b sig, parseBundle bundleJson = some s ∧
          hexDecodeArray 32 trustedSigner = some pk ∧ issued pk b sig ∧ b = s.binding ∧
          asciiLower (hexEncode (b.digest P).toList) = asciiLower hash ∧
          ∀ s', s'.binding = b → vr = validationResponse P s') ∧
      ∀ operator b sig b', P.Unforgeable operator (signedMessage P (issued operator)) →
        issued operator b sig → b' ∈ S → b' ≠ b →
        (∀ bundleJson hash trustedSigner s' vr, parseBundle bundleJson = some s' →
            s'.binding = b' → asciiLower hash = asciiLower (hexEncode (b.digest P).toList) →
            verifyBundle P bundleJson hash trustedSigner ≠ .ok vr) ∧
          ∀ s' trustedSigner bytes, s'.binding = b' → hexDecode s'.signature = some bytes →
            P.signatureFromSlice bytes = some sig →
            hexDecodeArray 32 s'.signer = some operator ∨
              hexDecodeArray 32 trustedSigner = some operator →
            verifyDecision P s' trustedSigner ≠ .ok () := by
  refine ⟨?_, ?_⟩
  · intro bundleJson hash trustedSigner vr hS hunforgeable haccepted
    obtain ⟨s, pk, sig, hparse, hpk, hsig, hhash, hvr⟩ :=
      issued_of_verifyBundle hcollision hissued hS hunforgeable haccepted
    refine ⟨s, pk, s.binding, sig, hparse, hpk, hsig, rfl, hhash, ?_⟩
    intro s' hs'
    rw [← hvr]
    exact validationResponse_congr hs'.symm
  · intro operator b sig b' hunforgeable hb hb' hne
    refine ⟨?_, ?_⟩
    · intro bundleJson hash trustedSigner s' vr hparse hs' hhash
      exact verifyBundle_ne_ok hcollision (hissued _ _ _ hb) hb' hne hparse hs' hhash
    · rintro s' trustedSigner bytes rfl hdecode hsig hkey
      exact verifyDecision_ne_ok hcollision (hissued operator) hunforgeable hb hb' hne hdecode hsig
        hkey

/-- The golden binding with its decision flipped. -/
def forgedBinding : DecisionBinding := { goldenBinding with decision := .hold ["forged"] }

/-- The operator has signed the golden binding, once, and nobody anything else. -/
def goldenIssued (pk : Bytes 32) (b : DecisionBinding) (sig : Bytes 64) : Prop :=
  pk = Reference.operatorPublic ∧ b = goldenBinding ∧ sig = Reference.goldenSignature

theorem digest_forgedBinding_ne :
    forgedBinding.digest Reference.primitives ≠ goldenBinding.digest Reference.primitives := by
  rw [digest_goldenBinding]
  decide +kernel

theorem collisionFree_golden :
    Reference.signedOnce.CollisionFree
      (DecisionBinding.preimage '' {goldenBinding, forgedBinding}) := by
  rintro _ ⟨b, hb, rfl⟩ _ ⟨b', hb', rfl⟩ h
  rcases hb with rfl | rfl <;> rcases hb' with rfl | rfl
  · rfl
  · exact absurd h.symm digest_forgedBinding_ne
  · exact absurd h digest_forgedBinding_ne
  · rfl

theorem unforgeable_golden (pk : Bytes 32) :
    Reference.signedOnce.Unforgeable pk
      (signedMessage Reference.signedOnce (goldenIssued pk)) where
  produced_of_verified vk m sig hvk hverify := by
    obtain rfl : pk = vk := Option.some.inj hvk
    obtain ⟨hpk, hm, hsig⟩ := Reference.signedOnce_verifyStrict.mp hverify
    refine ⟨goldenBinding, ⟨hpk, rfl, hsig⟩, ?_⟩
    rw [hm]
    exact congrArg List.Vector.toList digest_goldenBinding.symm
  one_message m m' sig hm hm' := by
    obtain ⟨b, ⟨-, rfl, -⟩, rfl⟩ := hm
    obtain ⟨b', ⟨-, rfl, -⟩, rfl⟩ := hm'
    rfl

theorem verifyDecision_goldenSigned :
    verifyDecision Reference.signedOnce goldenSigned goldenSigned.signer = .ok () := by
  rw [verifyDecision_eq_ok, verifySelfConsistent_eq_ok]
  refine ⟨rfl, Reference.operatorPublic, Reference.operatorPublic,
    Reference.goldenSignature.toList, Reference.goldenSignature, hexDecodeArray_hexEncode _, rfl,
    hexDecode_hexEncode _, Reference.signedOnce_signatureFromSlice _, ?_⟩
  rw [Reference.signedOnce_verifyStrict]
  have hdigest : goldenBinding.digest Reference.signedOnce = Reference.goldenDigest :=
    digest_goldenBinding
  refine ⟨rfl, ?_, rfl⟩
  show (goldenBinding.digest Reference.signedOnce).toList = _
  rw [hdigest]

theorem verifyBundle_sound_golden :
    (∃ s pk b, parseBundle (evidenceBundleJson goldenSigned) = some s ∧
        hexDecodeArray 32 goldenSigned.signer = some pk ∧
        goldenIssued pk b Reference.goldenSignature ∧ b = s.binding) ∧
      ∀ trustedSigner, verifyDecision Reference.signedOnce
        { goldenSigned with binding := forgedBinding } trustedSigner ≠ .ok () := by
  have hissued : ∀ pk b sig, goldenIssued pk b sig →
      b ∈ ({goldenBinding, forgedBinding} : Set DecisionBinding) :=
    fun _ _ _ h => .inl h.2.1
  obtain ⟨hsound, htamper⟩ := verifyBundle_sound collisionFree_golden hissued
  have hbinding : ∀ s, parseBundle (evidenceBundleJson goldenSigned) = some s →
      s.binding ∈ ({goldenBinding, forgedBinding} : Set DecisionBinding) := by
    intro s hs
    rw [parseBundle_evidenceBundleJson] at hs
    obtain rfl := Option.some.inj hs
    exact .inl rfl
  refine ⟨?_, fun trustedSigner => ?_⟩
  · obtain ⟨s, pk, b, sig, hparse, hpk, hissued, hb, -⟩ :=
      hsound _ _ _ _ hbinding (fun pk _ => unforgeable_golden pk)
        (verifyBundle_evidenceBundleJson verifyDecision_goldenSigned)
    exact ⟨s, pk, b, hparse, hpk, ⟨hissued.1, hissued.2.1, rfl⟩, hb⟩
  · exact (htamper Reference.operatorPublic goldenBinding Reference.goldenSignature forgedBinding
      (unforgeable_golden _) ⟨rfl, rfl, rfl⟩ (.inr rfl)
      (fun h => digest_forgedBinding_ne (congrArg _ h))).2 _ trustedSigner _ rfl
      (hexDecode_hexEncode _) (Reference.signedOnce_signatureFromSlice _)
      (.inl (hexDecodeArray_hexEncode _))

end Liquet.Erc8004
