import Liquet.Crypto.Primitives
import Liquet.Crypto.Sha256

/-!
An instance of the primitives to evaluate the development on. The hash is
SHA-256. The signatures are those of ed25519 for the operator key of the
repository's tests on the digest of its golden vector; on any other key or
message a stand-in that is still one signature for each key and hash.
-/

namespace Liquet.Reference

open Text

/-- `SigningKey::from_bytes(&[7u8; 32])`. -/
def operatorKey : SigningKey := ⟨List.replicate 32 7, rfl⟩

def operatorPublic : Bytes 32 := ⟨[
    0xea, 0x4a, 0x6c, 0x63, 0xe2, 0x9c, 0x52, 0x0a, 0xbe, 0xf5, 0x50, 0x7b, 0x13, 0x2e, 0xc5, 0xf9,
    0x95, 0x47, 0x76, 0xae, 0xbe, 0xbe, 0x7b, 0x92, 0x42, 0x1e, 0xea, 0x69, 0x14, 0x46, 0xd2, 0x2c], rfl⟩

/-- The digest `attest.rs` locks as its golden vector. -/
def goldenDigest : Digest := ⟨[
    0xdd, 0x2c, 0x88, 0x52, 0x21, 0x95, 0x11, 0x9e, 0x46, 0x54, 0x19, 0xb6, 0x7c, 0xda, 0xaf, 0x02,
    0x57, 0xd4, 0x2d, 0x1d, 0x05, 0x26, 0x65, 0x3c, 0x3b, 0xe4, 0xd3, 0xe4, 0x7c, 0x99, 0x95, 0xb4], rfl⟩

def goldenSignature : Bytes 64 := ⟨[
    0x6c, 0x1e, 0x94, 0x4c, 0xc9, 0x92, 0x2e, 0x70, 0xc6, 0x00, 0x02, 0x39, 0xbd, 0x57, 0x8b, 0xd9,
    0xb9, 0xa2, 0x2c, 0x03, 0x16, 0xb2, 0x82, 0x70, 0x0a, 0x59, 0xbf, 0x53, 0x7d, 0xf6, 0x47, 0x08,
    0x3b, 0x08, 0x6b, 0xc2, 0x9f, 0x7e, 0xe7, 0x5d, 0x67, 0x34, 0xbb, 0x45, 0x42, 0x60, 0x6d, 0x36,
    0x0d, 0x3d, 0x81, 0x5c, 0xe0, 0x58, 0x47, 0x84, 0xcc, 0x67, 0x1b, 0x43, 0xe5, 0xc6, 0xb4, 0x0d], rfl⟩

def publicKey (key : SigningKey) : Bytes 32 :=
  if key = operatorKey then operatorPublic else key

def signature (vk : Bytes 32) (m : List UInt8) : Bytes 64 :=
  if vk = operatorPublic ∧ m = goldenDigest.toList then goldenSignature
  else ⟨vk.toList ++ (Sha256.hash m).toList, by simp⟩

def primitives : Primitives where
  sha256 := Sha256.hash
  VerifyingKey := Bytes 32
  Signature := Bytes 64
  verifyingKey := publicKey
  keyToBytes := id
  keyFromBytes := some
  sign key m := signature (publicKey key) m
  signatureToBytes := id
  signatureFromSlice bytes := if h : bytes.length = 64 then some ⟨bytes, h⟩ else none
  verifyStrict vk m s := s = signature vk m

@[simp] theorem verifyingKey_operatorKey :
    primitives.verifyingKey operatorKey = operatorPublic := by
  show publicKey operatorKey = operatorPublic
  exact if_pos rfl

theorem sign_operatorKey :
    primitives.sign operatorKey goldenDigest.toList = goldenSignature := by
  show signature (publicKey operatorKey) goldenDigest.toList = goldenSignature
  rw [show publicKey operatorKey = operatorPublic from verifyingKey_operatorKey]
  exact if_pos ⟨rfl, rfl⟩

theorem signatureFromSlice_toList (sig : Bytes 64) :
    primitives.signatureFromSlice sig.toList = some sig := by
  have hlen : sig.toList.length = 64 := List.Vector.toList_length _
  simp only [primitives, dif_pos hlen]
  rfl

theorem signsCorrectly (key : SigningKey) : primitives.SignsCorrectly key where
  key_bytes := rfl
  signature_bytes m := signatureFromSlice_toList _
  verifies m := by simp [primitives]

/-- The primitives in a world where the operator has signed the golden digest
and nothing else: no other signature verifies under any key. -/
def signedOnce : Primitives :=
  { primitives with
    verifyStrict := fun (vk : Bytes 32) m (s : Bytes 64) =>
      decide (vk = operatorPublic ∧ m = goldenDigest.toList ∧ s = goldenSignature) }

theorem signedOnce_verifyStrict {vk : Bytes 32} {m : List UInt8} {sig : Bytes 64} :
    signedOnce.verifyStrict vk m sig = true ↔
      vk = operatorPublic ∧ m = goldenDigest.toList ∧ sig = goldenSignature :=
  decide_eq_true_iff

theorem signedOnce_signatureFromSlice (sig : Bytes 64) :
    signedOnce.signatureFromSlice sig.toList = some sig :=
  signatureFromSlice_toList sig

end Liquet.Reference
