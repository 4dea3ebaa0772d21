import Mathlib.Data.Set.Function
import Liquet.Text.Hex

/-!
The functions of the crates `sha2` and `ed25519_dalek` the repository calls,
as parameters, and what is assumed of them. Nothing is assumed of all inputs
that 32 bytes cannot provide: freedom from collisions is always freedom on a
set of messages.
-/

namespace Liquet

open Text

abbrev Digest := Bytes 32

/-- An ed25519 signing key is its 32-byte seed, `SigningKey::from_bytes`. -/
abbrev SigningKey := Bytes 32

structure Primitives where
  sha256 : List UInt8 → Digest
  VerifyingKey : Type
  Signature : Type
  verifyingKey : SigningKey → VerifyingKey
  keyToBytes : VerifyingKey → Bytes 32
  keyFromBytes : Bytes 32 → Option VerifyingKey
  /-- `SigningKey::sign`, which is deterministic. -/
  sign : SigningKey → List UInt8 → Signature
  signatureToBytes : Signature → Bytes 64
  signatureFromSlice : List UInt8 → Option Signature
  verifyStrict : VerifyingKey → List UInt8 → Signature → Bool

namespace Primitives

variable (P : Primitives)

/-- No two of these messages have the same hash. -/
def CollisionFree (messages : Set (List UInt8)) : Prop := Set.InjOn P.sha256 messages

/-- What `ed25519_dalek` documents of a signing key: its public key and its
signatures survive their byte form, and what it signs verifies strictly. -/
structure SignsCorrectly (key : SigningKey) : Prop where
  key_bytes : P.keyFromBytes (P.keyToBytes (P.verifyingKey key)) = some (P.verifyingKey key)
  signature_bytes : ∀ m,
    P.signatureFromSlice (P.signatureToBytes (P.sign key m)).toList = some (P.sign key m)
  verifies : ∀ m, P.verifyStrict (P.verifyingKey key) m (P.sign key m) = true

/-- Strict verification under the public key `pk` succeeds only for a
signature the holder of `pk` produced for that message, and a signature was
produced for one message only. -/
structure Unforgeable (pk : Bytes 32) (produced : List UInt8 → P.Signature → Prop) : Prop where
  produced_of_verified : ∀ vk m s, P.keyFromBytes pk = some vk →
    P.verifyStrict vk m s = true → produced m s
  one_message : ∀ m m' s, produced m s → produced m' s → m = m'

end Primitives

end Liquet
