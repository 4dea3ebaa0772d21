import Mathlib.Data.Nat.Notation
import Liquet.Text.Hex

/-!
SHA-256, as an instance of the hash the development is otherwise parametric
in. Words are natural numbers below `2 ^ 32`, reduced where they can overflow.
-/

namespace Liquet.Sha256

open Text

structure State where
  a : ℕ
  b : ℕ
  c : ℕ
  d : ℕ
  e : ℕ
  f : ℕ
  g : ℕ
  h : ℕ

def word (n : ℕ) : ℕ := n % 4294967296

def initial : State :=
  { a := 0x6a09e667, b := 0xbb67ae85, c := 0x3c6ef372, d := 0xa54ff53a,
    e := 0x510e527f, f := 0x9b05688c, g := 0x1f83d9ab, h := 0x5be0cd19 }

def roundConstants : List ℕ :=
  [0x428a2f98, 0x71374491, 0xb5c0fbcf, 0xe9b5dba5, 0x3956c25b, 0x59f111f1, 0x923f82a4, 0xab1c5ed5,
    0xd807aa98, 0x12835b01, 0x243185be, 0x550c7dc3, 0x72be5d74, 0x80deb1fe, 0x9bdc06a7, 0xc19bf174,
    0xe49b69c1, 0xefbe4786, 0x0fc19dc6, 0x240ca1cc, 0x2de92c6f, 0x4a7484aa, 0x5cb0a9dc, 0x76f988da,
    0x983e5152, 0xa831c66d, 0xb00327c8, 0xbf597fc7, 0xc6e00bf3, 0xd5a79147, 0x06ca6351, 0x14292967,
    0x27b70a85, 0x2e1b2138, 0x4d2c6dfc, 0x53380d13, 0x650a7354, 0x766a0abb, 0x81c2c92e, 0x92722c85,
    0xa2bfe8a1, 0xa81a664b, 0xc24b8b70, 0xc76c51a3, 0xd192e819, 0xd6990624, 0xf40e3585, 0x106aa070,
    0x19a4c116, 0x1e376c08, 0x2748774c, 0x34b0bcb5, 0x391c0cb3, 0x4ed8aa4a, 0x5b9cca4f, 0x682e6ff3,
    0x748f82ee, 0x78a5636f, 0x84c87814, 0x8cc70208, 0x90befffa, 0xa4506ceb, 0xbef9a3f7, 0xc67178f2]

def rotr (n x : ℕ) : ℕ := word (x >>> n ||| x <<< (32 - n))

def round (s : State) (kw : ℕ) : State :=
  let choice := (s.e &&& s.f) ^^^ ((4294967295 - s.e) &&& s.g)
  let majority := (s.a &&& s.b) ^^^ (s.a &&& s.c) ^^^ (s.b &&& s.c)
  let t₁ := s.h + (rotr 6 s.e ^^^ rotr 11 s.e ^^^ rotr 25 s.e) + choice + kw
  let t₂ := (rotr 2 s.a ^^^ rotr 13 s.a ^^^ rotr 22 s.a) + majority
  { a := word (t₁ + t₂), b := s.a, c := s.b, d := s.c,
    e := word (s.d + t₁), f := s.e, g := s.f, h := s.g }

/-- The next word of the schedule, whose words so far come newest first. -/
def nextWord (ws : List ℕ) : ℕ :=
  let w₂ := ws.getD 1 0
  let w₁₅ := ws.getD 14 0
  word (ws.getD 15 0 + (rotr 7 w₁₅ ^^^ rotr 18 w₁₅ ^^^ w₁₅ >>> 3) + ws.getD 6 0 +
    (rotr 17 w₂ ^^^ rotr 19 w₂ ^^^ w₂ >>> 10))

def schedule : ℕ → List ℕ → List ℕ
  | 0, ws => ws
  | n + 1, ws => schedule n (nextWord ws :: ws)

def compress (s : State) (block : List ℕ) : State :=
  let ws := (schedule 48 block.reverse).reverse
  let t := (List.zipWith (· + ·) roundConstants ws).foldl round s
  { a := word (s.a + t.a), b := word (s.b + t.b), c := word (s.c + t.c), d := word (s.d + t.d),
    e := word (s.e + t.e), f := word (s.f + t.f), g := word (s.g + t.g), h := word (s.h + t.h) }

def pad (message : List UInt8) : List UInt8 :=
  let bits := 8 * message.length
  let zeros : List UInt8 := List.replicate ((119 - message.length % 64) % 64) 0
  message ++ 128 :: zeros ++ (List.range 8).map fun i => UInt8.ofNat (bits >>> (56 - 8 * i))

def words : List UInt8 → List ℕ
  | a :: b :: c :: d :: rest =>
      (a.toNat * 16777216 + b.toNat * 65536 + c.toNat * 256 + d.toNat) :: words rest
  | _ => []

def blocks : ℕ → State → List ℕ → State
  | 0, s, _ => s
  | n + 1, s, ws => blocks n (compress s (ws.take 16)) (ws.drop 16)

def wordBytes (w : ℕ) : List UInt8 :=
  [UInt8.ofNat (w >>> 24), UInt8.ofNat (w >>> 16), UInt8.ofNat (w >>> 8), UInt8.ofNat w]

def hash (message : List UInt8) : Bytes 32 :=
  let ws := words (pad message)
  let s := blocks (ws.length / 16) initial ws
  ⟨wordBytes s.a ++ wordBytes s.b ++ wordBytes s.c ++ wordBytes s.d ++
    wordBytes s.e ++ wordBytes s.f ++ wordBytes s.g ++ wordBytes s.h, rfl⟩

example : hexEncode (hash [97, 98, 99]).toList =
    "ba7816bf8f01cfea414140de5dae2223b00361a396177a9cb410ff61f20015ad" := by
  decide +kernel

end Liquet.Sha256
