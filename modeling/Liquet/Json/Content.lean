import Liquet.Json.Reader

/-!
What serde can buffer of a JSON value. An internally tagged enumeration is taken
into memory before its variant is known, whole: there every string must be one,
every number must fit a double, and nesting counts against the recursion limit
of `serde_json`. A member that is passed over elsewhere meets none of this.
-/

namespace Liquet.Json

/-- `Deserializer::remaining_depth` at the start of a text. -/
def recursionLimit : ℕ := 128

/-! ### Numbers

`serde_json` takes the digits of a number into an integer of 64 bits, while they
fit, and scales that by a power of ten. -/

/-- The integer made of the digits that fit, and the digits left. -/
def significand : ℕ → List Char → ℕ × List Char
  | n, [] => (n, [])
  | n, c :: ds =>
      if n * 10 + (c.toNat - 48) < 2 ^ 64 then significand (n * 10 + (c.toNat - 48)) ds
      else (n, c :: ds)

def exponent : ℕ → List Char → Option ℕ
  | e, [] => some e
  | e, c :: ds =>
      if e * 10 + (c.toNat - 48) < 2 ^ 31 then exponent (e * 10 + (c.toNat - 48)) ds else none

/-- The nearest integer of 53 bits and zeros, the even one of two. -/
def roundF64 (n : ℕ) : ℕ :=
  let ulp := 2 ^ (n.log2 + 1 - 53)
  let q := n / ulp
  if ulp < 2 * (n % ulp) ∨ ulp = 2 * (n % ulp) ∧ q % 2 = 1 then (q + 1) * ulp else q * ulp

/-- `f64_from_parts`: does the scaled number stay finite? The powers of ten up
to the largest double are in a table; by others it is only divided. -/
def fitsParts (n : ℕ) (e : ℤ) : Bool :=
  if e < 0 then true
  else if e ≤ 308 then roundF64 (roundF64 n * roundF64 (10 ^ e.toNat)) < 2 ^ 1024
  else n = 0

/-- Is the number one of `f64`, `u64` or `i64`? Out of range are those beyond
the largest double. -/
def fitsF64 (literal : List Char) : Bool :=
  let (whole, text) := (minusPart literal).2.span isDigit
  let (frac, text) :=
    match text with
    | '.' :: text => text.span isDigit
    | text => ([], text)
  let (n, wholeLeft) := significand 0 whole
  -- digits behind the point are tried again after digits in front have been left
  let (n, fracLeft) := significand n frac
  let start : ℤ := wholeLeft.length - (frac.length - fracLeft.length)
  match text with
  | _ :: '-' :: ds =>
      match exponent 0 ds with
      | some e => fitsParts n (start - e)
      | none => true
  | _ :: '+' :: ds | _ :: ds =>
      match exponent 0 ds with
      | some e => fitsParts n (start + e)
      | none => n = 0
  | [] => fitsParts n start

/-! ### Values -/

mutual

/-- With this much depth remaining, is the value read to its end? -/
def buffers : ℕ → Json → Bool
  | _, .null => true
  | _, .bool _ => true
  | _, .num literal => fitsF64 literal
  | _, .str _ => true
  | depth, .arr elems => 1 < depth && buffersElems (depth - 1) elems
  | depth, .obj members => 1 < depth && buffersMembers (depth - 1) members
  | _, .unpaired => false

def buffersElems : ℕ → List Json → Bool
  | _, [] => true
  | depth, v :: vs => buffers depth v && buffersElems depth vs

def buffersMembers : ℕ → List (String × Json) → Bool
  | _, [] => true
  | depth, (_, v) :: ms => buffers depth v && buffersMembers depth ms

end

mutual

def nesting : Json → ℕ
  | .arr elems => nestingElems elems + 1
  | .obj members => nestingMembers members + 1
  | _ => 0

def nestingElems : List Json → ℕ
  | [] => 0
  | v :: vs => max (nesting v) (nestingElems vs)

def nestingMembers : List (String × Json) → ℕ
  | [] => 0
  | (_, v) :: ms => max (nesting v) (nestingMembers ms)

end

mutual

/-- Without numbers, nesting is all there is to it. -/
theorem buffers_iff_nesting_lt : ∀ (v : Json) {depth : ℕ}, v.NumberFree → 0 < depth →
    (buffers depth v = true ↔ nesting v < depth)
  | .null, _, _, h => iff_of_true rfl h
  | .bool _, _, _, h => iff_of_true rfl h
  | .str _, _, _, h => iff_of_true rfl h
  | .arr elems, depth, hv, h => by
      have hiff := @buffersElems_iff_nesting_lt elems (depth - 1) hv
      simp only [buffers, nesting, Bool.and_eq_true, decide_eq_true_eq]
      constructor
      · rintro ⟨hdepth, helems⟩
        have hlt := (hiff (by omega)).mp helems
        omega
      · intro hlt
        exact ⟨by omega, (hiff (by omega)).mpr (by omega)⟩
  | .obj members, depth, hv, h => by
      have hiff := @buffersMembers_iff_nesting_lt members (depth - 1) hv
      simp only [buffers, nesting, Bool.and_eq_true, decide_eq_true_eq]
      constructor
      · rintro ⟨hdepth, hmembers⟩
        have hlt := (hiff (by omega)).mp hmembers
        omega
      · intro hlt
        exact ⟨by omega, (hiff (by omega)).mpr (by omega)⟩

theorem buffersElems_iff_nesting_lt : ∀ (vs : List Json) {depth : ℕ}, NumberFreeElems vs →
    0 < depth → (buffersElems depth vs = true ↔ nestingElems vs < depth)
  | [], _, _, h => iff_of_true rfl h
  | v :: vs, _, hvs, h => by
      rw [buffersElems, nestingElems, Bool.and_eq_true, Nat.max_lt,
        buffers_iff_nesting_lt v hvs.1 h, buffersElems_iff_nesting_lt vs hvs.2 h]

theorem buffersMembers_iff_nesting_lt : ∀ (ms : List (String × Json)) {depth : ℕ},
    NumberFreeMembers ms → 0 < depth →
      (buffersMembers depth ms = true ↔ nestingMembers ms < depth)
  | [], _, _, h => iff_of_true rfl h
  | (_, v) :: ms, _, hms, h => by
      rw [buffersMembers, nestingMembers, Bool.and_eq_true, Nat.max_lt,
        buffers_iff_nesting_lt v hms.1 h, buffersMembers_iff_nesting_lt ms hms.2 h]

end

theorem nestingElems_map_str (ss : List String) : nestingElems (ss.map .str) = 0 := by
  induction ss with
  | nil => rfl
  | cons s ss ih => simp [nestingElems, nesting, ih]

end Liquet.Json
