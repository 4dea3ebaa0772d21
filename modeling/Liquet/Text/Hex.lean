import Mathlib.Data.Vector.Basic

/-!
Hexadecimal text as the `hex` crate writes and reads it, and the comparison
`str::eq_ignore_ascii_case`. Encoding is lower case; decoding takes an even
number of digits in either case and nothing else.
-/

namespace Liquet.Text

/-- A byte array of fixed length, `[u8; n]`. -/
abbrev Bytes (n : ℕ) := List.Vector UInt8 n

/-! ### Letter case -/

/-- The text with its ASCII capitals lowered, which is all that
`str::eq_ignore_ascii_case` ignores. `Char.toLower` leaves every character
outside `A`-`Z` alone. -/
def asciiLower (s : String) : List Char := s.toList.map Char.toLower

/-- `str::eq_ignore_ascii_case`. -/
def eqIgnoreAsciiCase (s t : String) : Bool := asciiLower s == asciiLower t

@[simp] theorem eqIgnoreAsciiCase_iff {s t : String} :
    eqIgnoreAsciiCase s t = true ↔ asciiLower s = asciiLower t := by
  simp [eqIgnoreAsciiCase]

/-! ### One digit -/

/-- The value of one hexadecimal digit in either case. -/
def hexVal (c : Char) : Option ℕ :=
  if 65 ≤ c.toNat ∧ c.toNat ≤ 70 then some (c.toNat - 65 + 10)
  else if 97 ≤ c.toNat ∧ c.toNat ≤ 102 then some (c.toNat - 97 + 10)
  else if 48 ≤ c.toNat ∧ c.toNat ≤ 57 then some (c.toNat - 48)
  else none

theorem hexVal_digitChar {n : ℕ} (h : n < 16) : hexVal (Nat.digitChar n) = some n := by
  revert n
  decide

theorem toNat_toLower (c : Char) :
    c.toLower.toNat = if 65 ≤ c.toNat ∧ c.toNat ≤ 90 then c.toNat + 32 else c.toNat := by
  have hle : (c.val ≥ 'A'.val ∧ c.val ≤ 'Z'.val) ↔ (65 ≤ c.toNat ∧ c.toNat ≤ 90) := by
    rw [ge_iff_le, UInt32.le_iff_toNat_le, UInt32.le_iff_toNat_le]
    rfl
  unfold Char.toLower
  split <;> rename_i h
  · have hc := hle.mp h
    rw [if_pos hc]
    change (c.val + ('a'.val - 'A'.val)).toNat = c.val.toNat + 32
    change 65 ≤ c.val.toNat ∧ c.val.toNat ≤ 90 at hc
    rw [UInt32.toNat_add, show ('a'.val - 'A'.val).toNat = 32 from rfl]
    omega
  · rw [if_neg fun hc => h (hle.mpr hc)]

@[simp] theorem hexVal_toLower (c : Char) : hexVal c.toLower = hexVal c := by
  unfold hexVal
  rw [toNat_toLower]
  split_ifs <;> first | omega | rfl

theorem hexVal_lt {c : Char} {n : ℕ} (h : hexVal c = some n) : n < 16 := by
  rw [hexVal] at h
  split_ifs at h <;> obtain rfl := Option.some.inj h <;> omega

theorem toLower_eq_of_hexVal {c d : Char} {n : ℕ} (hc : hexVal c = some n)
    (hd : hexVal d = some n) : c.toLower = d.toLower := by
  apply Char.toNat_inj.mp
  rw [toNat_toLower, toNat_toLower]
  rw [hexVal] at hc hd
  split_ifs at hc hd ⊢ <;> simp only [Option.some.injEq] at hc hd <;> omega

/-! ### Whole strings -/

def hexPair (b : UInt8) : List Char :=
  [Nat.digitChar (b.toNat / 16), Nat.digitChar (b.toNat % 16)]

def hexEncode (bytes : List UInt8) : String := String.ofList (bytes.flatMap hexPair)

def hexDecodeChars : List Char → Option (List UInt8)
  | [] => some []
  | [_] => none
  | hi :: lo :: rest => do
      let h ← hexVal hi
      let l ← hexVal lo
      let bytes ← hexDecodeChars rest
      some (UInt8.ofNat (16 * h + l) :: bytes)

/-- `hex::decode`, whose two kinds of error no caller tells apart. -/
def hexDecode (s : String) : Option (List UInt8) := hexDecodeChars s.toList

/-- A decoded text as an array of `n` bytes: `hex::decode(..).ok()` followed
by `try_into().ok()`. -/
def hexDecodeArray (n : ℕ) (s : String) : Option (Bytes n) := do
  let bytes ← hexDecode s
  if h : bytes.length = n then some ⟨bytes, h⟩ else none

theorem hexDecodeChars_flatMap (bytes : List UInt8) :
    hexDecodeChars (bytes.flatMap hexPair) = some bytes := by
  induction bytes with
  | nil => rfl
  | cons b bytes ih =>
      have hb : b.toNat < 256 := b.toNat_lt
      have hhi := hexVal_digitChar (n := b.toNat / 16) (by omega)
      have hlo := hexVal_digitChar (n := b.toNat % 16) (by omega)
      have hbyte : UInt8.ofNat (16 * (b.toNat / 16) + b.toNat % 16) = b := by
        rw [Nat.div_add_mod, UInt8.ofNat_toNat]
      simp only [List.flatMap_cons, hexPair, List.cons_append, List.nil_append,
        hexDecodeChars, hhi, hlo, ih, Option.bind_eq_bind, Option.bind_some, hbyte]

@[simp] theorem hexDecode_hexEncode (bytes : List UInt8) :
    hexDecode (hexEncode bytes) = some bytes := by
  simp [hexDecode, hexEncode, hexDecodeChars_flatMap]

theorem hexEncode_injective : Function.Injective hexEncode := by
  intro a b h
  have hdec := congrArg hexDecode h
  simpa using hdec

theorem hexEncode_toList_inj {n : ℕ} {v w : Bytes n} :
    hexEncode v.toList = hexEncode w.toList ↔ v = w :=
  hexEncode_injective.eq_iff.trans List.Vector.toList_injective.eq_iff

@[simp] theorem hexDecodeArray_hexEncode {n : ℕ} (v : Bytes n) :
    hexDecodeArray n (hexEncode v.toList) = some v := by
  rw [hexDecodeArray, hexDecode_hexEncode]
  exact dif_pos v.toList_length

theorem hexDecodeChars_toLower (cs : List Char) :
    hexDecodeChars (cs.map Char.toLower) = hexDecodeChars cs := by
  induction cs using hexDecodeChars.induct with
  | case1 => rfl
  | case2 c => rfl
  | case3 hi lo rest ih => simp [hexDecodeChars, ih]

/-- Two strings equal up to ASCII case decode alike. The comparison is on the
text and the use on the bytes; this is what makes them agree. -/
theorem hexDecode_congr {s t : String} (h : asciiLower s = asciiLower t) :
    hexDecode s = hexDecode t := by
  unfold hexDecode
  rw [← hexDecodeChars_toLower s.toList, ← hexDecodeChars_toLower t.toList]
  exact congrArg hexDecodeChars h

theorem hexDecodeArray_congr {n : ℕ} {s t : String} (h : asciiLower s = asciiLower t) :
    hexDecodeArray n s = hexDecodeArray n t := by
  unfold hexDecodeArray
  rw [hexDecode_congr h]

theorem hexDecodeChars_cons_eq_some {hi lo : Char} {rest : List Char} {bytes : List UInt8} :
    hexDecodeChars (hi :: lo :: rest) = some bytes ↔
      ∃ h l tail, hexVal hi = some h ∧ hexVal lo = some l ∧ hexDecodeChars rest = some tail ∧
        UInt8.ofNat (16 * h + l) :: tail = bytes := by
  simp [hexDecodeChars, Option.bind_eq_some_iff]

theorem map_toLower_eq_of_hexDecodeChars {cs ds : List Char} {bytes : List UInt8}
    (hcs : hexDecodeChars cs = some bytes) (hds : hexDecodeChars ds = some bytes) :
    cs.map Char.toLower = ds.map Char.toLower := by
  induction cs using hexDecodeChars.induct generalizing ds bytes with
  | case1 =>
      obtain rfl := Option.some.inj hcs
      match ds, hds with
      | [], _ => rfl
      | [_], hds => cases hds
      | hi :: lo :: rest, hds =>
          obtain ⟨h, l, tail, -, -, -, hbytes⟩ := hexDecodeChars_cons_eq_some.mp hds
          cases hbytes
  | case2 c => cases hcs
  | case3 hi lo rest ih =>
      obtain ⟨h, l, tail, hhi, hlo, hrest, rfl⟩ := hexDecodeChars_cons_eq_some.mp hcs
      match ds, hds with
      | [], hds => cases hds
      | [_], hds => cases hds
      | hi' :: lo' :: rest', hds =>
          obtain ⟨h', l', tail', hhi', hlo', hrest', hbytes⟩ := hexDecodeChars_cons_eq_some.mp hds
          obtain ⟨hbyte, rfl⟩ := List.cons.inj hbytes
          -- one byte has one pair of digit values
          have hnat := congrArg UInt8.toNat hbyte
          have hh := hexVal_lt hhi
          have hl := hexVal_lt hlo
          have hh' := hexVal_lt hhi'
          have hl' := hexVal_lt hlo'
          rw [UInt8.toNat_ofNat', UInt8.toNat_ofNat'] at hnat
          obtain rfl : h = h' := by omega
          obtain rfl : l = l' := by omega
          rw [List.map_cons, List.map_cons, List.map_cons, List.map_cons,
            toLower_eq_of_hexVal hhi hhi', toLower_eq_of_hexVal hlo hlo', ih hrest hrest']

theorem asciiLower_eq_of_hexDecode {s t : String} {bytes : List UInt8}
    (hs : hexDecode s = some bytes) (ht : hexDecode t = some bytes) :
    asciiLower s = asciiLower t :=
  map_toLower_eq_of_hexDecodeChars hs ht

@[simp] theorem hexDecodeArray_eq_some {n : ℕ} {s : String} {v : Bytes n} :
    hexDecodeArray n s = some v ↔ hexDecode s = some v.toList := by
  rw [hexDecodeArray]
  constructor
  · intro h
    obtain ⟨bytes, hbytes, h⟩ := Option.bind_eq_some_iff.mp h
    split at h
    · obtain rfl := Option.some.inj h
      exact hbytes
    · cases h
  · intro h
    rw [h]
    exact dif_pos v.toList_length

theorem asciiLower_hexEncode_inj {a b : List UInt8}
    (h : asciiLower (hexEncode a) = asciiLower (hexEncode b)) : a = b := by
  have hdec := hexDecode_congr h
  simpa using hdec

end Liquet.Text
