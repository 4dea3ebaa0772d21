import Mathlib.Data.List.TakeDrop
import Liquet.Json.Reader

/-!
The fuel of the reader does not show. Each reader leaves less text than it was
given, so the calls below a text of `n` characters need no more than twice as
many units, and beyond that any amount gives the same result.
-/

namespace Liquet.Json

open Liquet.Text

/-! ### What a reader leaves -/

/-- Whatever the reader accepts, it takes at least `k` characters of it. -/
def Consumes {α : Type} (k : ℕ) (reader : List Char → Option (α × List Char)) : Prop :=
  ∀ text a rest, reader text = some (a, rest) → rest.length + k ≤ text.length

theorem length_skipSpace_le (text : List Char) : (skipSpace text).length ≤ text.length :=
  (List.dropWhile_suffix _).length_le

theorem hex4_consumes : Consumes 4 hex4 := by
  intro text n rest h
  unfold hex4 at h
  split at h
  · simp only [Option.bind_eq_bind, Option.bind_eq_some_iff, Option.some.injEq,
      Prod.mk.injEq] at h
    obtain ⟨-, -, -, -, -, -, -, -, -, rfl⟩ := h
    simp
  · cases h

theorem unescapeUnicode_consumes : Consumes 1 unescapeUnicode := by
  intro text p rest h
  rw [unescapeUnicode] at h
  obtain ⟨⟨n, mid⟩, hhex, h⟩ := Option.bind_eq_some_iff.mp h
  dsimp only at h
  obtain ⟨-, rfl⟩ := Prod.mk.inj (Option.some.inj h)
  have hlen := hex4_consumes _ _ _ hhex
  omega

theorem unescape_consumes : Consumes 1 unescape := by
  intro text c rest h
  cases text with
  | nil => cases h
  | cons d text =>
      simp only [unescape] at h
      split at h
      · have hlen := unescapeUnicode_consumes _ _ _ h
        rw [List.length_cons]
        omega
      · obtain ⟨e, -, h⟩ := Option.map_eq_some_iff.mp h
        obtain ⟨-, rfl⟩ := Prod.mk.inj h
        simp

theorem readChars_consumes (fuel : ℕ) : Consumes 1 (readChars fuel) := by
  induction fuel with
  | zero =>
      intro text cs rest h
      cases h
  | succ fuel ih =>
      intro text cs rest h
      cases text with
      | nil => cases h
      | cons c text =>
          rw [List.length_cons]
          simp only [readChars] at h
          split at h
          · obtain ⟨-, rfl⟩ := Prod.mk.inj (Option.some.inj h)
            omega
          · split at h
            · obtain ⟨⟨d, mid⟩, hescape, h⟩ := Option.bind_eq_some_iff.mp h
              dsimp only at h
              obtain ⟨⟨ds, last⟩, hchars, h⟩ := Option.bind_eq_some_iff.mp h
              dsimp only at h
              obtain ⟨-, rfl⟩ := Prod.mk.inj (Option.some.inj h)
              have hmid := unescape_consumes _ _ _ hescape
              have hlast := ih _ _ _ hchars
              omega
            · split at h
              · cases h
              · obtain ⟨⟨ds, last⟩, hchars, h⟩ := Option.bind_eq_some_iff.mp h
                dsimp only at h
                obtain ⟨-, rfl⟩ := Prod.mk.inj (Option.some.inj h)
                have hlast := ih _ _ _ hchars
                omega

theorem readString_consumes : Consumes 1 readString := by
  intro text s rest h
  obtain ⟨⟨cs, last⟩, hchars, h⟩ := Option.bind_eq_some_iff.mp h
  dsimp only at h
  obtain ⟨-, rfl⟩ := Prod.mk.inj (Option.some.inj h)
  exact readChars_consumes _ _ _ _ hchars

theorem digits_consumes : Consumes 1 digits := by
  intro text ds rest h
  rw [digits] at h
  rw [List.span_eq_takeWhile_dropWhile] at h
  have hlen := congrArg List.length (List.takeWhile_append_dropWhile (p := isDigit) (l := text))
  rw [List.length_append] at hlen
  split at h
  · cases h
  · rename_i ds' rest' hne heq
    obtain ⟨htake, rfl⟩ := Prod.mk.inj heq
    obtain ⟨rfl, rfl⟩ := Prod.mk.inj (Option.some.inj h)
    have hpos : 0 < (text.takeWhile isDigit).length := by
      rw [List.length_pos_iff, htake]
      rintro rfl
      exact hne rfl
    omega

theorem intPart_consumes : Consumes 1 intPart := by
  intro text ds rest h
  unfold intPart at h
  split at h
  · split at h
    · cases h
    · obtain ⟨-, rfl⟩ := Prod.mk.inj (Option.some.inj h)
      simp
  · exact digits_consumes _ _ _ h

theorem fracPart_consumes : Consumes 0 fracPart := by
  intro text ds rest h
  unfold fracPart at h
  split at h
  · obtain ⟨⟨ds', last⟩, hdigits, h⟩ := Option.bind_eq_some_iff.mp h
    dsimp only at h
    obtain ⟨-, rfl⟩ := Prod.mk.inj (Option.some.inj h)
    have hlen := digits_consumes _ _ _ hdigits
    simp only [List.length_cons]
    omega
  · obtain ⟨-, rfl⟩ := Prod.mk.inj (Option.some.inj h)
    omega

theorem expPart_consumes : Consumes 0 expPart := by
  intro text ds rest h
  unfold expPart at h
  split at h
  · split at h
    · split at h
      · split at h
        · obtain ⟨⟨ds', last⟩, hdigits, h⟩ := Option.bind_eq_some_iff.mp h
          dsimp only at h
          obtain ⟨-, rfl⟩ := Prod.mk.inj (Option.some.inj h)
          have hlen := digits_consumes _ _ _ hdigits
          simp only [List.length_cons]
          omega
        · obtain ⟨⟨ds', last⟩, hdigits, h⟩ := Option.bind_eq_some_iff.mp h
          dsimp only at h
          obtain ⟨-, rfl⟩ := Prod.mk.inj (Option.some.inj h)
          have hlen := digits_consumes _ _ _ hdigits
          simp only [List.length_cons] at hlen ⊢
          omega
      · cases h
    · obtain ⟨-, rfl⟩ := Prod.mk.inj (Option.some.inj h)
      omega
  · obtain ⟨-, rfl⟩ := Prod.mk.inj (Option.some.inj h)
    omega

theorem length_minusPart_le (text : List Char) : (minusPart text).2.length ≤ text.length := by
  unfold minusPart
  split <;> simp

theorem readNumber_consumes : Consumes 1 readNumber := by
  intro text v rest h
  rw [readNumber] at h
  dsimp only at h
  have hsign := length_minusPart_le text
  obtain ⟨⟨whole, rest₁⟩, hwhole, h⟩ := Option.bind_eq_some_iff.mp h
  dsimp only at h
  obtain ⟨⟨frac, rest₂⟩, hfrac, h⟩ := Option.bind_eq_some_iff.mp h
  dsimp only at h
  obtain ⟨⟨exp, rest₃⟩, hexp, h⟩ := Option.bind_eq_some_iff.mp h
  dsimp only at h
  obtain ⟨-, rfl⟩ := Prod.mk.inj (Option.some.inj h)
  have h₁ := intPart_consumes _ _ _ hwhole
  have h₂ := fracPart_consumes _ _ _ hfrac
  have h₃ := expPart_consumes _ _ _ hexp
  omega

theorem readName_consumes (name : List Char) (v : Json) : Consumes 0 (readName name v) := by
  intro text w rest h
  rw [readName] at h
  split at h
  · obtain ⟨-, rfl⟩ := Prod.mk.inj (Option.some.inj h)
    simp
  · cases h

theorem readKey_consumes : Consumes 1 readKey := by
  intro text key rest h
  rw [readKey] at h
  have hspace := length_skipSpace_le text
  split at h
  · rename_i text' heq
    rw [heq, List.length_cons] at hspace
    obtain ⟨⟨key', mid⟩, hstring, h⟩ := Option.bind_eq_some_iff.mp h
    dsimp only at h
    have hmid := readString_consumes _ _ _ hstring
    have hcolon := length_skipSpace_le mid
    split at h
    · rename_i last hlast
      obtain ⟨-, rfl⟩ := Prod.mk.inj (Option.some.inj h)
      rw [hlast, List.length_cons] at hcolon
      omega
    · cases h
  · cases h

/-! ### The three readers of the mutual block -/

theorem readValue_consumes_succ {fuel : ℕ} (helems : Consumes 1 (readElems fuel))
    (hmembers : Consumes 1 (readMembers fuel)) : Consumes 1 (readValue (fuel + 1)) := by
  intro text v rest h
  have hspace := length_skipSpace_le text
  simp only [readValue] at h
  split at h
  · cases h
  · rename_i c text' heq
    rw [heq, List.length_cons] at hspace
    have hinner := length_skipSpace_le text'
    split at h
    · obtain ⟨⟨s, last⟩, hstring, h⟩ := Option.bind_eq_some_iff.mp h
      obtain ⟨-, rfl⟩ := Prod.mk.inj (Option.some.inj h)
      have hlast := readString_consumes _ _ _ hstring
      dsimp only
      omega
    · split at h
      · split at h
        · rename_i hclose
          rw [hclose, List.length_cons] at hinner
          obtain ⟨-, rfl⟩ := Prod.mk.inj (Option.some.inj h)
          omega
        · obtain ⟨⟨elems, last⟩, hread, h⟩ := Option.bind_eq_some_iff.mp h
          obtain ⟨-, rfl⟩ := Prod.mk.inj (Option.some.inj h)
          have hlast := helems _ _ _ hread
          dsimp only
          omega
      · split at h
        · split at h
          · rename_i hclose
            rw [hclose, List.length_cons] at hinner
            obtain ⟨-, rfl⟩ := Prod.mk.inj (Option.some.inj h)
            omega
          · obtain ⟨⟨members, last⟩, hread, h⟩ := Option.bind_eq_some_iff.mp h
            obtain ⟨-, rfl⟩ := Prod.mk.inj (Option.some.inj h)
            have hlast := hmembers _ _ _ hread
            dsimp only
            omega
        · split at h
          · have hlast := readName_consumes _ _ _ _ _ h
            omega
          · split at h
            · have hlast := readName_consumes _ _ _ _ _ h
              omega
            · split at h
              · have hlast := readName_consumes _ _ _ _ _ h
                omega
              · have hlast := readNumber_consumes _ _ _ h
                rw [List.length_cons] at hlast
                omega

theorem readElems_consumes_succ {fuel : ℕ} (hvalue : Consumes 1 (readValue fuel))
    (helems : Consumes 1 (readElems fuel)) : Consumes 1 (readElems (fuel + 1)) := by
  intro text vs rest h
  simp only [readElems] at h
  obtain ⟨⟨v, mid⟩, hread, h⟩ := Option.bind_eq_some_iff.mp h
  have hmid := hvalue _ _ _ hread
  have hspace := length_skipSpace_le mid
  dsimp only at h
  split at h
  · rename_i heq
    rw [heq, List.length_cons] at hspace
    obtain ⟨⟨tail, last⟩, htail, h⟩ := Option.bind_eq_some_iff.mp h
    obtain ⟨-, rfl⟩ := Prod.mk.inj (Option.some.inj h)
    have hlast := helems _ _ _ htail
    dsimp only
    omega
  · rename_i heq
    rw [heq, List.length_cons] at hspace
    obtain ⟨-, rfl⟩ := Prod.mk.inj (Option.some.inj h)
    omega
  · cases h

theorem readMembers_consumes_succ {fuel : ℕ} (hvalue : Consumes 1 (readValue fuel))
    (hmembers : Consumes 1 (readMembers fuel)) : Consumes 1 (readMembers (fuel + 1)) := by
  intro text ms rest h
  simp only [readMembers] at h
  obtain ⟨⟨key, first⟩, hkey, h⟩ := Option.bind_eq_some_iff.mp h
  obtain ⟨⟨v, mid⟩, hread, h⟩ := Option.bind_eq_some_iff.mp h
  have hfirst := readKey_consumes _ _ _ hkey
  have hmid := hvalue _ _ _ hread
  have hspace := length_skipSpace_le mid
  dsimp only at h hmid
  split at h
  · rename_i heq
    rw [heq, List.length_cons] at hspace
    obtain ⟨⟨tail, last⟩, htail, h⟩ := Option.bind_eq_some_iff.mp h
    obtain ⟨-, rfl⟩ := Prod.mk.inj (Option.some.inj h)
    have hlast := hmembers _ _ _ htail
    dsimp only
    omega
  · rename_i heq
    rw [heq, List.length_cons] at hspace
    obtain ⟨-, rfl⟩ := Prod.mk.inj (Option.some.inj h)
    omega
  · cases h

theorem readers_consume (fuel : ℕ) : Consumes 1 (readValue fuel) ∧
    Consumes 1 (readElems fuel) ∧ Consumes 1 (readMembers fuel) := by
  induction fuel with
  | zero =>
      refine ⟨?_, ?_, ?_⟩
      · intro text v rest h
        simp [readValue] at h
      · intro text vs rest h
        simp [readElems] at h
      · intro text ms rest h
        simp [readMembers] at h
  | succ fuel ih =>
      obtain ⟨hvalue, helems, hmembers⟩ := ih
      exact ⟨readValue_consumes_succ helems hmembers, readElems_consumes_succ hvalue helems,
        readMembers_consumes_succ hvalue hmembers⟩

/-! ### Enough fuel -/

/-- On a text this far below the fuel, no more of it changes the result. A
reader of elements or members needs one unit more than one of a value, for the
value it begins with. -/
def Settled {α : Type} (k : ℕ) (reader : ℕ → List Char → Option (α × List Char))
    (fuel : ℕ) : Prop :=
  ∀ fuel' text, 2 * text.length + k < fuel → 2 * text.length + k < fuel' →
    reader fuel text = reader fuel' text

theorem settled_zero {α : Type} (k : ℕ) (reader : ℕ → List Char → Option (α × List Char)) :
    Settled k reader 0 := by
  intro fuel' text h
  omega

theorem settled_of_succ {α : Type} {k : ℕ} {reader : ℕ → List Char → Option (α × List Char)}
    {fuel : ℕ} (h : ∀ fuel' text, 2 * text.length + k < fuel → 2 * text.length + k < fuel' + 1 →
      reader fuel text = reader (fuel' + 1) text) : Settled k reader fuel := by
  intro fuel' text hfuel hfuel'
  obtain ⟨m, rfl⟩ : ∃ m, fuel' = m + 1 := ⟨fuel' - 1, by omega⟩
  exact h m text hfuel hfuel'

theorem readValue_settled_succ {fuel : ℕ} (helems : Settled 1 readElems fuel)
    (hmembers : Settled 1 readMembers fuel) : Settled 0 readValue (fuel + 1) := by
  apply settled_of_succ
  intro fuel' text h h'
  have hspace := length_skipSpace_le text
  simp only [readValue]
  cases heq : skipSpace text with
  | nil => rfl
  | cons c rest =>
      rw [heq, List.length_cons] at hspace
      dsimp only
      rw [helems fuel' rest (by omega) (by omega), hmembers fuel' rest (by omega) (by omega)]

theorem readElems_settled_succ {fuel : ℕ} (hvalue : Settled 0 readValue fuel)
    (helems : Settled 1 readElems fuel) : Settled 1 readElems (fuel + 1) := by
  apply settled_of_succ
  intro fuel' text h h'
  simp only [readElems]
  rw [hvalue fuel' text (by omega) (by omega)]
  cases hread : readValue fuel' text with
  | none => rfl
  | some result =>
      obtain ⟨v, mid⟩ := result
      -- the value has taken a character, and the comma takes another
      have hmid := (readers_consume fuel').1 _ _ _ hread
      have hspace := length_skipSpace_le mid
      simp only [Option.bind_eq_bind, Option.bind_some]
      split
      · rename_i heq
        rw [heq, List.length_cons] at hspace
        rw [helems fuel' _ (by omega) (by omega)]
      · rfl
      · rfl

theorem readMembers_settled_succ {fuel : ℕ} (hvalue : Settled 0 readValue fuel)
    (hmembers : Settled 1 readMembers fuel) : Settled 1 readMembers (fuel + 1) := by
  apply settled_of_succ
  intro fuel' text h h'
  simp only [readMembers]
  cases hkey : readKey text with
  | none => rfl
  | some result =>
      obtain ⟨key, first⟩ := result
      have hfirst := readKey_consumes _ _ _ hkey
      simp only [Option.bind_eq_bind, Option.bind_some]
      rw [hvalue fuel' first (by omega) (by omega)]
      cases hread : readValue fuel' first with
      | none => rfl
      | some result =>
          obtain ⟨v, mid⟩ := result
          have hmid := (readers_consume fuel').1 _ _ _ hread
          have hspace := length_skipSpace_le mid
          simp only [Option.bind_some]
          split
          · rename_i heq
            rw [heq, List.length_cons] at hspace
            rw [hmembers fuel' _ (by omega) (by omega)]
          · rfl
          · rfl

theorem readers_settled (fuel : ℕ) : Settled 0 readValue fuel ∧
    Settled 1 readElems fuel ∧ Settled 1 readMembers fuel := by
  induction fuel with
  | zero => exact ⟨settled_zero _ _, settled_zero _ _, settled_zero _ _⟩
  | succ fuel ih =>
      obtain ⟨hvalue, helems, hmembers⟩ := ih
      exact ⟨readValue_settled_succ helems hmembers, readElems_settled_succ hvalue helems,
        readMembers_settled_succ hvalue hmembers⟩

/-- `parse` is the reader with any sufficient fuel. -/
theorem parse_eq_of_fuel (s : String) {fuel : ℕ} (h : 2 * s.toList.length < fuel) :
    parse s = (readValue fuel s.toList).bind fun result =>
      if skipSpace result.2 = [] then some result.1 else none := by
  have hfuel := (readers_settled fuel).1 (2 * s.toList.length + 1) s.toList h (by omega)
  rw [hfuel]
  rfl

end Liquet.Json
