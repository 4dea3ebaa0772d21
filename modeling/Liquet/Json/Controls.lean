import Mathlib.Data.List.TakeWhile
import Liquet.Json.Fuel

/-!
A document has no control characters but those of its white space: the reader
takes none inside a string, where they must be escaped, and none outside. A
text with one in it, such as a file with a hole, is no document.
-/

namespace Liquet.Json

open Liquet.Text

def isControl (c : Char) : Bool := c.toNat < 32 ∧ isSpace c = false

/-- How many of them a text has. -/
def controls (text : List Char) : ℕ := text.countP isControl

/-- Whatever the reader accepts, it takes none of them. -/
def Spares {α : Type} (reader : List Char → Option (α × List Char)) : Prop :=
  ∀ text a rest, reader text = some (a, rest) → controls rest = controls text

theorem controls_cons {c : Char} (h : isControl c = false) (text : List Char) :
    controls (c :: text) = controls text :=
  List.countP_cons_of_neg (Bool.eq_false_iff.mp h)

theorem isControl_of_le {c : Char} (h : 32 ≤ c.toNat) : isControl c = false := by
  rw [isControl, decide_eq_false_iff_not]
  omega

theorem controls_append_of_forall {taken : List Char} (h : ∀ c ∈ taken, isControl c = false)
    (rest : List Char) : controls (taken ++ rest) = controls rest := by
  rw [controls, List.countP_append, List.countP_eq_zero.mpr fun c hc => by rw [h c hc]; simp,
    Nat.zero_add]
  rfl

theorem controls_dropWhile {p : Char → Bool} (h : ∀ c, p c = true → isControl c = false)
    (text : List Char) : controls (text.dropWhile p) = controls text := by
  conv_rhs => rw [← List.takeWhile_append_dropWhile (p := p) (l := text)]
  exact (controls_append_of_forall (fun c hc => h c (List.mem_takeWhile_imp hc)) _).symm

theorem controls_skipSpace (text : List Char) : controls (skipSpace text) = controls text := by
  apply controls_dropWhile
  intro c hc
  rw [isControl, decide_eq_false_iff_not, hc]
  simp

theorem isControl_of_isDigit {c : Char} (h : isDigit c = true) : isControl c = false := by
  rw [isDigit, decide_eq_true_iff] at h
  exact isControl_of_le (by omega)

theorem isControl_of_hexVal {c : Char} {n : ℕ} (h : hexVal c = some n) : isControl c = false := by
  apply isControl_of_le
  rw [hexVal] at h
  split_ifs at h <;> omega

/-! ### Strings -/

theorem hex4_spares : Spares hex4 := by
  intro text n rest h
  unfold hex4 at h
  split at h
  · simp only [Option.bind_eq_bind, Option.bind_eq_some_iff, Option.some.injEq,
      Prod.mk.injEq] at h
    obtain ⟨a, ha, b, hb, c, hc, d, hd, -, rfl⟩ := h
    rw [controls_cons (isControl_of_hexVal ha), controls_cons (isControl_of_hexVal hb),
      controls_cons (isControl_of_hexVal hc), controls_cons (isControl_of_hexVal hd)]
  · cases h

theorem unescapeUnicode_spares : Spares unescapeUnicode := by
  intro text p rest h
  rw [unescapeUnicode] at h
  obtain ⟨⟨n, mid⟩, hhex, h⟩ := Option.bind_eq_some_iff.mp h
  dsimp only at h
  obtain ⟨-, rfl⟩ := Prod.mk.inj (Option.some.inj h)
  exact hex4_spares _ _ _ hhex

theorem isControl_of_lookup {c d : Char} (h : readEscapes.lookup c = some d) :
    isControl c = false := by
  have hkeys : ∀ entry ∈ readEscapes, isControl entry.1 = false := by decide
  obtain ⟨before, after, heq, -⟩ := List.lookup_eq_some_iff.mp h
  exact hkeys (c, d) (heq ▸ List.mem_append_right before List.mem_cons_self)

theorem unescape_spares : Spares unescape := by
  intro text c rest h
  cases text with
  | nil => cases h
  | cons d text =>
      simp only [unescape] at h
      split at h <;> rename_i hd
      · rw [hd, controls_cons (by decide)]
        exact unescapeUnicode_spares _ _ _ h
      · obtain ⟨e, he, h⟩ := Option.map_eq_some_iff.mp h
        obtain ⟨-, rfl⟩ := Prod.mk.inj h
        rw [controls_cons (isControl_of_lookup he)]

theorem readChars_spares (fuel : ℕ) : Spares (readChars fuel) := by
  induction fuel with
  | zero =>
      intro text cs rest h
      cases h
  | succ fuel ih =>
      intro text cs rest h
      cases text with
      | nil => cases h
      | cons c text =>
          simp only [readChars] at h
          split at h <;> rename_i hquote
          · obtain ⟨-, rfl⟩ := Prod.mk.inj (Option.some.inj h)
            rw [hquote, controls_cons (by decide)]
          · split at h <;> rename_i hslash
            · obtain ⟨⟨d, mid⟩, hescape, h⟩ := Option.bind_eq_some_iff.mp h
              dsimp only at h
              obtain ⟨⟨ds, last⟩, hchars, h⟩ := Option.bind_eq_some_iff.mp h
              obtain ⟨-, rfl⟩ := Prod.mk.inj (Option.some.inj h)
              rw [hslash, controls_cons (by decide)]
              exact (ih _ _ _ hchars).trans (unescape_spares _ _ _ hescape)
            · split at h <;> rename_i hcontrol
              · cases h
              · obtain ⟨⟨ds, last⟩, hchars, h⟩ := Option.bind_eq_some_iff.mp h
                obtain ⟨-, rfl⟩ := Prod.mk.inj (Option.some.inj h)
                rw [controls_cons (isControl_of_le (not_lt.mp hcontrol))]
                exact ih _ _ _ hchars

theorem readString_spares : Spares readString := by
  intro text s rest h
  obtain ⟨⟨cs, last⟩, hchars, h⟩ := Option.bind_eq_some_iff.mp h
  obtain ⟨-, rfl⟩ := Prod.mk.inj (Option.some.inj h)
  exact readChars_spares _ _ _ _ hchars

theorem readKey_spares : Spares readKey := by
  intro text key rest h
  rw [readKey] at h
  split at h
  · rename_i text' heq
    obtain ⟨⟨key', mid⟩, hstring, h⟩ := Option.bind_eq_some_iff.mp h
    dsimp only at h
    split at h
    · rename_i last hlast
      obtain ⟨-, rfl⟩ := Prod.mk.inj (Option.some.inj h)
      rw [← controls_skipSpace text, heq, controls_cons (by decide),
        ← readString_spares _ _ _ hstring, ← controls_skipSpace mid, hlast,
        controls_cons (by decide)]
    · cases h
  · cases h

/-! ### Numbers -/

theorem digits_spares : Spares digits := by
  intro text ds rest h
  rw [digits, List.span_eq_takeWhile_dropWhile] at h
  split at h
  · cases h
  · rename_i heq
    obtain ⟨-, rfl⟩ := Prod.mk.inj heq
    obtain ⟨-, rfl⟩ := Prod.mk.inj (Option.some.inj h)
    exact controls_dropWhile (fun _ => isControl_of_isDigit) text

theorem intPart_spares : Spares intPart := by
  intro text ds rest h
  unfold intPart at h
  split at h
  · split at h
    · cases h
    · obtain ⟨-, rfl⟩ := Prod.mk.inj (Option.some.inj h)
      rw [controls_cons (by decide)]
  · exact digits_spares _ _ _ h

theorem fracPart_spares : Spares fracPart := by
  intro text ds rest h
  unfold fracPart at h
  split at h
  · obtain ⟨⟨ds', last⟩, hdigits, h⟩ := Option.bind_eq_some_iff.mp h
    obtain ⟨-, rfl⟩ := Prod.mk.inj (Option.some.inj h)
    rw [controls_cons (by decide)]
    exact digits_spares _ _ _ hdigits
  · obtain ⟨-, rfl⟩ := Prod.mk.inj (Option.some.inj h)
    rfl

theorem expPart_spares : Spares expPart := by
  have hletter {c d e : Char} (hd : isControl d = false) (he : isControl e = false)
      (hc : c = d ∨ c = e) : isControl c = false := by
    rcases hc with rfl | rfl
    · exact hd
    · exact he
  intro text ds rest h
  unfold expPart at h
  split at h
  · split at h <;> rename_i hc
    · rw [controls_cons (hletter (by decide) (by decide) hc)]
      split at h
      · split at h <;> rename_i hsign
        · obtain ⟨⟨ds', last⟩, hdigits, h⟩ := Option.bind_eq_some_iff.mp h
          obtain ⟨-, rfl⟩ := Prod.mk.inj (Option.some.inj h)
          rw [controls_cons (hletter (by decide) (by decide) hsign)]
          exact digits_spares _ _ _ hdigits
        · obtain ⟨⟨ds', last⟩, hdigits, h⟩ := Option.bind_eq_some_iff.mp h
          obtain ⟨-, rfl⟩ := Prod.mk.inj (Option.some.inj h)
          exact digits_spares _ _ _ hdigits
      · cases h
    · obtain ⟨-, rfl⟩ := Prod.mk.inj (Option.some.inj h)
      rfl
  · obtain ⟨-, rfl⟩ := Prod.mk.inj (Option.some.inj h)
    rfl

theorem controls_minusPart (text : List Char) :
    controls (minusPart text).2 = controls text := by
  unfold minusPart
  split
  · rw [controls_cons (by decide)]
  · rfl

theorem readNumber_spares : Spares readNumber := by
  intro text v rest h
  rw [readNumber] at h
  dsimp only at h
  obtain ⟨⟨whole, rest₁⟩, hwhole, h⟩ := Option.bind_eq_some_iff.mp h
  dsimp only at h
  obtain ⟨⟨frac, rest₂⟩, hfrac, h⟩ := Option.bind_eq_some_iff.mp h
  dsimp only at h
  obtain ⟨⟨exp, rest₃⟩, hexp, h⟩ := Option.bind_eq_some_iff.mp h
  obtain ⟨-, rfl⟩ := Prod.mk.inj (Option.some.inj h)
  calc controls rest₃ = controls rest₂ := expPart_spares _ _ _ hexp
    _ = controls rest₁ := fracPart_spares _ _ _ hfrac
    _ = controls (minusPart text).2 := intPart_spares _ _ _ hwhole
    _ = controls text := controls_minusPart text

/-! ### Values -/

theorem readName_spares {name : List Char} (hname : name.all (!isControl ·) = true) (v : Json) :
    Spares (readName name v) := by
  intro text w rest h
  rw [readName] at h
  split at h <;> rename_i hprefix
  · obtain ⟨-, rfl⟩ := Prod.mk.inj (Option.some.inj h)
    obtain ⟨tail, rfl⟩ := List.isPrefixOf_iff_prefix.mp hprefix
    rw [List.drop_left, controls_append_of_forall fun c hc => ?_]
    simpa using List.all_eq_true.mp hname c hc
  · cases h

theorem readValue_spares_succ {fuel : ℕ} (helems : Spares (readElems fuel))
    (hmembers : Spares (readMembers fuel)) : Spares (readValue (fuel + 1)) := by
  intro text v rest h
  simp only [readValue] at h
  split at h
  · cases h
  · rename_i c tail heq
    rw [← controls_skipSpace text, heq]
    split at h <;> rename_i hquote
    · obtain ⟨⟨s, last⟩, hstring, h⟩ := Option.bind_eq_some_iff.mp h
      obtain ⟨-, rfl⟩ := Prod.mk.inj (Option.some.inj h)
      rw [hquote, controls_cons (by decide)]
      exact readString_spares _ _ _ hstring
    · split at h <;> rename_i hbracket
      · rw [hbracket, controls_cons (by decide)]
        split at h
        · rename_i hclose
          obtain ⟨-, rfl⟩ := Prod.mk.inj (Option.some.inj h)
          rw [← controls_skipSpace tail, hclose, controls_cons (by decide)]
        · obtain ⟨⟨elems, last⟩, hread, h⟩ := Option.bind_eq_some_iff.mp h
          obtain ⟨-, rfl⟩ := Prod.mk.inj (Option.some.inj h)
          exact helems _ _ _ hread
      · split at h <;> rename_i hbrace
        · rw [hbrace, controls_cons (by decide)]
          split at h
          · rename_i hclose
            obtain ⟨-, rfl⟩ := Prod.mk.inj (Option.some.inj h)
            rw [← controls_skipSpace tail, hclose, controls_cons (by decide)]
          · obtain ⟨⟨members, last⟩, hread, h⟩ := Option.bind_eq_some_iff.mp h
            obtain ⟨-, rfl⟩ := Prod.mk.inj (Option.some.inj h)
            exact hmembers _ _ _ hread
        · split at h <;> rename_i hnull
          · rw [hnull, controls_cons (by decide)]
            exact readName_spares rfl _ _ _ _ h
          · split at h <;> rename_i htrue
            · rw [htrue, controls_cons (by decide)]
              exact readName_spares rfl _ _ _ _ h
            · split at h <;> rename_i hfalse
              · rw [hfalse, controls_cons (by decide)]
                exact readName_spares rfl _ _ _ _ h
              · exact readNumber_spares _ _ _ h

theorem readElems_spares_succ {fuel : ℕ} (hvalue : Spares (readValue fuel))
    (helems : Spares (readElems fuel)) : Spares (readElems (fuel + 1)) := by
  intro text vs rest h
  simp only [readElems] at h
  obtain ⟨⟨v, mid⟩, hread, h⟩ := Option.bind_eq_some_iff.mp h
  dsimp only at h
  rw [← hvalue _ _ _ hread, ← controls_skipSpace mid]
  split at h
  · rename_i hcomma
    obtain ⟨⟨tail, last⟩, htail, h⟩ := Option.bind_eq_some_iff.mp h
    obtain ⟨-, rfl⟩ := Prod.mk.inj (Option.some.inj h)
    rw [hcomma, controls_cons (by decide)]
    exact helems _ _ _ htail
  · rename_i hclose
    obtain ⟨-, rfl⟩ := Prod.mk.inj (Option.some.inj h)
    rw [hclose, controls_cons (by decide)]
  · cases h

theorem readMembers_spares_succ {fuel : ℕ} (hvalue : Spares (readValue fuel))
    (hmembers : Spares (readMembers fuel)) : Spares (readMembers (fuel + 1)) := by
  intro text ms rest h
  simp only [readMembers] at h
  obtain ⟨⟨key, first⟩, hkey, h⟩ := Option.bind_eq_some_iff.mp h
  obtain ⟨⟨v, mid⟩, hread, h⟩ := Option.bind_eq_some_iff.mp h
  dsimp only at h hread
  rw [← readKey_spares _ _ _ hkey, ← hvalue _ _ _ hread, ← controls_skipSpace mid]
  split at h
  · rename_i hcomma
    obtain ⟨⟨tail, last⟩, htail, h⟩ := Option.bind_eq_some_iff.mp h
    obtain ⟨-, rfl⟩ := Prod.mk.inj (Option.some.inj h)
    rw [hcomma, controls_cons (by decide)]
    exact hmembers _ _ _ htail
  · rename_i hclose
    obtain ⟨-, rfl⟩ := Prod.mk.inj (Option.some.inj h)
    rw [hclose, controls_cons (by decide)]
  · cases h

theorem readers_spare (fuel : ℕ) :
    Spares (readValue fuel) ∧ Spares (readElems fuel) ∧ Spares (readMembers fuel) := by
  induction fuel with
  | zero =>
      refine ⟨?_, ?_, ?_⟩
      · intro text v rest h
        simp [readValue] at h
      · intro text vs rest h
        simp [readElems] at h
      · intro text ms rest h
        simp [readMembers] at h
  | succ fuel ih =>
      obtain ⟨hvalue, helems, hmembers⟩ := ih
      exact ⟨readValue_spares_succ helems hmembers, readElems_spares_succ hvalue helems,
        readMembers_spares_succ hvalue hmembers⟩

theorem isControl_of_parse {s : String} {v : Json} (h : parse s = some v) {c : Char}
    (hc : c ∈ s.toList) : isControl c = false := by
  obtain ⟨⟨v', rest⟩, hread, h⟩ := Option.bind_eq_some_iff.mp h
  dsimp only at h
  split at h <;> rename_i hrest
  · have hnone : controls s.toList = 0 := by
      rw [← (readers_spare _).1 _ _ _ hread, ← controls_skipSpace rest, hrest]
      rfl
    exact Bool.eq_false_iff.mpr (List.countP_eq_zero.mp hnone c hc)
  · cases h

end Liquet.Json
