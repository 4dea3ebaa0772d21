import Liquet.Json.Grammar

/-!
Unsigned integers as number literals. A natural number is written with its
decimal digits; read back are digits alone, and of a number below a bound. So
of all the literals a number could be given as, one is read as it.
-/

namespace Liquet.Json

/-- An unsigned integer of a type with this many values. A sign, a point or an
exponent makes a number of another kind. -/
def readUnsigned (bound : ℕ) : Json → Option ℕ
  | .num literal =>
      if literal.all isDigit then
        if Nat.ofDigitChars 10 literal 0 < bound then some (Nat.ofDigitChars 10 literal 0) else none
      else none
  | _ => none

def writeUnsigned (n : ℕ) : Json := .num (Nat.toDigits 10 n)

theorem isDigit_eq (c : Char) : isDigit c = c.isDigit := by
  rw [Bool.eq_iff_iff, Char.isDigit_iff_toNat, isDigit, decide_eq_true_iff]
  rfl

theorem isDigit_of_mem_toDigits {n : ℕ} {c : Char} (h : c ∈ Nat.toDigits 10 n) :
    isDigit c = true := by
  rw [isDigit_eq]
  exact Nat.isDigit_of_mem_toDigits (by decide) (by decide) h

theorem digits_toDigits (n : ℕ) : Digits (Nat.toDigits 10 n) :=
  ⟨Nat.toDigits_ne_nil, fun _ => isDigit_of_mem_toDigits⟩

theorem head?_toDigits {n : ℕ} (hn : n ≠ 0) : (Nat.toDigits 10 n).head? ≠ some '0' := by
  induction n using Nat.strongRecOn with
  | ind n ih =>
      by_cases hlt : n < 10
      · rw [Nat.toDigits_of_lt_base hlt, List.head?_cons]
        intro h
        have hdigit := congrArg Char.toNat (Option.some.inj h)
        rw [Nat.toNat_digitChar_of_lt_ten hlt] at hdigit
        exact hn (Nat.add_left_cancel hdigit)
      · rw [Nat.toDigits_of_base_le (by decide) (Nat.not_lt.mp hlt),
          List.head?_append_of_ne_nil _ Nat.toDigits_ne_nil]
        exact ih (n / 10) (by omega) (by omega)

theorem intText_toDigits (n : ℕ) : IntText (Nat.toDigits 10 n) := by
  by_cases hn : n = 0
  · rw [hn, Nat.toDigits_zero]
    exact .inl rfl
  · exact .inr ⟨digits_toDigits n, head?_toDigits hn⟩

theorem isNumber_toDigits (n : ℕ) : IsNumber (Nat.toDigits 10 n) :=
  ⟨[], _, [], [], .inl rfl, intText_toDigits n, .inl rfl, .inl rfl, by simp⟩

theorem isDigit_iff {c : Char} : isDigit c = true ↔ 48 ≤ c.toNat ∧ c.toNat ≤ 57 := by
  rw [isDigit, decide_eq_true_iff]

theorem digitChar_of_isDigit {c : Char} (h : isDigit c = true) :
    Nat.digitChar (c.toNat - 48) = c := by
  obtain ⟨hlow, hhigh⟩ := isDigit_iff.mp h
  have hvalue := Nat.toNat_digitChar_of_lt_ten (n := c.toNat - 48) (by omega)
  apply Char.toNat_inj.mp
  rw [hvalue]
  omega

theorem toDigits_append {ds : List Char} (h : ∀ c ∈ ds, isDigit c = true) {acc : ℕ}
    (hacc : 0 < acc) :
    Nat.toDigits 10 acc ++ ds = Nat.toDigits 10 (Nat.ofDigitChars 10 ds acc) := by
  induction ds generalizing acc with
  | nil => simp
  | cons c cs ih =>
      have hc := h c List.mem_cons_self
      obtain ⟨hlow, hhigh⟩ := isDigit_iff.mp hc
      have hvalue : c.toNat - 48 < 10 := by omega
      have hstep := Nat.toDigits_append_toDigits (b := 10) (by decide) hacc hvalue
      rw [Nat.toDigits_of_lt_base hvalue, digitChar_of_isDigit hc] at hstep
      have htail := @ih (fun c' hc' => h c' (List.mem_cons_of_mem c hc'))
        (10 * acc + (c.toNat - 48)) (by omega)
      calc
        Nat.toDigits 10 acc ++ c :: cs = (Nat.toDigits 10 acc ++ [c]) ++ cs := by simp
        _ = Nat.toDigits 10 (10 * acc + (c.toNat - 48)) ++ cs := by rw [hstep]
        _ = Nat.toDigits 10 (Nat.ofDigitChars 10 (c :: cs) acc) := by
          rw [htail, Nat.ofDigitChars_cons]
          rfl

theorem toDigits_ofDigitChars {ds : List Char} (h : IntText ds) :
    Nat.toDigits 10 (Nat.ofDigitChars 10 ds 0) = ds := by
  rcases h with rfl | ⟨⟨hne, hdigits⟩, hzero⟩
  · decide
  · obtain ⟨d, tail, rfl⟩ := List.exists_cons_of_ne_nil hne
    have hd := hdigits d List.mem_cons_self
    obtain ⟨hlow, hhigh⟩ := isDigit_iff.mp hd
    have hpos : 0 < d.toNat - 48 := by
      by_contra hnot
      apply hzero
      rw [List.head?_cons, Option.some.injEq, ← Char.toNat_inj]
      show d.toNat = 48
      omega
    have happend := toDigits_append (fun c hc => hdigits c (List.mem_cons_of_mem d hc)) hpos
    rw [Nat.toDigits_of_lt_base (by omega), digitChar_of_isDigit hd] at happend
    rw [Nat.ofDigitChars_cons, Nat.mul_zero, Nat.zero_add]
    exact happend.symm

theorem intText_of_isNumber {literal : List Char} (h : IsNumber literal)
    (hdigits : ∀ c ∈ literal, isDigit c = true) : IntText literal := by
  obtain ⟨sign, whole, frac, exp, hsign, hwhole, hfrac, hexp, rfl⟩ := h
  have hnot {c : Char} (hc : isDigit c = false) : c ∉ sign ++ whole ++ frac ++ exp := by
    intro hmem
    rw [hdigits c hmem] at hc
    cases hc
  have hsign : sign = [] := by
    rcases hsign with rfl | rfl
    · rfl
    · exact absurd (by simp) (hnot (by decide : isDigit '-' = false))
  have hfrac : frac = [] := by
    rcases hfrac with rfl | ⟨ds, -, rfl⟩
    · rfl
    · exact absurd (by simp) (hnot (by decide : isDigit '.' = false))
  have hexp : exp = [] := by
    rcases hexp with rfl | ⟨e, ds, he, -, hcs⟩
    · rfl
    · have hdigit : isDigit e = false := by
        rcases he with rfl | rfl <;> decide
      rcases hcs with rfl | rfl | rfl <;> exact absurd (by simp) (hnot hdigit)
  rw [hsign, hfrac, hexp, List.nil_append, List.append_nil, List.append_nil]
  exact hwhole

/-- The one literal read as a number is its digits. -/
theorem readUnsigned_eq_some {bound n : ℕ} {literal : List Char} (h : IsNumber literal) :
    readUnsigned bound (.num literal) = some n ↔ literal = Nat.toDigits 10 n ∧ n < bound := by
  rw [readUnsigned]
  by_cases hdigits : literal.all isDigit = true
  · have hint := intText_of_isNumber h (List.all_eq_true.mp hdigits)
    rw [if_pos hdigits]
    constructor
    · intro hread
      split at hread <;> rename_i hbound
      · obtain rfl := Option.some.inj hread
        exact ⟨(toDigits_ofDigitChars hint).symm, hbound⟩
      · cases hread
    · rintro ⟨rfl, hbound⟩
      rw [Nat.ofDigitChars_ten_toDigits, if_pos hbound]
  · rw [if_neg hdigits]
    constructor
    · intro hread
      cases hread
    · rintro ⟨rfl, -⟩
      exact absurd (List.all_eq_true.mpr fun _ => isDigit_of_mem_toDigits) hdigits

theorem readUnsigned_writeUnsigned {bound n : ℕ} (h : n < bound) :
    readUnsigned bound (writeUnsigned n) = some n :=
  (readUnsigned_eq_some (isNumber_toDigits n)).mpr ⟨rfl, h⟩

end Liquet.Json
