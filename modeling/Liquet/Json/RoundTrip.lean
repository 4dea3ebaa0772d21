import Liquet.Json.Reader

/-!
Text written by `render` is read back by `parse` as the value it was written
from. Every lemma leaves an arbitrary rest behind the construct it reads, so
that the lemmas compose the way the reader does.
-/

namespace Liquet.Json

open Liquet.Text

/-! ### Strings -/

theorem readEscapes_shortEscapes {c e : Char} (h : shortEscapes.lookup c = some e) :
    readEscapes.lookup e = some c ∧ e ≠ 'u' := by
  have hall : ∀ p ∈ shortEscapes, readEscapes.lookup p.2 = some p.1 ∧ p.2 ≠ 'u' := by decide
  have hmem : (c, e) ∈ shortEscapes := by
    obtain ⟨l₁, l₂, hsplit, -⟩ := List.lookup_eq_some_iff.mp h
    rw [hsplit]
    simp
  exact hall _ hmem

theorem hex4_digitChar {n : ℕ} (h : n < 256) (rest : List Char) :
    hex4 ('0' :: '0' :: Nat.digitChar (n / 16) :: Nat.digitChar (n % 16) :: rest) =
      some (n, rest) := by
  have h0 : hexVal '0' = some 0 := by decide
  have hhi := hexVal_digitChar (n := n / 16) (by omega)
  have hlo := hexVal_digitChar (n := n % 16) (by omega)
  simp only [hex4, h0, hhi, hlo, Option.bind_eq_bind, Option.bind_some]
  congr 2
  omega

/-- What `escapeChar` writes is either a backslash and something `unescape`
reads back, or the character itself when it needs no escape. -/
theorem escapeChar_cases (c : Char) :
    (∃ body, escapeChar c = '\\' :: body ∧
        ∀ rest, unescape (body ++ rest) = some (.char c, rest)) ∨
      (escapeChar c = [c] ∧ c ≠ '"' ∧ c ≠ '\\' ∧ ¬c.toNat < 32) := by
  rw [escapeChar]
  cases hshort : shortEscapes.lookup c with
  | some e =>
      obtain ⟨hread, hu⟩ := readEscapes_shortEscapes hshort
      refine .inl ⟨[e], rfl, fun rest => ?_⟩
      simp [unescape, hu, hread]
  | none =>
      by_cases hcontrol : c.toNat < 32
      · refine .inl ⟨_, if_pos hcontrol, fun rest => ?_⟩
        have hhigh : isHighSurrogate c.toNat = false := by
          simp [isHighSurrogate]
          omega
        have hlow : isLowSurrogate c.toNat = false := by
          simp [isLowSurrogate]
          omega
        simp [unescape, unescapeUnicode, hex4_digitChar (by omega : c.toNat < 256), piece, hhigh,
          hlow]
      · have hnot := List.lookup_eq_none_iff.mp hshort
        refine .inr ⟨if_neg hcontrol, ?_, ?_, hcontrol⟩
        · intro hc
          exact absurd (hnot ('"', '"') (by decide)) (by simp [hc])
        · intro hc
          exact absurd (hnot ('\\', '\\') (by decide)) (by simp [hc])

theorem readChars_escapeChar (cs rest : List Char) {fuel : ℕ} (h : cs.length < fuel) :
    readChars fuel (cs.flatMap escapeChar ++ '"' :: rest) = some (cs.map .char, rest) := by
  induction cs generalizing fuel with
  | nil =>
      obtain ⟨fuel, rfl⟩ : ∃ m, fuel = m + 1 := ⟨fuel - 1, by simp at h; omega⟩
      simp [readChars]
  | cons c cs ih =>
      obtain ⟨fuel, rfl⟩ : ∃ m, fuel = m + 1 := ⟨fuel - 1, by omega⟩
      have htail := @ih fuel (by simpa using h)
      obtain ⟨body, hbody, hread⟩ | ⟨hself, hquote, hslash, hcontrol⟩ := escapeChar_cases c
      · simp [List.flatMap_cons, hbody, readChars, hread, htail]
      · simp [List.flatMap_cons, hself, readChars, hquote, hslash, hcontrol, htail]

@[simp] theorem decode_map_char (cs : List Char) : decode (cs.map .char) = some cs := by
  induction cs with
  | nil => rfl
  | cons c cs ih => simp [decode, ih]

theorem readString_escapeChar (s : String) (rest : List Char) :
    readString (s.toList.flatMap escapeChar ++ '"' :: rest) = some (some s, rest) := by
  have hlen := length_flatMap_escapeChar s.toList
  rw [readString, readChars_escapeChar s.toList rest (by rw [List.length_append]; omega)]
  simp

/-! ### White space

The writer puts none, so the reader skips none: a value and a member both
begin with a character that is not a space, nor a closing bracket. -/

theorem skipSpace_cons {c : Char} (h : isSpace c = false) (text : List Char) :
    skipSpace (c :: text) = c :: text := by
  simp [skipSpace, h]

theorem render_head {v : Json} (hv : NumberFree v) :
    ∃ c text, render v = c :: text ∧ isSpace c = false ∧ c ≠ ']' := by
  cases v with
  | null => exact ⟨'n', _, rfl, by decide, by decide⟩
  | bool b => cases b <;> exact ⟨_, _, rfl, by decide, by decide⟩
  | num literal => exact hv.elim
  | str s => exact ⟨'"', _, rfl, by decide, by decide⟩
  | arr elems => exact ⟨'[', renderElems elems ++ [']'], by simp [render], by decide, by decide⟩
  | obj members =>
      exact ⟨'{', renderMembers members ++ ['}'], by simp [render], by decide, by decide⟩
  | unpaired => exact hv.elim

theorem renderElems_head {v : Json} (hv : NumberFree v) (vs : List Json) :
    ∃ c text, renderElems (v :: vs) = c :: text ∧ isSpace c = false ∧ c ≠ ']' := by
  obtain ⟨c, text, htext, hc⟩ := render_head hv
  cases vs with
  | nil => exact ⟨c, text, by rw [renderElems, htext], hc⟩
  | cons w vs => exact ⟨c, _, by rw [renderElems, htext, List.cons_append], hc⟩

theorem renderMembers_head (m : String × Json) (ms : List (String × Json)) :
    ∃ text, renderMembers (m :: ms) = '"' :: text := by
  cases ms <;> exact ⟨_, by simp only [renderMembers, renderString, List.cons_append]; rfl⟩

theorem readKey_renderString (k : String) (rest : List Char) :
    readKey (renderString k ++ ':' :: rest) = some (some k, rest) := by
  have hquote : isSpace '"' = false := by decide
  have hcolon : isSpace ':' = false := by decide
  simp [readKey, renderString, skipSpace_cons hquote, skipSpace_cons hcolon,
    readString_escapeChar]

/-! ### Values

The three readers of the mutual block call each other with one unit of fuel
less, so what each reads back at one level follows from what all of them read
back at the level below. -/

def ReadsValues (fuel : ℕ) : Prop :=
  ∀ (v : Json) (rest : List Char), NumberFree v → (render v).length < fuel →
    readValue fuel (render v ++ rest) = some (v, rest)

def ReadsElems (fuel : ℕ) : Prop :=
  ∀ (v : Json) (vs : List Json) (rest : List Char), NumberFreeElems (v :: vs) →
    (renderElems (v :: vs)).length + 1 < fuel →
      readElems fuel (renderElems (v :: vs) ++ ']' :: rest) = some (v :: vs, rest)

def ReadsMembers (fuel : ℕ) : Prop :=
  ∀ (m : String × Json) (ms : List (String × Json)) (rest : List Char),
    NumberFreeMembers (m :: ms) → (renderMembers (m :: ms)).length + 1 < fuel →
      readMembers fuel (renderMembers (m :: ms) ++ '}' :: rest) = some (some (m :: ms), rest)

theorem readsValues_succ {fuel : ℕ} (helems : ReadsElems fuel) (hmembers : ReadsMembers fuel) :
    ReadsValues (fuel + 1) := by
  intro v rest hv hfuel
  cases v with
  | null => simp [render, readValue, skipSpace, isSpace, readName]
  | bool b => cases b <;> simp [render, readValue, skipSpace, isSpace, readName]
  | num literal => exact hv.elim
  | str s =>
      simp [render, renderString, readValue, skipSpace_cons (by decide : isSpace '"' = false),
        readString_escapeChar, ofString]
  | arr elems =>
      have hopen : isSpace '[' = false := by decide
      cases elems with
      | nil =>
          simp [render, renderElems, readValue, skipSpace_cons hopen,
            skipSpace_cons (by decide : isSpace ']' = false)]
      | cons w vs =>
          obtain ⟨c, text, htext, hspace, hclose⟩ := renderElems_head hv.1 vs
          have hread := helems w vs rest hv (by
            simp [render] at hfuel
            omega)
          rw [htext, List.cons_append] at hread
          simp [render, htext, readValue, skipSpace_cons hopen, skipSpace_cons hspace, hclose,
            hread]
  | obj members =>
      have hopen : isSpace '{' = false := by decide
      cases members with
      | nil =>
          simp [render, renderMembers, readValue, skipSpace_cons hopen,
            skipSpace_cons (by decide : isSpace '}' = false)]
      | cons m ms =>
          obtain ⟨text, htext⟩ := renderMembers_head m ms
          have hread := hmembers m ms rest hv (by
            simp [render] at hfuel
            omega)
          rw [htext, List.cons_append] at hread
          simp [render, htext, readValue, skipSpace_cons hopen,
            skipSpace_cons (by decide : isSpace '"' = false), hread, ofMembers]
  | unpaired => exact hv.elim

theorem readsElems_succ {fuel : ℕ} (hvalues : ReadsValues fuel) (helems : ReadsElems fuel) :
    ReadsElems (fuel + 1) := by
  intro v vs rest hvs hfuel
  cases vs with
  | nil =>
      have hread := hvalues v (']' :: rest) hvs.1 (by
        simp [renderElems] at hfuel
        omega)
      simp [renderElems, readElems, hread, skipSpace_cons (by decide : isSpace ']' = false)]
  | cons w vs =>
      have hlen : (render v).length + (renderElems (w :: vs)).length + 1 < fuel := by
        simp only [renderElems, List.length_append, List.length_cons] at hfuel
        omega
      have hread := hvalues v (',' :: (renderElems (w :: vs) ++ ']' :: rest)) hvs.1 (by omega)
      have htail := helems w vs rest hvs.2 (by omega)
      simp [renderElems, readElems, hread, skipSpace_cons (by decide : isSpace ',' = false),
        htail]

theorem readsMembers_succ {fuel : ℕ} (hvalues : ReadsValues fuel)
    (hmembers : ReadsMembers fuel) : ReadsMembers (fuel + 1) := by
  intro m ms rest hms hfuel
  obtain ⟨k, v⟩ := m
  cases ms with
  | nil =>
      have hread := hvalues v ('}' :: rest) hms.1 (by
        simp [renderMembers] at hfuel
        omega)
      simp [renderMembers, readMembers, readKey_renderString, hread, member,
        skipSpace_cons (by decide : isSpace '}' = false)]
  | cons m ms =>
      have hlen : (render v).length + (renderMembers (m :: ms)).length + 1 < fuel := by
        simp only [renderMembers, List.length_append, List.length_cons] at hfuel
        omega
      have hread := hvalues v (',' :: (renderMembers (m :: ms) ++ '}' :: rest)) hms.1 (by omega)
      have htail := hmembers m ms rest hms.2 (by omega)
      simp [renderMembers, readMembers, readKey_renderString, hread, member,
        skipSpace_cons (by decide : isSpace ',' = false), htail]

theorem reads (fuel : ℕ) : ReadsValues fuel ∧ ReadsElems fuel ∧ ReadsMembers fuel := by
  induction fuel with
  | zero =>
      exact ⟨fun _ _ _ h => absurd h (Nat.not_lt_zero _),
        fun _ _ _ _ h => absurd h (Nat.not_lt_zero _),
        fun _ _ _ _ h => absurd h (Nat.not_lt_zero _)⟩
  | succ fuel ih =>
      obtain ⟨hvalues, helems, hmembers⟩ := ih
      exact ⟨readsValues_succ helems hmembers, readsElems_succ hvalues helems,
        readsMembers_succ hvalues hmembers⟩

/-- The text of a value without numbers parses to that value. -/
theorem parse_render {v : Json} (hv : NumberFree v) :
    parse (String.ofList (render v)) = some v := by
  have hread := (reads (2 * (render v).length + 1)).1 v [] hv (by omega)
  rw [List.append_nil] at hread
  rw [parse, String.toList_ofList, hread]
  show (if skipSpace [] = [] then some v else none) = some v
  exact if_pos rfl

end Liquet.Json
