import Liquet.Json.Extends
import Liquet.Json.RoundTrip

/-!
The texts of a JSON value: any white space around its tokens, any of the ways
to escape a character, numbers as the standard has them. The reader reads
every text of a value as that value, so how a document was laid out does not
show in what is read.
-/

namespace Liquet.Json

open Liquet.Text

/-! ### Numbers -/

/-- What follows a number: none of the characters that would continue it. -/
def EndsNumber (rest : List Char) : Prop :=
  ∀ c ∈ rest.head?, isDigit c = false ∧ c ≠ '.' ∧ c ≠ 'e' ∧ c ≠ 'E'

def Digits (ds : List Char) : Prop := ds ≠ [] ∧ ∀ c ∈ ds, isDigit c = true

/-- No superfluous leading zero. -/
def IntText (ds : List Char) : Prop := ds = ['0'] ∨ Digits ds ∧ ds.head? ≠ some '0'

def FracText (cs : List Char) : Prop := cs = [] ∨ ∃ ds, Digits ds ∧ cs = '.' :: ds

def ExpText (cs : List Char) : Prop :=
  cs = [] ∨ ∃ e ds, (e = 'e' ∨ e = 'E') ∧ Digits ds ∧
    (cs = e :: ds ∨ cs = e :: '+' :: ds ∨ cs = e :: '-' :: ds)

def IsNumber (literal : List Char) : Prop :=
  ∃ sign whole frac exp, (sign = [] ∨ sign = ['-']) ∧ IntText whole ∧ FracText frac ∧
    ExpText exp ∧ literal = sign ++ whole ++ frac ++ exp

section

variable {cs ds rest : List Char}

theorem digits_append (hds : Digits ds) (hrest : ∀ c ∈ rest.head?, isDigit c = false) :
    digits (ds ++ rest) = some (ds, rest) := by
  have htake : (ds ++ rest).takeWhile isDigit = ds := by
    rw [List.takeWhile_append_of_pos hds.2]
    cases rest with
    | nil => simp
    | cons c rest => simp [hrest c rfl]
  have hdrop : (ds ++ rest).dropWhile isDigit = rest := by
    rw [List.dropWhile_append_of_pos hds.2]
    cases rest with
    | nil => simp
    | cons c rest => simp [hrest c rfl]
  obtain ⟨d, ds', rfl⟩ := List.exists_cons_of_ne_nil hds.1
  rw [digits, List.span_eq_takeWhile_dropWhile, htake, hdrop]

theorem intPart_append (hds : IntText ds) (hrest : ∀ c ∈ rest.head?, isDigit c = false) :
    intPart (ds ++ rest) = some (ds, rest) := by
  rcases hds with rfl | ⟨hds, hzero⟩
  · have hany : rest.head?.any isDigit = false := by
      cases rest with
      | nil => rfl
      | cons c rest => simpa using hrest c rfl
    simp [intPart, hany]
  · obtain ⟨d, ds', rfl⟩ := List.exists_cons_of_ne_nil hds.1
    have hd : d ≠ '0' := fun h => hzero (by rw [h, List.head?_cons])
    rw [← digits_append hds hrest, List.cons_append, intPart]
    rintro tail h
    exact hd (List.cons.inj h).1

theorem exists_digit_of_intText (hds : IntText ds) :
    ∃ d tail, ds = d :: tail ∧ isDigit d = true := by
  rcases hds with rfl | ⟨hds, -⟩
  · exact ⟨'0', [], rfl, by decide⟩
  · obtain ⟨d, tail, rfl⟩ := List.exists_cons_of_ne_nil hds.1
    exact ⟨d, tail, rfl, hds.2 d List.mem_cons_self⟩

theorem head?_frac_append (hcs : FracText cs) (hrest : ∀ c ∈ rest.head?, isDigit c = false) :
    ∀ c ∈ (cs ++ rest).head?, isDigit c = false := by
  rcases hcs with rfl | ⟨ds, -, rfl⟩
  · exact hrest
  · rintro c hc
    obtain rfl := Option.some.inj hc
    decide

theorem fracPart_append (hcs : FracText cs)
    (hrest : ∀ c ∈ rest.head?, isDigit c = false ∧ c ≠ '.') :
    fracPart (cs ++ rest) = some (cs, rest) := by
  rcases hcs with rfl | ⟨ds, hds, rfl⟩
  · cases rest with
    | nil => rfl
    | cons c rest =>
        rw [List.nil_append, fracPart]
        rintro rest' h
        exact (hrest c rfl).2 (List.cons.inj h).1
  · have hread := digits_append hds fun c hc => (hrest c hc).1
    simp [fracPart, hread]

theorem head?_exp_append (hcs : ExpText cs)
    (hrest : ∀ c ∈ rest.head?, isDigit c = false ∧ c ≠ '.') :
    ∀ c ∈ (cs ++ rest).head?, isDigit c = false ∧ c ≠ '.' := by
  rcases hcs with rfl | ⟨e, ds, he, -, hcs⟩
  · exact hrest
  · have hhead : (cs ++ rest).head? = some e := by
      rcases hcs with rfl | rfl | rfl <;> rfl
    rw [hhead]
    rintro c hc
    obtain rfl := Option.some.inj hc
    rcases he with rfl | rfl <;> decide

theorem expPart_append (hcs : ExpText cs) (hrest : EndsNumber rest) :
    expPart (cs ++ rest) = some (cs, rest) := by
  rcases hcs with rfl | ⟨e, ds, he, hds, hcs⟩
  · cases rest with
    | nil => rfl
    | cons c rest =>
        obtain ⟨-, -, hlower, hupper⟩ := hrest c rfl
        simp [expPart, hlower, hupper]
  · have hread := digits_append hds fun c hc => (hrest c hc).1
    obtain ⟨d, ds', rfl⟩ := List.exists_cons_of_ne_nil hds.1
    have hd := hds.2 d List.mem_cons_self
    have hplus : d ≠ '+' := by
      rintro rfl
      cases hd
    have hminus : d ≠ '-' := by
      rintro rfl
      cases hd
    rcases hcs with rfl | rfl | rfl
    · simp only [List.cons_append] at hread ⊢
      simp [expPart, he, hplus, hminus, hread]
    · simp only [List.cons_append] at hread ⊢
      simp [expPart, he, hread]
    · simp only [List.cons_append] at hread ⊢
      simp [expPart, he, hread]

theorem readNumber_append {literal : List Char} (h : IsNumber literal) (hrest : EndsNumber rest) :
    readNumber (literal ++ rest) = some (.num literal, rest) := by
  obtain ⟨sign, whole, frac, exp, hsign, hwhole, hfrac, hexp, rfl⟩ := h
  have hends : ∀ c ∈ rest.head?, isDigit c = false ∧ c ≠ '.' :=
    fun c hc => ⟨(hrest c hc).1, (hrest c hc).2.1⟩
  have hexpEnds := head?_exp_append hexp hends
  have hfracEnds := head?_frac_append hfrac fun c hc => (hexpEnds c hc).1
  have hminus : minusPart (sign ++ (whole ++ (frac ++ (exp ++ rest)))) =
      (sign, whole ++ (frac ++ (exp ++ rest))) := by
    rcases hsign with rfl | rfl
    · obtain ⟨d, tail, rfl, hd⟩ := exists_digit_of_intText hwhole
      rw [List.nil_append, List.cons_append, minusPart]
      rintro tail' h
      rw [(List.cons.inj h).1] at hd
      cases hd
    · rfl
  rw [List.append_assoc, List.append_assoc, List.append_assoc, readNumber, hminus]
  simp [intPart_append hwhole hfracEnds, fracPart_append hfrac hexpEnds,
    expPart_append hexp hrest]

end

/-! ### Strings -/

inductive Pieces : List Piece → List Char → Prop
  | nil : Pieces [] []
  | plain {c ps text} (hquote : c ≠ '"') (hslash : c ≠ '\\') (hcontrol : ¬c.toNat < 32)
      (h : Pieces ps text) : Pieces (.char c :: ps) (c :: text)
  | escape {p ps body text} (hbody : unescape body = some (p, [])) (h : Pieces ps text) :
      Pieces (p :: ps) ('\\' :: (body ++ text))

/-- The texts of a string between its quotes, or of what is no string. -/
def Chars (s : Option String) (text : List Char) : Prop :=
  ∃ ps, Pieces ps text ∧ (decode ps).map String.ofList = s

theorem readChars_append {ps : List Piece} {text : List Char} (h : Pieces ps text)
    (rest : List Char) {fuel : ℕ} (hfuel : text.length < fuel) :
    readChars fuel (text ++ '"' :: rest) = some (ps, rest) := by
  induction h generalizing fuel with
  | nil =>
      obtain ⟨fuel, rfl⟩ : ∃ m, fuel = m + 1 := ⟨fuel - 1, by simp at hfuel; omega⟩
      simp [readChars]
  | plain hquote hslash hcontrol h ih =>
      obtain ⟨fuel, rfl⟩ : ∃ m, fuel = m + 1 := ⟨fuel - 1, by simp at hfuel; omega⟩
      have htail := @ih fuel (by simpa using hfuel)
      simp [readChars, hquote, hslash, hcontrol, htail]
  | @escape p ps body text hbody h ih =>
      obtain ⟨fuel, rfl⟩ : ∃ m, fuel = m + 1 := ⟨fuel - 1, by simp at hfuel; omega⟩
      have htail := @ih fuel (by simp at hfuel; omega)
      have hread := unescape_extends _ _ _ (text ++ '"' :: rest) hbody
      simp [readChars, hread, htail]

theorem readString_append {s : Option String} {text : List Char} (h : Chars s text)
    (rest : List Char) : readString (text ++ '"' :: rest) = some (s, rest) := by
  obtain ⟨ps, hps, rfl⟩ := h
  rw [readString, readChars_append hps rest (by rw [List.length_append]; omega)]
  rfl

/-! ### Values -/

def Spaces (ws : List Char) : Prop := ∀ c ∈ ws, isSpace c = true

mutual

/-- The texts of a value. -/
inductive Denotes : Json → List Char → Prop
  | null : Denotes .null "null".toList
  | true : Denotes (.bool true) "true".toList
  | false : Denotes (.bool false) "false".toList
  | num {literal} (h : IsNumber literal) : Denotes (.num literal) literal
  | str {s text} (h : Chars s text) : Denotes (ofString s) ('"' :: (text ++ ['"']))
  | arrNil {ws} (hws : Spaces ws) : Denotes (.arr []) ('[' :: (ws ++ [']']))
  | arr {vs text} (h : DenotesElems vs text) : Denotes (.arr vs) ('[' :: (text ++ [']']))
  | objNil {ws} (hws : Spaces ws) : Denotes (.obj []) ('{' :: (ws ++ ['}']))
  | obj {ms text} (h : DenotesMembers ms text) : Denotes (ofMembers ms) ('{' :: (text ++ ['}']))

/-- The texts of a value with white space on both sides. -/
inductive DenotesPadded : Json → List Char → Prop
  | pad {v left text right} (hleft : Spaces left) (h : Denotes v text) (hright : Spaces right) :
      DenotesPadded v (left ++ (text ++ right))

inductive DenotesElems : List Json → List Char → Prop
  | one {v text} (h : DenotesPadded v text) : DenotesElems [v] text
  | more {v vs text rest} (h : DenotesPadded v text) (hrest : DenotesElems vs rest) :
      DenotesElems (v :: vs) (text ++ ',' :: rest)

inductive DenotesMembers : Option (List (String × Json)) → List Char → Prop
  | one {k v left key middle text} (hleft : Spaces left) (hkey : Chars k key)
      (hmiddle : Spaces middle) (h : DenotesPadded v text) :
      DenotesMembers (member k v (some []))
        (left ++ '"' :: (key ++ '"' :: (middle ++ ':' :: text)))
  | more {k v ms left key middle text rest} (hleft : Spaces left) (hkey : Chars k key)
      (hmiddle : Spaces middle) (h : DenotesPadded v text) (hrest : DenotesMembers ms rest) :
      DenotesMembers (member k v ms)
        (left ++ '"' :: (key ++ '"' :: (middle ++ ':' :: (text ++ ',' :: rest))))

end

section

variable {ws text rest : List Char} {v : Json} {c : Char}

theorem spaces_singleton (h : isSpace c = true) : Spaces [c] := by
  intro d hd
  rw [List.mem_singleton.mp hd]
  exact h

theorem skipSpace_spaces_append (h : Spaces ws) (text : List Char) :
    skipSpace (ws ++ text) = skipSpace text :=
  skipSpace_append_of_eq_nil (skipSpace_eq_nil.mpr h) text

theorem endsNumber_cons (h : isDigit c = false ∧ c ≠ '.' ∧ c ≠ 'e' ∧ c ≠ 'E')
    (rest : List Char) : EndsNumber (c :: rest) := by
  rintro _ hc
  obtain rfl := Option.some.inj hc
  exact h

theorem endsNumber_spaces_append (h : Spaces ws) (hrest : EndsNumber rest) :
    EndsNumber (ws ++ rest) := by
  cases ws with
  | nil => exact hrest
  | cons c ws =>
      have hc := h c List.mem_cons_self
      simp only [isSpace, decide_eq_true_eq] at hc
      apply endsNumber_cons
      rcases hc with rfl | rfl | rfl | rfl <;> decide

theorem head_of_isNumber {literal : List Char} (h : IsNumber literal) :
    ∃ c tail, literal = c :: tail ∧ (c = '-' ∨ isDigit c = true) := by
  obtain ⟨sign, whole, frac, exp, rfl | rfl, hwhole, -, -, rfl⟩ := h
  · obtain ⟨d, tail, rfl, hd⟩ := exists_digit_of_intText hwhole
    exact ⟨d, _, rfl, .inr hd⟩
  · exact ⟨'-', _, rfl, .inl rfl⟩

theorem ne_of_number_head (h : c = '-' ∨ isDigit c = true) :
    isSpace c = false ∧ c ≠ ']' ∧ c ≠ '"' ∧ c ≠ '[' ∧ c ≠ '{' ∧ c ≠ 'n' ∧ c ≠ 't' ∧ c ≠ 'f' := by
  rcases h with rfl | h
  · decide
  · have hne (d : Char) (hd : isDigit d = false) : c ≠ d := by
      rintro rfl
      rw [hd] at h
      cases h
    refine ⟨?_, hne _ (by decide), hne _ (by decide), hne _ (by decide), hne _ (by decide),
      hne _ (by decide), hne _ (by decide), hne _ (by decide)⟩
    simp [isSpace, hne ' ' (by decide), hne '\n' (by decide), hne '\t' (by decide),
      hne '\r' (by decide)]

/-- A value starts with a character that is neither white space nor closes an
array. -/
theorem head_of_denotes (h : Denotes v text) :
    ∃ c tail, text = c :: tail ∧ isSpace c = false ∧ c ≠ ']' := by
  cases h with
  | null => exact ⟨'n', _, rfl, by decide, by decide⟩
  | true => exact ⟨'t', _, rfl, by decide, by decide⟩
  | false => exact ⟨'f', _, rfl, by decide, by decide⟩
  | num h =>
      obtain ⟨c, tail, rfl, hc⟩ := head_of_isNumber h
      obtain ⟨hspace, hclose, -⟩ := ne_of_number_head hc
      exact ⟨c, tail, rfl, hspace, hclose⟩
  | str h => exact ⟨'"', _, rfl, by decide, by decide⟩
  | arrNil hws => exact ⟨'[', _, rfl, by decide, by decide⟩
  | arr h => exact ⟨'[', _, rfl, by decide, by decide⟩
  | objNil hws => exact ⟨'{', _, rfl, by decide, by decide⟩
  | obj h => exact ⟨'{', _, rfl, by decide, by decide⟩

theorem skipSpace_elems {vs : List Json} (h : DenotesElems vs text) (rest : List Char) :
    ∃ c tail, skipSpace (text ++ rest) = c :: tail ∧ c ≠ ']' := by
  have hpadded {v : Json} {text : List Char} (h : DenotesPadded v text) (rest : List Char) :
      ∃ c tail, skipSpace (text ++ rest) = c :: tail ∧ c ≠ ']' := by
    obtain ⟨hleft, h, hright⟩ := h
    obtain ⟨c, tail, rfl, hspace, hclose⟩ := head_of_denotes h
    rw [List.append_assoc, skipSpace_spaces_append hleft]
    simp only [List.cons_append, skipSpace_cons hspace]
    exact ⟨c, _, rfl, hclose⟩
  cases h with
  | one h => exact hpadded h rest
  | more h hrest =>
      rw [List.append_assoc]
      exact hpadded h _

theorem skipSpace_members {ms : Option (List (String × Json))} (h : DenotesMembers ms text)
    (rest : List Char) : ∃ tail, skipSpace (text ++ rest) = '"' :: tail := by
  have hquote : isSpace '"' = false := by decide
  cases h with
  | one hleft hkey hmiddle h =>
      rw [List.append_assoc, skipSpace_spaces_append hleft, List.cons_append, skipSpace_cons hquote]
      exact ⟨_, rfl⟩
  | more hleft hkey hmiddle h hrest =>
      rw [List.append_assoc, skipSpace_spaces_append hleft, List.cons_append, skipSpace_cons hquote]
      exact ⟨_, rfl⟩

theorem readKey_append {k : Option String} {left key middle : List Char} (hleft : Spaces left)
    (hkey : Chars k key) (hmiddle : Spaces middle) (rest : List Char) :
    readKey (left ++ '"' :: (key ++ '"' :: (middle ++ ':' :: rest))) = some (k, rest) := by
  have hquote : isSpace '"' = false := by decide
  have hcolon : isSpace ':' = false := by decide
  simp [readKey, skipSpace_spaces_append hleft, skipSpace_cons hquote, readString_append hkey,
    skipSpace_spaces_append hmiddle, skipSpace_cons hcolon]

end

/-! ### Reading them

As for the compact text, what the three readers read at one level of fuel
follows from what they read at the level below. -/

def ReadsDenoted (fuel : ℕ) : Prop :=
  ∀ v text left rest, Denotes v text → Spaces left → EndsNumber rest → text.length < fuel →
    readValue fuel (left ++ (text ++ rest)) = some (v, rest)

def ReadsDenotedElems (fuel : ℕ) : Prop :=
  ∀ vs text rest, DenotesElems vs text → text.length + 1 < fuel →
    readElems fuel (text ++ ']' :: rest) = some (vs, rest)

def ReadsDenotedMembers (fuel : ℕ) : Prop :=
  ∀ ms text rest, DenotesMembers ms text → text.length + 1 < fuel →
    readMembers fuel (text ++ '}' :: rest) = some (ms, rest)

section

variable {fuel : ℕ}

theorem readsDenoted_succ (helems : ReadsDenotedElems fuel) (hmembers : ReadsDenotedMembers fuel) :
    ReadsDenoted (fuel + 1) := by
  intro v text left rest h hleft hrest hfuel
  have hopen : isSpace '[' = false := by decide
  have hbrace : isSpace '{' = false := by decide
  have hclose : isSpace ']' = false := by decide
  have hend : isSpace '}' = false := by decide
  have hquote : isSpace '"' = false := by decide
  rw [readValue, skipSpace_spaces_append hleft]
  cases h with
  | null => simp [skipSpace, isSpace, readName]
  | true => simp [skipSpace, isSpace, readName]
  | false => simp [skipSpace, isSpace, readName]
  | num h =>
      have hread := readNumber_append h hrest
      obtain ⟨c, tail, rfl, hc⟩ := head_of_isNumber h
      obtain ⟨hspace, -, hne⟩ := ne_of_number_head hc
      rw [List.cons_append] at hread ⊢
      simp [skipSpace_cons hspace, hne, hread]
  | str h => simp [skipSpace_cons hquote, readString_append h]
  | arrNil hws =>
      simp [skipSpace_cons hopen, skipSpace_spaces_append hws, skipSpace_cons hclose]
  | arr h =>
      obtain ⟨c, tail, hhead, hne⟩ := skipSpace_elems h (']' :: rest)
      have hread := helems _ _ rest h (by simp at hfuel; omega)
      simp [skipSpace_cons hopen, hhead, hne, hread]
  | objNil hws =>
      simp [skipSpace_cons hbrace, skipSpace_spaces_append hws, skipSpace_cons hend]
  | obj h =>
      obtain ⟨tail, hhead⟩ := skipSpace_members h ('}' :: rest)
      have hread := hmembers _ _ rest h (by simp at hfuel; omega)
      simp [skipSpace_cons hbrace, hhead, hread]

theorem ReadsDenoted.padded (h : ReadsDenoted fuel) {v : Json} {text rest : List Char}
    (hv : DenotesPadded v text) (hrest : EndsNumber rest) (hfuel : text.length < fuel) :
    ∃ right, Spaces right ∧ readValue fuel (text ++ rest) = some (v, right ++ rest) := by
  obtain ⟨hleft, hv, hright⟩ := hv
  refine ⟨_, hright, ?_⟩
  rw [List.append_assoc, List.append_assoc]
  exact h _ _ _ _ hv hleft (endsNumber_spaces_append hright hrest) (by simp at hfuel; omega)

theorem readsDenotedElems_succ (hvalues : ReadsDenoted fuel) (helems : ReadsDenotedElems fuel) :
    ReadsDenotedElems (fuel + 1) := by
  intro vs text rest h hfuel
  cases h with
  | one h =>
      have hclose : isSpace ']' = false := by decide
      obtain ⟨right, hright, hread⟩ :=
        hvalues.padded h (endsNumber_cons (c := ']') (by decide) rest) (by omega)
      simp [readElems, hread, skipSpace_spaces_append hright, skipSpace_cons hclose]
  | @more v vs text tail h htail =>
      have hcomma : isSpace ',' = false := by decide
      simp only [List.length_append, List.length_cons] at hfuel
      obtain ⟨right, hright, hread⟩ :=
        hvalues.padded h (endsNumber_cons (c := ',') (by decide) (tail ++ ']' :: rest)) (by omega)
      have hrest := helems _ _ rest htail (by omega)
      simp [readElems, hread, skipSpace_spaces_append hright, skipSpace_cons hcomma, hrest]

theorem readsDenotedMembers_succ (hvalues : ReadsDenoted fuel)
    (hmembers : ReadsDenotedMembers fuel) : ReadsDenotedMembers (fuel + 1) := by
  intro ms text rest h hfuel
  cases h with
  | @one k v left key middle text hleft hkey hmiddle h =>
      have hend : isSpace '}' = false := by decide
      simp only [List.length_append, List.length_cons] at hfuel
      obtain ⟨right, hright, hread⟩ :=
        hvalues.padded h (endsNumber_cons (c := '}') (by decide) rest) (by omega)
      have hname := readKey_append hleft hkey hmiddle (text ++ '}' :: rest)
      simp only [List.append_assoc, List.cons_append]
      simp [readMembers, hname, hread, skipSpace_spaces_append hright, skipSpace_cons hend]
  | @more k v ms left key middle text tail hleft hkey hmiddle h htail =>
      have hcomma : isSpace ',' = false := by decide
      simp only [List.length_append, List.length_cons] at hfuel
      obtain ⟨right, hright, hread⟩ :=
        hvalues.padded h (endsNumber_cons (c := ',') (by decide) (tail ++ '}' :: rest)) (by omega)
      have hname := readKey_append hleft hkey hmiddle (text ++ ',' :: (tail ++ '}' :: rest))
      have hrest := hmembers _ _ rest htail (by omega)
      simp only [List.append_assoc, List.cons_append]
      simp [readMembers, hname, hread, skipSpace_spaces_append hright, skipSpace_cons hcomma, hrest]

end

theorem reads_denoted (fuel : ℕ) :
    ReadsDenoted fuel ∧ ReadsDenotedElems fuel ∧ ReadsDenotedMembers fuel := by
  induction fuel with
  | zero =>
      exact ⟨fun _ _ _ _ _ _ _ h => absurd h (Nat.not_lt_zero _),
        fun _ _ _ _ h => absurd h (Nat.not_lt_zero _),
        fun _ _ _ _ h => absurd h (Nat.not_lt_zero _)⟩
  | succ fuel ih =>
      obtain ⟨hvalues, helems, hmembers⟩ := ih
      exact ⟨readsDenoted_succ helems hmembers, readsDenotedElems_succ hvalues helems,
        readsDenotedMembers_succ hvalues hmembers⟩

/-- Every text of a value parses to it. -/
theorem parse_of_denotes {v : Json} {text : List Char} (h : DenotesPadded v text) :
    parse (String.ofList text) = some v := by
  have hnil : EndsNumber [] := nofun
  obtain ⟨right, hright, hread⟩ :=
    (reads_denoted (2 * text.length + 1)).1.padded h hnil (by omega)
  rw [List.append_nil, List.append_nil] at hread
  rw [parse, String.toList_ofList, hread]
  exact if_pos (skipSpace_eq_nil.mpr hright)

/-! ### The compact text -/

mutual

def Valid : Json → Prop
  | .num literal => IsNumber literal
  | .arr elems => ValidElems elems
  | .obj members => ValidMembers members
  | _ => True

def ValidElems : List Json → Prop
  | [] => True
  | v :: vs => Valid v ∧ ValidElems vs

def ValidMembers : List (String × Json) → Prop
  | [] => True
  | (_, v) :: ms => Valid v ∧ ValidMembers ms

end

theorem pieces_flatMap_escapeChar (cs : List Char) :
    Pieces (cs.map .char) (cs.flatMap escapeChar) := by
  induction cs with
  | nil => exact .nil
  | cons c cs ih =>
      rw [List.flatMap_cons]
      rcases escapeChar_cases c with ⟨body, hbody, hread⟩ | ⟨hself, hquote, hslash, hcontrol⟩
      · have hexact := hread []
        rw [List.append_nil] at hexact
        rw [hbody]
        exact .escape hexact ih
      · rw [hself]
        exact .plain hquote hslash hcontrol ih

theorem chars_flatMap_escapeChar (s : String) : Chars (some s) (s.toList.flatMap escapeChar) :=
  ⟨_, pieces_flatMap_escapeChar s.toList, by simp⟩

theorem chars_unpaired : Chars none ['\\', 'u', 'd', '8', '0', '0'] := by
  have hread : unescape ['u', 'd', '8', '0', '0'] = some (.high 0xD800, []) := by decide
  exact ⟨_, .escape hread .nil, rfl⟩

theorem DenotesPadded.of_denotes {v : Json} {text : List Char} (h : Denotes v text) :
    DenotesPadded v text := by
  have hpad := @DenotesPadded.pad v [] text [] nofun h nofun
  simpa using hpad

theorem denotesMembers_one {k : String} {v : Json} {text : List Char} (h : Denotes v text) :
    DenotesMembers (some [(k, v)]) (renderString k ++ ':' :: text) := by
  have hone := @DenotesMembers.one k v [] _ [] _ nofun (chars_flatMap_escapeChar k) nofun
    (.of_denotes h)
  simpa [renderString, member] using hone

theorem denotesMembers_cons {k : String} {v : Json} {ms : List (String × Json)}
    {text rest : List Char} (h : Denotes v text) (hrest : DenotesMembers (some ms) rest) :
    DenotesMembers (some ((k, v) :: ms)) (renderString k ++ ':' :: text ++ ',' :: rest) := by
  have hmore := @DenotesMembers.more k v (some ms) [] _ [] _ rest nofun
    (chars_flatMap_escapeChar k) nofun (.of_denotes h) hrest
  simpa [renderString, member] using hmore

mutual

theorem denotes_render : ∀ v : Json, v.Valid → Denotes v v.render
  | .null, _ => .null
  | .bool true, _ => .true
  | .bool false, _ => .false
  | .num literal, h => .num h
  | .str s, _ => .str (chars_flatMap_escapeChar s)
  | .unpaired, _ => .str chars_unpaired
  | .arr elems, h => by
      rcases denotes_renderElems elems h with rfl | helems
      · exact .arrNil nofun
      · exact .arr helems
  | .obj members, h => by
      rcases denotes_renderMembers members h with rfl | hmembers
      · exact .objNil nofun
      · exact .obj hmembers

theorem denotes_renderElems : ∀ vs : List Json, ValidElems vs →
    vs = [] ∨ DenotesElems vs (renderElems vs)
  | [], _ => .inl rfl
  | [v], h => .inr (.one (.of_denotes (denotes_render v h.1)))
  | v :: w :: vs, h => by
      rcases denotes_renderElems (w :: vs) h.2 with hnil | htail
      · cases hnil
      · exact .inr (.more (.of_denotes (denotes_render v h.1)) htail)

theorem denotes_renderMembers : ∀ ms : List (String × Json), ValidMembers ms →
    ms = [] ∨ DenotesMembers (some ms) (renderMembers ms)
  | [], _ => .inl rfl
  | [(_, v)], h => .inr (denotesMembers_one (denotes_render v h.1))
  | (_, v) :: m :: ms, h => by
      rcases denotes_renderMembers (m :: ms) h.2 with hnil | htail
      · cases hnil
      · exact .inr (denotesMembers_cons (denotes_render v h.1) htail)

end

mutual

theorem valid_of_numberFree : ∀ v : Json, v.NumberFree → v.Valid
  | .null, _ => trivial
  | .bool _, _ => trivial
  | .str _, _ => trivial
  | .arr elems, h => validElems_of_numberFree elems h
  | .obj members, h => validMembers_of_numberFree members h

theorem validElems_of_numberFree : ∀ vs : List Json, NumberFreeElems vs → ValidElems vs
  | [], _ => trivial
  | v :: vs, h => ⟨valid_of_numberFree v h.1, validElems_of_numberFree vs h.2⟩

theorem validMembers_of_numberFree : ∀ ms : List (String × Json), NumberFreeMembers ms →
    ValidMembers ms
  | [], _ => trivial
  | (_, v) :: ms, h => ⟨valid_of_numberFree v h.1, validMembers_of_numberFree ms h.2⟩

end

end Liquet.Json
