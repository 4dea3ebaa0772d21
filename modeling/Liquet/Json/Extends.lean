import Liquet.Json.Fuel

/-!
A reader looks no further than what it takes. Text put behind what it has read
is left where it is, unless a number stood at the end and could have gone on.
So a document that ends with its own brace ends nowhere else: neither a text
that stops short of it nor one that goes on after it is read as one.
-/

namespace Liquet.Json

open Liquet.Text

/-- What the reader accepts it accepts in front of more text, which it leaves. -/
def Extends {α : Type} (reader : List Char → Option (α × List Char)) : Prop :=
  ∀ text a rest more, reader text = some (a, rest) → reader (text ++ more) = some (a, rest ++ more)

/-- The same where the reader stopped before the end of its text. -/
def ExtendsInside {α : Type} (reader : List Char → Option (α × List Char)) : Prop :=
  ∀ text a rest more, reader text = some (a, rest) → rest ≠ [] →
    reader (text ++ more) = some (a, rest ++ more)

/-! ### White space -/

theorem skipSpace_append {text rest : List Char} {c : Char} (h : skipSpace text = c :: rest)
    (more : List Char) : skipSpace (text ++ more) = c :: (rest ++ more) := by
  rw [skipSpace] at h ⊢
  rw [List.dropWhile_append, h]
  rfl

theorem skipSpace_append_of_eq_nil {text : List Char} (h : skipSpace text = [])
    (more : List Char) : skipSpace (text ++ more) = skipSpace more := by
  rw [skipSpace] at h
  rw [skipSpace, List.dropWhile_append, h]
  rfl

theorem skipSpace_eq_nil {text : List Char} :
    skipSpace text = [] ↔ ∀ c ∈ text, isSpace c = true := by
  induction text with
  | nil => simp [skipSpace]
  | cons c text ih =>
      rw [skipSpace] at ih ⊢
      rw [List.dropWhile_cons, List.forall_mem_cons]
      by_cases hc : isSpace c = true
      · rw [if_pos hc, ih]
        exact (and_iff_right hc).symm
      · rw [if_neg hc]
        exact iff_of_false (List.cons_ne_nil _ _) fun h => hc h.1

/-! ### Strings -/

theorem hex4_extends : Extends hex4 := by
  intro text n rest more h
  unfold hex4 at h
  split at h
  · simp only [Option.bind_eq_bind, Option.bind_eq_some_iff, Option.some.injEq,
      Prod.mk.injEq] at h
    obtain ⟨a, ha, b, hb, c, hc, d, hd, rfl, rfl⟩ := h
    simp [hex4, ha, hb, hc, hd]
  · cases h

theorem unescapeUnicode_extends : Extends unescapeUnicode := by
  intro text p rest more h
  rw [unescapeUnicode] at h ⊢
  obtain ⟨⟨n, mid⟩, hhex, h⟩ := Option.bind_eq_some_iff.mp h
  dsimp only at h
  obtain ⟨rfl, rfl⟩ := Prod.mk.inj (Option.some.inj h)
  rw [hex4_extends _ _ _ more hhex]
  rfl

theorem unescape_extends : Extends unescape := by
  intro text c rest more h
  cases text with
  | nil => cases h
  | cons d text =>
      rw [List.cons_append]
      simp only [unescape] at h ⊢
      split at h <;> rename_i hd
      · rw [if_pos hd]
        exact unescapeUnicode_extends _ _ _ more h
      · obtain ⟨e, he, h⟩ := Option.map_eq_some_iff.mp h
        obtain ⟨rfl, rfl⟩ := Prod.mk.inj h
        rw [if_neg hd, he]
        rfl

theorem readChars_extends (fuel : ℕ) : Extends (readChars fuel) := by
  induction fuel with
  | zero =>
      intro text cs rest more h
      cases h
  | succ fuel ih =>
      intro text cs rest more h
      cases text with
      | nil => cases h
      | cons c text =>
          rw [List.cons_append]
          simp only [readChars] at h ⊢
          split at h <;> rename_i hquote
          · obtain ⟨rfl, rfl⟩ := Prod.mk.inj (Option.some.inj h)
            rw [if_pos hquote]
          · rw [if_neg hquote]
            split at h <;> rename_i hslash
            · obtain ⟨⟨d, mid⟩, hescape, h⟩ := Option.bind_eq_some_iff.mp h
              dsimp only at h
              obtain ⟨⟨ds, last⟩, hchars, h⟩ := Option.bind_eq_some_iff.mp h
              dsimp only at h
              obtain ⟨rfl, rfl⟩ := Prod.mk.inj (Option.some.inj h)
              rw [if_pos hslash, unescape_extends _ _ _ more hescape]
              simp only [Option.bind_eq_bind, Option.bind_some]
              rw [ih _ _ _ more hchars]
              rfl
            · rw [if_neg hslash]
              split at h <;> rename_i hcontrol
              · cases h
              · obtain ⟨⟨ds, last⟩, hchars, h⟩ := Option.bind_eq_some_iff.mp h
                dsimp only at h
                obtain ⟨rfl, rfl⟩ := Prod.mk.inj (Option.some.inj h)
                rw [if_neg hcontrol, ih _ _ _ more hchars]
                rfl

theorem readChars_succ {fuel : ℕ} {text : List Char} {result : List Piece × List Char}
    (h : readChars fuel text = some result) : readChars (fuel + 1) text = some result := by
  induction fuel generalizing text result with
  | zero => cases h
  | succ fuel ih =>
      cases text with
      | nil => cases h
      | cons c text =>
          rw [readChars] at h ⊢
          split at h <;> rename_i hquote
          · rw [if_pos hquote]
            exact h
          · rw [if_neg hquote]
            split at h <;> rename_i hslash
            · obtain ⟨⟨d, mid⟩, hescape, h⟩ := Option.bind_eq_some_iff.mp h
              dsimp only at h
              obtain ⟨⟨ds, last⟩, hchars, h⟩ := Option.bind_eq_some_iff.mp h
              rw [if_pos hslash, hescape]
              simp only [Option.bind_eq_bind, Option.bind_some]
              rw [ih hchars]
              exact h
            · rw [if_neg hslash]
              split at h <;> rename_i hcontrol
              · cases h
              · obtain ⟨⟨ds, last⟩, hchars, h⟩ := Option.bind_eq_some_iff.mp h
                rw [if_neg hcontrol, ih hchars]
                exact h

theorem readChars_mono {fuel fuel' : ℕ} (hle : fuel ≤ fuel') {text : List Char}
    {result : List Piece × List Char} (h : readChars fuel text = some result) :
    readChars fuel' text = some result := by
  induction hle with
  | refl => exact h
  | step _ ih => exact readChars_succ ih

theorem readString_extends : Extends readString := by
  intro text s rest more h
  obtain ⟨⟨cs, last⟩, hchars, h⟩ := Option.bind_eq_some_iff.mp h
  dsimp only at h
  obtain ⟨rfl, rfl⟩ := Prod.mk.inj (Option.some.inj h)
  have hle : text.length + 1 ≤ (text ++ more).length + 1 := by
    rw [List.length_append]
    omega
  have hmore := readChars_mono hle (readChars_extends _ _ _ _ more hchars)
  rw [readString, hmore]
  rfl

theorem readKey_extends : Extends readKey := by
  intro text key rest more h
  rw [readKey] at h
  split at h
  · rename_i text' heq
    obtain ⟨⟨key', mid⟩, hstring, h⟩ := Option.bind_eq_some_iff.mp h
    dsimp only at h
    split at h
    · rename_i last hlast
      obtain ⟨rfl, rfl⟩ := Prod.mk.inj (Option.some.inj h)
      simp only [readKey, skipSpace_append heq more, readString_extends _ _ _ more hstring,
        Option.bind_eq_bind, Option.bind_some, skipSpace_append hlast more]
    · cases h
  · cases h

/-! ### Numbers -/

theorem digits_extends : ExtendsInside digits := by
  intro text ds rest more h hrest
  rw [digits, List.span_eq_takeWhile_dropWhile] at h ⊢
  split at h
  · cases h
  · rename_i ds' rest' hne heq
    obtain ⟨htake, hdrop⟩ := Prod.mk.inj heq
    obtain ⟨rfl, rfl⟩ := Prod.mk.inj (Option.some.inj h)
    have hlen := congrArg List.length (List.takeWhile_append_dropWhile (p := isDigit) (l := text))
    have hpos := List.length_pos_iff.mpr hrest
    rw [List.length_append, hdrop] at hlen
    rw [List.takeWhile_append, List.dropWhile_append, if_neg (by omega), hdrop, htake,
      if_neg (by simpa using hrest)]
    cases ds' with
    | nil => exact absurd rfl hne
    | cons d ds => rfl

theorem intPart_extends : ExtendsInside intPart := by
  intro text ds rest more h hrest
  unfold intPart at h
  split at h
  · rename_i tail
    split at h
    · cases h
    · rename_i hhead
      obtain ⟨rfl, rfl⟩ := Prod.mk.inj (Option.some.inj h)
      cases tail with
      | nil => exact absurd rfl hrest
      | cons c tail => exact if_neg hhead
  · rename_i hzero
    have hmore := digits_extends _ _ _ more h hrest
    cases text with
    | nil => cases h
    | cons c text =>
        unfold intPart
        split
        · rename_i heq
          obtain ⟨rfl, -⟩ := List.cons.inj heq
          exact absurd rfl (hzero text)
        · exact hmore

theorem fracPart_extends : ExtendsInside fracPart := by
  intro text ds rest more h hrest
  unfold fracPart at h
  split at h
  · obtain ⟨⟨ds', last⟩, hdigits, h⟩ := Option.bind_eq_some_iff.mp h
    dsimp only at h
    obtain ⟨rfl, rfl⟩ := Prod.mk.inj (Option.some.inj h)
    simp only [fracPart, List.cons_append, digits_extends _ _ _ more hdigits hrest,
      Option.bind_eq_bind, Option.bind_some]
  · rename_i hpoint
    obtain ⟨rfl, rfl⟩ := Prod.mk.inj (Option.some.inj h)
    cases text with
    | nil => exact absurd rfl hrest
    | cons c text =>
        unfold fracPart
        split
        · rename_i heq
          obtain ⟨rfl, -⟩ := List.cons.inj heq
          exact absurd rfl (hpoint text)
        · rfl

theorem expPart_extends : ExtendsInside expPart := by
  intro text ds rest more h hrest
  cases text with
  | nil =>
      obtain ⟨rfl, rfl⟩ := Prod.mk.inj (Option.some.inj h)
      exact absurd rfl hrest
  | cons c text =>
      rw [List.cons_append]
      simp only [expPart] at h ⊢
      split at h <;> rename_i hc
      · rw [if_pos hc]
        cases text with
        | nil => cases h
        | cons s text =>
            rw [List.cons_append]
            dsimp only at h ⊢
            split at h <;> rename_i hsign
            · obtain ⟨⟨ds', last⟩, hdigits, h⟩ := Option.bind_eq_some_iff.mp h
              dsimp only at h
              obtain ⟨rfl, rfl⟩ := Prod.mk.inj (Option.some.inj h)
              rw [if_pos hsign, digits_extends _ _ _ more hdigits hrest]
              rfl
            · obtain ⟨⟨ds', last⟩, hdigits, h⟩ := Option.bind_eq_some_iff.mp h
              dsimp only at h
              obtain ⟨rfl, rfl⟩ := Prod.mk.inj (Option.some.inj h)
              have hmore := digits_extends _ _ _ more hdigits hrest
              rw [List.cons_append] at hmore
              rw [if_neg hsign, hmore]
              rfl
      · obtain ⟨rfl, rfl⟩ := Prod.mk.inj (Option.some.inj h)
        rw [if_neg hc, List.cons_append]

theorem minusPart_append {text : List Char} (h : text ≠ []) (more : List Char) :
    minusPart (text ++ more) = ((minusPart text).1, (minusPart text).2 ++ more) := by
  cases text with
  | nil => exact absurd rfl h
  | cons c text =>
      by_cases hc : c = '-'
      · subst hc
        rfl
      · have hself (tail : List Char) : minusPart (c :: tail) = ([], c :: tail) := by
          unfold minusPart
          split
          · rename_i heq
            exact absurd (List.cons.inj heq).1 hc
          · rfl
        rw [List.cons_append, hself, hself]
        rfl

theorem ne_nil_of_consumes {α : Type} {k : ℕ} {reader : List Char → Option (α × List Char)}
    (hreader : Consumes k reader) {text rest : List Char} {a : α}
    (h : reader text = some (a, rest)) (hrest : rest ≠ []) : text ≠ [] := by
  have hlen := hreader _ _ _ h
  have hpos := List.length_pos_iff.mpr hrest
  rw [← List.length_pos_iff]
  omega

theorem readNumber_extends : ExtendsInside readNumber := by
  intro text v rest more h hrest
  have htext := ne_nil_of_consumes readNumber_consumes h hrest
  rw [readNumber] at h ⊢
  rw [minusPart_append htext]
  dsimp only at h ⊢
  obtain ⟨⟨whole, rest₁⟩, hwhole, h⟩ := Option.bind_eq_some_iff.mp h
  dsimp only at h
  obtain ⟨⟨frac, rest₂⟩, hfrac, h⟩ := Option.bind_eq_some_iff.mp h
  dsimp only at h
  obtain ⟨⟨exp, rest₃⟩, hexp, h⟩ := Option.bind_eq_some_iff.mp h
  dsimp only at h
  obtain ⟨rfl, rfl⟩ := Prod.mk.inj (Option.some.inj h)
  -- what is left at the end was left after every part
  have hrest₂ := ne_nil_of_consumes expPart_consumes hexp hrest
  have hrest₁ := ne_nil_of_consumes fracPart_consumes hfrac hrest₂
  simp only [intPart_extends _ _ _ more hwhole hrest₁, fracPart_extends _ _ _ more hfrac hrest₂,
    expPart_extends _ _ _ more hexp hrest, Option.bind_eq_bind, Option.bind_some]

theorem exists_of_readNumber {text rest : List Char} {v : Json}
    (h : readNumber text = some (v, rest)) : ∃ literal, v = .num literal := by
  rw [readNumber] at h
  dsimp only at h
  obtain ⟨⟨whole, rest₁⟩, -, h⟩ := Option.bind_eq_some_iff.mp h
  obtain ⟨⟨frac, rest₂⟩, -, h⟩ := Option.bind_eq_some_iff.mp h
  obtain ⟨⟨exp, rest₃⟩, -, h⟩ := Option.bind_eq_some_iff.mp h
  exact ⟨_, (Prod.mk.inj (Option.some.inj h)).1.symm⟩

/-! ### Values -/

theorem readName_extends (name : List Char) (v : Json) : Extends (readName name v) := by
  intro text w rest more h
  rw [readName] at h ⊢
  split at h <;> rename_i hprefix
  · obtain ⟨rfl, rfl⟩ := Prod.mk.inj (Option.some.inj h)
    obtain ⟨tail, rfl⟩ := List.isPrefixOf_iff_prefix.mp hprefix
    rw [List.append_assoc, if_pos (List.isPrefixOf_iff_prefix.mpr (List.prefix_append _ _)),
      List.drop_left, List.drop_left]
  · cases h

/-- A value is read again in front of more text unless it is a number at the
end of its own. -/
def ValueExtends (fuel : ℕ) : Prop :=
  ∀ text v rest more, readValue fuel text = some (v, rest) →
    (rest ≠ [] ∨ ∀ literal, v ≠ .num literal) →
      readValue fuel (text ++ more) = some (v, rest ++ more)

theorem readValue_of_skipSpace_eq_nil {fuel : ℕ} {text : List Char} (h : skipSpace text = []) :
    readValue fuel text = none := by
  cases fuel with
  | zero => rfl
  | succ fuel =>
      rw [readValue, h]

theorem readElems_of_skipSpace_eq_nil {fuel : ℕ} {text : List Char} (h : skipSpace text = []) :
    readElems fuel text = none := by
  cases fuel with
  | zero => rfl
  | succ fuel =>
      rw [readElems, readValue_of_skipSpace_eq_nil h]
      rfl

theorem readMembers_of_skipSpace_eq_nil {fuel : ℕ} {text : List Char} (h : skipSpace text = []) :
    readMembers fuel text = none := by
  cases fuel with
  | zero => rfl
  | succ fuel =>
      have hkey : readKey text = none := by
        rw [readKey, h]
      rw [readMembers, hkey]
      rfl

theorem readValue_extends_succ {fuel : ℕ} (helems : Extends (readElems fuel))
    (hmembers : Extends (readMembers fuel)) : ValueExtends (fuel + 1) := by
  intro text v rest more h hrest
  simp only [readValue] at h
  split at h
  · cases h
  · rename_i c tail heq
    simp only [readValue, skipSpace_append heq more]
    split at h <;> rename_i hquote
    · obtain ⟨⟨s, last⟩, hstring, h⟩ := Option.bind_eq_some_iff.mp h
      obtain ⟨rfl, rfl⟩ := Prod.mk.inj (Option.some.inj h)
      rw [if_pos hquote, readString_extends _ _ _ more hstring]
      rfl
    · rw [if_neg hquote]
      split at h <;> rename_i hbracket
      · rw [if_pos hbracket]
        split at h
        · rename_i hclose
          obtain ⟨rfl, rfl⟩ := Prod.mk.inj (Option.some.inj h)
          simp only [skipSpace_append hclose more]
        · rename_i hopen
          obtain ⟨⟨elems, last⟩, hread, h⟩ := Option.bind_eq_some_iff.mp h
          obtain ⟨rfl, rfl⟩ := Prod.mk.inj (Option.some.inj h)
          cases hspace : skipSpace tail with
          | nil =>
              rw [readElems_of_skipSpace_eq_nil hspace] at hread
              cases hread
          | cons d tail' =>
              rw [skipSpace_append hspace more]
              split
              · rename_i hclose
                obtain ⟨rfl, -⟩ := List.cons.inj hclose
                exact absurd hspace (hopen tail')
              · rw [helems _ _ _ more hread]
                rfl
      · rw [if_neg hbracket]
        split at h <;> rename_i hbrace
        · rw [if_pos hbrace]
          split at h
          · rename_i hclose
            obtain ⟨rfl, rfl⟩ := Prod.mk.inj (Option.some.inj h)
            simp only [skipSpace_append hclose more]
          · rename_i hopen
            obtain ⟨⟨members, last⟩, hread, h⟩ := Option.bind_eq_some_iff.mp h
            obtain ⟨rfl, rfl⟩ := Prod.mk.inj (Option.some.inj h)
            cases hspace : skipSpace tail with
            | nil =>
                rw [readMembers_of_skipSpace_eq_nil hspace] at hread
                cases hread
            | cons d tail' =>
                rw [skipSpace_append hspace more]
                split
                · rename_i hclose
                  obtain ⟨rfl, -⟩ := List.cons.inj hclose
                  exact absurd hspace (hopen tail')
                · rw [hmembers _ _ _ more hread]
                  rfl
        · rw [if_neg hbrace]
          split at h <;> rename_i hnull
          · rw [if_pos hnull]
            exact readName_extends _ _ _ _ _ more h
          · rw [if_neg hnull]
            split at h <;> rename_i htrue
            · rw [if_pos htrue]
              exact readName_extends _ _ _ _ _ more h
            · rw [if_neg htrue]
              split at h <;> rename_i hfalse
              · rw [if_pos hfalse]
                exact readName_extends _ _ _ _ _ more h
              · rw [if_neg hfalse]
                refine readNumber_extends _ _ _ more h ?_
                rcases hrest with hrest | hnumber
                · exact hrest
                · -- what `readNumber` returns is a number
                  obtain ⟨literal, rfl⟩ := exists_of_readNumber h
                  exact absurd rfl (hnumber literal)

theorem readElems_extends_succ {fuel : ℕ} (hvalue : ValueExtends fuel)
    (helems : Extends (readElems fuel)) : Extends (readElems (fuel + 1)) := by
  intro text vs rest more h
  simp only [readElems] at h
  obtain ⟨⟨v, mid⟩, hread, h⟩ := Option.bind_eq_some_iff.mp h
  dsimp only at h
  have hmore (hmid : skipSpace mid ≠ []) :
      readValue fuel (text ++ more) = some (v, mid ++ more) := by
    refine hvalue _ _ _ more hread (.inl ?_)
    rintro rfl
    exact hmid rfl
  split at h
  · rename_i hcomma
    obtain ⟨⟨tail, last⟩, htail, h⟩ := Option.bind_eq_some_iff.mp h
    obtain ⟨rfl, rfl⟩ := Prod.mk.inj (Option.some.inj h)
    simp only [readElems, hmore (by rw [hcomma]; exact List.cons_ne_nil _ _),
      Option.bind_eq_bind, Option.bind_some, skipSpace_append hcomma more,
      helems _ _ _ more htail]
  · rename_i hclose
    obtain ⟨rfl, rfl⟩ := Prod.mk.inj (Option.some.inj h)
    simp only [readElems, hmore (by rw [hclose]; exact List.cons_ne_nil _ _),
      Option.bind_eq_bind, Option.bind_some, skipSpace_append hclose more]
  · cases h

theorem readMembers_extends_succ {fuel : ℕ} (hvalue : ValueExtends fuel)
    (hmembers : Extends (readMembers fuel)) : Extends (readMembers (fuel + 1)) := by
  intro text ms rest more h
  simp only [readMembers] at h
  obtain ⟨⟨key, first⟩, hkey, h⟩ := Option.bind_eq_some_iff.mp h
  obtain ⟨⟨v, mid⟩, hread, h⟩ := Option.bind_eq_some_iff.mp h
  dsimp only at h hread
  have hmore (hmid : skipSpace mid ≠ []) :
      readValue fuel (first ++ more) = some (v, mid ++ more) := by
    refine hvalue _ _ _ more hread (.inl ?_)
    rintro rfl
    exact hmid rfl
  split at h
  · rename_i hcomma
    obtain ⟨⟨tail, last⟩, htail, h⟩ := Option.bind_eq_some_iff.mp h
    obtain ⟨rfl, rfl⟩ := Prod.mk.inj (Option.some.inj h)
    simp only [readMembers, readKey_extends _ _ _ more hkey,
      hmore (by rw [hcomma]; exact List.cons_ne_nil _ _), Option.bind_eq_bind, Option.bind_some,
      skipSpace_append hcomma more, hmembers _ _ _ more htail]
  · rename_i hclose
    obtain ⟨rfl, rfl⟩ := Prod.mk.inj (Option.some.inj h)
    simp only [readMembers, readKey_extends _ _ _ more hkey,
      hmore (by rw [hclose]; exact List.cons_ne_nil _ _), Option.bind_eq_bind, Option.bind_some,
      skipSpace_append hclose more]
  · cases h

theorem readers_extend (fuel : ℕ) :
    ValueExtends fuel ∧ Extends (readElems fuel) ∧ Extends (readMembers fuel) := by
  induction fuel with
  | zero =>
      refine ⟨?_, ?_, ?_⟩
      · intro text v rest more h
        simp [readValue] at h
      · intro text vs rest more h
        simp [readElems] at h
      · intro text ms rest more h
        simp [readMembers] at h
  | succ fuel ih =>
      obtain ⟨hvalue, helems, hmembers⟩ := ih
      exact ⟨readValue_extends_succ helems hmembers, readElems_extends_succ hvalue helems,
        readMembers_extends_succ hvalue hmembers⟩

/-! ### Documents -/

/-- Text behind a document that is not a number changes nothing if it is white
space, and otherwise makes it no document. -/
theorem parse_append {s : String} {v : Json} (h : parse s = some v)
    (hnumber : ∀ literal, v ≠ .num literal) (t : String) :
    parse (s ++ t) = if skipSpace t.toList = [] then some v else none := by
  have hlen : (s ++ t).toList.length = s.toList.length + t.toList.length := by
    rw [String.toList_append, List.length_append]
  have hfuel : 2 * s.toList.length < 2 * (s ++ t).toList.length + 1 := by omega
  rw [parse_eq_of_fuel s hfuel] at h
  obtain ⟨⟨w, rest⟩, hread, h⟩ := Option.bind_eq_some_iff.mp h
  dsimp only at h
  split at h <;> rename_i hrest
  · obtain rfl := Option.some.inj h
    have hmore := (readers_extend _).1 _ _ _ t.toList hread (.inr hnumber)
    rw [← String.toList_append] at hmore
    rw [parse, hmore]
    simp only [Option.bind_eq_bind, Option.bind_some, skipSpace_append_of_eq_nil hrest]
  · cases h

theorem readValue_ne_num {fuel : ℕ} {text tail rest literal : List Char}
    (hopen : skipSpace text = '{' :: tail) : readValue fuel text ≠ some (.num literal, rest) := by
  intro h
  cases fuel with
  | zero => simp [readValue] at h
  | succ fuel =>
      have hquote : '{' ≠ '"' := by decide
      have hbracket : '{' ≠ '[' := by decide
      simp only [readValue, hopen, if_neg hquote, if_neg hbracket, if_true] at h
      split at h
      · cases h
      · obtain ⟨⟨members, last⟩, -, h⟩ := Option.bind_eq_some_iff.mp h
        cases members <;> cases h

/-- A text that stops short of a document that begins with a brace is none. -/
theorem parse_eq_none_of_short {s t : String} {v : Json} {tail : List Char}
    (h : parse (s ++ t) = some v) (hopen : skipSpace (s ++ t).toList = '{' :: tail)
    (hshort : skipSpace t.toList ≠ []) : parse s = none := by
  rw [Option.eq_none_iff_forall_ne_some]
  intro w hs
  obtain ⟨⟨w', rest⟩, hread, hw⟩ := Option.bind_eq_some_iff.mp hs
  dsimp only at hw
  split at hw
  · obtain rfl := Option.some.inj hw
    cases hspace : skipSpace s.toList with
    | nil =>
        rw [readValue_of_skipSpace_eq_nil hspace] at hread
        cases hread
    | cons c tail' =>
        -- the brace is in the part that was read
        rw [String.toList_append, skipSpace_append hspace] at hopen
        obtain ⟨rfl, -⟩ := List.cons.inj hopen
        have hnumber : ∀ literal, w' ≠ .num literal := by
          rintro literal rfl
          exact readValue_ne_num hspace hread
        rw [parse_append hs hnumber t, if_neg hshort] at h
        cases h
  · cases hw

end Liquet.Json
