import Liquet.Json.Extends
import Liquet.Library.Files
import Liquet.Erc8004.Response

/-!
Evidence that did not come through whole. A bundle ends with its own brace and
nowhere before it, so one that is cut short, between its characters or inside
one, is refused as malformed and never taken for the bundle of another
decision.
-/

namespace Liquet.Erc8004

section

variable {signed : SignedDecision}

/-! ### The ends of a bundle -/

theorem toList_evidenceBundleJson (signed : SignedDecision) :
    ∃ members, (evidenceBundleJson signed).toList = '{' :: Json.renderMembers members ++ ['}'] := by
  rw [evidenceBundleJson, Codec.toText, String.toList_ofList]
  exact ⟨_, rfl⟩

theorem parse_evidenceBundleJson (signed : SignedDecision) :
    Json.parse (evidenceBundleJson signed) = some (SignedDecision.write signed) :=
  Json.parse_render (SignedDecision.codec.numberFree signed)

theorem skipSpace_ne_nil_of_append {p q : String} (h : p ++ q = evidenceBundleJson signed)
    (hq : q ≠ "") : Json.skipSpace q.toList ≠ [] := by
  intro hspace
  obtain ⟨members, hmembers⟩ := toList_evidenceBundleJson signed
  have hlast : q.toList.getLast? = some '}' := by
    have hwhole : (p ++ q).toList.getLast? = some '}' := by
      rw [h, hmembers]
      exact List.getLast?_concat
    rw [String.toList_append, List.getLast?_append] at hwhole
    cases hlast : q.toList.getLast? with
    | none =>
        rw [List.getLast?_eq_none_iff, String.toList_eq_nil_iff] at hlast
        exact absurd hlast hq
    | some c =>
        rw [hlast, Option.some_or] at hwhole
        exact hwhole
  have hbrace := Json.skipSpace_eq_nil.mp hspace '}' (List.mem_of_getLast? hlast)
  cases hbrace

/-! ### Cut bundles -/

theorem parseBundle_of_short {p q : String} (h : p ++ q = evidenceBundleJson signed)
    (hq : q ≠ "") : parseBundle p = none := by
  obtain ⟨members, hmembers⟩ := toList_evidenceBundleJson signed
  have hparse := parse_evidenceBundleJson signed
  have hopen : Json.skipSpace (p ++ q).toList = '{' :: (Json.renderMembers members ++ ['}']) := by
    rw [h, hmembers]
    exact Json.skipSpace_cons (by decide) _
  rw [← h] at hparse
  rw [parseBundle, Codec.ofText,
    Json.parse_eq_none_of_short hparse hopen (skipSpace_ne_nil_of_append h hq)]
  rfl

/-- A bundle is read with white space behind it, and with nothing else. -/
theorem parseBundle_append (signed : SignedDecision) (q : String) :
    parseBundle (evidenceBundleJson signed ++ q) =
      if q.toList.all Json.isSpace then some signed else none := by
  have hnumber : ∀ literal, SignedDecision.write signed ≠ .num literal := by
    intro literal h
    cases h
  have hread : SignedDecision.read (SignedDecision.write signed) = some signed :=
    SignedDecision.codec.read_write signed
  rw [parseBundle, Codec.ofText, Json.parse_append (parse_evidenceBundleJson signed) hnumber]
  by_cases hspace : Json.skipSpace q.toList = []
  · rw [if_pos hspace, if_pos (List.all_eq_true.mpr (Json.skipSpace_eq_nil.mp hspace))]
    exact hread
  · rw [if_neg hspace,
      if_neg fun hall => hspace (Json.skipSpace_eq_nil.mpr (List.all_eq_true.mp hall))]
    rfl

theorem parseBundle_of_take {n : ℕ} (hn : n < (utf8 (evidenceBundleJson signed)).length)
    {text : String} (h : Files.decodeUtf8 ((utf8 (evidenceBundleJson signed)).take n) = some text) :
    parseBundle text = none := by
  obtain ⟨tail, htail⟩ := Files.prefix_of_decodeUtf8_take h
  have hwhole : text ++ String.ofList tail = evidenceBundleJson signed := by
    rw [← String.toList_inj, String.toList_append, String.toList_ofList, htail]
  apply parseBundle_of_short hwhole
  intro hempty
  -- had nothing been cut, all the bytes would be there
  rw [hempty, String.append_empty] at hwhole
  have htaken := congrArg List.length (Files.decodeUtf8_eq_some.mp h)
  rw [List.length_take, hwhole] at htaken
  have hall : (utf8 (evidenceBundleJson signed)).length =
      (evidenceBundleJson signed).toUTF8.data.toList.length := rfl
  omega

theorem verifyBundle_of_malformed {P : Primitives} {bundleJson : String}
    (h : parseBundle bundleJson = none) (hash trustedSigner : String) :
    verifyBundle P bundleJson hash trustedSigner = .error .malformed := by
  rw [verifyBundle, h]
  rfl

end

/-- A relying party refuses every bundle that was cut short, wherever the cut
is, and every one with more than white space behind it; and white space behind
a bundle does not change its answer. -/
theorem verifyBundle_of_cut (P : Primitives) (signed : SignedDecision)
    (hash trustedSigner : String) :
    (∀ p q, p ++ q = evidenceBundleJson signed → q ≠ "" →
        verifyBundle P p hash trustedSigner = .error .malformed) ∧
      (∀ n < (utf8 (evidenceBundleJson signed)).length, ∀ text,
        Files.decodeUtf8 ((utf8 (evidenceBundleJson signed)).take n) = some text →
          verifyBundle P text hash trustedSigner = .error .malformed) ∧
      ∀ q, verifyBundle P (evidenceBundleJson signed ++ q) hash trustedSigner =
        if q.toList.all Json.isSpace then
          verifyBundle P (evidenceBundleJson signed) hash trustedSigner
        else .error .malformed := by
  refine ⟨?_, ?_, ?_⟩
  · intro p q h hq
    exact verifyBundle_of_malformed (parseBundle_of_short h hq) hash trustedSigner
  · intro n hn text h
    exact verifyBundle_of_malformed (parseBundle_of_take hn h) hash trustedSigner
  · intro q
    have happend := parseBundle_append signed q
    split at happend <;> rename_i hspace
    · rw [if_pos hspace, verifyBundle, happend, verifyBundle, parseBundle_evidenceBundleJson]
    · rw [if_neg hspace, verifyBundle_of_malformed happend]

end Liquet.Erc8004
