import Mathlib.Data.Nat.Notation

/-!
JSON values and the compact text `serde_json` writes for them: no white space,
the members of an object in the order given, strings with the fixed table of
escapes. An object keeps its members as written, repeated names included, so
that a reader sees what the text says.
-/

namespace Liquet

/-- A JSON value. A number keeps the literal it was written with. `unpaired` is
what can only be passed over: a string literal in which half of a surrogate pair
is escaped without the other, or an object with such a literal for a name. -/
inductive Json where
  | null
  | bool (b : Bool)
  | num (literal : List Char)
  | str (s : String)
  | arr (elems : List Json)
  | obj (members : List (String × Json))
  | unpaired

namespace Json

/-! ### Strings -/

/-- The characters `serde_json` writes as a backslash and one letter, with
that letter. -/
def shortEscapes : List (Char × Char) :=
  [('"', '"'), ('\\', '\\'), ('\x08', 'b'), ('\t', 't'), ('\n', 'n'),
    ('\x0c', 'f'), ('\r', 'r')]

/-- One character inside a string literal: a short escape, `\u00XX` for the
other control characters, and the character itself otherwise. -/
def escapeChar (c : Char) : List Char :=
  match shortEscapes.lookup c with
  | some e => ['\\', e]
  | none =>
      if c.toNat < 32 then
        ['\\', 'u', '0', '0', Nat.digitChar (c.toNat / 16), Nat.digitChar (c.toNat % 16)]
      else [c]

def renderString (s : String) : List Char :=
  '"' :: s.toList.flatMap escapeChar ++ ['"']

/-! ### Values -/

mutual

def render : Json → List Char
  | .null => "null".toList
  | .bool true => "true".toList
  | .bool false => "false".toList
  | .num literal => literal
  | .str s => renderString s
  | .arr elems => '[' :: renderElems elems ++ [']']
  | .obj members => '{' :: renderMembers members ++ ['}']
  | .unpaired => ['"', '\\', 'u', 'd', '8', '0', '0', '"']

def renderElems : List Json → List Char
  | [] => []
  | [v] => render v
  | v :: w :: vs => render v ++ ',' :: renderElems (w :: vs)

def renderMembers : List (String × Json) → List Char
  | [] => []
  | [(k, v)] => renderString k ++ ':' :: render v
  | (k, v) :: m :: ms => renderString k ++ ':' :: render v ++ ',' :: renderMembers (m :: ms)

end

mutual

/-- No number occurs in the value, nor what is no string. Signed decisions are
written without either. -/
def NumberFree : Json → Prop
  | .num _ => False
  | .unpaired => False
  | .arr elems => NumberFreeElems elems
  | .obj members => NumberFreeMembers members
  | _ => True

def NumberFreeElems : List Json → Prop
  | [] => True
  | v :: vs => NumberFree v ∧ NumberFreeElems vs

def NumberFreeMembers : List (String × Json) → Prop
  | [] => True
  | (_, v) :: ms => NumberFree v ∧ NumberFreeMembers ms

end

theorem numberFreeElems_iff {vs : List Json} :
    NumberFreeElems vs ↔ ∀ v ∈ vs, NumberFree v := by
  induction vs with
  | nil => simp [NumberFreeElems]
  | cons v vs ih => simp [NumberFreeElems, ih]

/-! ### Lengths

Every piece of text is bounded below by the pieces it is made of, which is
what the reader's fuel is measured against. -/

theorem length_escapeChar_pos (c : Char) : 0 < (escapeChar c).length := by
  rw [escapeChar]
  split
  · simp
  · split <;> simp

theorem length_flatMap_escapeChar (cs : List Char) :
    cs.length ≤ (cs.flatMap escapeChar).length := by
  induction cs with
  | nil => simp
  | cons c cs ih =>
      have hc := length_escapeChar_pos c
      simp only [List.length_cons, List.flatMap_cons, List.length_append]
      omega

end Json

end Liquet
