import Liquet.Text.Hex
import Liquet.Json.Value

/-!
Reading standard JSON: a recursive-descent reader over the characters of the
text. Each function returns what is left after the construct it has read.
The recursion is on a fuel argument; `parse` starts with two units for each
character, which no text exhausts (`parse_eq_of_fuel`).
-/

namespace Liquet.Json

open Liquet.Text

/-- The four characters JSON counts as white space. -/
def isSpace (c : Char) : Bool := c = ' ' ∨ c = '\n' ∨ c = '\t' ∨ c = '\r'

def skipSpace (text : List Char) : List Char := text.dropWhile isSpace

/-! ### Strings -/

/-- The escapes of one letter after the backslash. The solidus is read so but
never written so. -/
def readEscapes : List (Char × Char) :=
  [('"', '"'), ('\\', '\\'), ('/', '/'), ('b', '\x08'), ('f', '\x0c'),
    ('n', '\n'), ('r', '\r'), ('t', '\t')]

def hex4 : List Char → Option (ℕ × List Char)
  | a :: b :: c :: d :: rest => do
      let a ← hexVal a
      let b ← hexVal b
      let c ← hexVal c
      let d ← hexVal d
      some (a * 4096 + b * 256 + c * 16 + d, rest)
  | _ => none

def isHighSurrogate (n : ℕ) : Bool := 0xD800 ≤ n ∧ n ≤ 0xDBFF

def isLowSurrogate (n : ℕ) : Bool := 0xDC00 ≤ n ∧ n ≤ 0xDFFF

/-- A character of a string literal, or half of a surrogate pair. -/
inductive Piece
  | char (c : Char)
  | high (n : ℕ)
  | low (n : ℕ)
  deriving DecidableEq

def piece (n : ℕ) : Piece :=
  if isHighSurrogate n then .high n
  else if isLowSurrogate n then .low n
  else .char (Char.ofNat n)

/-- What follows `\u`. -/
def unescapeUnicode (text : List Char) : Option (Piece × List Char) := do
  let (n, rest) ← hex4 text
  some (piece n, rest)

def unescape : List Char → Option (Piece × List Char)
  | [] => none
  | c :: rest =>
      if c = 'u' then unescapeUnicode rest
      else (readEscapes.lookup c).map fun d => (.char d, rest)

/-- The pieces of a string literal up to its closing quote. Control characters
must be escaped. -/
def readChars : ℕ → List Char → Option (List Piece × List Char)
  | 0, _ => none
  | _ + 1, [] => none
  | fuel + 1, c :: rest =>
      if c = '"' then some ([], rest)
      else if c = '\\' then do
        let (p, rest) ← unescape rest
        let (ps, rest) ← readChars fuel rest
        some (p :: ps, rest)
      else if c.toNat < 32 then none
      else do
        let (ps, rest) ← readChars fuel rest
        some (.char c :: ps, rest)

/-- The characters the pieces stand for. A character outside the basic plane is
a high surrogate with the low one right behind it; alone neither is any. -/
def decode : List Piece → Option (List Char)
  | [] => some []
  | .char c :: ps => (decode ps).map (c :: ·)
  | .high n :: .low m :: ps =>
      (decode ps).map (Char.ofNat (0x10000 + (n - 0xD800) * 0x400 + (m - 0xDC00)) :: ·)
  | _ => none

/-- A string literal whose opening quote has been read, if it is one of a
string. `serde_json` looks for that only where it wants the string. -/
def readString (text : List Char) : Option (Option String × List Char) := do
  let (ps, rest) ← readChars (text.length + 1) text
  some ((decode ps).map String.ofList, rest)

def ofString : Option String → Json
  | some s => .str s
  | none => .unpaired

/-! ### Numbers -/

def isDigit (c : Char) : Bool := 48 ≤ c.toNat ∧ c.toNat ≤ 57

def digits (text : List Char) : Option (List Char × List Char) :=
  match text.span isDigit with
  | ([], _) => none
  | (ds, rest) => some (ds, rest)

/-- The part before the point: no superfluous leading zero. -/
def intPart : List Char → Option (List Char × List Char)
  | '0' :: rest => if (rest.head?.any isDigit) then none else some (['0'], rest)
  | text => digits text

def fracPart : List Char → Option (List Char × List Char)
  | '.' :: rest => do
      let (ds, rest) ← digits rest
      some ('.' :: ds, rest)
  | text => some ([], text)

def expPart : List Char → Option (List Char × List Char)
  | c :: rest =>
      if c = 'e' ∨ c = 'E' then
        match rest with
        | s :: rest' =>
            if s = '+' ∨ s = '-' then do
              let (ds, rest) ← digits rest'
              some (c :: s :: ds, rest)
            else do
              let (ds, rest) ← digits rest
              some (c :: ds, rest)
        | [] => none
      else some ([], c :: rest)
  | [] => some ([], [])

def minusPart : List Char → List Char × List Char
  | '-' :: rest => (['-'], rest)
  | text => ([], text)

def readNumber (text : List Char) : Option (Json × List Char) := do
  let (sign, rest) := minusPart text
  let (whole, rest) ← intPart rest
  let (frac, rest) ← fracPart rest
  let (exp, rest) ← expPart rest
  some (.num (sign ++ whole ++ frac ++ exp), rest)

/-! ### Values -/

def readName (name : List Char) (v : Json) (text : List Char) : Option (Json × List Char) :=
  if name.isPrefixOf text then some (v, text.drop name.length) else none

/-- A member name and its colon, in front of the value. -/
def readKey (text : List Char) : Option (Option String × List Char) :=
  match skipSpace text with
  | '"' :: rest => do
      let (key, rest) ← readString rest
      match skipSpace rest with
      | ':' :: rest => some (key, rest)
      | _ => none
  | _ => none

/-- A member in front of the others. One name that is no string makes the whole
object one that can only be passed over. -/
def member : Option String → Json → Option (List (String × Json)) →
    Option (List (String × Json))
  | some key, v, some ms => some ((key, v) :: ms)
  | _, _, _ => none

def ofMembers : Option (List (String × Json)) → Json
  | some ms => .obj ms
  | none => .unpaired

mutual

def readValue : ℕ → List Char → Option (Json × List Char)
  | 0, _ => none
  | fuel + 1, text =>
      match skipSpace text with
      | [] => none
      | c :: rest =>
          if c = '"' then do
            let (s, rest) ← readString rest
            some (ofString s, rest)
          else if c = '[' then
            match skipSpace rest with
            | ']' :: rest => some (.arr [], rest)
            | _ => do
                let (elems, rest) ← readElems fuel rest
                some (.arr elems, rest)
          else if c = '{' then
            match skipSpace rest with
            | '}' :: rest => some (.obj [], rest)
            | _ => do
                let (members, rest) ← readMembers fuel rest
                some (ofMembers members, rest)
          else if c = 'n' then readName "ull".toList .null rest
          else if c = 't' then readName "rue".toList (.bool true) rest
          else if c = 'f' then readName "alse".toList (.bool false) rest
          else readNumber (c :: rest)

/-- The elements of an array that has one, up to and with its bracket. -/
def readElems : ℕ → List Char → Option (List Json × List Char)
  | 0, _ => none
  | fuel + 1, text => do
      let (v, rest) ← readValue fuel text
      match skipSpace rest with
      | ',' :: rest => do
          let (vs, rest) ← readElems fuel rest
          some (v :: vs, rest)
      | ']' :: rest => some ([v], rest)
      | _ => none

def readMembers : ℕ → List Char → Option (Option (List (String × Json)) × List Char)
  | 0, _ => none
  | fuel + 1, text => do
      let (key, rest) ← readKey text
      let (v, rest) ← readValue fuel rest
      match skipSpace rest with
      | ',' :: rest => do
          let (ms, rest) ← readMembers fuel rest
          some (member key v ms, rest)
      | '}' :: rest => some (member key v (some []), rest)
      | _ => none

end

def parse (s : String) : Option Json := do
  let (v, rest) ← readValue (2 * s.toList.length + 1) s.toList
  if skipSpace rest = [] then some v else none

end Liquet.Json
