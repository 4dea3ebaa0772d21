import Liquet.Json.RoundTrip

/-!
The implementations `#[derive(Serialize, Deserialize)]` generates, as pairs of
a writer to and a reader from JSON values. A `Codec` carries the proof that
reading undoes writing, so a codec of a compound type is assembled from the
codecs of its parts together with their laws.

The derived readers take more than the writers produce: a struct may come as
an object with its fields in any order and unknown ones among them, or as an
array of its fields in order; a unit variant may come as its name or as an
object from its name to `null`. A field given twice is an error.
-/

namespace Liquet

/-- A type's derived writer and reader. -/
structure Codec (α : Type) where
  write : α → Json
  read : Json → Option α
  numberFree : ∀ a, (write a).NumberFree
  read_write : ∀ a, read (write a) = some a

namespace Codec

variable {α : Type}

/-! ### Text -/

/-- `serde_json::to_string`. -/
def toText (c : Codec α) (a : α) : String := String.ofList (c.write a).render

/-- `serde_json::from_str`. -/
def ofText (c : Codec α) (s : String) : Option α := (Json.parse s).bind c.read

theorem ofText_toText (c : Codec α) (a : α) : c.ofText (c.toText a) = some a := by
  simp [ofText, toText, Json.parse_render (c.numberFree a), c.read_write a]

theorem toText_injective (c : Codec α) : Function.Injective c.toText := by
  intro a b h
  have hread := congrArg c.ofText h
  simpa [ofText_toText] using hread

/-! ### Scalars and lists -/

def readString : Json → Option String
  | .str s => some s
  | _ => none

def string : Codec String where
  write := .str
  read := readString
  numberFree _ := trivial
  read_write _ := rfl

def readBool : Json → Option Bool
  | .bool b => some b
  | _ => none

def readList (read : Json → Option α) : Json → Option (List α)
  | .arr vs => vs.mapM read
  | _ => none

theorem readList_map {read : Json → Option α} {write : α → Json}
    (h : ∀ a, read (write a) = some a) (as : List α) :
    readList read (.arr (as.map write)) = some as := by
  simp only [readList]
  induction as with
  | nil => rfl
  | cons a as ih => simp [List.mapM_cons, h a, ih]

def list (c : Codec α) : Codec (List α) where
  write as := .arr (as.map c.write)
  read := readList c.read
  numberFree as := by
    rw [Json.NumberFree, Json.numberFreeElems_iff]
    rintro v hv
    obtain ⟨a, -, rfl⟩ := List.mem_map.mp hv
    exact c.numberFree a
  read_write := readList_map c.read_write

def writeOption (write : α → Json) : Option α → Json
  | none => .null
  | some a => write a

def readOption (read : Json → Option α) : Json → Option (Option α)
  | .null => some none
  | v => (read v).map some

/-! ### Enumerations of unit variants -/

/-- The reader of an enumeration whose variants carry nothing, given the
variants and their (renamed) names. -/
def readUnit (name : α → String) (variants : List α) : Json → Option α
  | .str s => variants.find? fun a => name a = s
  | .obj [(s, .null)] => variants.find? fun a => name a = s
  | _ => none

def unitEnum (name : α → String) (variants : List α)
    (h : ∀ a, variants.find? (fun b => name b = name a) = some a) : Codec α where
  write a := .str (name a)
  read := readUnit name variants
  numberFree _ := trivial
  read_write := h

/-! ### Structs -/

/-- The fields of a struct as the derived visitor receives them: the members
of an object, or the elements of an array under the names they stand for. An
array longer than the struct is refused. -/
def structFields (names : List String) : Json → Option (List (String × Json))
  | .obj members => some members
  | .arr vs => if vs.length ≤ names.length then some (names.zip vs) else none
  | _ => none

/-- The values given under a name, in order. -/
def occurrences (name : String) (fields : List (String × Json)) : List Json :=
  (fields.filter fun f => f.1 = name).map Prod.snd

def required (read : Json → Option α) (name : String) (fields : List (String × Json)) :
    Option α :=
  match occurrences name fields with
  | [v] => read v
  | _ => none

/-- A field under `#[serde(default)]`. -/
def defaulted (read : Json → Option α) (default : α) (name : String)
    (fields : List (String × Json)) : Option α :=
  match occurrences name fields with
  | [] => some default
  | [v] => read v
  | _ => none

/-- A field under `#[serde(skip_serializing_if = ..)]`. -/
def skipIf (skip : Bool) (field : String × Json) : List (String × Json) :=
  if skip then [] else [field]

/-- The parts of an internally tagged enumeration: the variant's name under
the tag, and what is left for the variant's own fields. In an array the tag
comes first. -/
def readTag (tag : String) : Json → Option (String × Json)
  | .obj members =>
      match occurrences tag members with
      | [.str s] => some (s, .obj (members.filter fun m => m.1 ≠ tag))
      | _ => none
  | .arr (.str s :: vs) => some (s, .arr vs)
  | _ => none

@[simp] theorem occurrences_nil (name : String) : occurrences name [] = [] := rfl

@[simp] theorem occurrences_cons (name : String) (f : String × Json)
    (fields : List (String × Json)) :
    occurrences name (f :: fields) =
      if f.1 = name then f.2 :: occurrences name fields else occurrences name fields := by
  simp only [occurrences, List.filter_cons, decide_eq_true_eq]
  split <;> simp

@[simp] theorem skipIf_true (field : String × Json) : skipIf true field = [] := rfl

@[simp] theorem skipIf_false (field : String × Json) : skipIf false field = [field] := rfl

end Codec

end Liquet
