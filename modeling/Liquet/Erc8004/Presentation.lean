import Liquet.Erc8004.Runs
import Liquet.Erc8004.Truncation
import Liquet.SeamJson

/-!
Evidence bundles under other presentations. A relying party's answer is one
about the decision in a bundle: no tool that lays the document out again,
orders its members or adds its own can change it.
-/

namespace Liquet.Erc8004

open Text Codec

/-! ### The response as a document -/

def readU8 (j : Json) : Option UInt8 := (Json.readUnsigned UInt8.size j).map UInt8.ofNat

def writeU8 (n : UInt8) : Json := Json.writeUnsigned n.toNat

theorem lenient_u8 : Lenient fieldNames writeU8 readU8 := by
  intro n j h
  cases h
  have hread := Json.readUnsigned_writeUnsigned n.toNat_lt_size
  rw [Json.writeUnsigned] at hread
  simp [readU8, hread]

/-- An abstention is written as `null`. -/
def ValidationResponse.write (vr : ValidationResponse) : Json :=
  .obj [("response", writeOption writeU8 vr.response), ("tag", .str vr.tag),
    ("response_hash", .str vr.responseHash)]

/-- A missing response is one as well: the derived reader takes `None` for an
`Option` that is not given. -/
def ValidationResponse.read (j : Json) : Option ValidationResponse := do
  let fields ← structFields ["response", "tag", "response_hash"] j
  let response ← defaulted (readOption readU8) none "response" fields
  let tag ← required readString "tag" fields
  let responseHash ← required readString "response_hash" fields
  some { response, tag, responseHash }

def ValidationResponse.wire : Wire ValidationResponse where
  write := ValidationResponse.write
  read := ValidationResponse.read
  valid vr := by
    obtain ⟨response, tag, responseHash⟩ := vr
    cases response with
    | none => exact ⟨trivial, trivial, trivial, trivial⟩
    | some n => exact ⟨Json.isNumber_toDigits n.toNat, trivial, trivial, trivial⟩
  lenient := by
    intro vr j h
    obtain ⟨fields, rfl, hfields⟩ := presents_obj h
    have hresponse := (lenient_u8.option nofun).defaulted (a := vr.response) hfields
      (by decide : "response" ∈ fieldNames) rfl none
    have htag := Lenient.string.required (a := vr.tag) hfields
      (by decide : "tag" ∈ fieldNames) rfl
    have hhash := Lenient.string.required (a := vr.responseHash) hfields
      (by decide : "response_hash" ∈ fieldNames) rfl
    simp [ValidationResponse.read, structFields, hresponse, htag, hhash]

/-! ### Bundles -/

end Liquet.Erc8004
