import Liquet.Json.Decimal
import Liquet.Json.Soundness
import Liquet.Presentation

/-!
The derived JSON of the rest of `src/seam.rs`: the proof slots and the intent,
whose documents contain amounts. A `Wire` is a writer and a reader with the
proof that the reader takes every presentation of what the writer writes.
-/

namespace Liquet

open Codec

/-- A type's derived writer and reader, for documents with numbers. -/
structure Wire (α : Type) where
  write : α → Json
  read : Json → Option α
  valid : ∀ a, (write a).Valid
  lenient : Lenient fieldNames write read

namespace Wire

variable {α : Type}

def toText (w : Wire α) (a : α) : String := String.ofList (w.write a).render

def ofText (w : Wire α) (s : String) : Option α := (Json.parse s).bind w.read

theorem validElems_map (w : Wire α) (as : List α) : Json.ValidElems (as.map w.write) := by
  induction as with
  | nil => trivial
  | cons a as ih => exact ⟨w.valid a, ih⟩

def list (w : Wire α) : Wire (List α) where
  write as := .arr (as.map w.write)
  read := readList w.read
  valid as := w.validElems_map as
  lenient := Lenient.list w.lenient

theorem ofText_of_presents (w : Wire α) {a : α} {j : Json} {text : List Char}
    (hj : Presents fieldNames (w.write a) j) (htext : Json.DenotesPadded j text) :
    w.ofText (String.ofList text) = some a := by
  rw [ofText, Json.parse_of_denotes htext]
  exact w.lenient a j hj

theorem ofText_toText (w : Wire α) (a : α) : w.ofText (w.toText a) = some a :=
  w.ofText_of_presents (Presents.refl _)
    (.of_denotes (Json.denotes_render _ (w.valid a)))

end Wire

/-! ### Amounts -/

def readU64 (j : Json) : Option UInt64 := (Json.readUnsigned UInt64.size j).map UInt64.ofNat

def writeU64 (n : UInt64) : Json := Json.writeUnsigned n.toNat

theorem lenient_u64 : Lenient fieldNames writeU64 readU64 := by
  intro n j h
  cases h
  have hread := Json.readUnsigned_writeUnsigned n.toNat_lt_size
  rw [Json.writeUnsigned] at hread
  simp [readU64, hread]

/-! ### The proof slots -/

/-- `#[serde(rename_all = "snake_case")]`. -/
def FactsSource.jsonName : FactsSource → String
  | .producerRecovered => "producer_recovered"
  | .callerAsserted => "caller_asserted"

def FactsSource.codec : Codec FactsSource :=
  Codec.unitEnum FactsSource.jsonName [.producerRecovered, .callerAsserted]
    (by intro f; cases f <;> decide)

theorem FactsSource.codec_isLenient : FactsSource.codec.IsLenient :=
  Codec.unitEnum_isLenient _ _ _

/-- A field under `#[serde(skip_serializing_if = "Option::is_none")]`. -/
def optionalField {α : Type} (name : String) (write : α → Json) (o : Option α) :
    List (String × Json) :=
  skipIf o.isNone (name, writeOption write o)

section

variable {α : Type} {name : String} {fields fields' : List (String × Json)}

theorem occurrences_append :
    occurrences name (fields ++ fields') = occurrences name fields ++ occurrences name fields' := by
  simp [occurrences]

theorem occurrences_optionalField {field : String} {write : α → Json} {o : Option α} :
    occurrences name (optionalField field write o) =
      if field = name then (if o.isNone then [] else [writeOption write o]) else [] := by
  cases o <;> simp [optionalField]

theorem validMembers_append :
    Json.ValidMembers (fields ++ fields') ↔
      Json.ValidMembers fields ∧ Json.ValidMembers fields' := by
  induction fields with
  | nil => simp [Json.ValidMembers]
  | cons m fields ih => simp [Json.ValidMembers, ih, and_assoc]

theorem validMembers_optionalField {write : α → Json} (h : ∀ a, (write a).Valid) (o : Option α) :
    Json.ValidMembers (optionalField name write o) := by
  cases o with
  | none => trivial
  | some a => exact ⟨h a, trivial⟩

end

theorem valid_write {α : Type} (c : Codec α) (a : α) : (c.write a).Valid :=
  Json.valid_of_numberFree _ (c.numberFree a)

theorem valid_str (s : String) : (Json.str s).Valid := trivial

theorem valid_writeU64 (n : UInt64) : (writeU64 n).Valid := Json.isNumber_toDigits n.toNat

def ReexecProof.write (p : ReexecProof) : Json :=
  .obj ([("vm", Vm.codec.write p.vm), ("executed", .bool p.executed),
      ("poststate_digest", .str p.poststateDigest),
      ("covered_accounts", (Codec.list Codec.string).write p.coveredAccounts),
      ("facts_source", FactsSource.codec.write p.factsSource)] ++
    (optionalField "asset" Json.str p.asset ++
      (optionalField "amount" writeU64 p.amount ++
        (optionalField "recipient" Json.str p.recipient ++
          optionalField "unverifiable_reason" Json.str p.unverifiableReason))))

def ReexecProof.read (j : Json) : Option ReexecProof := do
  let fields ← structFields ["vm", "executed", "poststate_digest", "covered_accounts",
    "facts_source", "asset", "amount", "recipient", "unverifiable_reason"] j
  let vm ← required Vm.codec.read "vm" fields
  let executed ← required readBool "executed" fields
  let poststateDigest ← required readString "poststate_digest" fields
  let coveredAccounts ← defaulted (Codec.list Codec.string).read [] "covered_accounts" fields
  let factsSource ← required FactsSource.codec.read "facts_source" fields
  let asset ← defaulted (readOption readString) none "asset" fields
  let amount ← defaulted (readOption readU64) none "amount" fields
  let recipient ← defaulted (readOption readString) none "recipient" fields
  let unverifiableReason ← defaulted (readOption readString) none "unverifiable_reason" fields
  some { vm, executed, poststateDigest, coveredAccounts, factsSource, asset, amount, recipient,
         unverifiableReason }

def ReexecProof.wire : Wire ReexecProof where
  write := ReexecProof.write
  read := ReexecProof.read
  valid p := by
    rw [ReexecProof.write, Json.Valid]
    simp only [validMembers_append]
    refine ⟨⟨valid_write _ _, trivial, trivial, valid_write (Codec.list Codec.string) _,
      valid_write _ _, trivial⟩, ?_, ?_, ?_, ?_⟩
    · exact validMembers_optionalField valid_str _
    · exact validMembers_optionalField valid_writeU64 _
    · exact validMembers_optionalField valid_str _
    · exact validMembers_optionalField valid_str _
  lenient := by
    intro p j h
    obtain ⟨fields, rfl, hfields⟩ := presents_obj h
    have hvm := Vm.codec_isLenient.required (a := p.vm) hfields
      (by decide : "vm" ∈ fieldNames) (by simp [occurrences_append, occurrences_optionalField])
    have hexecuted := Lenient.bool.required (a := p.executed) hfields
      (by decide : "executed" ∈ fieldNames)
      (by simp [occurrences_append, occurrences_optionalField])
    have hdigest := Lenient.string.required (a := p.poststateDigest) hfields
      (by decide : "poststate_digest" ∈ fieldNames)
      (by simp [occurrences_append, occurrences_optionalField])
    have hcovered := Codec.string_isLenient.list.defaulted (a := p.coveredAccounts) hfields
      (by decide : "covered_accounts" ∈ fieldNames)
      (by simp [occurrences_append, occurrences_optionalField]) []
    have hfacts := FactsSource.codec_isLenient.required (a := p.factsSource) hfields
      (by decide : "facts_source" ∈ fieldNames)
      (by simp [occurrences_append, occurrences_optionalField])
    have hasset := Lenient.string.optional nofun (o := p.asset) hfields
      (by decide : "asset" ∈ fieldNames)
      (by simp [occurrences_append, occurrences_optionalField])
    have hamount := lenient_u64.optional nofun (o := p.amount) hfields
      (by decide : "amount" ∈ fieldNames)
      (by simp [occurrences_append, occurrences_optionalField])
    have hrecipient := Lenient.string.optional nofun (o := p.recipient) hfields
      (by decide : "recipient" ∈ fieldNames)
      (by simp [occurrences_append, occurrences_optionalField])
    have hreason := Lenient.string.optional nofun (o := p.unverifiableReason) hfields
      (by decide : "unverifiable_reason" ∈ fieldNames)
      (by simp [occurrences_append, occurrences_optionalField])
    simp [ReexecProof.read, structFields, hvm, hexecuted, hdigest, hcovered, hfacts, hasset,
      hamount, hrecipient, hreason]

def SettlementIntent.write (i : SettlementIntent) : Json :=
  .obj [("vm", Vm.codec.write i.vm), ("asset", .str i.asset), ("amount", writeU64 i.amount),
    ("recipient", .str i.recipient),
    ("required_accounts", (Codec.list Codec.string).write i.requiredAccounts)]

def SettlementIntent.read (j : Json) : Option SettlementIntent := do
  let fields ← structFields ["vm", "asset", "amount", "recipient", "required_accounts"] j
  let vm ← required Vm.codec.read "vm" fields
  let asset ← required readString "asset" fields
  let amount ← required readU64 "amount" fields
  let recipient ← required readString "recipient" fields
  let requiredAccounts ← defaulted (Codec.list Codec.string).read [] "required_accounts" fields
  some { vm, asset, amount, recipient, requiredAccounts }

def SettlementIntent.wire : Wire SettlementIntent where
  write := SettlementIntent.write
  read := SettlementIntent.read
  valid i := ⟨valid_write _ _, trivial, valid_writeU64 _, trivial,
    valid_write (Codec.list Codec.string) _, trivial⟩
  lenient := by
    intro i j h
    obtain ⟨fields, rfl, hfields⟩ := presents_obj h
    have hvm := Vm.codec_isLenient.required (a := i.vm) hfields
      (by decide : "vm" ∈ fieldNames) rfl
    have hasset := Lenient.string.required (a := i.asset) hfields
      (by decide : "asset" ∈ fieldNames) rfl
    have hamount := lenient_u64.required (a := i.amount) hfields
      (by decide : "amount" ∈ fieldNames) rfl
    have hrecipient := Lenient.string.required (a := i.recipient) hfields
      (by decide : "recipient" ∈ fieldNames) rfl
    have haccounts := Codec.string_isLenient.list.defaulted (a := i.requiredAccounts) hfields
      (by decide : "required_accounts" ∈ fieldNames) rfl []
    simp [SettlementIntent.read, structFields, hvm, hasset, hamount, hrecipient, haccounts]

def CrossVmProof.write (p : CrossVmProof) : Json :=
  .obj (("reconcile", ReconcileVerdict.codec.write p.reconcile) ::
    (skipIf p.reasons.isEmpty ("reasons", (Codec.list Codec.string).write p.reasons) ++
      [("legs", ReexecProof.wire.list.write p.legs), ("claim_hash", .str p.claimHash),
        ("settlement_id", .str p.settlementId)]))

def CrossVmProof.read (j : Json) : Option CrossVmProof := do
  let fields ← structFields ["reconcile", "reasons", "legs", "claim_hash", "settlement_id"] j
  let reconcile ← required ReconcileVerdict.codec.read "reconcile" fields
  let reasons ← defaulted (Codec.list Codec.string).read [] "reasons" fields
  let legs ← required ReexecProof.wire.list.read "legs" fields
  let claimHash ← required readString "claim_hash" fields
  let settlementId ← required readString "settlement_id" fields
  some { reconcile, reasons, legs, claimHash, settlementId }

def CrossVmProof.wire : Wire CrossVmProof where
  write := CrossVmProof.write
  read := CrossVmProof.read
  valid p := by
    obtain ⟨reconcile, reasons, legs, claimHash, settlementId⟩ := p
    cases reasons with
    | nil => exact ⟨valid_write _ _, ReexecProof.wire.list.valid legs, trivial, trivial, trivial⟩
    | cons r rs =>
        exact ⟨valid_write _ _, valid_write (Codec.list Codec.string) _,
          ReexecProof.wire.list.valid legs, trivial, trivial, trivial⟩
  lenient := by
    rintro ⟨reconcile, reasons, legs, claimHash, settlementId⟩ j h
    obtain ⟨fields, rfl, hfields⟩ := presents_obj h
    have hreconcile := ReconcileVerdict.codec_isLenient.required (a := reconcile) hfields
      (by decide : "reconcile" ∈ fieldNames) (by cases reasons <;> rfl)
    have hreasons : defaulted (Codec.list Codec.string).read [] "reasons" fields =
        some reasons := by
      have hname : "reasons" ∈ fieldNames := by decide
      cases reasons with
      | nil => exact hfields.defaulted hname rfl _ []
      | cons r rs => exact Codec.string_isLenient.list.defaulted (a := r :: rs) hfields hname rfl []
    have hlegs := ReexecProof.wire.list.lenient.required (a := legs) hfields
      (by decide : "legs" ∈ fieldNames) (by cases reasons <;> rfl)
    have hclaim := Lenient.string.required (a := claimHash) hfields
      (by decide : "claim_hash" ∈ fieldNames) (by cases reasons <;> rfl)
    have hsettlement := Lenient.string.required (a := settlementId) hfields
      (by decide : "settlement_id" ∈ fieldNames) (by cases reasons <;> rfl)
    simp [CrossVmProof.read, structFields, hreconcile, hreasons, hlegs, hclaim, hsettlement]

/-! ### What is read -/

end Liquet
