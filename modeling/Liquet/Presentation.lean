import Liquet.Attest
import Liquet.Json.Grammar
import Liquet.Json.Presents

/-!
The formats of the repository under other presentations. Whatever tool laid
out a document again, in what order and with what members of its own, the
derived readers find the value that was written. Only the decision in a binding
is buffered, and what is put into it may be too much for that.
-/

namespace Liquet

open Codec

/-- The names of the fields of the formats, and of the tag among them. -/
def fieldNames : List String :=
  ["vm", "executed", "poststate_digest", "covered_accounts", "facts_source", "asset", "amount",
    "recipient", "unverifiable_reason", "required_accounts", "reconcile", "reasons", "legs",
    "claim_hash", "settlement_id", "severity", "code", "account", "message", "level", "findings",
    "max_settle_severity", "require_executed", "require_recovered_facts", "invariant", "policy",
    "decision", "caveats", "binding", "signer", "signature", "response", "tag", "response_hash"]

/-- A codec whose reader takes every presentation of what its writer writes. -/
def Codec.IsLenient {α : Type} (c : Codec α) : Prop := Lenient fieldNames c.write c.read

theorem Codec.IsLenient.list {α : Type} {c : Codec α} (h : c.IsLenient) :
    (Codec.list c).IsLenient :=
  Lenient.list h

theorem Codec.string_isLenient : Codec.string.IsLenient := Lenient.string

theorem Codec.unitEnum_isLenient {α : Type} (name : α → String) (variants : List α)
    (h : ∀ a, variants.find? (fun b => name b = name a) = some a) :
    (Codec.unitEnum name variants h).IsLenient :=
  Lenient.unitEnum name variants h

theorem Vm.codec_isLenient : Vm.codec.IsLenient := Codec.unitEnum_isLenient _ _ _

theorem ReconcileVerdict.codec_isLenient : ReconcileVerdict.codec.IsLenient :=
  Codec.unitEnum_isLenient _ _ _

theorem Severity.codec_isLenient : Severity.codec.IsLenient := Codec.unitEnum_isLenient _ _ _

/-! ### The signed decision -/

theorem LegDigest.codec_isLenient : LegDigest.codec.IsLenient := by
  intro l j h
  obtain ⟨fields, rfl, hfields⟩ := presents_obj h
  have hvm := Vm.codec_isLenient.required (a := l.vm) hfields (by decide : "vm" ∈ fieldNames) rfl
  have hexecuted := Lenient.bool.required (a := l.executed) hfields
    (by decide : "executed" ∈ fieldNames) rfl
  have hdigest := Lenient.string.required (a := l.poststateDigest) hfields
    (by decide : "poststate_digest" ∈ fieldNames) rfl
  show LegDigest.read (.obj fields) = some l
  simp [LegDigest.read, structFields, hvm, hexecuted, hdigest]

theorem PolicySnapshot.codec_isLenient : PolicySnapshot.codec.IsLenient := by
  intro p j h
  obtain ⟨fields, rfl, hfields⟩ := presents_obj h
  have hseverity := Severity.codec_isLenient.required (a := p.maxSettleSeverity) hfields
    (by decide : "max_settle_severity" ∈ fieldNames) rfl
  have hexecuted := Lenient.bool.required (a := p.requireExecuted) hfields
    (by decide : "require_executed" ∈ fieldNames) rfl
  have hfacts := Lenient.bool.required (a := p.requireRecoveredFacts) hfields
    (by decide : "require_recovered_facts" ∈ fieldNames) rfl
  show PolicySnapshot.read (.obj fields) = some p
  simp [PolicySnapshot.read, structFields, hseverity, hexecuted, hfacts]

theorem Finding.codec_isLenient : Finding.codec.IsLenient := by
  rintro ⟨severity, code, account, message⟩ j h
  obtain ⟨fields, rfl, hfields⟩ := presents_obj h
  have hseverity := Severity.codec_isLenient.required (a := severity) hfields
    (by decide : "severity" ∈ fieldNames) (by cases account <;> rfl)
  have hcode := Lenient.string.required (a := code) hfields
    (by decide : "code" ∈ fieldNames) (by cases account <;> rfl)
  have haccount := Lenient.string.optional nofun hfields
    (by decide : "account" ∈ fieldNames) (o := account) (by cases account <;> rfl)
  have hmessage := Lenient.string.required (a := message) hfields
    (by decide : "message" ∈ fieldNames) (by cases account <;> rfl)
  show Finding.read (.obj fields) = some _
  simp [Finding.read, structFields, hseverity, hcode, haccount, hmessage]

theorem InvariantVerdict.codec_isLenient : InvariantVerdict.codec.IsLenient := by
  intro v j h
  obtain ⟨fields, rfl, hfields⟩ := presents_obj h
  have hlevel := Severity.codec_isLenient.required (a := v.level) hfields
    (by decide : "level" ∈ fieldNames) rfl
  have hfindings := Finding.codec_isLenient.list.required (a := v.findings) hfields
    (by decide : "findings" ∈ fieldNames) rfl
  show InvariantVerdict.read (.obj fields) = some v
  simp [InvariantVerdict.read, structFields, hlevel, hfindings]

section

variable {fields fields' : List (String × Json)} {name : String} {v : Json}

end

end Liquet
