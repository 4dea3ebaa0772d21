import Mathlib.Order.Basic
import Mathlib.Order.Lattice
import Mathlib.Order.Nat
import Liquet.Json.Derive

/-!
The seam contract of `src/seam.rs`: the shapes every producer fills and the
gate consumes, with the derived JSON implementations of those that a signed
binding contains.
-/

namespace Liquet

open Codec

/-! ### Slot 1 -/

inductive Vm
  | svm
  | evm
  deriving DecidableEq, Repr

/-- How the transfer facts of a leg were obtained. -/
inductive FactsSource
  | producerRecovered
  | callerAsserted
  deriving DecidableEq, Repr

/-- A witness that one leg executed as specified. -/
structure ReexecProof where
  vm : Vm
  executed : Bool
  poststateDigest : String
  coveredAccounts : List String
  factsSource : FactsSource
  asset : Option String
  amount : Option UInt64
  recipient : Option String
  unverifiableReason : Option String
  deriving DecidableEq, Repr

/-- What the solver asked to happen. -/
structure SettlementIntent where
  vm : Vm
  asset : String
  amount : UInt64
  recipient : String
  requiredAccounts : List String
  deriving DecidableEq, Repr

inductive ReconcileVerdict
  | matched
  | halfOpen
  | mismatch
  | unverifiable
  deriving DecidableEq, Repr

structure CrossVmProof where
  reconcile : ReconcileVerdict
  reasons : List String
  legs : List ReexecProof
  claimHash : String
  settlementId : String
  deriving DecidableEq, Repr

/-! ### Slot 2 -/

inductive Severity
  | green
  | info
  | yellow
  | red
  deriving DecidableEq, Repr

def Severity.rank : Severity → ℕ
  | .green => 0
  | .info => 1
  | .yellow => 2
  | .red => 3

theorem Severity.rank_injective : Function.Injective Severity.rank := by
  intro a b h
  cases a <;> cases b <;> first | rfl | cases h

/-- `#[derive(PartialOrd, Ord)]`: Green < Info < Yellow < Red. -/
instance : LinearOrder Severity := LinearOrder.lift' Severity.rank Severity.rank_injective

structure Finding where
  severity : Severity
  code : String
  account : Option String
  message : String
  deriving DecidableEq, Repr

structure InvariantVerdict where
  level : Severity
  findings : List Finding
  deriving DecidableEq, Repr

/-- A clean, empty, passing verdict. -/
def InvariantVerdict.green : InvariantVerdict := { level := .green, findings := [] }

/-! ### JSON -/

/-- `#[serde(rename_all = "lowercase")]`. -/
def Vm.jsonName : Vm → String
  | .svm => "svm"
  | .evm => "evm"

def Vm.codec : Codec Vm :=
  Codec.unitEnum Vm.jsonName [.svm, .evm] (by intro v; cases v <;> decide)

/-- `#[serde(rename_all = "snake_case")]`. -/
def ReconcileVerdict.jsonName : ReconcileVerdict → String
  | .matched => "matched"
  | .halfOpen => "half_open"
  | .mismatch => "mismatch"
  | .unverifiable => "unverifiable"

def ReconcileVerdict.codec : Codec ReconcileVerdict :=
  Codec.unitEnum ReconcileVerdict.jsonName [.matched, .halfOpen, .mismatch, .unverifiable]
    (by intro v; cases v <;> decide)

/-- `#[serde(rename_all = "lowercase")]`. -/
def Severity.jsonName : Severity → String
  | .green => "green"
  | .info => "info"
  | .yellow => "yellow"
  | .red => "red"

def Severity.codec : Codec Severity :=
  Codec.unitEnum Severity.jsonName [.green, .info, .yellow, .red]
    (by intro s; cases s <;> decide)

def Finding.write (f : Finding) : Json :=
  .obj ([("severity", Severity.codec.write f.severity), ("code", .str f.code)] ++
    skipIf f.account.isNone ("account", writeOption Json.str f.account) ++
    [("message", .str f.message)])

def Finding.read (j : Json) : Option Finding := do
  let fields ← structFields ["severity", "code", "account", "message"] j
  let severity ← required Severity.codec.read "severity" fields
  let code ← required readString "code" fields
  let account ← defaulted (readOption readString) none "account" fields
  let message ← required readString "message" fields
  some { severity, code, account, message }

def Finding.codec : Codec Finding where
  write := Finding.write
  read := Finding.read
  numberFree f := by
    obtain ⟨severity, code, account, message⟩ := f
    have hseverity := Severity.codec.numberFree severity
    cases account <;>
      simp [Finding.write, writeOption, Json.NumberFree, Json.NumberFreeMembers, hseverity]
  read_write f := by
    obtain ⟨severity, code, account, message⟩ := f
    have hseverity := Severity.codec.read_write severity
    cases account <;>
      simp [Finding.write, Finding.read, structFields, required, defaulted, hseverity,
        readString, readOption, writeOption]

def InvariantVerdict.write (v : InvariantVerdict) : Json :=
  .obj [("level", Severity.codec.write v.level),
    ("findings", (Codec.list Finding.codec).write v.findings)]

def InvariantVerdict.read (j : Json) : Option InvariantVerdict := do
  let fields ← structFields ["level", "findings"] j
  let level ← required Severity.codec.read "level" fields
  let findings ← required (Codec.list Finding.codec).read "findings" fields
  some { level, findings }

def InvariantVerdict.codec : Codec InvariantVerdict where
  write := InvariantVerdict.write
  read := InvariantVerdict.read
  numberFree v := ⟨trivial, (Codec.list Finding.codec).numberFree v.findings, trivial⟩
  read_write v := by
    have hlevel := Severity.codec.read_write v.level
    have hfindings := (Codec.list Finding.codec).read_write v.findings
    simp [InvariantVerdict.write, InvariantVerdict.read, structFields, required, hlevel,
      hfindings]

end Liquet
