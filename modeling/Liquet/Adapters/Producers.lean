import Mathlib.Data.List.Defs
import Liquet.Library.Canonical
import Liquet.Json.Value
import Liquet.Text.Hex

/-!
What the repository uses of its producers `probatio_xvm`, `custos_engine` and
`litesvm`: the fields of their types it reads, and their functions as
parameters. Nothing is assumed of the functions.
-/

namespace Liquet

open Text

/-- An address, `solana_address::Address` and `solana_pubkey::Pubkey` alike:
one is made from the bytes of the other. -/
abbrev Pubkey := Bytes 32

/-! ### probatio-xvm -/

namespace Probatio

inductive Vm
  | evm
  | svm
  deriving DecidableEq, Repr

inductive XvmVerdict
  | matched
  | halfOpen
  | mismatch
  | unverifiable
  deriving DecidableEq, Repr

structure ReconstructedLeg where
  vm : Vm
  executed : Bool
  reexecDigest : String
  asset : Option String
  amount : Option UInt64
  recipient : Option String
  unverifiableReason : Option String
  deriving DecidableEq, Repr

structure XvmReceipt where
  verdict : XvmVerdict
  reasons : List String
  claimHash : String
  settlementId : String
  deriving DecidableEq, Repr

structure EvmReconstruction where
  leg : ReconstructedLeg
  deriving DecidableEq, Repr

/-- The delivery leg with all a replay of it needs: the accounts before it, the
transaction, its payer, and the accounts to watch. -/
structure SvmReconstruction (Account Transaction : Type) where
  leg : ReconstructedLeg
  prestate : List (Pubkey × Account)
  payer : Pubkey
  payerAirdropLamports : UInt64
  transaction : Transaction
  watch : List Pubkey

end Probatio

/-! ### custos-engine -/

namespace CustosEngine

inductive Level
  | green
  | info
  | yellow
  | red
  deriving DecidableEq, Repr

/-- The place of a level among Custos's four, from the harmless one up. -/
def Level.rank : Level → ℕ
  | .green => 0
  | .info => 1
  | .yellow => 2
  | .red => 3

structure Finding where
  level : Level
  code : String
  account : Pubkey
  message : String
  deriving DecidableEq

structure Verdict where
  level : Level
  findings : List Finding
  deriving DecidableEq

structure AccountSnapshot where
  lamports : UInt64
  owner : Pubkey
  data : List UInt8
  deriving DecidableEq

/-- A hash map from public keys to snapshots, as the list its iterator yields.
`none` is a watched account that does not exist. -/
structure AccountMap where
  entries : List (Pubkey × Option AccountSnapshot)
  nodup : (entries.map Prod.fst).Nodup

/-- `map.get(&key).and_then(Option::as_ref)`. -/
def AccountMap.snapshot (m : AccountMap) (key : Pubkey) : Option AccountSnapshot :=
  (m.entries.find? fun entry => entry.1 = key).bind Prod.snd

/-- `map.get(&key)`, which two maps are compared by. -/
def AccountMap.get (m : AccountMap) (key : Pubkey) : Option (Option AccountSnapshot) :=
  (m.entries.find? fun entry => entry.1 = key).map Prod.snd

theorem AccountMap.get_eq_some {m : AccountMap} {key : Pubkey}
    {s : Option AccountSnapshot} : m.get key = some s ↔ (key, s) ∈ m.entries := by
  rw [get, Option.map_eq_some_iff]
  simp only [Canonical.find?_key_eq_some_iff m.nodup]
  constructor
  · rintro ⟨⟨_, _⟩, ⟨hmem, rfl⟩, rfl⟩
    exact hmem
  · intro hmem
    exact ⟨(key, s), ⟨hmem, rfl⟩, rfl⟩

/-- Two maps are equal when they have the same entries, in any order. -/
theorem AccountMap.perm_iff_get {m m' : AccountMap} :
    m.entries.Perm m'.entries ↔ ∀ key, m.get key = m'.get key := by
  rw [List.perm_ext_iff_of_nodup m.nodup.of_map m'.nodup.of_map]
  constructor
  · intro h key
    apply Option.ext
    intro s
    rw [get_eq_some, get_eq_some]
    exact h (key, s)
  · rintro h ⟨key, s⟩
    rw [← get_eq_some, ← get_eq_some, h key]

theorem AccountMap.isSome_get {m : AccountMap} {key : Pubkey} :
    (m.get key).isSome = true ↔ key ∈ m.entries.map Prod.fst := by
  rw [Option.isSome_iff_exists, List.mem_map]
  constructor
  · rintro ⟨s, hs⟩
    exact ⟨(key, s), get_eq_some.mp hs, rfl⟩
  · rintro ⟨⟨_, s⟩, hmem, rfl⟩
    exact ⟨s, get_eq_some.mpr hmem⟩

structure Outcome where
  success : Bool
  pre : AccountMap
  post : AccountMap

structure TokenAccount where
  amount : UInt64
  deriving DecidableEq, Repr

end CustosEngine

/-! ### The functions -/

structure Producers where
  EvmPaySpec : Type
  SvmTransferSpec : Type
  Claim : Type
  SvmMalice : Type
  Account : Type
  Transaction : Type
  /-- A `LiteSVM` instance. -/
  Svm : Type
  Bank : Type
  /-- `SvmMalice::None`. -/
  noMalice : SvmMalice
  readEvmPaySpec : Json → Option EvmPaySpec
  readSvmTransferSpec : Json → Option SvmTransferSpec
  readClaim : Json → Option Claim
  readSvmMalice : Json → Option SvmMalice
  /-- The text of the error `serde_json::from_str` has for a claim. -/
  claimErrorText : String → String
  reconstructEvmLeg : EvmPaySpec → Except String Probatio.EvmReconstruction
  reconstructSvmLegWithMalice : SvmTransferSpec → SvmMalice →
    Except String (Probatio.SvmReconstruction Account Transaction)
  reconcile : Probatio.ReconstructedLeg → Probatio.ReconstructedLeg → Claim → Probatio.XvmReceipt
  /-- `to_string` of an address or a public key. -/
  pubkeyText : Pubkey → String
  newSvm : Svm
  /-- `LiteSVM::set_account`, its error as `{e:?}` renders it. -/
  setAccount : Pubkey → Account → Svm → Except String Svm
  /-- `LiteSVM::airdrop`, its error as `{e:?}` renders it. -/
  airdrop : Pubkey → UInt64 → Svm → Except String Svm
  splTokenId : Pubkey
  systemId : Pubkey
  /-- `custos_engine::sim::capture`: run the transaction, with snapshots of the
  watched accounts before and after. -/
  capture : Svm → Transaction → Pubkey → List Pubkey → Pubkey → Pubkey → CustosEngine.Outcome
  parseTokenAccount : CustosEngine.AccountSnapshot → Option CustosEngine.TokenAccount
  defaultBank : Bank
  evaluate : CustosEngine.Outcome → Bank → CustosEngine.Verdict

/-! ### One settlement, recorded

An instance to evaluate the development on: the producers' answers about one
settlement. Token accounts are read from the layout SPL Token gives them, the
amount in eight little-endian bytes at offset 64. -/

namespace Recorded

open Probatio CustosEngine

def splTokenParse (snapshot : AccountSnapshot) : Option TokenAccount :=
  if snapshot.data.length = 165 then
    let bytes := (snapshot.data.drop 64).take 8
    some { amount := bytes.foldr (fun b n => 256 * n + b.toUInt64) 0 }
  else none

/-- A token account that holds less than 256. -/
def tokenSnapshot (amount : UInt8) : AccountSnapshot :=
  { lamports := 2039280
    owner := ⟨List.replicate 32 6, rfl⟩
    data := List.replicate 64 0 ++ amount :: List.replicate 100 0 }

def sourceAccount : Pubkey := ⟨List.replicate 32 1, rfl⟩

def recipientAccount : Pubkey := ⟨List.replicate 32 2, rfl⟩

def recipientMap (amount : UInt8) : AccountMap where
  entries := [(recipientAccount, some (tokenSnapshot amount))]
  nodup := by simp

def evmLeg : ReconstructedLeg :=
  { vm := .evm, executed := true, reexecDigest := "evm-dig", asset := some "ETH",
    amount := some 25, recipient := none, unverifiableReason := none }

structure Delivery where
  leg : ReconstructedLeg
  verdict : XvmVerdict
  outcome : Outcome
  screened : Verdict := { level := .green, findings := [] }

/-- The delivery went through: 25 units, on a matched receipt. -/
def delivered : Delivery :=
  { leg :=
      { vm := .svm, executed := true, reexecDigest := "svm-dig", asset := some "mint",
        amount := some 25, recipient := some "recipient", unverifiableReason := none }
    verdict := .matched
    outcome := { success := true, pre := recipientMap 0, post := recipientMap 25 } }

/-- The same delivery, with something in it that Custos warns of. -/
def flagged : Delivery :=
  { delivered with
    screened :=
      { level := .red
        findings := [{ level := .red, code := "authority", account := recipientAccount,
                       message := "the owner of the recipient account changed" }] } }

/-- The delivery transaction failed, when probatio ran it and when Custos did,
and left the settlement half open. -/
def reverted : Delivery :=
  { leg :=
      { vm := .svm, executed := false, reexecDigest := "svm-dig", asset := none, amount := none,
        recipient := none, unverifiableReason := none }
    verdict := .halfOpen
    outcome := { success := false, pre := recipientMap 0, post := recipientMap 0 } }

/-- A transaction that succeeds, delivers nothing and takes 5 of the 10 units
the recipient held. -/
def withdrawn : Delivery :=
  { reverted with outcome := { success := true, pre := recipientMap 10, post := recipientMap 5 } }

def producers (d : Delivery) : Producers where
  EvmPaySpec := Json
  SvmTransferSpec := Json
  Claim := Json
  SvmMalice := Option Json
  Account := Unit
  Transaction := Unit
  Svm := Unit
  Bank := Unit
  noMalice := none
  readEvmPaySpec := some
  readSvmTransferSpec := some
  readClaim := some
  readSvmMalice j := some (some j)
  claimErrorText _ := "EOF while parsing a value at line 1 column 0"
  reconstructEvmLeg _ := .ok { leg := evmLeg }
  reconstructSvmLegWithMalice _ _ :=
    .ok { leg := d.leg, prestate := [], payer := sourceAccount, payerAirdropLamports := 1000000000,
          transaction := (), watch := [sourceAccount, recipientAccount] }
  reconcile _ _ _ :=
    { verdict := d.verdict, reasons := [], claimHash := "claim-abc",
      settlementId := "settlement-1" }
  pubkeyText key := hexEncode key.toList
  newSvm := ()
  setAccount _ _ svm := .ok svm
  airdrop _ _ svm := .ok svm
  splTokenId := ⟨List.replicate 32 6, rfl⟩
  systemId := ⟨List.replicate 32 0, rfl⟩
  capture _ _ _ _ _ _ := d.outcome
  parseTokenAccount := splTokenParse
  defaultBank := ()
  evaluate _ _ := d.screened

/-- A claim payload without a `malice` field. -/
def claim : Json := .obj [("evm", .null), ("svm", .null), ("claim", .null)]

end Recorded

end Liquet
