import Liquet.Library.Canonical
import Liquet.Crypto.Reference
import Liquet.Adapters.Producers
import Liquet.Seam

/-!
The adapter `src/adapters/custos.rs`: a Custos verdict as the invariant slot,
and a Custos outcome as the re-execution slot. The second commits to the
accounts after execution by a digest, which is that of the account map itself:
no two maps have one stream of bytes, and no map has two.
-/

namespace Liquet.Custos

open Text CustosEngine Canonical

def severityFromLevel : CustosEngine.Level → Severity
  | .green => .green
  | .info => .info
  | .yellow => .yellow
  | .red => .red

theorem rank_severityFromLevel (level : Level) : (severityFromLevel level).rank = level.rank := by
  cases level <;> rfl

theorem severityFromLevel_le_iff {level : Level} {threshold : Severity} :
    severityFromLevel level ≤ threshold ↔ level.rank ≤ threshold.rank := by
  rw [← rank_severityFromLevel]
  exact Iff.rfl

/-- Slot 2. The text form of a public key is the producers'. -/
def verdictFromCustos (X : Producers) (v : CustosEngine.Verdict) : InvariantVerdict :=
  { level := severityFromLevel v.level
    findings := v.findings.map fun f =>
      { severity := severityFromLevel f.level
        code := f.code
        account := some (X.pubkeyText f.account)
        message := f.message } }

/-! ### The poststate -/

/-- The accounts in the order of their keys' bytes. -/
def sortedAccounts (post : AccountMap) : List (Pubkey × Option AccountSnapshot) :=
  sortByKey (fun account => account.1.toList) post.entries

/-- What is hashed of an account's state. An account that does not exist after
execution is recorded as such. -/
def snapshotBytes : Option AccountSnapshot → List UInt8
  | some snapshot =>
      1 :: ((leBytes 8 snapshot.lamports.toNat ++ snapshot.owner.toList) ++
        (leBytes 8 snapshot.data.length ++ snapshot.data))
  | none => [0]

def accountBytes (account : Pubkey × Option AccountSnapshot) : List UInt8 :=
  account.1.toList ++ snapshotBytes account.2

def poststateDomain : List UInt8 := "liquet/custos/poststate/v1".toUTF8.data.toList

/-- The bytes the hasher is fed. -/
def poststatePreimage (post : AccountMap) : List UInt8 :=
  poststateDomain ++ (sortedAccounts post).flatMap accountBytes

/-- Slot 1. -/
def proofFromOutcome (X : Producers) (P : Primitives) (outcome : Outcome) : ReexecProof :=
  { vm := .svm
    executed := outcome.success
    poststateDigest := hexEncode (P.sha256 (poststatePreimage outcome.post)).toList
    coveredAccounts := (sortedAccounts outcome.post).map fun account => X.pubkeyText account.1
    factsSource := .callerAsserted
    asset := none
    amount := none
    recipient := none
    unverifiableReason := none }

section

variable {post post' : AccountMap}

/-- The length of every account's data fits its prefix. -/
def Measured (post : AccountMap) : Prop :=
  ∀ account ∈ post.entries, ∀ snapshot ∈ account.2, snapshot.data.length < 2 ^ 64

instance : DecidablePred Measured := fun post =>
  inferInstanceAs (Decidable (∀ account ∈ post.entries, ∀ snapshot ∈ account.2,
    snapshot.data.length < 2 ^ 64))

theorem readable_key : Readable (fun key : Pubkey => key.toList) Set.univ :=
  .of_length (fun key _ => key.toList_length) List.Vector.toList_injective.injOn

theorem readable_snapshot :
    Readable
      (fun s : AccountSnapshot => (leBytes 8 s.lamports.toNat ++ s.owner.toList) ++
        (leBytes 8 s.data.length ++ s.data))
      {s | s.data.length < 2 ^ 64} := by
  have hfields := ((readable_leBytes 8).append readable_key).append
    (readable_leBytes 8).lengthPrefixed
  apply hfields.comp fun s : AccountSnapshot => ((s.lamports.toNat, s.owner), s.data)
  · intro s hs
    exact ⟨⟨s.lamports.toNat_lt, trivial⟩, hs⟩
  · rintro ⟨lamports, owner, data⟩ - ⟨lamports', owner', data'⟩ - h
    obtain ⟨h, rfl⟩ := Prod.mk.inj h
    obtain ⟨hlamports, rfl⟩ := Prod.mk.inj h
    obtain rfl : lamports = lamports' := UInt64.toNat_inj.mp hlamports
    rfl

/-- Records of 33 bytes for absent accounts and of any length for the others
are told apart by their tags. -/
theorem readable_account :
    Readable accountBytes {account | ∀ snapshot ∈ account.2, snapshot.data.length < 2 ^ 64} := by
  have hsnapshot : Readable snapshotBytes {o | ∀ snapshot ∈ o, snapshot.data.length < 2 ^ 64} :=
    .option (by decide : (1 : UInt8) ≠ 0) (fun _ => rfl) rfl readable_snapshot
  exact fun a ha b hb => (readable_key.append hsnapshot) a ⟨trivial, ha⟩ b ⟨trivial, hb⟩

theorem accountBytes_ne_nil (account : Pubkey × Option AccountSnapshot) :
    accountBytes account ≠ [] := by
  obtain ⟨key, snapshot⟩ := account
  intro h
  obtain ⟨-, h⟩ := List.append_eq_nil_iff.mp h
  cases snapshot with
  | none => cases h
  | some snapshot => cases h

/-- The stream determines the map, and the map the stream. -/
theorem poststatePreimage_eq_iff (h : Measured post) (h' : Measured post') :
    poststatePreimage post = poststatePreimage post' ↔ ∀ key, post.get key = post'.get key := by
  have hkeys : (post.entries.map fun account => account.1.toList).Nodup := by
    have hnodup := post.nodup.map List.Vector.toList_injective
    rwa [List.map_map] at hnodup
  rw [← AccountMap.perm_iff_get, poststatePreimage, poststatePreimage, List.append_right_inj]
  exact flatMap_sortByKey_eq_iff readable_account (fun account _ => accountBytes_ne_nil account)
    h h' hkeys

theorem poststateDigest_eq_iff {X : Producers} {P : Primitives} {outcome outcome' : Outcome}
    (h : Measured outcome.post) (h' : Measured outcome'.post)
    (hcollision : P.CollisionFree
      {m | m = poststatePreimage outcome.post ∨ m = poststatePreimage outcome'.post}) :
    (proofFromOutcome X P outcome).poststateDigest =
        (proofFromOutcome X P outcome').poststateDigest ↔
      ∀ key, outcome.post.get key = outcome'.post.get key := by
  rw [← poststatePreimage_eq_iff h h']
  constructor
  · intro hdigest
    exact hcollision (.inl rfl) (.inr rfl) (hexEncode_toList_inj.mp hdigest)
  · intro hpreimage
    rw [proofFromOutcome, proofFromOutcome, hpreimage]

theorem coveredAccounts_proofFromOutcome (X : Producers) (P : Primitives) (outcome : Outcome) :
    (proofFromOutcome X P outcome).coveredAccounts =
      (sortByKey List.Vector.toList (outcome.post.entries.map Prod.fst)).map X.pubkeyText := by
  rw [← map_sortByKey, List.map_map]
  rfl

theorem sortByKey_keys_congr (h : ∀ key, (post.get key).isSome = (post'.get key).isSome) :
    sortByKey List.Vector.toList (post.entries.map Prod.fst) =
      sortByKey List.Vector.toList (post'.entries.map Prod.fst) := by
  apply sortByKey_congr (post.nodup.map List.Vector.toList_injective)
  rw [List.perm_ext_iff_of_nodup post.nodup post'.nodup]
  intro key
  rw [← AccountMap.isSome_get, ← AccountMap.isSome_get, h key]

end

/-- The digest commits to the account map and to nothing else of its
presentation: the bytes hashed agree exactly on equal maps, and so do the
digests of maps whose bytes do not collide. The covered accounts are the texts
of the map's keys, of the absent accounts too, each once and in key order. -/
theorem poststate_canonical (X : Producers) (P : Primitives) (outcome outcome' : Outcome)
    (h : Measured outcome.post) (h' : Measured outcome'.post) :
    (poststatePreimage outcome.post = poststatePreimage outcome'.post ↔
        ∀ key, outcome.post.get key = outcome'.post.get key) ∧
      (proofFromOutcome X P outcome).poststateDigest =
        hexEncode (P.sha256 (poststatePreimage outcome.post)).toList ∧
      (P.CollisionFree
          {m | m = poststatePreimage outcome.post ∨ m = poststatePreimage outcome'.post} →
        ((proofFromOutcome X P outcome).poststateDigest =
            (proofFromOutcome X P outcome').poststateDigest ↔
          ∀ key, outcome.post.get key = outcome'.post.get key)) ∧
      ((∀ key, (outcome.post.get key).isSome = (outcome'.post.get key).isSome) →
        (proofFromOutcome X P outcome).coveredAccounts =
          (proofFromOutcome X P outcome').coveredAccounts) ∧
      ∃ keys : List Pubkey,
        (keys.Pairwise fun a b => a.toList < b.toList) ∧
          (∀ key, key ∈ keys ↔ (outcome.post.get key).isSome = true) ∧
          (proofFromOutcome X P outcome).coveredAccounts = keys.map X.pubkeyText := by
  refine ⟨poststatePreimage_eq_iff h h', rfl, poststateDigest_eq_iff h h', fun hkeys => ?_, _, ?_,
    fun key => ?_, coveredAccounts_proofFromOutcome X P outcome⟩
  · rw [coveredAccounts_proofFromOutcome, coveredAccounts_proofFromOutcome,
      sortByKey_keys_congr hkeys]
  · exact pairwise_lt_sortByKey (outcome.post.nodup.map List.Vector.toList_injective)
  · rw [(perm_sortByKey _ _).mem_iff, AccountMap.isSome_get]

section

open Recorded

def closingMap : AccountMap where
  entries := [(recipientAccount, some (tokenSnapshot 25)), (sourceAccount, none)]
  nodup := by decide

/-- The same map from an iterator that goes the other way. -/
def closingMapReversed : AccountMap where
  entries := [(sourceAccount, none), (recipientAccount, some (tokenSnapshot 25))]
  nodup := by decide

theorem poststate_canonical_closing :
    poststatePreimage closingMap = poststatePreimage closingMapReversed := by
  obtain ⟨hpreimage, -⟩ := poststate_canonical (producers delivered) Reference.signedOnce
    { success := true, pre := closingMap, post := closingMap }
    { success := true, pre := closingMap, post := closingMapReversed } (by decide +kernel)
    (by decide +kernel)
  exact hpreimage.mpr (AccountMap.perm_iff_get.mp (List.Perm.swap _ _ []))

end

end Liquet.Custos
