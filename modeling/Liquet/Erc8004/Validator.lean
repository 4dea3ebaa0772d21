import Liquet.Erc8004.Store

/-!
The orchestration of `src/erc8004/validator.rs`: one resolved request is
validated, mapped to a response and pinned, or abstained on.
-/

namespace Liquet.Erc8004

open Text ContentAddressed

/-! ### One request -/

/-- A `ValidationRequest` event resolved off-chain. -/
structure ResolvedRequest where
  requestHash : String
  agentId : UInt64
  claimJson : String
  deriving DecidableEq, Repr

inductive ValidateError
  | unresolvable (message : String)
  | store (error : IoError)
  deriving DecidableEq, Repr

abbrev SettlementValidator := ResolvedRequest → Except ValidateError SignedDecision

inductive OnChainAction
  | respond (requestHash : String) (response : UInt8) (responseUri responseHash tag : String)
  | abstain (requestHash tag : String)
  deriving DecidableEq, Repr

def OnChainAction.requestHash : OnChainAction → String
  | .respond requestHash _ _ _ _ => requestHash
  | .abstain requestHash _ => requestHash

def handleRequest {σ : Type} (P : Primitives) (E : EvidenceStore σ) (req : ResolvedRequest)
    (validator : SettlementValidator) (store : σ) : Except ValidateError OnChainAction × σ :=
  match validator req with
  | .error e => (.error e, store)
  | .ok signed =>
      let vr := validationResponse P signed
      match vr.response with
      -- abstain before touching the store: nothing to pin, nothing to post
      | none => (.ok (.abstain req.requestHash vr.tag), store)
      | some response =>
          match E.put signed store with
          | (.error e, store') => (.error (.store e), store')
          | (.ok uri, store') =>
              (.ok (.respond req.requestHash response uri.value vr.responseHash vr.tag), store')

/-! ### One request over the in-memory store

The store takes every put, so the action is a function of the request and its
validation alone, and the store changes by at most one pin. -/

/-- The decision a validation leads to publishing, if any. -/
def published : Except ValidateError SignedDecision → Option SignedDecision
  | .error _ => none
  | .ok signed => if signed.binding.reconcile = .unverifiable then none else some signed

def actionFor (P : Primitives) (req : ResolvedRequest) :
    Except ValidateError SignedDecision → Except ValidateError OnChainAction
  | .error e => .error e
  | .ok signed =>
      match (responseAndTag signed.binding).1 with
      | none => .ok (.abstain req.requestHash (responseAndTag signed.binding).2)
      | some response =>
          .ok (.respond req.requestHash response (MemStore.uri P signed) (contentHash P signed)
            (responseAndTag signed.binding).2)

section

variable {P : Primitives} {req : ResolvedRequest} {validated : Except ValidateError SignedDecision}

theorem published_eq_some {signed : SignedDecision} :
    published validated = some signed ↔
      validated = .ok signed ∧ signed.binding.reconcile ≠ .unverifiable := by
  cases validated with
  | error e => simp [published]
  | ok s =>
      by_cases h : s.binding.reconcile = .unverifiable
      · simp only [published, if_pos h]
        constructor
        · intro hnone
          cases hnone
        · rintro ⟨hs, hne⟩
          cases hs
          exact absurd h hne
      · simp only [published, if_neg h, Option.some.injEq, Except.ok.injEq]
        constructor
        · rintro rfl
          exact ⟨rfl, h⟩
        · exact And.left

theorem exists_response_of_published {signed : SignedDecision}
    (h : published validated = some signed) :
    ∃ response, (responseAndTag signed.binding).1 = some response := by
  rw [← Option.isSome_iff_exists, Option.isSome_iff_ne_none]
  intro hnone
  exact (published_eq_some.mp h).2 (responseAndTag_fst_eq_none.mp hnone)

theorem handleRequest_of_put_error {σ : Type} {E : EvidenceStore σ} {store : σ}
    {validator : SettlementValidator} {signed : SignedDecision} {e : IoError}
    (hpublished : published (validator req) = some signed)
    (hput : (E.put signed store).1 = .error e) :
    (handleRequest P E req validator store).1 = .error (.store e) := by
  obtain ⟨response, hresponse⟩ := exists_response_of_published hpublished
  obtain ⟨hvalidated, -⟩ := published_eq_some.mp hpublished
  rw [handleRequest, hvalidated]
  simp only [validationResponse, hresponse]
  rw [← Prod.eta (E.put signed store), hput]

theorem actionFor_eq_respond {requestHash uri hash tag : String} {response : UInt8} :
    actionFor P req validated = .ok (.respond requestHash response uri hash tag) ↔
      ∃ s, published validated = some s ∧ requestHash = req.requestHash ∧
        some response = (responseAndTag s.binding).1 ∧ uri = MemStore.uri P s ∧
        hash = contentHash P s ∧ tag = (responseAndTag s.binding).2 := by
  cases validated with
  | error e => simp [actionFor, published]
  | ok signed =>
      cases hresponse : (responseAndTag signed.binding).1 with
      | none =>
          have hreconcile := responseAndTag_fst_eq_none.mp hresponse
          simp [actionFor, published, hresponse, hreconcile]
      | some r =>
          have hreconcile := reconcile_ne_of_response hresponse
          simp only [actionFor, published, hresponse, if_neg hreconcile, Option.some.injEq,
            exists_eq_left', Except.ok.injEq, OnChainAction.respond.injEq]
          tauto

theorem actionFor_eq_abstain {requestHash tag : String} :
    actionFor P req validated = .ok (.abstain requestHash tag) ↔
      ∃ s, validated = .ok s ∧ s.binding.reconcile = .unverifiable ∧
        requestHash = req.requestHash ∧ tag = tagUnverifiable := by
  cases validated with
  | error e => simp [actionFor]
  | ok signed =>
      cases hresponse : (responseAndTag signed.binding).1 with
      | none =>
          have hreconcile := responseAndTag_fst_eq_none.mp hresponse
          simp [actionFor, hreconcile, responseAndTag, eq_comm]
      | some r =>
          have hreconcile := reconcile_ne_of_response hresponse
          simp [actionFor, hresponse, hreconcile]

theorem requestHash_of_actionFor {action : OnChainAction}
    (h : actionFor P req validated = .ok action) : action.requestHash = req.requestHash := by
  cases action with
  | respond requestHash response uri hash tag =>
      obtain ⟨s, -, hrequest, -⟩ := actionFor_eq_respond.mp h
      exact hrequest
  | abstain requestHash tag =>
      obtain ⟨s, -, -, hrequest, -⟩ := actionFor_eq_abstain.mp h
      exact hrequest

/-- The step lemma: all `handle_request` does over the in-memory store. -/
theorem handleRequest_memStore (P : Primitives) (req : ResolvedRequest)
    (validator : SettlementValidator) (store : MemStore) :
    handleRequest P (MemStore.evidenceStore P) req validator store =
      (actionFor P req (validator req),
        match published (validator req) with
        | some signed => (MemStore.put P signed store).2
        | none => store) := by
  rw [handleRequest]
  cases validator req with
  | error e => rfl
  | ok signed =>
      cases hresponse : (responseAndTag signed.binding).1 with
      | none =>
          have hreconcile := responseAndTag_fst_eq_none.mp hresponse
          simp [validationResponse, actionFor, published, hresponse, hreconcile]
      | some r =>
          have hreconcile := reconcile_ne_of_response hresponse
          simp [validationResponse, actionFor, published, hresponse, hreconcile,
            MemStore.evidenceStore, MemStore.put, contentHash]

theorem handleRequest_of_response {validator : SettlementValidator} {signed : SignedDecision}
    {response : UInt8} {tag : String} (hvalidated : validator req = .ok signed)
    (hresponse : responseAndTag signed.binding = (some response, tag)) (store : MemStore) :
    handleRequest P (MemStore.evidenceStore P) req validator store =
      (.ok (.respond req.requestHash response (MemStore.uri P signed) (contentHash P signed) tag),
        (MemStore.put P signed store).2) := by
  have hpublished : published (validator req) = some signed :=
    published_eq_some.mpr ⟨hvalidated, reconcile_ne_of_response (congrArg Prod.fst hresponse)⟩
  rw [handleRequest_memStore, hpublished, hvalidated]
  simp only [actionFor, hresponse]

theorem handleRequest_of_abstain {validator : SettlementValidator} {signed : SignedDecision}
    {tag : String} (hvalidated : validator req = .ok signed)
    (hresponse : responseAndTag signed.binding = (none, tag)) (store : MemStore) :
    handleRequest P (MemStore.evidenceStore P) req validator store =
      (.ok (.abstain req.requestHash tag), store) := by
  have hreconcile : signed.binding.reconcile = .unverifiable :=
    responseAndTag_fst_eq_none.mp (congrArg Prod.fst hresponse)
  rw [handleRequest_memStore, hvalidated]
  simp only [actionFor, hresponse, published, if_pos hreconcile]

end

end Liquet.Erc8004
