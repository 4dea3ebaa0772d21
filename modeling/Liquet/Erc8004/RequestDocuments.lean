import Liquet.Erc8004.LiquetValidator
import Liquet.Json.Decimal

/-!
Requests under other presentations. What the wired validator answers is about
the document of a claim: its layout, the order of its members, members of other
names among them and the agent that is named beside it make no difference, nor
does leaving `malice` out or giving the fields as an array.
-/

namespace Liquet.Erc8004

open Codec

/-! ### Claims -/

def SettlementRequest.fieldNames : List String := ["evm", "svm", "claim", "malice"]

/-- Two documents that carry one claim. -/
inductive SameClaim (X : Producers) : Json → Json → Prop
  /-- The members of each name are the same, whatever stands between them. -/
  | members {fields fields'}
      (h : ∀ name ∈ SettlementRequest.fieldNames,
        occurrences name fields = occurrences name fields') :
      SameClaim X (.obj fields) (.obj fields')
  /-- The fields stand in an array, without their names. -/
  | array {vs} (h : vs.length ≤ SettlementRequest.fieldNames.length) :
      SameClaim X (.arr vs) (.obj (SettlementRequest.fieldNames.zip vs))
  /-- The default of `malice` is written out. -/
  | noMalice {fields v} (hnone : occurrences "malice" fields = [])
      (hmalice : X.readSvmMalice v = some X.noMalice) :
      SameClaim X (.obj fields) (.obj (("malice", v) :: fields))
  | symm {j j'} (h : SameClaim X j j') : SameClaim X j' j
  | trans {j j' j''} (h : SameClaim X j j') (h' : SameClaim X j' j'') : SameClaim X j j''

/-- Two requests under one hash whose texts, however laid out, carry one claim. -/
def SameRequest (X : Producers) (req req' : ResolvedRequest) : Prop :=
  req.requestHash = req'.requestHash ∧ ∃ j j', Json.DenotesPadded j req.claimJson.toList ∧
    Json.DenotesPadded j' req'.claimJson.toList ∧ SameClaim X j j'

/-- What a claim that does not parse is answered, with the place of the error in
its text. -/
def parseError (X : Producers) (req : ResolvedRequest) : ValidateError :=
  .unresolvable ("parse claim_json: " ++ X.claimErrorText req.claimJson)

section

variable {X : Producers} {P : Primitives} {V : LiquetValidator} {j j' : Json}
  {req req' : ResolvedRequest}

theorem occurrences_cons_of_ne {name key : String} (h : key ≠ name) (v : Json)
    (fields : List (String × Json)) :
    occurrences name ((key, v) :: fields) = occurrences name fields := by
  rw [occurrences_cons, if_neg h]

theorem SameClaim.read_eq (h : SameClaim X j j') :
    SettlementRequest.read X j = SettlementRequest.read X j' := by
  induction h with
  | members h =>
      have hevm := h "evm" (by decide)
      have hsvm := h "svm" (by decide)
      have hclaim := h "claim" (by decide)
      have hmalice := h "malice" (by decide)
      simp only [SettlementRequest.read, structFields, Option.bind_eq_bind, Option.bind_some,
        required, defaulted, hevm, hsvm, hclaim, hmalice]
  | array h =>
      rw [SettlementRequest.fieldNames] at h
      simp only [SettlementRequest.read, structFields, if_pos h, SettlementRequest.fieldNames]
  | @noMalice fields v hnone hmalice =>
      have hevm := occurrences_cons_of_ne (by decide : "malice" ≠ "evm") v fields
      have hsvm := occurrences_cons_of_ne (by decide : "malice" ≠ "svm") v fields
      have hclaim := occurrences_cons_of_ne (by decide : "malice" ≠ "claim") v fields
      have hone : occurrences "malice" (("malice", v) :: fields) = [v] := by
        rw [occurrences_cons, if_pos rfl, hnone]
      simp only [SettlementRequest.read, structFields, Option.bind_eq_bind, Option.bind_some,
        required, defaulted, hevm, hsvm, hclaim, hone, hnone, hmalice]
  | symm _ ih => exact ih.symm
  | trans _ _ ih ih' => exact ih.trans ih'

theorem SameRequest.parse_eq (h : SameRequest X req req') :
    SettlementRequest.parse X req.claimJson = SettlementRequest.parse X req'.claimJson := by
  obtain ⟨-, j, j', hj, hj', hsame⟩ := h
  have hparse := Json.parse_of_denotes hj
  have hparse' := Json.parse_of_denotes hj'
  rw [String.ofList_toList] at hparse hparse'
  rw [SettlementRequest.parse, hparse, SettlementRequest.parse, hparse']
  exact hsame.read_eq

theorem validate_congr
    (h : SettlementRequest.parse X req.claimJson = SettlementRequest.parse X req'.claimJson) :
    V.validate X P req = V.validate X P req' ∨
      V.validate X P req = .error (parseError X req) ∧
        V.validate X P req' = .error (parseError X req') := by
  cases hparse : SettlementRequest.parse X req.claimJson with
  | none =>
      rw [hparse] at h
      right
      constructor
      · rw [LiquetValidator.validate, hparse]
        rfl
      · rw [LiquetValidator.validate, ← h]
        rfl
  | some sr =>
      rw [hparse] at h
      left
      rw [LiquetValidator.validate, hparse, LiquetValidator.validate, ← h]
      rfl

end

def callsFor (X : Producers) (P : Primitives) (V : LiquetValidator)
    (requests : List ResolvedRequest) : List Call :=
  requests.map fun req => { request := req, validator := V.validate X P }

/-- Two steps that differ in the texts of their requests: the stores are the
same, and so is the result, but for the place of an error in the text. -/
structure SameStep (X : Producers) {σ : Type} (step step' : Step σ) : Prop where
  before : step.before = step'.before
  after : step.after = step'.after
  result : step.result = step'.result ∨
    step.result = .error (parseError X step.call.request) ∧
      step'.result = .error (parseError X step'.call.request)

section

variable {X : Producers} {P : Primitives} {V : LiquetValidator} {req req' : ResolvedRequest}
  {σ : Type} {E : EvidenceStore σ}

theorem handleRequest_of_error {validator : SettlementValidator} {e : ValidateError}
    (h : validator req = .error e) (store : σ) :
    handleRequest P E req validator store = (.error e, store) := by
  rw [handleRequest, h]

theorem handleAll_cons (c : Call) (calls : List Call) (store : σ) :
    handleAll P E (c :: calls) store =
      let handled := handleRequest P E c.request c.validator store
      let run := handleAll P E calls handled.2
      ({ call := c, before := store, result := handled.1, after := handled.2 } :: run.1,
        run.2) := rfl

theorem SameRequest.handleRequest (h : SameRequest X req req') (store : σ) :
    handleRequest P E req (V.validate X P) store =
        handleRequest P E req' (V.validate X P) store ∨
      handleRequest P E req (V.validate X P) store = (.error (parseError X req), store) ∧
        handleRequest P E req' (V.validate X P) store = (.error (parseError X req'), store) := by
  rcases @validate_congr X P V req req' h.parse_eq with hvalidate | ⟨herror, herror'⟩
  · left
    rw [Erc8004.handleRequest, Erc8004.handleRequest, hvalidate, h.1]
  · exact .inr ⟨handleRequest_of_error herror store, handleRequest_of_error herror' store⟩

end

/-- Requests that carry the same claims, in whatever documents and for whatever
agents, are handled alike over every store, however its puts fail. -/
theorem handleAll_sameRequests {X : Producers} {requests requests' : List ResolvedRequest}
    (h : List.Forall₂ (SameRequest X) requests requests') (P : Primitives) (V : LiquetValidator)
    {σ : Type} (E : EvidenceStore σ) (store : σ) :
    let run := handleAll P E (callsFor X P V requests) store
    let run' := handleAll P E (callsFor X P V requests') store
    List.Forall₂ (SameStep X) run.1 run'.1 ∧ run.2 = run'.2 := by
  induction h generalizing store with
  | nil => exact ⟨.nil, rfl⟩
  | @cons req req' requests requests' h hs ih =>
      simp only [callsFor, List.map_cons, handleAll_cons]
      rcases h.handleRequest (P := P) (V := V) (E := E) store with heq | ⟨heq, heq'⟩
      · rw [heq]
        obtain ⟨hsteps, hfinal⟩ := ih (handleRequest P E req' (V.validate X P) store).2
        exact ⟨.cons ⟨rfl, rfl, .inl rfl⟩ hsteps, hfinal⟩
      · rw [heq, heq']
        obtain ⟨hsteps, hfinal⟩ := ih store
        exact ⟨.cons ⟨rfl, rfl, .inr ⟨rfl, rfl⟩⟩ hsteps, hfinal⟩

section

open Recorded

/-- The recorded claim with its members last to first and a note in front. -/
def reorderedClaim : Json :=
  .obj [("note", .num ['1']), ("claim", .null), ("svm", .null), ("evm", .null)]

def reorderedRequest : ResolvedRequest :=
  { requestHash := "0xreq", agentId := 8
    claimJson := String.ofList (['\n'] ++ (reorderedClaim.render ++ ['\n'])) }

theorem sameRequest_reordered (d : Delivery) :
    SameRequest (producers d) recordedRequest reorderedRequest := by
  have hvalid : reorderedClaim.Valid :=
    ⟨Json.isNumber_toDigits 1, trivial, trivial, trivial, trivial⟩
  have hspace : Json.Spaces ['\n'] := Json.spaces_singleton (by decide)
  have hsame : SameClaim (producers d) Recorded.claim reorderedClaim := by
    refine .members fun name hname => ?_
    simp only [SettlementRequest.fieldNames, List.mem_cons, List.not_mem_nil, or_false] at hname
    rcases hname with rfl | rfl | rfl | rfl <;> rfl
  refine ⟨rfl, _, _, ?_, ?_, hsame⟩
  · rw [recordedRequest, String.toList_ofList]
    exact .of_denotes (Json.denotes_render _ ⟨trivial, trivial, trivial, trivial⟩)
  · rw [reorderedRequest, String.toList_ofList]
    exact .pad hspace (Json.denotes_render _ hvalid) hspace

theorem handleAll_sameRequests_reordered :
    let X := producers delivered
    let E := MemStore.evidenceStore Reference.primitives
    reorderedRequest.claimJson ≠ recordedRequest.claimJson ∧
      (handleAll Reference.primitives E
          (callsFor X Reference.primitives defaultValidator [recordedRequest]) .new).2 =
        (handleAll Reference.primitives E
          (callsFor X Reference.primitives defaultValidator [reorderedRequest]) .new).2 := by
  intro X E
  refine ⟨?_, ?_⟩
  · decide
  · exact (handleAll_sameRequests (.cons (sameRequest_reordered delivered) .nil)
      Reference.primitives defaultValidator E MemStore.new).2

end

end Liquet.Erc8004
