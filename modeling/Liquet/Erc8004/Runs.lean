import Liquet.Erc8004.Validator

/-!
Runs of `handle_request` over any list of requests. Over the in-memory store a
run pins the decisions it publishes and changes nothing else, so what a run
leaves behind is a set: every response it emitted still verifies at the end,
and neither the order of the requests nor repeating them matters.
-/

namespace Liquet.Erc8004

open Text ContentAddressed

/-! ### Handling a list of calls -/

structure Call where
  request : ResolvedRequest
  validator : SettlementValidator

def Call.validated (c : Call) : Except ValidateError SignedDecision := c.validator c.request

/-- One handled call: the store before, what was returned and the store after. -/
structure Step (σ : Type) where
  call : Call
  before : σ
  result : Except ValidateError OnChainAction
  after : σ

def handleAll {σ : Type} (P : Primitives) (E : EvidenceStore σ) : List Call → σ → List (Step σ) × σ
  | [], store => ([], store)
  | c :: calls, store =>
      let (result, after) := handleRequest P E c.request c.validator store
      let (steps, final) := handleAll P E calls after
      ({ call := c, before := store, result, after } :: steps, final)

section

variable {P : Primitives} {calls : List Call} {store : MemStore}

theorem map_call_handleAll {σ : Type} (P : Primitives) (E : EvidenceStore σ) (calls : List Call)
    (store : σ) : (handleAll P E calls store).1.map Step.call = calls := by
  induction calls generalizing store with
  | nil => rfl
  | cons c calls ih => simp [handleAll, ih]

theorem handleRequest_of_mem_handleAll {σ : Type} {E : EvidenceStore σ} {store : σ} {step : Step σ}
    (h : step ∈ (handleAll P E calls store).1) :
    handleRequest P E step.call.request step.call.validator step.before =
      (step.result, step.after) := by
  induction calls generalizing store with
  | nil => cases h
  | cons c calls ih =>
      rcases List.mem_cons.mp h with rfl | h
      · rfl
      · exact ih h

theorem step_of_mem_handleAll {step : Step MemStore}
    (h : step ∈ (handleAll P (MemStore.evidenceStore P) calls store).1) :
    step.call ∈ calls ∧ step.result = actionFor P step.call.request step.call.validated ∧
      (published step.call.validated = none → step.after = step.before) := by
  have hcall : step.call ∈ calls := by
    rw [← map_call_handleAll P (MemStore.evidenceStore P) calls store]
    exact List.mem_map_of_mem h
  have hstep := handleRequest_of_mem_handleAll h
  rw [handleRequest_memStore] at hstep
  obtain ⟨hresult, hafter⟩ := Prod.mk.inj hstep
  refine ⟨hcall, hresult.symm, fun hnone => ?_⟩
  rw [Call.validated] at hnone
  rw [hnone] at hafter
  exact hafter.symm

theorem exists_step_of_mem {c : Call} (h : c ∈ calls) :
    ∃ step ∈ (handleAll P (MemStore.evidenceStore P) calls store).1, step.call = c := by
  rw [← map_call_handleAll P (MemStore.evidenceStore P) calls store] at h
  exact List.mem_map.mp h

/-- The run lemma: the final store is the first with the published decisions
pinned. -/
theorem byUri_handleAll (P : Primitives) (calls : List Call) (store : MemStore) :
    (handleAll P (MemStore.evidenceStore P) calls store).2.byUri =
      (MemStore.scheme P).pinAll store.byUri (calls.filterMap fun c => published c.validated) := by
  induction calls generalizing store with
  | nil => rfl
  | cons c calls ih =>
      simp only [handleAll, handleRequest_memStore, List.filterMap_cons]
      rw [ih, Call.validated]
      cases published (c.validator c.request) with
      | none => rfl
      | some signed => rfl

theorem after_eq_before_of_quiet {step : Step MemStore}
    (h : step ∈ (handleAll P (MemStore.evidenceStore P) calls store).1)
    (hquiet : (∃ requestHash tag, step.result = .ok (.abstain requestHash tag)) ∨
      ∃ e, step.result = .error e) : step.after = step.before := by
  obtain ⟨-, haction, hafter⟩ := step_of_mem_handleAll h
  apply hafter
  -- had anything been published, the step would have responded
  rw [Option.eq_none_iff_forall_ne_some]
  intro s hs
  obtain ⟨response, hresponse⟩ := exists_response_of_published hs
  have hrespond : step.result = .ok (.respond step.call.request.requestHash response
      (MemStore.uri P s) (contentHash P s) (responseAndTag s.binding).2) := by
    rw [haction]
    exact actionFor_eq_respond.mpr ⟨s, hs, rfl, hresponse.symm, rfl, rfl, rfl⟩
  rcases hquiet with ⟨requestHash, tag, habstain⟩ | ⟨e, herror⟩
  · rw [hrespond] at habstain
    cases habstain
  · rw [hrespond] at herror
    cases herror

theorem abstains_iff {step : Step MemStore}
    (h : step ∈ (handleAll P (MemStore.evidenceStore P) calls store).1) :
    (∃ requestHash tag, step.result = .ok (.abstain requestHash tag)) ↔
      ∃ s, step.call.validated = .ok s ∧ s.binding.reconcile = .unverifiable := by
  obtain ⟨-, haction, -⟩ := step_of_mem_handleAll h
  rw [haction]
  constructor
  · rintro ⟨requestHash, tag, habstain⟩
    obtain ⟨s, hs, hreconcile, -⟩ := actionFor_eq_abstain.mp habstain
    exact ⟨s, hs, hreconcile⟩
  · rintro ⟨s, hs, hreconcile⟩
    exact ⟨_, _, actionFor_eq_abstain.mpr ⟨s, hs, hreconcile, rfl, rfl⟩⟩

theorem requestHash_of_step {step : Step MemStore}
    (h : step ∈ (handleAll P (MemStore.evidenceStore P) calls store).1) (action : OnChainAction)
    (hresult : step.result = .ok action) :
    action.requestHash = step.call.request.requestHash := by
  obtain ⟨-, haction, -⟩ := step_of_mem_handleAll h
  rw [haction] at hresult
  exact requestHash_of_actionFor hresult

theorem map_result_handleAll {requests : List ResolvedRequest} {validator : SettlementValidator}
    (store : MemStore) :
    (handleAll P (MemStore.evidenceStore P) (requests.map (Call.mk · validator)) store).1.map
        Step.result =
      requests.map fun req => actionFor P req (validator req) := by
  induction requests generalizing store with
  | nil => rfl
  | cons req requests ih => simp only [List.map_cons, handleAll, handleRequest_memStore, ih]

end

/-! ### What the store holds -/

def publishedBy (calls : List Call) : List SignedDecision :=
  calls.filterMap fun c => published c.validated

/-- The bindings the validators of a run sign. -/
def boundBy (calls : List Call) : Set DecisionBinding :=
  {b | ∃ c ∈ calls, ∃ s, c.validated = .ok s ∧ s.binding = b}

section

variable {P : Primitives} {key : SigningKey} {calls : List Call} {store : MemStore}

theorem mem_publishedBy {s : SignedDecision} :
    s ∈ publishedBy calls ↔ ∃ c ∈ calls, published c.validated = some s := by
  simp [publishedBy]

/-- With one key, and no collisions among the bindings signed, the address of
a published decision decides its bundle. -/
theorem coherent_publishedBy
    (hvalidators : ∀ c ∈ calls, ∀ s, c.validated = .ok s → ∃ b, s = signDecision P b key)
    (hcollision : P.CollisionFree (DecisionBinding.preimage '' boundBy calls)) :
    (MemStore.scheme P).Coherent {s | s ∈ publishedBy calls} := by
  have hsigned : ∀ s ∈ publishedBy calls,
      s.binding ∈ boundBy calls ∧ s = signDecision P s.binding key := by
    intro s hs
    obtain ⟨c, hc, hpublished⟩ := mem_publishedBy.mp hs
    have hvalidated := (published_eq_some.mp hpublished).1
    obtain ⟨b, rfl⟩ := hvalidators c hc s hvalidated
    exact ⟨⟨c, hc, _, hvalidated, rfl⟩, rfl⟩
  apply Scheme.coherent_of_injOn
  intro s hs s' hs' haddress
  obtain ⟨hbound, heq⟩ := hsigned s hs
  obtain ⟨hbound', heq'⟩ := hsigned s' hs'
  have hbinding := digest_injOn hcollision hbound hbound' (MemStore.uri_eq_iff.mp haddress)
  rw [heq, heq', hbinding]

/-- A run from a new store refines adding to a set: the final store stands for
the set of the decisions published. -/
theorem represents_handleAll
    (hvalidators : ∀ c ∈ calls, ∀ s, c.validated = .ok s → ∃ b, s = signDecision P b key)
    (hcollision : P.CollisionFree (DecisionBinding.preimage '' boundBy calls)) :
    (MemStore.scheme P).Represents
      (handleAll P (MemStore.evidenceStore P) calls .new).2.byUri {s | s ∈ publishedBy calls} := by
  rw [byUri_handleAll]
  exact Scheme.represents_pinAll (coherent_publishedBy hvalidators hcollision)

theorem mem_byUri_handleAll {u : String} :
    u ∈ (handleAll P (MemStore.evidenceStore P) calls .new).2.byUri ↔
      ∃ s ∈ publishedBy calls, MemStore.uri P s = u := by
  rw [byUri_handleAll, Scheme.mem_pinAll]
  exact or_iff_right Finmap.notMem_empty

theorem exists_respond_iff {u : String} :
    (∃ step ∈ (handleAll P (MemStore.evidenceStore P) calls store).1, ∃ requestHash response hash tag,
        step.result = .ok (.respond requestHash response u hash tag)) ↔
      ∃ s ∈ publishedBy calls, MemStore.uri P s = u := by
  constructor
  · rintro ⟨step, hstep, requestHash, response, hash, tag, hresult⟩
    obtain ⟨hcall, haction, -⟩ := step_of_mem_handleAll hstep
    rw [haction] at hresult
    obtain ⟨s, hs, -, -, huri, -⟩ := actionFor_eq_respond.mp hresult
    exact ⟨s, mem_publishedBy.mpr ⟨_, hcall, hs⟩, huri.symm⟩
  · rintro ⟨s, hs, rfl⟩
    obtain ⟨c, hc, hpublished⟩ := mem_publishedBy.mp hs
    obtain ⟨step, hstep, rfl⟩ := @exists_step_of_mem P calls store c hc
    obtain ⟨-, haction, -⟩ := step_of_mem_handleAll hstep
    obtain ⟨response, hresponse⟩ := exists_response_of_published hpublished
    refine ⟨step, hstep, step.call.request.requestHash, response, contentHash P s,
      (responseAndTag s.binding).2, ?_⟩
    rw [haction]
    exact actionFor_eq_respond.mpr ⟨s, hpublished, rfl, hresponse.symm, rfl, rfl, rfl⟩

def Step.responseHash {σ : Type} (step : Step σ) : Option String :=
  match step.result with
  | .ok (.respond _ _ _ hash _) => some hash
  | _ => none

theorem responseHash_of_mem_handleAll {step : Step MemStore}
    (h : step ∈ (handleAll P (MemStore.evidenceStore P) calls store).1) :
    step.responseHash = (published step.call.validated).map (contentHash P) := by
  obtain ⟨-, haction, -⟩ := step_of_mem_handleAll h
  rw [Step.responseHash, haction]
  cases hvalidated : step.call.validated with
  | error e => rfl
  | ok s =>
      by_cases hreconcile : s.binding.reconcile = .unverifiable
      · simp [actionFor, published, hreconcile, responseAndTag]
      · cases hresponse : (responseAndTag s.binding).1 with
        | none => exact absurd (responseAndTag_fst_eq_none.mp hresponse) hreconcile
        | some response => simp [actionFor, published, hreconcile, hresponse]

theorem filterMap_responseHash (P : Primitives) (calls : List Call) (store : MemStore) :
    (handleAll P (MemStore.evidenceStore P) calls store).1.filterMap Step.responseHash =
      (publishedBy calls).map (contentHash P) := by
  have hsteps : (handleAll P (MemStore.evidenceStore P) calls store).1.filterMap Step.responseHash =
      (handleAll P (MemStore.evidenceStore P) calls store).1.filterMap
        fun step => (published step.call.validated).map (contentHash P) :=
    List.filterMap_congr fun step hstep => responseHash_of_mem_handleAll hstep
  rw [hsteps, publishedBy, List.map_filterMap]
  nth_rewrite 2 [← map_call_handleAll P (MemStore.evidenceStore P) calls store]
  rw [List.filterMap_map]
  rfl

theorem len_handleAll (P : Primitives) (calls : List Call) :
    (handleAll P (MemStore.evidenceStore P) calls .new).2.len =
      ((handleAll P (MemStore.evidenceStore P) calls .new).1.filterMap
        Step.responseHash).toFinset.card := by
  have hkeys : (handleAll P (MemStore.evidenceStore P) calls .new).2.byUri.keys =
      ((publishedBy calls).map (MemStore.uri P)).toFinset := by
    rw [byUri_handleAll]
    exact Scheme.keys_pinAll_empty
  have huris : ((publishedBy calls).map (MemStore.uri P)).toFinset =
      ((publishedBy calls).map (contentHash P)).toFinset.image ("mem://" ++ ·) := by
    ext u
    simp only [List.mem_toFinset, List.mem_map, Finset.mem_image, exists_exists_and_eq_and]
    rfl
  have hinjective : Function.Injective fun hash : String => "mem://" ++ hash :=
    fun _ _ h => (String.append_right_inj _).mp h
  rw [MemStore.len, hkeys, huris, filterMap_responseHash]
  exact Finset.card_image_of_injective _ hinjective

/-- A published decision can be fetched from the final store, and its bundle
verifies under the operator's key. -/
theorem served_of_published (hkey : P.SignsCorrectly key)
    (hvalidators : ∀ c ∈ calls, ∀ s, c.validated = .ok s → ∃ b, s = signDecision P b key)
    (hcollision : P.CollisionFree (DecisionBinding.preimage '' boundBy calls))
    {s : SignedDecision} (hs : s ∈ publishedBy calls) :
    MemStore.Serves P (handleAll P (MemStore.evidenceStore P) calls .new).2
      { value := MemStore.uri P s } (contentHash P s) (signerHex P key)
      (validationResponse P s) := by
  obtain ⟨c, hc, hpublished⟩ := mem_publishedBy.mp hs
  obtain ⟨b, rfl⟩ := hvalidators c hc s (published_eq_some.mp hpublished).1
  refine ⟨evidenceBundleJson (signDecision P b key), ?_, ?_⟩
  · rw [MemStore.get_eq_ok, represents_handleAll hvalidators hcollision]
    exact ⟨_, hs, rfl, rfl⟩
  · exact verifyBundle_evidenceBundleJson (verifyDecision_signDecision hkey b)

end

/-! ### Evidence exactness -/

/-- At the end of a run from a new store: every response emitted is served and
verifies with the score, tag and hash it was emitted with; the addresses in the
store are those emitted, one for each distinct hash; a step that abstained or
failed left the store as it was, and abstaining is what `Unverifiable` leads
to; and every action names its own request. -/
theorem handleAll_evidence_exact {P : Primitives} {key : SigningKey}
    (hkey : P.SignsCorrectly key) {calls : List Call}
    (hvalidators : ∀ c ∈ calls, ∀ s, c.validated = .ok s → ∃ b, s = signDecision P b key)
    (hcollision : P.CollisionFree (DecisionBinding.preimage '' boundBy calls)) :
    let run := handleAll P (MemStore.evidenceStore P) calls .new
    run.1.map Step.call = calls ∧
      (∀ step ∈ run.1, ∀ requestHash response uri hash tag,
        step.result = .ok (.respond requestHash response uri hash tag) →
        ∃ bundle vr, MemStore.get { value := uri } run.2 = .ok bundle ∧
          verifyBundle P bundle hash (signerHex P key) = .ok vr ∧
          vr.response = some response ∧ vr.tag = tag ∧ vr.responseHash = hash) ∧
      (∀ u, u ∈ run.2.byUri ↔ ∃ step ∈ run.1, ∃ requestHash response hash tag,
        step.result = .ok (.respond requestHash response u hash tag)) ∧
      run.2.len = (run.1.filterMap Step.responseHash).toFinset.card ∧
      (∀ step ∈ run.1, ((∃ requestHash tag, step.result = .ok (.abstain requestHash tag)) ∨
        ∃ e, step.result = .error e) → step.after = step.before) ∧
      (∀ step ∈ run.1, (∃ requestHash tag, step.result = .ok (.abstain requestHash tag)) ↔
        ∃ s, step.call.validated = .ok s ∧ s.binding.reconcile = .unverifiable) ∧
      ∀ step ∈ run.1, ∀ action, step.result = .ok action →
        action.requestHash = step.call.request.requestHash := by
  intro run
  refine ⟨map_call_handleAll _ _ _ _, ?_, ?_, len_handleAll P calls,
    fun step => after_eq_before_of_quiet, fun step => abstains_iff, fun step => requestHash_of_step⟩
  · intro step hstep requestHash response uri hash tag hresult
    obtain ⟨hcall, haction, -⟩ := step_of_mem_handleAll hstep
    rw [haction] at hresult
    obtain ⟨s, hs, -, hresponse, rfl, rfl, rfl⟩ := actionFor_eq_respond.mp hresult
    obtain ⟨bundle, hget, hverify⟩ :=
      served_of_published hkey hvalidators hcollision (mem_publishedBy.mpr ⟨_, hcall, hs⟩)
    exact ⟨bundle, _, hget, hverify, hresponse.symm, rfl, rfl⟩
  · intro u
    rw [mem_byUri_handleAll, exists_respond_iff]

def goldenRequest : ResolvedRequest :=
  { requestHash := "0xreq", agentId := 42, claimJson := "{}" }

/-- A validator that signs the golden binding for that request and can resolve
no other. -/
def goldenValidator : SettlementValidator := fun req =>
  if req = goldenRequest then .ok goldenSigned else .error (.unresolvable "missing prestate")

def otherRequest : ResolvedRequest :=
  { requestHash := "0xother", agentId := 7, claimJson := "" }

theorem goldenValidator_eq_ok {req : ResolvedRequest} {s : SignedDecision}
    (h : goldenValidator req = .ok s) : s = goldenSigned := by
  rw [goldenValidator] at h
  split at h
  · exact (Except.ok.inj h).symm
  · cases h

theorem collisionFree_of_forall_eq {S : Set DecisionBinding} (h : ∀ b ∈ S, b = goldenBinding) :
    Reference.primitives.CollisionFree (DecisionBinding.preimage '' S) := by
  apply Set.Subsingleton.injOn
  rintro _ ⟨b, hb, rfl⟩ _ ⟨b', hb', rfl⟩
  rw [h b hb, h b' hb']

theorem handleAll_evidence_exact_golden :
    ∃ bundle vr, MemStore.get { value := MemStore.uri Reference.primitives goldenSigned }
        (handleAll Reference.primitives (MemStore.evidenceStore Reference.primitives)
          [⟨otherRequest, goldenValidator⟩, ⟨goldenRequest, goldenValidator⟩] .new).2 =
          .ok bundle ∧
      verifyBundle Reference.primitives bundle (contentHash Reference.primitives goldenSigned)
        (signerHex Reference.primitives Reference.operatorKey) = .ok vr ∧
      vr.response = some 100 ∧ vr.tag = "matched" := by
  let calls : List Call := [⟨otherRequest, goldenValidator⟩, ⟨goldenRequest, goldenValidator⟩]
  have hsigned : ∀ c ∈ calls, ∀ s, c.validated = .ok s → s = goldenSigned := by
    intro c hc s hs
    rcases List.mem_pair.mp hc with rfl | rfl
    · exact @goldenValidator_eq_ok otherRequest s hs
    · exact @goldenValidator_eq_ok goldenRequest s hs
  have hvalidators : ∀ c ∈ calls, ∀ s, c.validated = .ok s →
      ∃ b, s = signDecision Reference.primitives b Reference.operatorKey := by
    intro c hc s hs
    exact ⟨goldenBinding, by rw [signDecision_goldenBinding, hsigned c hc s hs]⟩
  have hcollision : Reference.primitives.CollisionFree
      (DecisionBinding.preimage '' boundBy calls) := by
    apply collisionFree_of_forall_eq
    rintro b ⟨c, hc, s, hs, rfl⟩
    rw [hsigned c hc s hs]
    rfl
  obtain ⟨-, hserved, -⟩ := handleAll_evidence_exact
    (Reference.signsCorrectly Reference.operatorKey) hvalidators hcollision
  obtain ⟨bundle, vr, hget, hverify, hresponse, htag, -⟩ :=
    hserved _ (List.mem_cons_of_mem _ List.mem_cons_self) "0xreq" 100 _ _ "matched" rfl
  exact ⟨bundle, vr, hget, hverify, hresponse, htag⟩

/-! ### Order and repetition -/

/-- Two runs over the same set of requests, in any order and with any
repetitions, give every request the same result each time it is handled and
leave the same store, whatever it held before. -/
theorem handleAll_order_independent {P : Primitives} {key : SigningKey}
    {validator : SettlementValidator}
    (hvalidator : ∀ req s, validator req = .ok s → ∃ b, s = signDecision P b key)
    {requests requests' : List ResolvedRequest} (hsame : ∀ req, req ∈ requests ↔ req ∈ requests')
    (hcollision : P.CollisionFree
      (DecisionBinding.preimage '' {b | ∃ req ∈ requests, ∃ s,
        validator req = .ok s ∧ s.binding = b}))
    (store : MemStore) :
    let run := handleAll P (MemStore.evidenceStore P) (requests.map (Call.mk · validator)) store
    let run' := handleAll P (MemStore.evidenceStore P) (requests'.map (Call.mk · validator)) store
    (∃ result : ResolvedRequest → Except ValidateError OnChainAction,
        run.1.map Step.result = requests.map result ∧
          run'.1.map Step.result = requests'.map result) ∧
      run.2 = run'.2 := by
  intro run run'
  refine ⟨⟨fun req => actionFor P req (validator req), ?_, ?_⟩, ?_⟩
  · exact map_result_handleAll _
  · exact map_result_handleAll _
  · have hbound : boundBy (requests.map (Call.mk · validator)) =
        {b | ∃ req ∈ requests, ∃ s, validator req = .ok s ∧ s.binding = b} := by
      ext b
      simp [boundBy, Call.validated]
    have hcoherent : (MemStore.scheme P).Coherent
        {s | s ∈ publishedBy (requests.map (Call.mk · validator))} := by
      apply coherent_publishedBy
      · intro c hc s hs
        obtain ⟨req, -, rfl⟩ := List.mem_map.mp hc
        exact hvalidator req s hs
      · rw [hbound]
        exact hcollision
    have hpublished (s : SignedDecision) :
        s ∈ publishedBy (requests.map (Call.mk · validator)) ↔
          s ∈ publishedBy (requests'.map (Call.mk · validator)) := by
      simp [mem_publishedBy, hsame]
    apply MemStore.ext
    rw [byUri_handleAll, byUri_handleAll]
    exact Scheme.pinAll_congr hcoherent hpublished

theorem handleAll_order_independent_golden :
    (handleAll Reference.primitives (MemStore.evidenceStore Reference.primitives)
        ([goldenRequest, otherRequest, goldenRequest].map (Call.mk · goldenValidator)) .new).2 =
      (handleAll Reference.primitives (MemStore.evidenceStore Reference.primitives)
        ([otherRequest, goldenRequest].map (Call.mk · goldenValidator)) .new).2 := by
  have hvalidator : ∀ req s, goldenValidator req = .ok s →
      ∃ b, s = signDecision Reference.primitives b Reference.operatorKey := by
    intro req s hs
    exact ⟨goldenBinding, by rw [signDecision_goldenBinding, goldenValidator_eq_ok hs]⟩
  have hcollision : Reference.primitives.CollisionFree (DecisionBinding.preimage ''
      {b | ∃ req ∈ [goldenRequest, otherRequest, goldenRequest], ∃ s,
        goldenValidator req = .ok s ∧ s.binding = b}) := by
    apply collisionFree_of_forall_eq
    rintro b ⟨req, -, s, hs, rfl⟩
    rw [goldenValidator_eq_ok hs]
    rfl
  exact (handleAll_order_independent hvalidator (fun req => by simp; tauto) hcollision .new).2

end Liquet.Erc8004
