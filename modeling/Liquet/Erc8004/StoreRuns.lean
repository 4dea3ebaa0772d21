import Liquet.Erc8004.Runs
import Liquet.Erc8004.StoreRefinement

/-!
Runs of `handle_request` over any store that implements the log of what was put
in it. A run answers as it does over the in-memory store, up to the text of the
URIs; and whoever published a decision last with a given digest decides what
every response with that digest points at, whichever validators share the
store.
-/

namespace Liquet.Erc8004

open Text ContentAddressed

/-! ### One request over any store -/

def answer (P : Primitives) (req : ResolvedRequest) (signed : SignedDecision) (uri : ResponseUri) :
    OnChainAction :=
  match (responseAndTag signed.binding).1 with
  | none => .abstain req.requestHash (responseAndTag signed.binding).2
  | some response =>
      .respond req.requestHash response uri.value (contentHash P signed)
        (responseAndTag signed.binding).2

section

variable {σ : Type} {P : Primitives} {E : EvidenceStore σ} {req : ResolvedRequest}
  {validator : SettlementValidator} {store : σ} {signed : SignedDecision}

theorem handleRequest_of_published (h : published (validator req) = some signed) :
    handleRequest P E req validator store =
      (((E.put signed store).1.mapError .store).map (answer P req signed),
        (E.put signed store).2) := by
  obtain ⟨response, hresponse⟩ := exists_response_of_published h
  obtain ⟨hvalidated, -⟩ := published_eq_some.mp h
  have hanswer (uri : ResponseUri) : answer P req signed uri =
      .respond req.requestHash response uri.value (contentHash P signed)
        (responseAndTag signed.binding).2 := by
    rw [answer, hresponse]
  rw [handleRequest, hvalidated]
  simp only [validationResponse, hresponse]
  rcases E.put signed store with ⟨e | uri, store'⟩
  · rfl
  · rw [Result.mapError_ok, Except.map, hanswer]
    rfl

theorem handleRequest_of_unpublished (h : published (validator req) = none) :
    handleRequest P E req validator store = (actionFor P req (validator req), store) := by
  rw [handleRequest]
  cases hvalidated : validator req with
  | error e => rfl
  | ok s =>
      have hreconcile : s.binding.reconcile = .unverifiable := by
        by_contra hne
        rw [published_eq_some.mpr ⟨hvalidated, hne⟩] at h
        cases h
      have hresponse := responseAndTag_fst_eq_none.mpr hreconcile
      simp only [validationResponse, actionFor, hresponse]

end

/-- The action for a request under a store's URIs, if its put succeeds. -/
def actionUnder (P : Primitives) (uri : SignedDecision → ResponseUri) (req : ResolvedRequest)
    (validated : Except ValidateError SignedDecision) : Except ValidateError OnChainAction :=
  match published validated with
  | none => actionFor P req validated
  | some signed => .ok (answer P req signed (uri signed))

theorem answer_eq_respond {P : Primitives} {req : ResolvedRequest} {signed : SignedDecision}
    {uri : ResponseUri} {requestHash u hash tag : String} {response : UInt8} :
    answer P req signed uri = .respond requestHash response u hash tag ↔
      (responseAndTag signed.binding).1 = some response ∧ req.requestHash = requestHash ∧
        uri.value = u ∧ contentHash P signed = hash ∧
        (responseAndTag signed.binding).2 = tag := by
  rw [answer]
  cases (responseAndTag signed.binding).1 with
  | none => exact iff_of_false nofun nofun
  | some r =>
      rw [OnChainAction.respond.injEq, Option.some.injEq]
      tauto

theorem actionUnder_eq_respond {P : Primitives} {uri : SignedDecision → ResponseUri}
    {req : ResolvedRequest} {validated : Except ValidateError SignedDecision}
    {requestHash u hash tag : String} {response : UInt8}
    (h : actionUnder P uri req validated = .ok (.respond requestHash response u hash tag)) :
    ∃ s, published validated = some s ∧ (responseAndTag s.binding).1 = some response ∧
      (uri s).value = u ∧ contentHash P s = hash ∧ (responseAndTag s.binding).2 = tag := by
  rw [actionUnder] at h
  cases hpublished : published validated with
  | none =>
      rw [hpublished] at h
      obtain ⟨s, hs, -⟩ := actionFor_eq_respond.mp h
      rw [hpublished] at hs
      cases hs
  | some s =>
      rw [hpublished] at h
      obtain ⟨hresponse, -, hu, hhash, htag⟩ := answer_eq_respond.mp (Except.ok.inj h)
      exact ⟨s, rfl, hresponse, hu, hhash, htag⟩

/-! ### Runs -/

section

variable {σ : Type} {P : Primitives} {E : EvidenceStore σ} {uri : SignedDecision → ResponseUri}
  {Holds : σ → List SignedDecision → Prop}

/-- The step lemma: one request adds to the log what it publishes. -/
theorem Implements.handleRequest (h : Implements P E uri Holds) {store : σ}
    {puts : List SignedDecision} (hholds : Holds store puts) (c : Call) :
    (Erc8004.handleRequest P E c.request c.validator store).1 =
        actionUnder P uri c.request c.validated ∧
      Holds (Erc8004.handleRequest P E c.request c.validator store).2
        (puts ++ (published c.validated).toList) := by
  cases hpublished : published c.validated with
  | none =>
      rw [handleRequest_of_unpublished hpublished, actionUnder, hpublished, Option.toList_none,
        List.append_nil]
      exact ⟨rfl, hholds⟩
  | some signed =>
      obtain ⟨store', hput, hholds'⟩ := h.put hholds signed
      rw [handleRequest_of_published hpublished, actionUnder, hpublished, hput, Option.toList_some]
      exact ⟨rfl, hholds'⟩

/-- The run lemma: every step answers under the store's URIs, and the log at
the end is what the run published. -/
theorem Implements.handleAll (h : Implements P E uri Holds) {store : σ}
    {puts : List SignedDecision} (hholds : Holds store puts) (calls : List Call) :
    (∀ step ∈ (Erc8004.handleAll P E calls store).1,
        step.result = actionUnder P uri step.call.request step.call.validated) ∧
      Holds (Erc8004.handleAll P E calls store).2 (puts ++ publishedBy calls) := by
  induction calls generalizing store puts with
  | nil =>
      refine ⟨nofun, ?_⟩
      rw [publishedBy, List.filterMap_nil, List.append_nil]
      exact hholds
  | cons c calls ih =>
      obtain ⟨hresult, hafter⟩ := h.handleRequest hholds c
      obtain ⟨hsteps, hfinal⟩ := ih hafter
      refine ⟨?_, ?_⟩
      · intro step hstep
        rcases List.mem_cons.mp hstep with rfl | hstep
        · exact hresult
        · exact hsteps step hstep
      · have hlog : puts ++ publishedBy (c :: calls) =
            puts ++ (published c.validated).toList ++ publishedBy calls := by
          rw [publishedBy, List.filterMap_cons, List.append_assoc]
          cases published c.validated <;> rfl
        rw [hlog]
        exact hfinal

theorem Implements.map_result_handleAll (h : Implements P E uri Holds) {store : σ}
    {puts : List SignedDecision} (hholds : Holds store puts) (calls : List Call) :
    (Erc8004.handleAll P E calls store).1.map Step.result =
      calls.map fun c => actionUnder P uri c.request c.validated := by
  conv_rhs => rw [← map_call_handleAll P E calls store, List.map_map]
  exact List.map_congr_left (h.handleAll hholds calls).1

end

/-! ### The file-backed store beside the in-memory one -/

/-- The URI of the file that the hash in a URI names. -/
def FileStore.relocate (store : FileStore) (uri : ResponseUri) : ResponseUri :=
  match uri.embeddedHash with
  | some hash => FileStore.uriFor (store.pathFor hash)
  | none => uri

def OnChainAction.mapUri (f : ResponseUri → ResponseUri) : OnChainAction → OnChainAction
  | .respond requestHash response uri hash tag =>
      .respond requestHash response (f { value := uri }).value hash tag
  | .abstain requestHash tag => .abstain requestHash tag

theorem relocate_memStore (P : Primitives) (store : FileStore) (signed : SignedDecision) :
    store.relocate { value := MemStore.uri P signed } = FileStore.uriFor (store.path P signed) := by
  rw [FileStore.relocate, embeddedHash_memStore]
  rfl

theorem mapUri_answer (P : Primitives) (req : ResolvedRequest) (signed : SignedDecision)
    (f : ResponseUri → ResponseUri) (uri : ResponseUri) :
    (answer P req signed uri).mapUri f = answer P req signed (f uri) := by
  rw [answer, answer]
  cases (responseAndTag signed.binding).1 <;> rfl

theorem map_mapUri_actionUnder (P : Primitives) (f : ResponseUri → ResponseUri)
    (uri : SignedDecision → ResponseUri) (req : ResolvedRequest)
    (validated : Except ValidateError SignedDecision) :
    (actionUnder P uri req validated).map (OnChainAction.mapUri f) =
      actionUnder P (fun signed => f (uri signed)) req validated := by
  rw [actionUnder, actionUnder]
  cases hpublished : published validated with
  | some signed => exact congrArg Except.ok (mapUri_answer P req signed f _)
  | none =>
      -- nothing was published, so no action has a URI
      dsimp only
      cases haction : actionFor P req validated with
      | error e => rfl
      | ok action =>
          cases action with
          | abstain requestHash tag => rfl
          | respond requestHash response u hash tag =>
              obtain ⟨s, hs, -⟩ := actionFor_eq_respond.mp haction
              rw [hpublished] at hs
              cases hs

/-- Under every root and over whatever files, a run over the file-backed store
takes the actions of the run over the in-memory store, with each URI moved to
the file of the hash in it. In both, the URI of a response embeds its hash, and
at the end the two URIs give one bundle. The validators are arbitrary. -/
theorem handleAll_fileStore_relocates (P : Primitives) (store : FileStore)
    (files : Files.FileSystem) (calls : List Call) :
    let file := handleAll P (store.evidenceStore P .none) calls files
    let mem := handleAll P (MemStore.evidenceStore P) calls .new
    file.1.map Step.result =
        mem.1.map (fun step => step.result.map (OnChainAction.mapUri store.relocate)) ∧
      ∀ step ∈ mem.1, ∀ requestHash response uri hash tag,
        step.result = .ok (.respond requestHash response uri hash tag) →
          ResponseUri.embeddedHash { value := uri } = some hash ∧
            (store.relocate { value := uri }).embeddedHash = some hash ∧
            ∃ bundle, MemStore.get { value := uri } mem.2 = .ok bundle ∧
              FileStore.get (store.relocate { value := uri }) file.2 = .ok bundle := by
  intro file mem
  have hfile := fileStore_implements P store
  have hmem := memStore_implements P
  have hfiles : (store.scheme P).Serves files [] := Scheme.serves_nil
  have hnew : (MemStore.scheme P).Serves MemStore.new.byUri [] := Scheme.serves_nil
  refine ⟨?_, ?_⟩
  · have hmap : mem.1.map (fun step => step.result.map (OnChainAction.mapUri store.relocate)) =
        (mem.1.map Step.result).map (Except.map (OnChainAction.mapUri store.relocate)) := by
      rw [List.map_map]
      rfl
    rw [hmap, hmem.map_result_handleAll hnew calls, hfile.map_result_handleAll hfiles calls,
      List.map_map]
    apply List.map_congr_left
    intro c _
    rw [Function.comp, map_mapUri_actionUnder]
    simp only [relocate_memStore]
  · intro step hstep requestHash response u hash tag hresult
    obtain ⟨hsteps, hholds⟩ := hmem.handleAll hnew calls
    have hcall : step.call ∈ calls := by
      rw [← map_call_handleAll P (MemStore.evidenceStore P) calls .new]
      exact List.mem_map_of_mem hstep
    rw [hsteps step hstep] at hresult
    obtain ⟨s, hs, -, rfl, rfl, -⟩ := actionUnder_eq_respond hresult
    have hpublished : s ∈ publishedBy calls := mem_publishedBy.mpr ⟨_, hcall, hs⟩
    rw [relocate_memStore]
    exact ⟨embeddedHash_memStore, embeddedHash_fileStore, _, hmem.get hholds s hpublished,
      hfile.get (hfile.handleAll hfiles calls).2 s hpublished⟩

/-! ### Validators that share a store -/

section

variable {P : Primitives}

theorem verifyBundle_of_hash {s : SignedDecision} {hash : String} (h : contentHash P s = hash)
    (trustedSigner : String) :
    verifyBundle P (evidenceBundleJson s) hash trustedSigner =
      ((verifyDecision P s trustedSigner).mapError .verify).map fun _ =>
        validationResponse P s := by
  have hequal : eqIgnoreAsciiCase (hexEncode (s.binding.digest P).toList) hash = true := by
    rw [eqIgnoreAsciiCase_iff, ← h]
    rfl
  rw [verifyBundle, parseBundle_evidenceBundleJson]
  simp only [Result.okOr, Result.bind_ok, hequal]
  cases verifyDecision P s trustedSigner with
  | error e => rfl
  | ok _ => rfl

end

/-- In a run over any store that implements the log, whatever validators it has
and however they sign, each response ends up pointing at the bundle of the
decision published last with its hash. To a relying party that bundle says what
the response said, under the signers that decision verifies under and no
others. -/
theorem Implements.serves_last {σ : Type} {P : Primitives} {E : EvidenceStore σ}
    {uri : SignedDecision → ResponseUri} {Holds : σ → List SignedDecision → Prop}
    (h : Implements P E uri Holds) (store : σ) (hstore : Holds store []) {calls : List Call}
    (hcollision : P.CollisionFree (DecisionBinding.preimage '' boundBy calls)) :
    let run := Erc8004.handleAll P E calls store
    ∀ step ∈ run.1, ∀ requestHash response u hash tag,
      step.result = .ok (.respond requestHash response u hash tag) →
        ∃ before last after, publishedBy calls = before ++ last :: after ∧
          contentHash P last = hash ∧ (∀ s ∈ after, contentHash P s ≠ hash) ∧
          E.get { value := u } run.2 = .ok (evidenceBundleJson last) ∧
          ∀ trustedSigner, verifyBundle P (evidenceBundleJson last) hash trustedSigner =
            ((verifyDecision P last trustedSigner).mapError .verify).map fun _ =>
              { response := some response, tag, responseHash := hash } := by
  intro run step hstep requestHash response u hash tag hresult
  obtain ⟨hsteps, hholds⟩ := h.handleAll hstore calls
  rw [List.nil_append] at hholds
  have hcall : step.call ∈ calls := by
    rw [← map_call_handleAll P E calls store]
    exact List.mem_map_of_mem hstep
  rw [hsteps step hstep] at hresult
  obtain ⟨s, hs, hresponse, rfl, rfl, rfl⟩ := actionUnder_eq_respond hresult
  have hpublished : s ∈ publishedBy calls := mem_publishedBy.mpr ⟨_, hcall, hs⟩
  have hget := h.get hholds s hpublished
  obtain ⟨before, last, after, hsplit, hlatest, haddress, hafter⟩ :=
    Scheme.exists_eq_append_latest (c := evidence P) hpublished
  have hlast : last ∈ publishedBy calls := by
    rw [hsplit]
    exact List.mem_append_right _ List.mem_cons_self
  have hhash := contentHash_inj.mpr haddress
  rw [hlatest] at hget
  refine ⟨before, last, after, hsplit, hhash, ?_, hget, ?_⟩
  · exact fun t ht heq => hafter t ht (contentHash_inj.mp heq)
  · -- one hash is of one binding, and the answer is a function of that
    have hbound {t : SignedDecision} (ht : t ∈ publishedBy calls) : t.binding ∈ boundBy calls := by
      obtain ⟨c, hc, hpublished⟩ := mem_publishedBy.mp ht
      exact ⟨c, hc, t, (published_eq_some.mp hpublished).1, rfl⟩
    have hbinding := digest_injOn hcollision (hbound hlast) (hbound hpublished) haddress
    intro trustedSigner
    rw [verifyBundle_of_hash hhash, validationResponse_congr hbinding, validationResponse,
      hresponse]
    rfl

/-- The golden decision, and then a copy of it by a validator that garbles its
signature. -/
def sharedCalls : List Call :=
  [⟨goldenRequest, goldenValidator⟩, ⟨otherRequest, fun _ => .ok MemStore.garbledSigned⟩]

theorem publishedBy_sharedCalls :
    publishedBy sharedCalls = [goldenSigned, MemStore.garbledSigned] := rfl

theorem contentHash_garbledSigned (P : Primitives) :
    contentHash P MemStore.garbledSigned = contentHash P goldenSigned := by
  have hbinding : MemStore.garbledSigned.binding = goldenSigned.binding := by
    rw [show MemStore.garbledSigned.binding = goldenBinding from rfl,
      show goldenSigned.binding = goldenBinding from rfl]
  rw [contentHash, hbinding, contentHash]

theorem verifyDecision_garbledSigned (P : Primitives) (trustedSigner : String) :
    verifyDecision P MemStore.garbledSigned trustedSigner ≠ .ok () := by
  intro h
  obtain ⟨-, hself⟩ := verifyDecision_eq_ok.mp h
  obtain ⟨-, -, bytes, -, -, -, hdecode, -⟩ := verifySelfConsistent_eq_ok.mp hself
  have hzz : hexDecode "zz" = none := by decide
  rw [show MemStore.garbledSigned.signature = "zz" from rfl, hzz] at hdecode
  cases hdecode

/-- The first response ends up with the second validator's bundle, which
verifies under no signer. -/
theorem serves_last_garbled :
    let E := FileStore.evidenceStore Reference.signedOnce { root := "evidence" } .none
    let run := handleAll Reference.signedOnce E sharedCalls ∅
    ∃ step ∈ run.1, ∃ u hash bundle,
      step.result = .ok (.respond "0xreq" 100 u hash "matched") ∧
        E.get { value := u } run.2 = .ok bundle ∧
        ∀ trustedSigner vr,
          verifyBundle Reference.signedOnce bundle hash trustedSigner ≠ .ok vr := by
  intro E run
  have hbound : ∀ b ∈ boundBy sharedCalls, b = goldenBinding := by
    rintro b ⟨c, hc, s, hs, rfl⟩
    rcases List.mem_pair.mp hc with rfl | rfl
    · rw [@goldenValidator_eq_ok goldenRequest s hs]
      rfl
    · obtain rfl := Except.ok.inj hs
      rfl
  have hcollision : Reference.signedOnce.CollisionFree
      (DecisionBinding.preimage '' boundBy sharedCalls) := collisionFree_of_forall_eq hbound
  obtain ⟨before, last, after, hsplit, -, hafter, hget, hverify⟩ :=
    (fileStore_implements Reference.signedOnce { root := "evidence" }).serves_last ∅
      Scheme.serves_nil hcollision _ List.mem_cons_self "0xreq" 100 _
      (contentHash Reference.signedOnce goldenSigned) "matched" rfl
  have hlast : last = MemStore.garbledSigned := by
    rw [publishedBy_sharedCalls] at hsplit
    cases before with
    | nil =>
        -- the garbled copy would come after the last decision with its hash
        obtain ⟨-, rfl⟩ := List.cons.inj hsplit
        exact absurd (contentHash_garbledSigned _) (hafter _ (List.mem_singleton_self _))
    | cons first before =>
        obtain ⟨-, hsplit⟩ := List.cons.inj hsplit
        rcases List.append_eq_singleton_iff.mp hsplit.symm with ⟨-, h⟩ | ⟨-, h⟩
        · exact (List.cons.inj h).1
        · cases h
  rw [hlast] at hget hverify
  refine ⟨_, List.mem_cons_self, _, contentHash Reference.signedOnce goldenSigned, _, rfl, hget,
    fun trustedSigner vr haccepted => ?_⟩
  rw [hverify] at haccepted
  cases hdecision : verifyDecision Reference.signedOnce MemStore.garbledSigned trustedSigner with
  | ok _ => exact verifyDecision_garbledSigned _ trustedSigner hdecision
  | error e =>
      rw [hdecision] at haccepted
      cases haccepted

end Liquet.Erc8004
